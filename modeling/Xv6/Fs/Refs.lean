import Xv6.Fs.RefCalls

/-! # The references to inodes over runs

The runs of guarded calls keep every reference accounted for. The calls of `proc.c` and `exec.c`
need no condition: a process that leaves drops its files and its current directory before its slot
ceases to be live. -/

namespace Xv6.Fs

open Prog Thread

variable {t : Ptable} {s : State} {p : Slot}

/-! ## Processes -/

section

variable {K : Ptable → List Ip → State → Prop} (hK : Ledger K)

include hK

theorem closeFiles_ledger : Triple (K t l) (closeFiles p) fun _ => K t l := by
  refine .forM fun fd _ => .read fun r => ?_
  cases r with
  | none => exact .pure fun _ => id
  | some f => exact .bind (fileclose_ledger hK) fun _ => .writes fun _ h => hK.setOfile h

theorem dropFiles_ledger :
    Triple (K t l) (dropFiles p) fun _ s => K t l s ∧ s.cwd p = none :=
  .bind (closeFiles_ledger hK) fun _ => .bind (putCwd_ledger hK (v := none) (absurd rfl)) fun _ =>
    .writes fun _ h => ⟨h, Function.update_self ..⟩

theorem copyFiles_ledger (hl : Live (t.proc np).state) :
    Triple (fun s => K t l s ∧ s.cwd np = none) (copyFiles q np) fun _ => K t l := by
  refine .bind (Q := fun _ s => K t l s ∧ s.cwd np = none) (.forM fun fd _ => ?_) fun _ => ?_
  · refine .read fun r => ?_
    cases r with
    | none => exact .pure fun _ => id
    | some f =>
      have hcwd : Triple (fun s => s.cwd np = none) (filedup f) fun _ s => s.cwd np = none :=
        .bind .check fun _ => .writes fun _ h => h.1
      exact .bind ((filedup_ledger hK).and hcwd) fun _ => .writes fun _ h => ⟨hK.setOfile h.1, h.2⟩
  · refine .reads_bind fun c => ?_
    cases c with
    | none =>
      refine .writes fun s h => hK.congr h.1.1 (fun m hc => ?_) rfl rfl
      exact hc.setCwd (absurd rfl) fun x => by simp [h.1.2]
    | some ip =>
      have hcwd : Triple (fun s => s.cwd np = none) (idup ip) fun _ s => s.cwd np = none :=
        .bind_pure (.writes fun _ => id)
      refine .bind ((hK.idup.and hcwd).pre fun s h => ⟨⟨h.1.1, h.2⟩, h.1.2⟩) fun _ => .writes ?_
      rintro s ⟨⟨rfl, h⟩, hnone⟩
      refine hK.congr h (fun m hc => hc.setCwd (fun _ => hl) fun x => ?_) rfl rfl
      simp [Counted.count_cons_eq, hnone]

/-- The process table is the one that is counted for. -/
theorem Ledger.bind {α : Type} {k : Ptable → Kernel α} {R : α → State → Prop}
    (h : Triple (K t l) (k t) R) : Triple (K t l) (reads State.tab >>= k) R := by
  refine .reads_bind fun u => ?_
  rintro s a s' ⟨hs, rfl⟩ hrun
  obtain ⟨m, hc⟩ := hK.exists_counted hs
  rw [hc.tab] at hrun
  exact h s a s' hs hrun

theorem Ledger.setTab {u : Ptable} (h : K t l s)
    (hu : ∀ q, s.cwd q ≠ none → Live (t.proc q).state → Live (u.proc q).state) :
    K u l (s.setTab u) := hK.congr h (fun _ hc => hc.setTab hu) rfl rfl

/-- The new slot of `fork` and `thread_create` had no current directory. -/
theorem setTab_ledger {u : Ptable} (kalloc : Bool)
    (hu : ∀ q, Live (t.proc q).state → Live (u.proc q).state) : Triple (K t l)
    (writes fun s => s.setTab u) fun _ s => K u l s ∧
      ∀ np, (allocproc t kalloc).1 = some np → s.cwd np = none := by
  refine .writes fun s h => ⟨hK.setTab h fun q _ => hu q, fun np hnp => ?_⟩
  obtain ⟨m, hc⟩ := hK.exists_counted h
  exact by_contra fun hcwd => allocproc_not_live hnp (hc.live np hcwd)

theorem sysFork_ledger {kalloc copyuvm : Bool} : Triple (K t l) (sysFork p kalloc copyuvm)
      fun _ => K (fork t p kalloc copyuvm).2 l := by
  refine hK.bind (.bind (setTab_ledger hK kalloc fun q => fork_live) fun _ => ?_)
  cases ha : (allocproc t kalloc).1 with
  | none => exact .pure fun _ => And.left
  | some np =>
    cases copyuvm with
    | false => exact .pure fun _ => And.left
    | true =>
      refine .bind (.pre (copyFiles_ledger hK (fork_new_live ha)) fun s h => ⟨h.1, h.2 np rfl⟩)
        fun _ => ?_
      exact .pure fun _ => id

/-- A slot that has dropped its files ceases to be live. -/
theorem leave_ledger {g : Ptable → Ptable}
    (hg : ∀ t q, q ≠ p → Live (t.proc q).state → Live ((g t).proc q).state) :
    Triple (K t l) (do dropFiles p; writes fun s => s.setTab (g s.tab)) fun _ => K (g t) l := by
  refine .bind (dropFiles_ledger hK) fun _ => .writes ?_
  rintro s ⟨h, hnone⟩
  obtain ⟨m, hc⟩ := hK.exists_counted h
  rw [hc.tab]
  exact hK.setTab h fun q hq => hg t q fun e => hq (e ▸ hnone)

theorem sysExit_ledger : Triple (K t l) (sysExit p) fun _ s => ∃ u, K u l s := by
  refine .bind (.mono .check (fun _ => id) fun _ _ => And.left) fun _ => hK.bind ?_
  have ht : ∀ q, Live (t.proc q).state → Live
      ((if (t.proc p).tid = 0 then clearSubthreads t p else (0, t)).2.proc q).state :=
    fun q => clearForExit_live
  generalize (if (t.proc p).tid = 0 then clearSubthreads t p else (0, t)) = r at ht ⊢
  obtain ⟨havethreads, u⟩ := r
  refine .ite (fun _ => ?_) fun _ => ?_
  · refine .bind (Q := fun _ => K u l) (.writes fun s h => ?_) fun _ => ?_
    · exact hK.setTab h fun q _ => ht q
    exact (leave_ledger hK fun _ _ => exitRest_live).post fun _ _ h => ⟨_, h⟩
  · exact .writes fun s h => ⟨_, hK.setTab h fun q _ hq => sleep_live (ht q hq)⟩

end

/-- All references are accounted for, whatever the process table is. -/
def Accounted (s : State) : Prop := ∃ t, Counted t [] s

theorem Counted.accounted (h : Counted t [] s) : Accounted s := ⟨t, h⟩

theorem sysThreadCreate_counted {kalloc allocuvm : Bool} :
    Triple (Counted t l) (sysThreadCreate p kalloc allocuvm)
      fun _ => Counted (threadCreate t p kalloc allocuvm).tab l := by
  refine Ledger.refs.bind (.bind (setTab_ledger .refs kalloc fun q => threadCreate_live)
    fun _ => ?_)
  cases ha : (allocproc t kalloc).1 with
  | none => exact .pure fun _ => And.left
  | some np =>
    cases allocuvm with
    | false => exact .pure fun _ => And.left
    | true =>
      refine .bind (.pre (copyFiles_ledger .refs (threadCreate_new_live ha))
        (fun s h => ⟨h.1, h.2 np rfl⟩)) fun _ => ?_
      exact .pure fun _ => id

theorem sysThreadExit_counted {retval : UInt32} :
    Triple (Counted t l) (sysThreadExit p retval) fun _ => Counted (threadExit t p retval) l :=
  .bind .check fun _ =>
    (leave_ledger .refs fun _ _ => threadExit_live).pre fun _ => And.left

theorem killThread_counted {pid : Int} {cp : Slot} :
    Triple (fun s => Accounted s) (killThread pid cp p) fun _ => Accounted := by
  refine .exists fun t => .read fun v => .ite (fun _ => .pure fun _ h => h.accounted) fun _ => ?_
  exact (leave_ledger .refs fun _ _ => threadClear_live).post fun _ _ h => h.accounted

theorem sysExec_counted {e : ExecEnd} :
    Triple (Counted t []) (sysExec p path e) fun _ => Accounted := by
  refine .bind (Q := fun _ => Accounted) (.writes fun s h => ?_) fun _ => .read fun pid => ?_
  · rw [h.tab]
    exact (h.setTab fun q _ => detach_live).accounted
  refine .bind (.forM fun q _ => killThread_counted) fun _ => .exists fun t => ?_
  refine .bind (namei_ledger .refs) fun r => ?_
  cases r with
  | none => exact .pure fun _ h => h.accounted
  | some ip =>
    refine .bind ilock_counted fun _ => .read fun ok => .bind iunlockput_counted fun _ => ?_
    refine .ite (fun _ => .pure fun _ h => h.accounted) fun _ => Ledger.refs.bind ?_
    cases he : execLoad t p e with
    | none => exact .stop
    | some r =>
      refine .bind_pure (.writes fun s h => ?_)
      exact (h.setTab fun q _ => execLoad_live he).accounted

/-! ## Runs -/

/-- A guarded call leaves all references accounted for. -/
theorem Call.run_counted {call : Call} (hl : Live (t.proc p).state) :
    Triple (fun s => Counted t [] s ∧ Guarded s (p, call)) (call.run p) fun _ => Accounted := by
  have hret : ∀ {α : Type} {P : State → Prop} {x : Kernel α}, Triple P x (fun _ => Counted t []) →
      Triple P (do let _ ← x) fun _ => Accounted :=
    fun h => .bind h fun _ => .pure fun _ h => h.accounted
  cases call with
  | sysOpen path omode => exact hret sysOpen_counted
  | sysClose fd => exact hret ((sysClose_ledger .refs).pre (fun _ => And.left))
  | sysDup fd => exact hret ((sysDup_ledger .refs).pre (fun _ => And.left))
  | sysMkdir path => exact hret mkdir_counted
  | sysMknod path => exact hret sysMknod_counted
  | sysLink old new => exact hret (sysLink_counted.pre (fun _ => And.left))
  | sysUnlink path => exact hret sysUnlink_counted
  | sysChdir path => exact hret (sysChdir_counted hl)
  | sysChmod path mode => exact hret sysChmod_counted
  | sysAddUser username password => exact hret sysAddUser_counted
  | sysDeleteUser username => exact hret sysDeleteUser_counted
  | sysFork kalloc copyuvm =>
    exact .bind ((sysFork_ledger .refs).pre (fun _ => And.left)) fun _ =>
      .pure fun _ h => h.accounted
  | sysThreadCreate kalloc allocuvm =>
    exact .bind (sysThreadCreate_counted.pre (fun _ => And.left)) fun _ =>
      .pure fun _ h => h.accounted
  | sysThreadExit retval =>
    exact sysThreadExit_counted.mono (fun _ => And.left) fun _ _ h => h.accounted
  | sysExec path e =>
    exact .bind_pure (sysExec_counted.pre (fun _ => And.left))
  | sysExit => exact (sysExit_ledger .refs).pre fun _ => And.left

/-- At the start the first process is in the root directory. -/
theorem counted_boot {inode : Nat → Inode} {tab : Ptable} {ltable : Users.Ltable}
    (htab : userinit pinit = some tab) : Counted tab [] (.boot inode tab ltable) := by
  have hcwd : (State.boot inode tab ltable).cwd = Function.update (fun _ => none) 0
      (some ⟨0, by decide⟩) := by
    funext p
    simp only [State.boot, Function.update_apply, Fin.ext_iff]
    rfl
  refine ⟨rfl, fun ip => ?_, fun _ _ => rfl, fun p hp => ?_⟩
  · have hfiles : (State.boot inode tab ltable).files ip = 0 :=
      Table.count_eq_zero fun f => by simp [State.boot, File.uses, File.closed]
    have hnone :
        Table.count (fun c : Option Ip => decide (c = some ip)) (fun _ : Slot => none) = 0 :=
      Table.count_eq_zero fun _ => by simp
    rw [hfiles, State.cwds, hcwd, Table.count_update, hnone]
    by_cases h : ip.val = 0
    · obtain rfl : ip = ⟨0, by decide⟩ := Fin.ext h
      rfl
    · have hne : (⟨0, by decide⟩ : Ip) ≠ ip := fun e => h (congrArg Fin.val e).symm
      simp only [State.boot, if_neg h, Option.some.injEq, hne]
      rfl
  · have h0 : p = 0 := by
      by_contra hne
      rw [hcwd, Function.update_of_ne hne] at hp
      exact hp rfl
    have hrun : (userinit pinit).map (fun t => (t.proc 0).state) = some .RUNNABLE := by
      decide +kernel
    rw [htab] at hrun
    rw [h0]
    exact .inr (.inl (Option.some.inj hrun))

theorem accounted : calls.Invariant Guarded Accounted where
  init := by
    rintro _ ⟨inode, tab, ltable, htab, rfl⟩
    exact (counted_boot htab).accounted
  step := by
    rintro s ⟨p, call⟩ s' ⟨t, h⟩ hg hs
    simp only [calls] at hs
    split at hs
    · next hc =>
      obtain ⟨⟨u, _⟩, hrun, rfl⟩ := Option.map_eq_some_iff.mp hs
      refine Call.run_counted ?_ s u _ ⟨h, hg⟩ hrun
      rw [← h.tab]
      exact .inr hc.1
    · cases hs

/-- In runs of guarded calls, the reference count of every entry of the inode cache is the number of
the files in use for it and of the live processes in its directory. -/
theorem ref_eq_card (h : calls.ReachedVia Guarded s) (ip : Ip) : (s.icache ip).ref =
    ((Finset.univ.filter fun f => 0 < (s.file f).ref ∧ (s.file f).type = .FD_INODE ip).card +
      (Finset.univ.filter fun p => Live (s.tab.proc p).state ∧ s.cwd p = some ip).card : Nat) := by
  obtain ⟨t, hc⟩ := accounted.of_reached h
  have hcwd : ∀ p, s.cwd p = some ip ↔ Live (s.tab.proc p).state ∧ s.cwd p = some ip := by
    refine fun p => ⟨fun e => ⟨?_, e⟩, And.right⟩
    rw [hc.tab]
    exact hc.live p (by rw [e]; nofun)
  rw [hc.ref, State.files, State.cwds, Table.count_eq_card, Table.count_eq_card]
  simp only [File.uses, decide_eq_true_eq, List.count_nil, Nat.cast_zero, add_zero, Nat.cast_add,
    ← hcwd]

theorem init_writeOnly : calls.init writeOnly := by
  obtain ⟨tab, htab⟩ := Option.isSome_iff_exists.mp (show (userinit pinit).isSome by decide +kernel)
  exact ⟨writeOnlyDisk, tab, _, htab, by rw [writeOnly, htab]; rfl⟩

/-- Two threads of a child are in the directory `"d"`, in which the file `"f"` is open and
unlinked. The directory is counted twice. -/
theorem ref_eq_card_shared : ∃ s, calls.ReachedVia Guarded s ∧
    (s.icache ⟨1, by decide⟩).ref = 2 ∧
    (Finset.univ.filter fun f =>
        0 < (s.file f).ref ∧ (s.file f).type = .FD_INODE ⟨1, by decide⟩).card +
      (Finset.univ.filter fun p =>
        Live (s.tab.proc p).state ∧ s.cwd p = some ⟨1, by decide⟩).card = 2 := by
  obtain ⟨s, hs, href⟩ := LTS.exists_reachedVia_of_run (M := calls) (C := Guarded)
    [(0, .sysMkdir [100]), (0, .sysOpen [100, 47, 102] (O_CREATE ||| O_RDWR)), (0, .sysDup 0),
      (0, .sysFork true true), (1, .sysChdir [100]), (1, .sysThreadCreate true true),
      (0, .sysClose 0), (1, .sysUnlink [102])]
    (fun s => decide ((s.icache ⟨1, by decide⟩).ref = 2)) init_writeOnly (by decide +kernel)
    (by decide +kernel)
  have href := of_decide_eq_true href
  have hcard := ref_eq_card hs ⟨1, by decide⟩
  rw [href] at hcard
  exact ⟨s, hs, href, by exact_mod_cast hcard.symm⟩

/-- After `chmod("/", 63)` by the first process the root directory is counted twice, and no file and
one process refer to it. -/
theorem chmod_keeps_reference : ∃ s, calls.Reached s ∧ (s.icache ⟨0, by decide⟩).ref = 2 ∧
    (Finset.univ.filter fun f =>
      0 < (s.file f).ref ∧ (s.file f).type = .FD_INODE ⟨0, by decide⟩).card = 0 ∧
    (Finset.univ.filter fun p =>
      Live (s.tab.proc p).state ∧ s.cwd p = some ⟨0, by decide⟩).card = 1 := by
  obtain ⟨s, hs, h⟩ := LTS.exists_reached_of_run [(0, .sysChmod [47] 63)] (fun s : State => decide (
    (s.icache ⟨0, by decide⟩).ref = 2 ∧
    (Finset.univ.filter fun f =>
      0 < (s.file f).ref ∧ (s.file f).type = .FD_INODE ⟨0, by decide⟩).card = 0 ∧
    (Finset.univ.filter fun p =>
      Live (s.tab.proc p).state ∧ s.cwd p = some ⟨0, by decide⟩).card = 1))
    init_writeOnly (by decide +kernel)
  exact ⟨s, hs, of_decide_eq_true h⟩

end Xv6.Fs
