import Xv6.Sys.CallSpec

/-! # The steps of the calls on processes

`fork` and `thread_create` copy the descriptors of a process to a slot that has none, if the files
are counted at the start. `exit`, `thread_exit` and `exec` close all files of a slot before it
ceases to be live. -/

namespace Xv6.Sys

open Fault Holding Thread
open Fs (Ip NFILE NOFILE)

variable {p q : Slot} {m : Mode} {c : Config} {R : Multiset Res} {s : State} {ip : Ip}
  {f : Fin NFILE} {fd : Fin NOFILE} {v : Option Ip}

/-! ## Dropping files -/

theorem State.put_setOfile {v : Option (Fin NFILE)} :
    (s.put ip).setOfile q fd v = (s.setOfile q fd v).put ip := by
  by_cases hf : s.Frees ip
  · have hf' : (s.setOfile q fd v).Frees ip := hf
    simp only [State.put, if_pos hf, if_pos hf']
    rfl
  · have hf' : ¬ (s.setOfile q fd v).Frees ip := hf
    simp only [State.put, if_neg hf, if_neg hf']
    rfl

/-- A descriptor can be cleared before its file is closed. -/
theorem State.close_setOfile {v : Option (Fin NFILE)} :
    (s.close f).setOfile q fd v = (s.setOfile q fd v).close f := by
  have hfile : (s.setOfile q fd v).file = s.file := rfl
  simp only [State.close, hfile]
  by_cases hr : (s.file f).ref - 1 > 0
  · rw [if_pos hr, if_pos hr]
    rfl
  · rw [if_neg hr, if_neg hr]
    cases (s.file f).type with
    | FD_INODE ip => exact State.put_setOfile
    | FD_NONE => rfl
    | FD_PIPE => rfl

@[simp] theorem State.close_ofile : (s.close f).ofile = s.ofile := by
  unfold State.close
  split
  · rfl
  · split
    · rw [State.put_ofile]
      rfl
    · rfl

/-- The descriptors of `q` that are not in the list are clear. -/
def AtClosing (p : Slot) (m : Mode) (c : Config) (R : Multiset Res) (q : Slot)
    (fds : List (Fin NOFILE)) (s : State) : Prop :=
  At p m c R s ∧ ∀ fd, fd ∉ fds → s.ofile q fd = none

theorem closeFiles_at : Triple (Blame p c) (At p m c R) (closeFiles p q) fun _ =>
    AtClosing p m c R q [] := by
  refine Triple.pre (P := AtClosing p m c R q (List.finRange NOFILE)) (.forM fun fd fds => ?_)
    (fun s h => ⟨h, fun fd hfd => absurd (List.mem_finRange fd) hfd⟩)
  refine .reads_bind fun o => ?_
  cases o with
  | none =>
    refine .pure fun s h => ⟨h.1.1, fun fd' hfd => ?_⟩
    by_cases e : fd' = fd
    · exact e ▸ h.2
    · exact h.1.2 fd' fun hm => (List.mem_cons.mp hm).elim e hfd
  | some f =>
    refine .bind (Q := fun _ t => ∃ s, (AtClosing p m c R q (fd :: fds) s ∧ s.ofile q fd = some f ∧
      1 ≤ (s.file f).ref) ∧ t = s.close f)
      (fileclose_rule (fun _ _ _ _ _ _ => blame_of rfl) ?_ ?_) fun _ => .writes ?_
    · rintro s ⟨⟨h, -⟩, hfd⟩ hr - hc
      have := (h.filesCounted hc).one_le_of_ofile hfd
      omega
    · exact fun s h h1 => ⟨s, ⟨h.1, h.2, h1⟩, rfl⟩
    · rintro t ⟨s, ⟨⟨h, hcl⟩, hfd, h1⟩, rfl⟩
      constructor
      · rw [State.close_setOfile]
        exact (h.file (.fdClear hfd)).close h1
      · intro fd' hm
        by_cases e : fd' = fd
        · simp [State.setOfile, e]
        · have := hcl fd' fun hc => (List.mem_cons.mp hc).elim e hm
          simpa [State.setOfile, e] using this

/-- The old current directory is dropped before the pointer is cleared. -/
theorem dropCwd_at : Triple (Blame p c) (AtClosing p m c R q [])
    (do beginOp; putCwd p q; endOp; writes fun s => s.setCwd q none) fun _ =>
      AtClosing p m c R q [] := by
  refine .bind (.writes (Q := fun _ => AtClosing p m c ({.op} + R) q []) fun s h =>
    ⟨h.1.lock .beginOp, h.2⟩) fun _ => ?_
  refine .bind (putCwd_at (v := none) (R := {.op} + R) (C := fun o => ∀ fd, fd ∉ [] → o q fd = none)
    fun s h => ⟨h.1.cache (.cwdClear q), h.2⟩) fun _ => ?_
  refine .bind (.writes (Q := fun _ s => AtClosing p m c R q [] (s.setCwd q none)) fun s h =>
    ⟨h.1.lock .endOp, h.2⟩) fun _ => ?_
  exact .writes fun s h => h

theorem dropFiles_at : Triple (Blame p c) (At p m c R) (dropFiles p q) fun _ =>
    AtClosing p m c R q [] := .bind closeFiles_at fun _ => dropCwd_at

/-! ## Copying files -/

theorem At.leakCwd (h : At p m c (cwdHeld v + R) s) : At p m c R s := by
  cases v with
  | none => simpa [cwdHeld] using h
  | some ip => exact h.cache .leak

/-- The slot `np` is live and has none of the descriptors in the list. -/
def AtCopying (p : Slot) (m : Mode) (c : Config) (R : Multiset Res) (np : Slot)
    (fds : List (Fin NOFILE)) (s : State) : Prop :=
  At p m c R s ∧ fds.Nodup ∧ (∀ fd ∈ fds, s.ofile np fd = none) ∧ Live (s.tab.proc np).state

theorem copyFiles_at : Triple (Blame p c)
    (fun s => At p m c R s ∧ (∀ fd, s.ofile np fd = none) ∧ Live (s.tab.proc np).state)
    (copyFiles q np) fun _ => At p m c R := by
  refine .bind (Q := fun _ => AtCopying p m c R np []) (Triple.pre
    (P := AtCopying p m c R np (List.finRange NOFILE)) (.forM fun fd fds => ?_)
    (fun s h => ⟨h.1, List.nodup_finRange _, fun fd _ => h.2.1 fd, h.2.2⟩))
    fun _ => ?_
  · refine .reads_bind fun o => ?_
    cases o with
    | none =>
      refine .pure ?_
      rintro s ⟨⟨h, hnd, hfree, hlive⟩, -⟩
      exact ⟨h, hnd.of_cons, fun fd' hm => hfree fd' (List.mem_cons_of_mem _ hm), hlive⟩
    | some f =>
      refine .bind (Q := fun _ t => ∃ s, AtCopying p m c R np (fd :: fds) s ∧ 1 ≤ (s.file f).ref ∧
        t = s.setFile f { s.file f with ref := (s.file f).ref + 1 }) (filedup_rule ?_ ?_) fun _ =>
        .writes ?_
      · exact fun s h hr => blame_filedup h.1.1 h.2 hr
      · exact fun s h h1 => ⟨s, h.1, h1, rfl⟩
      · rintro t ⟨s, ⟨h, hnd, hfree, hlive⟩, h1, rfl⟩
        have hset := (h.file (.dup h1)).file (.fdSet (hfree fd List.mem_cons_self) (.inr hlive))
        refine ⟨hset, hnd.of_cons, fun fd' hm => ?_, hlive⟩
        have hne : fd' ≠ fd := fun e => (List.nodup_cons.mp hnd).1 (e ▸ hm)
        have := hfree fd' (List.mem_cons_of_mem _ hm)
        simpa [State.setOfile, State.setFile, hne] using this
  · refine .reads_bind fun cwd => ?_
    cases cwd with
    | none => exact .writes fun s h => (h.1.1.cache (.cwdClear np)).leakCwd
    | some ip =>
      refine .bind (idup_rule (Q := fun r s => r = ip ∧ At p m c ({.ref .plain ip} + R) s) ?_)
        fun r => .of_and fun e => .writes fun s h => ?_
      · exact fun s h => ⟨rfl, h.1.1.cache (.get (.inr ⟨q, h.2⟩))⟩
      · exact e ▸ (h.cache (.cwdSet np)).leakCwd

section Counted
variable (hc : FilesCounted p c)
include hc

/-- A slot that was not live has no descriptors. -/
theorem At.no_files (h : At p m c R s) (hnp : ¬ Live (s.tab.proc np).state) :
    ∀ fd, s.ofile np fd = none := by
  intro fd
  by_contra hn
  exact hnp ((h.filesCounted hc).live np fd hn)

/-- A table is stored in which the live processes are still live. -/
theorem storeTab_at {g : Ptable → Ptable}
    (hg : ∀ t q, Live (t.proc q).state → Live ((g t).proc q).state) :
    Triple (Blame p c) (fun s => At p m c R s ∧ s.tab = t) (writes fun s => s.setTab (g t))
      fun _ s => At p m c R s ∧ s.tab = g t ∧
        ∀ q, ¬ Live (t.proc q).state → ∀ fd, s.ofile q fd = none := by
  refine .writes ?_
  rintro s ⟨h, rfl⟩
  exact ⟨h.table (.tab fun q hl => .inl (hg _ q hl)), rfl, fun q hq => h.no_files hc hq⟩

theorem sysFork_at : Triple (Blame p c) (At p m c R)
    (sysFork p kalloc copyuvm) fun _ => At p m c R := by
  refine .reads_bind fun t => .bind (storeTab_at hc (g := fun t => (fork t p kalloc copyuvm).2)
    fun t q hl => fork_live hl) fun _ => ?_
  split
  · next np hnp =>
    refine .bind_pure (copyFiles_at.pre ?_)
    rintro s ⟨h, ht, hfree⟩
    exact ⟨h, hfree np (allocproc_not_live hnp), ht ▸ fork_new_live hnp⟩
  · exact .pure fun s h => h.1

end Counted

/-! ## Threads -/

/-- What a call stores through a pointer. -/
def Call.word (t : Ptable) (p : Slot) : Call → Option (UInt32 × Ptr)
  | .sysThreadCreate thread kalloc allocuvm =>
    (threadCreate t p kalloc allocuvm).thread.map fun tid => (.ofInt tid, thread)
  | .sysThreadJoin thread retval =>
    match threadJoin t p thread with
    | .returns (v, _) _ => v.map (·, retval)
    | .sleeps _ => none
  | _ => none

/-- The state after what the call stores through a pointer, which it does first. -/
def Call.stored (s : State) (p : Slot) (call : Call) : State :=
  (call.word s.tab p).elim s fun w => s.store w.1 w.2

theorem State.store_cases {P : State → Prop} {w : UInt32} {ptr : Ptr} (h : P s)
    (hdata : ∀ i bytes, P (s.setData i bytes)) (hdir : ∀ i es, P (s.setDir i es)) :
    P (s.store w ptr) := by
  cases ptr with
  | user => exact h
  | buf i off =>
    rw [State.store]
    split_ifs
    · exact hdata i _
    · exact h
    · exact hdir i _
    · exact h

theorem Call.stored_cases {P : State → Prop} {call : Call} (h : P s)
    (hdata : ∀ i bytes, P (s.setData i bytes)) (hdir : ∀ i es, P (s.setDir i es)) :
    P (call.stored s p) := by
  unfold Call.stored
  cases call.word s.tab p with
  | none => exact h
  | some w => exact State.store_cases h hdata hdir

theorem FilesCounted.stored {call : Call} (h : FilesCounted p (0, s)) :
    FilesCounted p (0, call.stored s p) :=
  Call.stored_cases (P := fun t => FilesCounted p (0, t)) h (fun _ _ => ⟨h.ref, h.live, h.caller⟩)
    fun _ _ => ⟨h.ref, h.live, h.caller⟩

/-- A word is stored, and the call goes on from there. -/
theorem storeTo_at {call : Call} {ptr : Ptr} {w : Option UInt32}
    (h : call.stored s p = w.elim s fun w => s.store w ptr) :
    Triple (Blame p (0, call.stored s p)) (· = s) (storeTo ptr w) fun _ t =>
      At p m (0, call.stored s p) 0 t ∧ t.tab = s.tab := by
  refine .writes ?_
  rintro t rfl
  rw [← h]
  exact ⟨.refl, Call.stored_cases (P := fun u => u.tab = t.tab) rfl (fun _ _ => rfl) fun _ _ => rfl⟩

theorem sysThreadCreate_at {thread : Ptr} {allocuvm : Bool} (hc : FilesCounted p (0, s)) :
    let s' := (Call.sysThreadCreate thread kalloc allocuvm).stored s p
    Result (Blame p (0, s')) (fun _ => At p m (0, s') 0)
      (sysThreadCreate p thread kalloc allocuvm s) := by
  intro s'
  rw [sysThreadCreate, Fault.reads_bind]
  refine Triple.bind (storeTo_at (m := m) ?_) (fun _ => .bind (storeTab_at hc.stored
    (g := fun t => (threadCreate t p kalloc allocuvm).tab) fun t q hl => threadCreate_live hl)
    fun _ => ?_) s rfl
  · rw [Call.stored, Call.word]
    cases (threadCreate s.tab p kalloc allocuvm).thread with
    | none | some tid => rfl
  split
  · next np hnp =>
    refine .bind_pure (copyFiles_at.pre ?_)
    rintro s ⟨h, ht, hfree⟩
    exact ⟨h, hfree np (allocproc_not_live hnp), ht ▸ threadCreate_new_live hnp⟩
  · exact .pure fun s h => h.1

/-- `thread_join` clears a slot that is a zombie. -/
theorem sysThreadJoin_at {thread : Int} {retval : Ptr} :
    let s' := (Call.sysThreadJoin thread retval).stored s p
    Result (Blame p (0, s')) (fun _ => At p m (0, s') 0) (sysThreadJoin p thread retval s) := by
  intro s'
  rw [sysThreadJoin, Fault.reads_bind]
  rcases hj : threadJoin s.tab p thread with ⟨⟨v, r⟩, t⟩ | t
  · have hend : Triple (Blame p (0, s')) (· = s)
        (do storeTo retval v; writes fun s => s.setTab t; pure r) fun _ => At p m (0, s') 0 := by
      refine .bind (storeTo_at (m := m) ?_) fun _ => .bind (.writes
        (Q := fun _ => At p m (0, s') 0) ?_) fun _ => .pure fun _ => id
      · rw [Call.stored, Call.word, hj]
        cases v with
        | none | some v => rfl
      · rintro u ⟨h, hu⟩
        refine h.table (.tab fun q hl => .inl ?_)
        rw [hu] at hl
        rcases threadJoin_cases s.tab p thread with ⟨z, hz, -, e⟩ | e | ⟨-, e⟩
        · cases hj.symm.trans e
          refine live_setProc hl ?_
          rintro rfl
          rw [hz.2] at hl
          exact absurd hl (by decide)
        · cases hj.symm.trans e
          exact hl
        · cases hj.symm.trans e
    exact hend s rfl
  · exact blame_of rfl

/-! ## Exit -/

/-- The caller has closed its files and ceased to be live. -/
def AtExited (p : Slot) (m : Mode) (c : Config) (R : Multiset Res) (s : State) : Prop :=
  ∃ s₁ t, At p m c R s₁ ∧ (∀ fd, s₁.ofile p fd = none) ∧
    (∀ q, q ≠ p → Live (s₁.tab.proc q).state → Live (t.proc q).state) ∧ s = s₁.setTab t

theorem AtClosing.exited {g : Ptable → Ptable} (h : AtClosing p m c R p [] s)
    (hg : ∀ t q, q ≠ p → Live (t.proc q).state → Live ((g t).proc q).state) :
    AtExited p m c R (s.setTab (g s.tab)) :=
  ⟨s, g s.tab, h.1, fun fd => h.2 fd List.not_mem_nil, hg s.tab, rfl⟩

theorem sysThreadExit_at {retval : UInt32} : Triple (Blame p c) (At p m c R)
    (sysThreadExit p retval) fun _ => AtExited p m c R := by
  refine .bind (.check fun _ _ _ => blame_of rfl) fun _ => ?_
  refine .bind (dropFiles_at.pre (fun _ => And.left)) fun _ => .writes fun s h => ?_
  exact h.exited fun t q hq => threadExit_live hq

theorem sysExit_at : Triple (Blame p c) (At p m c R) (sysExit p) fun _ s =>
    At p m c R s ∨ AtExited p m c R s := by
  refine .bind (.check fun _ _ _ => blame_of rfl) fun _ => .reads_bind fun t => ?_
  have hclear : ∀ s : State, s.tab = t → ∀ q, Live (s.tab.proc q).state → Live
      ((if (t.proc p).tid = 0 then clearSubthreads t p else (0, t)).2.proc q).state := by
    rintro s rfl q hl
    exact clearForExit_live hl
  refine .ite (fun _ => ?_) fun _ => .writes ?_
  · refine .bind (.writes (Q := fun _ => At p m c R) ?_) fun _ => .bind dropFiles_at fun _ =>
      .writes fun s h => .inr (h.exited fun t q hq => exitRest_live hq)
    exact fun s h => h.1.1.table (.tab fun q hl => .inl (hclear s h.2 q hl))
  · exact fun s h => .inl (h.1.1.table (.tab fun q hl => .inl (sleep_live (hclear s h.2 q hl))))

/-! ## `exec` -/

theorem killThread_at : Triple (Blame p c) (At p m c R) (killThread pid p q) fun _ =>
    At p m c R := by
  refine .read fun v => .ite (fun _ => .pure fun _ => id) fun hv => ?_
  refine .bind dropFiles_at fun _ => .writes fun s h => h.1.table (.tab fun r hl => ?_)
  by_cases e : r = q
  · subst e
    exact .inr ⟨fun e => hv (.inr e), fun fd => h.2 fd List.not_mem_nil⟩
  · exact .inl (threadClear_live e hl)

theorem sysExec_at : Triple (Blame p c) (At p m c R) (sysExec p path e) fun _ =>
    At p m c R := by
  refine .bind (.writes (Q := fun _ => At p m c R) fun s h =>
    h.table (.tab fun q hl => .inl (detach_live hl))) fun _ => .read fun pid => ?_
  refine .bind (.forM (P := fun _ => At p m c R) fun q _ => killThread_at) fun _ => ?_
  refine .bind beginOp_at fun _ => .bind namei_at fun r => ?_
  cases r with
  | none => exact perm (zero_add _) return_at
  | some ip =>
    refine .bind ilock_at fun _ => .read fun ok => .bind iunlockput_at fun _ =>
      .bind endOp_at fun _ => .ite (fun _ => .pure fun _ => id) fun _ => .reads_bind fun t => ?_
    split
    · exact .panic (blame_of rfl)
    · next r u hu =>
      refine .bind_pure (.writes ?_)
      rintro s ⟨h, rfl⟩
      exact h.table (.tab fun q hl => .inl (execLoad_live hu hl))

end Xv6.Sys
