import Xv6.Fs.Refs
import Xv6.Sys.AccountSpec
import Xv6.Sys.ProcSpec

/-! # Whole calls and runs

A call ends with nothing in its hands, but for `flushUsers`, which may keep a lock and a
transaction. What the steps of a call keep therefore holds in every state that the kernel reaches.
The files are counted and the inode cache is sound. -/

namespace Xv6.Sys

open Fault Holding Thread
open Fs (NFILE NOFILE O_CREATE O_RDWR newPerm dot dotdot)

variable {p q : Slot} {m : Mode} {s : State} {call : Call} {R : Multiset Res} {f : Fin NFILE}

/-! ## Calls -/

def Call.mode : Call → Mode
  | .sysLink .. => .link
  | .sysLbegin | .sysAddUser .. | .sysDeleteUser .. | .sysLogin .. => .account
  | _ => .plain

/-- What a call may still hold at its end. -/
def Rest (R : Multiset Res) : Prop := R = 0 ∨ ∃ ip, R = {.lock ip} + {.op}

/-- The steps of a call of `p` lead from `s` to `s'`, where the caller may have exited. -/
def Ended (p : Slot) (m : Mode) (s s' : State) : Prop :=
  ∃ R, Rest R ∧ (At p m (0, s) R s' ∨ AtExited p m (0, s) R s')

theorem Ended.of_at (h : At p m (0, s) 0 s') : Ended p m s s' := ⟨0, .inl rfl, .inl h⟩

theorem Ended.of_updated {S N : Prop} (h : AtUpdated p m (0, s) 0 S N s') : Ended p m s s' := by
  rcases h with h | ⟨-, ip, h⟩
  · exact .of_at h.1
  · exact ⟨_, .inr ⟨ip, rfl⟩, .inl h⟩

theorem ended_of_triple (h : Triple (Blame p (0, s)) (At p m (0, s) 0) x fun _ =>
    At p m (0, s) 0) : Result (Blame p (0, s)) (fun _ => Ended p m s) (x s) :=
  (h s .refl).imp (fun _ => id) fun _ _ => .of_at

theorem noWrite_zero : NoWrite 0 := fun _ => Multiset.notMem_zero _

/-- What every call does, after what it stores through a pointer. -/
theorem Call.run_ended (call : Call) (hc : FilesCounted p (0, s)) :
    Result (Blame p (0, call.stored s p)) (fun _ => Ended p call.mode (call.stored s p))
      (call.run p s) := by
  have hR := noWrite_zero
  cases call with
  | sysOpen path omode => exact (sysOpen_at s .refl).imp (fun _ => id) fun _ _ h => .of_at h.1
  | sysRead fd n r => exact ended_of_triple sysRead_at
  | sysWrite fd src r dev => exact ended_of_triple sysWrite_at
  | sysClose fd => exact ended_of_triple sysClose_at
  | sysDup fd => exact ended_of_triple sysDup_at
  | sysFstat fd => exact ended_of_triple sysFstat_at
  | sysPipe kalloc => exact ended_of_triple sysPipe_at
  | sysMkdir | sysMknod => exact ended_of_triple make_at
  | sysLink old new => exact ended_of_triple sysLink_at
  | sysUnlink path => exact ended_of_triple sysUnlink_at
  | sysChdir path => exact ended_of_triple sysChdir_at
  | sysChmod path mode => exact ended_of_triple (sysChmod_at hR)
  | sysLbegin => exact (sysLbegin_at hR s .refl).imp (fun _ => id) fun _ _ => .of_updated
  | sysAddUser username password =>
    exact (sysAddUser_at hR False.elim s ⟨.refl, decides_true⟩).imp (fun _ => id)
      fun _ _ => .of_updated
  | sysDeleteUser username =>
    exact (sysDeleteUser_at hR False.elim s ⟨.refl, decides_true⟩).imp (fun _ => id)
      fun _ _ => .of_updated
  | sysLogin username password => exact ended_of_triple (sysLogin_at hR)
  | sysWhoami => exact ended_of_triple sysWhoami_at
  | sysFork kalloc copyuvm => exact ended_of_triple (sysFork_at hc)
  | sysThreadCreate thread kalloc allocuvm =>
    exact (sysThreadCreate_at hc).imp (fun _ => id) fun _ _ => .of_at
  | sysThreadJoin thread retval => exact sysThreadJoin_at.imp (fun _ => id) fun _ _ => .of_at
  | sysThreadExit retval =>
    exact Triple.bind sysThreadExit_at (fun _ => .pure fun _ h => ⟨0, .inl rfl, .inr h⟩) s .refl
  | sysExec path e => exact ended_of_triple sysExec_at
  | sysExit => exact Triple.bind sysExit_at (fun _ => .pure fun _ h => ⟨0, .inl rfl, h⟩) s .refl

theorem State.run_of_after (h : s.after p call = some s') : ∃ r, call.run p s = .ok (r, s') := by
  unfold State.after at h
  split at h
  · next r t hrun =>
    cases h
    exact ⟨r, hrun⟩
  · cases h

/-- What a call that returns does. -/
theorem State.after_ended (hc : FilesCounted p (0, s)) (h : s.after p call = some s') :
    Ended p call.mode (call.stored s p) s' := by
  obtain ⟨r, hrun⟩ := State.run_of_after h
  have hr := call.run_ended hc
  rw [hrun] at hr
  exact hr

/-! ## Files -/

/-- The files are counted between calls. -/
structure Counted (s : State) : Prop where
  ref : ∀ f, (s.file f).ref = s.opens f
  live : ∀ q fd, s.ofile q fd ≠ none → Live (s.tab.proc q).state

theorem Counted.files (h : Counted s) (hp : Live (s.tab.proc p).state) : FilesCounted p (0, s) :=
  ⟨fun f => by simpa using h.ref f, h.live, hp⟩

theorem Rest.count_file (h : Rest R) : R.count (.file f) = 0 := by
  obtain rfl | ⟨ip, rfl⟩ := h <;> simp

theorem FilesCounted.counted (h : FilesCounted p (R, s)) (hR : Rest R) : Counted s := by
  refine ⟨fun f => ?_, h.live⟩
  have := h.ref f
  rwa [hR.count_file, Nat.cast_zero, add_zero] at this

theorem Ended.counted (h : Ended p m s s') (hc : FilesCounted p (0, s)) : Counted s' := by
  obtain ⟨R, hR, h | ⟨s₁, t, h, hclosed, hlive, rfl⟩⟩ := h
  · exact (h.filesCounted hc).counted hR
  · have hc₁ := (h.filesCounted hc).counted hR
    refine ⟨hc₁.ref, fun q fd hfd => hlive q ?_ (hc₁.live q fd hfd)⟩
    rintro rfl
    exact hfd (hclosed fd)

theorem State.CanCall.live (h : s.CanCall p call) : Live (s.tab.proc p).state :=
  h.1.elim (fun e => .inr (.inl e)) fun e => .inr (.inr e)

theorem counted : kernel.Invariant (fun _ _ => True) Counted where
  init := by
    rintro s ⟨image, tab, -, rfl⟩
    refine ⟨fun f => ?_, fun q fd h => absurd rfl h⟩
    exact (Table.count_eq_zero fun x => rfl).symm
  step {s a s'} hc _ hs := by
    cases a with
    | call p call =>
      simp only [kernel, State.next] at hs
      split at hs
      · next hcan =>
        exact (State.after_ended (hc.files hcan.live) hs).counted (hc.files hcan.live).stored
      · cases hs
    | table t =>
      simp only [kernel, State.next] at hs
      split at hs
      · next hk =>
        cases hs
        exact ⟨hc.ref, fun q fd hfd => hk q (hc.live q fd hfd)⟩
      · cases hs

/-- In every state that is reached, with every call atomic, the `ref` of every file is the number of
descriptors for it, slots that are not in use have no descriptors, and no call that a process can
make panics in `filedup` or `fileclose`. -/
theorem file_refs_exact (h : kernel.Reached s) : (∀ f, (s.file f).ref =
      (Finset.univ.filter fun x : Slot × Fin NOFILE => s.ofile x.1 x.2 = some f).card) ∧
    (∀ q, (s.tab.proc q).state = .UNUSED → ∀ fd, s.ofile q fd = none) ∧
    ∀ p call, s.CanCall p call →
      call.run p s ≠ .error .filedup ∧ call.run p s ≠ .error .fileclose := by
  have hc := counted.of_reached h
  refine ⟨fun f => ?_, fun q hq fd => ?_, fun p call hcan => ?_⟩
  · rw [hc.ref f, State.opens, Table.count_eq_card]
    simp only [decide_eq_true_eq]
  · by_contra hfd
    have hl := hc.live q fd hfd
    rw [hq] at hl
    exact absurd hl (by decide)
  · have hr := call.run_ended (hc.files hcan.live)
    constructor
    · intro e
      rw [e] at hr
      exact hr (.inl rfl) (hc.files hcan.live).stored
    · intro e
      rw [e] at hr
      exact hr (.inr rfl) (hc.files hcan.live).stored

/-! ## The inode cache -/

/-- What is held may be forgotten. -/
theorem Sound.drop_held (h : Sound (R, s)) : Sound (0, s) := by
  refine h.setHeld (fun ip => ?_) (fun ip hm => absurd hm (Multiset.notMem_zero _)) fun ip hm =>
    absurd hm (Multiset.notMem_zero _)
  simp [refs]

theorem At.sound (h : At p m (0, s) R s') (hs : Sound (0, s)) : Sound (R, s') :=
  h.invariant (fun _ _ => Sound.micro) hs

theorem Sound.setTab (h : Sound (R, s)) : Sound (R, s.setTab t) :=
  h.congr ⟨rfl, rfl, rfl, rfl, rfl, rfl, fun _ _ => .rfl, fun _ => rfl⟩

/-- What is stored changes no type and no permission. -/
theorem Sound.stored (h : Sound (0, s)) : Sound (0, call.stored s p) := by
  have hdata : ∀ i bytes, Sound (0, s.setData i bytes) := fun _ _ =>
    h.congr ⟨rfl, rfl, rfl, rfl, rfl, rfl, fun _ _ => .rfl, fun _ => rfl⟩
  refine Call.stored_cases (P := fun t => Sound (0, t)) h hdata fun i es => ?_
  have hset : Sound (0, s.setInode i { s.inode i with entries := es }) :=
    h.setInode id id fun _ _ _ => id
  exact hset.congr ⟨rfl, rfl, rfl, rfl, rfl, rfl, fun _ _ => .rfl, fun _ => rfl⟩

theorem Ended.sound (h : Ended p m s s') (hs : Sound (0, s)) : Sound (0, s') := by
  obtain ⟨R, -, h | ⟨s₁, t, h, -, -, rfl⟩⟩ := h
  · exact (h.sound hs).drop_held
  · exact (h.sound hs).drop_held.setTab

theorem sound_boot {image : Image} {tab : Ptable} (htab : userinit pinit = some tab) :
    Sound (0, image.boot tab) where
  backed ip := by
    have hc : Fs.Counted tab [] (.boot image.inode tab .empty) := Fs.counted_boot htab
    exact (hc.ref ip).ge
  closed f _ := rfl
  unique ip ip' h h' _ := by
    have hpos : ∀ ip, 0 < ((image.boot tab).icache ip).ref → ip.val = 0 := by
      intro ip h
      by_contra hn
      simp [Image.boot, Fs.State.boot, hn] at h
    exact Fin.ext ((hpos ip h).trans (hpos ip' h').symm)
  valid ip _ hv := by
    simp only [Image.boot, Fs.State.boot] at hv
    split at hv <;> cases hv
  writable f ip h := by cases h
  notDir ip h := absurd h (Multiset.notMem_zero _)
  granted ip h := absurd h (Multiset.notMem_zero _)

theorem sound : kernel.Invariant (fun _ _ => True) fun s => Counted s ∧ Sound (0, s) where
  init h := by
    refine ⟨counted.init h, ?_⟩
    obtain ⟨image, tab, htab, rfl⟩ := h
    exact sound_boot htab
  step {s a s'} hc _ hs := by
    refine ⟨counted.step hc.1 trivial hs, ?_⟩
    cases a with
    | call p call =>
      simp only [kernel, State.next] at hs
      split at hs
      · next hcan => exact (State.after_ended (hc.1.files hcan.live) hs).sound hc.2.stored
      · cases hs
    | table t =>
      simp only [kernel, State.next] at hs
      split at hs
      · next hk =>
        cases hs
        exact hc.2.setTab
      · cases hs

/-! ## A disk and an account -/

def Image.root : Image where
  inode
    | 1 => ⟨some .T_DIR, 1, newPerm .T_DIR, Users.root.1, [⟨1, dot⟩, ⟨1, dotdot⟩]⟩
    | _ => ⟨none, 0, 0, [], []⟩
  data _ := []

def ab : Users.Str × Users.Str := (Users.shortName, ⟨[99, 100], by decide⟩)

/-- Root makes the file `"f"` and the account `"ab"`. -/
def prepare : List Step :=
  [.call 0 .sysLbegin, .call 0 (.sysLogin Users.root Users.zeros),
    .call 0 (.sysOpen [102] (O_CREATE ||| O_RDWR)), .call 0 (.sysClose 0),
    .call 0 (.sysAddUser ab.1 ab.2)]

/-- The name `"g"` for the file `"f"`, in the root directory. -/
def linkG : Call := .sysLink [102] [103]

def Image.first (image : Image) : State := image.boot ((userinit pinit).getD pinit)

theorem init_first (image : Image) : kernel.init image.first := by
  obtain ⟨tab, htab⟩ := Option.isSome_iff_exists.mp (show (userinit pinit).isSome by decide +kernel)
  exact ⟨image, tab, htab, by rw [Image.first, htab]; rfl⟩

/-- After `lbegin`, the first process and its child have two descriptors each for the file `"f"`. A
thread of the child has closed its own. -/
theorem file_refs_exact_shared : ∃ s, kernel.Reached s ∧ (s.file ⟨0, by decide⟩).ref = 4 ∧
    (Finset.univ.filter fun x : Slot × Fin NOFILE => s.ofile x.1 x.2 = some ⟨0, by decide⟩).card = 4
    := by
  obtain ⟨s, hs, href⟩ := LTS.exists_reached_of_run (M := kernel)
    [.call 0 .sysLbegin, .call 0 (.sysLogin Users.root Users.zeros),
      .call 0 (.sysOpen [102] (O_CREATE ||| O_RDWR)), .call 0 (.sysDup 0),
      .call 0 (.sysFork true true), .call 1 (.sysThreadCreate .user true true),
      .call 2 (.sysThreadExit 7)]
    (fun s => decide ((s.file ⟨0, by decide⟩).ref = 4)) (init_first .root)
    (by decide +kernel)
  have href := of_decide_eq_true href
  have hcard := (file_refs_exact hs).1 ⟨0, by decide⟩
  rw [href] at hcard
  exact ⟨s, hs, href, by exact_mod_cast hcard.symm⟩

/-- No inode in use is lost: in every state that is reached, an entry of the inode cache has a
reference for each open file and each current directory, no two entries in use are for one inode,
what an entry in use has read is an allocated inode, and a file open for writing is no directory. -/
theorem inodes_in_use (h : kernel.Reached s) : (∀ ip, s.files ip + s.cwds ip ≤ (s.icache ip).ref) ∧
    (∀ ip ip', 0 < (s.icache ip).ref → 0 < (s.icache ip').ref →
      (s.icache ip).inum = (s.icache ip').inum → ip = ip') ∧
    (∀ ip, 0 < (s.icache ip).ref → (s.icache ip).valid = true → (s.ino ip).type ≠ none) ∧
    ∀ f ip, (s.file f).type = .FD_INODE ip → 0 < (s.file f).ref ∧ 0 < (s.icache ip).ref ∧
      ((s.file f).writable = true → NotDir (s.ino ip)) := by
  have hs := (sound.of_reached h).2
  refine ⟨fun ip => ?_, hs.unique, hs.valid, fun f ip hf => ?_⟩
  · simpa [refs] using hs.backed ip
  · exact ⟨hs.file_pos hf, hs.ref_pos_of_file hf, hs.writable f ip hf⟩

/-- The file `"f"` is open, and has been removed. -/
theorem inodes_in_use_removed : ∃ s ip, kernel.Reached s ∧
    (s.file ⟨0, by decide⟩).type = .FD_INODE ip ∧ (s.ino ip).nlink = 0 ∧ NotDir (s.ino ip) := by
  obtain ⟨s, hs, h⟩ := LTS.exists_reached_of_run (M := kernel)
    (prepare.take 3 ++ [.call 0 (.sysUnlink [102])])
    (fun s => decide (∃ ip, (s.file ⟨0, by decide⟩).type = .FD_INODE ip ∧ (s.ino ip).nlink = 0 ∧
      (s.file ⟨0, by decide⟩).writable = true)) (init_first .root) (by decide +kernel)
  obtain ⟨ip, ht, hn, hw⟩ := of_decide_eq_true h
  exact ⟨s, ip, hs, ht, hn, ((inodes_in_use hs).2.2.2 _ ip ht).2.2 hw⟩

end Xv6.Sys
