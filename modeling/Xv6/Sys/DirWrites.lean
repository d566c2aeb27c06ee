import Xv6.Sys.Kernel

/-! # Directories are changed with permission

The history of a state lists the changes of directory entries, each with the answer of `checkmod` at
that moment. In a sound state a step changes entries with a reference that has been granted, and a
file for writing is never one for a directory. -/

namespace Xv6.Sys

open Fault Holding
open Fs (W_OK)

variable {p : Slot} {s s' : State} {call : Call} {i : Nat}

/-- The entries of an inode are those of the state `s`, unless it has been freed, allocated, or
changed in one of the events. -/
def Kept (s : State) (ev : List DirWrite) (t : State) (i : Nat) : Prop :=
  (t.inode i).entries = (s.inode i).entries ∨ (t.inode i).type = none ∨ s.allocs i < t.allocs i ∨
    ∃ w ∈ ev, w.inum = i

/-- The changes of entries since the state `s` are recorded in the history. -/
structure Recorded (s : State) (ev : List DirWrite) (t : State) : Prop where
  events : t.dirWrites = s.dirWrites ++ ev
  kept : ∀ i, Kept s ev t i
  allocs : ∀ i, s.allocs i ≤ t.allocs i

namespace Recorded

variable {ev : List DirWrite}

theorem refl : Recorded s [] s := ⟨(List.append_nil _).symm, fun _ => .inl rfl, fun _ => le_rfl⟩

/-- Steps that change neither entries nor the history. -/
theorem congr (h : Recorded s ev t) (he : s'.dirWrites = t.dirWrites) (ha : s'.allocs = t.allocs)
    (hi : ∀ i, ((s'.inode i).entries = (t.inode i).entries ∧ (s'.inode i).type = (t.inode i).type) ∨
      (s'.inode i).type = none) : Recorded s ev s' := by
  refine ⟨he.trans h.events, fun i => ?_, fun i => ha ▸ h.allocs i⟩
  rcases hi i with ⟨h1, h2⟩ | h1
  · have := h.kept i
    rwa [Kept, ← h1, ← h2, ← ha] at this
  · exact .inr (.inl h1)

/-- A change of the entries of a directory. -/
theorem setDir (h : Recorded s ev t) : Recorded s (ev ++ [t.dirWrite d]) (t.setDir d es) := by
  refine ⟨by simp [State.setDir, State.dirWrite, h.events], fun i => ?_, h.allocs⟩
  by_cases e : i = d
  · exact .inr (.inr (.inr ⟨t.dirWrite d, by simp, e.symm⟩))
  · have hi : (t.setDir d es).inode i = t.inode i := by simp [State.setDir, State.setInode, e]
    rw [Kept, hi]
    refine (h.kept i).imp id (.imp id (.imp id ?_))
    rintro ⟨w, hw, e⟩
    exact ⟨w, List.mem_append_left _ hw, e⟩

theorem make (h : Recorded s ev t) (ht : (t.inode i).type = none) :
    Recorded s ev (t.make i type) := by
  refine ⟨h.events, fun j => ?_, fun j => ?_⟩
  · by_cases e : j = i
    · subst e
      have := h.allocs j
      refine .inr (.inr (.inl ?_))
      simp only [State.make, Function.update_self]
      omega
    · have := h.kept j
      simpa [Kept, State.make, State.setInode, State.setData, e] using this
  · by_cases e : j = i
    · subst e
      have := h.allocs j
      simp only [State.make, Function.update_self]
      omega
    · simpa [State.make, e] using h.allocs j

/-- A change of an inode that is not of its entries or type. -/
theorem setIno (h : Recorded s ev t) (he : v.entries = (t.ino ip).entries)
    (ht : v.type = (t.ino ip).type) : Recorded s ev (t.setIno ip v) := by
  refine h.congr rfl rfl fun i => .inl ?_
  by_cases e : i = (t.icache ip).inum
  · subst e
    simpa [State.setIno, State.setInode] using ⟨he, ht⟩
  · simp [State.setIno, State.setInode, e]

theorem put (h : Recorded s ev t) : Recorded s ev (t.put ip) := by
  refine State.put_cases (P := Recorded s ev) (h.congr rfl rfl fun _ => .inl ⟨rfl, rfl⟩) fun _ => ?_
  refine h.congr rfl rfl fun i => ?_
  by_cases e : i = (t.icache ip).inum
  · refine .inr ?_
    simp [State.setEntry, State.free, State.setIno, State.setInode, State.setData, e]
  · refine .inl ?_
    simp [State.setEntry, State.free, State.setIno, State.setInode, State.setData, e]

end Recorded

theorem State.dirWrite_granted : (s.dirWrite d).granted = true ↔ s.Grants (s.inode d) W_OK :=
  decide_eq_true_iff

/-- The changes in `ev₁` are recorded, and those that come after them were granted unless the call
is `link`. -/
structure Writes (s : State) (ev₁ : List DirWrite) (m : Mode) (ev : List DirWrite) (t : State) :
    Prop where
  recorded : Recorded s (ev₁ ++ ev) t
  granted : m ≠ .link → ∀ w ∈ ev, w.granted = true

namespace Writes

variable {ev₁ ev : List DirWrite}

theorem setDir (h : Writes s ev₁ m ev t) (hg : m ≠ .link → t.Grants (t.inode d) W_OK) :
    Writes s ev₁ m (ev ++ [t.dirWrite d]) (t.setDir d es) := by
  refine ⟨List.append_assoc .. ▸ h.recorded.setDir, fun hm w hw => ?_⟩
  rcases List.mem_append.mp hw with hw | hw
  · exact h.granted hm w hw
  · rw [List.mem_singleton.mp hw]
    exact State.dirWrite_granted.mpr (hg hm)

theorem cache (h : Writes s ev₁ m ev c.2) (hS : Sound c) (hs : CacheStep m c c') :
    ∃ ev', Writes s ev₁ m ev' c'.2 := by
  cases hs with
  | put => exact ⟨ev, h.recorded.put, h.granted⟩
  | make type ht => exact ⟨ev, h.recorded.make ht, h.granted⟩
  | links | perm | owner => exact ⟨ev, h.recorded.setIno rfl rfl, h.granted⟩
  | entries es hk =>
    refine ⟨_, h.setDir fun hm => ?_⟩
    obtain rfl : _ = Know.write := hk.resolve_right hm
    exact hS.granted _ (by simp)
  | writeDir es hf hw ht => exact absurd ht (hS.writable _ _ hf hw).2
  | _ => exact ⟨ev, h.recorded.congr rfl rfl fun _ => .inl ⟨rfl, rfl⟩, h.granted⟩

theorem micro (hs : Micro p m c c') (h : Sound c ∧ ∃ ev, Writes s ev₁ m ev c.2) :
    Sound c' ∧ ∃ ev, Writes s ev₁ m ev c'.2 := by
  obtain ⟨hS, ev, h⟩ := h
  refine ⟨hS.micro hs, ?_⟩
  cases hs with
  | cache hs => exact h.cache hS hs
  | lock hs | file hs | table hs =>
    cases hs <;> exact ⟨ev, h.recorded.congr rfl rfl fun _ => .inl ⟨rfl, rfl⟩, h.granted⟩

end Writes

theorem Ended.writes (h : Ended p m s₁ s') (hS : Sound (0, s₁)) (hr : Recorded s ev₁ s₁) :
    ∃ ev, Writes s ev₁ m ev s' := by
  have hrun : ∀ {R t}, At p m (0, s₁) R t → ∃ ev, Writes s ev₁ m ev t := fun hA =>
    (hA.invariant (fun _ _ => Writes.micro)
      ⟨hS, [], (List.append_nil ev₁).symm ▸ hr, fun _ w hw => nomatch hw⟩).2
  obtain ⟨R, -, h | ⟨s₂, t, h, -, -, rfl⟩⟩ := h
  · exact hrun h
  · obtain ⟨ev, h⟩ := hrun h
    exact ⟨ev, h.recorded.congr rfl rfl fun _ => .inl ⟨rfl, rfl⟩, h.granted⟩

/-! ## What is changed without a test -/

/-- The directory of which an entry is changed when the word is stored. -/
def State.overwrites (s : State) (v : UInt32) : Ptr → Option Nat
  | .user => none
  | .buf i off => if s.HasWord i off ∧ (s.inode i).type = some .T_DIR ∧
      s.overwritten i off v ≠ (s.inode i).entries then some i else none

/-- The directory of which the call changes an entry without a test of its own. -/
def Call.untested (s : State) (p : Slot) : Call → Option Nat
  | .sysLink old new => s.linksIn p old new
  | call => (call.word s.tab p).bind fun w => s.overwrites w.1 w.2

theorem State.store_recorded {ptr : Ptr} :
    Recorded s ((s.overwrites v ptr).toList.map s.dirWrite) (s.store v ptr) := by
  cases ptr with
  | user => exact .refl
  | buf i off =>
    rw [State.overwrites, State.store]
    by_cases hw : s.HasWord i off
    · by_cases ht : (s.inode i).type = some .T_DIR
      · by_cases he : s.overwritten i off v = (s.inode i).entries
        · simpa [hw, ht, he] using Recorded.refl
        · simpa [hw, ht, he] using Recorded.refl.setDir (t := s) (d := i)
      · have h : ∀ data, Recorded s [] (s.setData i data) := fun _ =>
          Recorded.refl.congr rfl rfl fun _ => .inl ⟨rfl, rfl⟩
        simpa [hw, ht] using h _
    · simpa [hw] using Recorded.refl

theorem Call.stored_recorded : Recorded s
    (((call.word s.tab p).bind fun w => s.overwrites w.1 w.2).toList.map s.dirWrite)
    (call.stored s p) := by
  rw [Call.stored]
  cases call.word s.tab p with
  | none => exact .refl
  | some w => exact State.store_recorded

/-- The current user may write the directory that the call changes without a test. -/
def Call.MayWrite (s : State) (p : Slot) (call : Call) : Prop :=
  ∀ d ∈ call.untested s p, s.Grants (s.inode d) W_OK

theorem forall_mem_dirWrites {o : Option Nat} : (∀ w ∈ o.toList.map s.dirWrite, w.granted = true) ↔
    ∀ d ∈ o, s.Grants (s.inode d) W_OK := by
  simp [State.dirWrite_granted]

theorem State.after_recorded (hc : FilesCounted p (0, s)) (hS : Sound (0, s))
    (h : s.after p call = some s') : ∃ ev, Recorded s ev s' ∧
      ((∀ w ∈ ev, w.granted = true) ↔ call.MayWrite s p) := by
  obtain ⟨ev, hw⟩ := (State.after_ended hc h).writes hS.stored Call.stored_recorded
  refine ⟨_, hw.recorded, ?_⟩
  by_cases hm : call.mode = .link
  · -- only `link` is of this mode, and what it records is known
    cases call with
    | sysLink old new =>
      obtain ⟨r, hrun⟩ := State.run_of_after h
      have hr : Result (Blame p (0, s)) (fun _ => AtLinked p (0, s) 0 (s.linksIn p old new))
        (sysLink p old new s) := sysLink_linked hS s ⟨.refl, .refl⟩
      rw [show sysLink p old new s = .ok (r, s') from hrun] at hr
      have hev := List.append_cancel_left (hw.recorded.events.symm.trans hr.2)
      rw [hev]
      exact forall_mem_dirWrites
    | _ => cases hm
  · have hun : call.untested s p = (call.word s.tab p).bind fun w => s.overwrites w.1 w.2 := by
      cases call with
      | sysLink => exact absurd rfl hm
      | _ => rfl
    rw [List.forall_mem_append, and_iff_left (hw.granted hm), forall_mem_dirWrites, ← hun]
    rfl

instance : Decidable (call.MayWrite s p) := Option.decidableForallMem _

end Xv6.Sys
