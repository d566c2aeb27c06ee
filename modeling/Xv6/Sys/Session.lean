import Xv6.Sys.Kernel
import Xv6.Sys.Resolve

/-! # Sessions

The current user is one index into the table, which the processes share. A session is a sequence of
the calls that touch the accounts, made by any processes; `Authentic` says what a call of a session
should do to the index and to the table, and `Careful` when it does. A change of the accounts that
is not refused is left out: it writes `/passwd` and a directory, for which the log and the disk may
have no room. -/

namespace Xv6.Sys

open Fault
open Fs (Ip)

variable {p : Slot} {s t : State} {a : Step} {c : Call}

/-! ## `chmod` -/

/-- What is left once `chmod` has locked the inode. -/
def Unlockable (l : Users.Ltable) (p : Slot) (ip : Ip) (t : State) : Prop :=
  (t.lock ip = some (t.pid p) ∧ 1 ≤ (t.icache ip).ref) ∧ t.ltable = l

/-- The end of `chmod`, which keeps its reference. -/
theorem unlockEnd_rule {E : Stop → Prop} {r : Int} :
    Triple E (Unlockable l p ip) (do iunlock p ip; endOp; pure r) fun _ t => t.ltable = l :=
  .bind (iunlock_rule (Q := fun _ t => t.ltable = l) (fun _ h hn => absurd h.1 hn)
    fun _ h _ _ => h.2) fun _ => .bind_pure (.writes fun _ h => h)

/-- In a tree `chmod` stops for a lock or for an entry of the inode cache only. -/
theorem sysChmod_stuck (hT : Tree s) (hcwd : (s.cwd p).isSome) :
    Result (Stuck s) (fun _ t => t.ltable = s.ltable) (sysChmod p path mode s) := by
  let s₁ : State := { s with outstanding := s.outstanding + 1 }
  have hT₁ : Tree s₁ :=
    ⟨⟨hT.cached.nonneg, hT.cached.unique, hT.cached.inUse⟩, hT.cwd, hT.root, hT.entry⟩
  have hnamei : Triple (Stuck s) (· = s₁) (namei p path) fun r t =>
      ∃ held, Walking s₁ s₁.lock held t ∧ ∀ ip ∈ r, 0 < (t.icache ip).ref := by
    refine .bind (Q := Led s₁ false (Fs.elems path) (s₁.finds p path false)) ?_ fun r =>
      .pure fun t h => ⟨_, h.walking, fun ip hip => ?_⟩
    · rintro t rfl
      exact namex_led hT₁ hcwd
    · obtain ⟨x, hx, rfl⟩ := Option.map_eq_some_iff.mp hip
      exact h.ref x hx
  refine Triple.bind (P := (· = s)) (.writes (Q := fun _ t => t = s₁) fun t h => h ▸ rfl)
    (fun _ => .bind hnamei fun r => .exists fun held => ?_) s rfl
  cases r with
  | none =>
    refine .bind_pure (.writes fun t h => ?_)
    rw [h.1.eq]
  | some ip =>
    refine .bind (ilock_rule (Q := fun _ => Unlockable s.ltable p ip) ?_ ?_ ?_ ?_) fun _ =>
      .read fun _ => .read fun _ => .ite (fun _ => unlockEnd_rule) fun _ =>
      .ite (fun _ => unlockEnd_rule) fun _ => .bind (.writes fun _ h => h) fun _ => unlockEnd_rule
    · rintro t ⟨h, -⟩ hl
      exact .inl ⟨rfl, ip, h.lock ▸ hl⟩
    · rintro t ⟨-, hr⟩ hr'
      have := hr ip rfl
      omega
    · rintro t ⟨h, hr⟩ - - ht
      exact absurd ht (h.cached.inUse ip (hr ip rfl))
    · rintro t ⟨h, hr⟩ h1 - -
      refine ⟨⟨?_, ?_⟩, ?_⟩
      · simp [State.locked, State.setLock, State.setEntry, State.pid]
      · simpa [State.locked, State.setLock, State.setEntry] using h1
      · change t.ltable = s.ltable
        rw [h.eq]

/-! ## Steps of a session -/

/-- A call of a session, or something between two of them that changes the process table only. -/
def Step.OfSession : Step → Prop
  | .call _ .sysLbegin | .call _ (.sysAddUser ..) | .call _ (.sysDeleteUser _) => True
  | .call _ (.sysLogin ..) | .call _ .sysWhoami | .call _ (.sysChmod ..) | .table _ => True
  | _ => False

/-- The step does not panic. It does not change the table while the user is not root, and it changes
the user only if it is a login with a pair of the table, to the row of the pair. -/
structure State.Authentic (s : State) (a : Step) : Prop where
  stops : ∀ p c e, a = .call p c → c.run p s = .error e → e = .blocked
  table : ∀ t, s.next a = some t → 0 < s.ltable.userIdx →
    t.ltable = { s.ltable with userIdx := t.ltable.userIdx }
  user : ∀ t, s.next a = some t → t.ltable.userIdx ≠ s.ltable.userIdx →
    ∃ p username password, ∃ i : Nat, a = .call p (.sysLogin username password) ∧
      s.ltable.users[i]? = some (username.1, password.1) ∧ t.ltable.userIdx = i

/-- The step is not `lbegin`, and a change of the accounts is refused by its tests. `chmod` finds
the directories in order and has room for its entries of the inode cache. -/
def State.Careful (s : State) : Step → Prop
  | .call _ .sysLbegin => False
  | .call p (.sysChmod ..) => Tree s ∧ (s.cwd p).isSome ∧ 2 ≤ s.freeEntries
  | .call _ (.sysAddUser username password) =>
    0 < s.ltable.userIdx ∨ ¬ Accepts s.ltable username password
  | .call _ (.sysDeleteUser username) =>
    0 < s.ltable.userIdx ∨ deletes s.ltable username = none
  | _ => True

theorem State.run_of_next (h : s.next (.call p c) = some t) : ∃ r, c.run p s = .ok (r, t) := by
  simp only [State.next] at h
  split at h
  · exact State.run_of_after h
  · cases h

/-- A call that stops for a lock only and leaves the table. -/
theorem State.Authentic.of_result
    (h : Result (· = .blocked) (fun _ t => t.ltable = s.ltable) (c.run p s)) :
    s.Authentic (.call p c) where
  stops p' c' e ha hrun := by
    cases ha
    rwa [hrun] at h
  table t ht _ := by
    obtain ⟨r, hrun⟩ := State.run_of_next ht
    rw [hrun] at h
    rw [show t.ltable = s.ltable from h]
  user t ht hne := by
    obtain ⟨r, hrun⟩ := State.run_of_next ht
    rw [hrun] at h
    exact absurd (congrArg Users.Ltable.userIdx h) hne

theorem sysLogin_authentic : s.Authentic (.call p (.sysLogin username password)) where
  stops p' c e ha hrun := by
    cases ha
    cases hrun
  table t ht _ := by
    obtain ⟨r, ⟨⟩⟩ := State.run_of_next ht
    change (Users.sysLogin username password s.ltable).2 =
      { s.ltable with userIdx := (Users.sysLogin username password s.ltable).2.userIdx }
    obtain h | ⟨i, -, h⟩ := Users.sysLogin_cases username password s.ltable
    · rw [h]
    · rw [h]
  user t ht hne := by
    obtain ⟨r, ⟨⟩⟩ := State.run_of_next ht
    obtain h | ⟨i, hi, h⟩ := Users.sysLogin_cases username password s.ltable
    · exact absurd (congrArg Users.Ltable.userIdx h) hne
    · exact ⟨p, username, password, i, rfl, hi, congrArg Users.Ltable.userIdx h⟩

/-- A careful step of a session is authentic. -/
theorem State.Careful.authentic (ha : a.OfSession) (hc : s.Careful a) : s.Authentic a := by
  cases a with
  | table tab =>
    refine ⟨fun _ _ _ ha => (nomatch ha), fun t ht _ => ?_, fun t ht hne => ?_⟩
    · simp only [State.next] at ht
      split at ht <;> cases ht
      rfl
    · simp only [State.next] at ht
      split at ht <;> cases ht
      exact absurd rfl hne
  | call p c =>
    cases c with
    | sysLbegin => exact hc.elim
    | sysAddUser username password =>
      refine .of_result ?_
      by_cases hu : 0 < s.ltable.userIdx
      · simp only [Call.run, sysAddUser, Fault.reads_bind, if_pos hu]
        rfl
      · simp only [Call.run, sysAddUser, addUser, Fault.reads_bind, if_neg hu,
          if_pos (hc.resolve_left hu)]
        rfl
    | sysDeleteUser username =>
      refine .of_result ?_
      by_cases hu : 0 < s.ltable.userIdx
      · simp only [Call.run, sysDeleteUser, Fault.reads_bind, if_pos hu]
        rfl
      · simp only [Call.run, sysDeleteUser, deleteUser, Fault.reads_bind, if_neg hu,
          hc.resolve_left hu]
        rfl
    | sysLogin username password => exact sysLogin_authentic
    | sysWhoami => exact .of_result rfl
    | sysChmod path mode =>
      obtain ⟨hT, hcwd, hfree⟩ := hc
      refine .of_result ((sysChmod_stuck hT hcwd).imp (fun e he => ?_) fun _ _ => id)
      exact (he.resolve_right fun h => absurd h.2 (Nat.not_lt.mpr hfree)).1
    | _ => exact ha.elim

end Xv6.Sys
