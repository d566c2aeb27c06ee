import Xv6.Sys.Kernel

/-! # Locks and transactions are balanced

Every step on a lock or on `log.outstanding` is matched by what the call holds, and a call that
returns holds nothing, except where `flushUsers` gives up. -/

namespace Xv6.Sys

open Fault Holding
open Fs (passwdPath BSIZE MAXFILE R_OK W_OK O_RDONLY O_WRONLY WantsRead WantsWrite)

variable {p : Slot} {s s' : State} {call : Call} {r : Int}

/-- The locks held are those taken since the state `s`, and so are the transactions. -/
structure Balanced (s : State) (c : Config) : Prop where
  outstanding : c.2.outstanding = s.outstanding + c.1.count .op
  held : ∀ ip, .lock ip ∈ c.1 → s.lock ip = none ∧ c.2.lock ip ≠ none ∧ c.1.count (.lock ip) = 1
  free : ∀ ip, .lock ip ∉ c.1 → c.2.lock ip = s.lock ip

namespace Balanced

theorem refl : Balanced s (0, s) := ⟨by simp, by simp, fun _ _ => rfl⟩

theorem congr (h : Balanced s c) (hs : SameLocks c c') : Balanced s c' := by
  have hmem : ∀ ip, .lock ip ∈ c'.1 ↔ .lock ip ∈ c.1 := by
    intro ip
    rw [← Multiset.count_pos, hs.held, Multiset.count_pos]
  refine ⟨?_, fun ip hip => ?_, fun ip hip => ?_⟩
  · rw [hs.outstanding, hs.op, h.outstanding]
  · rw [hs.lock, hs.held]
    exact h.held ip ((hmem ip).mp hip)
  · rw [hs.lock]
    exact h.free ip fun hm => hip ((hmem ip).mpr hm)

theorem lock (h : Balanced s c) (hs : LockStep c c') : Balanced s c' := by
  cases hs with
  | @lock R t ip v hl =>
    -- a lock that is free is not held
    have hn : .lock ip ∉ R := fun hm => (h.held ip hm).2.1 hl
    refine ⟨by simpa [State.setLock] using h.outstanding, fun ip' hip => ?_, fun ip' hip => ?_⟩
    · by_cases e : ip' = ip
      · subst e
        have hs : s.lock ip' = none := by rw [← h.free ip' hn, hl]
        simp [State.setLock, hs, Multiset.count_eq_zero.mpr hn]
      · have hm : .lock ip' ∈ R := by simpa [e] using hip
        simpa [State.setLock, e] using h.held ip' hm
    · have hm : ip' ≠ ip ∧ .lock ip' ∉ R := by simpa using hip
      simpa [State.setLock, hm.1] using h.free ip' hm.2
  | @unlock R t ip =>
    obtain ⟨hs, -, h1⟩ := h.held ip (by simp)
    have hn : .lock ip ∉ R := by simpa [Multiset.count_eq_zero] using h1
    refine ⟨by simpa [State.setLock] using h.outstanding, fun ip' hip => ?_, fun ip' hip => ?_⟩
    · have e : ip' ≠ ip := fun e => hn (e ▸ hip)
      simpa [State.setLock, e] using h.held ip' (by simp [hip])
    · by_cases e : ip' = ip
      · simp [State.setLock, e, hs]
      · simpa [State.setLock, e] using h.free ip' (by simpa [e] using hip)
  | beginOp | endOp =>
    refine ⟨?_, fun ip hip => ?_, fun ip hip => ?_⟩
    · have := h.outstanding
      simp only [Multiset.count_add, Multiset.count_singleton_self, Nat.cast_add, Nat.cast_one] at *
      omega
    · simpa using h.held ip (by simpa using hip)
    · exact h.free ip (by simpa using hip)

theorem micro (hs : Micro p m c c') (h : Balanced s c) : Balanced s c' := by
  cases hs with
  | lock hs => exact h.lock hs
  | cache hs | file hs | table hs => exact h.congr hs.sameLocks

end Balanced

theorem At.balanced (h : At p m (0, s) 0 s') :
    s'.outstanding = s.outstanding ∧ s'.lock = s.lock := by
  have hb := h.invariant (fun _ _ => Balanced.micro (s := s)) .refl
  exact ⟨by simpa using hb.outstanding, funext fun ip => hb.free ip (Multiset.notMem_zero _)⟩

theorem At.balanced_of_triple (h : Triple (Blame p (0, s)) P x Q) (hP : P s)
    (hQ : ∀ r s', Q r s' → At p m (0, s) 0 s') (hx : x s = .ok (r, s')) :
    s'.outstanding = s.outstanding ∧ s'.lock = s.lock := by
  have hr := h s hP
  rw [hx] at hr
  exact At.balanced (hQ r s' hr)

/-- With a lock and a transaction kept, the call is not balanced. -/
theorem AtUpdated.balanced {S N : Prop} (h : AtUpdated p m (0, s) 0 S N s') :
    (¬ N → s'.outstanding = s.outstanding ∧ s'.lock = s.lock) ∧
      (S → s'.outstanding = s.outstanding ∧ s'.lock = s.lock → ¬ N) := by
  rcases h with ⟨h, hn⟩ | ⟨hN, ip, h⟩
  · exact ⟨fun _ => h.balanced, fun hS _ => hn hS⟩
  · have hb := (h.invariant (fun _ _ => Balanced.micro (s := s)) .refl).outstanding
    refine ⟨fun hn => absurd hN hn, fun _ he => ?_⟩
    simp only [Multiset.count_add, Multiset.count_singleton_self, Multiset.count_zero] at hb
    rw [Multiset.count_singleton, if_neg nofun] at hb
    omega

/-- The calls on the file system, and those on accounts that run `flushUsers`. -/
def Call.Locks : Call → Prop
  | .sysOpen .. | .sysMkdir _ | .sysMknod _ | .sysLink .. | .sysUnlink _ | .sysChdir _
  | .sysChmod .. | .sysExec .. | .sysAddUser .. | .sysDeleteUser _ => True
  | _ => False

/-- The call passes its tests and can open `/passwd` for writing, but `cleari` fails for it. -/
def Call.KeepsLock (s : State) (p : Slot) : Call → Prop
  | .sysAddUser username password => s.ltable.userIdx ≤ 0 ∧ s.AddKeeps p username password
  | .sysDeleteUser username => s.ltable.userIdx ≤ 0 ∧ s.DeleteKeeps p username
  | _ => False

/-- For all arguments, a call that returns leaves `log.outstanding` and the locks of the inodes as
they were, unless it keeps the lock of `/passwd`; and in a state that is reached it does not do so
otherwise. -/
theorem locks_balanced_iff (hl : call.Locks) (h : call.run p s = .ok (r, s')) :
    (¬ call.KeepsLock s p → s'.outstanding = s.outstanding ∧ s'.lock = s.lock) ∧
      (kernel.Reached s → s'.outstanding = s.outstanding ∧ s'.lock = s.lock →
        ¬ call.KeepsLock s p) := by
  have hR := noWrite_zero
  have of_triple : ∀ {m x P Q}, Triple (Blame p (0, s)) P x Q → P s →
      (∀ r s', Q r s' → At p m (0, s) 0 s') → x s = .ok (r, s') →
      (¬ False → s'.outstanding = s.outstanding ∧ s'.lock = s.lock) ∧
        (kernel.Reached s → s'.outstanding = s.outstanding ∧ s'.lock = s.lock → ¬ False) :=
    fun hx hP hQ h => ⟨fun _ => At.balanced_of_triple hx hP hQ h, fun _ _ => id⟩
  cases call with
  | sysOpen path omode => exact of_triple (m := .plain) sysOpen_at .refl (fun _ _ => And.left) h
  | sysMkdir | sysMknod => exact of_triple (m := .plain) make_at .refl (fun _ _ => id) h
  | sysLink old new => exact of_triple sysLink_at .refl (fun _ _ => id) h
  | sysUnlink path => exact of_triple (m := .plain) sysUnlink_at .refl (fun _ _ => id) h
  | sysChdir path => exact of_triple (m := .plain) sysChdir_at .refl (fun _ _ => id) h
  | sysChmod path mode => exact of_triple (m := .plain) (sysChmod_at hR) .refl (fun _ _ => id) h
  | sysExec path e => exact of_triple (m := .plain) sysExec_at .refl (fun _ _ => id) h
  | sysAddUser username password =>
    have hr : Result (Blame p (0, s)) (fun _ => AtUpdated p .account (0, s) 0 (Sound (0, s))
        ((Call.sysAddUser username password).KeepsLock s p)) (sysAddUser p username password s) :=
      sysAddUser_at hR id s ⟨.refl, id, fun _ => id⟩
    rw [show sysAddUser p username password s = .ok (r, s') from h] at hr
    exact hr.balanced.imp_right fun hb hs => hb (sound.of_reached hs).2
  | sysDeleteUser username =>
    have hr : Result (Blame p (0, s)) (fun _ => AtUpdated p .account (0, s) 0 (Sound (0, s))
        ((Call.sysDeleteUser username).KeepsLock s p)) (sysDeleteUser p username s) :=
      sysDeleteUser_at hR id s ⟨.refl, id, fun _ => id⟩
    rw [show sysDeleteUser p username s = .ok (r, s') from h] at hr
    exact hr.balanced.imp_right fun hb hs => hb (sound.of_reached hs).2
  | _ => exact hl.elim

instance : Decidable (s.KeepsLock p) :=
  inferInstanceAs (Decidable (∃ i ∈ s.finds p passwdPath false,
    (¬ ((s.inode i).type = some .T_DIR ∧ O_WRONLY ≠ O_RDONLY) ∧
      (WantsRead O_WRONLY → s.Grants (s.inode i) R_OK) ∧
      (WantsWrite O_WRONLY → s.Grants (s.inode i) W_OK) ∧
      (∃ f, (s.file f).ref = 0) ∧ ∃ fd, s.ofile p fd = none) ∧
    ¬ ((s.inode i).type ≠ some .T_DEV ∧ s.length i ≤ MAXFILE * BSIZE)))

instance {username password : Users.Str} : Decidable (s.AddKeeps p username password) :=
  inferInstanceAs (Decidable (_ ∧ _))

/-- Root adds an account to the `/passwd` that `lbegin` has made. -/
theorem locks_balanced_iff_added : ∃ s r s', kernel.Reached s ∧ s.ltable.userIdx = 0 ∧
    (Call.sysAddUser ab.1 ab.2).run 0 s = .ok (r, s') ∧ s'.outstanding = s.outstanding ∧
      s'.lock = s.lock := by
  obtain ⟨s, hs, h⟩ := LTS.exists_reached_of_run (M := kernel)
    [.call 0 .sysLbegin, .call 0 (.sysLogin Users.root Users.zeros)]
    (fun s => decide (s.ltable.userIdx = 0 ∧ ¬ s.AddKeeps 0 ab.1 ab.2 ∧
      (s.after 0 (.sysAddUser ab.1 ab.2)).isSome)) (init_first .root) (by decide +kernel)
  obtain ⟨hidx, hkeeps, h⟩ := of_decide_eq_true h
  obtain ⟨s', h⟩ := Option.isSome_iff_exists.mp h
  obtain ⟨r, hrun⟩ := State.run_of_after h
  have hlocks : (Call.sysAddUser ab.1 ab.2).Locks := trivial
  exact ⟨s, r, s', hs, hidx, hrun, (locks_balanced_iff hlocks hrun).1 fun hk => hkeeps hk.2⟩

/-- If `/passwd` is a device, `addUser` returns within its transaction and with the lock of the
inode. -/
theorem addUser_keeps_lock : ∃ s s', kernel.Reached s ∧
    (Call.sysAddUser ab.1 ab.2).run 0 s = .ok (-1, s') ∧ s.outstanding = 0 ∧ s'.outstanding = 1 ∧
      ∃ ip, s.lock ip = none ∧ s'.lock ip = some (s.pid 0) := by
  obtain ⟨s, hs, h⟩ := LTS.exists_reached_of_run (M := kernel)
    [.call 0 .sysLbegin, .call 0 (.sysLogin Users.root Users.zeros),
      .call 0 (.sysUnlink passwdPath), .call 0 (.sysMknod passwdPath)]
    (fun s => decide (Result (fun _ => False) (fun r (s' : State) => r = -1 ∧
      s.outstanding = 0 ∧ s'.outstanding = 1 ∧ ∃ ip, s.lock ip = none ∧ s'.lock ip = some (s.pid 0))
      ((Call.sysAddUser ab.1 ab.2).run 0 s))) (init_first .root) (by decide +kernel)
  obtain ⟨_, s', hrun, rfl, h⟩ := (of_decide_eq_true h).exists_ok
  exact ⟨s, s', hs, hrun, h⟩

end Xv6.Sys
