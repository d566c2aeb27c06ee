import Xv6.Pipe.Pipe

/-! # Bytes come out of a pipe in the order they went in

The buffer holds what has been stored and not yet taken, also when the counters have wrapped
around. -/

namespace Xv6.Pipe

variable {ι : Type} {s : State ι}

theorem PIPESIZE_lt : PIPESIZE < 2 ^ 32 := by decide

theorem PIPESIZE_dvd : PIPESIZE ∣ 2 ^ 32 := by decide

/-- The buffer holds the bytes that have been stored and not taken. -/
def Buffered (s : State ι) : Prop := ∃ q, s.pipe.Holds q ∧ s.stored = s.taken ++ q

namespace Buffered

/-- What does not touch the buffer keeps it. -/
theorem of_eq (h : Buffered s) (hr : s'.pipe.toRingBuffer = s.pipe.toRingBuffer)
    (hs : s'.stored = s.stored)
    (ht : s'.taken = s.taken) : Buffered s' := by
  obtain ⟨q, hq, e⟩ := h
  exact ⟨q, hr ▸ hq, by rw [hs, ht, e]⟩

theorem store (h : Buffered s) (hf : ¬ s.pipe.Full) (b : UInt8) : Buffered (s.store b) := by
  obtain ⟨q, hq, e⟩ := h
  rw [hq.full_iff PIPESIZE_lt] at hf
  refine ⟨q ++ [b], hq.push PIPESIZE_dvd (Nat.lt_of_le_of_ne hq.length_le hf) b, ?_⟩
  simp [State.store, e]

theorem take (h : Buffered s) (he : ¬ s.pipe.Empty) : Buffered s.take := by
  obtain ⟨q, hq, e⟩ := h
  rw [hq.empty_iff PIPESIZE_lt] at he
  cases q with
  | nil => exact absurd rfl he
  | cons b q =>
    refine ⟨q, hq.pop PIPESIZE_dvd, ?_⟩
    simp [State.take, e, hq.front]

variable [DecidableEq ι]

theorem acquire (h : Buffered s) (hs : s.acquire p pc = some s') : Buffered s' := by
  simp only [State.acquire, Option.ite_none_right_eq_some, Option.some.injEq] at hs
  obtain ⟨-, rfl⟩ := hs
  exact h.of_eq rfl rfl rfl

theorem step (h : Buffered s) (hs : s.step p = some s') : Buffered s' := by
  unfold State.step at hs
  split at hs
  · cases hs
  · exact h.acquire hs
  · split at hs
    · cases hs; exact h.of_eq rfl rfl rfl
    · split at hs
      · split at hs
        · cases hs; exact h.of_eq rfl rfl rfl
        · cases hs; exact h.of_eq rfl rfl rfl
      · next hf => cases hs; exact (h.store hf _).of_eq rfl rfl rfl
  · cases hs; exact h.of_eq rfl rfl rfl
  · exact h.acquire hs
  · split at hs
    · split at hs
      · cases hs; exact h.of_eq rfl rfl rfl
      · cases hs; exact h.of_eq rfl rfl rfl
    · cases hs; exact h.of_eq rfl rfl rfl
  · cases hs; exact h.of_eq rfl rfl rfl
  · split at hs
    · next hc => cases hs; exact (h.take hc.2).of_eq rfl rfl rfl
    · cases hs; exact h.of_eq rfl rfl rfl

theorem next (h : Buffered s) (hs : s.next a = some s') : Buffered s' := by
  cases a with
  | pipewrite p addr | piperead p n =>
    simp only [State.next, Option.ite_none_right_eq_some, Option.some.injEq] at hs
    obtain ⟨-, rfl⟩ := hs
    exact h.of_eq rfl rfl rfl
  | pipeclose p writable =>
    simp only [State.next, Option.ite_none_right_eq_some, Option.some.injEq] at hs
    obtain ⟨-, rfl⟩ := hs
    cases writable <;> exact h.of_eq rfl rfl rfl
  | kill p => cases hs; exact h.of_eq rfl rfl rfl
  | step p => exact h.step hs

end Buffered

variable [DecidableEq ι]

theorem buffered : (pipes ι).Invariant (fun _ _ => True) Buffered where
  init := by
    rintro s ⟨data, rfl⟩
    exact ⟨[], ⟨Nat.zero_le _, rfl, nofun⟩, rfl⟩
  step h _ hs := h.next hs

/-- The bytes taken from the pipe are the first of those stored, and the counters say how many are
left. -/
theorem taken_prefix_stored (hs : (pipes ι).Reached s) : s.taken <+: s.stored ∧
    s.stored.length = s.taken.length + (s.pipe.nwrite - s.pipe.nread).toNat ∧
    (s.pipe.nwrite - s.pipe.nread).toNat ≤ PIPESIZE := by
  obtain ⟨q, hq, e⟩ := buffered.of_reached hs
  rw [hq.toNat_sub PIPESIZE_lt, e]
  exact ⟨List.prefix_append _ _, List.length_append, hq.length_le⟩

/-- A writer stores three bytes, and a reader takes two of them. -/
theorem taken_prefix_stored_two : ∃ s : State Bool, s.stored = [7, 8, 9] ∧ s.taken = [7, 8] ∧
    s.taken <+: s.stored ∧
    s.stored.length = s.taken.length + (s.pipe.nwrite - s.pipe.nread).toNat ∧
    (s.pipe.nwrite - s.pipe.nread).toNat ≤ PIPESIZE := by
  obtain ⟨s, hs, hp⟩ := LTS.exists_reached_of_run (M := pipes Bool)
    [.pipewrite true [7, 8, 9], .step true, .piperead false 2, .step true, .step true, .step true,
      .step true, .step false, .step false, .step false, .step false]
    (fun s => s.stored = [7, 8, 9] ∧ s.taken = [7, 8]) ⟨fun _ => 0, rfl⟩ (by decide +kernel)
  simp only [decide_eq_true_eq] at hp
  exact ⟨s, hp.1, hp.2, taken_prefix_stored hs⟩

end Xv6.Pipe
