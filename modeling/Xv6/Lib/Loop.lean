import Mathlib.Data.Nat.Init

/-! # Deterministic loops

A loop is a function that says what one iteration does: go on with a new loop state, or stop
with a result. `Yields f s b` says that the loop started in `s` stops with `b` after finitely
many iterations. A loop is followed forwards with `yields_next` and `yields_done`, and is shown
not to stop by a set of loop states that it never leaves (`not_yields_of_closed`). `Ahead` is what a
loop that goes around a table keeps between two visits of one entry. -/

namespace Loop

variable {σ β : Type*}

/-- What one iteration of a loop does. -/
inductive Iter (σ β : Type*)
  | next (s : σ)
  | done (b : β)
  deriving DecidableEq, Repr

def runFor (f : σ → Iter σ β) : Nat → σ → Option β
  | 0, _ => none
  | n + 1, s =>
    match f s with
    | .next s' => runFor f n s'
    | .done b => some b

/-- The loop started in `s` stops with `b`. -/
def Yields (f : σ → Iter σ β) (s : σ) (b : β) : Prop := ∃ n, runFor f n s = some b

variable {f : σ → Iter σ β} {s s' : σ} {b : β}

theorem runFor_next (h : f s = .next s') (n : Nat) : runFor f (n + 1) s = runFor f n s' := by
  simp only [runFor, h]

theorem yields_next (h : f s = .next s') : Yields f s b ↔ Yields f s' b := by
  constructor
  · rintro ⟨n, hn⟩
    cases n with
    | zero => simp [runFor] at hn
    | succ n => exact ⟨n, (runFor_next h n).symm.trans hn⟩
  · rintro ⟨n, hn⟩
    exact ⟨n + 1, (runFor_next h n).trans hn⟩

theorem yields_done (h : f s = .done c) : Yields f s b ↔ c = b := by
  constructor
  · rintro ⟨n, hn⟩
    cases n with
    | zero => simp [runFor] at hn
    | succ n => simpa only [runFor, h, Option.some.injEq] using hn
  · rintro rfl
    exact ⟨1, by simp only [runFor, h]⟩

/-- A loop that never leaves a set of loop states in which it always goes on does not stop. -/
theorem not_yields_of_closed {S : σ → Prop} (hS : ∀ s, S s → ∃ s', S s' ∧ f s = .next s')
    (hs : S s) : ¬ Yields f s b := by
  rintro ⟨n, hn⟩
  induction n generalizing s with
  | zero => simp [runFor] at hn
  | succ n ih =>
    obtain ⟨s', hs', hf⟩ := hS s hs
    exact ih hs' ((runFor_next hf n).symm.trans hn)

/-- Going up a chain of loop states `g i, g (i + 1), …, g j`. -/
theorem yields_chain {g : Nat → σ} {i j : Nat} (hij : i ≤ j)
    (h : ∀ k, i ≤ k → k < j → f (g k) = .next (g (k + 1))) :
    Yields f (g i) b ↔ Yields f (g j) b := by
  induction j, hij using Nat.le_induction with
  | base => rfl
  | succ j hij ih =>
    rw [ih fun k hk hkj => h k hk (Nat.lt_succ_of_lt hkj)]
    exact yields_next (h j hij j.lt_succ_self)

/-! ## Scans that go around a table -/

/-- A scan that goes up from `i`, and on from `0` after the last index, comes to `q` before it comes
to `p`. -/
def Ahead (p q i : Nat) : Prop := p < i ∧ i ≤ q ∨ i ≤ q ∧ q < p ∨ q < p ∧ p < i

namespace Ahead

variable {i : Nat}

theorem after (h : q ≠ p) : Ahead p q (p + 1) := by
  unfold Ahead
  omega

theorem zero (h : q < p) : Ahead p q 0 := .inr (.inl ⟨Nat.zero_le q, h⟩)

theorem succ (h : Ahead p q i) (hq : i ≠ q) : Ahead p q (i + 1) := by
  unfold Ahead at h ⊢
  omega

theorem ne (h : Ahead p q i) : i ≠ p := by
  unfold Ahead at h
  omega

/-- At the end of the table the scan has passed `q`. -/
theorem lt_of_le (h : Ahead p q i) (hi : n ≤ i) (hq : q < n) : q < p := by
  unfold Ahead at h
  omega

end Ahead

end Loop
