import Xv6.Lib.Transition

/-! # History variables

A history variable is written by every step of a system and read by none: it remembers what a
statement about runs has to speak of, and keeps no run from happening. -/

namespace LTS

variable {σ α η : Type*}

/-- `M` with a history variable. It is `h₀` at first, and a step `a` from `s` to `s'` makes
`f s a s' h` of `h`. -/
def record (M : LTS σ α) (h₀ : η) (f : σ → α → σ → η → η) : LTS (σ × η) α where
  init x := M.init x.1 ∧ x.2 = h₀
  next x a := (M.next x.1 a).map fun s' => (s', f x.1 a s' x.2)

variable {M : LTS σ α} {h₀ : η} {f : σ → α → σ → η → η} {C : σ × η → α → Prop}

theorem record_next :
    (M.record h₀ f).next x a = some y ↔ M.next x.1 a = some y.1 ∧ y.2 = f x.1 a y.1 x.2 := by
  simp only [record, Option.map_eq_some_iff]
  constructor
  · rintro ⟨s', h, rfl⟩
    exact ⟨h, rfl⟩
  · rintro ⟨h, e⟩
    exact ⟨y.1, h, Prod.ext rfl e.symm⟩

/-- An invariant that ties the history to the state. -/
theorem record_invariant {P : σ → η → Prop} (hinit : ∀ {s}, M.init s → P s h₀)
    (hstep : ∀ {s a s' h}, P s h → C (s, h) a → M.next s a = some s' → P s' (f s a s' h)) :
    (M.record h₀ f).Invariant C fun x => P x.1 x.2 where
  init {x} hx := by
    rw [hx.2]
    exact hinit hx.1
  step {x a y} hx hc hn := by
    obtain ⟨hn, e⟩ := record_next.mp hn
    rw [e]
    exact hstep hx hc hn

end LTS
