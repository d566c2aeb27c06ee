import Xv6.Lib.Fault
import Xv6.Lib.Triple

/-! # Programs that keep less of the state

`Forgets π x y` relates a program that may panic to one on what `π` keeps of its state: whatever `x`
gives, `y` gives too. -/

namespace Fault

variable {ε σ τ α β : Type} {π : σ → τ} {x x' : Fault ε σ α} {y y' : Prog τ α}

def Forgets (π : σ → τ) (x : Fault ε σ α) (y : Prog τ α) : Prop :=
  ∀ s, Result (fun _ => True) (fun a s' => y (π s) = some (a, π s')) (x s)

namespace Forgets

theorem bind {f : α → Fault ε σ β} {g : α → Prog τ β} (hx : Forgets π x y)
    (hf : ∀ a, Forgets π (f a) (g a)) : Forgets π (x >>= f) (y >>= g) := by
  intro s
  have hx := hx s
  change Result _ _ ((x s).bind fun r => f r.1 r.2)
  cases h : x s with
  | ok r =>
    rw [h] at hx
    rw [Prog.bind_of_eq_some hx]
    exact hf r.1 r.2
  | error e => trivial

/-- A step that `π` does not see has no counterpart. -/
theorem after {f : α → Fault ε σ β} {y : Prog τ β} (hx : Forgets π x (pure a))
    (hf : ∀ a, Forgets π (f a) y) : Forgets π (x >>= f) y :=
  hx.bind hf

/-- What is read is not needed. -/
theorem read {f : α → Fault ε σ β} {y : Prog τ β} (h : ∀ a, Forgets π (f a) y) :
    Forgets π (reads g >>= f) y :=
  fun s => h (g s) s

theorem check [DecidablePred c] {d : τ → Prop} [DecidablePred d] (h : ∀ s, c s → d (π s)) :
    Forgets π (check c e : Fault ε σ Unit) (Prog.check d) := by
  intro s
  unfold Fault.check
  split
  · next hc => exact if_pos (h s hc)
  · trivial

theorem ite [Decidable c] (h : Forgets π x y) (h' : Forgets π x' y') :
    Forgets π (if c then x else x') (if c then y else y') := by
  split
  · exact h
  · exact h'

end Forgets

end Fault
