import Mathlib.Algebra.Order.Group.Multiset
import Mathlib.Logic.Relation
import Xv6.Lib.Fault

/-! # Programs that hold resources

A program under way holds resources: what it has taken and has to drop or to store. Its steps are a
relation `r` on pairs of the resources held and the state. `Held r c R s` says that the steps lead
from `c` to the state `s` with the resources `R`, so that every invariant of the steps holds
there. -/

namespace Holding

variable {ρ σ ε α : Type}

def Held (r : Multiset ρ × σ → Multiset ρ × σ → Prop) (c : Multiset ρ × σ) (R : Multiset ρ)
    (s : σ) : Prop := Relation.ReflTransGen r c (R, s)

theorem Held.refl : Held r (R, s) R s := Relation.ReflTransGen.refl

theorem Held.step (h : Held r c R s) (hs : r (R, s) (R', s')) : Held r c R' s' := h.tail hs

theorem Held.invariant {I : Multiset ρ × σ → Prop} (h : Held r c R s)
    (hI : ∀ c c', r c c' → I c → I c') (hc : I c) : I (R, s) :=
  Relation.ReflTransGen.rec (motive := fun c' _ => I c') hc (fun _ hs ih => hI _ _ hs ih) h

/-- The order in which resources are listed does not matter. -/
theorem perm (e : R = R') (h : Fault.Triple E (Held r c R') x Q) :
    Fault.Triple E (Held r c R) x Q := e ▸ h

end Holding
