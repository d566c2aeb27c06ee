import Mathlib.Data.List.Basic
import Mathlib.Logic.Function.Basic

/-! # Sequences of writes and redo logs

A store is a function `d : ι → β` and a write is a pair of a place and a value. `apply d ws` is the
store after the writes `ws`. A redo log is a list of writes that may be made again at any time:
`Recovers H d log target` says that on the places in `H` the store `d` can be completed to `target`
by making the writes of `log`. Making the first write of the log leaves the rest of the log to be
made, and what has been made may be made again. -/

namespace Redo

variable {ι β : Type*}

section Apply
variable [DecidableEq ι]

def apply (d : ι → β) (ws : List (ι × β)) : ι → β :=
  ws.foldl (fun d w => Function.update d w.1 w.2) d

theorem apply_append (d : ι → β) (ws ws' : List (ι × β)) :
    apply d (ws ++ ws') = apply (apply d ws) ws' := List.foldl_append ..

theorem apply_concat (d : ι → β) (ws : List (ι × β)) (i : ι) (x : β) :
    apply d (ws ++ [(i, x)]) = Function.update (apply d ws) i x := by
  rw [apply_append]; rfl

end Apply

structure Recovers (H : ι → Prop) (d : ι → β) (log : List (ι × β)) (target : ι → β) : Prop where
  entry : ∀ w ∈ log, w.2 = target w.1
  rest : ∀ i, H i → d i = target i ∨ ∃ w ∈ log, w.1 = i

namespace Recovers

variable {H : ι → Prop} {d target : ι → β} {log : List (ι × β)} {w : ι × β}

/-- A store that is complete needs no log. -/
theorem nil_iff : Recovers H d [] target ↔ ∀ i, H i → d i = target i := by
  constructor
  · intro h i hi
    exact (h.rest i hi).resolve_right fun ⟨_, hw, _⟩ => nomatch hw
  · intro h
    exact ⟨nofun, fun i hi => .inl (h i hi)⟩

theorem install [DecidableEq ι] (h : Recovers H d (w :: log) target) :
    Recovers H (Function.update d w.1 w.2) log target where
  entry v hv := h.entry v (.tail _ hv)
  rest i hi := by
    by_cases hw : i = w.1
    · subst hw
      rw [Function.update_self]
      exact .inl (h.entry w (.head _))
    · rw [Function.update_of_ne hw]
      rcases h.rest i hi with e | ⟨v, hv, e⟩
      · exact .inl e
      · rcases List.mem_cons.mp hv with rfl | hv
        · exact absurd e.symm hw
        · exact .inr ⟨v, hv, e⟩

/-- Writes that have been made may be made again. -/
theorem mono (h : Recovers H d log target) (hs : log ⊆ log')
    (he : ∀ w ∈ log', w.2 = target w.1) : Recovers H d log' target where
  entry := he
  rest i hi := (h.rest i hi).imp_right fun ⟨w, hw, e⟩ => ⟨w, hs hw, e⟩

end Recovers

end Redo
