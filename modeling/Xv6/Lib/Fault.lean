import Mathlib.Logic.Basic

/-! # Programs on a state that may panic

A program reads and changes a state and gives a value, or it panics with an error. `Triple E P x Q`
says what `x` does from a state with `P`: if it gives a value, it leaves a state with `Q`, and if it
panics, the error satisfies `E`. -/

/-- A program on a state that may panic. -/
abbrev Fault (ε σ α : Type) := StateT σ (Except ε) α

namespace Fault

variable {ε σ α β : Type} {x : Fault ε σ α} {s : σ} {a : α}

def reads (f : σ → α) : Fault ε σ α := fun s => .ok (f s, s)

def writes (f : σ → σ) : Fault ε σ Unit := fun s => .ok ((), f s)

def panic (e : ε) : Fault ε σ α := fun _ => .error e

def check (c : σ → Prop) [DecidablePred c] (e : ε) : Fault ε σ Unit :=
  fun s => if c s then .ok ((), s) else .error e

theorem reads_bind : (reads f >>= k) s = k (f s) s := rfl

theorem writes_bind : (writes f >>= k) s = k () (f s) := rfl

theorem bind_of_ok (h : x s = .ok (a, s')) : (x >>= f) s = f a s' := by
  change (x s).bind (fun r => f r.1 r.2) = _
  rw [h]
  rfl

/-- What is said of a result. -/
def Result (E : ε → Prop) (Q : α → σ → Prop) : Except ε (α × σ) → Prop
  | .ok r => Q r.1 r.2
  | .error e => E e

instance [∀ e, Decidable (E e)] [∀ a s, Decidable (Q a s)] :
    ∀ r : Except ε (α × σ), Decidable (Result E Q r)
  | .ok r => inferInstanceAs (Decidable (Q r.1 r.2))
  | .error e => inferInstanceAs (Decidable (E e))

theorem Result.exists_ok {r : Except ε (α × σ)} (h : Result (fun _ => False) Q r) :
    ∃ a s, r = .ok (a, s) ∧ Q a s := by
  cases r with
  | ok r => exact ⟨r.1, r.2, rfl, h⟩
  | error e => exact h.elim

theorem Result.imp (h : Result E Q r) (hE : ∀ e, E e → E' e) (hQ : ∀ a s, Q a s → Q' a s) :
    Result E' Q' r := by
  cases r with
  | ok r => exact hQ _ _ h
  | error e => exact hE e h

def Triple (E : ε → Prop) (P : σ → Prop) (x : Fault ε σ α) (Q : α → σ → Prop) : Prop :=
  ∀ s, P s → Result E Q (x s)

theorem Triple.mono (h : Triple E P x Q) (hP : ∀ s, P' s → P s) (hQ : ∀ a s, Q a s → Q' a s) :
    Triple E P' x Q' :=
  fun s hs => (h s (hP s hs)).imp (fun _ => id) hQ

theorem Triple.pre (h : Triple E P x Q) (hP : ∀ s, P' s → P s) : Triple E P' x Q :=
  h.mono hP fun _ _ => id

theorem Triple.post (h : Triple E P x Q) (hQ : ∀ a s, Q a s → Q' a s) : Triple E P x Q' :=
  h.mono (fun _ => id) hQ

theorem Triple.weaken (h : Triple E P x Q) (hE : ∀ e, E e → E' e) : Triple E' P x Q :=
  fun s hs => (h s hs).imp hE fun _ _ => id

theorem Triple.of_true : Triple (fun _ => True) P x fun _ _ => True := by
  intro s _
  cases x s <;> trivial

theorem Triple.pure (h : ∀ s, P s → Q a s) : Triple E P (pure a) Q := h

theorem Triple.bind (hx : Triple E P x Q) (hf : ∀ a, Triple E (Q a) (f a) R) :
    Triple E P (x >>= f) R := by
  intro s hs
  have hr := hx s hs
  change Result E R ((x s).bind fun r => f r.1 r.2)
  cases h : x s with
  | ok r =>
    rw [h] at hr
    exact hf r.1 r.2 hr
  | error e =>
    rw [h] at hr
    exact hr

theorem Triple.bind_pure (hx : Triple E P x fun _ => R b) :
    Triple E P (x >>= fun _ => Pure.pure b) R :=
  hx.bind fun _ => .pure fun _ => id

/-- What has been read is known in the state it was read from. -/
theorem Triple.reads_bind (h : ∀ a, Triple E (fun s => P s ∧ f s = a) (k a) R) :
    Triple E P (reads f >>= k) R :=
  .bind (Q := fun a s => P s ∧ f s = a) (fun _ hs => ⟨hs, rfl⟩) h

/-- What is known of the states before is known of what has been read. -/
theorem Triple.reads_known {p : β → Prop} (hp : ∀ s, P s → p (f s))
    (h : ∀ a, p a → Triple E P (k a) R) : Triple E P (reads f >>= k) R := by
  refine .reads_bind fun a s hs => ?_
  obtain ⟨hs, rfl⟩ := hs
  exact h (f s) (hp s hs) s hs

/-- What has been read does not matter. -/
theorem Triple.read (h : ∀ a, Triple E P (k a) R) : Triple E P (reads f >>= k) R :=
  .reads_bind fun a => (h a).mono (fun _ => And.left) fun _ _ => id

theorem Triple.writes {f : σ → σ} {Q : Unit → σ → Prop} (h : ∀ s, P s → Q () (f s)) :
    Triple E P (writes f) Q := h

theorem Triple.panic (he : E e) : Triple E P (panic e : Fault ε σ α) Q := fun _ _ => he

theorem Triple.check [DecidablePred c] (he : ∀ s, P s → ¬ c s → E e) :
    Triple E P (check c e) fun _ s => P s ∧ c s := by
  intro s hs
  unfold Fault.check
  split
  · next hc => exact ⟨hs, hc⟩
  · next hc => exact he s hs hc

theorem Triple.ite {c : Prop} [Decidable c] (hx : c → Triple E P x Q) (hy : ¬ c → Triple E P y Q) :
    Triple E P (if c then x else y) Q := by
  by_cases h : c
  · rw [if_pos h]; exact hx h
  · rw [if_neg h]; exact hy h

theorem Triple.exists {ι : Type*} {P : ι → σ → Prop} (h : ∀ i, Triple E (P i) x Q) :
    Triple E (fun s => ∃ i, P i s) x Q :=
  fun s ⟨i, hs⟩ => h i s hs

/-- A part of the precondition that is not about the state. -/
theorem Triple.of_and {φ : Prop} (h : φ → Triple E P x Q) : Triple E (fun s => φ ∧ P s) x Q :=
  fun s hs => h hs.1 s hs.2

theorem Triple.and (h : Triple E P x Q) (h' : Triple E' P' x Q') :
    Triple (fun e => E e ∧ E' e) (fun s => P s ∧ P' s) x fun a s => Q a s ∧ Q' a s := by
  intro s hs
  have hr := h s hs.1
  have hr' := h' s hs.2
  cases hx : x s with
  | ok | error =>
    rw [hx] at hr hr'
    exact ⟨hr, hr'⟩

/-- A check that adds nothing. -/
theorem Triple.check_keeps [DecidablePred c] (he : E e) : Triple E P (Fault.check c e) fun _ => P :=
  (Triple.check fun _ _ _ => he).post fun _ _ => And.left

/-- A loop over a list, with what holds before the rest of the list. -/
theorem Triple.forM {P : List α → σ → Prop} {f : α → Fault ε σ PUnit} {l : List α}
    (h : ∀ a l, Triple E (P (a :: l)) (f a) fun _ => P l) :
    Triple E (P l) (l.forM f) fun _ => P [] := by
  induction l with
  | nil => exact .pure fun _ => id
  | cons a l ih => exact .bind (h a l) fun _ => ih

theorem Triple.forM_mem {f : α → Fault ε σ PUnit} {l : List α}
    (h : ∀ a ∈ l, Triple E P (f a) fun _ => P) : Triple E P (l.forM f) fun _ => P := by
  induction l with
  | nil => exact .pure fun _ => id
  | cons a l ih => exact .bind (h a List.mem_cons_self) fun _ => ih fun b hb => h b (.tail _ hb)

end Fault
