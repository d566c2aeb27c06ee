import Mathlib.Data.Option.Basic

/-! # Programs on a state that may stop

A program reads and changes a state and gives a value, or it stops without one. `Triple P x Q` is
partial correctness: from a state with `P`, if `x` gives a value, it leaves a state with `Q`. -/

/-- A program on a state that may stop. -/
abbrev Prog (σ α : Type) := StateT σ Option α

namespace Prog

variable {σ α β : Type} {Q : α → σ → Prop} {s s' : σ} {a : α}

def reads (f : σ → α) : Prog σ α := fun s => some (f s, s)

def writes (f : σ → σ) : Prog σ Unit := fun s => some ((), f s)

def stop : Prog σ α := fun _ => none

def check (c : σ → Prop) [DecidablePred c] : Prog σ Unit :=
  fun s => if c s then some ((), s) else none

@[simp] theorem pure_eq_some : (pure a : Prog σ α) s = some (a', s') ↔ a = a' ∧ s = s' := by
  change some (a, s) = _ ↔ _
  simp

@[simp] theorem bind_eq_some {x : Prog σ α} {f : α → Prog σ β} :
    (x >>= f) s = some (b, s') ↔ ∃ a t, x s = some (a, t) ∧ f a t = some (b, s') := by
  change (x s).bind (fun r => f r.1 r.2) = _ ↔ _
  simp [Option.bind_eq_some_iff]

theorem bind_of_eq_some {x : Prog σ α} {f : α → Prog σ β} (h : x s = some (a, s')) :
    (x >>= f) s = f a s' := by
  change (x s).bind (fun r => f r.1 r.2) = _
  rw [h]; rfl

@[simp] theorem reads_eq_some : reads f s = some (a, s') ↔ f s = a ∧ s = s' := by
  simp [reads]

theorem reads_bind : (reads f >>= k) s = k (f s) s := rfl

@[simp] theorem writes_eq_some : writes f s = some (u, s') ↔ f s = s' := by
  simp [writes]

@[simp] theorem stop_eq_some : (stop : Prog σ α) s = some (a, s') ↔ False := by simp [stop]

@[simp] theorem check_eq_some [DecidablePred c] : check c s = some (u, s') ↔ c s ∧ s = s' := by
  simp [check]

/-! ## Triples -/

def Triple (P : σ → Prop) (x : Prog σ α) (Q : α → σ → Prop) : Prop :=
  ∀ s a s', P s → x s = some (a, s') → Q a s'

theorem Triple.mono (h : Triple P x Q) (hP : ∀ s, P' s → P s) (hQ : ∀ a s, Q a s → Q' a s) :
    Triple P' x Q' :=
  fun s a s' hs hx => hQ a s' (h s a s' (hP s hs) hx)

theorem Triple.pre (h : Triple P x Q) (hP : ∀ s, P' s → P s) : Triple P' x Q :=
  h.mono hP fun _ _ => id

theorem Triple.post (h : Triple P x Q) (hQ : ∀ a s, Q a s → Q' a s) : Triple P x Q' :=
  h.mono (fun _ => id) hQ

theorem Triple.and (h : Triple P x Q) (h' : Triple P' x Q') :
    Triple (fun s => P s ∧ P' s) x fun a s => Q a s ∧ Q' a s :=
  fun s a s' hs hx => ⟨h s a s' hs.1 hx, h' s a s' hs.2 hx⟩

theorem Triple.exists {ι : Type*} {P : ι → σ → Prop} {x : Prog σ α} (h : ∀ i, Triple (P i) x Q) :
    Triple (fun s => ∃ i, P i s) x Q :=
  fun s a s' ⟨i, hs⟩ hx => h i s a s' hs hx

/-- A part of the precondition that is not about the state. -/
theorem Triple.of_and {φ : Prop} (h : φ → Triple P x Q) : Triple (fun s => φ ∧ P s) x Q :=
  fun s a s' hs hx => h hs.1 s a s' hs.2 hx

theorem Triple.pure (h : ∀ s, P s → Q a s) : Triple P (pure a) Q := by
  intro s b s' hs hx
  obtain ⟨rfl, rfl⟩ := pure_eq_some.mp hx
  exact h s hs

theorem Triple.bind {x : Prog σ α} {f : α → Prog σ β} {R : β → σ → Prop} (hx : Triple P x Q)
    (hf : ∀ a, Triple (Q a) (f a) R) : Triple P (x >>= f) R := by
  intro s b s' hs h
  obtain ⟨a, t, hxa, hfa⟩ := bind_eq_some.mp h
  exact hf a t b s' (hx s a t hs hxa) hfa

theorem Triple.bind_pure {x : Prog σ α} {R : β → σ → Prop} (hx : Triple P x fun _ => R b) :
    Triple P (x >>= fun _ => Pure.pure b) R :=
  hx.bind fun _ => .pure fun _ => id

/-- What has been read is known in the state it was read from. -/
theorem Triple.reads_bind (h : ∀ a, Triple (fun s => P s ∧ f s = a) (k a) R) :
    Triple P (reads f >>= k) R :=
  .bind (Q := fun a s => P s ∧ f s = a) (fun s a s' hs hx => by
    obtain ⟨rfl, rfl⟩ := reads_eq_some.mp hx
    exact ⟨hs, rfl⟩) h

/-- What has been read does not matter. -/
theorem Triple.read (h : ∀ a, Triple P (k a) R) : Triple P (reads f >>= k) R :=
  .reads_bind fun a => (h a).mono (fun _ => And.left) fun _ _ => id

theorem Triple.writes {f : σ → σ} {Q : Unit → σ → Prop} (h : ∀ s, P s → Q () (f s)) :
    Triple P (writes f) Q := by
  intro s u s' hs hx
  obtain rfl := writes_eq_some.mp hx
  exact h s hs

theorem Triple.stop : Triple P (stop : Prog σ α) Q := nofun

theorem Triple.check [DecidablePred c] : Triple P (check c) fun _ s => P s ∧ c s := by
  intro s u s' hs hx
  obtain ⟨hc, rfl⟩ := check_eq_some.mp hx
  exact ⟨hs, hc⟩

theorem Triple.ite {c : Prop} [Decidable c] (hx : c → Triple P x Q) (hy : ¬ c → Triple P y Q) :
    Triple P (if c then x else y) Q := by
  by_cases h : c
  · rw [if_pos h]; exact hx h
  · rw [if_neg h]; exact hy h

/-- A loop over a list keeps what each iteration keeps. -/
theorem Triple.forM {l : List α} {f : α → Prog σ PUnit} (h : ∀ a ∈ l, Triple P (f a) fun _ => P) :
    Triple P (l.forM f) fun _ => P := by
  induction l with
  | nil => exact .pure fun _ hs => hs
  | cons a l ih => exact .bind (h a (.head _)) fun _ => ih fun b hb => h b (.tail _ hb)

/-! ## Weakest preconditions -/

/-- `x` stops, or it leaves a state with `Q`. -/
def wlp (x : Prog σ α) (Q : α → σ → Prop) (s : σ) : Prop := ∀ r ∈ x s, Q r.1 r.2

instance {x : Prog σ α} [∀ a s, Decidable (Q a s)] : Decidable (wlp x Q s) :=
  inferInstanceAs (Decidable (∀ r ∈ x s, Q r.1 r.2))

theorem Triple.of_wlp : Triple (wlp x Q) x Q := fun _ _ _ hs hx => hs _ hx

end Prog
