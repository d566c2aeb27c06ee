import Mathlib.Data.List.Basic

/-! # Labelled transition systems

A system is a set of initial states and a partial step function: `next s a` is the state
after the step `a`, and `none` when `a` is not enabled in `s`. Whatever a step leaves to its
surroundings (a scheduling choice, the outcome of an allocation, a crash) is part of the
label, so that a run is a list of labels and can be evaluated.

`ReachedVia C` restricts runs to those each of whose steps meets `C` in the state it is taken
from; `Reached` is the case without a restriction. Every invariant below is proved by the one
induction `Invariant.of_reached`. -/

/-- A transition system with states `σ` and labels `α`. -/
structure LTS (σ α : Type*) where
  init : σ → Prop
  next : σ → α → Option σ

namespace LTS

variable {σ α : Type*} {M : LTS σ α} {C : σ → α → Prop} {P Q : σ → Prop} {s s' : σ}

/-- The states reached by runs all of whose steps meet `C`. -/
inductive ReachedVia (M : LTS σ α) (C : σ → α → Prop) : σ → Prop
  | init {s : σ} : M.init s → M.ReachedVia C s
  | step {s s' : σ} {a : α} : M.ReachedVia C s → C s a → M.next s a = some s' → M.ReachedVia C s'

def Reached (M : LTS σ α) : σ → Prop := M.ReachedVia fun _ _ => True

theorem ReachedVia.mono {D : σ → α → Prop} (h : M.ReachedVia C s) (hCD : ∀ s a, C s a → D s a) :
    M.ReachedVia D s := by
  induction h with
  | init h => exact .init h
  | step _ hc hn ih => exact .step ih (hCD _ _ hc) hn

/-! ## Invariants -/

/-- `P` holds initially and is kept by every step that meets `C`. -/
structure Invariant (M : LTS σ α) (C : σ → α → Prop) (P : σ → Prop) : Prop where
  init : ∀ {s}, M.init s → P s
  step : ∀ {s a s'}, P s → C s a → M.next s a = some s' → P s'

theorem Invariant.of_reached (H : M.Invariant C P) (h : M.ReachedVia C s) : P s := by
  induction h with
  | init h => exact H.init h
  | step _ hc hn ih => exact H.step ih hc hn

/-! ## Runs -/

/-- The state after a list of steps, `none` if one of them is not enabled. -/
def run (M : LTS σ α) : σ → List α → Option σ
  | s, [] => some s
  | s, a :: as => (M.next s a).bind fun s' => M.run s' as

/-- Every step of the run meets `C` in the state it is taken in. -/
def Along (M : LTS σ α) (C : σ → α → Prop) : σ → List α → Prop
  | _, [] => True
  | s, a :: as => C s a ∧ ∀ t ∈ M.next s a, M.Along C t as

instance decidableAlong [∀ s a, Decidable (C s a)] : ∀ s as, Decidable (M.Along C s as)
  | _, [] => isTrue trivial
  | s, a :: as =>
    have := fun t => decidableAlong t as
    inferInstanceAs (Decidable (C s a ∧ ∀ t ∈ M.next s a, M.Along C t as))

theorem Along.of_forall (h : ∀ s, ∀ a ∈ as, C s a) : M.Along C s as := by
  induction as generalizing s with
  | nil => trivial
  | cons a as ih => exact ⟨h s a (.head _), fun t _ => ih fun s b hb => h s b (.tail _ hb)⟩

/-- `P` holds in every state of the run, the first and the last one included. -/
def Throughout (M : LTS σ α) (P : σ → Prop) : σ → List α → Prop
  | s, [] => P s
  | s, a :: as => P s ∧ ∀ t ∈ M.next s a, M.Throughout P t as

instance decidableThroughout [∀ s, Decidable (P s)] : ∀ s as, Decidable (M.Throughout P s as)
  | s, [] => inferInstanceAs (Decidable (P s))
  | s, a :: as =>
    have := fun t => decidableThroughout t as
    inferInstanceAs (Decidable (P s ∧ ∀ t ∈ M.next s a, M.Throughout P t as))

theorem Throughout.head (h : M.Throughout P s as) : P s := by
  cases as with
  | nil => exact h
  | cons a as => exact h.1

theorem Throughout.and (h : M.Throughout P s as) (h' : M.Throughout Q s as) :
    M.Throughout (fun s => P s ∧ Q s) s as := by
  induction as generalizing s with
  | nil => exact ⟨h, h'⟩
  | cons a as ih => exact ⟨⟨h.1, h'.1⟩, fun t ht => ih (h.2 t ht) (h'.2 t ht)⟩

/-- What every step between two states with `P` keeps, a run through such states keeps. -/
theorem Throughout.keeps (h : M.Throughout P s as)
    (hstep : ∀ {s a t}, P s → P t → Q s → M.next s a = some t → Q t) (hr : M.run s as = some s')
    (hs : Q s) : Q s' ∧ P s' := by
  induction as generalizing s with
  | nil =>
    cases hr
    exact ⟨hs, h⟩
  | cons a as ih =>
    obtain ⟨t, ht, hr⟩ := Option.bind_eq_some_iff.mp hr
    have htail := h.2 t ht
    exact ih htail hr (hstep h.1 htail.head hs ht)

theorem ReachedVia.of_run (h : M.ReachedVia C s) (hC : M.Along C s as) (hr : M.run s as = some s') :
    M.ReachedVia C s' := by
  induction as generalizing s with
  | nil =>
    simp only [run, Option.some.injEq] at hr
    exact hr ▸ h
  | cons a as ih =>
    simp only [run, Option.bind_eq_some_iff] at hr
    obtain ⟨t, ht, hr⟩ := hr
    exact ih (.step h hC.1 ht) (hC.2 t ht) hr

theorem Reached.of_run (h : M.init s) (hr : M.run s as = some s') : M.Reached s' :=
  ReachedVia.of_run (.init h) (.of_forall fun _ _ _ => trivial) hr

/-- A run that ends in a state passing the test `p` reaches such a state. -/
theorem exists_reachedVia_of_run (as : List α) (p : σ → Bool) (h : M.init s)
    (hC : M.Along C s as) (hr : (M.run s as).map p = some true) :
    ∃ t, M.ReachedVia C t ∧ p t = true := by
  obtain ⟨t, ht, hp⟩ := Option.map_eq_some_iff.mp hr
  exact ⟨t, .of_run (.init h) hC ht, hp⟩

theorem exists_reached_of_run (as : List α) (p : σ → Bool) (h : M.init s)
    (hr : (M.run s as).map p = some true) : ∃ t, M.Reached t ∧ p t = true :=
  exists_reachedVia_of_run as p h (.of_forall fun _ _ _ => trivial) hr

end LTS
