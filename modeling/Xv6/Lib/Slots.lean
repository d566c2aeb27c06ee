import Mathlib.Data.List.Basic

/-! # A table of slots as a finite map

A slot is empty or holds a key with a value. A table in which no key stands in two slots is a finite
map: a key that is not there can be put in any empty slot or behind the last one, and a key is
removed by emptying its slot. -/

namespace Slots

variable {κ β : Type*} {x : κ} {v w : β} {j k : Nat}

/-- A key with a value stands in a slot. -/
def At (t : List (Option (κ × β))) (k : Nat) (x : κ) (v : β) : Prop := t[k]? = some (some (x, v))

def Distinct (t : List (Option (κ × β))) : Prop :=
  ∀ j k x v w, At t j x v → At t k x w → j = k

/-- The table with a slot replaced, or with one more slot. -/
def put (t : List (Option (κ × β))) (k : Nat) (e : Option (κ × β)) : List (Option (κ × β)) :=
  if k < t.length then t.set k e else t ++ [e]

theorem getElem?_put (hk : k ≤ t.length) : (put t k e)[j]? = if j = k then some e else t[j]? := by
  unfold put
  split
  · next hlt =>
    rw [List.getElem?_set]
    grind
  · next hlt =>
    obtain rfl : k = t.length := by omega
    rw [List.getElem?_append]
    grind

theorem at_put_some (hk : k ≤ t.length) :
    At (put t k (some (x, v))) j y w ↔ j = k ∧ x = y ∧ v = w ∨ j ≠ k ∧ At t j y w := by
  unfold At
  rw [getElem?_put hk]
  by_cases e : j = k <;> simp [e]

theorem at_put_none (hk : k ≤ t.length) : At (put t k none) j y w ↔ j ≠ k ∧ At t j y w := by
  unfold At
  rw [getElem?_put hk]
  by_cases e : j = k <;> simp [e]

variable [DecidableEq κ]

def valueAt (x : κ) (e : Option (κ × β)) : Option β :=
  e.bind fun p => if p.1 = x then some p.2 else none

theorem valueAt_eq_some_iff : valueAt x e = some v ↔ e = some (x, v) := by
  cases e with
  | none => simp [valueAt]
  | some p =>
    obtain ⟨y, w⟩ := p
    simp [valueAt, Option.ite_none_right_eq_some]

/-- The value of a key in the first slot that holds it. -/
def find (t : List (Option (κ × β))) (x : κ) : Option β := t.findSome? (valueAt x)

theorem find_eq_none_iff : find t x = none ↔ ∀ k v, ¬ At t k x v := by
  rw [find, List.findSome?_eq_none_iff]
  constructor
  · intro h k v hk
    have hnone := h _ (List.mem_iff_getElem?.mpr ⟨k, hk⟩)
    rw [valueAt_eq_some_iff.mpr rfl] at hnone
    cases hnone
  · intro h e he
    cases hv : valueAt x e with
    | none => rfl
    | some v =>
      obtain rfl := valueAt_eq_some_iff.mp hv
      obtain ⟨k, hk⟩ := List.mem_iff_getElem?.mp he
      exact absurd hk (h k v)

theorem exists_at_of_find (h : find t x = some v) : ∃ k, At t k x v := by
  obtain ⟨e, he, hv⟩ := List.exists_of_findSome?_eq_some h
  obtain rfl := valueAt_eq_some_iff.mp hv
  exact List.mem_iff_getElem?.mp he

namespace Distinct

/-- The first slot with a key is the only one. -/
theorem find_eq_some_iff (h : Distinct t) : find t x = some v ↔ ∃ k, At t k x v := by
  refine ⟨exists_at_of_find, ?_⟩
  rintro ⟨k, hk⟩
  cases hf : find t x with
  | none => exact absurd hk (find_eq_none_iff.mp hf k v)
  | some w =>
    obtain ⟨j, hj⟩ := exists_at_of_find hf
    obtain rfl := h j k x w v hj hk
    have := Option.some.inj (hj.symm.trans hk)
    simpa using this

/-- A key that is not there comes to an empty slot, or behind the last one. -/
theorem put_some (h : Distinct t) (hk : k ≤ t.length) (hx : find t x = none) :
    Distinct (put t k (some (x, v))) := by
  have hnone := find_eq_none_iff.mp hx
  intro a b y u w ha hb
  rcases (at_put_some hk).mp ha with ⟨rfl, rfl, -⟩ | ⟨-, ha'⟩ <;>
    rcases (at_put_some hk).mp hb with ⟨rfl, hy, -⟩ | ⟨-, hb'⟩
  · rfl
  · exact absurd hb' (hnone b w)
  · exact absurd (hy ▸ ha') (hnone a u)
  · exact h a b y u w ha' hb'

theorem find_put_some (h : Distinct t) (hk : t[k]? = some none ∨ k = t.length)
    (hx : find t x = none) :
    find (put t k (some (x, v))) y = if y = x then some v else find t y := by
  have hle : k ≤ t.length := by
    rcases hk with hk | rfl
    · exact Nat.le_of_lt (List.getElem?_eq_some_iff.mp hk).1
    · exact Nat.le_refl _
  have hempty : ∀ y w, ¬ At t k y w := by
    intro y w ha
    rcases hk with hk | rfl
    · rw [At, hk] at ha
      cases ha
    · exact absurd (List.getElem?_eq_some_iff.mp ha).1 (Nat.lt_irrefl _)
  refine Option.ext fun w => ?_
  rw [(h.put_some hle hx).find_eq_some_iff]
  simp only [at_put_some hle]
  by_cases e : y = x
  · subst e
    have hnone := find_eq_none_iff.mp hx
    simp [hnone]
  · rw [if_neg e, h.find_eq_some_iff]
    constructor
    · rintro ⟨a, ⟨-, hy, -⟩ | ⟨-, ha⟩⟩
      · exact absurd hy.symm e
      · exact ⟨a, ha⟩
    · rintro ⟨a, ha⟩
      exact ⟨a, .inr ⟨fun ea => hempty y w (ea ▸ ha), ha⟩⟩

omit [DecidableEq κ] in
theorem put_none (h : Distinct t) (hk : k ≤ t.length) : Distinct (put t k none) :=
  fun a b y u w ha hb => h a b y u w ((at_put_none hk).mp ha).2 ((at_put_none hk).mp hb).2

/-- A key is removed with its slot. -/
theorem find_put_none (h : Distinct t) (hk : At t k x v) :
    find (put t k none) y = if y = x then none else find t y := by
  have hle : k ≤ t.length := Nat.le_of_lt (List.getElem?_eq_some_iff.mp hk).1
  refine Option.ext fun w => ?_
  rw [(h.put_none hle).find_eq_some_iff]
  simp only [at_put_none hle]
  by_cases e : y = x
  · subst e
    simp only [if_true, reduceCtorEq, iff_false]
    rintro ⟨a, ha, hat⟩
    exact ha (h a k y w v hat hk)
  · rw [if_neg e, h.find_eq_some_iff]
    constructor
    · rintro ⟨a, -, ha⟩
      exact ⟨a, ha⟩
    · rintro ⟨a, ha⟩
      refine ⟨a, ?_, ha⟩
      rintro rfl
      have := Option.some.inj (ha.symm.trans hk)
      simp_all

end Distinct

end Slots
