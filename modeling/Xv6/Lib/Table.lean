import Mathlib.Algebra.BigOperators.Ring.Finset
import Mathlib.Algebra.Order.BigOperators.Group.Finset

/-! # Tables indexed by a finite type

A table is a function `t : ι → α`. `Table.count p t` is the number of entries that pass the
test `p`, and `count_update` says how one assignment changes it. The loops of a program over a
table are left folds over a list of indices; what they preserve follows from one iteration by
`foldl_inv`. -/

namespace Table

variable {ι α : Type*}

def ind (b : Bool) : Int := if b then 1 else 0

@[simp] theorem ind_true : ind true = 1 := rfl
@[simp] theorem ind_false : ind false = 0 := rfl

theorem ind_nonneg (b : Bool) : 0 ≤ ind b := by cases b <;> decide

section Count
variable [Fintype ι]

/-- The number of entries of `t` that pass `p`. -/
def count (p : α → Bool) (t : ι → α) : Int := ∑ i, ind (p (t i))

theorem count_nonneg (p : α → Bool) (t : ι → α) : 0 ≤ count p t :=
  Finset.sum_nonneg fun _ _ => ind_nonneg _

/-- One assignment changes a count by the new entry and the old one. -/
theorem count_update [DecidableEq ι] (p : α → Bool) (t : ι → α) (i : ι) (v : α) :
    count p (Function.update t i v) = count p t + ind (p v) - ind (p (t i)) := by
  have hrest : ∑ j ∈ Finset.univ.erase i, ind (p (Function.update t i v j)) =
      ∑ j ∈ Finset.univ.erase i, ind (p (t j)) :=
    Finset.sum_congr rfl fun j hj => by rw [Function.update_of_ne (Finset.ne_of_mem_erase hj)]
  simp only [count]
  rw [← Finset.add_sum_erase _ _ (Finset.mem_univ i), hrest,
    ← Finset.add_sum_erase (a := i) _ (fun j => ind (p (t j))) (Finset.mem_univ i)]
  simp only [Function.update_self]
  omega

theorem count_eq_card (p : α → Bool) (t : ι → α) :
    count p t = (Finset.univ.filter fun i => p (t i) = true).card := by
  simp only [count, ind, Finset.sum_boole]

/-- An entry that passes makes the count positive. -/
theorem count_pos {p : α → Bool} {t : ι → α} {i : ι} (h : p (t i) = true) : 0 < count p t := by
  have := Finset.single_le_sum (f := fun j => ind (p (t j))) (fun j _ => ind_nonneg _)
    (Finset.mem_univ i)
  simp only [h, ind_true] at this
  simp only [count]
  omega

theorem count_eq_zero {p : α → Bool} {t : ι → α} (h : ∀ i, p (t i) = false) : count p t = 0 :=
  Finset.sum_eq_zero fun i _ => by simp [h i]

theorem exists_of_count_pos {p : α → Bool} {t : ι → α} (h : 0 < count p t) :
    ∃ i, p (t i) = true := by
  by_contra hn
  push Not at hn
  exact h.ne' (count_eq_zero fun i => Bool.eq_false_iff.mpr (hn i))

/-- One assignment changes a sum by the new entry and the old one. -/
theorem sum_of_eq {M : Type*} [AddCommMonoid M] {f g : ι → M} (i : ι) (h : ∀ j, j ≠ i → g j = f j) :
    ∑ j, g j + f i = ∑ j, f j + g i := by
  classical
  have hrest : ∑ j ∈ Finset.univ.erase i, g j = ∑ j ∈ Finset.univ.erase i, f j :=
    Finset.sum_congr rfl fun j hj => h j (Finset.ne_of_mem_erase hj)
  rw [← Finset.add_sum_erase _ g (Finset.mem_univ i),
    ← Finset.add_sum_erase _ f (Finset.mem_univ i), hrest]
  ac_rfl

/-- Two distinct entries that pass make the count at least two. -/
theorem two_le_count {p : α → Bool} {t : ι → α} {i j : ι} (hij : i ≠ j)
    (hi : p (t i) = true) (hj : p (t j) = true) : 2 ≤ count p t := by
  classical
  rw [count_eq_card]
  have hsub : ({i, j} : Finset ι) ⊆ Finset.univ.filter fun k => p (t k) = true := by
    intro k hk
    rcases Finset.mem_insert.mp hk with rfl | hk
    · simpa using hi
    · rw [Finset.mem_singleton.mp hk]
      simpa using hj
  have hcard := Finset.card_le_card hsub
  rw [Finset.card_pair hij] at hcard
  exact_mod_cast hcard

end Count

/-- A loop over a list of indices keeps what each iteration keeps. -/
theorem foldl_inv {σ : Type*} {f : σ → ι → σ} {P : σ → Prop} (is : List ι) {s : σ}
    (h : ∀ s i, P s → P (f s i)) (hs : P s) : P (is.foldl f s) := by
  induction is generalizing s with
  | nil => exact hs
  | cons i is ih => exact ih (h s i hs)

end Table
