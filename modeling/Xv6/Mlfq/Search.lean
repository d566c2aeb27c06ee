import Xv6.Lib.Table
import Xv6.Mlfq.Ptable

/-! # When the scheduler's search ends

With `ptable.lock` held the table does not change, so the search is a deterministic loop over
positions. At the lowest level that has a runnable process it leaves the loop only at a process
of highest priority, and goes back to the first slot at a process that a process in an earlier
slot exceeds. It therefore ends exactly when the priorities of that level do not drop, in slot
order, before the first process of highest priority (`Ascending`). -/

namespace Xv6.Mlfq

open Loop

variable {K L l : Nat} {t : Ptable} {p q : Slot}

def runnableCount (t : Ptable) (l : Nat) : Int :=
  Table.count (fun v : Proc => v.state = .RUNNABLE ∧ v.level = l) t.proc

def Counted (K : Nat) (t : Ptable) : Prop := ∀ l < K, t.numproc l = runnableCount t l

/-- `L` is the lowest level with a runnable process. -/
def TopLevel (t : Ptable) (L : Nat) : Prop :=
  (∃ p, t.RunnableAt L p) ∧ ∀ l < L, ∀ p, ¬ t.RunnableAt l p

/-- `p` has the highest priority among the runnable processes of level `L`. -/
def Peak (t : Ptable) (L : Nat) (p : Slot) : Prop :=
  t.RunnableAt L p ∧ ∀ q, t.RunnableAt L q → (t.proc q).priority ≤ (t.proc p).priority

/-- In slot order, no process of level `L` before the first peak is exceeded by an earlier one. -/
def Ascending (t : Ptable) (L : Nat) : Prop :=
  ∀ p, t.RunnableAt L p → (∀ q ≤ p, ¬ Peak t L q) →
    ∀ q < p, t.RunnableAt L q → (t.proc q).priority ≤ (t.proc p).priority

/-- The search started at `schbegin` reaches a dispatch after finitely many iterations. -/
def Dispatches (K : Nat) (t : Ptable) : Prop :=
  ∃ p, Yields (search K t) schbegin (.dispatch p)

/-! ## Counters -/

theorem runnableCount_pos (h : t.RunnableAt l p) : 0 < runnableCount t l :=
  Table.count_pos (i := p) (by simpa [Ptable.RunnableAt] using h)

theorem runnableCount_eq_zero (h : ∀ p, ¬ t.RunnableAt l p) : runnableCount t l = 0 := by
  by_contra hne
  have hpos : 0 < runnableCount t l := by
    have : 0 ≤ runnableCount t l := Table.count_nonneg _ _
    omega
  obtain ⟨p, hp⟩ := Table.exists_of_count_pos hpos
  exact h p (by simpa [Ptable.RunnableAt] using hp)

theorem two_le_runnableCount (hpq : p ≠ q) (hp : t.RunnableAt l p) (hq : t.RunnableAt l q) :
    2 ≤ runnableCount t l :=
  Table.two_le_count hpq (by simpa [Ptable.RunnableAt] using hp)
    (by simpa [Ptable.RunnableAt] using hq)

/-- The guard `numproc[level] > 1` does not change what the inner loop finds. -/
theorem higher_eq (hc : Counted K t) (hL : L < K) (hp : t.RunnableAt L p) :
    higher t L p = slots.find? fun p1 =>
      t.RunnableAt L p1 ∧ (t.proc p1).priority > (t.proc p).priority := by
  unfold higher
  split
  · rfl
  · next hle =>
    rw [hc L hL] at hle
    symm
    rw [find_slots_eq_none]
    intro p1
    by_contra hne
    simp only [Bool.not_eq_false, decide_eq_true_eq] at hne
    have hne' : p1 ≠ p := by rintro rfl; exact absurd hne.2 (lt_irrefl _)
    exact hle (two_le_runnableCount hne' hne.1 hp)

/-! ## One iteration -/

theorem noneHigher (hc : Counted K t) (hL : L ≤ K) (h : ∀ l < L, ∀ p, ¬ t.RunnableAt l p) :
    ¬ ∃ i ∈ List.range L, t.numproc i > 0 := by
  rintro ⟨i, hi, hpos⟩
  have hi := List.mem_range.mp hi
  rw [hc i (by omega), runnableCount_eq_zero (h i hi)] at hpos
  exact absurd hpos (lt_irrefl 0)

/-- A level without runnable processes is left at its end. -/
theorem search_empty_level (hc : Counted K t) (hL : L < K)
    (h : ∀ l < L + 1, ∀ p, ¬ t.RunnableAt l p) :
    ∀ i < NPROC, search K t ⟨L, i⟩ = .next ⟨L, i + 1⟩ := by
  intro i hi
  have hup := noneHigher hc hL.le fun l hl => h l (by omega)
  simp only [search, hL, hi, hup, h L (by omega), if_true, dif_pos, if_false, not_false_eq_true]

theorem search_end_empty (hc : Counted K t) (hL : L < K) (h : ∀ p, ¬ t.RunnableAt L p) :
    search K t ⟨L, NPROC⟩ = .next ⟨L + 1, 0⟩ := by
  simp [search, hL, hc L hL, runnableCount_eq_zero h]

section Top
variable (hc : Counted K t) (hL : L < K) (htop : TopLevel t L)
include hc hL htop

theorem search_skip_idle (hp : ¬ t.RunnableAt L p) : search K t ⟨L, p⟩ = .next ⟨L, p + 1⟩ := by
  have hup := noneHigher hc hL.le htop.2
  simp only [search, hL, p.isLt, hup, Fin.eta, hp, if_true, dif_pos, if_false, not_false_eq_true]

/-- At a runnable process the inner loop decides. -/
theorem search_runnable (hp : t.RunnableAt L p) : search K t ⟨L, p⟩ =
      match slots.find? fun p1 =>
        t.RunnableAt L p1 ∧ (t.proc p1).priority > (t.proc p).priority with
      | some p1 => if p1 < p then .next ⟨L, 0⟩ else .next ⟨L, p + 1⟩
      | none => .done (.dispatch p) := by
  have hup := noneHigher hc hL.le htop.2
  rw [← higher_eq hc hL hp]
  cases h : higher t L p <;>
    simp only [search, hL, p.isLt, hup, Fin.eta, hp, if_true, dif_pos, if_false,
      not_true_eq_false, h]

/-- The search stops at a peak. -/
theorem search_peak (hp : Peak t L p) : search K t ⟨L, p⟩ = .done (.dispatch p) := by
  rw [search_runnable hc hL htop hp.1]
  have hnone : (slots.find? fun p1 =>
      decide (t.RunnableAt L p1 ∧ (t.proc p1).priority > (t.proc p).priority)) = none := by
    rw [find_slots_eq_none]
    intro q
    rw [decide_eq_false_iff_not]
    rintro ⟨hq, hgt⟩
    exact absurd (hp.2 q hq) (not_le.mpr hgt)
  rw [hnone]

/-- The search passes a process that only later ones exceed. -/
theorem search_pass (hp : t.RunnableAt L p) (hnp : ¬ Peak t L p)
    (hle : ∀ q < p, t.RunnableAt L q → (t.proc q).priority ≤ (t.proc p).priority) :
    search K t ⟨L, p⟩ = .next ⟨L, p + 1⟩ := by
  rw [search_runnable hc hL htop hp]
  obtain ⟨q, hq, hgt⟩ : ∃ q, t.RunnableAt L q ∧ (t.proc q).priority > (t.proc p).priority := by
    by_contra hno
    push Not at hno
    exact hnp ⟨hp, hno⟩
  cases hf : slots.find? fun p1 =>
      decide (t.RunnableAt L p1 ∧ (t.proc p1).priority > (t.proc p).priority) with
  | none =>
    have := find_slots_eq_none.mp hf q
    simp [hq, hgt] at this
  | some p1 =>
    have hp1 := (find_slots_eq_some.mp hf).1
    simp only [decide_eq_true_eq] at hp1
    have hnlt : ¬ p1 < p := fun hlt => absurd (hle p1 hlt hp1.1) (not_le.mpr hp1.2)
    simp only [hnlt, if_false]

/-- The search goes back to the first slot at a process that an earlier one exceeds. -/
theorem search_restart (hp : t.RunnableAt L p) (hq : t.RunnableAt L q) (hqp : q < p)
    (hgt : (t.proc q).priority > (t.proc p).priority) :
    search K t ⟨L, p⟩ = .next ⟨L, 0⟩ := by
  rw [search_runnable hc hL htop hp]
  cases hf : slots.find? fun p1 =>
      decide (t.RunnableAt L p1 ∧ (t.proc p1).priority > (t.proc p).priority) with
  | none =>
    have := find_slots_eq_none.mp hf q
    simp [hq, hgt] at this
  | some p1 =>
    have hlt : p1 < p := by
      by_contra hge
      have := (find_slots_eq_some.mp hf).2 q (hqp.trans_le (not_lt.mp hge))
      simp [hq, hgt] at this
    simp only [hlt, if_true]

/-- Before the first peak of an ascending level, the search only moves forward. -/
theorem search_forward (hasc : ∀ q < p, t.RunnableAt L q → ∀ r < q, t.RunnableAt L r →
      (t.proc r).priority ≤ (t.proc q).priority)
    (hpeak : ∀ q < p, ¬ Peak t L q) (hq : q < p) :
    search K t ⟨L, q⟩ = .next ⟨L, q + 1⟩ := by
  by_cases hr : t.RunnableAt L q
  · exact search_pass hc hL htop hr (hpeak q hq) (hasc q hq hr)
  · exact search_skip_idle hc hL htop hr

theorem yields_forward (hasc : ∀ q < p, t.RunnableAt L q → ∀ r < q, t.RunnableAt L r →
      (t.proc r).priority ≤ (t.proc q).priority) (hpeak : ∀ q < p, ¬ Peak t L q) :
    Yields (search K t) ⟨L, 0⟩ b ↔ Yields (search K t) ⟨L, p⟩ b :=
  yields_chain (g := Pos.mk L) (Nat.zero_le _) fun k _ hk =>
    search_forward hc hL htop hasc hpeak (q := ⟨k, hk.trans p.isLt⟩) hk

end Top

/-- What the search has checked of a process that it dispatches. -/
theorem search_dispatch (h : search K t pos = .done (.dispatch p)) :
    pos.level < K ∧ t.RunnableAt pos.level p ∧ (∀ i < pos.level, t.numproc i ≤ 0) ∧
      higher t pos.level p = none := by
  unfold search at h
  split at h
  · next hl =>
    split at h
    · simp only at h
      split at h
      · cases h
      next hup =>
      split at h
      · cases h
      next hrun =>
      split at h
      · split at h <;> cases h
      next hhi =>
      cases h
      refine ⟨hl, not_not.mp hrun, fun i hi => ?_, hhi⟩
      by_contra hpos
      exact hup ⟨i, List.mem_range.mpr hi, not_le.mp hpos⟩
    · split at h <;> cases h
  · cases h

/-! ## Whole searches -/

theorem exists_least {P : Slot → Prop} (h : ∃ p, P p) : ∃ p, P p ∧ ∀ q < p, ¬ P q := by
  obtain ⟨p, hp, hmin⟩ := (wellFounded_lt (α := Slot)).has_min {p | P p} h
  exact ⟨p, hp, fun q hq hPq => hmin q hPq hq⟩

theorem exists_peak (h : ∃ p, t.RunnableAt L p) : ∃ p, Peak t L p := by
  obtain ⟨p, hp⟩ := h
  obtain ⟨m, hm, hmax⟩ := Finset.exists_max_image
    (Finset.univ.filter fun p => t.RunnableAt L p) (fun p => (t.proc p).priority)
    ⟨p, by simpa using hp⟩
  simp only [Finset.mem_filter, Finset.mem_univ, true_and] at hm hmax
  exact ⟨m, hm, hmax⟩

/-- A level without runnable processes is passed. -/
theorem yields_empty_level (hc : Counted K t) (hL : L < K)
    (h : ∀ l < L + 1, ∀ p, ¬ t.RunnableAt l p) :
    Yields (search K t) ⟨L, 0⟩ b ↔ Yields (search K t) ⟨L + 1, 0⟩ b := by
  rw [yields_chain (g := Pos.mk L) (Nat.zero_le NPROC) fun k _ hk =>
    search_empty_level hc hL h k hk]
  exact yields_next (search_end_empty hc hL (h L (Nat.lt_succ_self L)))

/-- The levels before the lowest one that has a runnable process are passed. -/
theorem yields_top (hc : Counted K t) (hL : L ≤ K) (h : ∀ l < L, ∀ p, ¬ t.RunnableAt l p) :
    Yields (search K t) schbegin b ↔ Yields (search K t) ⟨L, 0⟩ b := by
  induction L with
  | zero => rfl
  | succ L ih =>
    rw [ih (by omega) fun l hl => h l (by omega)]
    exact yields_empty_level hc hL h

/-- An ascending level leads to its first peak. -/
theorem yields_of_ascending (hc : Counted K t) (hL : L < K) (htop : TopLevel t L)
    (hasc : Ascending t L) : ∃ p, Yields (search K t) ⟨L, 0⟩ (.dispatch p) := by
  obtain ⟨m, hm, hleast⟩ := exists_least (exists_peak htop.1)
  refine ⟨m, (yields_forward hc hL htop (p := m) ?_ hleast).mpr ?_⟩
  · intro q hq hrun
    exact hasc q hrun fun r hr => hleast r (hr.trans_lt hq)
  · exact (yields_done (search_peak hc hL htop hm)).mpr rfl

/-- A level that is not ascending is scanned forever: the search comes back to the first slot
at its first process that an earlier one exceeds. -/
theorem not_yields_of_not_ascending (hc : Counted K t) (hL : L < K) (htop : TopLevel t L)
    (hasc : ¬ Ascending t L) {b : Stop} : ¬ Yields (search K t) ⟨L, 0⟩ b := by
  have hbad : ∃ p, t.RunnableAt L p ∧ (∀ q ≤ p, ¬ Peak t L q) ∧
      ∃ q < p, t.RunnableAt L q ∧ (t.proc q).priority > (t.proc p).priority := by
    unfold Ascending at hasc
    push Not at hasc
    obtain ⟨p, hp, hpk, q, hqp, hq, hgt⟩ := hasc
    exact ⟨p, hp, hpk, q, hqp, hq, hgt⟩
  obtain ⟨p, ⟨hp, hpk, q, hqp, hq, hgt⟩, hleast⟩ := exists_least hbad
  -- the positions up to `p` are closed under the search
  refine not_yields_of_closed (S := fun pos => pos.level = L ∧ pos.idx ≤ p) ?_ ⟨rfl, Nat.zero_le _⟩
  rintro ⟨l, i⟩ ⟨hl, hi⟩
  obtain rfl : l = L := hl
  rcases Nat.lt_or_eq_of_le hi with hlt | heq
  · refine ⟨⟨l, i + 1⟩, ⟨rfl, hlt⟩, search_forward hc hL htop (p := p) ?_
      (fun r hr => hpk r hr.le) (q := ⟨i, hlt.trans p.isLt⟩) hlt⟩
    intro r hr hrun s hs hsrun
    by_contra hgt'
    exact hleast r hr ⟨hrun, fun u hu => hpk u (hu.trans hr.le), s, hs, hsrun, not_le.mp hgt'⟩
  · obtain rfl : i = p := heq
    exact ⟨⟨l, 0⟩, ⟨rfl, Nat.zero_le _⟩, search_restart hc hL htop hp hq hqp hgt⟩

/-- The search ends in a dispatch exactly when the lowest level with a runnable process is
ascending. -/
theorem dispatches_iff (hc : Counted K t) :
    Dispatches K t ↔ ∃ L < K, TopLevel t L ∧ Ascending t L := by
  constructor
  · rintro ⟨p, hp⟩
    by_cases hrun : ∃ l < K, ∃ q, t.RunnableAt l q
    · have hmin : ∀ l < Nat.find hrun, ∀ q, ¬ t.RunnableAt l q := fun l hl q hq =>
        Nat.find_min hrun hl ⟨hl.trans (Nat.find_spec hrun).1, q, hq⟩
      obtain ⟨hL, hex⟩ := Nat.find_spec hrun
      refine ⟨_, hL, ⟨hex, hmin⟩, ?_⟩
      by_contra hasc
      exact not_yields_of_not_ascending hc hL ⟨hex, hmin⟩ hasc ((yields_top hc hL.le hmin).mp hp)
    · push Not at hrun
      have hrel : search K t ⟨K, 0⟩ = .done .release := by simp [search]
      rw [yields_top hc le_rfl hrun, yields_done hrel] at hp
      cases hp
  · rintro ⟨L, hL, htop, hasc⟩
    obtain ⟨p, hp⟩ := yields_of_ascending hc hL htop hasc
    exact ⟨p, (yields_top hc hL.le htop.2).mpr hp⟩

instance (K : Nat) (t : Ptable) : Decidable (Counted K t) :=
  inferInstanceAs (Decidable (∀ l < K, t.numproc l = runnableCount t l))

instance (t : Ptable) (L : Nat) (p : Slot) : Decidable (Peak t L p) :=
  inferInstanceAs (Decidable (_ ∧ _))

instance (t : Ptable) (L : Nat) : Decidable (Ascending t L) :=
  inferInstanceAs (Decidable (∀ _, _ → _ → _))

/-- A table with runnable processes of level 0 and the given priorities in the first slots. -/
def levelZero (prios : List Int) : Ptable :=
  { pinit with
    proc := fun p => match prios[p.val]? with
      | some priority => { Proc.zero with state := .RUNNABLE, pid := p + 1, priority }
      | none => .zero
    numproc := fun l => if l = 0 then prios.length else 0 }

theorem dispatches_levelZero :
    Counted 3 (levelZero [0, 1, 2]) ∧ Dispatches 3 (levelZero [0, 1, 2]) := by
  have hc : Counted 3 (levelZero [0, 1, 2]) := by decide +kernel
  exact ⟨hc, (dispatches_iff hc).mpr ⟨0, by decide, ⟨⟨0, by decide⟩, by simp⟩, by decide +kernel⟩⟩

/-- With priorities 1, 0, 2 in slot order, the search never ends: the second process sends it
back to the first slot, and the first is passed because the third exceeds it. -/
theorem levelZero_not_dispatches : Counted 3 (levelZero [1, 0, 2]) ∧
    (∃ p, ((levelZero [1, 0, 2]).proc p).state = .RUNNABLE) ∧
    ¬ Dispatches 3 (levelZero [1, 0, 2]) := by
  have hc : Counted 3 (levelZero [1, 0, 2]) := by decide +kernel
  refine ⟨hc, ⟨0, by decide⟩, ?_⟩
  rintro ⟨p, hp⟩
  exact not_yields_of_not_ascending hc (L := 0) (by decide) ⟨⟨0, by decide⟩, by simp⟩
    (by decide +kernel) hp

end Xv6.Mlfq
