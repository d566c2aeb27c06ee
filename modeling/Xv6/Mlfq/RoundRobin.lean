import Xv6.Mlfq.Counters

/-! # Round robin within a level

A scheduler goes on after the slot that it has dispatched last, so a process of the same level and
priority has its turn before that slot is dispatched again, as long as the scan is not begun anew in
between. The scan is begun anew by `goto schbegin` when a process of a higher level wakes up, and by
`goto schsearch` at a process that an earlier one exceeds in priority, and it passes the waiting
process when a later one exceeds it: then the slot may be dispatched twice while the other one
waits (`level_not_round_robin`). -/

namespace Xv6.Mlfq

open Function Loop

variable {K n l i : Nat} {t : Ptable} {p q r : Slot} {c : Fin n} {m m₀ m₁ m₂ : Machine n}
  {pos : Pos}

/-! ## One iteration -/

/-- What an iteration at the slot `i` of level `l` does, and for what reason. -/
inductive Moved (t : Ptable) (l i : Nat) : Iter Pos Stop → Prop
  | higherLevel {l' : Nat} : l' < l → t.numproc l' > 0 → Moved t l i (.next schbegin)
  | pass : (∀ h : i < NPROC, ¬ t.RunnableAt l ⟨i, h⟩) → i < NPROC → Moved t l i (.next ⟨l, i + 1⟩)
  | back {h : i < NPROC} {p1 : Slot} : t.RunnableAt l ⟨i, h⟩ → t.RunnableAt l p1 →
    (t.proc p1).priority > (t.proc ⟨i, h⟩).priority → p1 < ⟨i, h⟩ → Moved t l i (.next ⟨l, 0⟩)
  | exceeded {h : i < NPROC} {p1 : Slot} : t.RunnableAt l p1 →
    (t.proc p1).priority > (t.proc ⟨i, h⟩).priority → Moved t l i (.next ⟨l, i + 1⟩)
  | stop {h : i < NPROC} : t.RunnableAt l ⟨i, h⟩ → Moved t l i (.done (.dispatch ⟨i, h⟩))
  | again : ¬ i < NPROC → t.numproc l > 0 → Moved t l i (.next ⟨l, 0⟩)
  | down : ¬ i < NPROC → ¬ t.numproc l > 0 → Moved t l i (.next ⟨l + 1, 0⟩)

theorem higher_some (h : higher t l p = some p1) :
    t.RunnableAt l p1 ∧ (t.proc p1).priority > (t.proc p).priority := by
  unfold higher at h
  split at h
  · simpa using List.find?_some h
  · cases h

theorem search_moved (hl : l < K) : Moved t l i (search K t ⟨l, i⟩) := by
  unfold search
  rw [if_pos hl]
  split
  · next h =>
    simp only
    split
    · next hup =>
      obtain ⟨l', hl', hpos⟩ := hup
      exact .higherLevel (List.mem_range.mp hl') hpos
    split
    · next hrun => exact .pass (fun _ => hrun) h
    next hrun =>
    have hrun := not_not.mp hrun
    split
    · next p1 hp1 =>
      obtain ⟨hr1, hgt⟩ := higher_some hp1
      split
      · next hlt => exact .back hrun hr1 hgt hlt
      · exact .exceeded hr1 hgt
    · exact .stop hrun
  · next h =>
    split
    · next hpos => exact .again h hpos
    · next hpos => exact .down h hpos

/-! ## A waiting process -/

/-- Nothing disturbs the scan of level `l` from `p` to `q`: no runnable process of the level has a
greater priority than `p`; and, if `q` is behind `p` in the table, no process of a higher level is
runnable, and no runnable process between the two has an earlier one that exceeds it. -/
structure Undisturbed (t : Ptable) (l : Nat) (p q : Slot) : Prop where
  priority : ∀ r, t.RunnableAt l r → (t.proc r).priority ≤ (t.proc p).priority
  level : p < q → ∀ l' < l, ∀ r, ¬ t.RunnableAt l' r
  between : p < q → ∀ i, p < i → i < q → t.RunnableAt l i →
    ∀ r < i, t.RunnableAt l r → (t.proc r).priority ≤ (t.proc i).priority

/-- `q` is a runnable process of level `l`, with the priority of `p`. -/
def Waits (t : Ptable) (l : Nat) (p q : Slot) : Prop :=
  t.RunnableAt l q ∧ (t.proc q).priority = (t.proc p).priority

/-- The scan comes to `q` at level `l` before it comes to `p` there. -/
def Pos.Ahead (l : Nat) (p q : Slot) (pos : Pos) : Prop :=
  pos.level = l ∧ Loop.Ahead p q pos.idx ∨ pos.level < l ∧ q < p

theorem Waits.le (hw : Waits t l p q) (hu : Undisturbed t l p q) (hr : t.RunnableAt l r) :
    (t.proc r).priority ≤ (t.proc q).priority := by
  rw [hw.2]
  exact hu.priority r hr

theorem numproc_pos (hc : Counted K t) (hl : l < K) (hq : t.RunnableAt l q) : t.numproc l > 0 := by
  rw [hc l hl]
  exact runnableCount_pos hq

/-- A process of a higher level is runnable only if `q` is before `p`. -/
theorem Undisturbed.lt_of_numproc (hu : Undisturbed t l p q) (hc : Counted K t) (hl : l < K)
    (hl' : l' < l) (hpos : t.numproc l' > 0) (hne : q ≠ p) : q < p := by
  by_contra hlt
  have hpq : p < q := lt_of_le_of_ne (not_lt.mp hlt) hne.symm
  rw [hc l' (hl'.trans hl), runnableCount_eq_zero (hu.level hpq l' hl')] at hpos
  exact absurd hpos (lt_irrefl 0)

/-- An iteration at level `l` that goes on passes neither `p` nor `q`. -/
theorem search_ahead (hc : Counted K t) (hl : l < K) (hw : Waits t l p q)
    (hu : Undisturbed t l p q) (hne : q ≠ p) (ha : Loop.Ahead p q i)
    (h : Moved t l i (.next pos')) : pos'.Ahead l p q := by
  cases h with
  | higherLevel hl' hpos =>
    exact .inr ⟨Nat.zero_lt_of_lt hl', hu.lt_of_numproc hc hl hl' hpos hne⟩
  | pass hrun _ =>
    left
    refine ⟨rfl, ha.succ ?_⟩
    rintro rfl
    exact hrun q.isLt hw.1
  | @back h p1 hrun hr1 hgt hlt =>
    -- the scan of the slots between `p` and `q` does not go back
    have hqp : q < p := by
      by_contra hqp
      have hpq : p < q := lt_of_le_of_ne (not_lt.mp hqp) hne.symm
      rcases ha with ⟨hpi, hiq⟩ | ⟨-, hqp'⟩ | ⟨hqp', -⟩
      · rcases hiq.lt_or_eq with hiq | rfl
        · exact absurd (hu.between hpq ⟨i, h⟩ hpi hiq hrun p1 hlt hr1) (not_le.mpr hgt)
        · exact absurd (hw.le hu hr1) (not_le.mpr hgt)
      · exact hqp hqp'
      · exact hqp hqp'
    exact .inl ⟨rfl, .zero hqp⟩
  | exceeded hr1 hgt =>
    left
    refine ⟨rfl, ha.succ ?_⟩
    rintro rfl
    exact absurd (hw.le hu hr1) (not_le.mpr hgt)
  | again hi _ => exact .inl ⟨rfl, .zero (ha.lt_of_le (not_lt.mp hi) q.isLt)⟩
  | down hi hpos => exact absurd (numproc_pos hc hl hw.1) hpos

/-- An iteration at a higher level comes down to level `l` at its first slot. -/
theorem search_higher (hlt : l' < l) (hqp : q < p) (h : Moved t l' i (.next pos')) :
    pos'.Ahead l p q := by
  cases h with
  | higherLevel hl' _ => exact .inr ⟨Nat.zero_lt_of_lt hlt, hqp⟩
  | pass _ _ | back _ _ _ _ | exceeded _ _ | again _ _ => exact .inr ⟨hlt, hqp⟩
  | down _ _ =>
    rcases Nat.lt_or_eq_of_le (Nat.succ_le_of_lt hlt) with hlt | heq
    · exact .inr ⟨hlt, hqp⟩
    · exact .inl ⟨heq, .zero hqp⟩

theorem ahead_next (hc : Counted K t) (hl : l < K) (hw : Waits t l p q) (hu : Undisturbed t l p q)
    (hne : q ≠ p) (ha : pos.Ahead l p q) (h : search K t pos = .next pos') :
    pos'.Ahead l p q := by
  obtain ⟨l', i⟩ := pos
  rcases ha with ⟨rfl, ha⟩ | ⟨hlt, hqp⟩
  · have hm : Moved t l' i (search K t ⟨l', i⟩) := search_moved hl
    rw [h] at hm
    exact search_ahead hc hl hw hu hne ha hm
  · have hlt : l' < l := hlt
    have hm : Moved t l' i (search K t ⟨l', i⟩) := search_moved (hlt.trans hl)
    rw [h] at hm
    exact search_higher hlt hqp hm

theorem dispatch_idx (h : search K t pos = .done (.dispatch r)) : pos.idx = r := by
  obtain ⟨l', i⟩ := pos
  have hm : Moved t l' i (search K t ⟨l', i⟩) := search_moved (search_dispatch h).1
  rw [h] at hm
  cases hm
  rfl

/-- The scan goes on after a dispatch of another process. -/
theorem ahead_dispatch (ha : pos.Ahead l p q) (h : search K t pos = .done (.dispatch r))
    (hr : r ≠ q) : Pos.Ahead l p q ⟨pos.level, pos.idx + 1⟩ := by
  rcases ha with ⟨hl, ha⟩ | hlt
  · left
    refine ⟨hl, ha.succ ?_⟩
    rw [dispatch_idx h]
    exact Fin.val_ne_of_ne hr
  · exact .inr hlt

theorem not_release (hl : l < K) (ha : pos.Ahead l p q) : search K t pos ≠ .done .release := by
  obtain ⟨l', i⟩ := pos
  intro h
  have hlt : l' < K := by
    rcases ha with ⟨rfl, -⟩ | ⟨hlt, -⟩
    · exact hl
    · exact lt_trans hlt hl
  have hm : Moved t l' i (search K t ⟨l', i⟩) := search_moved hlt
  rw [h] at hm
  cases hm

/-! ## Whole runs -/

/-- The scheduler of `c` holds the lock, and the next iteration of its search dispatches `p`. -/
def Machine.Dispatches (K : Nat) (m : Machine n) (c : Fin n) (p : Slot) : Prop :=
  m.holder = some c ∧ search K m.tab (m.cpu c).pos = .done (.dispatch p)

/-- The scheduler of `c` is in its loops, or its process runs, and the scan comes to `q` first. -/
structure Machine.Ahead (m : Machine n) (c : Fin n) (l : Nat) (p q : Slot) : Prop where
  busy : m.holder ≠ some c → (m.cpu c).proc ≠ none
  pos : (m.cpu c).pos.Ahead l p q

/-- The other sections leave a CPU as it is, or leave the lock to its scheduler, which is where it
was; only a scheduler that is idle begins its loops anew. -/
theorem locked_cpu (h : m.locked K a = some m') (c : Fin n) :
    m'.cpu c = m.cpu c ∨ (m.cpu c).proc = none ∨
      m'.holder = some c ∧ (m'.cpu c).pos = (m.cpu c).pos := by
  have hsched : ∀ c' u, (m.sched c' u).cpu c = m.cpu c ∨ (m.cpu c).proc = none ∨
      (m.sched c' u).holder = some c ∧ ((m.sched c' u).cpu c).pos = (m.cpu c).pos := by
    intro c' u
    by_cases hc : c = c'
    · subst hc
      exact .inr (.inr ⟨rfl, by simp [Machine.sched]⟩)
    · exact .inl (update_of_ne hc ..)
  cases Machine.Step.of_locked h with
  | @acquire c' hc' =>
    by_cases hc : c = c'
    · subst hc
      exact .inr (.inl hc')
    · exact .inl (update_of_ne hc ..)
  | exit | waitSleeps | sleep | yield => exact hsched _ _
  | _ => exact .inl rfl

/-- The search of another CPU leaves a CPU as it is. -/
theorem searchStep_cpu (h : c ≠ c') : (m.searchStep K c').cpu c = m.cpu c := by
  unfold Machine.searchStep
  split
  · exact update_of_ne h ..
  · exact update_of_ne h ..
  · rfl

theorem searchStep_ahead (hc : Counted K m.tab) (hl : l < K) (hw : Waits m.tab l p q)
    (hw' : Waits (m.searchStep K c).tab l p q) (hu : Undisturbed m.tab l p q) (hne : q ≠ p)
    (hh : m.holder = some c) (ha : m.Ahead c l p q) : (m.searchStep K c).Ahead c l p q := by
  unfold Machine.searchStep at hw' ⊢
  split at hw'
  · next pos' hs =>
    refine ⟨fun h => absurd hh h, ?_⟩
    simp only [update_self]
    exact ahead_next hc hl hw hu hne ha.pos hs
  · next r hs =>
    have hr : r ≠ q := by
      rintro rfl
      have hrun := hw'.1.1
      simp [Machine.swtch, dispatch] at hrun
    refine ⟨fun _ => ?_, ?_⟩
    · simp [Machine.swtch]
    · simp only [Machine.swtch, update_self]
      exact ahead_dispatch ha.pos hs hr
  · next hs => exact absurd hs (not_release hl ha.pos)

/-- A step keeps the scheduler of `c` ahead of `p` as long as `q` waits and nothing disturbs the
scan. -/
theorem next_ahead (hc : Counted K m.tab) (hl : l < K) (hw : Waits m.tab l p q)
    (hw' : Waits m'.tab l p q) (hu : m.holder = some c → Undisturbed m.tab l p q) (hne : q ≠ p)
    (ha : m.Ahead c l p q) (h : m.next K a = some m') : m'.Ahead c l p q := by
  unfold Machine.next at h
  split at h
  · next c' =>
    simp only [Option.ite_none_right_eq_some, Option.some.injEq] at h
    obtain ⟨hh, rfl⟩ := h
    by_cases hcc : c = c'
    · subst hcc
      exact searchStep_ahead hc hl hw hw' (hu hh) hne hh ha
    · have hbusy := ha.busy (by rw [hh]; exact fun e => hcc (Option.some.inj e).symm)
      have hcpu : (m.searchStep K c').cpu c = m.cpu c := searchStep_cpu hcc
      exact ⟨fun _ => hcpu ▸ hbusy, hcpu ▸ ha.pos⟩
  · simp only [Option.ite_none_right_eq_some] at h
    obtain ⟨hh, h⟩ := h
    have hbusy := ha.busy (by rw [hh]; nofun)
    rcases locked_cpu h c with hcpu | hidle | ⟨hhold, hpos⟩
    · exact ⟨fun _ => hcpu ▸ hbusy, hcpu ▸ ha.pos⟩
    · exact absurd hidle hbusy
    · exact ⟨fun h => absurd hhold h, hpos ▸ ha.pos⟩

/-- A dispatch leaves the scheduler ahead of the slot at the level of the process. -/
theorem ahead_of_dispatches (hp : m₀.Dispatches K c p) (h₁ : m₀.next K (.search c) = some m₁)
    (hne : q ≠ p) : m₁.Ahead c (m₀.tab.proc p).level p q := by
  obtain ⟨hh, hd⟩ := hp
  simp only [Machine.next, hh, if_true, Machine.searchStep, hd, Option.some.injEq] at h₁
  subst h₁
  refine ⟨fun _ => by simp [Machine.swtch], .inl ?_⟩
  simp only [Machine.swtch, update_self, dispatch_idx hd]
  exact ⟨(search_dispatch hd).2.1.2.symm, .after (Fin.val_ne_of_ne hne)⟩

/-- The next dispatch is not that of `p` at level `l`. -/
theorem not_dispatches (ha : m.Ahead c l p q) (hl : (m.tab.proc p).level = l) :
    ¬ m.Dispatches K c p := by
  rintro ⟨-, hd⟩
  have hlevel := (search_dispatch hd).2.1.2
  rcases ha.pos with ⟨-, hidx⟩ | ⟨hlt, -⟩
  · exact hidx.ne (dispatch_idx hd)
  · omega

/-- On every run, between two dispatches of a process by a scheduler at the same level, no other
process of that level with the same priority is runnable in every state, if nothing disturbs the
scan whenever the scheduler has the lock. -/
theorem level_round_robin {as : List (Act n)} (hK : 1 ≤ K) (h : (kernel K n).Reached m₀)
    (hp : m₀.Dispatches K c p) (h₁ : (kernel K n).next m₀ (.search c) = some m₁)
    (h₂ : (kernel K n).run m₁ as = some m₂) (hp₂ : m₂.Dispatches K c p)
    (hl : (m₀.tab.proc p).level = l) (hl₂ : (m₂.tab.proc p).level = l) (hne : q ≠ p)
    (hu : (kernel K n).Throughout (fun m => m.holder = some c → Undisturbed m.tab l p q) m₁ as) :
    ¬ (kernel K n).Throughout (fun m => Waits m.tab l p q) m₁ as := by
  intro hw
  have hlK : l < K := by
    obtain ⟨-, hd⟩ := hp
    have hd := search_dispatch hd
    rw [← hl, hd.2.1.2]
    exact hd.1
  have hahead : m₁.Ahead c l p q := hl ▸ ahead_of_dispatches hp h₁ hne
  have hkeeps := (hw.and hu).keeps (Q := fun m => (kernel K n).Reached m ∧ m.Ahead c l p q)
    (fun hq hq' hm hn => ⟨.step hm.1 trivial hn,
      next_ahead ((machineInv hK).of_reached hm.1).good.counted hlK hq.1 hq'.1 hq.2 hne hm.2 hn⟩)
    h₂ ⟨.step h trivial h₁, hahead⟩
  exact not_dispatches hkeeps.1.2 hl₂ hp₂

instance : Decidable (Undisturbed t l p q) :=
  decidable_of_iff ((∀ r, t.RunnableAt l r → (t.proc r).priority ≤ (t.proc p).priority) ∧
    (p < q → ∀ l' < l, ∀ r, ¬ t.RunnableAt l' r) ∧
    (p < q → ∀ i, p < i → i < q → t.RunnableAt l i → ∀ r < i, t.RunnableAt l r →
      (t.proc r).priority ≤ (t.proc i).priority))
    ⟨fun h => ⟨h.1, h.2.1, h.2.2⟩, fun h => ⟨h.priority, h.level, h.between⟩⟩

instance : Decidable (Waits t l p q) := inferInstanceAs (Decidable (_ ∧ _))

instance : Decidable (m.Dispatches K c p) := inferInstanceAs (Decidable (_ ∧ _))

/-- init makes two processes and sleeps, each of them uses up its time at level 0, and the scheduler
comes to slot 1 at level 1. -/
def twoAtLevelOne : List (Act 1) :=
  [.userinit, .acquire 0, .search 0, .allocproc 0, .forkDone 0 1, .allocproc 0, .forkDone 0 2,
    .sleep 0 (some .ticks), .search 0, .degrade 0, .degrade 0, .yield 0, .search 0, .degrade 0,
    .degrade 0, .yield 0] ++ List.replicate 63 (.search 0)

/-- Process 1 yields, process 2 runs and yields, and the scan goes around the table. -/
def bothYield : List (Act 1) :=
  [.yield 0, .search 0, .yield 0] ++ List.replicate 63 (.search 0)

theorem level_round_robin_two : ∃ m₀ m₁ m₂ : Machine 1, (kernel 3 1).Reached m₀ ∧
    m₀.Dispatches 3 0 1 ∧ (kernel 3 1).next m₀ (.search 0) = some m₁ ∧
    (kernel 3 1).run m₁ bothYield = some m₂ ∧ m₂.Dispatches 3 0 1 ∧ Waits m₁.tab 1 1 2 ∧
      ¬ (kernel 3 1).Throughout (fun m => Waits m.tab 1 1 2) m₁ bothYield := by
  obtain ⟨m₀, hr, h⟩ := (kernel 3 1).exists_reached_of_run (s := .boot) twoAtLevelOne
    (fun m₀ => decide (m₀.Dispatches 3 0 1 ∧ (m₀.tab.proc 1).level = 1 ∧
      ∃ m₁ ∈ (kernel 3 1).next m₀ (.search 0), Waits m₁.tab 1 1 2 ∧
        (kernel 3 1).Throughout (fun m => m.holder = some 0 → Undisturbed m.tab 1 1 2) m₁
          bothYield ∧
        ∃ m₂ ∈ (kernel 3 1).run m₁ bothYield, m₂.Dispatches 3 0 1 ∧ (m₂.tab.proc 1).level = 1))
    rfl (by decide +kernel)
  obtain ⟨hp, hl, m₁, h₁, hw, hu, m₂, h₂, hp₂, hl₂⟩ := of_decide_eq_true h
  exact ⟨m₀, m₁, m₂, hr, hp, h₁, h₂, hp₂, hw,
    level_round_robin (by decide) hr hp h₁ h₂ hp₂ hl hl₂ (by decide) hu⟩

/-- init wakes up while process 1 runs, runs before process 2 and sleeps again. -/
def initBetween : List (Act 1) :=
  [.wakeup (some .ticks), .yield 0, .search 0, .search 0, .sleep 0 (some .ticks)] ++
    List.replicate 65 (.search 0)

/-- Process 1 is dispatched twice in a row at level 1 while process 2, of the same level and
priority, is runnable all the time. -/
theorem level_not_round_robin : ∃ m₀ m₁ m₂ : Machine 1, (kernel 3 1).Reached m₀ ∧
    m₀.Dispatches 3 0 1 ∧ (m₀.tab.proc 1).level = 1 ∧
    (kernel 3 1).next m₀ (.search 0) = some m₁ ∧ (kernel 3 1).run m₁ initBetween = some m₂ ∧
    (kernel 3 1).Along (fun m _ => ¬ m.Dispatches 3 0 1) m₁ initBetween ∧
    m₂.Dispatches 3 0 1 ∧ (m₂.tab.proc 1).level = 1 ∧
      (kernel 3 1).Throughout (fun m => Waits m.tab 1 1 2) m₁ initBetween := by
  obtain ⟨m₀, hr, h⟩ := (kernel 3 1).exists_reached_of_run (s := .boot) twoAtLevelOne
    (fun m₀ => decide (m₀.Dispatches 3 0 1 ∧ (m₀.tab.proc 1).level = 1 ∧
      ∃ m₁ ∈ (kernel 3 1).next m₀ (.search 0),
        (kernel 3 1).Along (fun m _ => ¬ m.Dispatches 3 0 1) m₁ initBetween ∧
        (kernel 3 1).Throughout (fun m => Waits m.tab 1 1 2) m₁ initBetween ∧
        ∃ m₂ ∈ (kernel 3 1).run m₁ initBetween, m₂.Dispatches 3 0 1 ∧ (m₂.tab.proc 1).level = 1))
    rfl (by decide +kernel)
  obtain ⟨hp, hl, m₁, h₁, hc, hw, m₂, h₂, hp₂, hl₂⟩ := of_decide_eq_true h
  exact ⟨m₀, m₁, m₂, hr, hp, hl, h₁, h₂, hc, hp₂, hl₂, hw⟩

end Xv6.Mlfq
