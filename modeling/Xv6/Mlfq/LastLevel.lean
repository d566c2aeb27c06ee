import Xv6.Mlfq.Quantum

/-! # The last level

A process that has used up its time at the last level is marked with `extime = -1` and, as `degrade`
reports, should not be scheduled until the next boost. The scheduler does not look at the mark: it
passes over such a process only where another one is better: at a higher level, or of a higher
priority (`expired_not_dispatched`). -/

namespace Xv6.Mlfq

variable {K n : Nat} {m : Machine n} {h : History} {p : Slot} {t : Ptable}

/-- For every process with the mark that could run at the last level there is a better one: it can
run, and it is at a higher level, or at the last level with a higher priority. -/
def Outranked (K : Nat) (t : Ptable) : Prop :=
  ∀ p, t.RunnableAt (K - 1) p → (t.proc p).extime = -1 →
    ∃ q, (t.proc q).state = .RUNNABLE ∧ ((t.proc q).level < K - 1 ∨
      (t.proc q).level = K - 1 ∧ (t.proc p).priority < (t.proc q).priority)

instance : Decidable (Outranked K t) := inferInstanceAs (Decidable (∀ _, _ → _ → _))

/-- A step that gives `ptable.lock` to a scheduler finds the marked processes outranked. Such a step
is `acquire`, or a process that calls `sched`. -/
def Passing (K : Nat) (x : Machine n × History) (a : Act n) : Prop :=
  ∀ m' ∈ x.1.next K a, x.1.holder = none → m'.holder ≠ none → Outranked K m'.tab

instance (x : Machine n × History) (a : Act n) : Decidable (Passing K x a) :=
  inferInstanceAs (Decidable (∀ _ ∈ _, _ → _ → _))

/-- A scheduler that holds the lock has found the marked processes outranked. -/
def Searching (K : Nat) (m : Machine n) : Prop := m.holder ≠ none → Outranked K m.tab

/-- No other section runs during a search, and an iteration leaves the table as it is until it
dispatches. -/
theorem searching_next (hm : Searching K m) (ha : Passing K (m, h) a)
    (hn : m.next K a = some m') : Searching K m' := by
  intro hh
  cases hold : m.holder with
  | none => exact ha m' hn hold hh
  | some c =>
    have ho := hm (by simp [hold])
    cases a with
    | search c' =>
      simp only [Machine.next, Option.ite_none_right_eq_some, Option.some.injEq] at hn
      obtain ⟨-, rfl⟩ := hn
      revert hh
      unfold Machine.searchStep
      split
      · exact fun _ => ho
      · exact fun hh => absurd rfl hh
      · exact fun hh => absurd rfl hh
    | _ => simp [Machine.next, hold] at hn

/-- A search that finds the marked processes outranked dispatches none of them. -/
theorem Outranked.not_marked (ho : Outranked K t) (hg : Good K t)
    (hd : search K t pos = .done (.dispatch p)) :
    ¬ ((t.proc p).extime = -1 ∧ (t.proc p).level = K - 1) := by
  rintro ⟨he, hl⟩
  obtain ⟨hp, hbest⟩ := hg.dispatch_best hd
  obtain ⟨q, hq, hlt | ⟨hql, hprio⟩⟩ := ho p ⟨hp, hl⟩ he
  · have := (hbest q hq).1
    omega
  · exact absurd ((hbest q hq).2 (hql.trans hl.symm)) (not_le.mpr hprio)

/-- A process whose time at the last level is used up has the mark, and is not the head of its
level: no tick can be charged to it before it is dispatched again. -/
structure Marked (K : Nat) (m : Machine n) (p : Slot) : Prop where
  extime : (m.tab.proc p).extime = -1
  level : (m.tab.proc p).level = K - 1
  head : m.tab.heads (K - 1) ≠ some p

theorem marked_next (hg : Good K m.tab) (hb : Bounded K (m.tab.proc p) (h.charged p))
    (hm : h.expired p = true → Marked K m p) (ha : Searching K m) (hn : m.next K a = some m')
    (he : (h.after m a m').expired p = true) : Marked K m' p := by
  have hs := next_stepped hn
  have hp := hs.effect p
  simp only [History.after] at he
  cases ht : touch m a m' p with
  | none =>
    rw [ht] at hp he
    obtain ⟨hext, hlev, hhead⟩ := hm he
    refine ⟨hp.2.trans hext, hp.1.trans hlev, fun hh => ?_⟩
    rcases hs.heads _ _ hh with hh | ⟨c, rfl, hd⟩
    · exact hhead hh
    · simp only [Machine.next, Option.ite_none_right_eq_some] at hn
      exact (ha (by simp [hn.1])).not_marked hg hd ⟨hext, hlev⟩
  | reset =>
    rw [ht] at he
    cases he
  | tick =>
    obtain ⟨c, rfl, hc⟩ := touch_tick_iff.mp ht
    have hd := degrade_of_next hn hc
    rw [ht] at he
    simp only [Bool.or_eq_true, beq_iff_eq] at he
    rcases he with he | he
    · -- a process that has been marked before is not the head of its level
      obtain ⟨-, hlev, hhead⟩ := hm he
      exact absurd (hlev ▸ hd.head) hhead
    · obtain ⟨hge, hlev, hlev'⟩ := hd.ticked.of_marked hb he
      refine ⟨he, hlev'.trans hlev, fun hh => ?_⟩
      have hclear := hd.cleared hge
      rw [hlev] at hclear
      rw [hclear] at hh
      cases hh

/-- What runs of steps that pass keep. -/
structure MarkInv (K : Nat) (m : Machine n) (h : History) : Prop where
  inv : MachineInv K m
  bounded : ∀ p, Bounded K (m.tab.proc p) (h.charged p)
  marked : ∀ p, h.expired p = true → Marked K m p
  searching : Searching K m

theorem markInv (hK : 1 ≤ K) :
    (recorded K n).Invariant (Passing K) fun x => MarkInv K x.1 x.2 := by
  refine LTS.record_invariant (P := MarkInv K) (fun {m} hm => ?_) fun {m a m' h} hx ha hn => ?_
  · cases hm
    exact ⟨.boot hK, fun p => .reset hK rfl rfl, by simp, fun hh => absurd rfl hh⟩
  · exact ⟨(machineInv hK).step hx.inv trivial hn, bounded_next hK hn hx.bounded,
      fun p => marked_next hx.inv.good (hx.bounded p) (hx.marked p) hx.searching hn,
      searching_next hx.searching ha hn⟩

/-- On every run in which each scheduler that gets the lock finds the marked processes outranked,
no process whose time at the last level is used up is dispatched before it is reset. -/
theorem expired_not_dispatched (hK : 1 ≤ K) (hr : (recorded K n).ReachedVia (Passing K) (m, h))
    {c : Fin n} (hc : m.holder = some c)
    (hd : search K m.tab (m.cpu c).pos = .done (.dispatch p)) : h.expired p = false := by
  have hi := (markInv hK).of_reached hr
  have hm := hi.marked p
  rw [← Bool.not_eq_true]
  intro he
  exact (hi.searching (by simp [hc])).not_marked hi.inv.good hd ⟨(hm he).extime, (hm he).level⟩

attribute [local instance] neZero_one

/-- The child of init sleeps while init uses up its time at each of the three levels. Then init
wakes it up and gives up the CPU. -/
def outrankedRun : List (Act 1) :=
  [.userinit, .acquire 0, .search 0, .allocproc 0, .forkDone 0 1, .degrade 0, .degrade 0,
    .yield 0, .search 0, .sleep 0 (some .ticks)] ++ List.replicate 64 (.search 0) ++
    List.replicate 6 (.degrade 0) ++ [.yield 0] ++ List.replicate 65 (.search 0) ++
    List.replicate 10 (.degrade 0) ++ [.wakeup (some .ticks), .yield 0, .search 0, .search 0]

/-- The time of init at the last of three levels is used up, and its child is dispatched. -/
theorem expired_not_dispatched_child : ∃ (m : Machine 1) (h : History),
    (recorded 3 1).ReachedVia (Passing 3) (m, h) ∧ (m.tab.proc 0).state = .RUNNABLE ∧
    h.expired 0 = true ∧ search 3 m.tab (m.cpu 0).pos = .done (.dispatch 1) ∧
    h.expired 1 = false := by
  obtain ⟨⟨m, h⟩, hr, hp⟩ := (recorded 3 1).exists_reachedVia_of_run (C := Passing 3) outrankedRun
    (fun x => decide ((x.1.tab.proc 0).state = .RUNNABLE ∧ x.2.expired 0 = true ∧
      x.1.holder = some 0 ∧ search 3 x.1.tab (x.1.cpu 0).pos = .done (.dispatch 1)))
    recorded_init (by decide +kernel) (by decide +kernel)
  obtain ⟨hs, he, hc, hd⟩ := of_decide_eq_true hp
  exact ⟨m, h, hr, hs, he, hd, expired_not_dispatched (by decide) hr hc hd⟩

/-- The time of init at the last of three levels is used up, and the scheduler holds the lock. -/
def lastLevelRun : List (Act 1) :=
  [.userinit, .acquire 0, .search 0, .degrade 0, .degrade 0, .yield 0] ++
    List.replicate 65 (.search 0) ++ List.replicate 6 (.degrade 0) ++ [.yield 0] ++
    List.replicate 65 (.search 0) ++ List.replicate 10 (.degrade 0) ++ [.yield 0]

/-- init, which is alone, is dispatched again although its time is used up. -/
theorem expired_dispatched : ∃ (m : Machine 1) (h : History), (recorded 3 1).Reached (m, h) ∧
    m.holder = some 0 ∧ h.expired 0 = true ∧ (m.tab.proc 0).extime = -1 ∧
    search 3 m.tab (m.cpu 0).pos = .done (.dispatch 0) := by
  obtain ⟨⟨m, h⟩, hr, hp⟩ := (recorded 3 1).exists_reached_of_run
    (lastLevelRun ++ List.replicate 64 (.search 0))
    (fun x => decide (x.1.holder = some 0 ∧ x.2.expired 0 = true ∧
      (x.1.tab.proc 0).extime = -1 ∧ search 3 x.1.tab (x.1.cpu 0).pos = .done (.dispatch 0)))
    recorded_init (by decide +kernel)
  exact ⟨m, h, hr, of_decide_eq_true hp⟩

end Xv6.Mlfq
