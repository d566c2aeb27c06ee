import Xv6.MultiLevel.Scheduler

/-! # Round robin over the processes with an even pid

The loop at the label `even` goes on after the slot that it has dispatched last, and the minimum
search goes back to it as long as a process with an even pid is runnable. So while such a process
waits, the scheduler comes to it before it comes back to the slot that it has dispatched. -/

namespace Xv6.MultiLevel

open Loop

variable {p q : Slot} {pos : Pos} {m m₀ m₁ m₂ : Machine} {i : Nat}

/-- `q` is a runnable process with an even pid. -/
def Ptable.Waits (t : Ptable) (q : Slot) : Prop := t.Runnable q ∧ ¬ (t q).Odd

/-- The search comes to `q` before it comes to `p`. -/
def Pos.Ahead (p q : Slot) : Pos → Prop
  | .even i => Loop.Ahead p q i
  | .odd .. => q < p

/-- The scheduler comes to `q` before it comes to `p`. -/
def Ctl.Ahead (p q : Slot) : Ctl → Prop
  | .idle => q < p
  | .searching pos => pos.Ahead p q
  | .running _ pos => pos.Ahead p q

/-! ## One iteration -/

theorem search_even_dispatch (h : search t (.even i) = .done (.dispatch p)) : (p : Nat) = i := by
  simp only [search] at h
  split at h
  · split at h
    · cases h
    · cases h
      rfl
  · cases h

/-- The minimum search ends only at the end of the table. -/
theorem search_odd_done (h : search t (.odd i tmp o) = .done b) : ¬ i < NPROC := by
  intro hi
  by_cases hr : t.Runnable ⟨i, hi⟩
  · by_cases hodd : (t ⟨i, hi⟩).Odd
    · by_cases hlt : tmp = 0 ∨ tmp > (t ⟨i, hi⟩).pid
      · cases h.symm.trans (search_odd_take hi hr hodd hlt)
      · cases h.symm.trans (search_odd_keep hi hr hodd hlt)
    · cases h.symm.trans (search_odd_back hi hr hodd)
  · cases h.symm.trans (search_odd_skip hi hr)

/-- The minimum search dispatches nothing while a process with an even pid waits. -/
theorem search_odd_dispatch (hs : Pos.Sound t (.odd i tmp o)) (hq : t.Waits q) :
    search t (.odd i tmp o) ≠ .done (.dispatch p) := by
  intro h
  have hi := search_odd_done h
  have hall := Scanned.all hs hi
  cases o with
  | none => exact hall q hq.1
  | some r => exact hq.2 (hall.odd q trivial hq.1)

/-- An iteration that goes on passes neither `p` nor `q`. -/
theorem search_ahead (hs : pos.Sound t) (hq : t.Waits q) (ha : pos.Ahead p q)
    (h : search t pos = .next pos') : pos'.Ahead p q := by
  rcases search_spec hs with ⟨_, e, -, hf⟩ | ⟨_, e, -⟩
  · cases h.symm.trans e
    cases hf with
    | @even i hi =>
      apply Loop.Ahead.succ ha
      rintro rfl
      cases h.symm.trans (search_even_stop q.isLt hq.2 hq.1)
    | oddBegin hi => exact Loop.Ahead.lt_of_le ha (not_lt.mp hi) q.isLt
    | odd hi => exact ha
    | back _ _ _ => exact Loop.Ahead.zero ha
  · cases h.symm.trans e

/-- The dispatch of another process leaves the search ahead of `p`. -/
theorem resume_ahead (hs : pos.Sound t) (hq : t.Waits q) (ha : pos.Ahead p q)
    (h : search t pos = .done (.dispatch r)) (hr : r ≠ q) : pos.resume.Ahead p q := by
  cases pos with
  | even i =>
    apply Loop.Ahead.succ ha
    rw [← search_even_dispatch h]
    exact Fin.val_ne_of_ne hr
  | odd i tmp o => exact absurd h (search_odd_dispatch hs hq)

theorem not_release (hs : pos.Sound t) (hq : t.Waits q) : search t pos ≠ .done .release :=
  fun h => search_done_sound hs h q hq.1

/-! ## Whole runs -/

theorem iterate_ahead (hs : pos.Sound m.tab) (hq : m.tab.Waits q) (hq' : m'.tab.Waits q)
    (ha : pos.Ahead p q) (h : m.iterate pos = some m') : m'.ctl.Ahead p q := by
  unfold Machine.iterate at h
  cases hf : search m.tab pos with
  | next pos' =>
    rw [hf] at h
    cases h
    exact search_ahead hs hq ha hf
  | done b =>
    rw [hf] at h
    cases b with
    | dispatch r =>
      cases h
      apply resume_ahead hs hq ha hf
      -- the process that is dispatched is running
      rintro rfl
      have hrun := hq'.1
      simp [Machine.dispatch, Ptable.Runnable] at hrun
    | release => exact absurd hf (not_release hs hq)
    | panic => cases h

/-- A step keeps the scheduler ahead of `p` as long as `q` waits. -/
theorem next_ahead (hs : m.Sound) (hq : m.tab.Waits q) (hq' : m'.tab.Waits q) (ha : m.ctl.Ahead p q)
    (h : scheduler.next m a = some m') : m'.ctl.Ahead p q := by
  change m.next a = some m' at h
  cases a with
  | acquire t =>
    cases hc : m.ctl <;> simp only [Machine.next, hc] at h <;> cases h
    rw [hc] at ha
    exact Loop.Ahead.zero ha
  | iterate =>
    cases hc : m.ctl <;> simp only [Machine.next, hc] at h <;> try cases h
    rw [hc] at ha
    simp only [Machine.Sound, hc] at hs
    exact iterate_ahead hs hq hq' ha h
  | swtch t =>
    cases hc : m.ctl <;> simp only [Machine.next, hc] at h <;> cases h
    rw [hc] at ha
    exact ha

/-- A scheduler that is ahead of `p` does not dispatch it. -/
theorem not_dispatches (hs : m.Sound) (hq : m.tab.Waits q) (ha : m.ctl.Ahead p q) :
    ¬ m.Dispatches p := by
  rintro ⟨pos, hc, hd⟩
  rw [hc] at ha
  simp only [Machine.Sound, hc] at hs
  cases pos with
  | even i => exact Loop.Ahead.ne ha (search_even_dispatch hd).symm
  | odd i tmp o => exact search_odd_dispatch hs hq hd

/-- The dispatch of a process with an even pid leaves the scheduler ahead of its slot. -/
theorem ahead_of_dispatches (hs : m₀.Sound) (hp : m₀.Dispatches p) (he : ¬ (m₀.tab p).Odd)
    (h₁ : scheduler.next m₀ .iterate = some m₁) (hne : q ≠ p) : m₁.ctl.Ahead p q := by
  obtain ⟨pos, hc, hd⟩ := hp
  change m₀.next .iterate = some m₁ at h₁
  simp only [Machine.next, hc, Machine.iterate, hd] at h₁
  cases h₁
  simp only [Machine.Sound, hc] at hs
  cases pos with
  | even i =>
    rw [← search_even_dispatch hd]
    exact Loop.Ahead.after (Fin.val_ne_of_ne hne)
  | odd i tmp o =>
    have hr := (search_done_sound hs hd).1
    exact absurd hd (search_odd_dispatch hs ⟨hr, he⟩)

/-- On every run, between two dispatches of a process with an even pid, no other process with an
even pid is runnable in every state. -/
theorem even_round_robin {as : List Act} (h : scheduler.Reached m₀) (hp : m₀.Dispatches p)
    (he : ¬ (m₀.tab p).Odd) (h₁ : scheduler.next m₀ .iterate = some m₁)
    (h₂ : scheduler.run m₁ as = some m₂) (hp₂ : m₂.Dispatches p) (hne : q ≠ p) :
    ¬ scheduler.Throughout (fun m => m.tab.Waits q) m₁ as := by
  intro hw
  have hahead := ahead_of_dispatches (invariant_sound.of_reached h) hp he h₁ hne
  have hkeeps := hw.keeps (Q := fun m => scheduler.Reached m ∧ m.ctl.Ahead p q)
    (fun hq hq' hm hn => ⟨.step hm.1 trivial hn,
      next_ahead (invariant_sound.of_reached hm.1) hq hq' hm.2 hn⟩) h₂ ⟨.step h trivial h₁, hahead⟩
  obtain ⟨⟨hr, ha⟩, hq⟩ := hkeeps
  exact not_dispatches (invariant_sound.of_reached hr) hq ha hp₂

def twoEven : Ptable := fun p =>
  if p = 0 then ⟨2, .RUNNABLE⟩ else if p = 1 then ⟨4, .RUNNABLE⟩ else ⟨0, .UNUSED⟩

/-- The process in slot 0 runs, the one in slot 1 runs, the rest of the table and the minimum search
are passed, and the process in slot 0 is dispatched again. -/
theorem even_round_robin_two : ∃ m₀ m₁ m₂ as, scheduler.Reached m₀ ∧ m₀.Dispatches 0 ∧
    scheduler.next m₀ .iterate = some m₁ ∧ scheduler.run m₁ as = some m₂ ∧ m₂.Dispatches 0 ∧
      m₁.tab.Waits 1 ∧ ¬ scheduler.Throughout (fun m => m.tab.Waits 1) m₁ as := by
  let as := [.swtch twoEven, .iterate, .swtch twoEven] ++ List.replicate 64 Act.iterate
  let m₀ : Machine := ⟨twoEven, .searching (.even 0)⟩
  have hi : scheduler.Reached ⟨twoEven, .idle⟩ := .init rfl
  have hr : scheduler.Reached m₀ := .step (a := .acquire twoEven) hi trivial rfl
  have hd : m₀.Dispatches 0 := ⟨_, rfl, by decide⟩
  have h₂ : (scheduler.run (m₀.dispatch (.even 0) 0) as).map (fun m =>
      decide (m.ctl = .searching (.even 0) ∧ search m.tab (.even 0) = .done (.dispatch 0))) =
        some true := by
    decide +kernel
  obtain ⟨m₂, h₂, hd₂⟩ := Option.map_eq_some_iff.mp h₂
  have hd₂ : m₂.Dispatches 0 := ⟨_, of_decide_eq_true hd₂⟩
  exact ⟨m₀, _, m₂, as, hr, hd, rfl, h₂, hd₂, ⟨by decide, by decide⟩,
    even_round_robin hr hd (by decide) rfl h₂ hd₂ (by decide)⟩

end Xv6.MultiLevel
