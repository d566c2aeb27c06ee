import Xv6.Basic
import Xv6.Lib.Loop
import Xv6.Lib.Transition

/-! # The multilevel scheduler

The scheduler of `proc_multiLevel.c`: round robin over the processes with an even pid, then the
process with the least odd pid, and back to the first loop as soon as the minimum search meets a
runnable process with an even pid. While a process runs, and while `ptable.lock` is free, the table
may change in any way; while the scheduler holds the lock, only the scheduler changes it. -/

namespace Xv6.MultiLevel

open Loop

/-- What the scheduler reads of a `struct proc`. -/
structure Proc where
  pid : Int
  state : ProcState
  deriving DecidableEq, Repr

abbrev Ptable := Slot → Proc

def Proc.Odd (p : Proc) : Prop := p.pid.tmod 2 ≠ 0

instance (p : Proc) : Decidable p.Odd := inferInstanceAs (Decidable (_ ≠ _))

def Ptable.Runnable (t : Ptable) (p : Slot) : Prop := (t p).state = .RUNNABLE

instance (t : Ptable) (p : Slot) : Decidable (t.Runnable p) := inferInstanceAs (Decidable (_ = _))

/-! ## The search -/

/-- Where the scheduler is when it tests for the end of one of its loops over the table. -/
inductive Pos
  /-- The loop at the label `even`, with `p`. -/
  | even (i : Nat)
  /-- The minimum search, with `p1`, `tmp` and `p`. -/
  | odd (i : Nat) (tmp : Int) (p : Option Slot)
  deriving DecidableEq, Repr

inductive Stop
  | dispatch (p : Slot)
  | release
  | panic
  deriving DecidableEq, Repr

def Pos.oddBegin : Pos := .odd 0 0 none

/-- One iteration. -/
def search (t : Ptable) : Pos → Iter Pos Stop
  | .even i =>
    if h : i < NPROC then
      if (t ⟨i, h⟩).Odd ∨ ¬ t.Runnable ⟨i, h⟩ then .next (.even (i + 1))
      else .done (.dispatch ⟨i, h⟩)
    else .next .oddBegin
  | .odd i tmp p =>
    if h : i < NPROC then
      if ¬ t.Runnable ⟨i, h⟩ then .next (.odd (i + 1) tmp p)
      else if (t ⟨i, h⟩).Odd then
        if tmp = 0 ∨ tmp > (t ⟨i, h⟩).pid then .next (.odd (i + 1) (t ⟨i, h⟩).pid (some ⟨i, h⟩))
        else .next (.odd (i + 1) tmp p)
      -- `goto even`
      else .next (.even 0)
    else
      match p with
      | none => .done .release
      | some p => if ¬ t.Runnable p then .done .panic else .done (.dispatch p)

/-- Where the search goes on when a process that was dispatched at `pos` switches back. -/
def Pos.resume : Pos → Pos
  | .even i => .even (i + 1)
  | .odd .. => .oddBegin

/-! ## Runs -/

/-- What the CPU of the scheduler does. -/
inductive Ctl
  /-- Before `acquire`. -/
  | idle
  | searching (pos : Pos)
  /-- `p` runs, and the search goes on at `pos` after it. -/
  | running (p : Slot) (pos : Pos)
  deriving DecidableEq, Repr

structure Machine where
  tab : Ptable
  ctl : Ctl

/-- The steps. The table may have changed in any way when the scheduler gets the lock. -/
inductive Act
  | acquire (t : Ptable)
  | iterate
  | swtch (t : Ptable)

def Machine.dispatch (m : Machine) (pos : Pos) (p : Slot) : Machine where
  tab := Function.update m.tab p { m.tab p with state := .RUNNING }
  ctl := .running p pos.resume

def Machine.iterate (m : Machine) (pos : Pos) : Option Machine :=
  match search m.tab pos with
  | .next pos => some ⟨m.tab, .searching pos⟩
  | .done (.dispatch p) => some (m.dispatch pos p)
  | .done .release => some ⟨m.tab, .idle⟩
  | .done .panic => none

def Machine.next (m : Machine) : Act → Option Machine
  | .acquire t =>
    match m.ctl with
    | .idle => some ⟨t, .searching (.even 0)⟩
    | _ => none
  | .iterate =>
    match m.ctl with
    | .searching pos => m.iterate pos
    | _ => none
  | .swtch t =>
    match m.ctl with
    | .running _ pos => some ⟨t, .searching pos⟩
    | _ => none

/-- A CPU that runs `scheduler`. -/
def scheduler : LTS Machine Act where
  init m := m.ctl = .idle
  next := Machine.next

/-! ## The minimum so far -/

variable {t : Ptable} {p q : Slot} {pos : Pos} {i : Nat} {tmp : Int} {m : Machine} {b : Stop}

/-- `p` has the least pid of the runnable processes among the slots in `S`, and all of these have an
odd pid. -/
structure LeastOdd (t : Ptable) (S : Slot → Prop) (p : Slot) : Prop where
  runnable : t.Runnable p
  odd : ∀ q, S q → t.Runnable q → (t q).Odd
  least : ∀ q, S q → t.Runnable q → (t p).pid ≤ (t q).pid

/-- What the minimum search knows of the slots before `i`. -/
def Scanned (t : Ptable) (i : Nat) (tmp : Int) : Option Slot → Prop
  | none => tmp = 0 ∧ ∀ q : Slot, q < i → ¬ t.Runnable q
  | some p => tmp = (t p).pid ∧ (t p).Odd ∧ LeastOdd t (fun q => q < i) p

/-- What holds when the search is at a position. -/
def Pos.Sound (t : Ptable) : Pos → Prop
  | .even _ => True
  | .odd i tmp p => Scanned t i tmp p

theorem scanned_zero : Scanned t 0 0 none := ⟨rfl, fun _ h => absurd h (Nat.not_lt_zero _)⟩

theorem sound_oddBegin : Pos.oddBegin.Sound t := scanned_zero

theorem lt_succ_slot (h : i < NPROC) (hq : (q : Nat) < i + 1) : q = ⟨i, h⟩ ∨ (q : Nat) < i := by
  rcases Nat.lt_succ_iff_lt_or_eq.mp hq with hq | hq
  · exact .inr hq
  · exact .inl (Fin.ext hq)

/-- The slot at `i` does not change the minimum. -/
theorem LeastOdd.succ (hl : LeastOdd t (fun q => q < i) p) (h : i < NPROC)
    (hi : t.Runnable ⟨i, h⟩ → (t ⟨i, h⟩).Odd ∧ (t p).pid ≤ (t ⟨i, h⟩).pid) :
    LeastOdd t (fun q => q < i + 1) p := by
  refine ⟨hl.runnable, fun q hq hq' => ?_, fun q hq hq' => ?_⟩
  · rcases lt_succ_slot h hq with rfl | hq
    · exact (hi hq').1
    · exact hl.odd q hq hq'
  · rcases lt_succ_slot h hq with rfl | hq
    · exact (hi hq').2
    · exact hl.least q hq hq'

/-- A slot that is not runnable is passed. -/
theorem Scanned.skip (hs : Scanned t i tmp o) (h : i < NPROC) (hr : ¬ t.Runnable ⟨i, h⟩) :
    Scanned t (i + 1) tmp o := by
  cases o with
  | none =>
    refine ⟨hs.1, fun q hq => ?_⟩
    rcases lt_succ_slot h hq with rfl | hq
    · exact hr
    · exact hs.2 q hq
  | some p =>
    obtain ⟨htmp, hodd, hl⟩ := hs
    exact ⟨htmp, hodd, hl.succ h fun hq => absurd hq hr⟩

/-- A runnable process with a smaller odd pid becomes the minimum. -/
theorem Scanned.take (hs : Scanned t i tmp o) (h : i < NPROC) (hr : t.Runnable ⟨i, h⟩)
    (hodd : (t ⟨i, h⟩).Odd) (hlt : tmp = 0 ∨ tmp > (t ⟨i, h⟩).pid) :
    Scanned t (i + 1) (t ⟨i, h⟩).pid (some ⟨i, h⟩) := by
  refine ⟨rfl, hodd, hr, fun q hq hq' => ?_, fun q hq hq' => ?_⟩
  · rcases lt_succ_slot h hq with rfl | hq
    · exact hodd
    · cases o with
      | none => exact absurd hq' (hs.2 q hq)
      | some p => exact hs.2.2.odd q hq hq'
  · rcases lt_succ_slot h hq with rfl | hq
    · exact le_rfl
    · cases o with
      | none => exact absurd hq' (hs.2 q hq)
      | some p =>
        obtain ⟨rfl, hp, hl⟩ := hs
        -- an odd pid is not the initial value of `tmp`
        have hne : (t p).pid ≠ 0 := fun h0 => hp (by rw [h0]; rfl)
        exact (hlt.resolve_left hne).le.trans (hl.least q hq hq')

/-- A runnable process with a larger odd pid is passed. -/
theorem Scanned.keep (hs : Scanned t i tmp o) (h : i < NPROC) (hodd : (t ⟨i, h⟩).Odd)
    (hlt : ¬ (tmp = 0 ∨ tmp > (t ⟨i, h⟩).pid)) : Scanned t (i + 1) tmp o := by
  push Not at hlt
  cases o with
  | none => exact absurd hs.1 hlt.1
  | some p =>
    obtain ⟨rfl, hp, hl⟩ := hs
    exact ⟨rfl, hp, hl.succ h fun _ => ⟨hodd, hlt.2⟩⟩

theorem Scanned.all (hs : Scanned t i tmp o) (h : ¬ i < NPROC) : match o with
    | none => ∀ q, ¬ t.Runnable q
    | some p => LeastOdd t (fun _ => True) p := by
  have hi : ∀ q : Slot, (q : Nat) < i := fun q => q.isLt.trans_le (not_lt.mp h)
  cases o with
  | none => exact fun q => hs.2 q (hi q)
  | some p =>
    have hl := hs.2.2
    exact ⟨hl.runnable, fun q _ => hl.odd q (hi q), fun q _ => hl.least q (hi q)⟩

/-! ## One iteration -/

theorem search_even_pass (h : i < NPROC) (hc : (t ⟨i, h⟩).Odd ∨ ¬ t.Runnable ⟨i, h⟩) :
    search t (.even i) = .next (.even (i + 1)) := by
  simp only [search, dif_pos h]
  exact if_pos hc

theorem search_even_stop (h : i < NPROC) (he : ¬ (t ⟨i, h⟩).Odd) (hr : t.Runnable ⟨i, h⟩) :
    search t (.even i) = .done (.dispatch ⟨i, h⟩) := by
  simp only [search, dif_pos h]
  exact if_neg (not_or.mpr ⟨he, not_not.mpr hr⟩)

theorem search_even_end (h : ¬ i < NPROC) : search t (.even i) = .next .oddBegin := by
  simp only [search, dif_neg h]

section
theorem search_odd_skip (h : i < NPROC) (hr : ¬ t.Runnable ⟨i, h⟩) :
    search t (.odd i tmp o) = .next (.odd (i + 1) tmp o) := by
  unfold search
  simp only [dif_pos h]
  exact if_pos hr

theorem search_odd_take (h : i < NPROC) (hr : t.Runnable ⟨i, h⟩) (hodd : (t ⟨i, h⟩).Odd)
    (hlt : tmp = 0 ∨ tmp > (t ⟨i, h⟩).pid) :
    search t (.odd i tmp o) = .next (.odd (i + 1) (t ⟨i, h⟩).pid (some ⟨i, h⟩)) := by
  unfold search
  simp only [dif_pos h]
  rw [if_neg (not_not.mpr hr), if_pos hodd, if_pos hlt]

theorem search_odd_keep (h : i < NPROC) (hr : t.Runnable ⟨i, h⟩) (hodd : (t ⟨i, h⟩).Odd)
    (hlt : ¬ (tmp = 0 ∨ tmp > (t ⟨i, h⟩).pid)) :
    search t (.odd i tmp o) = .next (.odd (i + 1) tmp o) := by
  unfold search
  simp only [dif_pos h]
  rw [if_neg (not_not.mpr hr), if_pos hodd, if_neg hlt]

theorem search_odd_back (h : i < NPROC) (hr : t.Runnable ⟨i, h⟩) (he : ¬ (t ⟨i, h⟩).Odd) :
    search t (.odd i tmp o) = .next (.even 0) := by
  unfold search
  simp only [dif_pos h]
  rw [if_neg (not_not.mpr hr), if_neg he]

theorem search_odd_none (h : ¬ i < NPROC) : search t (.odd i tmp none) = .done .release := by
  rw [search, dif_neg h]

theorem search_odd_some (h : ¬ i < NPROC) (hr : t.Runnable p) :
    search t (.odd i tmp (some p)) = .done (.dispatch p) := by
  rw [search, dif_neg h]
  exact if_neg (not_not.mpr hr)

end

/-- What is known of the table when the search ends. -/
def Stop.Sound (t : Ptable) : Stop → Prop
  | .dispatch p => t.Runnable p ∧ ((t p).Odd → LeastOdd t (fun _ => True) p)
  | .release => ∀ q, ¬ t.Runnable q
  | .panic => False

/-- The search has come closer to its end: the loops only move forward, and the minimum search goes
back only for a process that the first loop stops at. -/
inductive Forward (t : Ptable) : Pos → Pos → Prop
  | even {i : Nat} : i < NPROC → Forward t (.even i) (.even (i + 1))
  | oddBegin {i : Nat} : ¬ i < NPROC → Forward t (.even i) .oddBegin
  | odd {i : Nat} {tmp tmp' : Int} {o o' : Option Slot} :
    i < NPROC → Forward t (.odd i tmp o) (.odd (i + 1) tmp' o')
  | back {i : Nat} {tmp : Int} {o : Option Slot} (q : Slot) :
    t.Runnable q → ¬ (t q).Odd → Forward t (.odd i tmp o) (.even 0)

/-- One iteration keeps what the search knows and moves forward, or ends the search with what it has
found. -/
theorem search_spec (hs : pos.Sound t) :
    (∃ pos', search t pos = .next pos' ∧ pos'.Sound t ∧ Forward t pos pos') ∨
      ∃ b, search t pos = .done b ∧ b.Sound t := by
  cases pos with
  | even i =>
    by_cases h : i < NPROC
    · by_cases hc : (t ⟨i, h⟩).Odd ∨ ¬ t.Runnable ⟨i, h⟩
      · exact .inl ⟨_, search_even_pass h hc, trivial, .even h⟩
      · rw [not_or, not_not] at hc
        exact .inr ⟨_, search_even_stop h hc.1 hc.2, hc.2, fun hodd => absurd hodd hc.1⟩
    · exact .inl ⟨_, search_even_end h, sound_oddBegin, .oddBegin h⟩
  | odd i tmp o =>
    by_cases h : i < NPROC
    · by_cases hr : t.Runnable ⟨i, h⟩
      · by_cases hodd : (t ⟨i, h⟩).Odd
        · by_cases hlt : tmp = 0 ∨ tmp > (t ⟨i, h⟩).pid
          · exact .inl ⟨_, search_odd_take h hr hodd hlt, hs.take h hr hodd hlt, .odd h⟩
          · exact .inl ⟨_, search_odd_keep h hr hodd hlt, hs.keep h hodd hlt, .odd h⟩
        · exact .inl ⟨_, search_odd_back h hr hodd, trivial, .back ⟨i, h⟩ hr hodd⟩
      · exact .inl ⟨_, search_odd_skip h hr, hs.skip h hr, .odd h⟩
    · have hall := hs.all h
      cases o with
      | none => exact .inr ⟨_, search_odd_none h, hall⟩
      | some p => exact .inr ⟨_, search_odd_some h hall.runnable, hall.runnable, fun _ => hall⟩

theorem search_next_sound (hs : pos.Sound t) (h : search t pos = .next pos') : pos'.Sound t := by
  rcases search_spec hs with ⟨_, e, hs', -⟩ | ⟨_, e, -⟩
  · cases h.symm.trans e
    exact hs'
  · cases h.symm.trans e

theorem search_done_sound (hs : pos.Sound t) (h : search t pos = .done b) : b.Sound t := by
  rcases search_spec hs with ⟨_, e, -⟩ | ⟨_, e, hb⟩
  · cases h.symm.trans e
  · cases h.symm.trans e
    exact hb

/-! ## The search ends -/

/-- The search started at `pos` ends, and with what it ends is so. -/
def Ends (t : Ptable) (pos : Pos) : Prop := ∃ b, Yields (search t) pos b ∧ b.Sound t

theorem ends_of_forward (hs : pos.Sound t)
    (ih : ∀ pos', pos'.Sound t → Forward t pos pos' → Ends t pos') : Ends t pos := by
  rcases search_spec hs with ⟨pos', e, hs', hf⟩ | ⟨b, e, hb⟩
  · obtain ⟨b, hy, hb⟩ := ih pos' hs' hf
    exact ⟨b, (yields_next e).mpr hy, hb⟩
  · exact ⟨b, (yields_done e).mpr rfl, hb⟩

/-- The first loop stops at a runnable process with an even pid in the rest of the table. -/
theorem ends_even_of_runnable (hq : t.Runnable q) (he : ¬ (t q).Odd) (hi : i ≤ q) :
    Ends t (.even i) := by
  induction hn : (q : Nat) - i generalizing i with
  | zero =>
    obtain rfl : i = q := by omega
    exact ⟨_, (yields_done (search_even_stop q.isLt he hq)).mpr rfl, hq, fun hodd => absurd hodd he⟩
  | succ n ih =>
    refine ends_of_forward trivial fun pos' _ hf => ?_
    cases hf with
    | even h => exact ih (by omega) (by omega)
    | oddBegin h =>
      have := q.isLt
      omega

theorem ends_odd (hs : Scanned t i tmp o) : Ends t (.odd i tmp o) := by
  induction hn : NPROC - i generalizing i tmp o with
  | zero =>
    refine ends_of_forward (show Pos.Sound t (.odd i tmp o) from hs) fun pos' hs' hf => ?_
    cases hf with
    | odd h => omega
    | back q hq he => exact ends_even_of_runnable hq he (Nat.zero_le _)
  | succ n ih =>
    refine ends_of_forward (show Pos.Sound t (.odd i tmp o) from hs) fun pos' hs' hf => ?_
    cases hf with
    | odd h => exact ih hs' (by omega)
    | back q hq he => exact ends_even_of_runnable hq he (Nat.zero_le _)

theorem ends_even : Ends t (.even i) := by
  induction hn : NPROC - i generalizing i with
  | zero =>
    refine ends_of_forward trivial fun pos' hs' hf => ?_
    cases hf with
    | even h => omega
    | oddBegin h => exact ends_odd hs'
  | succ n ih =>
    refine ends_of_forward trivial fun pos' hs' hf => ?_
    cases hf with
    | even h => exact ih (by omega)
    | oddBegin h => exact ends_odd hs'

/-- The search ends, and with a runnable process in the table it ends in a dispatch. -/
theorem dispatches_of_runnable (hs : pos.Sound t) (hq : t.Runnable q) :
    ∃ p, Yields (search t) pos (.dispatch p) := by
  have hends : Ends t pos := by
    cases pos with
    | even i => exact ends_even
    | odd i tmp o => exact ends_odd hs
  obtain ⟨b, hy, hb⟩ := hends
  cases b with
  | dispatch p => exact ⟨p, hy⟩
  | release => exact absurd hq (hb q)
  | panic => exact hb.elim

/-! ## Whole runs -/

/-- The scheduler knows what it has scanned, whatever the processes have done. -/
def Machine.Sound (m : Machine) : Prop :=
  match m.ctl with
  | .idle => True
  | .searching pos => pos.Sound m.tab
  -- the table may change before the search goes on
  | .running _ pos => ∀ t, pos.Sound t

theorem sound_resume (t : Ptable) : pos.resume.Sound t := by
  cases pos with
  | even i => trivial
  | odd i tmp o => exact sound_oddBegin

theorem Machine.iterate_sound (hs : pos.Sound m.tab) (h : m.iterate pos = some m') : m'.Sound := by
  unfold Machine.iterate at h
  cases hf : search m.tab pos with
  | next pos' =>
    rw [hf] at h
    cases h
    exact search_next_sound hs hf
  | done b =>
    rw [hf] at h
    cases b with
    | dispatch p =>
      cases h
      exact sound_resume
    | release =>
      cases h
      trivial
    | panic => cases h

theorem invariant_sound : scheduler.Invariant (fun _ _ => True) Machine.Sound where
  init {m} h := by
    have h : m.ctl = .idle := h
    simp only [Machine.Sound, h]
  step {m a m'} hs _ h := by
    change m.next a = some m' at h
    cases a with
    | acquire t =>
      cases hc : m.ctl <;> simp only [Machine.next, hc] at h <;> cases h
      trivial
    | iterate =>
      cases hc : m.ctl <;> simp only [Machine.next, hc] at h <;> try cases h
      simp only [Machine.Sound, hc] at hs
      exact Machine.iterate_sound hs h
    | swtch t =>
      cases hc : m.ctl <;> simp only [Machine.next, hc] at h <;> cases h
      simp only [Machine.Sound, hc] at hs
      exact hs t

/-- The process that the next iteration dispatches. -/
def Machine.Dispatches (m : Machine) (p : Slot) : Prop :=
  ∃ pos, m.ctl = .searching pos ∧ search m.tab pos = .done (.dispatch p)

/-- The scheduler holds the lock, and it dispatches a process before it releases the lock. -/
def Machine.WillDispatch (m : Machine) : Prop :=
  ∃ pos p, m.ctl = .searching pos ∧ Yields (search m.tab) pos (.dispatch p)

def twoOdd : Ptable := fun p =>
  if p = 0 then ⟨5, .RUNNABLE⟩ else if p = 1 then ⟨3, .RUNNABLE⟩ else ⟨0, .UNUSED⟩

end Xv6.MultiLevel
