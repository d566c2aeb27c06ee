import Xv6.Thread.Frame
import Xv6.Thread.Machine

/-! # What `exit` does to the other threads

The main thread of a process that exits marks its other threads as killed and waits until they have
gone. `clear_subthreads` finds them by their pid, whatever their state, and wakes those that sleep
on the address of a thread of the process, not those that sleep on anything else. -/

namespace Xv6.Thread

variable {t u : Ptable} {p q r : Slot}

namespace Ptable

/-- Another slot with the pid of `p`, in whatever state. -/
def Sibling (t : Ptable) (p q : Slot) : Prop := q ≠ p ∧ (t.proc q).pid = (t.proc p).pid

instance : Decidable (t.Sibling p q) := inferInstanceAs (Decidable (_ ∧ _))

/-- A slot that the scan of `clear_subthreads` marks as killed and counts. -/
def Marked (t : Ptable) (p q : Slot) : Prop := t.Sibling p q ∧ (t.proc q).state ≠ .ZOMBIE

instance : Decidable (t.Marked p q) := inferInstanceAs (Decidable (_ ∧ _))

/-- `q` sleeps on the address of one of the slots in `done` that are marked. -/
def Called (t : Ptable) (p : Slot) (done : List Slot) (q : Slot) : Prop :=
  (t.proc q).state = .SLEEPING ∧ ∃ r ∈ done, t.Marked p r ∧ (t.proc q).chan = some (.proc r)

instance {done : List Slot} : Decidable (t.Called p done q) := inferInstanceAs (Decidable (_ ∧ _))

/-- The slot `q` when the scan has passed the slots in `done`. -/
def scanned (t : Ptable) (p : Slot) (done : List Slot) (q : Slot) : Proc :=
  if q ∈ done ∧ t.Sibling p q ∧ (t.proc q).state = .ZOMBIE then
    { t.proc q with
      pid := 0, tid := 0, main := none, parent := none, killed := false, state := .UNUSED }
  else { t.proc q with
    killed := (t.proc q).killed || decide (q ∈ done ∧ t.Marked p q)
    state := if t.Called p done q then .RUNNABLE else (t.proc q).state }

end Ptable

/-- The state of the scan when it has passed the slots in `done`. -/
structure Scanned (t : Ptable) (p : Slot) (done : List Slot) (s : Nat × Ptable) : Prop where
  proc : ∀ q, s.2.proc q = t.scanned p done q
  count : s.1 = done.countP (t.Marked p)

section Scan
variable {s : Nat × Ptable}

/-- The scan has not touched the slots before it, but may have woken them. -/
theorem scanned_of_not_mem (h : r ∉ done) : t.scanned p done r =
    { t.proc r with state := if t.Called p done r then .RUNNABLE else (t.proc r).state } := by
  simp [Ptable.scanned, h]

theorem scanned_self : t.scanned p done p =
    { t.proc p with state := if t.Called p done p then .RUNNABLE else (t.proc p).state } := by
  simp [Ptable.scanned, Ptable.Marked, Ptable.Sibling]

theorem scanned_zombie_iff (h : r ∉ done) :
    (t.scanned p done r).state = .ZOMBIE ↔ (t.proc r).state = .ZOMBIE := by
  rw [scanned_of_not_mem h]
  dsimp only
  split
  · next hc => simp [hc.1]
  · rfl

theorem called_append : t.Called p (done ++ [r]) q ↔ t.Called p done q ∨
    (t.proc q).state = .SLEEPING ∧ t.Marked p r ∧ (t.proc q).chan = some (.proc r) := by
  simp only [Ptable.Called, List.mem_append, List.mem_singleton]
  constructor
  · rintro ⟨hs, x, hx | rfl, hm⟩
    · exact .inl ⟨hs, x, hx, hm⟩
    · exact .inr ⟨hs, hm⟩
  · rintro (⟨hs, x, hx, hm⟩ | ⟨hs, hm⟩)
    · exact ⟨hs, x, .inl hx, hm⟩
    · exact ⟨hs, r, .inr rfl, hm⟩

theorem called_append_of_not_marked (h : ¬ t.Marked p r) :
    t.Called p (done ++ [r]) q ↔ t.Called p done q := by
  rw [called_append]
  exact or_iff_left fun hc => h hc.2.1

/-- A slot that is not marked changes nothing but itself. -/
theorem scanned_append_of_ne (h : ¬ t.Marked p r) (hq : q ≠ r) :
    t.scanned p (done ++ [r]) q = t.scanned p done q := by
  simp only [Ptable.scanned, List.mem_append, List.mem_singleton, hq, or_false,
    called_append_of_not_marked h]

namespace Scanned

theorem not_sibling (h : Scanned t p done s) (hr : ¬ t.Sibling p r) :
    Scanned t p (done ++ [r]) s where
  proc q := by
    have hm : ¬ t.Marked p r := fun hm => hr hm.1
    rw [h.proc q]
    by_cases hq : q = r
    · subst hq
      simp [Ptable.scanned, hr, hm, called_append_of_not_marked hm]
    · rw [scanned_append_of_ne hm hq]
  count := by
    have hm : ¬ t.Marked p r := fun hm => hr hm.1
    simp [h.count, hm]

theorem zombie (h : Scanned t p done s) (hr : r ∉ done) (hs : t.Sibling p r)
    (hz : (t.proc r).state = .ZOMBIE) :
    Scanned t p (done ++ [r]) (s.1, threadClear s.2 r) where
  proc q := by
    have hm : ¬ t.Marked p r := fun hm => hm.2 hz
    by_cases hq : q = r
    · subst hq
      rw [threadClear, Ptable.setProc_proc_self, h.proc, scanned_of_not_mem hr]
      simp [Ptable.scanned, hs, hz]
    · rw [scanned_append_of_ne hm hq, ← h.proc q]
      exact Ptable.setProc_proc_of_ne hq
  count := by
    have hm : ¬ t.Marked p r := fun hm => hm.2 hz
    simp [h.count, hm]

theorem marked (h : Scanned t p done s) (hr : r ∉ done) (hm : t.Marked p r) :
    Scanned t p (done ++ [r]) (s.1 + 1,
      wakeup1 (s.2.setProc r { s.2.proc r with killed := true }) (some (.proc r))) where
  proc q := by
    rw [wakeup1_proc]
    by_cases hq : q = r
    · subst hq
      simp only [Ptable.setProc_proc_self, h.proc, Ptable.scanned, called_append, hm, hm.2]
      grind
    · rw [Ptable.setProc_proc_of_ne hq, h.proc]
      simp only [Ptable.scanned, List.mem_append, List.mem_singleton, hq, or_false, called_append,
        hm, true_and]
      grind
  count := by simp [h.count, hm]

end Scanned

/-- One iteration of the scan. -/
theorem clearOne_scanned (h : Scanned t p done s) (hr : r ∉ done) :
    Scanned t p (done ++ [r]) (clearOne p s r) := by
  obtain ⟨n, u⟩ := s
  have hpr : (u.proc r).pid = (t.proc r).pid := by rw [h.proc, scanned_of_not_mem hr]
  have hpp : (u.proc p).pid = (t.proc p).pid := by rw [h.proc, scanned_self]
  have hz : (u.proc r).state = .ZOMBIE ↔ (t.proc r).state = .ZOMBIE := by
    rw [h.proc, scanned_zombie_iff hr]
  simp only [clearOne]
  split
  · next hn =>
    rw [hpr, hpp] at hn
    refine h.not_sibling fun hs => ?_
    rcases hn with hn | hn
    · exact hn hs.2
    · exact hs.1 hn
  · next hn =>
    rw [hpr, hpp] at hn
    push Not at hn
    split
    · next hs => exact h.zombie hr ⟨hn.2, hn.1⟩ (hz.mp hs)
    · next hs => exact h.marked hr ⟨⟨hn.2, hn.1⟩, fun hs' => hs (hz.mpr hs')⟩

theorem scan_scanned (ps : List Slot) : ∀ {done : List Slot} {s : Nat × Ptable},
    Scanned t p done s → (done ++ ps).Nodup →
    Scanned t p (done ++ ps) (ps.foldl (clearOne p) s) := by
  induction ps with
  | nil =>
    intro done s h _
    simpa using h
  | cons r ps ih =>
    intro done s h hn
    have hr : r ∉ done := fun hr => (List.nodup_append.mp hn).2.2 r hr r List.mem_cons_self rfl
    rw [List.append_cons] at hn ⊢
    exact ih (clearOne_scanned h hr) hn

end Scan

/-- What one pass of `clear_subthreads` does. -/
theorem clearSubthreads_scanned (t : Ptable) (p : Slot) :
    Scanned t p slots (clearSubthreads t p) := by
  have h : Scanned t p [] (0, t) := ⟨fun q => by simp [Ptable.scanned, Ptable.Called], rfl⟩
  exact scan_scanned slots h nodup_slots

/-- `clear_subthreads` goes to sleep with the table `u` after it has counted `havethreads`: every
other thread of the process has been interrupted, and the free slots are as they were and have not
been counted. -/
structure Interrupts (t : Ptable) (p : Slot) (havethreads : Nat) (u : Ptable) : Prop where
  interrupted : ∀ q, u.Sibling p q → (u.proc q).state ≠ .UNUSED → (u.proc q).state ≠ .ZOMBIE →
    (u.proc q).killed = true ∧ (u.proc q).state ≠ .SLEEPING
  unused : ∀ q, (t.proc q).state = .UNUSED → u.proc q = t.proc q
  waits : havethreads = slots.countP fun q =>
    t.Sibling p q ∧ (t.proc q).state ≠ .UNUSED ∧ (t.proc q).state ≠ .ZOMBIE

/-- No free slot has the pid of `p`, and every other thread of the process that sleeps does so on
the address of one that has not exited. -/
structure Answers (t : Ptable) (p : Slot) : Prop where
  inUse : ∀ q, t.Sibling p q → t.InUse q
  channel : ∀ q, t.Sibling p q → (t.proc q).state = .SLEEPING →
    ∃ r, t.Marked p r ∧ (t.proc q).chan = some (.proc r)

theorem scanned_pid_self : (t.scanned p slots p).pid = (t.proc p).pid := by rw [scanned_self]

theorem scanned_marked (hq : t.Marked p q) : t.scanned p slots q = { t.proc q with
    killed := true
    state := if t.Called p slots q then .RUNNABLE else (t.proc q).state } := by
  simp [Ptable.scanned, hq, hq.2, mem_slots]

theorem scanned_not_sibling (hq : ¬ t.Sibling p q) : t.scanned p slots q = { t.proc q with
    state := if t.Called p slots q then .RUNNABLE else (t.proc q).state } := by
  simp [Ptable.scanned, Ptable.Marked, hq]

/-- The slots that have the pid of the process after the scan and are in use are those it has
marked. -/
theorem marked_of_scanned (hne : q ≠ p) (hp : (t.scanned p slots q).pid = (t.proc p).pid)
    (hu : (t.scanned p slots q).state ≠ .UNUSED) : t.Marked p q := by
  by_cases hs : t.Sibling p q
  · refine ⟨hs, fun hz => hu ?_⟩
    simp [Ptable.scanned, hs, hz, mem_slots]
  · rw [scanned_not_sibling hs] at hp
    exact absurd ⟨hne, hp⟩ hs

theorem Scanned.interrupts (hc : Scanned t p slots s) (h : Answers t p) :
    Interrupts t p s.1 s.2 where
  interrupted q hs hu _ := by
    simp only [Ptable.Sibling, hc.proc, scanned_pid_self] at hs hu ⊢
    have hm := marked_of_scanned hs.1 hs.2 hu
    rw [scanned_marked hm]
    refine ⟨rfl, ?_⟩
    dsimp only
    split
    · simp
    · next hn =>
      intro hsl
      obtain ⟨r, hr, hch⟩ := h.channel q hm.1 hsl
      exact hn ⟨hsl, r, mem_slots r, hr, hch⟩
  unused q hq := by
    have hs : ¬ t.Sibling p q := fun hs => h.inUse q hs hq
    have hn : ¬ t.Called p slots q := by
      intro hn
      rw [hn.1] at hq
      cases hq
    rw [hc.proc, scanned_not_sibling hs, if_neg hn]
  waits := by
    rw [hc.count]
    refine List.countP_congr fun q _ => ?_
    simp only [decide_eq_true_eq]
    exact ⟨fun hm => ⟨hm.1, h.inUse q hm.1, hm.2⟩, fun hm => ⟨hm.1, hm.2.2⟩⟩

/-- If the count is right then no marked slot is free. -/
theorem inUse_of_count (hn : n = slots.countP (t.Marked p)) (hw : n = slots.countP fun q =>
      t.Sibling p q ∧ (t.proc q).state ≠ .UNUSED ∧ (t.proc q).state ≠ .ZOMBIE) (hm : t.Marked p q) :
    t.InUse q := by
  rw [hn, List.countP_eq_length_filter, List.countP_eq_length_filter] at hw
  have hsub := List.monotone_filter_right slots (p := fun q => decide (t.Sibling p q ∧
    (t.proc q).state ≠ .UNUSED ∧ (t.proc q).state ≠ .ZOMBIE))
    (q := fun q => decide (t.Marked p q)) fun q hq => by
      simp only [decide_eq_true_eq] at hq ⊢
      exact ⟨hq.1, hq.2.2⟩
  have hq : q ∈ slots.filter fun q => decide (t.Marked p q) := by simp [mem_slots, hm]
  rw [← hsub.eq_of_length hw.symm] at hq
  simp only [List.mem_filter, decide_eq_true_eq] at hq
  exact hq.2.2.1

theorem Scanned.answers (hc : Scanned t p slots s) (h : Interrupts t p s.1 s.2) : Answers t p where
  inUse q hs hu := inUse_of_count hc.count h.waits ⟨hs, by simp [hu]⟩ hu
  channel q hs hsl := by
    have hm : t.Marked p q := ⟨hs, by simp [hsl]⟩
    by_contra hn
    have hn : ¬ t.Called p slots q := fun ⟨_, r, _, hr⟩ => hn ⟨r, hr⟩
    have hi := h.interrupted q
    simp only [Ptable.Sibling, hc.proc, scanned_pid_self, scanned_marked hm, if_neg hn, hsl] at hi
    exact (hi hs (by simp) (by simp)).2 rfl

/-- When the `exit` of a main thread goes to sleep, it has interrupted the other threads of its
process and waits for nothing else, just in case no free slot has their pid and each of them that
sleeps does so on the address of one of them. -/
theorem exit_interrupts_iff {n : Nat} (ht : (t.proc p).tid = 0)
    (hc : clearSubthreads t p = (n + 1, u)) :
    exit t p = sleep u p (some (.proc p)) .exit ∧ (Interrupts t p (n + 1) u ↔ Answers t p) := by
  have hs := clearSubthreads_scanned t p
  rw [hc] at hs
  refine ⟨?_, hs.answers, hs.interrupts⟩
  rw [exit, if_pos ht, hc]

/-- init forks a process that makes two threads, and the first joins the second: it sleeps on its
own address when the main thread exits. -/
theorem exit_interrupts_joining : ∃ (m : Machine 1) (u : Ptable), (kernel 1).Reached m ∧
    m.cpu 0 = some 1 ∧ (m.tab.proc 1).tid = 0 ∧ clearSubthreads m.tab 1 = (2, u) ∧
    (m.tab.proc 2).state = .SLEEPING ∧ Interrupts m.tab 1 2 u := by
  obtain ⟨s, m, hs, hr, hf⟩ := exists_run (n := 1)
    [.dispatch 0 0, .fork 0 true true, .yield 0, .dispatch 0 1, .threadCreate 0 true true,
      .threadCreate 0 true true, .yield 0, .dispatch 0 2, .threadJoin 0 2, .dispatch 0 1]
    (fun m => m.cpu 0 = some 1 ∧ (m.tab.proc 1).tid = 0 ∧ (clearSubthreads m.tab 1).1 = 2 ∧
      (m.tab.proc 2).state = .SLEEPING ∧ (∀ q, m.tab.Sibling 1 q → m.tab.InUse q) ∧
      ∀ q, m.tab.Sibling 1 q → (m.tab.proc q).state = .SLEEPING →
        ∃ r, m.tab.Marked 1 r ∧ (m.tab.proc q).chan = some (.proc r)) (by decide +kernel)
  simp only [decide_eq_true_eq] at hf
  obtain ⟨hcpu, ht, hn, hsl, hi, hch⟩ := hf
  have hc : clearSubthreads m.tab 1 = (1 + 1, (clearSubthreads m.tab 1).2) := Prod.ext hn rfl
  exact ⟨m, _, .of_run hs hr, hcpu, ht, hc, hsl, (exit_interrupts_iff ht hc).2.mpr ⟨hi, hch⟩⟩

/-- init forks a process whose thread sleeps on a pipe: it still sleeps when the main thread has
gone to sleep in `exit`. And where `thread_create` has failed, `exit` waits for the free slot. -/
theorem exit_misses_sleeper :
    (∃ (m : Machine 1) (u : Ptable), (kernel 1).Reached m ∧ m.cpu 0 = some 1 ∧
      (m.tab.proc 1).tid = 0 ∧ clearSubthreads m.tab 1 = (1, u) ∧ u.Sibling 1 2 ∧
      (u.proc 2).state = .SLEEPING ∧ (u.proc 2).chan = some (.other 0)) ∧
    ∃ (m : Machine 1) (u : Ptable), (kernel 1).Reached m ∧ m.cpu 0 = some 1 ∧
      (m.tab.proc 1).tid = 0 ∧ clearSubthreads m.tab 1 = (1, u) ∧
      (∀ q, m.tab.Sibling 1 q → ¬ m.tab.InUse q) ∧ (u.proc 2).killed ≠ (m.tab.proc 2).killed := by
  refine ⟨?_, ?_⟩
  · obtain ⟨s, m, hs, hr, hf⟩ := exists_run (n := 1)
      [.dispatch 0 0, .fork 0 true true, .yield 0, .dispatch 0 1, .threadCreate 0 true true,
        .yield 0, .dispatch 0 2, .sleep 0 (some (.other 0)), .dispatch 0 1]
      (fun m => m.cpu 0 = some 1 ∧ (m.tab.proc 1).tid = 0 ∧ (clearSubthreads m.tab 1).1 = 1 ∧
        (clearSubthreads m.tab 1).2.Sibling 1 2 ∧
        ((clearSubthreads m.tab 1).2.proc 2).state = .SLEEPING ∧
        ((clearSubthreads m.tab 1).2.proc 2).chan = some (.other 0)) (by decide +kernel)
    simp only [decide_eq_true_eq] at hf
    obtain ⟨hcpu, ht, hn, hsl⟩ := hf
    exact ⟨m, _, .of_run hs hr, hcpu, ht, Prod.ext hn rfl, hsl⟩
  · obtain ⟨s, m, hs, hr, hf⟩ := exists_run (n := 1)
      [.dispatch 0 0, .fork 0 true true, .yield 0, .dispatch 0 1, .threadCreate 0 true false]
      (fun m => m.cpu 0 = some 1 ∧ (m.tab.proc 1).tid = 0 ∧ (clearSubthreads m.tab 1).1 = 1 ∧
        (∀ q, m.tab.Sibling 1 q → ¬ m.tab.InUse q) ∧
        ((clearSubthreads m.tab 1).2.proc 2).killed ≠ (m.tab.proc 2).killed) (by decide +kernel)
    simp only [decide_eq_true_eq] at hf
    obtain ⟨hcpu, ht, hn, hu⟩ := hf
    exact ⟨m, _, .of_run hs hr, hcpu, ht, Prod.ext hn rfl, hu⟩

end Xv6.Thread
