import Xv6.Lib.History
import Xv6.Mlfq.Timer

/-! # Quanta

A timer interrupt charges a tick to the running process (`degrade`). At level `l` a process may use
`QT l` ticks; then it goes to the next level, or is marked with `extime = -1` at the last one. What
a step does to the level and to the ticks of a process depends on how it touches the process
(`next_touch`); everything about whole runs follows from that. -/

namespace Xv6.Mlfq

variable {K n : Nat} {p q : Slot}

/-! ## Operations that touch no level -/

/-- From `t` to `u` no level, no number of ticks and no entry of `heads` changes. -/
structure Unmoved (t u : Ptable) : Prop where
  level : ∀ q, (u.proc q).level = (t.proc q).level
  extime : ∀ q, (u.proc q).extime = (t.proc q).extime
  heads : u.heads = t.heads

namespace Unmoved

theorem of_woken (h : Woken t u) : Unmoved t u := ⟨fun q => (h.proc q).level,
  fun q => (h.proc q).extime, h.heads⟩

theorem refl : Unmoved t t := of_woken .refl

theorem trans (h : Unmoved t u) (h' : Unmoved u t') : Unmoved t t' :=
  ⟨fun q => (h'.level q).trans (h.level q), fun q => (h'.extime q).trans (h.extime q),
    h'.heads.trans h.heads⟩

theorem setProc (hl : v.level = (t.proc p).level) (he : v.extime = (t.proc p).extime) :
    Unmoved t (t.setProc p v) where
  level := Ptable.forall_setProc (P := fun q v => v.level = (t.proc q).level) hl fun _ _ => rfl
  extime := Ptable.forall_setProc (P := fun q v => v.extime = (t.proc q).extime) he fun _ _ => rfl
  heads := rfl

theorem setRunnable : Unmoved t (t.setRunnable p) :=
  have h : Unmoved t (t.setProc p { t.proc p with state := .RUNNABLE }) := setProc rfl rfl
  ⟨h.level, h.extime, rfl⟩

theorem exit : Unmoved t (exit t p) :=
  (of_woken (.trans .wakeup1 .reparent)).trans (setProc rfl rfl)

theorem forkDone : Unmoved t (forkDone t curproc p) := by
  have h : Unmoved t (t.setProc p { t.proc p with parent := some curproc }) := setProc rfl rfl
  exact h.trans setRunnable

end Unmoved

/-! ## Operations that touch a level -/

/-- A process at the top level that has used no tick. -/
def Proc.reset (v : Proc) : Proc := { v with level := 0, extime := 0 }

theorem Proc.reset_reset (v : Proc) : v.reset.reset = v.reset := rfl

theorem resetLevel_proc (t : Ptable) (p q : Slot) :
    (resetLevel t p).proc q = if q = p then (t.proc p).reset else t.proc q := by
  have h : ∀ u : Ptable, u.proc = t.proc →
      (u.setProc p { u.proc p with level := 0, extime := 0 }).proc q =
        if q = p then (t.proc p).reset else t.proc q := by
    intro u hu
    by_cases e : q = p
    · rw [e, Ptable.setProc_proc_self, hu, if_pos rfl]
      rfl
    · rw [Ptable.setProc_proc_of_ne e, hu, if_neg e]
  unfold resetLevel
  apply h
  split <;> rfl

theorem resetLevel_heads (t : Ptable) (p : Slot) : (resetLevel t p).heads = t.heads := by
  unfold resetLevel
  split <;> rfl

theorem boostOne_proc (t : Ptable) (p q : Slot) : (boostOne t p).proc q =
    if q = p ∧ (t.proc q).state ≠ .UNUSED then (t.proc q).reset else t.proc q := by
  unfold boostOne
  by_cases hs : (t.proc p).state ≠ .UNUSED
  · rw [if_pos hs, resetLevel_proc]
    by_cases e : q = p
    · subst e
      rw [if_pos rfl, if_pos ⟨rfl, hs⟩]
    · rw [if_neg e, if_neg fun h => e h.1]
  · rw [if_neg hs, if_neg]
    rintro ⟨rfl, h⟩
    exact hs h

theorem boost_proc (t : Ptable) (q : Slot) : (boost t).proc q =
    if (t.proc q).state ≠ .UNUSED then (t.proc q).reset else t.proc q := by
  have h : ∀ (ps : List Slot) (t : Ptable), (ps.foldl boostOne t).proc q =
      if q ∈ ps ∧ (t.proc q).state ≠ .UNUSED then (t.proc q).reset else t.proc q := by
    intro ps
    induction ps with
    | nil => simp
    | cons r ps ih =>
      intro t
      rw [List.foldl_cons, ih, boostOne_proc]
      by_cases hs : (t.proc q).state = .UNUSED
      · simp [hs]
      · by_cases e : q = r
        · subst e
          simp [hs, Proc.reset_reset]
        · simp [e]
  rw [boost, h]
  simp only [mem_slots, true_and]

theorem boost_heads (t : Ptable) : (boost t).heads = t.heads := by
  refine Table.foldl_inv (P := fun u : Ptable => u.heads = t.heads) slots (fun u p hu => ?_) rfl
  unfold boostOne
  split
  · exact (resetLevel_heads u p).trans hu
  · exact hu

/-- What a tick makes of a process. -/
def Ticked (K : Nat) (v w : Proc) : Prop :=
  if v.extime + 1 < QT v.level then w.level = v.level ∧ w.extime = v.extime + 1
  else if v.level = K - 1 then w.level = v.level ∧ w.extime = -1
  else w.level = v.level + 1 ∧ w.extime = 0

/-- What `expire` makes of the process. -/
def Proc.expired (K : Nat) (v : Proc) : Proc :=
  if v.level = K - 1 then { v with extime := -1 } else { v with extime := 0, level := v.level + 1 }

theorem expire_proc (K : Nat) (t : Ptable) (p q : Slot) :
    (expire K t p).proc q = if q = p then (t.proc p).expired K else t.proc q := by
  have h : ∀ u : Ptable, u.proc = t.proc →
      (u.setProc p { u.proc p with extime := 0, level := (t.proc p).level + 1 }).proc p =
        { t.proc p with extime := 0, level := (t.proc p).level + 1 } := by
    intro u hu
    rw [Ptable.setProc_proc_self, hu]
  by_cases e : q = p
  · subst e
    rw [if_pos rfl, Proc.expired, expire]
    dsimp only
    split
    · exact Ptable.setProc_proc_self ..
    · apply h
      split <;> rfl
  · rw [if_neg e]
    exact expire_proc_of_ne e

/-- What `degrade` does to the running process `p`, and to the table. -/
structure Degraded (K : Nat) (t u : Ptable) (p : Slot) : Prop where
  head : t.heads (t.proc p).level = some p
  ticked : Ticked K (t.proc p) (u.proc p)
  others : ∀ q, q ≠ p → u.proc q = t.proc q
  heads : ∀ l q, u.heads l = some q → t.heads l = some q
  cleared : (t.proc p).extime + 1 ≥ QT (t.proc p).level → u.heads (t.proc p).level = none

theorem degrade_some (h : degrade K t (some p) = some u) : Degraded K t u p := by
  simp only [degrade, Ptable.setProc_proc_self, Ptable.setProc_heads] at h
  split at h
  · cases h
  next hh =>
  rw [ne_eq, not_not] at hh
  split at h
  · next hq =>
    cases h
    have hne : ¬ (t.proc p).extime + 1 < QT (t.proc p).level := not_lt.mpr hq
    refine ⟨hh, ?_, fun q hq => ?_, fun l q hl => ?_, fun _ => ?_⟩
    · rw [expire_proc, if_pos rfl, Ptable.setProc_proc_self, Ticked, if_neg hne, Proc.expired]
      split
      · exact ⟨rfl, rfl⟩
      · exact ⟨rfl, rfl⟩
    · rw [expire_proc, if_neg hq, Ptable.setProc_proc_of_ne hq]
    · rw [expire_heads, Ptable.setProc_proc_self, Ptable.setProc_heads] at hl
      by_cases e : l = (t.proc p).level
      · subst e
        rw [Function.update_self] at hl
        cases hl
      · rwa [Function.update_of_ne e] at hl
    · rw [expire_heads, Ptable.setProc_proc_self, Function.update_self]
  · next hq =>
    cases h
    rw [ge_iff_le, not_le] at hq
    refine ⟨hh, ?_, fun q hq => Ptable.setProc_proc_of_ne hq, fun l q hl => hl,
      fun h => absurd h (not_le.mpr hq)⟩
    rw [Ptable.setProc_proc_self, Ticked, if_pos hq]
    exact ⟨rfl, rfl⟩

/-! ## How a step touches a process -/

inductive Touch
  | none
  | reset
  | tick
  deriving DecidableEq

/-- A step `a` from `m` to `m'` resets a process, charges it a tick, or does neither. -/
def touch (m : Machine n) (a : Act n) (m' : Machine n) (p : Slot) : Touch :=
  match a with
  | .boost => if (m.tab.proc p).state ≠ .UNUSED then .reset else .none
  | .rst c => if (m.cpu c).proc = some p then .reset else .none
  | .degrade c => if (m.cpu c).proc = some p then .tick else .none
  | .userinit | .allocproc _ =>
    if (m.tab.proc p).state = .UNUSED ∧ (m'.tab.proc p).state ≠ .UNUSED then .reset else .none
  | _ => .none

/-- What a step that touches a process makes of its level and its ticks. -/
def Touch.Effect (K : Nat) (v w : Proc) : Touch → Prop
  | .none => w.level = v.level ∧ w.extime = v.extime
  | .reset => w.level = 0 ∧ w.extime = 0
  | .tick => Ticked K v w

variable {m m' : Machine n} {a : Act n}

theorem allocproc_effect (h : allocproc t = some (r, u)) : u.heads = t.heads ∧
    (t.proc r).state = .UNUSED ∧ (u.proc r).state = .EMBRYO ∧ (u.proc r).level = 0 ∧
    (u.proc r).extime = 0 ∧ ∀ q, q ≠ r → u.proc q = t.proc q := by
  obtain ⟨p, hp, ⟨⟩⟩ := Option.map_eq_some_iff.mp h
  have hun : (t.proc r).state = .UNUSED := by simpa using (find_slots_eq_some.mp hp).1
  refine ⟨rfl, hun, ?_, ?_, ?_, fun q hq => Ptable.setProc_proc_of_ne hq⟩
  · simp
  · simp
  · simp

/-- What a step does to levels, ticks and heads. -/
structure Stepped (K : Nat) (m : Machine n) (a : Act n) (m' : Machine n) : Prop where
  effect : ∀ p, (touch m a m' p).Effect K (m.tab.proc p) (m'.tab.proc p)
  heads : ∀ l p, m'.tab.heads l = some p → m.tab.heads l = some p ∨
    ∃ c, a = .search c ∧ search K m.tab (m.cpu c).pos = .done (.dispatch p)

theorem Unmoved.stepped (h : Unmoved m.tab m'.tab) (ha : ∀ p, touch m a m' p = .none) :
    Stepped K m a m' where
  effect p := by
    rw [ha p]
    exact ⟨h.level p, h.extime p⟩
  heads l p hl := .inl (by rwa [← h.heads])

/-- A slot is taken and reset. -/
theorem Stepped.of_allocproc (h : allocproc m.tab = some (r, u)) (hu : Unmoved u m'.tab)
    (hstate : ∀ q, q ≠ r → (m'.tab.proc q).state = (u.proc q).state)
    (hr : (m'.tab.proc r).state ≠ .UNUSED)
    (ha : ∀ p, touch m a m' p = if (m.tab.proc p).state = .UNUSED ∧
      (m'.tab.proc p).state ≠ .UNUSED then .reset else .none) : Stepped K m a m' := by
  obtain ⟨hh, hun, -, hl, he, ho⟩ := allocproc_effect h
  refine ⟨fun p => ?_, fun l p hp => .inl ?_⟩
  · rw [ha p]
    by_cases e : p = r
    · subst e
      rw [if_pos ⟨hun, hr⟩]
      exact ⟨(hu.level p).trans hl, (hu.extime p).trans he⟩
    · have hne : ¬ ((m.tab.proc p).state = .UNUSED ∧ (m'.tab.proc p).state ≠ .UNUSED) := by
        rw [hstate p e, ho p e]
        exact fun h => h.2 h.1
      rw [if_neg hne]
      refine ⟨(hu.level p).trans ?_, (hu.extime p).trans ?_⟩ <;> rw [ho p e]
  · rw [← hh, ← hu.heads]
    exact hp

theorem locked_stepped (h : m.locked K a = some m') : Stepped K m a m' := by
  cases Machine.Step.of_locked h with
  | userinit ht =>
    obtain ⟨⟨r, u⟩, hu, rfl⟩ := Option.map_eq_some_iff.mp ht
    have hi : Unmoved u { u with initproc := some r } := ⟨fun _ => rfl, fun _ => rfl, rfl⟩
    refine .of_allocproc hu (hi.trans .setRunnable) (fun q hq => ?_) ?_ fun _ => rfl
    · exact congrArg Proc.state (Ptable.setProc_proc_of_ne hq)
    · simp [Machine.setTab, Ptable.setRunnable]
  | acquire => exact Unmoved.stepped (m := m) .refl fun _ => rfl
  | @allocproc r u _ hu =>
    refine .of_allocproc hu .refl (fun _ _ => rfl) ?_ fun _ => rfl
    obtain ⟨-, -, hs, -⟩ := allocproc_effect hu
    simp [show (m.setTab u).tab = u from rfl, hs]
  | forkFail | reap | waitSleeps | sleep => exact Unmoved.stepped (.setProc rfl rfl) fun _ => rfl
  | forkDone => exact Unmoved.forkDone.stepped fun _ => rfl
  | exit => exact Unmoved.exit.stepped fun _ => rfl
  | noChildren => exact Unmoved.refl.stepped fun _ => rfl
  | yield => exact Unmoved.setRunnable.stepped fun _ => rfl
  | wakeup => exact (Unmoved.of_woken .wakeup1).stepped fun _ => rfl
  | kill => exact (Unmoved.of_woken .kill).stepped fun _ => rfl
  | setpriority => exact (Unmoved.of_woken .setpriority).stepped fun _ => rfl
  | @rst c p hp =>
    refine ⟨fun q => ?_, fun l q hl => .inl ((resetLevel_heads m.tab p) ▸ hl)⟩
    simp only [touch, hp, Option.some.injEq, Machine.setTab, rst, resetLevel_proc]
    by_cases e : q = p
    · simp only [e, if_true]
      exact ⟨rfl, rfl⟩
    · simp only [e, Ne.symm e, if_false]
      exact ⟨rfl, rfl⟩
  | @degrade c u hu =>
    cases hp : (m.cpu c).proc with
    | none =>
      rw [hp] at hu
      cases hu
      exact Unmoved.refl.stepped fun p => by simp [touch, hp]
    | some p =>
      rw [hp] at hu
      have hd := degrade_some hu
      refine ⟨fun q => ?_, fun l q hl => .inl (hd.heads l q hl)⟩
      simp only [touch, hp, Option.some.injEq]
      by_cases e : p = q
      · subst e
        rw [if_pos rfl]
        exact hd.ticked
      · rw [if_neg e, Machine.setTab, hd.others q (Ne.symm e)]
        exact ⟨rfl, rfl⟩
  | boost =>
    refine ⟨fun q => ?_, fun l q hl => .inl ((boost_heads m.tab) ▸ hl)⟩
    simp only [touch, Machine.setTab, boost_proc]
    split
    · exact ⟨rfl, rfl⟩
    · exact ⟨rfl, rfl⟩

theorem swtch_proc (c : Fin n) (p q : Slot) :
    ((m.swtch c p).tab.proc q).level = (m.tab.proc q).level ∧
      ((m.swtch c p).tab.proc q).extime = (m.tab.proc q).extime := by
  by_cases e : q = p
  · subst e
    simp [Machine.swtch, dispatch]
  · simp [Machine.swtch, dispatch, Ptable.setProc_proc_of_ne e]

theorem swtch_heads (c : Fin n) (p : Slot) : (m.swtch c p).tab.heads =
    Function.update m.tab.heads (m.tab.proc p).level (some p) := rfl

theorem searchStep_stepped (c : Fin n) : Stepped K m (.search c) (m.searchStep K c) := by
  unfold Machine.searchStep
  split
  · exact Unmoved.stepped (m := m) .refl fun _ => rfl
  · next p hp =>
    refine ⟨swtch_proc c p, fun l q hl => ?_⟩
    rw [swtch_heads] at hl
    by_cases e : l = (m.tab.proc p).level
    · subst e
      rw [Function.update_self] at hl
      cases hl
      exact .inr ⟨c, rfl, hp⟩
    · rw [Function.update_of_ne e] at hl
      exact .inl hl
  · exact Unmoved.stepped (m := m) .refl fun _ => rfl

theorem next_stepped (h : m.next K a = some m') : Stepped K m a m' := by
  unfold Machine.next at h
  split at h
  · next c =>
    obtain ⟨-, ⟨⟩⟩ := Option.ite_none_right_eq_some.mp h
    exact searchStep_stepped c
  · obtain ⟨-, h⟩ := Option.ite_none_right_eq_some.mp h
    exact locked_stepped h

theorem degrade_of_next (h : m.next K (.degrade c) = some m') (hc : (m.cpu c).proc = some p) :
    Degraded K m.tab m'.tab p := by
  obtain ⟨-, h⟩ := Option.ite_none_right_eq_some.mp h
  simp only [Machine.locked, Option.map_eq_some_iff] at h
  obtain ⟨u, hu, rfl⟩ := h
  rw [hc] at hu
  exact degrade_some hu

/-! ## Ticks since a level was entered -/

/-- What is remembered of a run: the ticks charged to each process since it entered its level or was
last reset, and whether its time at the last level has been used up since it was last reset. -/
structure History where
  charged : Slot → Nat
  expired : Slot → Bool

def History.after (h : History) (m : Machine n) (a : Act n) (m' : Machine n) : History where
  charged p :=
    match touch m a m' p with
    | .none => h.charged p
    | .reset => 0
    | .tick => if (m'.tab.proc p).level = (m.tab.proc p).level then h.charged p + 1 else 0
  expired p :=
    match touch m a m' p with
    | .none => h.expired p
    | .reset => false
    | .tick => h.expired p || (m'.tab.proc p).extime == -1

/-- The MLFQ kernel with the history of each process. -/
def recorded (K n : Nat) : LTS (Machine n × History) (Act n) :=
  (kernel K n).record ⟨fun _ => 0, fun _ => false⟩ fun m a m' h => h.after m a m'

/-- The bounds of a process, and its ticks at the levels it can leave. -/
structure Bounded (K : Nat) (v : Proc) (charged : Nat) : Prop where
  level : v.level < K
  lower : -1 ≤ v.extime
  upper : v.extime < QT v.level
  expired : v.extime = -1 → v.level = K - 1
  charged : v.level + 1 < K → v.extime = charged

theorem Bounded.reset (hK : 1 ≤ K) (hl : w.level = 0) (he : w.extime = 0) : Bounded K w 0 where
  level := by omega
  lower := by omega
  upper := by
    rw [hl, he]
    decide
  expired h := by omega
  charged _ := by simp [he]

/-- A tick within the bounds. -/
theorem Bounded.ticked (h : Bounded K v k) (ht : Ticked K v w) :
    Bounded K w (if w.level = v.level then k + 1 else 0) := by
  have hl := h.level
  have hlo := h.lower
  have hex := h.expired
  have hch := h.charged
  unfold Ticked QT at ht
  split at ht
  · rw [if_pos ht.1]
    refine ⟨?_, ?_, ?_, ?_, ?_⟩ <;> simp only [ht.1, ht.2, QT] <;> omega
  · split at ht
    · rw [if_pos ht.1]
      refine ⟨?_, ?_, ?_, ?_, ?_⟩ <;> simp only [ht.1, ht.2, QT] <;> omega
    · rw [if_neg (by omega)]
      refine ⟨?_, ?_, ?_, ?_, ?_⟩ <;> simp only [ht.1, ht.2, QT] <;> omega

/-- A tick that leaves the mark is the last one at the last level. -/
theorem Ticked.of_marked (h : Ticked K v w) (hb : Bounded K v k) (he : w.extime = -1) :
    v.extime + 1 ≥ QT v.level ∧ v.level = K - 1 ∧ w.level = v.level := by
  have hlo := hb.lower
  unfold Ticked at h
  split at h
  · omega
  · split at h <;> omega

theorem Bounded.congr (h : Bounded K v k) (hl : w.level = v.level) (he : w.extime = v.extime) :
    Bounded K w k where
  level := hl ▸ h.level
  lower := he ▸ h.lower
  upper := by
    rw [hl, he]
    exact h.upper
  expired := by
    rw [hl, he]
    exact h.expired
  charged := by
    rw [hl, he]
    exact h.charged

theorem bounded_next {h : History} (hK : 1 ≤ K) (hn : m.next K a = some m')
    (hb : ∀ p, Bounded K (m.tab.proc p) (h.charged p)) (p : Slot) :
    Bounded K (m'.tab.proc p) ((h.after m a m').charged p) := by
  have hs := (next_stepped hn).effect p
  simp only [History.after]
  cases ht : touch m a m' p with
  | none =>
    rw [ht] at hs
    exact (hb p).congr hs.1 hs.2
  | reset =>
    rw [ht] at hs
    exact .reset hK hs.1 hs.2
  | tick =>
    rw [ht] at hs
    exact (hb p).ticked hs

theorem bounded_invariant (hK : 1 ≤ K) :
    (recorded K n).Invariant C fun x => ∀ p, Bounded K (x.1.tab.proc p) (x.2.charged p) := by
  refine LTS.record_invariant
    (P := fun (m : Machine n) (h : History) => ∀ p, Bounded K (m.tab.proc p) (h.charged p))
    (fun {m} hm p => ?_) fun hb _ hn => bounded_next hK hn hb
  cases hm
  exact .reset hK rfl rfl

/-- What holds of levels and ticks in a state of a run, and of every step from there. -/
structure Accounted (K : Nat) (m : Machine n) (h : History) : Prop where
  bounds : ∀ p, (m.tab.proc p).level < K ∧ -1 ≤ (m.tab.proc p).extime ∧
    (m.tab.proc p).extime < 4 * (m.tab.proc p).level + 2 ∧
    ((m.tab.proc p).extime = -1 → (m.tab.proc p).level = K - 1)
  falls : ∀ a m', m.next K a = some m' → ∀ p, (m'.tab.proc p).level < (m.tab.proc p).level →
    a = .boost ∨ (∃ c, a = .rst c ∧ (m.cpu c).proc = some p) ∨
      (m.tab.proc p).state = .UNUSED ∧ (m'.tab.proc p).state ≠ .UNUSED
  rises : ∀ a m', m.next K a = some m' → ∀ p,
    (m'.tab.proc p).level ≤ (m.tab.proc p).level + 1 ∧
    ((m'.tab.proc p).level = (m.tab.proc p).level + 1 ↔ ∃ c, a = .degrade c ∧
      (m.cpu c).proc = some p ∧ (m.tab.proc p).level + 1 < K ∧
      h.charged p + 1 = 4 * (m.tab.proc p).level + 2)

theorem touch_reset (h : touch m a m' p = .reset) :
    a = .boost ∨ (∃ c, a = .rst c ∧ (m.cpu c).proc = some p) ∨
      (m.tab.proc p).state = .UNUSED ∧ (m'.tab.proc p).state ≠ .UNUSED := by
  unfold touch at h
  split at h
  · exact .inl rfl
  · next c =>
    split at h
    · next hc => exact .inr (.inl ⟨c, rfl, hc⟩)
    · cases h
  · split at h <;> cases h
  · split at h
    · next hc => exact .inr (.inr hc)
    · cases h
  · split at h
    · next hc => exact .inr (.inr hc)
    · cases h
  · cases h

theorem touch_tick_iff :
    touch m a m' p = .tick ↔ ∃ c, a = .degrade c ∧ (m.cpu c).proc = some p := by
  constructor
  · intro h
    unfold touch at h
    split at h
    · split at h <;> cases h
    · split at h <;> cases h
    · next c =>
      split at h
      · next hc => exact ⟨c, rfl, hc⟩
      · cases h
    · split at h <;> cases h
    · split at h <;> cases h
    · cases h
  · rintro ⟨c, rfl, hc⟩
    exact if_pos hc

theorem Ticked.level_le (h : Ticked K v w) : v.level ≤ w.level ∧ w.level ≤ v.level + 1 := by
  unfold Ticked at h
  split at h
  · omega
  · split at h <;> omega

/-- A tick moves a process to the next level if it uses up its time and there is such a level. -/
theorem Ticked.level_succ_iff (hb : Bounded K v k) (h : Ticked K v w) :
    w.level = v.level + 1 ↔ v.level + 1 < K ∧ k + 1 = 4 * v.level + 2 := by
  have hl := hb.level
  have hu := hb.upper
  have hex := hb.expired
  have hch := hb.charged
  unfold Ticked at h
  unfold QT at h hu
  split at h
  · omega
  · split at h <;> omega

theorem Touch.Effect.level_le {x : Touch} (h : x.Effect K v w) (hx : x ≠ .tick) :
    w.level ≤ v.level := by
  cases x with
  | none => exact h.1.le
  | reset => exact h.1 ▸ Nat.zero_le _
  | tick => exact absurd rfl hx

/-- On every run of the MLFQ kernel levels and ticks are within their bounds, a level falls only by
`boost`, by `rst` or when its slot is taken again, and rises only by `degrade`, at the last tick of
its quantum. -/
theorem quantum_accounting {m : Machine n} {h : History} (hK : 1 ≤ K)
    (hr : (recorded K n).Reached (m, h)) : Accounted K m h := by
  have hb := (bounded_invariant hK).of_reached hr
  refine ⟨fun p => ⟨(hb p).level, (hb p).lower, (hb p).upper, (hb p).expired⟩,
    fun a m' hn p hlt => ?_, fun a m' hn p => ?_⟩
  · have hs := (next_stepped hn).effect p
    cases ht : touch m a m' p with
    | none =>
      rw [ht] at hs
      exact absurd hs.1 hlt.ne
    | reset => exact touch_reset ht
    | tick =>
      rw [ht] at hs
      exact absurd (Ticked.level_le hs).1 (not_le.mpr hlt)
  · have hs := (next_stepped hn).effect p
    by_cases ht : touch m a m' p = .tick
    · rw [ht] at hs
      refine ⟨(Ticked.level_le hs).2, (Ticked.level_succ_iff (hb p) hs).trans ⟨fun hc => ?_, ?_⟩⟩
      · obtain ⟨c, ha, hp⟩ := touch_tick_iff.mp ht
        exact ⟨c, ha, hp, hc⟩
      · rintro ⟨c, -, -, hc⟩
        exact hc
    · have hle := hs.level_le ht
      refine ⟨by omega, fun e => absurd e (by omega), ?_⟩
      rintro ⟨c, ha, hp, -⟩
      exact absurd (touch_tick_iff.mpr ⟨c, ha, hp⟩) ht

theorem recorded_init : (recorded K n).init (.boot, ⟨fun _ => 0, fun _ => false⟩) := ⟨rfl, rfl⟩

/-- init has used the first of its two ticks at level 0. -/
theorem quantum_accounting_init : ∃ (m : Machine 1) (h : History), (recorded 3 1).Reached (m, h) ∧
    (m.tab.proc 0).state = .RUNNING ∧ h.charged 0 = 1 ∧ Accounted 3 m h := by
  obtain ⟨⟨m, h⟩, hr, hp⟩ := (recorded 3 1).exists_reached_of_run
    [.userinit, .acquire 0, .search 0, .degrade 0]
    (fun x => decide ((x.1.tab.proc 0).state = .RUNNING ∧ x.2.charged 0 = 1)) recorded_init
    (by decide +kernel)
  obtain ⟨hrun, hch⟩ := of_decide_eq_true hp
  exact ⟨m, h, hr, hrun, hch, quantum_accounting (by decide) hr⟩

end Xv6.Mlfq
