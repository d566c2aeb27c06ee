import Xv6.Mlfq.Counters

/-! # Timer interrupts on one CPU

The MLFQ kernel on one CPU, with the timer interrupt of `trap.c` as one step: interrupts are
off in the trap handler and whenever `ptable.lock` is held, so nothing comes between `degrade`,
`boost`, `wakeup` and `yield`. The system calls `yield` and `sleep` begin with `rst`, which is a
step of its own: a timer interrupt may arrive after it, and `sleep` returns right after it when
its argument is 0 or cannot be fetched.

`degrade` panics unless `heads[p->level]` is the running process. The scheduler sets this entry
when it dispatches the process; the history variable `moved` records that `rst` has since taken
the process to level 0 from another level. It is written by the steps and read by none. -/

namespace Xv6.Mlfq

variable {K : Nat} {t : Ptable} {p q : Slot}

structure Uni where
  tab : Ptable
  /-- `c->proc`. -/
  proc : Option Slot
  pos : Pos
  /-- The scheduler holds `ptable.lock`. -/
  searching : Bool
  /-- The counter `ticks`, a `uint`. -/
  ticks : UInt32
  /-- Interrupts are on. They are off while `exit` runs in the trap handler. -/
  intr : Bool
  /-- `rst` has moved the process since it was dispatched. -/
  moved : Bool

/-- The steps. `timer user` interrupts user code if `user` is set, and the kernel otherwise. -/
inductive UniAct
  | userinit
  | acquire
  | search
  | timer (user : Bool)
  | rst
  | yield
  | sleep (chan : Option Chan)
  | wakeup (chan : Option Chan)
  | kill (pid : Int)
  | allocproc
  | forkFail (np : Slot)
  | forkDone (np : Slot)
  | exit
  | wait
  | setpriority (pid priority : Int)

/-- The table after `degrade` in the timer branch of `trap`: `boost` on every 100th tick, and
`wakeup(&ticks)`. -/
def tickTab (ticks : UInt32) (t : Ptable) : Ptable :=
  wakeup1 (if ticks % 100 = 0 then boost t else t) (some .ticks)

namespace Uni

def boot : Uni := ⟨pinit, none, schbegin, false, 0, true, false⟩

def setTab (s : Uni) (t : Ptable) : Uni := { s with tab := t }

def sched (s : Uni) (t : Ptable) : Uni := { s with tab := t, proc := none, searching := true }

/-- `swtch` to `p`, which clears `p->chan` and releases the lock. -/
def swtch (s : Uni) (p : Slot) : Uni :=
  let t := dispatch s.tab p
  { s with
    tab := t.setProc p { t.proc p with chan := none }
    proc := some p
    pos := ⟨s.pos.level, s.pos.idx + 1⟩
    searching := false
    intr := true
    moved := false }

def searchStep (K : Nat) (s : Uni) : Uni :=
  match Mlfq.search K s.tab s.pos with
  | .next pos => { s with pos := pos }
  | .done (.dispatch p) => s.swtch p
  | .done .release => { s with searching := false }

/-- A timer interrupt can arrive. -/
def TimerReady (s : Uni) : Prop := s.searching = false ∧ s.intr = true

instance (s : Uni) : Decidable s.TimerReady := inferInstanceAs (Decidable (_ ∧ _))

/-- `trap` after `degrade`, which has left the table `t`. -/
def timerRest (s : Uni) (user : Bool) (t : Ptable) : Uni :=
  let s := { s with tab := tickTab (s.ticks + 1) t, ticks := s.ticks + 1 }
  match s.proc with
  | none => s
  | some p =>
    if (s.tab.proc p).killed && user then { s with intr := false }
    else if (s.tab.proc p).state = .RUNNING then s.sched (Mlfq.yield s.tab p)
    else s

def locked (K : Nat) (s : Uni) : UniAct → Option Uni
  | .userinit => if s.tab.initproc = none then (Mlfq.userinit s.tab).map s.setTab else none
  | .acquire => if s.proc = none then some { s with pos := schbegin, searching := true } else none
  | .search => none
  | .timer user => if s.intr then (degrade K s.tab s.proc).map (s.timerRest user) else none
  | .rst => s.proc.map fun p =>
    { s with tab := Mlfq.rst s.tab p, moved := s.moved || (s.tab.proc p).level != 0 }
  | .yield => s.proc.map fun p => s.sched (Mlfq.yield s.tab p)
  | .sleep chan => s.proc.map fun p => s.sched (Mlfq.sleep s.tab p chan)
  | .wakeup chan => some (s.setTab (wakeup1 s.tab chan))
  | .kill pid => some (s.setTab (Mlfq.kill s.tab pid))
  | .allocproc => s.proc.bind fun _ => (Mlfq.allocproc s.tab).map fun r => s.setTab r.2
  | .forkFail np =>
    if (s.tab.proc np).state = .EMBRYO then some (s.setTab (freeEmbryo s.tab np)) else none
  | .forkDone np => s.proc.bind fun p =>
    if (s.tab.proc np).state = .EMBRYO then some (s.setTab (Mlfq.forkDone s.tab p np)) else none
  | .exit => s.proc.bind fun p =>
    if s.tab.initproc = some p then none else some (s.sched (Mlfq.exit s.tab p))
  | .wait => s.proc.map fun p =>
    match Mlfq.wait s.tab p with
    | .reaped _ t => s.setTab t
    | .noChildren => s
    | .sleeps t => s.sched t
  | .setpriority pid priority => s.proc.map fun p =>
    s.setTab (Mlfq.setpriority s.tab p pid priority).2

def next (K : Nat) (s : Uni) : UniAct → Option Uni
  | .search => if s.searching then some (s.searchStep K) else none
  | a => if s.searching then none else s.locked K a

end Uni

/-- The MLFQ kernel with `MLFQ_K = K` on one CPU. -/
def uniprocessor (K : Nat) : LTS Uni UniAct where
  init s := s = .boot
  next := Uni.next K

/-! ## Entries of `heads` -/

/-- From `t` to `u` no entry of `heads` changes and no level rises. -/
structure Lowers (t u : Ptable) : Prop where
  heads : u.heads = t.heads
  level : ∀ q, (u.proc q).level ≤ (t.proc q).level

namespace Lowers

theorem refl : Lowers t t := ⟨rfl, fun _ => le_rfl⟩

theorem trans (h : Lowers t u) (h' : Lowers u t') : Lowers t t' :=
  ⟨h'.heads.trans h.heads, fun q => (h'.level q).trans (h.level q)⟩

theorem setProc (hl : v.level ≤ (t.proc p).level) : Lowers t (t.setProc p v) :=
  ⟨rfl, Ptable.forall_setProc (P := fun q v => v.level ≤ (t.proc q).level) hl fun _ _ => le_rfl⟩

theorem setRunnable : Lowers t (t.setRunnable p) :=
  have h : Lowers t (t.setProc p { t.proc p with state := .RUNNABLE }) := setProc le_rfl
  ⟨h.heads, h.level⟩

theorem resetLevel : Lowers t (resetLevel t p) := by
  unfold Mlfq.resetLevel
  split <;> exact ⟨rfl, (setProc (Nat.zero_le _)).level⟩

theorem boost : Lowers t (boost t) := by
  refine Table.foldl_inv slots (fun u p hu => hu.trans ?_) refl
  unfold boostOne
  split
  · exact resetLevel
  · exact refl

end Lowers

/-- Besides, running processes go on running at their level. -/
structure Steady (t u : Ptable) : Prop extends Lowers t u where
  running : ∀ q, (t.proc q).state = .RUNNING →
    (u.proc q).state = .RUNNING ∧ (u.proc q).level = (t.proc q).level

namespace Steady

theorem of_woken (h : Woken t u) : Steady t u :=
  ⟨⟨h.heads, fun q => (h.proc q).level.le⟩, fun q hq =>
    ⟨((Upkeep.of_woken (K := 0) h).state_eq (by simp [hq])).trans hq, (h.proc q).level⟩⟩

theorem trans (h : Steady t u) (h' : Steady u t') : Steady t t' := by
  refine ⟨h.toLowers.trans h'.toLowers, fun q hq => ?_⟩
  obtain ⟨hs, hl⟩ := h.running q hq
  exact ⟨(h'.running q hs).1, (h'.running q hs).2.trans hl⟩

theorem setProc (hl : v.level ≤ (t.proc p).level)
    (hr : (t.proc p).state = .RUNNING → v.state = .RUNNING ∧ v.level = (t.proc p).level) :
    Steady t (t.setProc p v) :=
  ⟨.setProc hl, Ptable.forall_setProc (P := fun q v => (t.proc q).state = .RUNNING →
    v.state = .RUNNING ∧ v.level = (t.proc q).level) hr fun _ _ h => ⟨h, rfl⟩⟩

theorem setProc_idle (hl : v.level ≤ (t.proc p).level) (hp : (t.proc p).state ≠ .RUNNING) :
    Steady t (t.setProc p v) := setProc hl fun h => absurd h hp

theorem setRunnable (hp : (t.proc p).state ≠ .RUNNING) : Steady t (t.setRunnable p) :=
  have h : Steady t (t.setProc p { t.proc p with state := .RUNNABLE }) := setProc_idle le_rfl hp
  ⟨.setRunnable, h.running⟩

theorem allocproc (h : allocproc t = some (p, u)) : Steady t u ∧ (u.proc p).state = .EMBRYO := by
  obtain ⟨p', hp, heq⟩ := Option.map_eq_some_iff.mp h
  obtain ⟨rfl, rfl⟩ := Prod.mk.inj heq
  have hun : (t.proc p').state = .UNUSED := by simpa using (find_slots_eq_some.mp hp).1
  have hs : Steady t (t.setProc p' { t.proc p' with
      state := .EMBRYO, pid := t.nextpid, priority := 0, extime := 0, level := 0 }) :=
    setProc_idle (Nat.zero_le _) (by simp [hun])
  exact ⟨⟨⟨hs.heads, hs.level⟩, hs.running⟩, by simp⟩

theorem userinit (h : userinit t = some u) : Steady t u := by
  obtain ⟨⟨p, t1⟩, h1, rfl⟩ := Option.map_eq_some_iff.mp h
  obtain ⟨hs, he⟩ := allocproc h1
  have hi : Steady t1 { t1 with initproc := some p } :=
    ⟨⟨rfl, fun _ => le_rfl⟩, fun _ h => ⟨h, rfl⟩⟩
  exact (hs.trans hi).trans (setRunnable (by simp [he]))

theorem freeEmbryo (h : (t.proc p).state = .EMBRYO) : Steady t (freeEmbryo t p) :=
  setProc_idle le_rfl (by simp [h])

theorem forkDone (h : (t.proc p).state = .EMBRYO) : Steady t (forkDone t curproc p) := by
  have hp : Steady t (t.setProc p { t.proc p with parent := some curproc }) :=
    setProc_idle le_rfl (by simp [h])
  exact hp.trans (setRunnable (by simp [h]))

theorem reap (h : (t.proc p).state = .ZOMBIE) : Steady t (reap t p) :=
  setProc_idle le_rfl (by simp [h])

end Steady

/-- An entry of `heads` is not at a level above that of its process. -/
def HeadsBelow (t : Ptable) : Prop := ∀ l q, t.heads l = some q → (t.proc q).level ≤ l

theorem HeadsBelow.lowers (h : HeadsBelow t) (hu : Lowers t u) : HeadsBelow u :=
  fun l q hq => (hu.level q).trans (h l q (hu.heads ▸ hq))

theorem HeadsBelow.dispatch (h : HeadsBelow t) : HeadsBelow (dispatch t p) := by
  have hlevel : ∀ q, ((Mlfq.dispatch t p).proc q).level = (t.proc q).level :=
    Ptable.forall_setProc (P := fun q v => v.level = (t.proc q).level) rfl fun _ _ => rfl
  have hheads : (Mlfq.dispatch t p).heads = Function.update t.heads (t.proc p).level (some p) := rfl
  intro l q hq
  rw [hlevel]
  rw [hheads] at hq
  by_cases hl : l = (t.proc p).level
  · rw [hl, Function.update_self] at hq
    cases hq
    exact hl.ge
  · rw [Function.update_of_ne hl] at hq
    exact h l q hq

theorem expire_heads : (expire K t p).heads = Function.update t.heads (t.proc p).level none := by
  simp only [expire]
  split
  · rfl
  · split <;> rfl

theorem expire_proc_of_ne (h : q ≠ p) : (expire K t p).proc q = t.proc q := by
  simp only [expire]
  split
  · exact Ptable.setProc_proc_of_ne h
  · split <;> exact Ptable.setProc_proc_of_ne h

theorem expire_level_le : ((expire K t p).proc p).level ≤ (t.proc p).level + 1 := by
  simp only [expire]
  split <;> simp

/-- A process goes down a level only when its entry is cleared. -/
theorem HeadsBelow.expire (h : HeadsBelow t) : HeadsBelow (expire K t p) := by
  intro l q hq
  have hl : l ≠ (t.proc p).level := by
    rintro rfl
    simp [expire_heads] at hq
  rw [expire_heads, Function.update_of_ne hl] at hq
  by_cases hqp : q = p
  · subst hqp
    have hle := h l q hq
    have := expire_level_le (K := K) (t := t) (p := q)
    omega
  · rw [expire_proc_of_ne hqp]
    exact h l q hq

theorem HeadsBelow.degrade (h : HeadsBelow t) (hd : degrade K t o = some u) : HeadsBelow u := by
  unfold Mlfq.degrade at hd
  split at hd
  · cases hd; exact h
  · next p =>
    have h0 : HeadsBelow (t.setProc p { t.proc p with extime := (t.proc p).extime + 1 }) :=
      h.lowers (.setProc le_rfl)
    simp only at hd
    split at hd
    · cases hd
    split at hd
    · cases hd; exact h0.expire
    · cases hd; exact h0

theorem HeadsBelow.tickTab (h : HeadsBelow t) (ticks : UInt32) : HeadsBelow (tickTab ticks t) := by
  refine HeadsBelow.lowers ?_ (Steady.of_woken .wakeup1).toLowers
  split
  · exact h.lowers .boost
  · exact h

theorem tickTab_running (h : (t.proc p).state = .RUNNING) :
    ((tickTab ticks t).proc p).state = .RUNNING := by
  refine ((Steady.of_woken .wakeup1).running p ?_).1
  split
  · exact ((Upkeep.boost one_pos).state_eq (by simp [h])).trans h
  · exact h

theorem resetLevel_level : ((resetLevel t p).proc p).level = 0 := by simp [resetLevel]

theorem resetLevel_state : ((resetLevel t p).proc p).state = (t.proc p).state := by
  simp only [resetLevel, Ptable.setProc_proc_self]
  split <;> rfl

/-! ## The running process -/

/-- The process of the CPU runs. While a timer interrupt may find it, it is the entry at its level
unless `rst` has moved it, in which case it is at level 0 and not the entry there. -/
structure UniInv (s : Uni) : Prop where
  below : HeadsBelow s.tab
  idle : s.searching = true → s.proc = none
  running : ∀ p, s.proc = some p → (s.tab.proc p).state = .RUNNING
  head : ∀ p, s.proc = some p → s.intr = true → s.moved = false →
    s.tab.heads (s.tab.proc p).level = some p
  gone : ∀ p, s.proc = some p → s.intr = true → s.moved = true →
    (s.tab.proc p).level = 0 ∧ s.tab.heads 0 ≠ some p

namespace UniInv

theorem boot : UniInv .boot where
  below _ _ h := nomatch h
  idle h := nomatch h
  running _ h := nomatch h
  head _ h := nomatch h
  gone _ h := nomatch h

/-- Sections that leave the running process alone. -/
theorem setTab (h : UniInv s) (hu : Steady s.tab u) : UniInv (s.setTab u) where
  below := h.below.lowers hu.toLowers
  idle := h.idle
  running p hp := (hu.running p (h.running p hp)).1
  head p hp hi hm := by
    simp only [Uni.setTab, hu.heads, (hu.running p (h.running p hp)).2]
    exact h.head p hp hi hm
  gone p hp hi hm := by
    simp only [Uni.setTab, hu.heads, (hu.running p (h.running p hp)).2]
    exact h.gone p hp hi hm

/-- Without a process on the CPU only the table matters. -/
theorem of_none (hb : HeadsBelow s.tab) (hp : s.proc = none) : UniInv s where
  below := hb
  idle _ := hp
  running _ h := by rw [hp] at h; cases h
  head _ h := by rw [hp] at h; cases h
  gone _ h := by rw [hp] at h; cases h

theorem swtch (h : UniInv s) : UniInv (s.swtch p) where
  below := h.below.dispatch.lowers (.setProc le_rfl)
  idle h := nomatch h
  running q hq := by
    cases hq
    simp [Uni.swtch, dispatch]
  head q hq _ _ := by
    cases hq
    simp [Uni.swtch, dispatch, Ptable.setHead]
  gone _ _ _ h := nomatch h

theorem searchStep (h : UniInv s) (hs : s.searching = true) : UniInv (s.searchStep K) := by
  unfold Uni.searchStep
  split
  · exact of_none h.below (h.idle hs)
  · exact h.swtch
  · exact of_none h.below (h.idle hs)

theorem rst (h : UniInv s) (hn : s.searching = false) (hp : s.proc = some p) : UniInv { s with
      tab := Mlfq.rst s.tab p, moved := s.moved || (s.tab.proc p).level != 0 } where
  below := h.below.lowers .resetLevel
  idle hs := by cases hn.symm.trans hs
  running q hq := by
    cases hp.symm.trans hq
    exact resetLevel_state.trans (h.running p hp)
  head q hq hi hm := by
    cases hp.symm.trans hq
    simp only [Bool.or_eq_false_iff, bne_eq_false_iff_eq] at hm
    have hh := h.head p hp hi hm.1
    rw [hm.2] at hh
    simpa only [Mlfq.rst, resetLevel_level, Lowers.resetLevel.heads] using hh
  gone q hq hi hm := by
    cases hp.symm.trans hq
    simp only [Mlfq.rst, Lowers.resetLevel.heads]
    refine ⟨resetLevel_level, fun h0 => ?_⟩
    have hle := h.below 0 p h0
    simp only [Bool.or_eq_true, bne_iff_ne] at hm
    rcases hm with hm | hm
    · exact (h.gone p hp hi hm).2 h0
    · omega

theorem timer (h : UniInv s) (hn : s.searching = false)
    (hd : Mlfq.degrade K s.tab s.proc = some u) : UniInv (s.timerRest user u) := by
  -- the process leaves the CPU or runs on with interrupts off, so only the table matters
  have hb := (h.below.degrade hd).tickTab (s.ticks + 1)
  have hrun : ∀ p, s.proc = some p → ((tickTab (s.ticks + 1) u).proc p).state = .RUNNING := by
    intro p hp
    have hs : (s.tab.proc p).state = .RUNNING := h.running p hp
    exact tickTab_running (((Upkeep.degrade hd).state_eq (by simp [hs])).trans hs)
  simp only [Uni.timerRest]
  split
  · next hp => exact of_none hb hp
  · next p hp =>
    rw [if_pos (hrun p hp)]
    split
    · refine ⟨hb, fun hs => ?_, hrun, nofun, nofun⟩
      cases hn.symm.trans hs
    · exact of_none (hb.lowers .setRunnable) rfl

theorem sched (h : UniInv s) (hu : Lowers s.tab u) : UniInv (s.sched u) :=
  of_none (h.below.lowers hu) rfl

theorem locked (h : UniInv s) (hn : s.searching = false) (hs : s.locked K a = some s') :
    UniInv s' := by
  cases a with
  | userinit =>
    simp only [Uni.locked] at hs
    split at hs
    · obtain ⟨u, hu, rfl⟩ := Option.map_eq_some_iff.mp hs
      exact h.setTab (.userinit hu)
    · cases hs
  | acquire =>
    simp only [Uni.locked] at hs
    split at hs
    · next hp => cases hs; exact of_none h.below hp
    · cases hs
  | search => cases hs
  | timer user =>
    simp only [Uni.locked] at hs
    split at hs
    · obtain ⟨u, hu, rfl⟩ := Option.map_eq_some_iff.mp hs
      exact h.timer hn hu
    · cases hs
  | rst =>
    obtain ⟨p, hp, rfl⟩ := Option.map_eq_some_iff.mp hs
    exact h.rst hn hp
  | yield =>
    obtain ⟨p, hp, rfl⟩ := Option.map_eq_some_iff.mp hs
    exact h.sched .setRunnable
  | sleep chan =>
    obtain ⟨p, hp, rfl⟩ := Option.map_eq_some_iff.mp hs
    exact h.sched (.setProc le_rfl)
  | wakeup chan => cases hs; exact h.setTab (.of_woken .wakeup1)
  | kill pid => cases hs; exact h.setTab (.of_woken .kill)
  | allocproc =>
    obtain ⟨p, hp, hs⟩ := Option.bind_eq_some_iff.mp hs
    obtain ⟨⟨np, u⟩, hu, rfl⟩ := Option.map_eq_some_iff.mp hs
    exact h.setTab (Steady.allocproc hu).1
  | forkFail np =>
    simp only [Uni.locked] at hs
    split at hs
    · next he => cases hs; exact h.setTab (.freeEmbryo he)
    · cases hs
  | forkDone np =>
    obtain ⟨p, hp, hs⟩ := Option.bind_eq_some_iff.mp hs
    split at hs
    · next he => cases hs; exact h.setTab (.forkDone he)
    · cases hs
  | exit =>
    obtain ⟨p, hp, hs⟩ := Option.bind_eq_some_iff.mp hs
    split at hs
    · cases hs
    · cases hs
      exact h.sched ((Steady.of_woken (.trans .wakeup1 .reparent)).toLowers.trans
        (.setProc le_rfl))
  | wait =>
    obtain ⟨p, hp, rfl⟩ := Option.map_eq_some_iff.mp hs
    rcases wait_cases s.tab p with ⟨q, hz, e⟩ | e | e <;> rw [e]
    · exact h.setTab (.reap hz)
    · exact h
    · exact h.sched (.setProc le_rfl)
  | setpriority pid priority =>
    obtain ⟨p, hp, rfl⟩ := Option.map_eq_some_iff.mp hs
    exact h.setTab (.of_woken .setpriority)

end UniInv

theorem uniInv : (uniprocessor K).Invariant (fun _ _ => True) UniInv where
  init h := by obtain rfl := h; exact .boot
  step {s a s'} h _ hs := by
    simp only [uniprocessor, Uni.next] at hs
    split at hs
    · simp only [Option.ite_none_right_eq_some, Option.some.injEq] at hs
      obtain ⟨hc, rfl⟩ := hs
      exact h.searchStep hc
    · simp only [Option.ite_none_left_eq_some, Bool.not_eq_true] at hs
      exact h.locked hs.1 hs.2

theorem degrade_eq_none : degrade K t (some p) = none ↔ t.heads (t.proc p).level ≠ some p := by
  simp only [degrade, Ptable.setProc_heads, Ptable.setProc_proc_self]
  split
  · next h => exact iff_of_true rfl h
  · next h =>
    refine iff_of_false ?_ h
    split <;> nofun

/-- At every timer interrupt the running process is the entry of `heads` at its level exactly if
`rst` has not moved it since its dispatch; if it has, `degrade` panics. -/
theorem heads_level_iff {s : Uni} (hs : (uniprocessor K).Reached s) (hr : s.TimerReady)
    (hp : s.proc = some p) :
    (s.tab.heads (s.tab.proc p).level = some p ↔ s.moved = false) ∧
      (degrade K s.tab s.proc = none ↔ s.moved = true) := by
  have h := uniInv.of_reached hs
  have hiff : s.tab.heads (s.tab.proc p).level = some p ↔ s.moved = false := by
    cases hm : s.moved with
    | false => simpa using h.head p hp hr.2 hm
    | true =>
      obtain ⟨h0, hne⟩ := h.gone p hp hr.2 hm
      simpa [h0] using hne
  refine ⟨hiff, ?_⟩
  rw [hp, degrade_eq_none, ne_eq, hiff, Bool.not_eq_false]

/-- The first tick finds init as it was dispatched. -/
theorem heads_level_iff_init : ∃ s : Uni, s.TimerReady ∧ s.proc = some 0 ∧
    (s.tab.heads (s.tab.proc 0).level = some 0 ↔ s.moved = false) ∧
      (degrade 3 s.tab s.proc = none ↔ s.moved = true) := by
  obtain ⟨s, hs, hp⟩ := (uniprocessor 3).exists_reached_of_run (s := .boot)
    [.userinit, .acquire, .search] (fun s => s.TimerReady ∧ s.proc = some 0) rfl
    (by decide +kernel)
  simp only [decide_eq_true_eq] at hp
  exact ⟨s, hp.1, hp.2, heads_level_iff hs hp.1 hp.2⟩

/-- Two ticks use up the time of init at level 0; it is dispatched at level 1 and calls
`sleep(0)`. -/
def sleepZeroRun : List UniAct :=
  ([.userinit, .acquire, .search, .timer true] : List UniAct) ++
    List.replicate 65 (.search : UniAct) ++ ([.timer true] : List UniAct) ++
    List.replicate 65 (.search : UniAct) ++ ([.rst] : List UniAct)

/-- The next tick panics. -/
theorem sleepZero_panics : ∃ s : Uni, (uniprocessor 3).Reached s ∧ s.TimerReady ∧
    s.proc = some 0 ∧ s.tab.heads (s.tab.proc 0).level ≠ some 0 ∧
    degrade 3 s.tab s.proc = none := by
  obtain ⟨s, hs, hp⟩ := (uniprocessor 3).exists_reached_of_run (s := .boot) sleepZeroRun
    (fun s => s.TimerReady ∧ s.proc = some 0 ∧ s.tab.heads (s.tab.proc 0).level ≠ some 0) rfl
    (by decide +kernel)
  simp only [decide_eq_true_eq] at hp
  exact ⟨s, hs, hp.1, hp.2.1, hp.2.2, by rw [hp.2.1]; exact degrade_eq_none.mpr hp.2.2⟩

end Xv6.Mlfq
