import Xv6.Mlfq.Machine

/-! # The counters of runnable processes

`numproc` is kept by hand at every change of a state or a level. `excess t l` is the amount by
which it is wrong at level `l`; each assignment changes it by a known amount, and each operation
of the table leaves it alone. -/

namespace Xv6.Mlfq

open Function

variable {K n l m : Nat} {p q : Slot}

/-- How far `numproc[l]` is above the number of runnable processes of level `l`. -/
def excess (t : Ptable) (l : Nat) : Int := t.numproc l - runnableCount t l

theorem counted_iff : Counted K t ↔ ∀ l < K, excess t l = 0 := by
  simp only [Counted, excess, sub_eq_zero]

/-- One process as it counts towards level `l`. -/
def weight (v : Proc) (l : Nat) : Int := Table.ind (v.state = .RUNNABLE ∧ v.level = l)

theorem weight_of_ne (h : v.state ≠ .RUNNABLE) : weight v l = 0 := by simp [weight, h]

theorem weight_of_eq (h : v.state = .RUNNABLE) : weight v l = if v.level = l then 1 else 0 := by
  by_cases hl : v.level = l <;> simp [weight, h, hl]

theorem excess_setProc :
    excess (t.setProc p v) l = excess t l + weight (t.proc p) l - weight v l := by
  simp only [excess, runnableCount, Ptable.setProc_proc, Ptable.setProc_numproc,
    Table.count_update, weight]
  omega

theorem excess_addNum : excess (t.addNum m d) l = excess t l + if m = l then d else 0 := by
  simp only [excess, runnableCount, Ptable.addNum, update_apply, eq_comm (a := l)]
  split
  · subst m; omega
  · omega

theorem excess_setHead : excess (t.setHead m h) l = excess t l := rfl

/-- Fields other than the state and the level do not count. -/
theorem excess_setProc_same (hs : v.state = (t.proc p).state) (hl : v.level = (t.proc p).level) :
    excess (t.setProc p v) l = excess t l := by
  simp only [excess_setProc, weight, hs, hl]
  omega

/-- A process that is not runnable before and after does not count. -/
theorem excess_setProc_idle (ho : (t.proc p).state ≠ .RUNNABLE) (hn : v.state ≠ .RUNNABLE) :
    excess (t.setProc p v) l = excess t l := by
  simp only [excess_setProc, weight_of_ne ho, weight_of_ne hn]
  omega

theorem excess_setRunnable (h : (t.proc p).state ≠ .RUNNABLE) :
    excess (t.setRunnable p) l = excess t l := by
  simp only [Ptable.setRunnable, excess_addNum, excess_setProc, weight_of_ne h,
    weight_of_eq (v := { t.proc p with state := .RUNNABLE }) rfl]
  omega

theorem excess_dispatch (h : (t.proc p).state = .RUNNABLE) :
    excess (dispatch t p) l = excess t l := by
  simp only [dispatch, excess_addNum, excess_setProc, excess_setHead, Ptable.setHead_proc,
    weight_of_eq h, weight_of_ne (v := { t.proc p with state := .RUNNING }) nofun]
  split <;> omega

theorem excess_resetLevel : excess (resetLevel t p) l = excess t l := by
  unfold resetLevel
  split
  · next h =>
    simp only [excess_setProc, excess_addNum, Ptable.addNum_proc, weight_of_eq h,
      weight_of_eq (v := { t.proc p with level := 0, extime := 0 }) h]
    split <;> split <;> omega
  · next h => exact excess_setProc_idle h h

theorem excess_expire : excess (expire K t p) l = excess t l := by
  simp only [expire]
  split
  · exact excess_setProc_same rfl rfl
  split
  · next h =>
    simp only [Ptable.setHead_proc] at h
    simp only [excess_setProc, excess_addNum, excess_setHead, Ptable.addNum_proc,
      Ptable.setHead_proc, weight_of_eq h,
      weight_of_eq (v := { t.proc p with extime := 0, level := (t.proc p).level + 1 }) h]
    split <;> split <;> omega
  · next h => exact excess_setProc_idle h h

/-! ## Operations that only wake processes -/

theorem woken_trans {a b c : ProcState} (h : b = a ∨ a = .SLEEPING ∧ b = .RUNNABLE)
    (h' : c = b ∨ b = .SLEEPING ∧ c = .RUNNABLE) : c = a ∨ a = .SLEEPING ∧ c = .RUNNABLE := by
  rcases h with rfl | ⟨rfl, rfl⟩
  · exact h'
  · exact .inr ⟨rfl, h'.resolve_right fun h => by cases h.1⟩

/-- The process is at most woken. -/
structure Proc.Wakes (v w : Proc) : Prop where
  level : w.level = v.level
  extime : w.extime = v.extime
  state : w.state = v.state ∨ v.state = .SLEEPING ∧ w.state = .RUNNABLE

theorem Proc.Wakes.refl : Proc.Wakes v v := ⟨rfl, rfl, .inl rfl⟩

/-- From `t` to `u` processes are at most woken, and counted. -/
structure Woken (t u : Ptable) : Prop where
  heads : u.heads = t.heads
  excess : ∀ l, excess u l = excess t l
  proc : ∀ q, (t.proc q).Wakes (u.proc q)

namespace Woken

theorem refl : Woken t t := ⟨rfl, fun _ => rfl, fun _ => .refl⟩

theorem trans (h : Woken t u) (h' : Woken u t') : Woken t t' :=
  ⟨h'.heads.trans h.heads, fun l => (h'.excess l).trans (h.excess l), fun q =>
    ⟨(h'.proc q).level.trans (h.proc q).level, (h'.proc q).extime.trans (h.proc q).extime,
      woken_trans (h.proc q).state (h'.proc q).state⟩⟩

theorem foldl (hf : ∀ t p, Woken t (f t p)) (ps : List Slot) : Woken t (ps.foldl f t) :=
  Table.foldl_inv ps (fun u p hu => hu.trans (hf u p)) refl

theorem setProc (hs : v.state = (t.proc p).state) (hl : v.level = (t.proc p).level)
    (he : v.extime = (t.proc p).extime) : Woken t (t.setProc p v) :=
  ⟨rfl, fun _ => excess_setProc_same hs hl,
    Ptable.forall_setProc (P := fun q => (t.proc q).Wakes) ⟨hl, he, .inl hs⟩ fun _ _ => .refl⟩

theorem setRunnable (h : (t.proc p).state = .SLEEPING) : Woken t (t.setRunnable p) :=
  ⟨rfl, fun _ => excess_setRunnable (by simp [h]),
    Ptable.forall_setProc (P := fun q => (t.proc q).Wakes) ⟨rfl, rfl, .inr ⟨h, rfl⟩⟩
      fun _ _ => .refl⟩

theorem wakeup1 : Woken t (wakeup1 t chan) := by
  refine foldl (fun t p => ?_) slots
  unfold wakeupOne
  split
  · next h => exact setRunnable h.1
  · exact refl

theorem reparent : Woken t (slots.foldl (reparentOne curproc) t) := by
  refine foldl (fun t p => ?_) slots
  simp only [reparentOne]
  split
  · have h : Woken t (t.setProc p { t.proc p with parent := t.initproc }) := setProc rfl rfl rfl
    split
    · exact h.trans wakeup1
    · exact h
  · exact refl

theorem kill : Woken t (kill t pid) := by
  unfold Mlfq.kill
  split
  · next p _ =>
    have h : Woken t (t.setProc p { t.proc p with killed := true }) := setProc rfl rfl rfl
    simp only
    split
    · next hs => exact h.trans (setRunnable hs)
    · exact h
  · exact refl

theorem setpriority : Woken t (setpriority t p pid priority).2 := by
  unfold Mlfq.setpriority
  split
  · exact refl
  split
  · exact setProc rfl rfl rfl
  · exact refl

end Woken

/-- `numproc` is right, and every level is in range. -/
structure Good (K : Nat) (t : Ptable) : Prop where
  counted : Counted K t
  level_lt : ∀ p, (t.proc p).level < K

theorem Good.of_excess (h : Good K t) (he : ∀ l, excess u l = excess t l)
    (hl : ∀ p, (u.proc p).level < K) : Good K u :=
  ⟨counted_iff.mpr fun l hlt => (he l).trans (counted_iff.mp h.counted l hlt), hl⟩

/-- From `t` to `u` the table stays good, and states change only by waking sleepers. -/
structure Upkeep (K : Nat) (t u : Ptable) : Prop where
  good : Good K t → Good K u
  state : ∀ q, (u.proc q).state = (t.proc q).state ∨
    (t.proc q).state = .SLEEPING ∧ (u.proc q).state = .RUNNABLE

namespace Upkeep

theorem of_woken (h : Woken t u) : Upkeep K t u :=
  ⟨fun hg => hg.of_excess h.excess fun p => (h.proc p).level ▸ hg.level_lt p,
    fun q => (h.proc q).state⟩

theorem refl : Upkeep K t t := of_woken .refl

theorem trans (h : Upkeep K t u) (h' : Upkeep K u t') : Upkeep K t t' :=
  ⟨h'.good ∘ h.good, fun q => woken_trans (h.state q) (h'.state q)⟩

/-- A process that does not sleep keeps its state. -/
theorem state_eq (h : Upkeep K t u) (hq : (t.proc q).state ≠ .SLEEPING) :
    (u.proc q).state = (t.proc q).state :=
  (h.state q).resolve_right fun e => hq e.1

theorem setProc_same (hs : v.state = (t.proc p).state) (hl : v.level = (t.proc p).level) :
    Upkeep K t (t.setProc p v) where
  good h := h.of_excess (fun _ => excess_setProc_same hs hl) <|
    Ptable.forall_setProc (P := fun _ v => v.level < K) (hl ▸ h.level_lt p) fun q _ => h.level_lt q
  state := Ptable.forall_setProc (P := fun q v => v.state = (t.proc q).state ∨ _ ∧ v.state = _)
    (.inl hs) fun _ _ => .inl rfl

theorem resetLevel (hK : 0 < K) : Upkeep K t (resetLevel t p) where
  good h := h.of_excess (fun _ => excess_resetLevel) fun q => by
    simp only [Mlfq.resetLevel]
    refine Ptable.forall_setProc (P := fun _ v => v.level < K) hK (fun q _ => ?_) q
    split <;> exact h.level_lt q
  state q := by
    simp only [Mlfq.resetLevel]
    refine Ptable.forall_setProc (P := fun q v => v.state = (t.proc q).state ∨ _ ∧ v.state = _)
      ?_ (fun q _ => ?_) q <;> split <;> exact .inl rfl

theorem boost (hK : 0 < K) : Upkeep K t (boost t) := by
  refine Table.foldl_inv slots (fun u p hu => hu.trans ?_) refl
  unfold boostOne
  split
  · exact resetLevel hK
  · exact refl

theorem expire : Upkeep K t (expire K t p) where
  good h := h.of_excess (fun _ => excess_expire) fun q => by
    have hp := h.level_lt p
    simp only [Mlfq.expire]
    split
    · refine Ptable.forall_setProc (P := fun _ v => v.level < K) ?_ (fun q _ => ?_) q
      · exact hp
      · exact h.level_lt q
    · refine Ptable.forall_setProc (P := fun _ v => v.level < K) ?_ (fun q _ => ?_) q
      · simp only; omega
      · split <;> exact h.level_lt q
  state q := by
    simp only [Mlfq.expire]
    split
    · refine Ptable.forall_setProc (P := fun q v => v.state = (t.proc q).state ∨ _ ∧ v.state = _)
        ?_ (fun q _ => ?_) q <;> exact .inl rfl
    · refine Ptable.forall_setProc (P := fun q v => v.state = (t.proc q).state ∨ _ ∧ v.state = _)
        ?_ (fun q _ => ?_) q <;> split <;> exact .inl rfl

theorem degrade {p : Option Slot} (h : degrade K t p = some u) : Upkeep K t u := by
  unfold Mlfq.degrade at h
  split at h
  · cases h; exact refl
  · next p =>
    have h0 : Upkeep K t (t.setProc p { t.proc p with extime := (t.proc p).extime + 1 }) :=
      setProc_same rfl rfl
    simp only at h
    split at h
    · cases h
    split at h
    · cases h; exact h0.trans expire
    · cases h; exact h0

end Upkeep

/-! ## Operations that move one process -/

/-- From `t` to `u` the table stays good, and processes other than `p` are at most woken. -/
structure Moves (K : Nat) (t u : Ptable) (p : Slot) : Prop where
  good : Good K t → Good K u
  state : ∀ q ≠ p, (u.proc q).state = (t.proc q).state ∨
    (t.proc q).state = .SLEEPING ∧ (u.proc q).state = .RUNNABLE

theorem Upkeep.moves (h : Upkeep K t u) : Moves K t u p := ⟨h.good, fun q _ => h.state q⟩

namespace Moves

theorem trans (h : Moves K t u p) (h' : Moves K u t' p) : Moves K t t' p :=
  ⟨h'.good ∘ h.good, fun q hq => woken_trans (h.state q hq) (h'.state q hq)⟩

/-- A process other than `p` that runs goes on running. -/
theorem running (h : Moves K t u p) (hq : q ≠ p) (hr : (t.proc q).state = .RUNNING) :
    (u.proc q).state = .RUNNING := by
  rcases h.state q hq with e | ⟨e, _⟩
  · exact e.trans hr
  · rw [hr] at e; cases e

theorem setProc_idle (ho : (t.proc p).state ≠ .RUNNABLE) (hn : v.state ≠ .RUNNABLE)
    (hl : (t.proc p).level < K → v.level < K) : Moves K t (t.setProc p v) p where
  good h := h.of_excess (fun _ => excess_setProc_idle ho hn) <|
    Ptable.forall_setProc (P := fun _ v => v.level < K) (hl (h.level_lt p)) fun q _ => h.level_lt q
  state _ hq := .inl (by rw [Ptable.setProc_proc_of_ne hq])

theorem setRunnable (h : (t.proc p).state ≠ .RUNNABLE) : Moves K t (t.setRunnable p) p where
  good hg := hg.of_excess (fun _ => excess_setRunnable h) <|
    Ptable.forall_setProc (P := fun _ v => v.level < K) (hg.level_lt p) fun q _ => hg.level_lt q
  state _ hq := .inl (congrArg Proc.state (Ptable.setProc_proc_of_ne hq))

theorem dispatch (h : (t.proc p).state = .RUNNABLE) : Moves K t (dispatch t p) p where
  good hg := hg.of_excess (fun _ => excess_dispatch h) <|
    Ptable.forall_setProc (P := fun _ v => v.level < K) (hg.level_lt p) fun q _ => hg.level_lt q
  state _ hq := .inl (congrArg Proc.state (Ptable.setProc_proc_of_ne hq))

theorem allocproc (hK : 0 < K) (h : allocproc t = some (p, u)) :
    (t.proc p).state = .UNUSED ∧ (u.proc p).state = .EMBRYO ∧ Moves K t u p := by
  obtain ⟨p', hp, heq⟩ := Option.map_eq_some_iff.mp h
  obtain ⟨rfl, rfl⟩ := Prod.mk.inj heq
  have hun : (t.proc p').state = .UNUSED := by simpa using (find_slots_eq_some.mp hp).1
  refine ⟨hun, by simp, ?_⟩
  have hm : Moves K t (t.setProc p' { t.proc p' with
      state := .EMBRYO, pid := t.nextpid, priority := 0, extime := 0, level := 0 }) p' :=
    setProc_idle (by simp [hun]) nofun fun _ => hK
  exact ⟨fun hg => ⟨(hm.good hg).counted, (hm.good hg).level_lt⟩, hm.state⟩

theorem freeEmbryo (h : (t.proc p).state = .EMBRYO) : Moves K t (freeEmbryo t p) p :=
  setProc_idle (by simp [h]) nofun id

theorem forkDone (h : (t.proc p).state = .EMBRYO) : Moves K t (forkDone t curproc p) p := by
  have hp : Upkeep K t (t.setProc p { t.proc p with parent := some curproc }) :=
    Upkeep.setProc_same rfl rfl
  exact hp.moves.trans (setRunnable (by simp [h]))

theorem userinit (hK : 0 < K) (h : userinit t = some u) :
    ∃ p, (t.proc p).state = .UNUSED ∧ Moves K t u p := by
  obtain ⟨⟨p, t1⟩, h1, rfl⟩ := Option.map_eq_some_iff.mp h
  obtain ⟨hun, hem, hm⟩ := allocproc hK h1
  refine ⟨p, hun, hm.trans ?_⟩
  have hi : Moves K t1 { t1 with initproc := some p } p :=
    ⟨fun hg => ⟨hg.counted, hg.level_lt⟩, fun _ _ => .inl rfl⟩
  exact hi.trans (setRunnable (by simp [hem]))

theorem sleep (h : (t.proc p).state = .RUNNING) : Moves K t (sleep t p chan) p :=
  setProc_idle (by simp [h]) nofun id

theorem yield (h : (t.proc p).state = .RUNNING) : Moves K t (yield t p) p :=
  setRunnable (by simp [h])

theorem exit (h : (t.proc p).state = .RUNNING) : Moves K t (exit t p) p := by
  have h1 : Upkeep K t (slots.foldl (reparentOne p) (wakeup1 t ((t.proc p).parent.map .proc))) :=
    .of_woken (.trans .wakeup1 .reparent)
  have hs := (h1.state_eq (q := p) (by simp [h])).trans h
  exact h1.moves.trans (setProc_idle (fun e => nomatch hs.symm.trans e) nofun id)

theorem reap (h : (t.proc p).state = .ZOMBIE) : Moves K t (reap t p) p :=
  setProc_idle (by simp [h]) nofun id

end Moves

/-! ## The machine -/

/-- The table is good, the process of a CPU runs, on that CPU only, and a CPU whose scheduler
holds the lock has no process. -/
structure MachineInv (K : Nat) (m : Machine n) : Prop where
  good : Good K m.tab
  running : ∀ c p, (m.cpu c).proc = some p → (m.tab.proc p).state = .RUNNING
  distinct : ∀ c c' p, (m.cpu c).proc = some p → (m.cpu c').proc = some p → c = c'
  holder : ∀ c, m.holder = some c → (m.cpu c).proc = none

namespace MachineInv

variable {m : Machine n}

theorem boot (hK : 0 < K) : MachineInv K (.boot : Machine n) where
  good := ⟨fun l _ => (runnableCount_eq_zero fun p h => by cases h.1).symm, fun _ => hK⟩
  running _ _ h := nomatch h
  distinct _ _ _ h := nomatch h
  holder _ h := nomatch h

/-- A section that moves no running process. -/
theorem setTab (h : MachineInv K m) (hp : (m.tab.proc p).state ≠ .RUNNING)
    (hm : Moves K m.tab u p) : MachineInv K (m.setTab u) where
  good := hm.good h.good
  running c q hq := hm.running (fun e => hp (e ▸ h.running c q hq)) (h.running c q hq)
  distinct := h.distinct
  holder := h.holder

theorem upkeep (h : MachineInv K m) (hu : Upkeep K m.tab u) : MachineInv K (m.setTab u) where
  good := hu.good h.good
  running c q hq := by
    rw [← h.running c q hq]
    exact hu.state_eq (by simp [h.running c q hq])
  distinct := h.distinct
  holder := h.holder

/-- A section of the process on `c` that ends in `sched`. -/
theorem sched (h : MachineInv K m) (hc : (m.cpu c).proc = some p) (hm : Moves K m.tab u p) :
    MachineInv K (m.sched c u) where
  good := hm.good h.good
  running c' q hq := by
    by_cases hcc : c' = c
    · subst hcc; simp [Machine.sched] at hq
    · simp only [Machine.sched, update_of_ne hcc] at hq
      have hne : q ≠ p := fun e => hcc (h.distinct c' c p (e ▸ hq) hc)
      exact hm.running hne (h.running c' q hq)
  distinct c₁ c₂ q h₁ h₂ := by
    by_cases h1 : c₁ = c <;> by_cases h2 : c₂ = c <;>
      simp_all [Machine.sched, update_of_ne]
    exact h.distinct _ _ _ h₁ h₂
  holder c' hc' := by
    simp only [Machine.sched, Option.some.injEq] at hc'
    subst hc'
    simp [Machine.sched]

/-- The scheduler of `c` goes on without a process. -/
theorem setCpu (h : MachineInv K m) (pos : Pos)
    (ho : ∀ c', o = some c' → c' ≠ c → (m.cpu c').proc = none) :
    MachineInv K { m with cpu := update m.cpu c ⟨none, pos⟩, holder := o } where
  good := h.good
  running c' q hq := by
    by_cases hcc : c' = c
    · subst hcc; simp at hq
    · simp only [update_of_ne hcc] at hq
      exact h.running c' q hq
  distinct c₁ c₂ q h₁ h₂ := by
    by_cases h1 : c₁ = c <;> by_cases h2 : c₂ = c <;> simp_all [update_of_ne]
    all_goals exact h.distinct _ _ _ h₁ h₂
  holder c' hc' := by
    by_cases hcc : c' = c
    · subst hcc; simp
    · simp only [update_of_ne hcc]
      exact ho c' hc' hcc

/-- A dispatch. -/
theorem swtch (h : MachineInv K m) (hp : (m.tab.proc p).state = .RUNNABLE) :
    MachineInv K (m.swtch c p) := by
  have ht : Upkeep K (dispatch m.tab p) (m.swtch c p).tab := by
    simp only [Machine.swtch]
    exact .setProc_same rfl rfl
  have hm := (Moves.dispatch hp).trans ht.moves
  have hoff : ∀ c', (m.cpu c').proc ≠ some p := fun c' hc' => by
    rw [h.running c' p hc'] at hp; cases hp
  refine ⟨hm.good h.good, fun c' q hq => ?_, fun c₁ c₂ q h₁ h₂ => ?_, fun _ hc' => nomatch hc'⟩
  · by_cases hcc : c' = c
    · subst hcc
      simp only [Machine.swtch, update_self, Option.some.injEq] at hq
      subst hq
      simp [Machine.swtch, dispatch]
    · simp only [Machine.swtch, update_of_ne hcc] at hq
      exact hm.running (fun e => hoff c' (e ▸ hq)) (h.running c' q hq)
  · by_cases h1 : c₁ = c <;> by_cases h2 : c₂ = c <;>
      simp only [Machine.swtch, h1, h2, update_self, update_of_ne, ne_eq,
        not_false_eq_true, Option.some.injEq] at h₁ h₂ ⊢
    · exact (hoff c₂ (h₁ ▸ h₂)).elim
    · exact (hoff c₁ (h₂ ▸ h₁)).elim
    · exact h.distinct _ _ _ h₁ h₂

/-- The sections that acquire the lock. -/
theorem step (hK : 0 < K) (h : MachineInv K m) {a : Act n} {m' : Machine n}
    (hs : m.Step K a m') : MachineInv K m' := by
  cases hs with
  | userinit hu =>
    obtain ⟨p, hp, hm⟩ := Moves.userinit hK hu
    exact h.setTab (by simp [hp]) hm
  | acquire => exact h.setCpu _ fun c' hc' hne => absurd (Option.some.inj hc').symm hne
  | allocproc hu =>
    obtain ⟨hun, -, hm⟩ := Moves.allocproc hK hu
    exact h.setTab (by simp [hun]) hm
  | forkFail hp => exact h.setTab (by simp [hp]) (.freeEmbryo hp)
  | forkDone hp => exact h.setTab (by simp [hp]) (.forkDone hp)
  | exit hc => exact h.sched hc (.exit (h.running _ _ hc))
  | reap hz => exact h.setTab (by simp [hz]) (.reap hz)
  | noChildren => exact h
  | waitSleeps hc | sleep hc => exact h.sched hc (.sleep (h.running _ _ hc))
  | yield hc => exact h.sched hc (.yield (h.running _ _ hc))
  | wakeup => exact h.upkeep (.of_woken .wakeup1)
  | kill => exact h.upkeep (.of_woken .kill)
  | setpriority => exact h.upkeep (.of_woken .setpriority)
  | rst => exact h.upkeep (.resetLevel hK)
  | degrade hu => exact h.upkeep (.degrade hu)
  | boost => exact h.upkeep (.boost hK)

theorem searchStep (h : MachineInv K m) (hc : m.holder = some c) :
    MachineInv K (m.searchStep K c) := by
  unfold Machine.searchStep
  split
  · exact h.setCpu _ fun c' hc' _ => h.holder c' hc'
  · next p hd => exact h.swtch (search_dispatch hd).2.1.1
  · have := h.setCpu (c := c) (o := none) (m.cpu c).pos nofun
    have hcpu : update m.cpu c ⟨none, (m.cpu c).pos⟩ = m.cpu :=
      update_eq_self_iff.mpr (by rw [← h.holder c hc])
    rwa [hcpu] at this

end MachineInv

theorem machineInv (hK : 0 < K) : (kernel K n).Invariant (fun _ _ => True) (MachineInv K) where
  init h := by obtain rfl := h; exact .boot hK
  step {m a m'} h _ hs := by
    simp only [kernel, Machine.next] at hs
    split at hs
    · simp only [Option.ite_none_right_eq_some, Option.some.injEq] at hs
      obtain ⟨hc, rfl⟩ := hs
      exact h.searchStep hc
    · simp only [Option.ite_none_right_eq_some] at hs
      exact h.step hK (.of_locked hs.2)

/-- In every reachable state `numproc[l]` is the number of runnable processes of level `l`. -/
theorem numproc_eq_card (hK : 1 ≤ K) {m : Machine n} (hm : (kernel K n).Reached m) :
    ∀ l < K, m.tab.numproc l = (Finset.univ.filter fun p => m.tab.RunnableAt l p).card := by
  intro l hl
  rw [((machineInv hK).of_reached hm).good.counted l hl, runnableCount, Table.count_eq_card]
  simp only [decide_eq_true_eq, Ptable.RunnableAt]
  congr

local instance neZero_one : NeZero 1 := ⟨by decide⟩

/-- init forks twice, gives its second child a higher priority, and goes to the next level. -/
def forksRun : List (Act 1) :=
  [.userinit, .acquire 0, .search 0, .allocproc 0, .forkDone 0 1, .allocproc 0, .forkDone 0 2,
    .setpriority 0 3 5, .degrade 0, .degrade 0, .yield 0]

theorem numproc_eq_card_forks : ∃ m : Machine 1, m.tab.numproc 0 = 2 ∧ m.tab.numproc 1 = 1 ∧
    ∀ l < 3, m.tab.numproc l = (Finset.univ.filter fun p => m.tab.RunnableAt l p).card := by
  obtain ⟨m, hm, hn⟩ := (kernel 3 1).exists_reached_of_run (s := .boot) forksRun
    (fun m => m.tab.numproc 0 = 2 ∧ m.tab.numproc 1 = 1) rfl (by decide +kernel)
  obtain ⟨h0, h1⟩ := of_decide_eq_true hn
  exact ⟨m, h0, h1, numproc_eq_card (by decide) hm⟩

/-- The process a search dispatches from a good table. -/
theorem Good.dispatch_best (hg : Good K t) (hd : search K t pos = .done (.dispatch p)) :
    (t.proc p).state = .RUNNABLE ∧
      ∀ q, (t.proc q).state = .RUNNABLE → (t.proc p).level ≤ (t.proc q).level ∧
        ((t.proc q).level = (t.proc p).level → (t.proc q).priority ≤ (t.proc p).priority) := by
  obtain ⟨hl, hp, hup, hhi⟩ := search_dispatch hd
  refine ⟨hp.1, fun q hq => ⟨?_, fun hql => ?_⟩⟩
  · by_contra hlt
    have hlt : (t.proc q).level < pos.level := hp.2 ▸ not_le.mp hlt
    have hpos : 0 < runnableCount t (t.proc q).level := runnableCount_pos ⟨hq, rfl⟩
    rw [← hg.counted _ (hg.level_lt q)] at hpos
    exact absurd (hup _ hlt) (not_le.mpr hpos)
  · rw [higher_eq hg.counted hl hp, find_slots_eq_none] at hhi
    have := hhi q
    rw [decide_eq_false_iff_not] at this
    exact not_lt.mp fun hgt => this ⟨⟨hq, hql.trans hp.2⟩, hgt⟩

/-- A dispatched process has the lowest level among the runnable ones, and the highest priority
among those of its level. -/
theorem dispatch_lowest_level (hK : 1 ≤ K) {m : Machine n} (hm : (kernel K n).Reached m)
    {c : Fin n} (hd : search K m.tab (m.cpu c).pos = .done (.dispatch p)) :
    (m.tab.proc p).state = .RUNNABLE ∧
      ∀ q, (m.tab.proc q).state = .RUNNABLE → (m.tab.proc p).level ≤ (m.tab.proc q).level ∧
        ((m.tab.proc q).level = (m.tab.proc p).level →
          (m.tab.proc q).priority ≤ (m.tab.proc p).priority) :=
  ((machineInv hK).of_reached hm).good.dispatch_best hd

/-- Past init, which is at the next level, and the first child, which has a lower priority. -/
theorem dispatch_lowest_level_forks : ∃ m : Machine 1,
    search 3 m.tab (m.cpu 0).pos = .done (.dispatch 2) ∧
      (m.tab.proc 2).level < (m.tab.proc 0).level ∧
      (m.tab.proc 1).priority < (m.tab.proc 2).priority ∧
      ∀ q, (m.tab.proc q).state = .RUNNABLE → (m.tab.proc 2).level ≤ (m.tab.proc q).level ∧
        ((m.tab.proc q).level = (m.tab.proc 2).level →
          (m.tab.proc q).priority ≤ (m.tab.proc 2).priority) := by
  obtain ⟨m, hm, hd⟩ := (kernel 3 1).exists_reached_of_run (s := .boot) (forksRun ++ [.search 0])
    (fun m => search 3 m.tab (m.cpu 0).pos = .done (.dispatch 2) ∧
      (m.tab.proc 2).level < (m.tab.proc 0).level ∧
      (m.tab.proc 1).priority < (m.tab.proc 2).priority) rfl (by decide +kernel)
  obtain ⟨hd, hl, hp⟩ := of_decide_eq_true hd
  exact ⟨m, hd, hl, hp, (dispatch_lowest_level (by decide) hm hd).2⟩

end Xv6.Mlfq
