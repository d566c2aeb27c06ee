import Xv6.Interleave.Sound

/-! # `exec` and the threads of its caller

`kill_threads_except` leaves the caller alone with its pid, as long as no slot that it has passed
is given that pid meanwhile. -/

namespace Xv6.Interleave

open Function Thread

variable {n : Nat} {m m' : State n} {c : Fin n} {p q np cp : Slot}
variable {pid : Int}

/-- `kill_threads_except(pid, ·)` is in progress and has passed the slot `q`. -/
def State.Passed (m : State n) (pid : Int) (q : Slot) : Prop :=
  ∃ cp, Live (m.tab.proc cp).state ∧ ∃ x, m.pc cp = .killThread pid x ∧ q < x ∧ q ≠ cp

/-- The pid that the step gives to a slot, and the slot. -/
def State.gives (m : State n) : Act n → Option (Int × Slot)
  | .fork _ | .threadCreate _ => (allocSlot m.tab).map fun r => (m.tab.nextpid, r.1)
  | .setIds c => (m.cpu c).bind fun p =>
    match m.pc p with
    | .threadCreate np main .ids => some ((m.tab.proc main).pid, np)
    | _ => none
  | _ => none

/-- No slot is given a pid when a `kill_threads_except` for that pid has passed it. -/
def NoRefill (m : State n) (a : Act n) : Prop :=
  NoGhost m a ∧ ∀ r ∈ m.gives a, ¬ m.Passed r.1 r.2

instance (m : State n) (pid : Int) (q : Slot) : Decidable (m.Passed pid q) :=
  inferInstanceAs (Decidable (∃ _, _ ∧ ∃ _, _ ∧ _ ∧ _))

instance (m : State n) (a : Act n) : Decidable (NoRefill m a) :=
  have : Decidable (∀ r ∈ m.gives a, ¬ m.Passed r.1 r.2) := Option.decidableForallMem (m.gives a)
  inferInstanceAs (Decidable (_ ∧ _))

/-- What `kill_threads_except` has done so far. -/
structure ExecInv (m : State n) : Prop where
  start : ∀ cp pid, Live (m.tab.proc cp).state → m.pc cp = .killThreads pid →
    (m.tab.proc cp).pid = pid
  pid : ∀ cp pid x, Live (m.tab.proc cp).state → m.pc cp = .killThread pid x →
    (m.tab.proc cp).pid = pid
  other : ∀ cp pid x, Live (m.tab.proc cp).state → m.pc cp = .killThread pid x → x ≠ cp
  passed : ∀ pid q, m.Passed pid q → m.tab.InUse q → (m.tab.proc q).pid ≠ pid

/-- No slot comes into use or changes its pid. -/
def Kept (t u : Ptable) : Prop := ∀ q, u.InUse q → t.InUse q ∧ (u.proc q).pid = (t.proc q).pid

namespace Kept

theorem refl : Kept t t := fun _ h => ⟨h, rfl⟩

theorem trans (h : Kept t u) (h' : Kept u w) : Kept t w := fun q hq =>
  have hu := h' q hq
  have ht := h q hu.1
  ⟨ht.1, hu.2.trans ht.2⟩

theorem of_quiet (h : Quiet t u) : Kept t u :=
  fun q hq => ⟨(h.inUse_iff id).mp hq, (h.ids q id).pid⟩

theorem of_alike (h : ∀ q, Alike (t.proc q) (u.proc q)) : Kept t u := fun q hq =>
  ⟨by rwa [Ptable.InUse, (h q).state] at hq, (h q).pid⟩

theorem setProc (hv : v.state = .UNUSED ∨ t.InUse p ∧ v.pid = (t.proc p).pid) :
    Kept t (t.setProc p v) := by
  refine Ptable.forall_setProc (P := fun q w => w.state ≠ .UNUSED → t.InUse q ∧
    w.pid = (t.proc q).pid) (fun hs => hv.resolve_left hs) fun _ _ hq => ⟨hq, rfl⟩

theorem clearSubthreads : Kept t (clearSubthreads t p).2 := by
  refine clearSubthreads_induction refl (fun _ _ hs _ => hs.trans (.setProc (.inl rfl)))
    fun u q hs => ?_
  have hk : Kept u (u.setProc q { u.proc q with killed := true }) :=
    of_alike (alike_setProc ⟨rfl, rfl, rfl, rfl, rfl, rfl⟩)
  exact (hs.trans hk).trans (of_quiet .wakeup1)

end Kept

def Point.killing : Point → Bool
  | .killThreads _ | .killThread _ _ => true
  | _ => false

namespace Point

/-- What the loop of `cp` has done so far. -/
def Done (t : Ptable) (cp : Slot) : Point → Prop
  | .killThreads pid => (t.proc cp).pid = pid
  | .killThread pid x => (t.proc cp).pid = pid ∧ x ≠ cp ∧
    ∀ q < x, q ≠ cp → t.InUse q → (t.proc q).pid ≠ pid
  | _ => True

theorem Done.of_not_killing {k : Point} (h : k.killing = false) : k.Done t cp := by
  cases k with
  | killThreads pid | killThread pid x => cases h
  | _ => trivial

theorem Done.mono {k : Point} (h : k.Done t cp) (hcp : (u.proc cp).pid = (t.proc cp).pid)
    (hq : ∀ pid x, k = .killThread pid x → ∀ q < x, q ≠ cp → u.InUse q →
      (u.proc q).pid = pid → t.InUse q ∧ (t.proc q).pid = pid) : k.Done u cp := by
  cases k with
  | killThreads pid => exact hcp.trans h
  | killThread pid x =>
    refine ⟨hcp.trans h.1, h.2.1, fun q hx hne hu he => ?_⟩
    obtain ⟨hi, he⟩ := hq pid x rfl q hx hne hu he
    exact h.2.2 q hx hne hi he
  | _ => trivial

end Point

theorem execInv_iff :
    ExecInv m ↔ ∀ cp, Live (m.tab.proc cp).state → (m.pc cp).Done m.tab cp := by
  constructor
  · intro h cp hl
    cases hk : m.pc cp with
    | killThreads pid => exact h.start cp pid hl hk
    | killThread pid x =>
      exact ⟨h.pid cp pid x hl hk, h.other cp pid x hl hk,
        fun q hx hne => h.passed pid q ⟨cp, hl, x, hk, hx, hne⟩⟩
    | _ => trivial
  · intro h
    have hd : ∀ {cp k}, Live (m.tab.proc cp).state → m.pc cp = k → k.Done m.tab cp :=
      fun hl e => e ▸ h _ hl
    exact ⟨fun _ _ hl hp => hd hl hp, fun _ _ _ hl hp => (hd hl hp).1,
      fun _ _ _ hl hp => (hd hl hp).2.1,
      fun _ q ⟨_, hl, _, hp, hx, hne⟩ => (hd hl hp).2.2 q hx hne⟩

namespace ExecInv

/-- A step that gives no slot a pid and starts no `kill_threads_except`. -/
theorem of_kept (h : ExecInv m) (hu : Kept m.tab m'.tab) (hpc : ∀ q, Live (m'.tab.proc q).state →
    (m'.pc q).killing = true → Live (m.tab.proc q).state ∧ m.pc q = m'.pc q) : ExecInv m' := by
  refine execInv_iff.mpr fun cp hl => ?_
  cases hk : (m'.pc cp).killing with
  | false => exact .of_not_killing hk
  | true =>
    obtain ⟨hl', e⟩ := hpc cp hl hk
    refine (e ▸ execInv_iff.mp h cp hl').mono (hu cp (inUse_of_live hl)).2
      fun pid x _ q _ _ hi he => ?_
    exact ⟨(hu q hi).1, (hu q hi).2 ▸ he⟩

theorem setTab (h : ExecInv m) (hu : Kept m.tab u)
    (hl : ∀ q, Live (u.proc q).state → Live (m.tab.proc q).state) : ExecInv (m.setTab u) :=
  h.of_kept hu fun q hq _ => ⟨hl q hq, rfl⟩

/-- A thread goes to a point up to which its loop has come. -/
theorem enter (h : ExecInv m) (hk : k.Done m.tab p) : ExecInv (m.goto p k) := by
  refine execInv_iff.mpr fun cp hl => ?_
  change (update m.pc p k cp).Done m.tab cp
  by_cases e : cp = p
  · rwa [e, update_self]
  · rw [update_of_ne e]
    exact execInv_iff.mp h cp hl

theorem goto (h : ExecInv m) (hk : k.killing = false) : ExecInv (m.goto p k) :=
  h.enter (.of_not_killing hk)

theorem goto_killing (hk : k.killing = false) (hq : ((m.goto p k).pc q).killing = true) :
    m.pc q = (m.goto p k).pc q := by
  have e : q ≠ p := by
    rintro rfl
    change (update m.pc q k q).killing = true at hq
    rw [update_self, hk] at hq
    cases hq
  exact (update_of_ne e ..).symm

theorem move (h : ExecInv m) (hk : k.killing = false) (hu : Kept m.tab u)
    (hl : ∀ q, Live (u.proc q).state → Live (m.tab.proc q).state) :
    ExecInv ((m.setTab u).goto p k) :=
  (h.setTab hu hl).goto hk

/-- A thread that was live gives up its CPU. -/
theorem sched (h : ExecInv m) (hp : Live (m.tab.proc p).state) (hu : Kept m.tab u)
    (hk : Keeps m.tab u) (hv : v.pid = (m.tab.proc p).pid) :
    ExecInv (m.sched c (u.setProc p v)) := by
  refine h.of_kept (fun q hq => ?_) fun q hq _ => ⟨?_, rfl⟩ <;> by_cases e : q = p
  · subst e
    refine ⟨inUse_of_live hp, ?_⟩
    change ((u.setProc q v).proc q).pid = _
    rw [Ptable.setProc_proc_self, hv]
  · change (u.setProc p v).InUse q at hq
    change _ ∧ ((u.setProc p v).proc q).pid = _
    rw [Ptable.InUse, Ptable.setProc_proc_of_ne e] at hq
    rw [Ptable.setProc_proc_of_ne e]
    exact hu q hq
  · exact e ▸ hp
  · change Live ((u.setProc p v).proc q).state at hq
    rw [Ptable.setProc_proc_of_ne e] at hq
    exact hk.live q hq

/-- The loop of `kill_threads_except` goes on from slot `i`, past which no slot has the pid. -/
theorem killFrom (h : ExecInv m) (hpid : (m.tab.proc p).pid = pid)
    (hi : ∀ q, q.val < i → q ≠ p → m.tab.InUse q → (m.tab.proc q).pid ≠ pid) :
    ExecInv (m.killFrom p pid i) := by
  unfold State.killFrom
  split
  · next q hq =>
    obtain ⟨hqp, hlt⟩ := find_slots_eq_some.mp hq
    simp only [decide_eq_true_eq] at hqp
    have h' := h.setTab (.of_quiet (.reparent (p := q))) (Keeps.of_quiet .reparent).live
    have hkept := Kept.of_quiet (.reparent (t := m.tab) (p := q))
    have hids := (Effect.reparent (t := m.tab) (p := q)).ids
    refine h'.enter ⟨(hids p id).pid.trans hpid, hqp.2.2, fun r hx hne hu => ?_⟩
    obtain ⟨hu', hpid'⟩ := hkept r hu
    change ((Thread.reparent m.tab q).proc r).pid ≠ _
    rw [hpid']
    by_cases hri : r.val < i
    · exact hi r hri hne hu'
    · -- the loop has skipped `r`
      have hskip := hlt r hx
      simp only [decide_eq_false_iff_not] at hskip
      exact fun hd => hskip ⟨Nat.le_of_not_lt hri, hd, hne⟩
  · exact h.goto rfl

/-- When `kill_threads_except` has cleared the slot `q`, no slot up to `q` has the pid. -/
theorem cleared (h : ExecInv m) (hl : Live (m.tab.proc p).state) (hp : m.pc p = .killThread pid q) :
    ((threadClear m.tab q).proc p).pid = pid ∧ ∀ r, r.val < q.val + 1 → r ≠ p →
      (threadClear m.tab q).InUse r → ((threadClear m.tab q).proc r).pid ≠ pid := by
  have hother : ∀ r, r ≠ q → (threadClear m.tab q).proc r = m.tab.proc r :=
    fun r e => Ptable.setProc_proc_of_ne e
  constructor
  · rw [hother p (h.other p pid q hl hp).symm]
    exact h.pid p pid q hl hp
  · intro r hr hrp hu
    have e : r ≠ q := by
      rintro rfl
      exact hu (by simp [threadClear])
    have hlt : r < q := lt_of_le_of_ne (Nat.lt_succ_iff.mp hr) e
    rw [Ptable.InUse, hother r e] at hu
    rw [hother r e]
    exact h.passed pid r ⟨p, hl, q, hp, hlt, hrp⟩ hu

variable (np) in
/-- The slot `np`, which is not live, gets a pid. -/
theorem fill (h : ExecInv m) (hn : ¬ Live (m'.tab.proc np).state)
    (ho : ∀ q, q ≠ np → m'.tab.proc q = m.tab.proc q) (hg : ¬ m.Passed (m'.tab.proc np).pid np)
    (hpc : ∀ q, q ≠ np → (m'.pc q).killing = true → m.pc q = m'.pc q) : ExecInv m' := by
  refine execInv_iff.mpr fun cp hl => ?_
  cases hk : (m'.pc cp).killing with
  | false => exact .of_not_killing hk
  | true =>
    have e : cp ≠ np := by
      rintro rfl
      exact hn hl
    have hpk := hpc cp e hk
    rw [ho cp e] at hl
    refine (hpk ▸ execInv_iff.mp h cp hl).mono (by rw [ho cp e]) fun pid x hp r hx hne hu he => ?_
    by_cases er : r = np
    · subst er
      exact absurd ⟨cp, hl, x, hpk.trans hp, hx, hne⟩ (he ▸ hg)
    · rw [Ptable.InUse, ho r er] at hu
      rw [ho r er] at he
      exact ⟨hu, he⟩

theorem alloc (h : ExecInv m) (ha : allocSlot m.tab = some (np, t))
    (hg : ¬ m.Passed m.tab.nextpid np) (hk : k.killing = false) :
    ExecInv (((m.setTab t).goto np .user).goto p k) := by
  obtain ⟨-, hem, hal⟩ := allocSlot_some ha
  refine h.fill np ?_ hal.others ?_ fun q e hq => ?_
  · change ¬ Live (t.proc np).state
    rw [hem]
    decide
  · change ¬ m.Passed (t.proc np).pid np
    rwa [hal.pid]
  · rw [← goto_killing hk hq]
    exact (update_of_ne e ..).symm

theorem setIds (h : ExecInv m) (hem : (m.tab.proc np).state = .EMBRYO)
    (hg : ¬ m.Passed (m.tab.proc main).pid np) (hk : k.killing = false) :
    ExecInv ((m.setTab (Interleave.setIds m.tab main np)).goto p k) := by
  refine h.fill np ?_ (fun _ => setIds_other) ?_ fun q _ hq => goto_killing hk hq
  · change ¬ Live ((Interleave.setIds m.tab main np).proc np).state
    rw [setIds_new, hem]
    decide
  · change ¬ m.Passed ((Interleave.setIds m.tab main np).proc np).pid np
    rwa [setIds_new]

theorem exec (h : ExecInv m) :
    ExecInv ((m.setTab (detach m.tab p)).goto p (.killThreads (m.tab.proc p).pid)) := by
  have h' : ExecInv (m.setTab (detach m.tab p)) :=
    h.setTab (fun q hq => ⟨by rwa [Ptable.InUse, detach_state] at hq, detach_pid q⟩)
      fun q hq => detach_state (t := m.tab) (p := p) q ▸ hq
  exact h'.enter (detach_pid p)

theorem step (h : ExecInv m) (hS : Sound m) (hg : NoRefill m a) (hs : Step m a m') :
    ExecInv m' := by
  cases hs with
  | @dispatch c p hc hp =>
    refine h.of_kept (.setProc (.inr ⟨by simp [Ptable.InUse, hp], rfl⟩)) fun q hq _ => ⟨?_, rfl⟩
    by_cases e : q = p
    · exact e ▸ .inr (.inl hp)
    · change Live ((m.tab.setProc p _).proc q).state at hq
      rwa [Ptable.setProc_proc_of_ne e] at hq
  | yield hc | sleep hc => exact h.sched (hS.live hc) .refl .refl rfl
  | wakeup => exact h.setTab (.of_quiet .wakeup1) (Keeps.of_quiet .wakeup1).live
  | kill => exact h.setTab (.of_quiet .kill) (Keeps.of_quiet .kill).live
  | call | ret | cleariFails | exitThread | waitFails | joinFails | forkKalloc | createKalloc =>
    exact h.goto rfl
  | hold => exact ⟨h.start, h.pid, h.other, h.passed⟩
  | noSlot => exact h
  | fork hc hp ha | threadCreate hc hp ha =>
    exact h.alloc ha (hg.2 _ (by rw [State.gives, ha]; rfl)) rfl
  | @drop a c p np v hc hp =>
    refine h.move rfl (.setProc (.inl rfl)) (live_of_free (p := np) (by simp) fun q e => ?_)
    rw [Ptable.setProc_proc_of_ne e]
  | @copyuvm c p np hc hp =>
    obtain ⟨g, hnew⟩ := forkCopied_new p np m.tab
    have hst : ∀ q, ((forkCopied m.tab p np).proc q).state = (m.tab.proc q).state ∧
        ((forkCopied m.tab p np).proc q).pid = (m.tab.proc q).pid := fun q => by
      by_cases e : q = np
      · rw [e, hnew]
        exact ⟨rfl, rfl⟩
      · rw [forkCopied_other e]
        exact ⟨rfl, rfl⟩
    refine h.move rfl (fun q hq => ⟨?_, (hst q).2⟩) fun q hq => (hst q).1 ▸ hq
    rwa [Ptable.InUse, (hst q).1] at hq
  | decNextpid hc hp => exact h.move rfl .refl fun _ => id
  | setIds hc hp =>
    exact h.setIds (hS.new_ne hc (congrArg Point.new hp)).1
      (hg.2 (_, _) (by simp only [State.gives, hc, Option.bind_some, hp]; rfl)) rfl
  | allocuvm hc hp =>
    exact h.move rfl (.of_alike growMain_alike) fun q hq => (growMain_alike q).state ▸ hq
  | @allocuvmFails c p np main hc hp =>
    refine h.move rfl (fun q hq => ?_)
      (live_of_free growMain_fails.1 fun q e => (growMain_fails.2 q e).state)
    have e : q ≠ np := by
      rintro rfl
      exact hq growMain_fails.1
    exact ⟨by rwa [Ptable.InUse, (growMain_fails.2 q e).state] at hq, (growMain_fails.2 q e).pid⟩
  | @runnable c p np main hc hp =>
    have hn : (m.pc p).new = some np := hp.elim (congrArg Point.new) (congrArg Point.new)
    have hem := (hS.new_ne hc hn).1
    refine h.of_kept (.setProc (.inr ⟨by simp [Ptable.InUse, hem], rfl⟩)) fun q hl hq => ?_
    have hpc := goto_killing (m := m.setTab _) (k := .user) rfl hq
    have e : q ≠ np := by
      rintro rfl
      rw [← hpc] at hq
      change (m.pc q).killing = true at hq
      rw [hS.fresh q hem] at hq
      cases hq
    change Live ((m.tab.setProc np _).proc q).state at hl
    rw [Ptable.setProc_proc_of_ne e] at hl
    exact ⟨hl, hpc⟩
  | @exitCleared c p t hc hp hi ht =>
    have hu := Kept.clearSubthreads (t := m.tab) (p := p)
    have hk := Keeps.clearSubthreads (t := m.tab) (p := p)
    rw [ht] at hu hk
    exact h.move rfl hu hk.live
  | @exitSleeps c p t k hc hp ht =>
    have hu := Kept.clearSubthreads (t := m.tab) (p := p)
    have hk := Keeps.clearSubthreads (t := m.tab) (p := p)
    rw [ht] at hu hk
    have hp := inUse_of_running (hk.running p (hS.running c p hc))
    exact (h.goto rfl).sched (hS.live hc) hu hk (hu p hp).2
  | @exitEnd c p hc hp hh =>
    obtain ⟨u, hu, e⟩ := exitRest_eq m.tab p
    rw [e]
    exact h.sched (hS.live hc) (.of_quiet hu) (.of_quiet hu) (hu.ids p id).pid
  | @threadExit c p retval hc hp =>
    have ha : ∀ q, Alike (m.tab.proc q)
        ((m.tab.setProc p { m.tab.proc p with retval := retval }).proc q) :=
      alike_setProc ⟨rfl, rfl, rfl, rfl, rfl, rfl⟩
    exact h.move rfl (.of_alike ha) fun q hq => (ha q).state ▸ hq
  | @threadExitEnd c p hc hp hh =>
    obtain ⟨u, hu, e⟩ := threadExit_eq m.tab p (m.tab.proc p).retval
    rw [e]
    exact h.sched (hS.live hc) (.of_quiet hu) (.of_quiet hu) (hu.ids p id).pid
  | @waitReaps c p q t hc hp hq ht =>
    have hk := Keeps.reap hq ht
    obtain ⟨g, -, rfl⟩ := reap_eq_some ht
    exact h.move rfl (Kept.setProc (t := m.tab) (p := q) (.inl rfl)) hk.live
  | waitSleeps hc | joinSleeps hc => exact (h.goto rfl).sched (hS.live hc) .refl .refl rfl
  | @joinReaps c p q thread hc hp hq =>
    exact h.move rfl (.setProc (.inl rfl)) (Keeps.threadClear (by simp [hq]) (by simp [hq])).live
  | exec hc hp => exact h.exec
  | killFirst hc hp => exact h.killFrom (h.start _ _ (hS.live hc) hp) (by simp)
  | @killThread c p pid q hc hp hh =>
    obtain ⟨hpid, hi⟩ := h.cleared (hS.live hc) hp
    refine killFrom (h.setTab (.setProc (.inl rfl)) (live_of_free (p := q) (by simp [threadClear])
      fun r e => ?_)) hpid hi
    rw [threadClear, Ptable.setProc_proc_of_ne e]
  | execEnd hc hp hh ht =>
    exact h.move rfl (.of_alike (execLoad_alike ht)) fun q hq => (execLoad_alike ht q).state ▸ hq

end ExecInv

theorem execInv : (kernel n).Invariant NoRefill fun m => Sound m ∧ ExecInv m where
  init {m} hm := by
    have hp : ∀ q, (m.pc q).killing = false := fun q => by rw [hm.2.2.1]; rfl
    exact ⟨.init hm, execInv_iff.mpr fun q _ => .of_not_killing (hp q)⟩
  step h hg hn := ⟨h.1.step hg.1 (.of_next hn), h.2.step h.1 hg (.of_next hn)⟩

/-- The slot `cp` is in `kill_threads_except(pid, cp)`. -/
def State.Kills (m : State n) (cp : Slot) (pid : Int) : Prop :=
  m.pc cp = .killThreads pid ∨ ∃ x, m.pc cp = .killThread pid x

/-- The loop of `kill_threads_except` ends: it has skipped every slot from `i` on. -/
theorem killFrom_exec (hi : ∀ q, q.val < i → q ≠ p → m.tab.InUse q →
    (m.tab.proc q).pid ≠ pid) (hp : m.tab.InUse p ∧ (m.tab.proc p).pid = pid)
    (hr : (m.killFrom p pid i).pc p = .exec) (q : Slot) :
    (m.killFrom p pid i).tab.InUse q ∧ ((m.killFrom p pid i).tab.proc q).pid = pid ↔ q = p := by
  unfold State.killFrom at hr ⊢
  split at hr
  · change update m.pc p _ p = _ at hr
    rw [update_self] at hr
    cases hr
  · next hnone =>
    refine ⟨fun ⟨hu, hd⟩ => by_contra fun e => ?_, ?_⟩
    · by_cases hlt : q.val < i
      · exact hi q hlt e hu hd
      · have hskip := find_slots_eq_none.mp hnone q
        simp only [decide_eq_false_iff_not] at hskip
        exact hskip ⟨Nat.le_of_not_lt hlt, hd, e⟩
    · rintro rfl
      exact hp

/-- In every run in which no slot is given a pid behind the loop of a `kill_threads_except` for it,
when `kill_threads_except(pid, cp)` returns, `cp` is the only slot in use with that pid. -/
theorem exec_alone (hm : (kernel n).ReachedVia NoRefill m) (hc : m.cpu c = some cp)
    (hp : m.Kills cp pid) (hn : m.next (.killThreads c) = some m')
    (hr : m'.pc cp = .exec) (q : Slot) :
    m'.tab.InUse q ∧ (m'.tab.proc q).pid = pid ↔ q = cp := by
  obtain ⟨hS, h⟩ := execInv.of_reached hm
  have hl := hS.live hc
  rcases hp with hp | ⟨x, hp⟩
  · simp only [State.next, hc, Option.bind_some, hp, Option.some.injEq] at hn
    subst hn
    exact killFrom_exec (fun _ h => absurd h (Nat.not_lt_zero _))
      ⟨inUse_of_live hl, h.start cp pid hl hp⟩ hr q
  · simp only [State.next, hc, Option.bind_some, hp, Option.ite_none_right_eq_some] at hn
    obtain ⟨-, ⟨⟩⟩ := hn
    obtain ⟨hpid, hi⟩ := h.cleared hl hp
    refine killFrom_exec hi ⟨?_, hpid⟩ hr q
    change ((threadClear m.tab x).proc cp).state ≠ .UNUSED
    rw [threadClear, Ptable.setProc_proc_of_ne (h.other cp pid x hl hp).symm]
    exact inUse_of_live hl

/-- A child of init makes a thread and calls `exec`, which clears it. -/
theorem exec_alone_child : ∃ m m' : State 2, (kernel 2).ReachedVia NoRefill m ∧
    (m.tab.proc 2).state = .RUNNABLE ∧ (m.tab.proc 2).pid = 2 ∧
    m.next (.killThreads 1) = some m' ∧ m'.pc 1 = .exec ∧
    ∀ q, m'.tab.InUse q ∧ (m'.tab.proc q).pid = 2 ↔ q = 1 := by
  obtain ⟨m, hm, hp⟩ := LTS.exists_reachedVia_of_run (M := kernel 2) (C := NoRefill)
    (.flatten [[.dispatch 0 0], forkSteps 0, [.dispatch 1 1], threadCreateSteps 1, [.exec 1,
      .killThreads 1]])
    (fun m => (m.tab.proc 2).state = .RUNNABLE ∧ (m.tab.proc 2).pid = 2 ∧ m.cpu 1 = some 1 ∧
      m.pc 1 = .killThread 2 2 ∧ (m.next (.killThreads 1)).any fun m' => m'.pc 1 = .exec)
    (init_boot 2) (by decide +kernel) (by decide +kernel)
  simp only [decide_eq_true_eq, Option.any_eq_true] at hp
  obtain ⟨hs, hd, hc, hp, m', hn, hr⟩ := hp
  exact ⟨m, m', hm, hs, hd, hn, hr, exec_alone hm hc (.inr ⟨2, hp⟩) hn hr⟩

/-- A child of init makes three threads and calls `exec`. When the first one has been cleared, the
third one makes another thread, in the slot that is free again; it outlives the `exec`. -/
theorem exec_leaves_thread : ∃ m m' : State 2, (kernel 2).Reached m ∧ m.cpu 1 = some 1 ∧
    m.Kills 1 2 ∧ m.next (.killThreads 1) = some m' ∧ m'.pc 1 = .exec ∧
    (m'.tab.proc 2).state = .RUNNABLE ∧ (m'.tab.proc 2).pid = 2 := by
  obtain ⟨m, hm, hp⟩ := LTS.exists_reached_of_run (M := kernel 2)
    (.flatten [[.dispatch 0 0], forkSteps 0, [.dispatch 1 1], threadCreateSteps 1,
      threadCreateSteps 1, threadCreateSteps 1, [.yield 0, .dispatch 0 4, .exec 1, .killThreads 1,
      .killThreads 1], threadCreateSteps 0, [.yield 0, .killThreads 1]])
    (fun m => m.cpu 1 = some 1 ∧ m.pc 1 = .killThread 2 4 ∧
      (m.next (.killThreads 1)).any fun m' => m'.pc 1 = .exec ∧
        (m'.tab.proc 2).state = .RUNNABLE ∧ (m'.tab.proc 2).pid = 2)
    (init_boot 2) (by decide +kernel)
  simp only [decide_eq_true_eq, Option.any_eq_true] at hp
  obtain ⟨hc, hp, m', hn, hr⟩ := hp
  exact ⟨m, m', hm, hc, .inr ⟨4, hp⟩, hn, hr⟩

end Xv6.Interleave
