import Xv6.Interleave.Sound

/-! # Threads that wait

A thread in `wait` or `thread_join` sleeps on its own slot. A thread that ends wakes one other
thread: `thread_exit` the main thread, `exit` the main thread or, if there is none, the parent. No
wakeup is lost when that is the only one that waits for it. -/

namespace Xv6.Interleave

open Thread

variable {n : Nat} {m : State n} {c : Fin n} {p q z : Slot}
/-- `q` is at a point at which it waits for `z` to end. -/
def Waits (pc : Slot → Point) (t : Ptable) (q z : Slot) : Prop :=
  pc q = .wait ∧ (t.proc z).parent = some q ∨ pc q = .threadJoin (t.proc z).tid

instance (pc : Slot → Point) (t : Ptable) (q z : Slot) : Decidable (Waits pc t q z) :=
  inferInstanceAs (Decidable (_ ∧ _ ∨ _))

/-- The slot that becomes a zombie in the step, and the slot on whose channel it calls `wakeup1`. -/
def State.ends (m : State n) : Act n → Option (Slot × Option Slot)
  | .exitEnd c => (m.cpu c).map fun p => (p, (m.tab.proc p).main.or (m.tab.proc p).parent)
  | .threadExitEnd c => (m.cpu c).map fun p => (p, (m.tab.proc p).main)
  | _ => none

/-- A thread that ends wakes whoever waits for it, and is not its own parent. -/
def WakesWaiters (m : State n) (a : Act n) : Prop :=
  NoGhost m a ∧ ∀ e ∈ m.ends a, (m.tab.proc e.1).parent ≠ some e.1 ∧
    ∀ q, (m.tab.proc q).state = .SLEEPING → Waits m.pc m.tab q e.1 → e.2 = some q

instance (m : State n) (a : Act n) : Decidable (WakesWaiters m a) :=
  have : Decidable (∀ e ∈ m.ends a, (m.tab.proc e.1).parent ≠ some e.1 ∧
      ∀ q, (m.tab.proc q).state = .SLEEPING → Waits m.pc m.tab q e.1 → e.2 = some q) :=
    Option.decidableForallMem (m.ends a)
  inferInstanceAs (Decidable (_ ∧ _))

/-- Where a thread sleeps on its own slot until another one ends. -/
def Point.waits : Point → Bool
  | .wait | .threadJoin _ => true
  | _ => false

theorem Waits.waits (h : Waits pc t q z) : (pc q).waits = true := by
  rcases h with ⟨h, -⟩ | h <;> rw [h] <;> rfl

structure WaitInv (pc : Slot → Point) (t : Ptable) : Prop where
  chan : ∀ q, (t.proc q).state = .SLEEPING → (pc q).waits = true →
    (t.proc q).chan = some (.proc q)
  heard : ∀ q z, (t.proc q).state = .SLEEPING → Waits pc t q z → (t.proc z).state ≠ .ZOMBIE

/-! ## Tables -/

/-- Slots stay as they are, or are neither asleep nor zombies. -/
def Roused (t u : Ptable) : Prop :=
  ∀ q, Alike (t.proc q) (u.proc q) ∨
    (u.proc q).state ≠ .SLEEPING ∧ (u.proc q).state ≠ .ZOMBIE

namespace Roused

theorem refl : Roused t t := fun _ => .inl .refl

theorem trans (h : Roused t u) (h' : Roused u w) : Roused t w := by
  intro q
  rcases h' q with h' | h'
  · rcases h q with h | h
    · exact .inl ⟨h'.state.trans h.state, h'.pid.trans h.pid, h'.tid.trans h.tid,
        h'.main.trans h.main, h'.parent.trans h.parent, h'.chan.trans h.chan⟩
    · rw [h'.state]
      exact .inr h
  · exact .inr h'

theorem of_alike (h : ∀ q, Alike (t.proc q) (u.proc q)) : Roused t u := fun q => .inl (h q)

/-- One slot changes. -/
theorem of_awake (hp : (u.proc p).state = st) (hst : st ≠ .SLEEPING ∧ st ≠ .ZOMBIE)
    (ho : ∀ q, q ≠ p → Alike (t.proc q) (u.proc q)) : Roused t u := by
  intro q
  by_cases e : q = p
  · rw [e, hp]
    exact .inr hst
  · exact .inl (ho q e)

theorem of_other (hp : (u.proc p).state = st) (hst : st ≠ .SLEEPING ∧ st ≠ .ZOMBIE)
    (ho : ∀ q, q ≠ p → u.proc q = t.proc q) : Roused t u :=
  of_awake hp hst fun q e => by
    rw [ho q e]
    exact .refl

theorem setProc (hv : v.state ≠ .SLEEPING ∧ v.state ≠ .ZOMBIE) : Roused t (t.setProc p v) :=
  of_other (congrArg Proc.state (Ptable.setProc_proc_self ..)) hv
    fun _ e => Ptable.setProc_proc_of_ne e

theorem wakeup1 : Roused t (wakeup1 t chan) := by
  intro q
  rw [wakeup1_proc]
  split
  · exact .inr ⟨nofun, nofun⟩
  · exact .inl .refl

theorem kill : Roused t (kill t pid) := by
  unfold Thread.kill
  split
  · next p _ =>
    by_cases hs : (t.proc p).state = .SLEEPING
    · rw [if_pos hs]
      exact setProc ⟨nofun, nofun⟩
    · rw [if_neg hs]
      exact of_alike (alike_setProc ⟨rfl, rfl, rfl, rfl, rfl, rfl⟩)
  · exact refl

theorem threadClear : Roused t (threadClear t p) := setProc ⟨nofun, nofun⟩

theorem reap (h : reap t p = some u) : Roused t u := by
  obtain ⟨g, -, rfl⟩ := reap_eq_some h
  exact of_other (show (Ptable.proc _ p).state = .UNUSED by simp [Ptable.setProc]) (by decide)
    fun q e => by simp [Ptable.setProc, e]

theorem clearSubthreads : Roused t (clearSubthreads t p).2 := by
  refine clearSubthreads_induction refl (fun _ _ hs _ => hs.trans threadClear) fun u q hs => ?_
  have hk : Roused u (u.setProc q { u.proc q with killed := true }) :=
    of_alike (alike_setProc ⟨rfl, rfl, rfl, rfl, rfl, rfl⟩)
  exact (hs.trans hk).trans wakeup1

/-- A slot that is asleep was asleep on the same channel. -/
theorem asleep (h : Roused t u) (hq : (u.proc q).state = .SLEEPING) :
    Alike (t.proc q) (u.proc q) := (h q).resolve_right fun hn => hn.1 hq

theorem zombie (h : Roused t u) (hz : (u.proc z).state = .ZOMBIE) :
    Alike (t.proc z) (u.proc z) := (h z).resolve_right fun hn => hn.2 hz

end Roused

/-! ## The invariant -/

namespace WaitInv

/-- Threads stay where they are, or are not asleep in a wait. -/
theorem goto (h : WaitInv pc t) (hr : Roused t u) (hk : ∀ q, pc' q = pc q ∨ (pc' q).waits = false) :
    WaitInv pc' u := by
  have hpc : ∀ q, (pc' q).waits = true → pc' q = pc q := by
    intro q hq
    refine (hk q).resolve_right fun hn => ?_
    rw [hq] at hn
    cases hn
  refine ⟨fun q hq hw => ?_, fun q z hq hw hz => ?_⟩
  · have ha := hr.asleep hq
    rw [ha.chan]
    exact h.chan q (ha.state ▸ hq) (hpc q hw ▸ hw)
  · have ha := hr.asleep hq
    have hb := hr.zombie hz
    refine h.heard q z (ha.state ▸ hq) ?_ (hb.state ▸ hz)
    have e := hpc q hw.waits
    rwa [Waits, e, hb.parent, hb.tid] at hw

theorem still (h : WaitInv pc t) (hr : Roused t u) : WaitInv pc u := h.goto hr fun _ => .inl rfl

/-- The thread `p` goes on to a point that is not in a wait. -/
theorem move (h : WaitInv pc t) (hr : Roused t u) (hk : k.waits = false) :
    WaitInv (Function.update pc p k) u := by
  refine h.goto hr fun q => ?_
  by_cases e : q = p
  · rw [e, Function.update_self]
    exact .inr hk
  · exact .inl (Function.update_of_ne e ..)

/-- The thread `p` goes to sleep at `k`. -/
theorem sleep (p : Slot) (k : Point) (chan : Option Chan) (context : Context) (h : WaitInv pc t)
    (hc : k.waits = true → chan = some (.proc p))
    (hz : ∀ z, (k = .wait ∧ (t.proc z).parent = some p ∨ k = .threadJoin (t.proc z).tid) →
      (t.proc z).state ≠ .ZOMBIE) :
    WaitInv (Function.update pc p k) (sleep t p chan context) := by
  have hself : (Thread.sleep t p chan context).proc p =
      { t.proc p with chan := chan, state := .SLEEPING, context := context } :=
    Ptable.setProc_proc_self ..
  have hother : ∀ q, q ≠ p → (Thread.sleep t p chan context).proc q = t.proc q :=
    fun q e => Ptable.setProc_proc_of_ne e
  have hpc : ∀ q, q ≠ p → Function.update pc p k q = pc q := fun q e => Function.update_of_ne e ..
  refine ⟨fun q hq hw => ?_, fun q z hq hw hs => ?_⟩
  · by_cases e : q = p
    · subst e
      rw [Function.update_self] at hw
      rw [hself, hc hw]
    · rw [hother q e] at hq ⊢
      rw [hpc q e] at hw
      exact h.chan q hq hw
  · have ez : z ≠ p := by
      rintro rfl
      rw [hself] at hs
      cases hs
    rw [hother z ez] at hs
    rw [Waits, hother z ez] at hw
    by_cases e : q = p
    · subst e
      rw [Function.update_self] at hw
      exact hz z hw hs
    · rw [hother q e] at hq
      rw [hpc q e] at hw
      exact h.heard q z hq hw hs

/-- A slot is passed to init, which is the only one that may have to be woken. -/
theorem setParent (h : WaitInv pc t) (hu : u = t.setProc r { t.proc r with parent := i }) :
    (∀ q, (u.proc q).state = .SLEEPING → (pc q).waits = true →
      (u.proc q).chan = some (.proc q)) ∧
    ∀ q z, (u.proc q).state = .SLEEPING → Waits pc u q z → (u.proc z).state = .ZOMBIE →
      z = r ∧ i = some q := by
  subst hu
  have hother : ∀ q, q ≠ r → (t.setProc r { t.proc r with parent := i }).proc q = t.proc q :=
    fun q e => Ptable.setProc_proc_of_ne e
  have hself : (t.setProc r { t.proc r with parent := i }).proc r =
      { t.proc r with parent := i } := Ptable.setProc_proc_self ..
  have hsleep : ∀ q, ((t.setProc r { t.proc r with parent := i }).proc q).state = .SLEEPING →
      (t.proc q).state = .SLEEPING := by
    intro q hq
    by_cases e : q = r
    · rw [e, hself] at hq
      exact e ▸ hq
    · rwa [hother q e] at hq
  refine ⟨fun q hq hw => ?_, fun q z hq hw hz => ?_⟩
  · rw [← h.chan q (hsleep q hq) hw]
    by_cases e : q = r
    · rw [e, hself]
    · rw [hother q e]
  · by_cases e : z = r
    · subst e
      rw [Waits, hself] at hw
      rw [hself] at hz
      refine ⟨rfl, ?_⟩
      rcases hw with ⟨-, hw⟩ | hw
      · exact hw
      · exact absurd hz (h.heard q z (hsleep q hq) (.inr hw))
    · rw [Waits, hother z e] at hw
      rw [hother z e] at hz
      exact absurd hz (h.heard q z (hsleep q hq) hw)

theorem reparentOne (h : WaitInv pc t) : WaitInv pc (reparentOne p t r) := by
  simp only [Thread.reparentOne]
  split
  · generalize hu : t.setProc r { t.proc r with parent := t.initproc } = u
    have hi : u.initproc = t.initproc := by rw [← hu]; rfl
    obtain ⟨hchan, hheard⟩ := h.setParent hu.symm
    split
    · refine ⟨fun q hq hw => ?_, fun q z hq hw hz => ?_⟩
      · have ha := Roused.wakeup1.asleep hq
        rw [ha.chan]
        exact hchan q (ha.state ▸ hq) hw
      · have ha := Roused.wakeup1.asleep hq
        have hb := Roused.wakeup1.zombie hz
        have hs : (u.proc q).state = .SLEEPING := ha.state ▸ hq
        have hw' : Waits pc u q z := by rwa [Waits, hb.parent, hb.tid] at hw
        obtain ⟨-, e⟩ := hheard q z hs hw' (hb.state ▸ hz)
        -- init has been woken
        rw [wakeup1_proc, hi, e, if_pos ⟨hs, hchan q hs hw.waits⟩] at hq
        cases hq
    · next hr =>
      refine ⟨hchan, fun q z hq hw hz => ?_⟩
      obtain ⟨rfl, -⟩ := hheard q z hq hw hz
      exact hr hz
  · exact h

theorem reparent (h : WaitInv pc t) : WaitInv pc (reparent t p) :=
  Table.foldl_inv (P := WaitInv pc) slots (fun _ _ hu => hu.reparentOne) h

/-- After `wakeup1`, a thread that is still asleep in a wait has not been called. -/
theorem wakeup1 (h : WaitInv pc t) (ha : ∀ q, Alike (t.proc q) (u.proc q))
    (hq : ((wakeup1 u (x.map .proc)).proc q).state = .SLEEPING) (hw : (pc q).waits = true) :
    (t.proc q).state = .SLEEPING ∧ x ≠ some q := by
  have hs : (u.proc q).state = .SLEEPING := (Roused.wakeup1.asleep hq).state ▸ hq
  have hs' : (t.proc q).state = .SLEEPING := (ha q).state ▸ hs
  refine ⟨hs', ?_⟩
  rintro rfl
  have hc : (u.proc q).chan = some (.proc q) := (ha q).chan.trans (h.chan q hs' hw)
  rw [wakeup1_proc, if_pos ⟨hs, hc⟩] at hq
  cases hq

/-- A thread that nobody waits for any more becomes a zombie. -/
theorem setZombie (h : WaitInv pc t)
    (hn : ∀ q, (t.proc q).state = .SLEEPING → ¬ Waits pc t q p) :
    WaitInv pc (t.setState p .ZOMBIE) := by
  have hother : ∀ q, q ≠ p → (t.setState p .ZOMBIE).proc q = t.proc q :=
    fun q e => Ptable.setProc_proc_of_ne e
  have hself : (t.setState p .ZOMBIE).proc p = { t.proc p with state := .ZOMBIE } :=
    Ptable.setProc_proc_self ..
  have hne : ∀ q, ((t.setState p .ZOMBIE).proc q).state = .SLEEPING → q ≠ p := by
    rintro q hq rfl
    rw [hself] at hq
    cases hq
  refine ⟨fun q hq hw => ?_, fun q z hq hw hz => ?_⟩
  · have e := hne q hq
    rw [hother q e] at hq ⊢
    exact h.chan q hq hw
  · rw [hother q (hne q hq)] at hq
    by_cases e : z = p
    · subst e
      rw [Waits, hself] at hw
      exact hn q hq hw
    · rw [hother z e] at hz
      rw [Waits, hother z e] at hw
      exact h.heard q z hq hw hz

theorem exitRest (h : WaitInv pc t) (hp : (t.proc p).parent ≠ some p)
    (hn : ∀ q, (t.proc q).state = .SLEEPING → Waits pc t q p →
      (t.proc p).main.or (t.proc p).parent = some q) : WaitInv pc (exitRest t p) := by
  -- `exit` marks its main thread as killed and wakes it, or wakes its parent
  have hwake : ∃ u, (∀ q, Alike (t.proc q) (u.proc q)) ∧ Thread.exitRest t p =
      (Thread.reparent (Thread.wakeup1 u
        (((t.proc p).main.or (t.proc p).parent).map .proc)) p).setState p .ZOMBIE := by
    unfold Thread.exitRest
    cases hm : (t.proc p).main with
    | none => exact ⟨t, fun _ => .refl, rfl⟩
    | some x =>
      have ha : ∀ q, Alike (t.proc q) ((t.setProc x { t.proc x with killed := true }).proc q) :=
        alike_setProc ⟨rfl, rfl, rfl, rfl, rfl, rfl⟩
      exact ⟨_, ha, rfl⟩
  obtain ⟨u, ha, e⟩ := hwake
  rw [e]
  refine setZombie (reparent (h.still ((Roused.of_alike ha).trans .wakeup1))) fun q hq hw => ?_
  obtain ⟨hq, hne⟩ := h.wakeup1 ha ((Effect.reparent.woken q id).sleeping hq) hw.waits
  refine hne (hn q hq ?_)
  rwa [Waits, reparent_parent, (Effect.reparent.ids p id).tid, wakeup1_parent,
    (Effect.wakeup1.ids p id).tid, (ha p).parent, (ha p).tid, if_neg hp] at hw

theorem threadExit (h : WaitInv pc t)
    (hn : ∀ q, (t.proc q).state = .SLEEPING → Waits pc t q p → (t.proc p).main = some q) :
    WaitInv pc (threadExit t p retval) := by
  have ha : ∀ q, Alike (t.proc q) ((t.setProc p { t.proc p with retval := retval }).proc q) :=
    alike_setProc ⟨rfl, rfl, rfl, rfl, rfl, rfl⟩
  unfold Thread.threadExit
  refine setZombie (h.still ((Roused.of_alike ha).trans .wakeup1)) fun q hq hw => ?_
  rw [(ha p).main] at hq
  obtain ⟨hq, hne⟩ := h.wakeup1 ha hq hw.waits
  refine hne (hn q hq ?_)
  rwa [Waits, wakeup1_parent, (Effect.wakeup1.ids p id).tid, (ha p).parent, (ha p).tid] at hw

/-- `kill_threads_except` takes the next thread. -/
theorem killFrom (h : WaitInv m.pc m.tab) :
    WaitInv (m.killFrom p pid i).pc (m.killFrom p pid i).tab := by
  unfold State.killFrom
  split
  · exact h.reparent.move .refl rfl
  · exact h.move .refl rfl

theorem step (h : WaitInv m.pc m.tab) (hS : Sound m) (hg : WakesWaiters m a) (hs : Step m a m') :
    WaitInv m'.pc m'.tab := by
  obtain ⟨-, hg⟩ := hg
  cases hs with
  | dispatch | yield => exact h.still (.setProc ⟨nofun, nofun⟩)
  | wakeup => exact h.still .wakeup1
  | kill => exact h.still .kill
  | hold | noSlot => exact h
  | call | ret | cleariFails | waitFails | joinFails | exitThread | forkKalloc | createKalloc =>
    exact h.move .refl rfl
  | @sleep c p chan hc hp =>
    have hw : (m.pc p).waits = false := by
      cases e : m.pc p <;> rw [e] at hp <;> first | rfl | cases hp
    have hs := h.sleep p (m.pc p) chan .user
      (fun e => by rw [hw] at e; cases e) fun z hz => absurd (Waits.waits hz) (by simp [hw])
    rwa [Function.update_eq_self] at hs
  | fork hc _ ha | threadCreate hc _ ha =>
    obtain ⟨-, hem, hal⟩ := allocSlot_some ha
    exact (h.move (.of_other hem (by decide) hal.others) rfl).move .refl rfl
  | drop | runnable => exact h.move (.setProc ⟨nofun, nofun⟩) rfl
  | copyuvm hc hp =>
    obtain ⟨g, hnew⟩ := forkCopied_new _ _ m.tab
    have hem := (hS.new_ne hc (by rw [hp]; rfl)).1
    exact h.move (.of_other ((congrArg Proc.state hnew).trans hem) (by decide)
      fun _ => forkCopied_other) rfl
  | decNextpid => exact h.move (.of_alike fun _ => .refl) rfl
  | setIds hc hp =>
    have hem := (hS.new_ne hc (by rw [hp]; rfl)).1
    exact h.move (.of_other ((congrArg Proc.state setIds_new).trans hem) (by decide)
      fun _ => setIds_other) rfl
  | allocuvm => exact h.move (.of_alike growMain_alike) rfl
  | allocuvmFails => exact h.move (.of_awake growMain_fails.1 (by decide) growMain_fails.2) rfl
  | @exitCleared c p t hc _ _ ht =>
    have hr := Roused.clearSubthreads (t := m.tab) (p := p)
    rw [ht] at hr
    exact h.move hr rfl
  | @exitSleeps c p t k hc _ ht =>
    have hr := Roused.clearSubthreads (t := m.tab) (p := p)
    rw [ht] at hr
    exact (h.still hr).sleep _ _ _ _ nofun (by simp)
  | exitEnd hc =>
    obtain ⟨hp, hn⟩ := hg (_, _) (by rw [State.ends, hc]; rfl)
    exact h.exitRest hp hn
  | threadExit => exact h.move (.of_alike (alike_setProc ⟨rfl, rfl, rfl, rfl, rfl, rfl⟩)) rfl
  | threadExitEnd hc =>
    obtain ⟨-, hn⟩ := hg (_, _) (by rw [State.ends, hc]; rfl)
    exact h.threadExit hn
  | waitReaps _ _ _ ht => exact h.move (.reap ht) rfl
  | waitSleeps _ _ hz => exact h.sleep _ _ _ _ (fun _ => rfl) (by simpa using hz)
  | joinReaps => exact h.move .threadClear rfl
  | joinSleeps _ _ hz =>
    refine h.sleep _ _ _ _ (fun _ => rfl) fun z hw => hz z ?_
    rcases hw with ⟨hw, -⟩ | hw
    · cases hw
    · exact (Point.threadJoin.inj hw).symm
  | @exec c p hc =>
    exact h.move (.of_other ((detach_state p).trans (hS.running c p hc)) (by decide)
      fun _ => detach_other) rfl
  | killFirst => exact h.killFrom
  | killThread => exact killFrom (h.still .threadClear)
  | execEnd _ _ _ ht => exact h.move (.of_alike (execLoad_alike ht)) rfl

theorem init (hm : (kernel n).init m) : WaitInv m.pc m.tab := by
  obtain ⟨-, -, hp, -⟩ := hm
  refine ⟨fun q _ hw => ?_, fun q z _ hw => ?_⟩
  · rw [hp] at hw
    cases hw
  · have := hw.waits
    rw [hp] at this
    cases this

end WaitInv

theorem waitInv : (kernel n).Invariant WakesWaiters fun m => Sound m ∧ WaitInv m.pc m.tab where
  init hm := ⟨.init hm, .init hm⟩
  step := by
    rintro m a m' ⟨hS, h⟩ hg hn
    exact ⟨hS.step hg.1 (.of_next hn), h.step hS hg (.of_next hn)⟩

/-- While a thread that ends wakes whoever waits for it, no thread sleeps in `wait` that has a
zombie child, and none in `thread_join` for a thread that is a zombie. -/
theorem no_lost_wakeup (hm : (kernel n).ReachedVia WakesWaiters m)
    (hq : (m.tab.proc q).state = .SLEEPING) :
    (m.pc q = .wait → ∀ z, (m.tab.proc z).parent = some q → (m.tab.proc z).state ≠ .ZOMBIE) ∧
    ∀ thread, m.pc q = .threadJoin thread →
      ∀ z, (m.tab.proc z).tid = thread → (m.tab.proc z).state ≠ .ZOMBIE := by
  obtain ⟨-, h⟩ := waitInv.of_reached hm
  refine ⟨fun hp z hz => h.heard q z hq (.inl ⟨hp, hz⟩), fun thread hp z hz => ?_⟩
  refine h.heard q z hq (.inr ?_)
  rw [hp, hz]

/-- Init waits for two children, is woken by the first and waits again. -/
theorem no_lost_wakeup_init : ∃ m : State 2, (m.tab.proc 0).state = .SLEEPING ∧ m.pc 0 = .wait ∧
    ¬ m.tab.InUse 1 ∧ (m.tab.proc 2).parent = some 0 ∧ (m.tab.proc 2).state ≠ .ZOMBIE := by
  obtain ⟨m, hm, hp⟩ := LTS.exists_reachedVia_of_run (M := kernel 2) (C := WakesWaiters)
    (.flatten [[.dispatch 0 0], forkSteps 0, forkSteps 0, [.wait 0, .dispatch 1 1, .exit 1,
      .exitEnd 1, .dispatch 0 0, .wait 0, .wait 0]])
    (fun m => (m.tab.proc 0).state = .SLEEPING ∧ m.pc 0 = .wait ∧ ¬ m.tab.InUse 1 ∧
      (m.tab.proc 2).parent = some 0) (init_boot 2) (by decide +kernel) (by decide +kernel)
  simp only [decide_eq_true_eq] at hp
  obtain ⟨hs, hp, h1, h2⟩ := hp
  exact ⟨m, hs, hp, h1, h2, (no_lost_wakeup hm hs).1 hp 2 h2⟩

/-- A child of init makes two threads, and the first one joins the second one. This one wakes the
main thread only when it ends, and the first one sleeps on. -/
theorem joiner_not_woken : ∃ m : State 2, (kernel 2).Reached m ∧
    (m.tab.proc 2).state = .SLEEPING ∧ m.pc 2 = .threadJoin 2 ∧ (m.tab.proc 3).tid = 2 ∧
    (m.tab.proc 3).state = .ZOMBIE := by
  obtain ⟨m, hm, hp⟩ := LTS.exists_reached_of_run (M := kernel 2)
    (.flatten [[.dispatch 0 0], forkSteps 0, [.yield 0, .dispatch 0 1], threadCreateSteps 0,
      threadCreateSteps 0, [.dispatch 1 2, .threadJoin 1 2, .dispatch 1 3, .threadExit 1 0,
      .threadExitEnd 1]])
    (fun m => (m.tab.proc 2).state = .SLEEPING ∧ m.pc 2 = .threadJoin 2 ∧
      (m.tab.proc 3).tid = 2 ∧ (m.tab.proc 3).state = .ZOMBIE) (init_boot 2) (by decide +kernel)
  simp only [decide_eq_true_eq] at hp
  exact ⟨m, hm, hp⟩

end Xv6.Interleave
