import Xv6.Interleave.Step

/-! # Threads and slots

As long as `kill_threads_except` clears no slot whose thread is on a CPU or not yet running, a
thread on a CPU has a slot that is RUNNING and is on one CPU only, and a slot that a thread has
allocated in `fork` or `thread_create` stays EMBRYO for that thread until it says otherwise. -/

namespace Xv6.Interleave

open Function Thread

variable {n : Nat} {m m' : State n} {a : Act n} {c : Fin n} {p q np : Slot} {k : Point}
variable {t u w : Ptable} {v : Proc}

/-- The slot that the step clears in `kill_threads_except`. -/
def State.clears (m : State n) : Act n → Option Slot
  | .killThreads c => (m.cpu c).bind fun p =>
    match m.pc p with
    | .killThread _ q => some q
    | _ => none
  | _ => none

/-- `kill_threads_except` clears no thread that is on a CPU, and no slot under construction. -/
def NoGhost (m : State n) (a : Act n) : Prop :=
  ∀ q ∈ m.clears a, (m.tab.proc q).state ≠ .RUNNING ∧ (m.tab.proc q).state ≠ .EMBRYO

instance (m : State n) (a : Act n) : Decidable (NoGhost m a) :=
  Option.decidableForallMem (m.clears a)

theorem clears_killThreads (hc : m.cpu c = some p) (hp : m.pc p = .killThread pid q) :
    q ∈ m.clears (.killThreads c) := by
  simp [State.clears, hc, hp]

/-! ## States of slots -/

theorem inUse_of_live (h : Live (t.proc p).state) : t.InUse p := by
  intro e
  rw [e] at h
  exact absurd h (by decide)

/-- A slot that is neither free nor under construction. -/
def Grown (t : Ptable) (q : Slot) : Prop :=
  (t.proc q).state ≠ .UNUSED ∧ (t.proc q).state ≠ .EMBRYO

theorem grown_of_live (h : Live (t.proc p).state) : Grown t p := by
  rcases h with h | h | h <;> rw [Grown, h] <;> decide

/-- A slot that becomes free is not live any more. -/
theorem live_of_free (hu : (u.proc p).state = .UNUSED)
    (ho : ∀ q, q ≠ p → (u.proc q).state = (t.proc q).state) (q : Slot)
    (hq : Live (u.proc q).state) : Live (t.proc q).state := by
  have e : q ≠ p := by
    rintro rfl
    exact inUse_of_live hq hu
  rwa [ho q e] at hq

/-- No slot leaves RUNNING or EMBRYO or enters EMBRYO, and none becomes live. -/
structure Keeps (t u : Ptable) : Prop where
  running : ∀ q, (t.proc q).state = .RUNNING → (u.proc q).state = .RUNNING
  embryo : ∀ q, (u.proc q).state = .EMBRYO ↔ (t.proc q).state = .EMBRYO
  live : ∀ q, Live (u.proc q).state → Live (t.proc q).state

namespace Keeps

theorem refl : Keeps t t := ⟨fun _ => id, fun _ => .rfl, fun _ => id⟩

theorem trans (h : Keeps t u) (h' : Keeps u w) : Keeps t w :=
  ⟨fun q hq => h'.running q (h.running q hq), fun q => (h'.embryo q).trans (h.embryo q),
    fun q hq => h.live q (h'.live q hq)⟩

theorem of_state (h : ∀ q, (u.proc q).state = (t.proc q).state) : Keeps t u :=
  ⟨fun q hq => (h q).trans hq, fun q => by rw [h q], fun q hq => by rwa [h q] at hq⟩

theorem of_quiet (h : Quiet t u) : Keeps t u where
  running q hq := (h.woken q id).running hq
  embryo q := by
    rcases h.woken q id with e | ⟨e, e'⟩
    · rw [e]
    · simp [e, e']
  live q hq := by
    rcases h.woken q id with e | ⟨e, -⟩
    · rwa [e] at hq
    · exact .inl e

theorem setProc (h : v.state = (t.proc q).state) : Keeps t (t.setProc q v) :=
  of_state (Ptable.forall_setProc (P := fun r w => w.state = (t.proc r).state) h fun _ _ => rfl)

/-- A slot becomes free. -/
theorem clear (hr : (t.proc q).state ≠ .RUNNING) (he : (t.proc q).state ≠ .EMBRYO)
    (hu : (u.proc q).state = .UNUSED) (ho : ∀ r, r ≠ q → u.proc r = t.proc r) : Keeps t u := by
  refine ⟨fun r h => ?_, fun r => ?_, fun r h => ?_⟩ <;> by_cases e : r = q
  · exact absurd (e ▸ h) hr
  · rw [ho r e, h]
  · simp [e, hu, he]
  · rw [ho r e]
  · rw [e, hu] at h
    exact absurd h (by decide)
  · rwa [ho r e] at h

theorem threadClear (hr : (t.proc q).state ≠ .RUNNING) (he : (t.proc q).state ≠ .EMBRYO) :
    Keeps t (threadClear t q) :=
  clear hr he (by simp [Thread.threadClear]) fun _ => Ptable.setProc_proc_of_ne

theorem clearSubthreads : Keeps t (clearSubthreads t p).2 := by
  refine clearSubthreads_induction refl (fun u q hs hz => ?_) fun u q hs => ?_
  · exact hs.trans (threadClear (by simp [hz]) (by simp [hz]))
  · have hk : Keeps u (u.setProc q { u.proc q with killed := true }) := setProc rfl
    exact (hs.trans hk).trans (of_quiet .wakeup1)

theorem reap (hq : (t.proc q).state = .ZOMBIE) (h : reap t q = some u) : Keeps t u := by
  obtain ⟨g, -, rfl⟩ := reap_eq_some h
  exact clear (q := q) (by simp [hq]) (by simp [hq]) (by simp [Ptable.setProc])
    fun r hr => by simp [Ptable.setProc, hr]

end Keeps

theorem detach_state (q : Slot) : ((detach t p).proc q).state = (t.proc q).state := by
  by_cases hq : q = p
  · subst hq
    unfold detach
    split <;> simp
  · rw [detach_other hq]

/-- A process whose memory, flags and return value may have changed. -/
structure Alike (v w : Proc) : Prop where
  state : w.state = v.state
  pid : w.pid = v.pid
  tid : w.tid = v.tid
  main : w.main = v.main
  parent : w.parent = v.parent
  chan : w.chan = v.chan

theorem Alike.refl : Alike v v := ⟨rfl, rfl, rfl, rfl, rfl, rfl⟩

theorem alike_setProc (h : Alike (t.proc p) v) (q : Slot) :
    Alike (t.proc q) ((t.setProc p v).proc q) :=
  Ptable.forall_setProc (P := fun r w => Alike (t.proc r) w) h (fun _ _ => .refl) q

theorem execLoad_alike (h : execLoad t p e = some (r, u)) (q : Slot) :
    Alike (t.proc q) (u.proc q) := by
  cases e with
  | early | bad => cases h; exact .refl
  | ok sz =>
    obtain ⟨w, hw, ⟨⟩⟩ := Option.map_eq_some_iff.mp h
    rw [freevm_proc hw]
    refine alike_setProc (t := (setupkvm t).2) ?_ q
    exact ⟨rfl, rfl, rfl, rfl, rfl, rfl⟩

/-- What `allocproc` makes of a free slot. -/
theorem allocSlot_some (h : allocSlot t = some (np, u)) : (t.proc np).state = .UNUSED ∧
    (u.proc np).state = .EMBRYO ∧ Allocated np t u := by
  obtain ⟨q, hq, ⟨⟩⟩ := Option.map_eq_some_iff.mp h
  have hun : (t.proc np).state = .UNUSED := by simpa using (find_slots_eq_some.mp hq).1
  exact ⟨hun, by simp [Ptable.setProc], fun hp => hp hun, rfl, by simp [Ptable.setProc],
    by simp [Ptable.setProc], by simp [Ptable.setProc], fun r hr => by simp [Ptable.setProc, hr]⟩

theorem forkCopied_other (hq : q ≠ np) : (forkCopied t p np).proc q = t.proc q :=
  Ptable.setProc_proc_of_ne (t := (setupkvm t).2) hq

variable (t p np) in
theorem forkCopied_new : ∃ g, (forkCopied t p np).proc np = { t.proc np with
    pgdir := some g, sz := (t.proc p).sz,
    parent := if (t.proc np).tid ≠ 0 then (t.proc p).main else some p } :=
  ⟨_, Ptable.setProc_proc_self (setupkvm t).2 ..⟩

theorem setIds_other (hq : q ≠ np) : (setIds t main np).proc q = t.proc q :=
  Ptable.setProc_proc_of_ne (t := t) hq

theorem setIds_new : (setIds t main np).proc np = { t.proc np with
    tid := t.nexttid, main := some main, parent := some main, pid := (t.proc main).pid } :=
  Ptable.setProc_proc_self t ..

theorem alike_grow : ∀ q, Alike (t.proc q)
    ((t.setProc main { t.proc main with sz := (t.proc main).sz + 2 * PGSIZE }).proc q) :=
  alike_setProc ⟨rfl, rfl, rfl, rfl, rfl, rfl⟩

/-- The main thread and the new one grow. -/
theorem growMain_alike (q : Slot) : Alike (t.proc q) ((growMain t main np true).proc q) := by
  have hm := @alike_grow t main
  obtain ⟨h₁, h₂, h₃, h₄, h₅, h₆⟩ := hm np
  refine Ptable.forall_setProc (P := fun r w => Alike (t.proc r) w) ?_ (fun q _ => hm q) q
  exact ⟨h₁, h₂, h₃, h₄, h₅, h₆⟩

theorem growMain_fails : ((growMain t main np false).proc np).state = .UNUSED ∧
    ∀ q, q ≠ np → Alike (t.proc q) ((growMain t main np false).proc q) := by
  refine ⟨by simp [growMain, Ptable.setState], fun q hq => ?_⟩
  have e : (growMain t main np false).proc q =
      (t.setProc main { t.proc main with sz := (t.proc main).sz + 2 * PGSIZE }).proc q :=
    Ptable.setProc_proc_of_ne hq
  exact e ▸ alike_grow q

/-- The table at the end of `userinit`. -/
theorem userinit_pinit (h : userinit pinit = some t) : t.initproc = some 0 ∧ t.nextpid = 2 ∧
    ((t.proc 0).state = .RUNNABLE ∧ (t.proc 0).pid = 1 ∧ (t.proc 0).main = none) ∧
    ∀ q, q ≠ 0 → t.proc q = .zero := by
  have hf : slots.find? (fun p => (pinit.proc p).state = .UNUSED) = some 0 :=
    find_slots_eq_some.mpr ⟨rfl, fun q hq => absurd hq (Nat.not_lt_zero _)⟩
  simp only [userinit, allocproc, hf, if_true, setupkvm, Option.some.injEq] at h
  subst h
  refine ⟨rfl, rfl, ?_, fun q hq => ?_⟩
  · simp [Ptable.setProc, pinit]
  · simp [Ptable.setProc, pinit, hq]

/-! ## The invariant -/

structure Sound (m : State n) : Prop where
  running : ∀ c p, m.cpu c = some p → (m.tab.proc p).state = .RUNNING
  apart : ∀ c c' p, m.cpu c = some p → m.cpu c' = some p → c = c'
  fresh : ∀ p, (m.tab.proc p).state = .EMBRYO → m.pc p = .user
  embryo : ∀ p np, Live (m.tab.proc p).state → (m.pc p).new = some np →
    (m.tab.proc np).state = .EMBRYO
  creator : ∀ p q np, Live (m.tab.proc p).state → Live (m.tab.proc q).state →
    (m.pc p).new = some np → (m.pc q).new = some np → p = q

namespace Sound

theorem live (h : Sound m) (hc : m.cpu c = some p) : Live (m.tab.proc p).state :=
  .inr (.inr (h.running c p hc))

/-- A thread on a CPU has allocated a slot other than its own. -/
theorem new_ne (h : Sound m) (hc : m.cpu c = some p) (hp : (m.pc p).new = some np) :
    (m.tab.proc np).state = .EMBRYO ∧ np ≠ p := by
  have he := h.embryo p np (h.live hc) hp
  refine ⟨he, ?_⟩
  rintro rfl
  rw [h.running c np hc] at he
  cases he

theorem setTab (h : Sound m) (hk : Keeps m.tab u) : Sound (m.setTab u) where
  running c p hc := hk.running p (h.running c p hc)
  apart := h.apart
  fresh p hp := h.fresh p ((hk.embryo p).mp hp)
  embryo p np hp hn := (hk.embryo np).mpr (h.embryo p np (hk.live p hp) hn)
  creator p q np hp hq := h.creator p q np (hk.live p hp) (hk.live q hq)

/-- A thread on a CPU goes on to a point with the same new slot, or with none. -/
theorem goto (h : Sound m) (hc : m.cpu c = some p) (hk : k.new = none ∨ k.new = (m.pc p).new) :
    Sound (m.goto p k) := by
  have hnew : ∀ q np, ((m.goto p k).pc q).new = some np → (m.pc q).new = some np := by
    intro q np hq
    change (update m.pc p k q).new = _ at hq
    by_cases e : q = p
    · rw [e, update_self] at hq
      obtain hk | hk := hk
      · rw [hk] at hq
        cases hq
      · rwa [e, ← hk]
    · rwa [update_of_ne e] at hq
  refine ⟨h.running, h.apart, fun q hq => ?_, fun q np hq hn => h.embryo q np hq (hnew q np hn),
    fun q r np hq hr hn hn' => h.creator q r np hq hr (hnew q np hn) (hnew r np hn')⟩
  have e : q ≠ p := by
    rintro rfl
    change (m.tab.proc q).state = _ at hq
    rw [h.running c q hc] at hq
    cases hq
  change update m.pc p k q = _
  rw [update_of_ne e]
  exact h.fresh q hq

theorem move (h : Sound m) (hc : m.cpu c = some p) (hk : Keeps m.tab u)
    (hn : k.new = none ∨ k.new = (m.pc p).new) : Sound ((m.setTab u).goto p k) :=
  (h.setTab hk).goto hc hn

/-- The thread on `c` gives up the CPU. -/
theorem sched (h : Sound m) (hc : m.cpu c = some p) (hk : Keeps m.tab u)
    (hs : v.state ≠ .EMBRYO) : Sound (m.sched c (u.setProc p v)) := by
  have hcpu : ∀ c' q, (m.sched c (u.setProc p v)).cpu c' = some q →
      m.cpu c' = some q ∧ q ≠ p := by
    intro c' q hq
    change update m.cpu c none c' = _ at hq
    by_cases e : c' = c
    · rw [e, update_self] at hq
      cases hq
    · rw [update_of_ne e] at hq
      refine ⟨hq, ?_⟩
      rintro rfl
      exact e (h.apart _ _ _ hq hc)
  have hlive : ∀ q, Live ((u.setProc p v).proc q).state → Live (m.tab.proc q).state := by
    intro q hq
    by_cases e : q = p
    · exact e ▸ h.live hc
    · rw [Ptable.setProc_proc_of_ne e] at hq
      exact hk.live q hq
  have hembryo : ∀ q, ((u.setProc p v).proc q).state = .EMBRYO ↔
      (m.tab.proc q).state = .EMBRYO := by
    intro q
    by_cases e : q = p
    · rw [e, Ptable.setProc_proc_self, h.running c p hc]
      simp [hs]
    · rw [Ptable.setProc_proc_of_ne e]
      exact hk.embryo q
  refine ⟨fun c' q hq => ?_, fun c₁ c₂ q h₁ h₂ => h.apart _ _ _ (hcpu _ _ h₁).1 (hcpu _ _ h₂).1,
    fun q hq => h.fresh q ((hembryo q).mp hq),
    fun q np hq hn => (hembryo np).mpr (h.embryo q np (hlive q hq) hn),
    fun q r np hq hr => h.creator q r np (hlive q hq) (hlive r hr)⟩
  obtain ⟨hq, e⟩ := hcpu c' q hq
  change ((u.setProc p v).proc q).state = _
  rw [Ptable.setProc_proc_of_ne e]
  exact hk.running q (h.running c' q hq)

/-- The thread on `c` gives up the CPU at a point without a new slot. -/
theorem schedGoto (h : Sound m) (hc : m.cpu c = some p) (hk : Keeps m.tab u)
    (hs : v.state ≠ .EMBRYO) (hn : k.new = none) :
    Sound ((m.sched c (u.setProc p v)).goto p k) :=
  (h.goto (k := k) hc (.inl hn)).sched hc hk hs

theorem dispatch (h : Sound m) (hp : (m.tab.proc p).state = .RUNNABLE) :
    Sound { m with tab := Thread.dispatch m.tab p, cpu := update m.cpu c (some p) } := by
  have hself : ((Thread.dispatch m.tab p).proc p).state = .RUNNING := by
    simp [Thread.dispatch]
  have hother : ∀ q, q ≠ p → (Thread.dispatch m.tab p).proc q = m.tab.proc q :=
    fun q e => Ptable.setProc_proc_of_ne e
  have hoff : ∀ c', m.cpu c' ≠ some p := fun c' hc => by
    have := h.running c' p hc
    rw [hp] at this
    cases this
  have hlive : ∀ q, Live ((Thread.dispatch m.tab p).proc q).state → Live (m.tab.proc q).state := by
    intro q hq
    by_cases e : q = p
    · exact e ▸ .inr (.inl hp)
    · rwa [hother q e] at hq
  have hembryo : ∀ q, ((Thread.dispatch m.tab p).proc q).state = .EMBRYO ↔
      (m.tab.proc q).state = .EMBRYO := by
    intro q
    by_cases e : q = p
    · rw [e, hself, hp]
      decide
    · rw [hother q e]
  have hcpu : ∀ c' q, update m.cpu c (some p) c' = some q →
      c' = c ∧ q = p ∨ m.cpu c' = some q ∧ q ≠ p := by
    intro c' q hq
    by_cases e : c' = c
    · rw [e, update_self] at hq
      exact .inl ⟨e, (Option.some.inj hq).symm⟩
    · rw [update_of_ne e] at hq
      exact .inr ⟨hq, fun e => hoff c' (e ▸ hq)⟩
  refine ⟨fun c' q hq => ?_, fun c₁ c₂ q h₁ h₂ => ?_, fun q hq => h.fresh q ((hembryo q).mp hq),
    fun q np hq hn => (hembryo np).mpr (h.embryo q np (hlive q hq) hn),
    fun q r np hq hr => h.creator q r np (hlive q hq) (hlive r hr)⟩
  · obtain ⟨-, rfl⟩ | ⟨hq, e⟩ := hcpu c' q hq
    · exact hself
    · change ((Thread.dispatch m.tab p).proc q).state = _
      rw [hother q e]
      exact h.running c' q hq
  · obtain ⟨rfl, rfl⟩ | ⟨h₁, e₁⟩ := hcpu c₁ q h₁
    · obtain ⟨rfl, -⟩ | ⟨-, e₂⟩ := hcpu c₂ q h₂
      · rfl
      · exact absurd rfl e₂
    · obtain ⟨-, e₂⟩ | ⟨h₂, -⟩ := hcpu c₂ q h₂
      · exact absurd e₂ e₁
      · exact h.apart _ _ _ h₁ h₂

theorem alloc (h : Sound m) (hc : m.cpu c = some p) (ha : allocSlot m.tab = some (np, t))
    (hk : k.new = some np) : Sound (((m.setTab t).goto np .user).goto p k) := by
  obtain ⟨hun, hem, hal⟩ := allocSlot_some ha
  have hne : np ≠ p := by
    rintro rfl
    rw [h.running c np hc] at hun
    cases hun
  have hpc : ∀ q, q ≠ p → (((m.setTab t).goto np .user).goto p k).pc q =
      if q = np then .user else m.pc q := by
    intro q e
    change update (update m.pc np _) p _ q = _
    rw [update_of_ne e, update_apply]
  have hpc_self : (((m.setTab t).goto np .user).goto p k).pc p = k := update_self ..
  have hlive : ∀ q, Live (t.proc q).state → q ≠ np ∧ Live (m.tab.proc q).state := by
    intro q hq
    have e : q ≠ np := by
      rintro rfl
      rw [hem] at hq
      exact absurd hq (by decide)
    rw [hal.others q e] at hq
    exact ⟨e, hq⟩
  -- nobody else has `np`, which was free
  have hnew : ∀ q r, Live (t.proc q).state → q ≠ p →
      ((((m.setTab t).goto np .user).goto p k).pc q).new = some r →
      (m.pc q).new = some r ∧ Live (m.tab.proc q).state ∧ r ≠ np := by
    intro q r hq e hr
    obtain ⟨e', hq⟩ := hlive q hq
    rw [hpc q e, if_neg e'] at hr
    refine ⟨hr, hq, ?_⟩
    rintro rfl
    rw [h.embryo q r hq hr] at hun
    cases hun
  refine ⟨fun c' q hq => ?_, h.apart, fun q hq => ?_, fun q r hq hr => ?_,
    fun q q' r hq hq' hr hr' => ?_⟩
  · have hr := h.running c' q hq
    have e : q ≠ np := by
      rintro rfl
      rw [hun] at hr
      cases hr
    change (t.proc q).state = _
    rw [hal.others q e, hr]
  · have e : q ≠ p := by
      rintro rfl
      change (t.proc q).state = _ at hq
      rw [hal.others q hne.symm, h.running c q hc] at hq
      cases hq
    rw [hpc q e]
    split
    · rfl
    · next e' =>
      change (t.proc q).state = _ at hq
      rw [hal.others q e'] at hq
      exact h.fresh q hq
  · change (t.proc r).state = _
    by_cases e : q = p
    · rw [e, hpc_self, hk] at hr
      cases hr
      exact hem
    · obtain ⟨hr, hq, e'⟩ := hnew q r hq e hr
      rw [hal.others r e']
      exact h.embryo q r hq hr
  · by_cases e : q = p <;> by_cases e' : q' = p
    · rw [e, e']
    · rw [e, hpc_self, hk] at hr
      cases hr
      exact absurd rfl (hnew q' np hq' e' hr').2.2
    · rw [e', hpc_self, hk] at hr'
      cases hr'
      exact absurd rfl (hnew q np hq e hr).2.2
    · obtain ⟨hr, hq, -⟩ := hnew q r hq e hr
      obtain ⟨hr', hq', -⟩ := hnew q' r hq' e' hr'
      exact h.creator q q' r hq hq' hr hr'

/-- A thread gives up the slot that it has allocated: it is free, or has become runnable. -/
theorem release (h : Sound m) (hc : m.cpu c = some p) (hp : (m.pc p).new = some np)
    (hs : (u.proc np).state ≠ .EMBRYO)
    (ho : ∀ q, q ≠ np → (u.proc q).state = (m.tab.proc q).state) :
    Sound ((m.setTab u).goto p .user) := by
  obtain ⟨hem, hne⟩ := h.new_ne hc hp
  have hpc : ∀ q, q ≠ p → ((m.setTab u).goto p .user).pc q = m.pc q :=
    fun q e => update_of_ne e ..
  have hpc_self : ((m.setTab u).goto p .user).pc p = .user := update_self ..
  have hnew : ∀ q r, Live (u.proc q).state → (((m.setTab u).goto p .user).pc q).new = some r →
      (m.pc q).new = some r ∧ Live (m.tab.proc q).state ∧ r ≠ np := by
    intro q r hq hr
    have e : q ≠ p := by
      rintro rfl
      rw [hpc_self] at hr
      cases hr
    rw [hpc q e] at hr
    have e' : q ≠ np := by
      rintro rfl
      rw [h.fresh q hem] at hr
      cases hr
    rw [ho q e'] at hq
    refine ⟨hr, hq, ?_⟩
    rintro rfl
    exact e (h.creator q p r hq (h.live hc) hr hp)
  refine ⟨fun c' q hq => ?_, h.apart, fun q hq => ?_, fun q r hq hr => ?_,
    fun q q' r hq hq' hr hr' => ?_⟩
  · have hr := h.running c' q hq
    have e : q ≠ np := by
      rintro rfl
      rw [hem] at hr
      cases hr
    change (u.proc q).state = _
    rw [ho q e, hr]
  · change (u.proc q).state = _ at hq
    have e : q ≠ np := by
      rintro rfl
      exact hs hq
    rw [ho q e] at hq
    have e' : q ≠ p := by
      rintro rfl
      rw [h.running c q hc] at hq
      cases hq
    rw [hpc q e']
    exact h.fresh q hq
  · obtain ⟨hr, hq, e⟩ := hnew q r hq hr
    change (u.proc r).state = _
    rw [ho r e]
    exact h.embryo q r hq hr
  · obtain ⟨hr, hq, -⟩ := hnew q r hq hr
    obtain ⟨hr', hq', -⟩ := hnew q' r hq' hr'
    exact h.creator q q' r hq hq' hr hr'

theorem killFrom (h : Sound m) (hc : m.cpu c = some p) : Sound (m.killFrom p pid i) := by
  unfold State.killFrom
  split
  · exact h.move hc (.of_quiet .reparent) (.inl rfl)
  · exact h.goto hc (.inl rfl)

theorem step (h : Sound m) (hg : NoGhost m a) (hs : Step m a m') : Sound m' := by
  cases hs with
  | dispatch hc hp => exact h.dispatch hp
  | yield hc | sleep hc => exact h.sched hc .refl (by simp)
  | wakeup => exact h.setTab (.of_quiet .wakeup1)
  | kill => exact h.setTab (.of_quiet .kill)
  | call hc | ret hc | cleariFails hc | exitThread hc | waitFails hc | joinFails hc =>
    exact h.goto hc (.inl rfl)
  | hold => exact ⟨h.running, h.apart, h.fresh, h.embryo, h.creator⟩
  | noSlot => exact h
  | fork hc _ ha | threadCreate hc _ ha => exact h.alloc hc ha rfl
  | forkKalloc hc hp | createKalloc hc hp => exact h.goto hc (.inr (by rw [hp]; rfl))
  | drop hc hp =>
    exact h.release hc hp (by simp) fun q hq => by rw [Ptable.setProc_proc_of_ne hq]
  | @copyuvm c p np hc hp =>
    refine h.move hc (.of_state fun q => ?_) (.inr (by rw [hp]; rfl))
    by_cases e : q = np
    · obtain ⟨g, hg⟩ := forkCopied_new p np m.tab
      rw [e, hg]
    · rw [forkCopied_other e]
  | decNextpid hc hp => exact h.move hc (.of_state fun _ => rfl) (.inr (by rw [hp]; rfl))
  | @setIds c p np main hc hp =>
    refine h.move hc (.of_state fun q => ?_) (.inr (by rw [hp]; rfl))
    by_cases e : q = np
    · rw [e, setIds_new]
    · rw [setIds_other e]
  | allocuvm hc hp =>
    exact h.move hc (.of_state fun q => (growMain_alike q).state) (.inr (by rw [hp]; rfl))
  | allocuvmFails hc hp =>
    exact h.release hc (by rw [hp]; rfl) (by simp [growMain_fails.1])
      fun q hq => (growMain_fails.2 q hq).state
  | @runnable c p np main hc hp =>
    have hn : (m.pc p).new = some np := by
      rcases hp with hp | hp <;> rw [hp] <;> rfl
    refine h.release hc hn (by simp [Ptable.setState]) fun q hq => ?_
    rw [Ptable.setState, Ptable.setProc_proc_of_ne hq]
  | @exitCleared c p t hc _ _ ht =>
    have hk := Keeps.clearSubthreads (t := m.tab) (p := p)
    rw [ht] at hk
    exact h.move hc hk (.inl rfl)
  | @exitSleeps c p t k hc _ ht =>
    have hk := Keeps.clearSubthreads (t := m.tab) (p := p)
    rw [ht] at hk
    exact h.schedGoto hc hk (by simp) rfl
  | @exitEnd c p hc =>
    obtain ⟨u, hu, e⟩ := exitRest_eq m.tab p
    rw [e]
    exact h.sched hc (.of_quiet hu) (by simp)
  | threadExit hc => exact h.move hc (.setProc rfl) (.inl rfl)
  | @threadExitEnd c p hc =>
    obtain ⟨u, hu, e⟩ := threadExit_eq m.tab p (m.tab.proc p).retval
    rw [e]
    exact h.sched hc (.of_quiet hu) (by simp)
  | waitReaps hc _ hq ht => exact h.move hc (.reap hq ht) (.inl rfl)
  | waitSleeps hc | joinSleeps hc => exact h.schedGoto hc .refl (by simp) rfl
  | joinReaps hc _ hq =>
    exact h.move hc (.threadClear (by simp [hq]) (by simp [hq])) (.inl rfl)
  | exec hc => exact h.move hc (.of_state detach_state) (.inl rfl)
  | killFirst hc => exact h.killFrom hc
  | killThread hc hp =>
    obtain ⟨hr, he⟩ := hg _ (clears_killThreads hc hp)
    exact (h.setTab (.threadClear hr he)).killFrom hc
  | execEnd hc _ _ ht => exact h.move hc (.of_state fun q => (execLoad_alike ht q).state) (.inl rfl)

theorem init (hm : (kernel n).init m) : Sound m := by
  obtain ⟨ht, hc, hp, -⟩ := hm
  refine ⟨fun c p h => ?_, fun c c' p h => ?_, fun p _ => hp p, fun p np _ h => ?_,
    fun p q np _ _ h => ?_⟩
  · rw [hc] at h; cases h
  · rw [hc] at h; cases h
  · rw [hp] at h; cases h
  · rw [hp] at h; cases h

end Sound

/-- A thread is on one CPU, and a slot under construction is left to the call that took it. -/
theorem slots_sound : (kernel n).Invariant NoGhost Sound where
  init := Sound.init
  step h hg hn := h.step hg (.of_next hn)

end Xv6.Interleave
