import Xv6.Lib.Table
import Xv6.Thread.Ptable

/-! # What the operations of the table change

Most operations change the identity of no slot (its pid, its thread id, its main thread and its
page directory), and wake other processes at most. `Effect gone t u` says so for all slots but
those in `gone`, which become free; `Idle` and `Takes` say it for an attempt to create a process
that fails and for one that succeeds. -/

namespace Xv6.Thread

variable {t u : Ptable} {p q : Slot}

/-- A process that keeps what the invariant speaks of. -/
structure SameIds (v w : Proc) : Prop where
  pid : w.pid = v.pid
  tid : w.tid = v.tid
  main : w.main = v.main
  pgdir : w.pgdir = v.pgdir

theorem SameIds.refl : SameIds v v := ⟨rfl, rfl, rfl, rfl⟩

theorem SameIds.trans (h : SameIds v w) (h' : SameIds w x) : SameIds v x :=
  ⟨h'.pid.trans h.pid, h'.tid.trans h.tid, h'.main.trans h.main, h'.pgdir.trans h.pgdir⟩

/-- A process goes on as it is, or is woken. -/
def Woken (v w : Proc) : Prop :=
  w.state = v.state ∨ v.state = .SLEEPING ∧ w.state = .RUNNABLE

theorem Woken.trans (h : Woken v w) (h' : Woken w x) : Woken v x := by
  rcases h with e | ⟨e, e'⟩
  · rcases h' with f | ⟨f, f'⟩
    · exact .inl (f.trans e)
    · exact .inr ⟨e ▸ f, f'⟩
  · rcases h' with f | ⟨f, -⟩
    · exact .inr ⟨e, f.trans e'⟩
    · rw [e'] at f; cases f

theorem Woken.unused_iff (h : Woken v w) : w.state ≠ .UNUSED ↔ v.state ≠ .UNUSED := by
  rcases h with e | ⟨e, e'⟩
  · rw [e]
  · simp [e, e']

theorem Woken.running (h : Woken v w) (hv : v.state = .RUNNING) : w.state = .RUNNING := by
  rcases h with e | ⟨e, -⟩
  · exact e.trans hv
  · rw [hv] at e; cases e

theorem Woken.sleeping (h : Woken v w) (hw : w.state = .SLEEPING) : v.state = .SLEEPING := by
  rcases h with e | ⟨-, e⟩
  · exact e ▸ hw
  · rw [hw] at e; cases e

theorem wakeupOne_proc : (wakeupOne chan t p).proc q =
    if q = p ∧ (t.proc q).state = .SLEEPING ∧ (t.proc q).chan = chan then
      { t.proc q with state := .RUNNABLE } else t.proc q := by
  unfold wakeupOne
  by_cases e : q = p
  · subst e
    split
    · next h => simp [h, Ptable.setState]
    · next h => simp [h]
  · have hn : ¬ (q = p ∧ (t.proc q).state = .SLEEPING ∧ (t.proc q).chan = chan) := fun h => e h.1
    rw [if_neg hn]
    split
    · exact Ptable.setProc_proc_of_ne e
    · rfl

/-- `wakeup1` wakes the processes that sleep on `chan`. -/
theorem wakeup1_proc : (wakeup1 t chan).proc q =
    if (t.proc q).state = .SLEEPING ∧ (t.proc q).chan = chan then
      { t.proc q with state := .RUNNABLE } else t.proc q := by
  have h : ∀ (ps : List Slot) (t : Ptable), (ps.foldl (wakeupOne chan) t).proc q =
      if q ∈ ps ∧ (t.proc q).state = .SLEEPING ∧ (t.proc q).chan = chan then
        { t.proc q with state := .RUNNABLE } else t.proc q := by
    intro ps
    induction ps with
    | nil => simp
    | cons r ps ih =>
      intro t
      rw [List.foldl_cons, ih, wakeupOne_proc]
      by_cases e : q = r
      · by_cases hs : (t.proc q).state = .SLEEPING ∧ (t.proc q).chan = chan <;> simp [e ▸ hs, e]
      · simp [e]
  rw [wakeup1, h]
  simp [mem_slots]

/-- From `t` to `u` the slots in `gone` become free, and the others are at most woken. -/
structure Effect (gone : Slot → Prop) (t u : Ptable) : Prop where
  globals : u.toGlobals = t.toGlobals
  free : ∀ q, gone q → ¬ u.InUse q
  ids : ∀ q, ¬ gone q → SameIds (t.proc q) (u.proc q)
  woken : ∀ q, ¬ gone q → Woken (t.proc q) (u.proc q)

/-- No slot becomes free. -/
abbrev Quiet (t u : Ptable) : Prop := Effect (fun _ => False) t u

namespace Effect

theorem inUse_iff (h : Effect gone t u) (hq : ¬ gone q) : u.InUse q ↔ t.InUse q :=
  (h.woken q hq).unused_iff

theorem not_gone (h : Effect gone t u) (hq : u.InUse q) : ¬ gone q := fun hg => h.free q hg hq

theorem trans_quiet (h : Effect gone t u) (h' : Quiet u t') : Effect gone t t' where
  globals := h'.globals.trans h.globals
  free q hq hu := h.free q hq ((h'.inUse_iff id).mp hu)
  ids q hq := (h.ids q hq).trans (h'.ids q id)
  woken q hq := (h.woken q hq).trans (h'.woken q id)

theorem refl : Quiet t t := ⟨rfl, nofun, fun _ _ => .refl, fun _ _ => .inl rfl⟩

/-- An assignment that wakes a process at most. -/
theorem setProc (hi : SameIds (t.proc p) v) (hw : Woken (t.proc p) v) :
    Quiet t (t.setProc p v) where
  globals := rfl
  free := nofun
  ids q _ := Ptable.forall_setProc (P := fun q v => SameIds (t.proc q) v) hi (fun _ _ => .refl) q
  woken q _ := Ptable.forall_setProc (P := fun q v => Woken (t.proc q) v) hw (fun _ _ => .inl rfl) q

end Effect

/-- No slot becomes free, and every slot keeps its size and its return value. -/
structure Calm (t u : Ptable) : Prop where
  quiet : Quiet t u
  sz : ∀ q, (u.proc q).sz = (t.proc q).sz
  retval : ∀ q, (u.proc q).retval = (t.proc q).retval

namespace Calm

theorem refl : Calm t t := ⟨.refl, fun _ => rfl, fun _ => rfl⟩

theorem trans (h : Calm t u) (h' : Calm u t') : Calm t t' where
  quiet := h.quiet.trans_quiet h'.quiet
  sz q := (h'.sz q).trans (h.sz q)
  retval q := (h'.retval q).trans (h.retval q)

theorem setProc (hi : SameIds (t.proc p) v) (hw : Woken (t.proc p) v)
    (hsz : v.sz = (t.proc p).sz) (hr : v.retval = (t.proc p).retval) :
    Calm t (t.setProc p v) where
  quiet := .setProc hi hw
  sz q := Ptable.forall_setProc (P := fun q v => v.sz = (t.proc q).sz) hsz (fun _ _ => rfl) q
  retval q :=
    Ptable.forall_setProc (P := fun q v => v.retval = (t.proc q).retval) hr (fun _ _ => rfl) q

theorem foldl (hf : ∀ t p, Calm t (f t p)) (ps : List Slot) : Calm t (ps.foldl f t) :=
  Table.foldl_inv ps (fun u p hu => hu.trans (hf u p)) refl

theorem wakeup1 : Calm t (wakeup1 t chan) := by
  refine foldl (fun t p => ?_) slots
  unfold wakeupOne
  split
  · next h => exact setProc ⟨rfl, rfl, rfl, rfl⟩ (.inr ⟨h.1, rfl⟩) rfl rfl
  · exact refl

theorem reparent : Calm t (reparent t p) := by
  refine foldl (fun t q => ?_) slots
  simp only [reparentOne]
  split
  · have h : Calm t (t.setProc q { t.proc q with parent := t.initproc }) :=
      setProc ⟨rfl, rfl, rfl, rfl⟩ (.inl rfl) rfl rfl
    split
    · exact h.trans wakeup1
    · exact h
  · exact refl

theorem kill : Calm t (kill t pid) := by
  unfold Thread.kill
  split
  · refine setProc ⟨rfl, rfl, rfl, rfl⟩ ?_ rfl rfl
    split
    · next h => exact .inr ⟨h, rfl⟩
    · exact .inl rfl
  · exact refl

/-- A process is marked as killed and woken. -/
theorem killed (p : Slot) :
    Calm t (Thread.wakeup1 (t.setProc p { t.proc p with killed := true }) (some (.proc p))) := by
  have h : Calm t (t.setProc p { t.proc p with killed := true }) :=
    setProc ⟨rfl, rfl, rfl, rfl⟩ (.inl rfl) rfl rfl
  exact h.trans wakeup1

end Calm

namespace Effect

theorem wakeup1 : Quiet t (wakeup1 t chan) := Calm.wakeup1.quiet

theorem reparent : Quiet t (reparent t p) := Calm.reparent.quiet

theorem kill : Quiet t (kill t pid) := Calm.kill.quiet

theorem clear (h : Quiet t u) (hv : v.state = .UNUSED) : Effect (· = p) t (u.setProc p v) where
  globals := h.globals
  free q hq := by
    subst hq
    simp [Ptable.InUse, hv]
  ids q hq := by
    rw [Ptable.setProc_proc_of_ne hq]
    exact h.ids q id
  woken q hq := by
    rw [Ptable.setProc_proc_of_ne hq]
    exact h.woken q id

end Effect

/-- `clear_subthreads` clears zombies, and marks processes as killed and wakes them. -/
theorem clearSubthreads_induction {P : Ptable → Prop} (h : P t)
    (hc : ∀ u q, P u → (u.proc q).state = .ZOMBIE → P (threadClear u q))
    (hk : ∀ u q, P u → P (wakeup1 (u.setProc q { u.proc q with killed := true })
      (some (.proc q)))) : P (clearSubthreads t p).2 := by
  refine Table.foldl_inv (P := fun s : Nat × Ptable => P s.2) slots (fun s q hs => ?_) h
  simp only [clearOne]
  split
  · exact hs
  · split
    · next hz => exact hc s.2 q hs hz
    · exact hk s.2 q hs

/-! ## Parents of slots -/

theorem wakeup1_parent : ((wakeup1 t chan).proc q).parent = (t.proc q).parent := by
  rw [wakeup1_proc]
  split <;> rfl

theorem kill_parent : ((kill t pid).proc q).parent = (t.proc q).parent := by
  unfold Thread.kill
  split
  · next r _ =>
    exact Ptable.forall_setProc (P := fun r w => r = q → w.parent = (t.proc q).parent)
      (fun e => e ▸ rfl) (fun _ _ e => e ▸ rfl) q rfl
  · rfl

theorem reparentOne_parent : ((reparentOne p t r).proc q).parent =
    if q = r ∧ (t.proc q).parent = some p then t.initproc else (t.proc q).parent := by
  have hset : ((t.setProc r { t.proc r with parent := t.initproc }).proc q).parent =
      if q = r then t.initproc else (t.proc q).parent := by
    by_cases e : q = r
    · simp [e]
    · simp [e, Ptable.setProc_proc_of_ne]
  simp only [reparentOne]
  split
  · next h =>
    have hq : q = r → (t.proc q).parent = some p := fun e => e ▸ h
    have hiff : (q = r ∧ (t.proc q).parent = some p) ↔ q = r := ⟨And.left, fun e => ⟨e, hq e⟩⟩
    rw [if_congr hiff rfl rfl]
    split
    · rw [wakeup1_parent, hset]
    · rw [hset]
  · next h =>
    rw [if_neg]
    rintro ⟨rfl, hq⟩
    exact h hq

theorem reparentOne_initproc : (reparentOne p t r).initproc = t.initproc := by
  simp only [reparentOne]
  split
  · split
    · exact congrArg Globals.initproc Effect.wakeup1.globals
    · rfl
  · rfl

/-- The children of `p` are passed to init. -/
theorem reparent_parent : ((reparent t p).proc q).parent =
    if (t.proc q).parent = some p then t.initproc else (t.proc q).parent := by
  have h : ∀ (ps : List Slot) (t : Ptable), ((ps.foldl (reparentOne p) t).proc q).parent =
      if q ∈ ps ∧ (t.proc q).parent = some p then t.initproc else (t.proc q).parent := by
    intro ps
    induction ps with
    | nil => simp
    | cons r ps ih =>
      intro t
      rw [List.foldl_cons, ih, reparentOne_parent, reparentOne_initproc]
      by_cases e : q = r
      · subst e
        by_cases hq : (t.proc q).parent = some p <;> simp [hq]
      · simp [e]
  rw [reparent, h]
  simp [mem_slots]

/-- The last steps of `thread_exit`. -/
theorem threadExit_eq (t : Ptable) (p : Slot) (retval : UInt32) :
    ∃ u, Quiet t u ∧ threadExit t p retval = u.setState p .ZOMBIE := by
  have hr : Quiet t (t.setProc p { t.proc p with retval := retval }) :=
    .setProc ⟨rfl, rfl, rfl, rfl⟩ (.inl rfl)
  exact ⟨_, hr.trans_quiet .wakeup1, rfl⟩

/-- The last steps of `exit`. -/
theorem exitRest_calm (t : Ptable) (p : Slot) :
    ∃ u, Calm t u ∧ exitRest t p = u.setState p .ZOMBIE := by
  refine ⟨_, Calm.trans ?_ .reparent, rfl⟩
  split
  · exact .wakeup1
  · next m _ => exact .killed m

theorem exitRest_eq (t : Ptable) (p : Slot) :
    ∃ u, Quiet t u ∧ exitRest t p = u.setState p .ZOMBIE := by
  obtain ⟨u, hu, e⟩ := exitRest_calm t p
  exact ⟨u, hu.quiet, e⟩

theorem inUse_of_running (h : (t.proc p).state = .RUNNING) : t.InUse p := by
  simp [Ptable.InUse, h]

/-! ## Creation -/

/-- The slots in use stay as they are. -/
structure Idle (t u : Ptable) : Prop where
  vm : u.vm = t.vm
  nextpid : t.nextpid ≤ u.nextpid
  nexttid : t.nexttid ≤ u.nexttid
  ids : ∀ q, t.InUse q → SameIds (t.proc q) (u.proc q)
  state : ∀ q, t.InUse q → (u.proc q).state = (t.proc q).state
  free : ∀ q, ¬ t.InUse q → ¬ u.InUse q

theorem Idle.inUse (h : Idle t u) (hq : u.InUse q) : t.InUse q :=
  by_contra fun hn => h.free q hn hq

/-- Only a free slot is written, and stays free. -/
theorem Idle.of_ne (hp : ¬ t.InUse p) (hu : (u.proc p).state = .UNUSED)
    (hids : ∀ q, q ≠ p → SameIds (t.proc q) (u.proc q))
    (hstate : ∀ q, q ≠ p → (u.proc q).state = (t.proc q).state) (hvm : u.vm = t.vm)
    (hnextpid : t.nextpid ≤ u.nextpid) (hnexttid : t.nexttid ≤ u.nexttid) : Idle t u := by
  have hne : ∀ q, t.InUse q → q ≠ p := fun q hq e => hp (e ▸ hq)
  refine ⟨hvm, hnextpid, hnexttid, fun q hq => hids q (hne q hq), fun q hq => hstate q (hne q hq),
    fun q hq hq' => ?_⟩
  by_cases e : q = p
  · subst e; exact hq' hu
  · rw [Ptable.InUse, hstate q e] at hq'
    exact hq hq'

/-- The free slot `np` is taken, and the others stay as they are. -/
structure Takes (np : Slot) (t u : Ptable) : Prop where
  free : ¬ t.InUse np
  taken : u.InUse np
  ids : ∀ q, q ≠ np → SameIds (t.proc q) (u.proc q)
  state : ∀ q, q ≠ np → (u.proc q).state = (t.proc q).state

namespace Takes

variable {np : Slot}

theorem inUse_cases (h : Takes np t u) (hq : u.InUse q) : q = np ∨ q ≠ np ∧ t.InUse q := by
  by_cases e : q = np
  · exact .inl e
  · rw [Ptable.InUse, h.state q e] at hq
    exact .inr ⟨e, hq⟩

theorem inUse (h : Takes np t u) (hq : t.InUse q) : q ≠ np ∧ u.InUse q := by
  have hne : q ≠ np := fun e => h.free (e ▸ hq)
  refine ⟨hne, ?_⟩
  rw [Ptable.InUse, h.state q hne]
  exact hq

theorem running (h : Takes np t u) (hq : (t.proc q).state = .RUNNING) :
    (u.proc q).state = .RUNNING ∧ SameIds (t.proc q) (u.proc q) := by
  have hne := (h.inUse (inUse_of_running hq)).1
  exact ⟨(h.state q hne).trans hq, h.ids q hne⟩

end Takes

theorem allocproc_none (h : allocproc t kalloc = (none, u)) : Idle t u := by
  unfold allocproc at h
  split at h
  · cases h
    exact ⟨rfl, le_rfl, le_rfl, fun _ _ => .refl, fun _ _ => rfl, fun _ => id⟩
  · next p hp =>
    have hun : (t.proc p).state = .UNUSED := by simpa using (find_slots_eq_some.mp hp).1
    cases kalloc with
    | true => cases h
    | false =>
      cases h
      refine .of_ne (p := p) (fun hp => hp hun) (by simp [Ptable.setState]) (fun q hq => ?_)
        (fun q hq => ?_) rfl (Int.lt_succ _).le le_rfl
      · simp [Ptable.setState, Ptable.setProc, hq, SameIds.refl]
      · simp [Ptable.setState, Ptable.setProc, hq]

/-- What `allocproc` makes of the slot it takes. -/
structure Allocated (np : Slot) (t u : Ptable) : Prop where
  free : ¬ t.InUse np
  globals : u.toGlobals = { t.toGlobals with nextpid := t.nextpid + 1 }
  pid : (u.proc np).pid = t.nextpid
  tid : (u.proc np).tid = 0
  main : (u.proc np).main = none
  others : ∀ q, q ≠ np → u.proc q = t.proc q

theorem allocproc_some (h : allocproc t kalloc = (some np, u)) : Allocated np t u := by
  unfold allocproc at h
  split at h
  · cases h
  · next p hp =>
    have hun : (t.proc p).state = .UNUSED := by simpa using (find_slots_eq_some.mp hp).1
    cases kalloc with
    | false => cases h
    | true =>
      cases h
      exact ⟨fun hp => hp hun, rfl, by simp, by simp, by simp,
        fun q hq => Ptable.setProc_proc_of_ne hq⟩

section ThreadInit
variable {np : Slot}

theorem threadInit_globals : (threadInit t m np allocuvm).tab.toGlobals =
    { t.toGlobals with nextpid := t.nextpid - 1, nexttid := t.nexttid + 1 } := by
  cases allocuvm <;> rfl

/-- `thread_create` changes no other slot than the new one, but for the size of the main thread. -/
theorem threadInit_other (hq : q ≠ np) :
    SameIds (t.proc q) ((threadInit t m np allocuvm).tab.proc q) ∧
      ((threadInit t m np allocuvm).tab.proc q).state = (t.proc q).state := by
  by_cases hqm : q = m
  · subst hqm
    cases allocuvm <;> simp [threadInit, Ptable.setProc, Ptable.setState, hq] <;>
      exact ⟨rfl, rfl, rfl, rfl⟩
  · cases allocuvm <;> simp [threadInit, Ptable.setProc, Ptable.setState, hq, hqm, SameIds.refl]

theorem threadInit_true (hm : m ≠ np) :
    ∃ sz, (threadInit t m np true).tab.proc np = { t.proc np with
      tid := t.nexttid, main := some m, parent := some m, pid := (t.proc m).pid,
      pgdir := (t.proc m).pgdir, sz := sz, state := .RUNNABLE } := by
  simp [threadInit, Ptable.setProc, hm, hm.symm]

end ThreadInit

/-! ## Waiting -/

theorem reap_eq_some (h : reap t p = some u) : ∃ g, (t.proc p).pgdir = some g ∧
    u = { t.setProc p { t.proc p with
      pid := 0, parent := none, killed := false, state := .UNUSED } with vm := t.vm.free g } := by
  obtain ⟨t1, hf, rfl⟩ := Option.map_eq_some_iff.mp h
  cases hg : (t.proc p).pgdir with
  | none => rw [hg] at hf; cases hf
  | some g =>
    rw [hg] at hf
    cases hf
    exact ⟨g, rfl, rfl⟩

/-- How a pass of `wait` ends. -/
theorem wait_cases (h : wait t p = some o) :
    (∃ q u, ((t.proc q).parent = some p ∧ (t.proc q).state = .ZOMBIE) ∧
        (∀ r < q, ¬ ((t.proc r).parent = some p ∧ (t.proc r).state = .ZOMBIE)) ∧
        reap t q = some u ∧ o = .returns (t.proc q).pid u) ∨
      o = .returns (-1) t ∨ (∀ q, (t.proc q).parent = some p → (t.proc q).state ≠ .ZOMBIE) ∧
        o = .sleeps (sleep t p (some (.proc p)) .wait) := by
  unfold wait at h
  split at h
  · next q hq =>
    obtain ⟨u, hu, rfl⟩ := Option.map_eq_some_iff.mp h
    have hf := find_slots_eq_some.mp hq
    simp only [decide_eq_true_eq, decide_eq_false_iff_not] at hf
    exact .inl ⟨q, u, hf.1, hf.2, hu, rfl⟩
  · next hf =>
    split at h
    · exact .inr (.inl (Option.some.inj h).symm)
    · refine .inr (.inr ⟨fun q hq hz => ?_, (Option.some.inj h).symm⟩)
      simpa [hq, hz] using find_slots_eq_none.mp hf q

/-- How a pass of `thread_join` ends. -/
theorem threadJoin_cases (t : Ptable) (p : Slot) (thread : Int) :
    (∃ q, ((t.proc q).tid = thread ∧ (t.proc q).state = .ZOMBIE) ∧
        (∀ r < q, ¬ ((t.proc r).tid = thread ∧ (t.proc r).state = .ZOMBIE)) ∧
        threadJoin t p thread = .returns (some (t.proc q).retval, 0) (threadClear t q)) ∨
      threadJoin t p thread = .returns (none, -1) t ∨
      (∀ q, (t.proc q).tid = thread → (t.proc q).state ≠ .ZOMBIE) ∧
        threadJoin t p thread = .sleeps (sleep t p (some (.proc p)) (.threadJoin thread)) := by
  unfold threadJoin
  split
  · next q hq =>
    have hf := find_slots_eq_some.mp hq
    simp only [decide_eq_true_eq, decide_eq_false_iff_not] at hf
    exact .inl ⟨q, hf.1, hf.2, rfl⟩
  · next hf =>
    split
    · exact .inr (.inl rfl)
    · refine .inr (.inr ⟨fun q hq hz => ?_, rfl⟩)
      simpa [hq, hz] using find_slots_eq_none.mp hf q

/-! ## `exec` -/

section KillThreads
/-- One more slot is cleared. -/
theorem Effect.killOne (h : Effect gone t u) (p cp : Slot) (pid : Int) : Effect
    (fun q => gone q ∨ q = p ∧ q ≠ cp ∧ (t.proc q).pid = pid) t (killOne pid cp u p) := by
  unfold Thread.killOne
  split
  · next hp =>
    refine ⟨h.globals, fun q hq => ?_, fun q hq => h.ids q (hq ∘ .inl),
      fun q hq => h.woken q (hq ∘ .inl)⟩
    rcases hq with hq | ⟨rfl, hne, hpid⟩
    · exact h.free q hq
    · by_cases hg : gone q
      · exact h.free q hg
      · rw [(h.ids q hg).pid, or_iff_left hne] at hp
        exact absurd hpid hp
  · next hp =>
    push Not at hp
    have he : Effect (· = p) u (threadClear (Thread.reparent u p) p) := .clear .reparent rfl
    have hne : ∀ q, ¬ (gone q ∨ q = p ∧ q ≠ cp ∧ (t.proc q).pid = pid) → ¬ gone q ∧ q ≠ p := by
      refine fun q hq => ⟨hq ∘ .inl, ?_⟩
      rintro rfl
      exact hq (.inr ⟨rfl, hp.2, (h.ids q (hq ∘ .inl)).pid ▸ hp.1⟩)
    refine ⟨he.globals.trans h.globals, fun q hq => ?_, fun q hq => ?_, fun q hq => ?_⟩
    · by_cases hqp : q = p
      · exact he.free q hqp
      · rw [he.inUse_iff hqp]
        exact h.free q (hq.resolve_right fun e => hqp e.1)
    · exact (h.ids q (hne q hq).1).trans (he.ids q (hne q hq).2)
    · exact (h.woken q (hne q hq).1).trans (he.woken q (hne q hq).2)

theorem Effect.foldl_killOne (cp : Slot) (pid : Int) (ps : List Slot) (h : Effect gone t u) :
    Effect (fun q => gone q ∨ q ∈ ps ∧ q ≠ cp ∧ (t.proc q).pid = pid) t
      (ps.foldl (Thread.killOne pid cp) u) := by
  induction ps generalizing gone u with
  | nil => simpa using h
  | cons p ps ih =>
    have he := ih (h.killOne p cp pid)
    simpa only [List.foldl_cons, List.mem_cons, or_and_right, or_assoc] using he

/-- `kill_threads_except` frees the slots with the given pid. -/
theorem Effect.killThreadsExcept (t : Ptable) (pid : Int) (p : Slot) :
    Effect (fun q => q ≠ p ∧ (t.proc q).pid = pid) t (killThreadsExcept t pid p) := by
  have h := Effect.foldl_killOne p pid slots (Effect.refl (t := t))
  simp only [mem_slots, true_and, false_or] at h
  exact h

end KillThreads

theorem detach_other (hq : q ≠ p) : (detach t p).proc q = t.proc q := by
  unfold detach
  split
  · exact Ptable.setProc_proc_of_ne hq
  · rfl

theorem detach_globals : (detach t p).toGlobals = t.toGlobals := by
  unfold detach
  split <;> rfl

theorem detach_pid (q : Slot) : ((detach t p).proc q).pid = (t.proc q).pid := by
  by_cases hq : q = p
  · subst hq
    unfold detach
    split
    · simp
    · rfl
  · rw [detach_other hq]

/-- The table when `exec` has killed the other threads of the caller. -/
abbrev execKilled (t : Ptable) (p : Slot) : Ptable :=
  killThreadsExcept (detach t p) ((detach t p).proc p).pid p

theorem Effect.execKilled :
    Effect (fun q => q ≠ p ∧ (t.proc q).pid = (t.proc p).pid) (detach t p) (execKilled t p) := by
  have h := Effect.killThreadsExcept (detach t p) ((detach t p).proc p).pid p
  simpa only [Thread.execKilled, detach_pid] using h

end Xv6.Thread
