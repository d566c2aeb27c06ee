import Xv6.Interleave.Sound

/-! # What `thread_join` reaps, and what it delivers

`thread_join` looks for a zombie by its thread id alone, in the whole table, and stores the value of
the thread through a pointer that it does not check. It stays within the process of the caller only
if the first zombie with the id is one of its threads and the pointer does not lead to the slot of
another process (`join_confined_iff`).

The value of a thread is in its slot until the slot is cleared, so it is delivered if ids are not
used twice. `nexttid++` is made without `ptable.lock`: the machine below cuts it into the reading of
`nexttid` and the assignments, and keeps a record of the calls of `thread_exit` and of what
`thread_join` has delivered. -/

namespace Xv6.Interleave

open Function Thread

variable {n : Nat} {m m' : State n} {a : Act n} {c : Fin n} {p q : Slot} {k : Point}
variable {w : Ptable} {v : Proc} {thread : Int}

/-! ## The caller's process -/

/-- Where the pointer `retval` leads. The kernel checks it nowhere. -/
inductive Target
  /-- To memory that is no part of `ptable`. -/
  | memory
  /-- To a word of the slot `k`; `f v x` is the slot `v` after `x` has been stored in that word. -/
  | slot (k : Slot) (f : Proc → UInt32 → Proc)

def Target.store (t : Ptable) (x : UInt32) : Target → Ptable
  | .memory => t
  | .slot k f => t.setProc k (f (t.proc k) x)

/-- The slot that the scan of `thread_join` stops at. -/
def FirstZombie (t : Ptable) (thread : Int) (z : Slot) : Prop :=
  ((t.proc z).tid = thread ∧ (t.proc z).state = .ZOMBIE) ∧
    ∀ r < z, ¬ ((t.proc r).tid = thread ∧ (t.proc r).state = .ZOMBIE)

/-- A pass of `thread_join` with the store through `retval`, which `State.next` leaves out. -/
def threadJoinTo (t : Ptable) (curproc : Slot) (thread : Int) (retval : Target) :
    Outcome (Option UInt32 × Int) :=
  match slots.find? fun p => (t.proc p).tid = thread ∧ (t.proc p).state = .ZOMBIE with
  | some p =>
    .returns (some (t.proc p).retval, 0) (threadClear (retval.store t (t.proc p).retval) p)
  | none => Thread.threadJoin t curproc thread

def State.joinTo (m : State n) (c : Fin n) (thread : Int) (retval : Target) : Option (State n) :=
  (m.cpu c).bind fun p =>
    if m.pc p = .user ∨ m.pc p = .threadJoin thread then
      some (m.after c p (.threadJoin thread) (threadJoinTo m.tab p thread retval))
    else none

theorem threadJoinTo_memory : threadJoinTo t p thread .memory = Thread.threadJoin t p thread := by
  unfold threadJoinTo
  split
  · next z hz =>
    rw [Thread.threadJoin, hz]
    rfl
  · rfl

/-- The steps of the kernel are the passes whose pointer leads outside the table. -/
theorem State.joinTo_memory :
    m.joinTo c thread .memory = (kernel n).next m (.threadJoin c thread) := by
  simp only [joinTo, threadJoinTo_memory]
  rfl

/-- A pass stops at a zombie, or it leaves every slot but that of the caller. -/
theorem threadJoinTo_cases (t : Ptable) (p : Slot) (thread : Int) (retval : Target) :
    (∃ z, FirstZombie t thread z ∧ threadJoinTo t p thread retval =
      .returns (some (t.proc z).retval, 0) (threadClear (retval.store t (t.proc z).retval) z)) ∨
    (∀ z, ¬ FirstZombie t thread z) ∧ (threadJoinTo t p thread retval = .returns (none, -1) t ∨
      threadJoinTo t p thread retval =
        .sleeps (sleep t p (some (.proc p)) (.threadJoin thread))) := by
  unfold threadJoinTo
  split
  · next z hz =>
    have hf := find_slots_eq_some.mp hz
    simp only [decide_eq_true_eq, decide_eq_false_iff_not] at hf
    exact .inl ⟨z, hf, rfl⟩
  · next hno =>
    simp only [find_slots_eq_none, decide_eq_false_iff_not] at hno
    refine .inr ⟨fun z hz => hno z hz.1, ?_⟩
    rcases threadJoin_cases t p thread with ⟨q, hq, -⟩ | e | ⟨-, e⟩
    · exact absurd hq (hno q)
    · exact .inl e
    · exact .inr e

/-- A zombie thread of the process of `p`, not a main thread. -/
def OwnZombie (t : Ptable) (p q : Slot) : Prop :=
  (t.proc q).state = .ZOMBIE ∧ (t.proc q).tid ≠ 0 ∧ (t.proc q).pid = (t.proc p).pid

instance : Decidable (OwnZombie t p q) := inferInstanceAs (Decidable (_ ∧ _))

/-- Of the slots other than `p`, only those of zombie threads of its process change. -/
def Confined (t u : Ptable) (p : Slot) : Prop :=
  ∀ q, q ≠ p → u.proc q ≠ t.proc q → OwnZombie t p q

/-- The store through `retval` changes at most the caller's slot and those of its zombie threads. -/
def Target.Harmless (t : Ptable) (p : Slot) (x : UInt32) : Target → Prop
  | .memory => True
  | .slot k f => k = p ∨ OwnZombie t p k ∨ f (t.proc k) x = t.proc k

theorem Target.store_proc_of_harmless {r : Target} (h : r.Harmless t p x) (hq : q ≠ p)
    (hne : (r.store t x).proc q ≠ t.proc q) : OwnZombie t p q := by
  cases r with
  | memory => exact absurd rfl hne
  | slot k f =>
    obtain rfl : q = k := by
      by_contra e
      exact hne (Ptable.setProc_proc_of_ne e)
    rcases h with e | h | h
    · exact absurd e hq
    · exact h
    · exact absurd ((Ptable.setProc_proc_self ..).trans h) hne

/-- The zombie that is cleared changes. -/
theorem Confined.own {r : Target} (h : Confined t (threadClear (r.store t x) z) p)
    (hz : (t.proc z).state = .ZOMBIE) : z = p ∨ OwnZombie t p z := by
  by_cases hzp : z = p
  · exact .inl hzp
  · refine .inr (h z hzp fun heq => ?_)
    have hs := congrArg Proc.state heq
    rw [hz] at hs
    simp [threadClear] at hs

theorem threadClear_proc_of_ne (h : q ≠ z) : (threadClear t z).proc q = t.proc q :=
  Ptable.setProc_proc_of_ne h

theorem Confined.harmless {r : Target} (h : Confined t (threadClear (r.store t x) z) p)
    (hown : z = p ∨ OwnZombie t p z) : r.Harmless t p x := by
  cases r with
  | memory => trivial
  | slot k f =>
    by_cases hkp : k = p
    · exact .inl hkp
    by_cases hkz : k = z
    · rw [← hkz] at hown
      exact hown.imp_right .inl
    by_cases hf : f (t.proc k) x = t.proc k
    · exact .inr (.inr hf)
    · refine .inr (.inl (h k hkp ?_))
      rw [threadClear_proc_of_ne hkz]
      exact fun heq => hf ((Ptable.setProc_proc_self ..).symm.trans heq)

theorem confined_of_harmless {r : Target} (hown : z = p ∨ OwnZombie t p z)
    (h : r.Harmless t p x) : Confined t (threadClear (r.store t x) z) p := by
  intro q hq hne
  by_cases hqz : q = z
  · exact hqz ▸ hown.resolve_left fun hzp => hq (hqz.trans hzp)
  · rw [threadClear_proc_of_ne hqz] at hne
    exact Target.store_proc_of_harmless h hq hne

/-- A pass of `thread_join` is confined to the caller's process just in case the zombie at which its
scan stops, if there is one, is a thread of that process and not the main thread of any, and the
store through `retval` does no harm in the table. -/
theorem join_confined_iff (h : m.joinTo c thread r = some m') (hc : m.cpu c = some p) :
    Confined m.tab m'.tab p ↔ ∀ z, FirstZombie m.tab thread z →
      (z = p ∨ OwnZombie m.tab p z) ∧ r.Harmless m.tab p (m.tab.proc z).retval := by
  simp only [State.joinTo, hc, Option.bind_some, Option.ite_none_right_eq_some,
    Option.some.injEq] at h
  obtain ⟨-, rfl⟩ := h
  rcases threadJoinTo_cases m.tab p thread r with ⟨z, hz, e⟩ | ⟨hno, e⟩
  · have huniq : ∀ y, FirstZombie m.tab thread y → y = z := fun y hy =>
      le_antisymm (not_lt.mp fun hlt => hy.2 z hlt hz.1) (not_lt.mp fun hlt => hz.2 y hlt hy.1)
    rw [e]
    change Confined _ (threadClear (r.store m.tab (m.tab.proc z).retval) z) _ ↔ _
    refine ⟨fun hconf y hy => ?_, fun hcond => ?_⟩
    · obtain rfl := huniq y hy
      have hown := hconf.own hz.1.2
      exact ⟨hown, hconf.harmless hown⟩
    · obtain ⟨hown, hharm⟩ := hcond z hz
      exact confined_of_harmless hown hharm
  · refine ⟨fun _ z hz => absurd hz (hno z), fun _ q hq hne => ?_⟩
    rcases e with e | e <;> rw [e] at hne
    · exact absurd rfl hne
    · exact absurd (Ptable.setProc_proc_of_ne hq) hne

/-- A child of init exits, and so does a thread of init. init joins the thread, and its child is
left to `wait`. -/
theorem join_confined_own : ∃ m m' : State 1, (kernel 1).Reached m ∧
    m.joinTo 0 1 .memory = some m' ∧ (m.tab.proc 1).state = .ZOMBIE ∧ (m.tab.proc 1).tid = 0 ∧
    (m'.tab.proc 2).state ≠ (m.tab.proc 2).state ∧ Confined m.tab m'.tab 0 := by
  obtain ⟨m, hm, h⟩ := (kernel 1).exists_reached_of_run
    (.flatten [[.dispatch 0 0], forkSteps 0, threadCreateSteps 0, [.yield 0, .dispatch 0 1,
      .exit 0, .exitEnd 0, .dispatch 0 2, .threadExit 0 7, .threadExitEnd 0, .dispatch 0 0]])
    (fun m => decide (m.cpu 0 = some 0 ∧ (m.tab.proc 1).state = .ZOMBIE ∧ (m.tab.proc 1).tid = 0 ∧
      (∀ z, (m.tab.proc z).tid = 1 → OwnZombie m.tab 0 z) ∧
      ∃ m' ∈ m.joinTo 0 1 .memory, (m'.tab.proc 2).state ≠ (m.tab.proc 2).state)) (init_boot 1)
    (by decide +kernel)
  obtain ⟨hc, hz, ht, hown, m', hn, hne⟩ := of_decide_eq_true h
  exact ⟨m, m', hm, hn, hz, ht, hne,
    (join_confined_iff hn hc).mpr fun z hz => ⟨.inr (hown z hz.1.1), trivial⟩⟩

/-- A child of init exits. `thread_join(0)`, called by another child of init, takes it from the
table: init waits for it in vain. -/
theorem join_takes_process : ∃ m m' : State 1, (kernel 1).Reached m ∧ m.cpu 0 = some 2 ∧
    (m.tab.proc 1).state = .ZOMBIE ∧ (m.tab.proc 1).tid = 0 ∧ (m.tab.proc 1).parent = some 0 ∧
    (m.tab.proc 1).pid ≠ (m.tab.proc 2).pid ∧
    (kernel 1).next m (.threadJoin 0 0) = some m' ∧ (m'.tab.proc 1).state = .UNUSED := by
  obtain ⟨m, hm, h⟩ := (kernel 1).exists_reached_of_run
    (.flatten [[.dispatch 0 0], forkSteps 0, forkSteps 0, [.wait 0, .dispatch 0 1, .exit 0,
      .exitEnd 0, .dispatch 0 2]])
    (fun m => decide (m.cpu 0 = some 2 ∧ (m.tab.proc 1).state = .ZOMBIE ∧ (m.tab.proc 1).tid = 0 ∧
      (m.tab.proc 1).parent = some 0 ∧ (m.tab.proc 1).pid ≠ (m.tab.proc 2).pid ∧
      ∃ m' ∈ (kernel 1).next m (.threadJoin 0 0), (m'.tab.proc 1).state = .UNUSED)) (init_boot 1)
    (by decide +kernel)
  obtain ⟨hc, hz, ht, hp, hne, m', hn, hu⟩ := of_decide_eq_true h
  exact ⟨m, m', hm, hc, hz, ht, hp, hne, hn, hu⟩

/-! ## Ids and values that are kept -/

/-- Every slot keeps its thread id and its value, or has no thread id. -/
structure Tame (t u : Ptable) : Prop where
  nexttid : u.nexttid = t.nexttid
  tid : ∀ q, (u.proc q).tid = 0 ∨
    (u.proc q).tid = (t.proc q).tid ∧ (u.proc q).retval = (t.proc q).retval

namespace Tame

theorem refl : Tame t t := ⟨rfl, fun _ => .inr ⟨rfl, rfl⟩⟩

theorem trans (h : Tame t u) (h' : Tame u w) : Tame t w := by
  refine ⟨h'.nexttid.trans h.nexttid, fun q => ?_⟩
  rcases h'.tid q with e | ⟨e, e'⟩
  · exact .inl e
  · rw [e, e']
    exact h.tid q

theorem of_proc (hn : u.nexttid = t.nexttid) (h : u.proc = t.proc) : Tame t u :=
  ⟨hn, fun q => .inr (by rw [h]; exact ⟨rfl, rfl⟩)⟩

theorem setProc (h : v.tid = (t.proc p).tid) (h' : v.retval = (t.proc p).retval) :
    Tame t (t.setProc p v) :=
  ⟨rfl, Ptable.forall_setProc (P := fun q v => v.tid = 0 ∨
    v.tid = (t.proc q).tid ∧ v.retval = (t.proc q).retval) (.inr ⟨h, h'⟩)
    fun _ _ => .inr ⟨rfl, rfl⟩⟩

theorem setProc_zero (h : v.tid = 0) : Tame t (t.setProc p v) :=
  ⟨rfl, Ptable.forall_setProc (P := fun q v => v.tid = 0 ∨
    v.tid = (t.proc q).tid ∧ v.retval = (t.proc q).retval) (.inl h) fun _ _ => .inr ⟨rfl, rfl⟩⟩

theorem of_calm (h : Calm t u) : Tame t u :=
  ⟨congrArg Globals.nexttid h.quiet.globals,
    fun q => .inr ⟨(h.quiet.ids q id).tid, h.retval q⟩⟩

theorem threadClear : Tame t (threadClear t p) := setProc_zero rfl

theorem clearSubthreads : Tame t (clearSubthreads t p).2 :=
  clearSubthreads_induction refl (fun _ _ hs _ => hs.trans threadClear) fun _ q hs =>
    hs.trans (of_calm (.killed q))

theorem zombie (u : Ptable) : Tame u (u.setState p .ZOMBIE) := setProc rfl rfl

theorem exitRest : Tame t (exitRest t p) := by
  obtain ⟨u, hu, e⟩ := exitRest_calm t p
  rw [e]
  exact (of_calm hu).trans (zombie u)

theorem threadExit : Tame t (threadExit t p (t.proc p).retval) := by
  have h : Tame t (t.setProc p { t.proc p with retval := (t.proc p).retval }) := setProc rfl rfl
  exact (h.trans (of_calm .wakeup1)).trans (zombie _)

theorem sleep {chan : Option Chan} {k : Context} : Tame t (sleep t p chan k) := setProc rfl rfl

theorem detach : Tame t (detach t p) := by
  unfold Thread.detach
  split
  · exact setProc_zero rfl
  · exact refl

theorem allocSlot (h : allocSlot t = some (np, u)) : Tame t u := by
  obtain ⟨p, -, ⟨⟩⟩ := Option.map_eq_some_iff.mp h
  have he : Tame t (t.setProc np { t.proc np with
      state := .EMBRYO, pid := t.nextpid, tid := 0, main := none, context := .user }) :=
    setProc_zero rfl
  exact he.trans (of_proc rfl rfl)

theorem forkCopied : Tame t (forkCopied t p np) := by
  have h : Tame t (setupkvm t).2 := of_proc rfl rfl
  exact h.trans (setProc rfl rfl)

theorem growMain : Tame t (growMain t main np ok) := by
  have h : Tame t (t.setProc main { t.proc main with sz := (t.proc main).sz + 2 * PGSIZE }) :=
    setProc rfl rfl
  cases ok with
  | true | false => exact h.trans (setProc rfl rfl)

theorem freevm (h : freevm t g = some u) : Tame t u := by
  cases g with
  | none => cases h
  | some g =>
    cases h
    exact of_proc rfl rfl

theorem execLoad (h : execLoad t p e = some (r, u)) : Tame t u := by
  cases e with
  | early =>
    cases h
    exact refl
  | bad =>
    cases h
    exact of_proc rfl rfl
  | ok sz =>
    obtain ⟨w, hw, ⟨⟩⟩ := Option.map_eq_some_iff.mp h
    have h₁ : Tame t (setupkvm t).2 := of_proc rfl rfl
    have h₂ : Tame (setupkvm t).2 ((setupkvm t).2.setProc p { t.proc p with
        pgdir := some t.vm.next, sz := sz }) := setProc rfl rfl
    exact (h₁.trans h₂).trans (freevm hw)

theorem reap (h : reap t q = some u) : Tame t u := by
  obtain ⟨w, hw, rfl⟩ := Option.map_eq_some_iff.mp h
  exact (freevm hw).trans (setProc rfl rfl)

end Tame

/-- A step that keeps ids and values; a thread in `thread_exit` stays there as long as it has its
id. -/
structure TameStep (m m' : State n) : Prop where
  tab : Tame m.tab m'.tab
  pc : ∀ q, (m'.tab.proc q).tid ≠ 0 → m.pc q = .threadExit → m'.pc q = .threadExit

namespace TameStep

theorem refl : TameStep m m := ⟨.refl, fun _ _ h => h⟩

theorem trans (h : TameStep m m') (h' : TameStep m' m'') : TameStep m m'' := by
  refine ⟨h.tab.trans h'.tab, fun q hq hp => h'.pc q hq (h.pc q ?_ hp)⟩
  rcases h'.tab.tid q with e | ⟨e, -⟩
  · exact absurd e hq
  · exact e ▸ hq

theorem setTab (h : Tame m.tab u) : TameStep m (m.setTab u) := ⟨h, fun _ _ hp => hp⟩

theorem sched (h : Tame m.tab u) : TameStep m (m.sched c u) := ⟨h, fun _ _ hp => hp⟩

theorem setHeld : TameStep m (m.setHeld p h) := ⟨.refl, fun _ _ hp => hp⟩

theorem goto (hp : m.pc p ≠ .threadExit) : TameStep m (m.goto p k) := by
  refine ⟨.refl, fun q _ hq => ?_⟩
  have hne : q ≠ p := fun e => hp (e ▸ hq)
  simp only [State.goto, update_of_ne hne]
  exact hq

/-- A slot without a thread id goes anywhere. -/
theorem goto_zero (hp : (m.tab.proc p).tid = 0) : TameStep m (m.goto p k) := by
  refine ⟨.refl, fun q hq hpc => ?_⟩
  have hne : q ≠ p := fun e => hq (e ▸ hp)
  simp only [State.goto, update_of_ne hne]
  exact hpc

theorem move (h : Tame m.tab u) (hp : m.pc p ≠ .threadExit) : TameStep m ((m.setTab u).goto p k) :=
  (setTab h).trans (goto hp)

theorem schedGoto (h : Tame m.tab u) (hp : m.pc p ≠ .threadExit) :
    TameStep m ((m.sched c u).goto p k) :=
  (sched h).trans (goto hp)

theorem alloc (hp : m.pc p ≠ .threadExit) (ha : allocSlot m.tab = some (np, t)) :
    TameStep m (((m.setTab t).goto np .user).goto p k) := by
  have hz : ((m.setTab t).tab.proc np).tid = 0 := (allocSlot_some ha).2.2.tid
  have hpc : ((m.setTab t).goto np .user).pc p ≠ .threadExit := by
    by_cases e : p = np
    · subst e
      simp [State.goto]
    · simp only [State.goto, update_of_ne e]
      exact hp
  exact ((setTab (.allocSlot ha)).trans (goto_zero hz)).trans (goto hpc)

theorem dropNew (htid : v.tid = (m.tab.proc np).tid) (hr : v.retval = (m.tab.proc np).retval)
    (hp : m.pc p ≠ .threadExit) : TameStep m (m.dropNew p np v) :=
  move (.setProc htid hr) hp

theorem killFrom (hp : m.pc p ≠ .threadExit) : TameStep m (m.killFrom p pid i) := by
  unfold State.killFrom
  split
  · exact move (.of_calm .reparent) hp
  · exact goto hp

end TameStep

/-- The steps that give an id or a value to a slot. -/
def Act.sets : Act n → Bool
  | .setIds _ | .threadExit _ _ => true
  | _ => false

/-- A creation that fails keeps the id and the value of the slot that it gives back. -/
theorem TameStep.of_drops (h : m.next a = some m') (hd : m.drops a = some np) : TameStep m m' := by
  have hne : ∀ {p : Slot} {k : Point}, m.pc p = k → k ≠ .threadExit → m.pc p ≠ .threadExit :=
    fun e hk => e ▸ hk
  cases a with
  | kalloc c ok =>
    obtain ⟨p, -, h⟩ := Option.bind_eq_some_iff.mp h
    cases ok with
    | true => cases hd
    | false =>
      split at h
      · next np hp => cases h; exact .dropNew rfl rfl (hne hp nofun)
      · next np main hp => cases h; exact .dropNew rfl rfl (hne hp nofun)
      · cases h
  | copyuvm c ok =>
    obtain ⟨p, -, h⟩ := Option.bind_eq_some_iff.mp h
    cases ok with
    | true => cases hd
    | false =>
      split at h
      · next np hp => cases h; exact .dropNew rfl rfl (hne hp nofun)
      · cases h
  | allocuvm c ok =>
    obtain ⟨p, -, h⟩ := Option.bind_eq_some_iff.mp h
    split at h
    · next np main hp => cases h; exact .move .growMain (hne hp nofun)
    · cases h
  | _ => cases hd

theorem TameStep.of_next (h : m.next a = some m') (ha : a.sets = false) : TameStep m m' := by
  have hne : ∀ {p : Slot} {k : Point}, m.pc p = k → k ≠ .threadExit → m.pc p ≠ .threadExit :=
    fun e hk => e ▸ hk
  have hor : ∀ {p : Slot} {k : Point}, m.pc p = .user ∨ m.pc p = k → k ≠ .threadExit →
      m.pc p ≠ .threadExit := fun e hk => e.elim (hne · nofun) (hne · hk)
  cases Step.of_next h with
  | @dispatch c p =>
    have hd : Tame m.tab (Thread.dispatch m.tab p) := .setProc rfl rfl
    exact ⟨hd, fun _ _ hp => hp⟩
  | yield => exact .sched (.setProc rfl rfl)
  | wakeup => exact .setTab (.of_calm .wakeup1)
  | kill => exact .setTab (.of_calm .kill)
  | call _ hp | ret _ hp | cleariFails _ hp | forkKalloc _ hp | createKalloc _ hp =>
    exact .goto (hne hp nofun)
  | hold => exact .setHeld
  | sleep => exact .sched .sleep
  | noSlot => exact .refl
  | fork _ hp hn | threadCreate _ hp hn => exact .alloc (hne hp nofun) hn
  | drop _ _ _ hd => exact .of_drops h hd
  | copyuvm _ hp => exact .move .forkCopied (hne hp nofun)
  | decNextpid _ hp => exact .move (.of_proc rfl rfl) (hne hp nofun)
  | setIds | threadExit => cases ha
  | allocuvm _ hp | allocuvmFails _ hp => exact .move .growMain (hne hp nofun)
  | runnable _ hp =>
    refine .move (.setProc rfl rfl) ?_
    rcases hp with hp | hp <;> exact hne hp nofun
  | @exitCleared c p t hc hp hi ht =>
    have hk : Tame m.tab (clearSubthreads m.tab p).2 := .clearSubthreads
    rw [ht] at hk
    exact .move hk (hor hp nofun)
  | @exitSleeps c p t k hc hp ht =>
    have hk : Tame m.tab (clearSubthreads m.tab p).2 := .clearSubthreads
    rw [ht] at hk
    exact .schedGoto (hk.trans .sleep) (hor hp nofun)
  | exitThread _ hp | waitFails _ hp | joinFails _ hp => exact .goto (hor hp nofun)
  | exitEnd => exact .sched .exitRest
  | threadExitEnd => exact .sched .threadExit
  | waitReaps _ hp _ ht => exact .move (.reap ht) (hor hp nofun)
  | waitSleeps _ hp | joinSleeps _ hp => exact .schedGoto .sleep (hor hp nofun)
  | joinReaps _ hp => exact .move .threadClear (hor hp nofun)
  | exec _ hp => exact .move .detach (hne hp nofun)
  | killFirst _ hp => exact .killFrom (hne hp nofun)
  | @killThread c p pid q hc hp =>
    have hc : TameStep m (m.setTab (threadClear m.tab q)) := .setTab .threadClear
    have hp : (m.setTab (threadClear m.tab q)).pc p ≠ .threadExit := hne hp nofun
    exact hc.trans (.killFrom hp)
  | execEnd _ hp _ hr => exact .move (.execLoad hr) (hne hp nofun)

/-! ## The record of exits and joins -/

structure Record (n : Nat) where
  core : State n
  /-- The value of `nexttid` that the thread in a slot has read in `thread_create`. -/
  loaded : Slot → Option Int
  /-- The calls of `thread_exit`: the id of the caller and the value. -/
  exits : List (Int × UInt32)
  /-- The calls of `thread_join` that have returned 0: the id and the value stored. -/
  joins : List (Int × UInt32)

inductive RecordAct (n : Nat)
  /-- `thread_create` reads `nexttid`. -/
  | load (c : Fin n)
  | act (a : Act n)
  deriving DecidableEq, Repr

namespace Record

/-- What the step adds to the calls of `thread_exit`. -/
def exited (m : State n) : Act n → List (Int × UInt32)
  | .threadExit c v => ((m.cpu c).map fun p => ((m.tab.proc p).tid, v)).toList
  | _ => []

/-- What the step adds to the calls of `thread_join` that have returned 0. -/
def joined (m : State n) : Act n → List (Int × UInt32)
  | .threadJoin c thread => ((m.cpu c).bind fun p =>
    match Thread.threadJoin m.tab p thread with
    | .returns (some v, 0) _ => some (thread, v)
    | _ => none).toList
  | _ => []

def next (s : Record n) : RecordAct n → Option (Record n)
  | .load c => (s.core.cpu c).bind fun p =>
    match s.core.pc p with
    | .threadCreate _ _ .ids =>
      some { s with loaded := update s.loaded p (some s.core.tab.nexttid) }
    | _ => none
  | .act (.setIds c) => (s.core.cpu c).bind fun p => (s.loaded p).bind fun k =>
    -- `nexttid` gets the successor of what was read
    ((s.core.setTab { s.core.tab with nexttid := k }).next (.setIds c)).map fun m =>
      { s with core := m, loaded := update s.loaded p none }
  | .act a => (s.core.next a).map fun m =>
    { s with core := m, exits := exited s.core a ++ s.exits, joins := joined s.core a ++ s.joins }

theorem next_act {s : Record n} (ha : ∀ c, a ≠ .setIds c) : s.next (.act a) =
    (s.core.next a).map fun m => { s with
      core := m, exits := exited s.core a ++ s.exits, joins := joined s.core a ++ s.joins } := by
  cases a with
  | setIds c => exact absurd rfl (ha c)
  | _ => rfl

end Record

/-- The kernel with threads, with the record of exits and joins. -/
def recorded (n : Nat) : LTS (Record n) (RecordAct n) where
  init s := (kernel n).init s.core ∧ (∀ p, s.loaded p = none) ∧ s.exits = [] ∧ s.joins = []
  next := Record.next

/-- The thread that writes `nexttid` in the step. -/
def State.writer (m : State n) : Act n → Option Slot
  | .setIds c => m.cpu c
  | _ => none

/-- No other thread has written `nexttid` when `thread_create` writes the successor of what it has
read, and `kill_threads_except` clears no thread that is on a CPU and no slot under construction. -/
def Orderly (s : Record n) : RecordAct n → Prop
  | .load _ => True
  | .act a => NoGhost s.core a ∧ ∀ p ∈ s.core.writer a, ∀ k ∈ s.loaded p, k = s.core.tab.nexttid

instance decidableOrderly (s : Record n) : ∀ b, Decidable (Orderly s b)
  | .load _ => isTrue trivial
  | .act a =>
    have := fun p => Option.decidableForallMem (p := (· = s.core.tab.nexttid)) (s.loaded p)
    have := Option.decidableForallMem (p := fun p => ∀ k ∈ s.loaded p, k = s.core.tab.nexttid)
      (s.core.writer a)
    inferInstanceAs (Decidable (_ ∧ _))

/-- Ids are given once, and what is recorded of an id is so. -/
structure JoinInv (s : Record n) : Prop where
  nexttid : 0 < s.core.tab.nexttid
  lt : ∀ q, (s.core.tab.proc q).tid < s.core.tab.nexttid
  unique : ∀ p q, (s.core.tab.proc p).tid = (s.core.tab.proc q).tid →
    (s.core.tab.proc p).tid ≠ 0 → p = q
  exits_lt : ∀ x ∈ s.exits, x.1 < s.core.tab.nexttid
  joins_lt : ∀ x ∈ s.joins, x.1 < s.core.tab.nexttid
  /-- A thread that has called `thread_exit` does not leave it, and its value stays. -/
  exits : ∀ x ∈ s.exits, x.1 ≠ 0 → ∀ q, (s.core.tab.proc q).tid = x.1 →
    s.core.pc q = .threadExit ∧ (s.core.tab.proc q).retval = x.2
  joins : ∀ x ∈ s.joins, x.1 ≠ 0 → ∀ q, (s.core.tab.proc q).tid ≠ x.1
  value : ∀ x ∈ s.exits, ∀ y ∈ s.joins, x.1 ≠ 0 → y.1 = x.1 → y.2 = x.2
  once : s.joins.Pairwise fun x y => x.1 = y.1 → x.1 = 0

namespace JoinInv

variable {s : Record n}

/-- A slot with an id has had it before. -/
theorem tid_eq (h : TameStep s.core m) (hq : (m.tab.proc q).tid ≠ 0) :
    (s.core.tab.proc q).tid = (m.tab.proc q).tid ∧
      (s.core.tab.proc q).retval = (m.tab.proc q).retval := by
  rcases h.tab.tid q with e | ⟨e, e'⟩
  · exact absurd e hq
  · exact ⟨e.symm, e'.symm⟩

/-- The record stays as it is. -/
theorem tame (h : JoinInv s) (ht : TameStep s.core m) :
    JoinInv { s with core := m, loaded := loaded } where
  nexttid := ht.tab.nexttid ▸ h.nexttid
  lt q := by
    show (m.tab.proc q).tid < m.tab.nexttid
    rw [ht.tab.nexttid]
    by_cases hq : (m.tab.proc q).tid = 0
    · rw [hq]
      exact h.nexttid
    · rw [← (tid_eq ht hq).1]
      exact h.lt q
  unique p q e hp := by
    have hq : (m.tab.proc q).tid ≠ 0 := e ▸ hp
    have ep := (tid_eq ht hp).1
    exact h.unique p q (ep.trans (e.trans (tid_eq ht hq).1.symm)) (ep ▸ hp)
  exits_lt := ht.tab.nexttid ▸ h.exits_lt
  joins_lt := ht.tab.nexttid ▸ h.joins_lt
  exits x hx hx0 q hq := by
    have hq0 : (m.tab.proc q).tid ≠ 0 := fun e => hx0 (hq.symm.trans e)
    obtain ⟨e, e'⟩ := tid_eq ht hq0
    obtain ⟨hpc, hr⟩ := h.exits x hx hx0 q (e.trans hq)
    exact ⟨ht.pc q hq0 hpc, e'.symm.trans hr⟩
  joins x hx hx0 q hq := by
    have hq0 : (m.tab.proc q).tid ≠ 0 := fun e => hx0 (hq.symm.trans e)
    exact h.joins x hx hx0 q ((tid_eq ht hq0).1.trans hq)
  value := h.value
  once := h.once

/-- `thread_join` delivers the value of the slot that it clears. -/
theorem join (h : JoinInv s) (htid : (s.core.tab.proc q).tid = thread)
    (ht : TameStep s.core m) (hz : (m.tab.proc q).tid = 0) :
    JoinInv { s with core := m, joins := (thread, (s.core.tab.proc q).retval) :: s.joins } := by
  have hm : JoinInv { s with core := m } := h.tame ht
  refine ⟨hm.nexttid, hm.lt, hm.unique, hm.exits_lt, ?_, hm.exits, ?_, ?_, ?_⟩
  · intro x hx
    rcases List.mem_cons.mp hx with rfl | hx
    · show thread < m.tab.nexttid
      rw [ht.tab.nexttid, ← htid]
      exact h.lt q
    · exact hm.joins_lt x hx
  · intro x hx hx0 r hr
    rcases List.mem_cons.mp hx with rfl | hx
    · have hr0 : (m.tab.proc r).tid ≠ 0 := fun e => hx0 (hr.symm.trans e)
      have e := (tid_eq ht hr0).1
      have hrq : r = q := h.unique r q (e.trans (hr.trans htid.symm)) (e ▸ hr0)
      exact hr0 (hrq ▸ hz)
    · exact hm.joins x hx hx0 r hr
  · intro x hx y hy hx0 hxy
    rcases List.mem_cons.mp hy with rfl | hy
    · exact (h.exits x hx hx0 q (htid.trans hxy)).2
    · exact hm.value x hx y hy hx0 hxy
  · refine List.pairwise_cons.mpr ⟨fun y hy hxy => ?_, hm.once⟩
    by_contra hne
    have hy0 : y.1 ≠ 0 := fun e => hne (hxy.trans e)
    exact h.joins y hy hy0 q (htid.trans hxy)

/-- `thread_exit` is called. -/
theorem exit {v : UInt32} (h : JoinInv s) (hp : s.core.pc p = .user) : JoinInv { s with
    core := (s.core.setTab (s.core.tab.setProc p { s.core.tab.proc p with retval := v })).goto p
      .threadExit
    exits := ((s.core.tab.proc p).tid, v) :: s.exits } := by
  have htid : ∀ q, ((s.core.tab.setProc p { s.core.tab.proc p with retval := v }).proc q).tid =
      (s.core.tab.proc q).tid :=
    Ptable.forall_setProc (P := fun q v => v.tid = (s.core.tab.proc q).tid) rfl fun _ _ => rfl
  -- the caller has not called it before
  have hnew : ∀ x ∈ s.exits, x.1 ≠ 0 → (s.core.tab.proc p).tid ≠ x.1 := by
    intro x hx hx0 e
    have hpc := (h.exits x hx hx0 p e).1
    rw [hp] at hpc
    cases hpc
  refine ⟨h.nexttid, fun q => (htid q).symm ▸ h.lt q, fun r q e hr => ?_, fun x hx => ?_,
    h.joins_lt, fun x hx hx0 q hq => ?_, fun x hx hx0 q hq => ?_, fun x hx y hy hx0 hxy => ?_,
    h.once⟩
  · exact h.unique r q ((htid r).symm.trans (e.trans (htid q))) ((htid r) ▸ hr)
  · rcases List.mem_cons.mp hx with rfl | hx
    · exact h.lt p
    · exact h.exits_lt x hx
  · have hq : (s.core.tab.proc q).tid = x.1 := (htid q).symm.trans hq
    rcases List.mem_cons.mp hx with rfl | hx
    · obtain rfl : q = p := h.unique q p hq (hq ▸ hx0)
      exact ⟨by simp [State.goto], by simp [State.goto, State.setTab]⟩
    · have hqp : q ≠ p := fun e => hnew x hx hx0 (e ▸ hq)
      simp only [State.goto, State.setTab, update_of_ne hqp,
        Ptable.setProc_proc_of_ne hqp]
      exact h.exits x hx hx0 q hq
  · exact h.joins x hx hx0 q ((htid q).symm.trans hq)
  · rcases List.mem_cons.mp hx with rfl | hx
    · have hy0 : y.1 ≠ 0 := fun e => hx0 (hxy.symm.trans e)
      exact absurd hxy.symm (h.joins y hy hy0 p)
    · exact h.value x hx y hy hx0 hxy

/-- An id that has not been given is given to a slot. -/
theorem setIds (h : JoinInv s) (hp : s.core.pc p ≠ .threadExit) : JoinInv { s with
      core := (s.core.setTab (Interleave.setIds s.core.tab main np)).goto p k
      loaded := loaded } := by
  have hnew : ((Interleave.setIds s.core.tab main np).proc np).tid = s.core.tab.nexttid := by
    rw [setIds_new]
  have hother : ∀ q, q ≠ np →
      (Interleave.setIds s.core.tab main np).proc q = s.core.tab.proc q := fun q => setIds_other
  have hnext : (Interleave.setIds s.core.tab main np).nexttid = s.core.tab.nexttid + 1 := rfl
  generalize Interleave.setIds s.core.tab main np = u at hnew hother hnext ⊢
  have hlt : ∀ q, (s.core.tab.proc q).tid ≠ s.core.tab.nexttid := fun q => (h.lt q).ne
  have hlift : ∀ {x}, x < s.core.tab.nexttid → x < u.nexttid := fun hx => by omega
  refine ⟨hlift h.nexttid, fun q => ?_, fun r q e hr => ?_, fun x hx => hlift (h.exits_lt x hx),
    fun x hx => hlift (h.joins_lt x hx), fun x hx hx0 q hq => ?_, fun x hx hx0 q hq => ?_,
    h.value, h.once⟩
  · show (u.proc q).tid < u.nexttid
    by_cases e : q = np
    · rw [e, hnew, hnext]
      exact Int.lt_succ _
    · rw [hother q e]
      exact hlift (h.lt q)
  · change (u.proc r).tid = (u.proc q).tid at e
    change (u.proc r).tid ≠ 0 at hr
    by_cases er : r = np <;> by_cases eq : q = np
    · rw [er, eq]
    · rw [er, hnew, hother q eq] at e
      exact absurd e.symm (hlt q)
    · rw [eq, hnew, hother r er] at e
      exact absurd e (hlt r)
    · rw [hother r er] at e hr
      rw [hother q eq] at e
      exact h.unique r q e hr
  · change (u.proc q).tid = x.1 at hq
    by_cases e : q = np
    · rw [e, hnew] at hq
      exact absurd hq.symm (h.exits_lt x hx).ne
    · rw [hother q e] at hq
      obtain ⟨hpc, hr⟩ := h.exits x hx hx0 q hq
      have hqp : q ≠ p := fun e => hp (e ▸ hpc)
      refine ⟨?_, ?_⟩
      · simp only [State.goto, update_of_ne hqp]
        exact hpc
      · show (u.proc q).retval = x.2
        rw [hother q e]
        exact hr
  · change (u.proc q).tid = x.1 at hq
    by_cases e : q = np
    · rw [e, hnew] at hq
      exact (h.joins_lt x hx).ne hq.symm
    · exact h.joins x hx hx0 q (hother q e ▸ hq)

theorem step {b : RecordAct n} (h : JoinInv s) (hb : Orderly s b) (hs : s.next b = some s') :
    JoinInv s' := by
  cases b with
  | load c =>
    obtain ⟨p, -, hs⟩ := Option.bind_eq_some_iff.mp hs
    split at hs
    · cases hs
      exact h.tame .refl
    · cases hs
  | act a =>
    cases a with
    | setIds c =>
      obtain ⟨p, hc, hs⟩ := Option.bind_eq_some_iff.mp hs
      obtain ⟨j, hj, hs⟩ := Option.bind_eq_some_iff.mp hs
      obtain ⟨m, hm, rfl⟩ := Option.map_eq_some_iff.mp hs
      obtain rfl := hb.2 p hc j hj
      obtain ⟨p', -, hm⟩ := Option.bind_eq_some_iff.mp hm
      split at hm
      · next np main hp =>
        cases hm
        exact h.setIds (by simp [show s.core.pc p' = _ from hp])
      · cases hm
    | threadExit c v =>
      obtain ⟨m, hm, rfl⟩ := Option.map_eq_some_iff.mp hs
      obtain ⟨p, hc, hm⟩ := Option.bind_eq_some_iff.mp hm
      obtain ⟨⟨hp, -⟩, ⟨⟩⟩ := Option.ite_none_right_eq_some.mp hm
      simp only [Record.exited, hc, Option.map_some, Option.toList_some]
      exact h.exit hp
    | threadJoin c thread =>
      obtain ⟨m, hm, rfl⟩ := Option.map_eq_some_iff.mp hs
      have ht : TameStep s.core m := .of_next hm rfl
      obtain ⟨p, hc, hm⟩ := Option.bind_eq_some_iff.mp hm
      obtain ⟨-, ⟨⟩⟩ := Option.ite_none_right_eq_some.mp hm
      simp only [Record.joined, hc, Option.bind_some]
      rcases threadJoin_cases s.core.tab p thread with ⟨q, ⟨htid, -⟩, -, e⟩ | e | ⟨-, e⟩
      · rw [e] at ht ⊢
        exact h.join htid ht (by simp [State.after, State.goto, State.setTab, threadClear])
      · rw [e] at ht ⊢
        exact h.tame ht
      · rw [e] at ht ⊢
        exact h.tame ht
    | _ =>
      rw [Record.next_act (by simp)] at hs
      obtain ⟨m, hm, rfl⟩ := Option.map_eq_some_iff.mp hs
      exact h.tame (.of_next hm rfl)

theorem init (h : (recorded n).init s) : JoinInv s := by
  obtain ⟨⟨ht, -, -, -⟩, -, he, hj⟩ := h
  have htab : s.core.tab = (userinit pinit).get (by decide +kernel) := by
    simp [ht]
  have hn : s.core.tab.nexttid = 1 := by
    rw [htab]
    decide +kernel
  have htid : ∀ q, (s.core.tab.proc q).tid = 0 := by
    rw [htab]
    decide +kernel
  refine ⟨by omega, fun q => ?_, fun p q _ hp => absurd (htid p) hp, ?_, ?_, ?_, ?_, ?_, ?_⟩
  · rw [htid q, hn]
    exact one_pos
  all_goals simp [he, hj]

end JoinInv

theorem joinInv : (recorded n).Invariant Orderly JoinInv where
  init := JoinInv.init
  step h hb hs := h.step hb hs

theorem recorded_boot (n : Nat) : (recorded n).init ⟨boot n, fun _ => none, [], []⟩ :=
  ⟨init_boot n, fun _ => rfl, rfl, rfl⟩

/-- The steps of a `thread_create` up to the reading of `nexttid`, and the rest. -/
def loadSteps (c : Fin n) : List (RecordAct n) :=
  [.act (.threadCreate c), .act (.kalloc c true), .act (.decNextpid c), .load c]

def storeSteps (c : Fin n) : List (RecordAct n) :=
  [.act (.setIds c), .act (.allocuvm c true), .act (.runnable c)]

/-- The thread in `p` is dispatched on `c` and exits with `v`. -/
def exitSteps (c : Fin n) (p : Slot) (v : UInt32) : List (RecordAct n) :=
  [.act (.dispatch c p), .act (.threadExit c v), .act (.threadExitEnd c)]

end Xv6.Interleave
