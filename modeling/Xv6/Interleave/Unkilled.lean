import Xv6.Interleave.Sound
import Xv6.Lib.History
import Xv6.Thread.Interrupt

/-! # New processes are not killed

`allocproc` does not reset `killed`. A new process starts without the mark if no free slot carries
it: `kill` and `clear_subthreads` must not find a free slot that has kept a pid, `exit` must not
follow the pointer to a main thread that has gone, and a creation that fails must not give back a
slot that was killed in the meantime. -/

namespace Xv6.Interleave

open Thread

variable {n : Nat} {m : State n} {a : Act n} {c : Fin n} {p q np : Slot}
namespace State

/-- The slots whose `killed` the step sets. -/
def marks (m : State n) : Act n → List Slot
  | .kill pid => (slots.find? fun p => (m.tab.proc p).pid = pid).toList
  | .exit c => (m.cpu c).elim [] fun p =>
    if (m.tab.proc p).tid = 0 then slots.filter fun q => m.tab.Marked p q else []
  | .exitEnd c => ((m.cpu c).bind fun p => (m.tab.proc p).main).toList
  | _ => []

/-- The slots with the pid that is passed to `kill`, and those of a process that exits. -/
def strikes (m : State n) : Act n → List Slot
  | .kill pid => slots.filter fun q => (m.tab.proc q).pid = pid
  | .exit c | .exitEnd c => (m.cpu c).elim [] fun p =>
    slots.filter fun q => (m.tab.proc q).pid = (m.tab.proc p).pid
  | _ => []

def allocates (m : State n) : Act n → Option Slot
  | .fork _ | .threadCreate _ => (allocSlot m.tab).map Prod.fst
  | _ => none

/-- Whether a slot was struck since it was allocated. -/
def struck (m : State n) (a : Act n) (h : Slot → Bool) (q : Slot) : Bool :=
  if m.allocates a = some q then false else h q || decide (q ∈ m.strikes a)

end State

/-- The kernel with a record of the slots that were struck since they were allocated. -/
def remembered (n : Nat) : LTS (State n × (Slot → Bool)) (Act n) :=
  (kernel n).record (fun _ => false) fun m a _ h => m.struck a h

/-- No free slot is marked as killed and no slot under construction that is not struck, and a
creation that fails gives back a slot without the mark; `kill_threads_except` clears no thread that
is on a CPU and no slot under construction. -/
def Careful (x : State n × (Slot → Bool)) (a : Act n) : Prop :=
  NoGhost x.1 a ∧
  (∀ q ∈ x.1.marks a, (x.1.tab.proc q).state ≠ .UNUSED ∧
    ((x.1.tab.proc q).state = .EMBRYO → q ∈ x.1.strikes a)) ∧
  ∀ q ∈ x.1.drops a, (x.1.tab.proc q).killed = false

instance (x : State n × (Slot → Bool)) (a : Act n) : Decidable (Careful x a) :=
  have := Option.decidableForallMem (p := fun q => (x.1.tab.proc q).killed = false) (x.1.drops a)
  inferInstanceAs (Decidable (_ ∧ _ ∧ _))

/-! ## Marks in the table -/

/-- From `t` to `u` only slots in `S` are marked, and those that become free are without a mark. -/
structure Flags (S : Slot → Prop) (t u : Ptable) : Prop where
  killed : ∀ q, (u.proc q).killed = true → (t.proc q).killed = true ∨ S q
  unused : ∀ q, (u.proc q).state = .UNUSED →
    (t.proc q).state = .UNUSED ∨ (u.proc q).killed = false
  embryo : ∀ q, (u.proc q).state = .EMBRYO → (t.proc q).state = .EMBRYO

namespace Flags

abbrev None (t u : Ptable) : Prop := Flags (fun _ => False) t u

theorem of_proc (h : u.proc = t.proc) : None t u := by
  refine ⟨fun q hq => .inl ?_, fun q hq => .inl ?_, fun q hq => ?_⟩ <;> rwa [h] at hq

theorem trans (h : Flags S t u) (h' : None u w) : Flags S t w where
  killed q hq := h.killed q ((h'.killed q hq).resolve_right id)
  unused q hq := by
    rcases h'.unused q hq with hu | hk
    · refine (h.unused q hu).imp_right fun hk => ?_
      rw [Bool.eq_false_iff] at hk ⊢
      exact fun hw => hk ((h'.killed q hw).resolve_right id)
    · exact .inr hk
  embryo q hq := h.embryo q (h'.embryo q hq)

theorem mono (h : Flags S t u) (hS : ∀ q, S q → S' q) : Flags S' t u :=
  ⟨fun q hq => (h.killed q hq).imp_right (hS q), h.unused, h.embryo⟩

theorem of_none (h : None t u) : Flags S t u := h.mono fun _ => False.elim

/-- One slot is written. -/
theorem setProc (hk : v.killed = true → (t.proc p).killed = true ∨ S p)
    (hu : v.state = .UNUSED → (t.proc p).state = .UNUSED ∨ v.killed = false)
    (he : v.state = .EMBRYO → (t.proc p).state = .EMBRYO) : Flags S t (t.setProc p v) where
  killed := Ptable.forall_setProc
    (P := fun q v => v.killed = true → (t.proc q).killed = true ∨ S q) hk fun _ _ => .inl
  unused := Ptable.forall_setProc (P := fun q v =>
    v.state = .UNUSED → (t.proc q).state = .UNUSED ∨ v.killed = false) hu fun _ _ => .inl
  embryo := Ptable.forall_setProc (P := fun q v =>
    v.state = .EMBRYO → (t.proc q).state = .EMBRYO) he fun _ _ => id

/-- One slot is written that keeps its state and its mark. -/
theorem setProc_same (hk : v.killed = (t.proc p).killed) (hs : v.state = (t.proc p).state) :
    None t (t.setProc p v) :=
  setProc (fun h => .inl (hk ▸ h)) (fun h => .inl (hs ▸ h)) fun h => hs ▸ h

/-- A slot that is in use and not under construction from now on. -/
theorem setProc_grown (hk : v.killed = (t.proc p).killed) (hu : v.state ≠ .UNUSED)
    (he : v.state ≠ .EMBRYO) : None t (t.setProc p v) :=
  setProc (fun h => .inl (hk ▸ h)) (fun h => absurd h hu) fun h => absurd h he

/-- A slot is cleared. -/
theorem clear (hk : v.killed = false) (he : v.state ≠ .EMBRYO) : None t (t.setProc p v) :=
  setProc (fun h => by rw [hk] at h; cases h) (fun _ => .inr hk) fun h => absurd h he

theorem wakeup1 : None t (wakeup1 t chan) := by
  refine Table.foldl_inv slots (fun u p hu => hu.trans ?_) (of_proc rfl)
  unfold wakeupOne
  split
  · exact setProc_grown rfl nofun nofun
  · exact of_proc rfl

theorem reparent : None t (reparent t p) := by
  refine Table.foldl_inv slots (fun u p hu => hu.trans ?_) (of_proc rfl)
  simp only [reparentOne]
  have h : None u (u.setProc p { u.proc p with parent := u.initproc }) := setProc_same rfl rfl
  split
  · split
    · exact h.trans wakeup1
    · exact h
  · exact of_proc rfl

theorem kill : Flags
    (fun q => slots.find? (fun p => (t.proc p).pid = pid) = some q) t (kill t pid) := by
  unfold Thread.kill
  split
  · next p hp =>
    refine setProc (fun _ => .inr hp) (fun h => .inl ?_) fun h => ?_ <;>
    · dsimp only at h
      split at h
      · cases h
      · exact h
  · exact of_none (of_proc rfl)

theorem clearSubthreads : Flags (t.Marked p) t (clearSubthreads t p).2 where
  killed q hq := by
    rw [(clearSubthreads_scanned t p).proc q, Ptable.scanned] at hq
    split at hq
    · cases hq
    · simpa [mem_slots] using hq
  unused q hq := by
    rw [(clearSubthreads_scanned t p).proc q, Ptable.scanned] at hq ⊢
    split
    · exact .inr rfl
    · next h =>
      rw [if_neg h] at hq
      dsimp only at hq
      split at hq
      · cases hq
      · exact .inl hq
  embryo q hq := by
    rw [(clearSubthreads_scanned t p).proc q, Ptable.scanned] at hq
    split at hq
    · cases hq
    · dsimp only at hq
      split at hq
      · cases hq
      · exact hq

theorem exitRest : Flags (fun q => (t.proc p).main = some q) t (exitRest t p) := by
  simp only [Thread.exitRest]
  split
  · exact ((of_none wakeup1).trans reparent).trans (setProc_grown rfl (by simp) (by simp))
  · next r hr =>
    have hm : Flags (fun q => (t.proc p).main = some q) t
        (t.setProc r { t.proc r with killed := true }) :=
      setProc (fun _ => .inr hr) .inl id
    exact ((hm.trans wakeup1).trans reparent).trans (setProc_grown rfl (by simp) (by simp))

theorem threadExit : None t (threadExit t p retval) := by
  have h : None t (t.setProc p { t.proc p with retval := retval }) := setProc_same rfl rfl
  exact (h.trans wakeup1).trans (setProc_grown rfl nofun nofun)

theorem sleep : None t (sleep t p chan k) :=
  setProc_grown rfl nofun nofun

theorem detach : None t (detach t p) := by
  unfold Thread.detach
  split
  · exact setProc_same rfl rfl
  · exact of_proc rfl

theorem reap (h : reap t q = some u) : None t u := by
  obtain ⟨w, hw, rfl⟩ := Option.map_eq_some_iff.mp h
  exact (of_proc (freevm_proc hw)).trans (clear rfl nofun)

theorem execLoad (h : execLoad t p e = some (r, u)) : None t u := by
  cases e with
  | early | bad =>
    cases h
    exact of_proc rfl
  | ok sz =>
    obtain ⟨w, hw, ⟨⟩⟩ := Option.map_eq_some_iff.mp h
    have hk : None t (setupkvm t).2 := of_proc rfl
    have hs : None (setupkvm t).2 _ := setProc_same (p := p) (v := { (setupkvm t).2.proc p with
      pgdir := some (setupkvm t).1, sz := sz }) rfl rfl
    exact (hk.trans hs).trans (of_proc (freevm_proc hw))

theorem forkCopied : None t (forkCopied t p np) := by
  have hs : None t (setupkvm t).2 := of_proc rfl
  exact hs.trans (setProc_same rfl rfl)

theorem setIds : None t (setIds t main np) := by
  have hs : None t (t.setProc np _) := setProc_same (v := { t.proc np with
    tid := t.nexttid, main := some main, parent := some main, pid := (t.proc main).pid }) rfl rfl
  exact hs.trans (of_proc rfl)

theorem growMain : None t (growMain t main np true) := by
  have hm : None t (t.setProc main { t.proc main with sz := (t.proc main).sz + 2 * PGSIZE }) :=
    setProc_same rfl rfl
  exact hm.trans (setProc_same rfl rfl)

end Flags

/-- `allocproc` leaves `killed` as it is. -/
theorem allocSlot_killed (h : allocSlot t = some (np, u)) :
    (u.proc np).killed = (t.proc np).killed := by
  obtain ⟨r, -, ⟨⟩⟩ := Option.map_eq_some_iff.mp h
  simp [Ptable.setProc]

/-! ## Marks in a step -/

/-- What a step does to the marks: it marks slots in `marks`, frees a slot in `drops` with its mark
and others without one, and allocates a slot in `allocates`. -/
structure Marking (m : State n) (a : Act n) (m' : State n) : Prop where
  killed : ∀ q, (m'.tab.proc q).killed = true → (m.tab.proc q).killed = true ∨ q ∈ m.marks a
  unused : ∀ q, (m'.tab.proc q).state = .UNUSED → (m.tab.proc q).state = .UNUSED ∨
    (m'.tab.proc q).killed = false ∨ q ∈ m.drops a
  embryo : ∀ q, (m'.tab.proc q).state = .EMBRYO →
    (m.tab.proc q).state = .EMBRYO ∨ m.allocates a = some q

namespace Marking

theorem of_flags (h : Flags (· ∈ m.marks a) m.tab m'.tab) : Marking m a m' :=
  ⟨h.killed, fun q hq => (h.unused q hq).imp_right .inl, fun q hq => .inl (h.embryo q hq)⟩

theorem of_none (h : Flags.None m.tab m'.tab) : Marking m a m' := of_flags (.of_none h)

theorem of_tab (h : m'.tab = m.tab) : Marking m a m' := of_none (.of_proc (congrArg _ h))

theorem alloc (ha : allocSlot m.tab = some (np, t)) (ht : m'.tab = t)
    (hm : m.allocates a = some np) : Marking m a m' := by
  obtain ⟨-, he, hA⟩ := allocSlot_some ha
  subst ht
  refine ⟨fun q hq => .inl ?_, fun q hq => .inl ?_, fun q hq => ?_⟩ <;> by_cases e : q = np
  · rwa [e, ← allocSlot_killed ha, ← e]
  · rwa [hA.others q e] at hq
  · rw [e, he] at hq
    cases hq
  · rwa [hA.others q e] at hq
  · exact .inr (e ▸ hm)
  · exact .inl (by rwa [hA.others q e] at hq)

/-- A creation gives back its slot. -/
theorem drop (h : Flags.None m.tab u) (ht : m'.tab = u.setProc np v)
    (hv : v.killed = true → (m.tab.proc np).killed = true) (hs : v.state = .UNUSED)
    (ha : m.drops a = some np) : Marking m a m' := by
  refine ⟨fun q hq => .inl ?_, fun q hq => ?_, fun q hq => .inl ?_⟩ <;> rw [ht] at hq <;>
    by_cases e : q = np
  · subst e
    rw [Ptable.setProc_proc_self] at hq
    exact hv hq
  · rw [Ptable.setProc_proc_of_ne e] at hq
    exact (h.killed q hq).resolve_right id
  · exact .inr (.inr (e ▸ ha))
  · rw [Ptable.setProc_proc_of_ne e] at hq
    refine (h.unused q hq).imp_right fun hk => .inl ?_
    rwa [ht, Ptable.setProc_proc_of_ne e]
  · subst e
    rw [Ptable.setProc_proc_self, hs] at hq
    cases hq
  · rw [Ptable.setProc_proc_of_ne e] at hq
    exact h.embryo q hq

theorem killFrom (h : Flags.None m.tab u) : Marking m a ((m.setTab u).killFrom p pid i) := by
  unfold State.killFrom
  split
  · exact of_none (h.trans .reparent)
  · exact of_none h

theorem step (hs : Step m a m') : Marking m a m' := by
  cases hs with
  | dispatch | yield | runnable => exact of_none (.setProc_grown rfl (by simp) (by simp))
  | wakeup => exact of_none .wakeup1
  | kill => exact of_flags (Flags.kill.mono fun q hq => by simpa [State.marks] using hq)
  | call | hold | ret | cleariFails | noSlot | forkKalloc | createKalloc | exitThread | waitFails
  | joinFails => exact of_tab rfl
  | sleep | waitSleeps | joinSleeps => exact of_none .sleep
  | fork _ _ ha | threadCreate _ _ ha => exact alloc ha rfl (by rw [State.allocates, ha]; rfl)
  | drop hc hp hv ha => exact drop (.of_proc rfl) rfl (fun h => hv ▸ h) rfl ha
  | copyuvm => exact of_none .forkCopied
  | decNextpid => exact of_none (.of_proc rfl)
  | setIds => exact of_none .setIds
  | allocuvm => exact of_none .growMain
  | @allocuvmFails c p np main hc hp =>
    have h : Flags.None m.tab (m.tab.setProc main
        { m.tab.proc main with sz := (m.tab.proc main).sz + 2 * PGSIZE }) := .setProc_same rfl rfl
    exact drop h rfl (fun hk => (h.killed np hk).resolve_right id) rfl
      (by simp [State.drops, hc, hp, Point.new])
  | @exitCleared c p t hc _ _ ht h0 =>
    have h : Flags (m.tab.Marked p) m.tab (clearSubthreads m.tab p).2 := .clearSubthreads
    rw [ht] at h
    exact of_flags (h.mono fun q hq => by simpa [State.marks, hc, h0, mem_slots] using hq)
  | @exitSleeps c p t k hc _ ht h0 =>
    have h : Flags (m.tab.Marked p) m.tab (clearSubthreads m.tab p).2 := .clearSubthreads
    rw [ht] at h
    exact of_flags ((h.trans .sleep).mono fun q hq => by
      simpa [State.marks, hc, h0, mem_slots] using hq)
  | exitEnd hc =>
    exact of_flags (Flags.exitRest.mono fun q hq => by simpa [State.marks, hc] using hq)
  | threadExit => exact of_none (.setProc_same rfl rfl)
  | threadExitEnd => exact of_none .threadExit
  | waitReaps hc hp hq ht => exact of_none (.reap ht)
  | joinReaps => exact of_none (.clear rfl (by simp))
  | exec => exact of_none .detach
  | killFirst => exact killFrom (.of_proc rfl)
  | killThread => exact killFrom (.clear rfl (by simp))
  | execEnd hc hp hh ht => exact of_none (.execLoad ht)

end Marking

theorem allocates_unused (h : m.allocates a = some q) :
    (m.tab.proc q).state = .UNUSED ∧ m.marks a = [] := by
  cases a with
  | fork | threadCreate =>
    obtain ⟨⟨r, t⟩, hr, rfl⟩ := Option.map_eq_some_iff.mp h
    exact ⟨(allocSlot_some hr).1, rfl⟩
  | _ => cases h

theorem drops_marks (h : q ∈ m.drops a) : m.marks a = [] := by
  cases a with
  | kill | exit | exitEnd => cases h
  | _ => rfl

/-! ## The invariant -/

/-- The marks in the table, where `h` tells which slots were struck since they were allocated. -/
structure Unmarked (m : State n) (h : Slot → Bool) : Prop where
  unused : ∀ q, (m.tab.proc q).state = .UNUSED → (m.tab.proc q).killed = false
  embryo : ∀ q, (m.tab.proc q).state = .EMBRYO → (m.tab.proc q).killed = true → h q = true

theorem Unmarked.step (hu : Unmarked m h) (hc : Careful (m, h) a) (hm : Marking m a m') :
    Unmarked m' (m.struck a h) := by
  obtain ⟨-, hmarks, hdrops⟩ := hc
  refine ⟨fun q hq => ?_, fun q hq hk => ?_⟩
  · rw [Bool.eq_false_iff]
    intro hk
    have hold := hm.killed q hk
    rcases hm.unused q hq with hs | hs | hs
    · rcases hold with hk' | hk'
      · rw [hu.unused q hs] at hk'
        cases hk'
      · exact (hmarks q hk').1 hs
    · rw [hs] at hk
      cases hk
    · rcases hold with hk' | hk'
      · rw [hdrops q hs] at hk'
        cases hk'
      · rw [drops_marks hs] at hk'
        cases hk'
  · have hold := hm.killed q hk
    rcases hm.embryo q hq with hs | hs
    · have hne : m.allocates a ≠ some q := by
        intro ha
        rw [(allocates_unused ha).1] at hs
        cases hs
      rw [State.struck, if_neg hne, Bool.or_eq_true, decide_eq_true_eq]
      exact hold.imp (hu.embryo q hs) fun hk' => (hmarks q hk').2 hs
    · obtain ⟨hun, hnil⟩ := allocates_unused hs
      rw [hu.unused q hun, hnil] at hold
      rcases hold with hk' | hk' <;> cases hk'

theorem unmarked : (remembered n).Invariant Careful fun x => Sound x.1 ∧ Unmarked x.1 x.2 := by
  refine LTS.record_invariant (P := fun m h => Sound m ∧ Unmarked m h) (fun hm => ?_)
    fun h hc hn => ?_
  · obtain ⟨-, -, ⟨hr, -, -⟩, hz⟩ := userinit_pinit hm.1
    refine ⟨.init hm, fun q hq => ?_, fun q hq => ?_⟩ <;> by_cases e : q = 0
    · rw [e, hr] at hq
      cases hq
    · rw [hz q e]
      rfl
    · rw [e, hr] at hq
      cases hq
    · rw [hz q e] at hq
      cases hq
  · have hs := Step.of_next hn
    exact ⟨h.1.step hc.1 hs, h.2.step hc (.step hs)⟩

/-- A slot of a creation that succeeds is not marked when it becomes RUNNABLE, unless `kill` was
called with its pid or its process has exited since it was allocated. -/
theorem new_unkilled {x y : State n × (Slot → Bool)} (hx : (remembered n).ReachedVia Careful x)
    (hn : (remembered n).next x (.runnable c) = some y) (hc : x.1.cpu c = some p)
    (hp : (x.1.pc p).new = some np) : (x.1.tab.proc np).state = .EMBRYO ∧
      (y.1.tab.proc np).state = .RUNNABLE ∧ ((y.1.tab.proc np).killed = true → y.2 np = true) := by
  obtain ⟨hS, hu⟩ := unmarked.of_reached hx
  obtain ⟨hn, hh⟩ := LTS.record_next.mp hn
  have he := (hS.new_ne hc hp).1
  have ht : y.1.tab = x.1.tab.setState np .RUNNABLE := by
    simp only [kernel, State.next, hc, Option.bind_some] at hn
    split at hn
    · next k =>
      rw [k] at hp
      cases hp
      exact congrArg State.tab (Option.some_inj.mp hn).symm
    · next k =>
      rw [k] at hp
      cases hp
      exact congrArg State.tab (Option.some_inj.mp hn).symm
    · cases hn
  rw [ht, hh]
  refine ⟨he, by simp [Ptable.setState], fun hk => ?_⟩
  rw [Ptable.setState, Ptable.setProc_proc_self] at hk
  simp [State.struck, State.allocates, hu.embryo np he hk]

theorem remembered_boot (n : Nat) : (remembered n).init (boot n, fun _ => false) :=
  ⟨init_boot n, rfl⟩

/-- init makes a thread, is killed and forks. -/
theorem new_unkilled_fork : ∃ x y : State 1 × (Slot → Bool),
    (remembered 1).ReachedVia Careful x ∧ (remembered 1).next x (.runnable 0) = some y ∧
    (x.1.tab.proc 0).killed = true ∧ (y.1.tab.proc 2).state = .RUNNABLE ∧
    ((y.1.tab.proc 2).killed = true → y.2 2 = true) := by
  obtain ⟨x, hx, h⟩ := (remembered 1).exists_reachedVia_of_run (C := Careful)
    (.flatten [[.dispatch 0 0], threadCreateSteps 0,
      [.kill 1, .fork 0, .kalloc 0 true, .copyuvm 0 true]])
    (fun x => ((remembered 1).next x (.runnable 0)).isSome && decide
      (x.1.cpu 0 = some 0 ∧ (x.1.pc 0).new = some 2 ∧ (x.1.tab.proc 0).killed = true))
    (remembered_boot 1) (by decide +kernel) (by decide +kernel)
  rw [Bool.and_eq_true, decide_eq_true_eq] at h
  obtain ⟨hn, hc, hp, hk⟩ := h
  obtain ⟨y, hn⟩ := Option.isSome_iff_exists.mp hn
  obtain ⟨-, hr⟩ := new_unkilled hx hn hc hp
  exact ⟨x, y, hx, hn, hk, hr⟩

/-- `kill(0)` marks a free slot, and the next `fork` makes a process that is killed. -/
theorem new_killed : ∃ x y : State 1 × (Slot → Bool), (remembered 1).Reached x ∧
    (remembered 1).next x (.runnable 0) = some y ∧ (x.1.tab.proc 1).state = .EMBRYO ∧
    (y.1.tab.proc 1).state = .RUNNABLE ∧ (y.1.tab.proc 1).killed = true ∧ y.2 1 = false := by
  obtain ⟨x, hx, h⟩ := (remembered 1).exists_reached_of_run
    [.dispatch 0 0, .kill 0, .fork 0, .kalloc 0 true, .copyuvm 0 true]
    (fun x => decide ((x.1.tab.proc 1).state = .EMBRYO) &&
      ((remembered 1).next x (.runnable 0)).any fun y : State 1 × (Slot → Bool) =>
        decide ((y.1.tab.proc 1).state = .RUNNABLE ∧ (y.1.tab.proc 1).killed = true ∧
          y.2 1 = false))
    (remembered_boot 1) (by decide +kernel)
  simp only [Bool.and_eq_true, decide_eq_true_eq, Option.any_eq_true] at h
  obtain ⟨he, y, hn, hy⟩ := h
  exact ⟨x, y, hx, hn, he, hy⟩

end Xv6.Interleave
