import Mathlib.Data.Fintype.Basic
import Xv6.Pipe.Pipe

/-! # Who sleeps on a pipe

While no process holds `p->lock`, readers sleep on an empty pipe only and writers on a full one. One
exit of `pipewrite` breaks this: a writer that finds the buffer full and gives up does not wake the
readers, though it may have stored the bytes that fill it. -/

namespace Xv6.Pipe

variable {ι : Type} {s : State ι} {p q : ι} {c : Chan}

/-- The points of the calls at which the process holds `p->lock`. -/
def Pc.locked : Pc → Bool
  | .writing _ _ | .full _ _ | .reading _ | .empty _ | .copying _ _ => true
  | .user | .write _ _ | .read _ => false

/-- What the processes that sleep on `nread` and on `nwrite` can rely on. -/
structure Calm (s : State ι) (r w : Prop) : Prop where
  nread : ∀ p, (s.proc p).asleep = some .nread → r
  nwrite : ∀ p, (s.proc p).asleep = some .nwrite → w

/-- Readers sleep on an empty pipe that may still be written to. -/
def CanSleepRead (s : State ι) : Prop := s.pipe.Empty ∧ s.pipe.writeopen = true

/-- Writers sleep on a full pipe that may still be read from. -/
def CanSleepWrite (s : State ι) : Prop := s.pipe.Full ∧ s.pipe.readopen = true

/-- What holds while a process at the given point has the lock, and at `user` while none has. A
writer may have stored bytes, and a reader may have taken some, for which it has not woken the
others yet. -/
def Settled (s : State ι) : Pc → Prop
  | .writing _ _ => Calm s (s.pipe.writeopen = true) (CanSleepWrite s)
  | .full _ _ => CanSleepWrite s ∧ Calm s (s.pipe.writeopen = true) (CanSleepWrite s)
  | .empty _ => CanSleepRead s ∧ Calm s (CanSleepRead s) (CanSleepWrite s)
  | .copying _ _ => Calm s (CanSleepRead s) (s.pipe.readopen = true)
  | .user | .write _ _ | .read _ | .reading _ => Calm s (CanSleepRead s) (CanSleepWrite s)

/-- The point at which the holder of the lock is. -/
def State.holder (s : State ι) : Pc := s.lock.elim .user fun p => (s.proc p).pc

structure WakeInv (s : State ι) : Prop where
  locked : ∀ p, (s.proc p).pc.locked = true ↔ s.lock = some p
  settled : Settled s s.holder

/-! ## Sleepers -/

/-- From `s` to `s'` no process goes to sleep. -/
def Stirs (s s' : State ι) : Prop := ∀ p c, (s'.proc p).asleep = some c → (s.proc p).asleep = some c

theorem Calm.mono {r r' w w' : Prop} (h : Calm s r w) (hs : Stirs s s') (hr : r → r')
    (hw : w → w') : Calm s' r' w' :=
  ⟨fun p hp => hr (h.nread p (hs p _ hp)), fun p hp => hw (h.nwrite p (hs p _ hp))⟩

theorem Settled.mono (h : Settled s pc) (hs : Stirs s s') (hp : s'.pipe = s.pipe) :
    Settled s' pc := by
  have hr : CanSleepRead s' = CanSleepRead s := by rw [CanSleepRead, CanSleepRead, hp]
  have hw : CanSleepWrite s' = CanSleepWrite s := by rw [CanSleepWrite, CanSleepWrite, hp]
  cases pc <;> simp only [Settled, hr, hw, hp] at h ⊢
  case full | empty => exact ⟨h.1, h.2.mono hs id id⟩
  all_goals exact h.mono hs id id

theorem asleep_wakeup (h : ((s.wakeup chan).proc q).asleep = some c) :
    (s.proc q).asleep = some c ∧ c ≠ chan := by
  simp only [State.wakeup] at h
  split at h
  · cases h
  · next hne =>
    refine ⟨h, ?_⟩
    rintro rfl
    exact hne h

theorem pc_wakeup : ((s.wakeup chan).proc q).pc = (s.proc q).pc := by
  simp only [State.wakeup]
  split <;> rfl

namespace WakeInv

theorem lock_eq (h : WakeInv s) (hp : (s.proc p).pc = pc) (hl : pc.locked = true) :
    s.lock = some p := (h.locked p).mp (hp ▸ hl)

/-- The process at a locked point is the holder. -/
theorem settled_at (h : WakeInv s) (hp : (s.proc p).pc = pc) (hl : pc.locked = true) :
    Settled s pc := by
  have hs := h.settled
  rw [State.holder, h.lock_eq hp hl] at hs
  exact hp ▸ hs

/-- No process goes on to another point. -/
theorem congr (h : WakeInv s) (hproc : ∀ q, (s'.proc q).pc = (s.proc q).pc)
    (hlock : s'.lock = s.lock) (hset : Settled s' s.holder) : WakeInv s' := by
  refine ⟨fun q => ?_, ?_⟩
  · rw [hproc q, hlock]
    exact h.locked q
  · have : s'.holder = s.holder := by
      rw [State.holder, State.holder, hlock]
      cases s.lock with
      | none => rfl
      | some q => exact hproc q
    exact this ▸ hset

theorem wakeup (h : WakeInv s) : WakeInv (s.wakeup chan) :=
  h.congr (fun _ => pc_wakeup) rfl (h.settled.mono (fun _ _ hq => (asleep_wakeup hq).1) rfl)

theorem pipeclose (h : WakeInv s) (hl : s.lock = none) (writable : Bool) :
    WakeInv (s.pipeclose writable) := by
  have hh : s.holder = .user := by rw [State.holder, hl]; rfl
  have hset : Calm s (CanSleepRead s) (CanSleepWrite s) := by
    have := h.settled
    rwa [hh] at this
  cases writable with
  | true =>
    refine h.congr (fun _ => pc_wakeup) rfl (hh ▸ ⟨fun q hq => ?_, fun q hq => ?_⟩)
    · exact absurd rfl (asleep_wakeup hq).2
    · exact hset.nwrite q (asleep_wakeup hq).1
  | false =>
    refine h.congr (fun _ => pc_wakeup) rfl (hh ▸ ⟨fun q hq => ?_, fun q hq => ?_⟩)
    · exact hset.nread q (asleep_wakeup hq).1
    · exact absurd rfl (asleep_wakeup hq).2

end WakeInv

/-! ## The parts of a step -/

/-- In the loop of `pipewrite`, with a byte to store. -/
def Pc.storing : Pc → Bool
  | .writing addr i => i < addr.length
  | _ => false

/-- The process is about to leave `pipewrite` because the buffer is full. -/
def GivesUp (s : State ι) (p : ι) : Prop :=
  (s.proc p).pc.storing = true ∧ s.pipe.Full ∧
    (s.pipe.readopen = false ∨ (s.proc p).killed = true)

instance (s : State ι) (p : ι) : Decidable (GivesUp s p) := inferInstanceAs (Decidable (_ ∧ _))

/-- `pipewrite` gives up on a full buffer only while nobody sleeps on `&p->nread`. -/
def Guarded (s : State ι) : Act ι → Prop
  | .step p => GivesUp s p → ∀ q, (s.proc q).asleep ≠ some .nread
  | _ => True

instance [Fintype ι] (s : State ι) : ∀ a, Decidable (Guarded s a)
  | .step p => inferInstanceAs (Decidable (GivesUp s p → ∀ q, (s.proc q).asleep ≠ some .nread))
  | .pipewrite _ _ | .piperead _ _ | .pipeclose _ _ | .kill _ => inferInstanceAs (Decidable True)

variable [DecidableEq ι]

theorem stirs_setProc (hv : ∀ c, v.asleep = some c → (s.proc p).asleep = some c) :
    Stirs s (s.setProc p v) := by
  intro q c h
  by_cases e : q = p
  · rw [e, State.setProc_proc_self] at h
    exact e ▸ hv c h
  · rwa [State.setProc_proc_of_ne e] at h

/-- A process may go to sleep when it can rely on what the sleepers do. -/
theorem Settled.sleep (h : Settled s .user) (hr : chan = .nread → CanSleepRead s)
    (hw : chan = .nwrite → CanSleepWrite s) : Settled (s.sleep p chan pc) .user := by
  have hs : ∀ q c, ((s.sleep p chan pc).proc q).asleep = some c →
      c = chan ∨ (s.proc q).asleep = some c := by
    intro q c hq
    change ((s.setProc p { s.proc p with pc := pc, asleep := some chan }).proc q).asleep = _ at hq
    by_cases e : q = p
    · rw [e, State.setProc_proc_self, Option.some.injEq] at hq
      exact .inl hq.symm
    · rw [State.setProc_proc_of_ne e] at hq
      exact .inr hq
  constructor
  · intro q hq
    rcases hs q _ hq with e | hq
    · exact hr e.symm
    · exact h.nread q hq
  · intro q hq
    rcases hs q _ hq with e | hq
    · exact hw e.symm
    · exact h.nwrite q hq

namespace WakeInv

/-- The holder goes on to another point with the lock. -/
theorem goto (h : WakeInv s) (hp : (s.proc p).pc.locked = true) (hl : pc.locked = true)
    (hset : Settled s pc) : WakeInv (s.goto p pc) := by
  have hs : s.lock = some p := (h.locked p).mp hp
  refine ⟨fun q => ?_, ?_⟩
  · change _ ↔ s.lock = some q
    by_cases e : q = p
    · rw [e, State.goto, State.setProc_proc_self, hs]
      simpa using hl
    · rw [State.goto, State.setProc_proc_of_ne e]
      exact h.locked q
  · change Settled _ (s.lock.elim _ _)
    rw [hs, Option.elim_some, State.goto, State.setProc_proc_self]
    exact hset.mono (stirs_setProc fun _ => id) rfl

/-- The holder gives up the lock. -/
theorem unlock (h : WakeInv s) (hp : (s.proc p).pc.locked = true) (hv : v.pc.locked = false)
    (hset : Settled { s.setProc p v with lock := none } .user) :
    WakeInv { s.setProc p v with lock := none } := by
  refine ⟨fun q => ?_, hset⟩
  change ((s.setProc p v).proc q).pc.locked = true ↔ none = some q
  by_cases e : q = p
  · rw [e, State.setProc_proc_self, hv]
    simp
  · have hq := h.locked q
    rw [(h.locked p).mp hp, Option.some.injEq] at hq
    rw [State.setProc_proc_of_ne e]
    simpa [Ne.symm e] using hq

theorem leave (h : WakeInv s) (hp : (s.proc p).pc.locked = true) (hset : Settled s .user) :
    WakeInv (s.leave p ret) :=
  h.unlock hp rfl (hset.mono
    (stirs_setProc (v := { s.proc p with pc := .user, ret := ret }) fun _ => id) rfl)

theorem sleep (h : WakeInv s) (hp : (s.proc p).pc.locked = true) (hl : pc.locked = false)
    (hset : Settled s .user) (hr : chan = .nread → CanSleepRead s)
    (hw : chan = .nwrite → CanSleepWrite s) : WakeInv (s.sleep p chan pc) :=
  h.unlock hp hl (hset.sleep hr hw)

/-- A process without the lock moves on without it. -/
theorem move (h : WakeInv s) (hp : (s.proc p).pc.locked = false) (hl : v.pc.locked = false)
    (hv : ∀ c, v.asleep = some c → (s.proc p).asleep = some c) : WakeInv (s.setProc p v) := by
  have hlock : s.lock ≠ some p := fun e => by
    rw [(h.locked p).mpr e] at hp
    cases hp
  have hh : (s.setProc p v).holder = s.holder := by
    change s.lock.elim _ _ = s.lock.elim _ _
    cases e : s.lock with
    | none => rfl
    | some q =>
      have hne : q ≠ p := fun e' => hlock (e' ▸ e)
      rw [Option.elim_some, Option.elim_some, State.setProc_proc_of_ne hne]
  refine ⟨fun q => ?_, ?_⟩
  · change _ ↔ s.lock = some q
    by_cases e : q = p
    · rw [e, State.setProc_proc_self, hl]
      simpa using hlock
    · rw [State.setProc_proc_of_ne e]
      exact h.locked q
  · rw [hh]
    exact h.settled.mono (stirs_setProc hv) rfl

theorem acquire (h : WakeInv s) (hs : s.acquire p pc = some s') (hl : pc.locked = true)
    (hset : Settled s .user → Settled s pc) : WakeInv s' := by
  simp only [State.acquire, Option.ite_none_right_eq_some, Option.some.injEq] at hs
  obtain ⟨⟨-, hn⟩, rfl⟩ := hs
  have hfree := h.settled
  rw [State.holder, hn] at hfree
  refine ⟨fun q => ?_, ?_⟩
  · change ((s.goto p pc).proc q).pc.locked = true ↔ some p = some q
    rw [Option.some.injEq, State.goto]
    by_cases e : q = p
    · rw [e, State.setProc_proc_self]
      simpa using hl
    · have hq := h.locked q
      rw [hn] at hq
      rw [State.setProc_proc_of_ne e]
      simpa [Ne.symm e] using hq
  · change Settled _ ((s.goto p pc).proc p).pc
    rw [State.goto, State.setProc_proc_self]
    exact (hset hfree).mono (stirs_setProc (v := { s.proc p with pc := pc }) fun _ => id) rfl

/-! ## The points of the calls -/

/-- The holder changes the pipe and goes on. -/
theorem congr_goto (h : WakeInv s) (hp : (s.proc p).pc = pc) (hl : pc.locked = true)
    (hproc : s'.proc = s.proc) (hlock : s'.lock = s.lock) (hl' : pc'.locked = true)
    (hset : Settled s' pc) (hset' : Settled s' pc') : WakeInv (s'.goto p pc') := by
  have hh : s.holder = pc := by rw [State.holder, h.lock_eq hp hl, Option.elim_some, hp]
  have hi : WakeInv s' := h.congr (fun _ => by rw [hproc]) hlock (hh ▸ hset)
  refine hi.goto ?_ hl' hset'
  rwa [hproc, hp]

/-- The buffer is not full, so no writer sleeps. -/
theorem store (h : WakeInv s) (hp : (s.proc p).pc = .writing addr i) (hf : ¬ s.pipe.Full)
    (b : UInt8) : WakeInv ((s.store b).goto p (.writing addr (i + 1))) := by
  have hset : Calm s _ (CanSleepWrite s) := h.settled_at hp rfl
  have hset' : Settled (s.store b) (.writing addr i) :=
    ⟨hset.nread, fun q hq => absurd (hset.nwrite q hq).1 hf⟩
  exact h.congr_goto hp rfl rfl rfl rfl hset' hset'

/-- The buffer is not empty, so no reader sleeps. -/
theorem take (h : WakeInv s) (hp : (s.proc p).pc = .copying n i) (he : ¬ s.pipe.Empty) :
    WakeInv (s.take.goto p (.copying n (i + 1))) := by
  have hset : Calm s (CanSleepRead s) _ := h.settled_at hp rfl
  have hset' : Settled s.take (.copying n i) :=
    ⟨fun q hq => absurd (hset.nread q hq).1 he, hset.nwrite⟩
  exact h.congr_goto hp rfl rfl rfl rfl hset' hset'

/-- The loop of `pipewrite`. Its exit on a full buffer wakes nobody. -/
theorem writing (h : WakeInv s) (hg : Guarded s (.step p)) (hp : (s.proc p).pc = .writing addr i)
    (hs : s.step p = some s') : WakeInv s' := by
  have hl : (s.proc p).pc.locked = true := by rw [hp]; rfl
  have hset : Calm s (s.pipe.writeopen = true) (CanSleepWrite s) := h.settled_at hp rfl
  simp only [State.step, hp] at hs
  split at hs
  · -- all bytes are stored
    cases hs
    refine h.wakeup.leave (pc_wakeup (s := s) ▸ hl) ⟨fun q hq => ?_, fun q hq => ?_⟩
    · exact absurd rfl (asleep_wakeup hq).2
    · exact hset.nwrite q (asleep_wakeup hq).1
  · next b hb =>
    split at hs
    · next hf =>
      split at hs
      · next hk =>
        cases hs
        have hi : (s.proc p).pc.storing = true := by
          simpa [hp, Pc.storing] using (List.getElem?_eq_some_iff.mp hb).1
        have hn := hg ⟨hi, hf, hk⟩
        exact h.leave hl ⟨fun q hq => absurd hq (hn q), hset.nwrite⟩
      · next hk =>
        cases hs
        push Not at hk
        exact h.goto hl rfl ⟨⟨hf, by simpa using hk.1⟩, hset⟩
    · next hf =>
      cases hs
      exact h.store hp hf b

theorem full (h : WakeInv s) (hp : (s.proc p).pc = .full addr i) :
    WakeInv ((s.wakeup .nread).sleep p .nwrite (.write addr i)) := by
  obtain ⟨hfull, hset⟩ : CanSleepWrite s ∧ Calm s _ (CanSleepWrite s) := h.settled_at hp rfl
  have hl : ((s.wakeup .nread).proc p).pc.locked = true := by rw [pc_wakeup, hp]; rfl
  refine h.wakeup.sleep hl rfl ⟨fun q hq => ?_, fun q hq => ?_⟩ nofun fun _ => hfull
  · exact absurd rfl (asleep_wakeup hq).2
  · exact hset.nwrite q (asleep_wakeup hq).1

/-- The first loop of `piperead`. -/
theorem reading (h : WakeInv s) (hp : (s.proc p).pc = .reading n) (hs : s.step p = some s') :
    WakeInv s' := by
  have hl : (s.proc p).pc.locked = true := by rw [hp]; rfl
  have hset : Calm s (CanSleepRead s) (CanSleepWrite s) := h.settled_at hp rfl
  simp only [State.step, hp] at hs
  split at hs
  · next he =>
    split at hs
    · cases hs
      exact h.leave hl hset
    · cases hs
      exact h.goto hl rfl ⟨he, hset⟩
  · cases hs
    exact h.goto hl rfl (hset.mono (fun _ _ => id) id And.right)

theorem empty (h : WakeInv s) (hp : (s.proc p).pc = .empty n) :
    WakeInv (s.sleep p .nread (.read n)) := by
  obtain ⟨hempty, hset⟩ : CanSleepRead s ∧ Calm s (CanSleepRead s) (CanSleepWrite s) :=
    h.settled_at hp rfl
  exact h.sleep (by rw [hp]; rfl) rfl hset (fun _ => hempty) nofun

/-- The second loop of `piperead`, which always wakes the writers. -/
theorem copying (h : WakeInv s) (hp : (s.proc p).pc = .copying n i) (hs : s.step p = some s') :
    WakeInv s' := by
  have hset : Calm s (CanSleepRead s) _ := h.settled_at hp rfl
  simp only [State.step, hp] at hs
  split at hs
  · next hi =>
    cases hs
    exact h.take hp hi.2
  · cases hs
    have hl : ((s.wakeup .nwrite).proc p).pc.locked = true := by rw [pc_wakeup, hp]; rfl
    refine h.wakeup.leave hl ⟨fun q hq => ?_, fun q hq => ?_⟩
    · exact hset.nread q (asleep_wakeup hq).1
    · exact absurd rfl (asleep_wakeup hq).2

theorem step (h : WakeInv s) (hg : Guarded s (.step p)) (hs : s.step p = some s') : WakeInv s' := by
  cases hp : (s.proc p).pc with
  | user => simp [State.step, hp] at hs
  | write addr i =>
    simp only [State.step, hp] at hs
    exact h.acquire hs rfl fun hset => Calm.mono hset (fun _ _ => id) And.right id
  | writing addr i => exact h.writing hg hp hs
  | full addr i =>
    simp only [State.step, hp, Option.some.injEq] at hs
    exact hs ▸ h.full hp
  | read n =>
    simp only [State.step, hp] at hs
    exact h.acquire hs rfl id
  | reading n => exact h.reading hp hs
  | empty n =>
    simp only [State.step, hp, Option.some.injEq] at hs
    exact hs ▸ h.empty hp
  | copying n i => exact h.copying hp hs

theorem kill (h : WakeInv s) (p : ι) :
    WakeInv (s.setProc p { s.proc p with killed := true, asleep := none }) := by
  refine h.congr (fun q => ?_) rfl (h.settled.mono (stirs_setProc nofun) rfl)
  by_cases e : q = p
  · rw [e, State.setProc_proc_self]
  · rw [State.setProc_proc_of_ne e]

theorem next (h : WakeInv s) (hg : Guarded s a) (hs : s.next a = some s') : WakeInv s' := by
  cases a with
  | pipewrite p addr | piperead p n =>
    simp only [State.next, Option.ite_none_right_eq_some, Option.some.injEq] at hs
    obtain ⟨hp, rfl⟩ := hs
    exact h.move (by rw [hp]; rfl) rfl fun _ => id
  | pipeclose p writable =>
    simp only [State.next, Option.ite_none_right_eq_some, Option.some.injEq] at hs
    obtain ⟨⟨-, hl⟩, rfl⟩ := hs
    exact h.pipeclose hl writable
  | kill p =>
    cases hs
    exact h.kill p
  | step p => exact h.step hg hs

end WakeInv

theorem wakeInv : (pipes ι).Invariant Guarded WakeInv where
  init := by
    rintro s ⟨data, rfl⟩
    exact ⟨fun p => by simp [State.pipealloc, Pc.locked], ⟨nofun, nofun⟩⟩
  step h hg hs := h.next hg hs

/-- In runs of guarded steps, while `p->lock` is free, a process sleeps on `&p->nread` only if the
pipe is empty and may still be written to, and on `&p->nwrite` only if it is full and may still be
read from. -/
theorem asleep_spec (hs : (pipes ι).ReachedVia Guarded s) (hl : s.lock = none) :
    (∀ p, (s.proc p).asleep = some .nread → s.pipe.Empty ∧ s.pipe.writeopen = true) ∧
      ∀ p, (s.proc p).asleep = some .nwrite → s.pipe.Full ∧ s.pipe.readopen = true := by
  have hset := (wakeInv.of_reached hs).settled
  rw [State.holder, hl] at hset
  exact ⟨hset.nread, hset.nwrite⟩

/-- A reader sleeps on a new pipe. -/
theorem asleep_spec_reader : ∃ s : State Bool, (s.proc false).asleep = some .nread ∧
    (∀ p, (s.proc p).asleep = some .nread → s.pipe.Empty ∧ s.pipe.writeopen = true) ∧
      ∀ p, (s.proc p).asleep = some .nwrite → s.pipe.Full ∧ s.pipe.readopen = true := by
  obtain ⟨s, hs, hp⟩ := LTS.exists_reachedVia_of_run (M := pipes Bool) (C := Guarded)
    [.piperead false 1, .step false, .step false, .step false]
    (fun s => s.lock = none ∧ (s.proc false).asleep = some .nread) ⟨fun _ => 0, rfl⟩
    (by decide +kernel) (by decide +kernel)
  simp only [decide_eq_true_eq] at hp
  exact ⟨s, hp.2, asleep_spec hs hp.1⟩

/-- A reader sleeps on an empty pipe. A writer that has been killed stores as many bytes as there is
room for and gives up: the buffer is full, and the reader still sleeps. -/
theorem killed_writer_wakes_nobody : ∃ s : State Bool, (pipes Bool).Reached s ∧ s.lock = none ∧
    (s.proc false).asleep = some .nread ∧ ¬ s.pipe.Empty := by
  obtain ⟨s, hs, hp⟩ := LTS.exists_reached_of_run (M := pipes Bool)
    (.flatten [[.piperead false 1, .step false, .step false, .step false,
      .pipewrite true (List.replicate 513 0), .kill true, .step true],
      List.replicate 513 (.step true)])
    (fun s => s.lock = none ∧ (s.proc false).asleep = some .nread ∧ ¬ s.pipe.Empty)
    ⟨fun _ => 0, rfl⟩ (by decide +kernel)
  simp only [decide_eq_true_eq] at hp
  exact ⟨s, hs, hp⟩

end Xv6.Pipe
