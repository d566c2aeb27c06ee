import Xv6.Interleave.Sound

/-! # Parents

Whether the parent of a slot has been in use ever since the slot was attached to it. It is when
`thread_exit` and `kill_threads_except` take away no slot that is a parent, a thread is made for a
main thread that is live, and a thread that calls `exec` has a main thread to take the place of. -/

namespace Xv6.Interleave

open Function Thread

variable {n : Nat} {a : Act n} {c : Fin n} {p q np x : Slot} {k : Point}
variable {t : Ptable}

/-- The slot whose parent the step sets in `fork` or `thread_create`. -/
def State.attaches (m : State n) : Act n → Option Slot
  | .copyuvm c _ => (m.cpu c).bind fun p =>
    match m.pc p with
    | .fork np .copyuvm => some np
    | _ => none
  | .setIds c => (m.cpu c).bind fun p =>
    match m.pc p with
    | .threadCreate np _ .ids => some np
    | _ => none
  | _ => none

/-- The kernel with a history variable: `kept q` says that the parent of `q` has been in use since
`q` was attached to it. -/
structure Traced (n : Nat) extends State n where
  kept : Slot → Bool

namespace Traced

/-- The parent of `q`, if it is in use. -/
def hasParent (t : Ptable) (q : Slot) : Bool := (t.proc q).parent.any fun p => t.InUse p

def after (m : Traced n) (a : Act n) (s : State n) : Traced n where
  toState := s
  kept q := hasParent s.tab q && (m.kept q || m.attaches a = some q ||
    (s.tab.proc q).parent ≠ (m.tab.proc q).parent)

def next (m : Traced n) (a : Act n) : Option (Traced n) := (m.toState.next a).map (m.after a)

end Traced

/-- The kernel with the history of parents. -/
def traced (n : Nat) : LTS (Traced n) (Act n) where
  init m := (kernel n).init m.toState
  next := Traced.next

/-- The slot that the step takes away without passing its children to init. -/
def State.leaves (m : State n) : Act n → Option Slot
  | .threadExitEnd c => m.cpu c
  | a => m.clears a

/-- The main thread that the step attaches a new thread to. -/
def State.adopts (m : State n) : Act n → Option Slot
  | .setIds c => (m.cpu c).bind fun p =>
    match m.pc p with
    | .threadCreate _ main .ids => some main
    | _ => none
  | _ => none

def State.detaches (m : State n) : Act n → Option Slot
  | .exec c => (m.cpu c).filter fun p => (m.tab.proc p).tid ≠ 0
  | _ => none

/-- No slot that is a parent is taken away, no thread is made for a main thread that has ended, and
a thread that calls `exec` has a main thread, which is not init. -/
def KeepsParents (m : Traced n) (a : Act n) : Prop :=
  NoGhost m.toState a ∧
  (∀ x ∈ m.leaves a, m.tab.initproc ≠ some x ∧
    ∀ q, m.tab.InUse q → (m.tab.proc q).parent ≠ some x) ∧
  (∀ x ∈ m.adopts a, Live (m.tab.proc x).state) ∧
  ∀ p ∈ m.detaches a, ∃ x ∈ (m.tab.proc p).main, m.tab.initproc ≠ some x ∧ Grown m.tab x

instance : Decidable (Grown t q) := inferInstanceAs (Decidable (_ ∧ _))

instance (m : Traced n) (a : Act n) : Decidable (KeepsParents m a) :=
  have : Decidable (∀ x ∈ m.leaves a, m.tab.initproc ≠ some x ∧
      ∀ q, m.tab.InUse q → (m.tab.proc q).parent ≠ some x) :=
    Option.decidableForallMem (m.leaves a)
  have : Decidable (∀ x ∈ m.adopts a, Live (m.tab.proc x).state) :=
    Option.decidableForallMem (m.adopts a)
  have (p : Slot) : Decidable (∃ x ∈ (m.tab.proc p).main,
      m.tab.initproc ≠ some x ∧ Grown m.tab x) :=
    Option.decidableExistsMem (m.tab.proc p).main
  have : Decidable (∀ p ∈ m.detaches a, ∃ x ∈ (m.tab.proc p).main,
      m.tab.initproc ≠ some x ∧ Grown m.tab x) :=
    Option.decidableForallMem (m.detaches a)
  inferInstanceAs (Decidable (NoGhost _ _ ∧ _ ∧ _ ∧ _))

/-- The slot that the thread has allocated and given a parent. -/
def Point.attached : Point → Option Slot
  | .fork np .runnable | .threadCreate np _ .allocuvm | .threadCreate np _ .runnable => some np
  | _ => none

/-- A slot that has been given its parent. -/
def State.Child (m : State n) (q : Slot) : Prop :=
  Grown m.tab q ∨ ∃ p, Live (m.tab.proc p).state ∧ (m.pc p).attached = some q

structure ParentInv (m : Traced n) : Prop where
  init : ∃ i, m.tab.initproc = some i ∧ Live (m.tab.proc i).state
  exits : ∀ p, m.pc p = .exit ∨ m.pc p = .threadExit → m.tab.initproc ≠ some p
  tid : ∀ p np k, Live (m.tab.proc p).state → m.pc p = .fork np k → (m.tab.proc np).tid = 0
  parent : ∀ q, m.Child q → m.tab.initproc ≠ some q →
    m.kept q = true ∧ ∃ p, (m.tab.proc q).parent = some p ∧ Live (m.tab.proc p).state

/-! ## Steps -/

section
variable {m : Traced n}

/-- What a step has to keep. -/
structure Advance (m : Traced n) (a : Act n) (s : State n) : Prop where
  initproc : s.tab.initproc = m.tab.initproc
  live : ∀ i, m.tab.initproc = some i → Live (s.tab.proc i).state
  exits : ∀ p, s.pc p = .exit ∨ s.pc p = .threadExit → m.tab.initproc ≠ some p
  tid : ∀ p np k, Live (s.tab.proc p).state → s.pc p = .fork np k → (s.tab.proc np).tid = 0
  child : ∀ q, s.Child q → m.tab.initproc ≠ some q → (m.Child q ∨ m.attaches a = some q) ∧
    ∃ p, (s.tab.proc q).parent = some p ∧ Live (s.tab.proc p).state

theorem ParentInv.advance (h : ParentInv m) (ha : Advance m a s) : ParentInv (m.after a s) := by
  obtain ⟨i, hi, -⟩ := h.init
  refine ⟨⟨i, ha.initproc.trans hi, ha.live i hi⟩, fun p hp => ?_, ha.tid, fun q hq hne => ?_⟩
  · change s.tab.initproc ≠ _
    rw [ha.initproc]
    exact ha.exits p hp
  · change s.tab.initproc ≠ _ at hne
    rw [ha.initproc] at hne
    obtain ⟨hor, p, hp, hl⟩ := ha.child q hq hne
    refine ⟨?_, p, hp, hl⟩
    have hparent : Traced.hasParent s.tab q = true := by
      rw [Traced.hasParent, hp]
      simpa using inUse_of_live hl
    change (Traced.hasParent s.tab q && _) = true
    rw [hparent, Bool.true_and]
    rcases hor with hq | hq
    · simp [(h.parent q hq hne).1]
    · simp [hq]

end

/-! ## Tables -/

/-- The slots in `gone` cease to be live, other slots become free at most if they were not live,
and slots keep their parents or are passed to init. -/
structure Family (gone : Slot → Prop) (t u : Ptable) : Prop where
  initproc : u.initproc = t.initproc
  left : ∀ q, gone q → ¬ Live (u.proc q).state
  live : ∀ q, ¬ gone q → (Live (u.proc q).state ↔ Live (t.proc q).state)
  inUse : ∀ q, u.InUse q → t.InUse q
  parent : ∀ q, u.InUse q → (u.proc q).parent = (t.proc q).parent ∨ (u.proc q).parent = t.initproc
  embryo : ∀ q, u.InUse q → ((u.proc q).state = .EMBRYO ↔ (t.proc q).state = .EMBRYO)
  tid : ∀ q, (u.proc q).state = .EMBRYO → (u.proc q).tid = (t.proc q).tid

abbrev Calm (t u : Ptable) : Prop := Family (fun _ => False) t u

namespace Family

variable {v : Proc}

theorem refl : Calm t t where
  initproc := rfl
  left := nofun
  live _ _ := .rfl
  inUse _ := id
  parent _ _ := .inl rfl
  embryo _ _ := .rfl
  tid _ _ := rfl

theorem trans (h : Family gone t u) (h' : Family gone' u w) :
    Family (fun q => gone q ∨ gone' q) t w where
  initproc := h'.initproc.trans h.initproc
  left q hq hl := by
    by_cases hg : gone' q
    · exact h'.left q hg hl
    · exact h.left q (hq.resolve_right hg) ((h'.live q hg).mp hl)
  live q hq := (h'.live q (hq ∘ .inr)).trans (h.live q (hq ∘ .inl))
  inUse q hq := h.inUse q (h'.inUse q hq)
  parent q hq := by
    rcases h'.parent q hq with e | e
    · rw [e]
      exact h.parent q (h'.inUse q hq)
    · exact .inr (e.trans h.initproc)
  embryo q hq := (h'.embryo q hq).trans (h.embryo q (h'.inUse q hq))
  tid q hq := by
    have hw : w.InUse q := by rw [Ptable.InUse, hq]; decide
    exact (h'.tid q hq).trans (h.tid q ((h'.embryo q hw).mp hq))

theorem trans_calm (h : Family gone t u) (h' : Calm u w) : Family gone t w := by
  simpa using h.trans h'

theorem calm_trans (h : Calm t u) (h' : Family gone u w) : Family gone t w := by
  simpa using h.trans h'

theorem of_quiet (h : Quiet t u) (hp : ∀ q, (u.proc q).parent = (t.proc q).parent ∨
    (u.proc q).parent = t.initproc) : Calm t u where
  initproc := congrArg Globals.initproc h.globals
  left := nofun
  live q _ := ⟨(Keeps.of_quiet h).live q, h.live id⟩
  inUse _ hq := (h.inUse_iff id).mp hq
  parent q _ := hp q
  embryo q _ := (Keeps.of_quiet h).embryo q
  tid q _ := (h.ids q id).tid

theorem wakeup1 : Calm t (wakeup1 t chan) :=
  of_quiet .wakeup1 fun _ => .inl wakeup1_parent

theorem reparent : Calm t (reparent t p) := by
  refine of_quiet .reparent fun q => ?_
  rw [reparent_parent]
  split
  · exact .inr rfl
  · exact .inl rfl

theorem of_alike (hi : u.initproc = t.initproc) (h : ∀ q, Alike (t.proc q) (u.proc q)) :
    Calm t u where
  initproc := hi
  left := nofun
  live q _ := by rw [(h q).state]
  inUse q hq := by rwa [Ptable.InUse, (h q).state] at hq
  parent q _ := .inl (h q).parent
  embryo q _ := by rw [(h q).state]
  tid q _ := (h q).tid

/-- A slot becomes free. -/
theorem clear (hi : u.initproc = t.initproc) (hu : (u.proc p).state = .UNUSED)
    (ho : ∀ q, q ≠ p → Alike (t.proc q) (u.proc q)) : Family (· = p) t u := by
  have hne : ∀ q, u.InUse q → q ≠ p := by
    rintro q hq rfl
    exact hq hu
  refine ⟨hi, fun q e hl => ?_, fun q e => ?_, fun q hq => ?_, fun q hq => ?_, fun q hq => ?_,
    fun q hq => ?_⟩
  · exact hne q (inUse_of_live hl) e
  · rw [(ho q e).state]
  · rwa [Ptable.InUse, (ho q (hne q hq)).state] at hq
  · exact .inl (ho q (hne q hq)).parent
  · rw [(ho q (hne q hq)).state]
  · exact (ho q (hne q (by rw [Ptable.InUse, hq]; decide))).tid

/-- Slots that were not live are not missed. -/
theorem calm (h : Family gone t u) (hg : ∀ q, gone q → ¬ Live (t.proc q).state) : Calm t u := by
  refine ⟨h.initproc, nofun, fun q _ => ?_, h.inUse, h.parent, h.embryo, h.tid⟩
  by_cases hq : gone q
  · exact ⟨fun hl => absurd hl (h.left q hq), fun hl => absurd hl (hg q hq)⟩
  · exact h.live q hq

/-- A slot under construction is given up. -/
theorem dropped (he : (t.proc p).state = .EMBRYO) (hi : u.initproc = t.initproc)
    (hu : (u.proc p).state = .UNUSED) (ho : ∀ q, q ≠ p → Alike (t.proc q) (u.proc q)) :
    Calm t u := by
  refine (clear hi hu ho).calm ?_
  rintro q rfl
  rw [he]
  decide

theorem setUnused (he : (t.proc p).state = .EMBRYO) :
    Calm t (t.setProc p { v with state := .UNUSED }) :=
  dropped he rfl (by simp) fun _ e => by
    rw [Ptable.setProc_proc_of_ne e]
    exact .refl

theorem threadClear : Family (· = p) t (threadClear t p) :=
  clear rfl (by simp [Thread.threadClear]) fun _ e => by
    rw [Thread.threadClear, Ptable.setProc_proc_of_ne e]
    exact .refl

theorem clear_zombie (h : Family (· = p) t u) (hz : (t.proc p).state = .ZOMBIE) : Calm t u := by
  refine h.calm ?_
  rintro q rfl
  rw [hz]
  decide

theorem reap (hq : (t.proc p).state = .ZOMBIE) (h : reap t p = some u) : Calm t u := by
  obtain ⟨g, -, rfl⟩ := reap_eq_some h
  refine clear_zombie (clear rfl (by simp [Ptable.setProc]) fun r hr => ?_) hq
  simp [Ptable.setProc, hr, Alike.refl]

theorem clearSubthreads : Calm t (clearSubthreads t p).2 := by
  refine clearSubthreads_induction refl (fun _ _ hs hz => ?_) fun u q hs => ?_
  · exact hs.trans_calm (threadClear.clear_zombie hz)
  · have hk : Calm u (u.setProc q { u.proc q with killed := true }) :=
      of_alike rfl (alike_setProc ⟨rfl, rfl, rfl, rfl, rfl, rfl⟩)
    exact (hs.trans_calm hk).trans_calm wakeup1

/-- A thread that is live changes its state. -/
theorem setProc (hl : Live (t.proc p).state) (hg : ∀ q, gone q → q = p)
    (hv : Live v.state ↔ ¬ gone p) (hem : v.state ≠ .EMBRYO) (hp : v.parent = (t.proc p).parent) :
    Family gone t (t.setProc p v) := by
  have hother : ∀ q, q ≠ p → (t.setProc p v).proc q = t.proc q :=
    fun q e => Ptable.setProc_proc_of_ne e
  have hself : (t.setProc p v).proc p = v := Ptable.setProc_proc_self ..
  refine ⟨rfl, fun q hq => ?_, fun q hq => ?_, fun q hq => ?_, fun q _ => ?_, fun q _ => ?_,
    fun q hq => ?_⟩
  · rw [hg q hq, hself, hv, not_not]
    exact hg q hq ▸ hq
  all_goals by_cases e : q = p
  · rw [e, hself]
    exact ⟨fun _ => hl, fun _ => hv.mpr (e ▸ hq)⟩
  · rw [hother q e]
  · exact e ▸ inUse_of_live hl
  · rwa [Ptable.InUse, hother q e] at hq
  · rw [e, hself]
    exact .inl hp
  · rw [hother q e]
    exact .inl rfl
  · rw [e, hself]
    exact ⟨fun h => absurd h hem, fun h => absurd h (grown_of_live hl).2⟩
  · rw [hother q e]
  · rw [e, hself] at hq
    exact absurd hq hem
  · rw [hother q e]

/-- A thread that is live gets on a CPU or leaves it. -/
theorem setLive (hl : Live (t.proc p).state) (hv : Live v.state)
    (hp : v.parent = (t.proc p).parent) : Calm t (t.setProc p v) := by
  refine setProc hl nofun ⟨fun _ => id, fun _ => hv⟩ ?_ hp
  intro e
  rw [e] at hv
  exact absurd hv (by decide)

theorem setZombie (hl : Live (t.proc p).state) : Family (· = p) t (t.setState p .ZOMBIE) :=
  setProc hl (fun _ => id) (by simp [Live]) nofun rfl

end Family

/-- What `exit` does before it makes its caller a zombie. -/
theorem exitRest_family : ∃ u, Calm t u ∧ exitRest t p = u.setState p .ZOMBIE ∧
    (t.initproc ≠ some p → ∀ q, (u.proc q).parent ≠ some p) := by
  have h : ∃ w, Calm t w ∧ exitRest t p = (reparent w p).setState p .ZOMBIE := by
    unfold exitRest
    split
    · exact ⟨_, .wakeup1, rfl⟩
    · next x _ =>
      have hk : Calm t (t.setProc x { t.proc x with killed := true }) :=
        .of_alike rfl (alike_setProc ⟨rfl, rfl, rfl, rfl, rfl, rfl⟩)
      exact ⟨_, hk.trans_calm .wakeup1, rfl⟩
  obtain ⟨w, hw, e⟩ := h
  refine ⟨_, hw.trans_calm .reparent, e, fun hi q => ?_⟩
  rw [reparent_parent, hw.initproc]
  split
  · exact hi
  · next h => exact h

/-- What `thread_exit` does before it makes its caller a zombie. -/
theorem threadExit_family : ∃ u, Calm t u ∧
    threadExit t p retval = u.setState p .ZOMBIE ∧
    ∀ q, (u.proc q).parent = (t.proc q).parent := by
  have hr : ∀ q, Alike (t.proc q)
      ((t.setProc p { t.proc p with retval := retval }).proc q) :=
    alike_setProc ⟨rfl, rfl, rfl, rfl, rfl, rfl⟩
  have hc : Calm t (t.setProc p { t.proc p with retval := retval }) := .of_alike rfl hr
  refine ⟨_, hc.trans_calm .wakeup1, rfl, fun q => ?_⟩
  rw [wakeup1_parent]
  exact (hr q).parent

theorem setState_parent : ((t.setState p st).proc q).parent = (t.proc q).parent :=
  Ptable.forall_setProc (P := fun r w => r = q → w.parent = (t.proc q).parent)
    (fun e => e ▸ rfl) (fun _ _ e => e ▸ rfl) q rfl

theorem attached_eq (h : k.attached = some q) : k.new = some q := by
  cases k with
  | fork _ j | threadCreate _ _ j => cases j <;> first | exact h | cases h
  | _ => cases h

section
variable {m : Traced n}

namespace Advance

/-- A step in which no thread goes on to a point of `fork` or past the naming of a new slot. -/
theorem of_family (h : ParentInv m) (hS : Sound s) (hf : Family gone m.tab s.tab)
    (hg : ∀ x, gone x → m.tab.initproc ≠ some x ∧
      ∀ q, s.tab.InUse q → (s.tab.proc q).parent ≠ some x)
    (hexits : ∀ p, s.pc p = .exit ∨ s.pc p = .threadExit → m.tab.initproc ≠ some p)
    (hfork : ∀ p np j, s.pc p = .fork np j → ∃ j', m.pc p = .fork np j')
    (hatt : ∀ p q, (s.pc p).attached = some q → (m.pc p).attached = some q) :
    Advance m a s := by
  obtain ⟨i, hi, hli⟩ := h.init
  have hli : Live (s.tab.proc i).state :=
    (hf.live i fun hgi => (hg i hgi).1 hi).mpr hli
  have hlive : ∀ p, Live (s.tab.proc p).state → Live (m.tab.proc p).state :=
    fun p hl => (hf.live p fun hgp => hf.left p hgp hl).mp hl
  refine ⟨hf.initproc, fun j hj => ?_, hexits, fun p np j hl hp => ?_, fun q hq hne => ?_⟩
  · rw [hi] at hj
    cases hj
    exact hli
  · obtain ⟨j', hp'⟩ := hfork p np j hp
    rw [hf.tid np (hS.embryo p np hl (congrArg Point.new hp))]
    exact h.tid p np j' (hlive p hl) hp'
  · have hu : s.tab.InUse q := by
      rcases hq with hq | ⟨p, hl, hp⟩
      · exact hq.1
      · rw [Ptable.InUse, hS.embryo p q hl (attached_eq hp)]
        decide
    have hq' : m.Child q := by
      rcases hq with hq | ⟨p, hl, hp⟩
      · exact .inl ⟨hf.inUse q hq.1, fun he => hq.2 ((hf.embryo q hq.1).mpr he)⟩
      · exact .inr ⟨p, hlive p hl, hatt p q hp⟩
    refine ⟨.inl hq', ?_⟩
    obtain ⟨-, p, hp, hl⟩ := h.parent q hq' hne
    rcases hf.parent q hu with e | e
    · rw [hp] at e
      exact ⟨p, e, (hf.live p fun hgp => (hg p hgp).2 q hu e).mpr hl⟩
    · exact ⟨i, e.trans hi, hli⟩

/-- The thread `p` goes on to `k`. -/
theorem goto (h : ParentInv m) (hS : Sound s) (hf : Family gone m.tab s.tab)
    (hg : ∀ x, gone x → m.tab.initproc ≠ some x ∧
      ∀ q, s.tab.InUse q → (s.tab.proc q).parent ≠ some x)
    (hpc : s.pc = update m.pc p k)
    (hx : k = .exit ∨ k = .threadExit → m.tab.initproc ≠ some p)
    (hk : ∀ np j, k = .fork np j → ∃ j', m.pc p = .fork np j')
    (ha : ∀ q, k.attached = some q → (m.pc p).attached = some q) : Advance m a s := by
  have hself : s.pc p = k := by rw [hpc, update_self]
  have hother : ∀ r, r ≠ p → s.pc r = m.pc r := fun r e => by rw [hpc, update_of_ne e]
  refine of_family h hS hf hg (fun r hr => ?_) (fun r np j hr => ?_) (fun r q hr => ?_) <;>
    by_cases e : r = p
  · subst e
    rw [hself] at hr
    exact hx hr
  · rw [hother r e] at hr
    exact h.exits r hr
  · subst e
    exact hk np j (hself ▸ hr)
  · rw [hother r e] at hr
    exact ⟨j, hr⟩
  · subst e
    rw [hself] at hr
    exact ha q hr
  · rwa [hother r e] at hr

/-- No thread goes on. -/
theorem still (h : ParentInv m) (hS : Sound s) (hf : Calm m.tab s.tab) (hpc : s.pc = m.pc) :
    Advance m a s := by
  refine of_family h hS hf nofun (fun p hp => ?_) (fun p np j hp => ?_) fun p q hp => ?_
  · rw [hpc] at hp
    exact h.exits p hp
  · rw [hpc] at hp
    exact ⟨j, hp⟩
  · rwa [hpc] at hp

/-- The thread `p` goes on in, or returns to, a call that does not end threads or make them. -/
theorem plain (h : ParentInv m) (hS : Sound s) (hf : Calm m.tab s.tab)
    (hpc : s.pc = update m.pc p k) (hx : k ≠ .exit ∧ k ≠ .threadExit)
    (hk : k.new = none) : Advance m a s := by
  refine goto h hS hf nofun hpc (fun e => ?_) (fun np j e => ?_) fun q e => ?_
  · exact absurd e (not_or.mpr hx)
  · rw [e] at hk
    cases hk
  · rw [attached_eq e] at hk
    cases hk

/-- The thread `p` goes on with the slot that it has allocated. -/
theorem goOn (h : ParentInv m) (hS : Sound s) (hf : Calm m.tab s.tab)
    (hpc : s.pc = update m.pc p k) (hn : k.new = some np)
    (hk : ∀ j, k = .fork np j → ∃ j', m.pc p = .fork np j')
    (ha : ∀ q, k.attached = some q → (m.pc p).attached = some q) : Advance m a s := by
  refine goto h hS hf nofun hpc ?_ (fun np' j e => ?_) ha
  · rintro (rfl | rfl) <;> cases hn
  · rw [e] at hn
    cases hn
    exact hk j e

/-- The slot `np` that the thread `p` works on changes. -/
theorem born (h : ParentInv m) (hS : Sound s) (hi : s.tab.initproc = m.tab.initproc)
    (hnp : ¬ Live (m.tab.proc np).state) (ho : ∀ q, q ≠ np → s.tab.proc q = m.tab.proc q)
    (hu : s.pc np = .user) (hpc : ∀ r, r ≠ p → r ≠ np → s.pc r = m.pc r)
    (hp : Live (s.tab.proc p).state)
    (hk : (s.pc p).new = some np ∨ s.pc p = .user ∧ (s.tab.proc np).state ≠ .EMBRYO)
    (htid : ∀ j, s.pc p = .fork np j → (s.tab.proc np).tid = 0)
    (hc : s.Child np → (m.Child np ∨ m.attaches a = some np) ∧
      ∃ x, (s.tab.proc np).parent = some x ∧ Live (s.tab.proc x).state) : Advance m a s := by
  have hlive : ∀ q, Live (m.tab.proc q).state → q ≠ np ∧ Live (s.tab.proc q).state := by
    intro q hq
    have e : q ≠ np := fun e => hnp (e ▸ hq)
    exact ⟨e, ho q e ▸ hq⟩
  -- a thread other than `p` that has a new slot is where it was, with a slot other than `np`
  have hnew : ∀ r q, Live (s.tab.proc r).state → (s.pc r).new = some q → r ≠ p →
      Live (m.tab.proc r).state ∧ s.pc r = m.pc r ∧ q ≠ np := by
    intro r q hr hq e
    have e' : r ≠ np := by
      rintro rfl
      rw [hu] at hq
      cases hq
    refine ⟨ho r e' ▸ hr, hpc r e e', ?_⟩
    rintro rfl
    rcases hk with hk | ⟨-, hk⟩
    · exact e (hS.creator r p q hr hp hq hk)
    · exact hk (hS.embryo r q hr hq)
  refine ⟨hi, fun i hi => ?_, fun r hr => ?_, fun r q j hl hr => ?_, fun q hq hne => ?_⟩
  · obtain ⟨j, hj, hl⟩ := h.init
    rw [hi] at hj
    cases hj
    exact (hlive i hl).2
  · have e : r ≠ p := by
      rintro rfl
      rcases hk with hk | ⟨hk, -⟩
      · rcases hr with hr | hr <;> rw [hr] at hk <;> cases hk
      · rw [hk] at hr
        rcases hr with hr | hr <;> cases hr
    have e' : r ≠ np := by
      rintro rfl
      rw [hu] at hr
      rcases hr with hr | hr <;> cases hr
    rw [hpc r e e'] at hr
    exact h.exits r hr
  · by_cases e : r = p
    · subst e
      rcases hk with hk | ⟨hk, -⟩
      · rw [hr] at hk
        cases hk
        exact htid j hr
      · rw [hk] at hr
        cases hr
    · obtain ⟨hl, e', hq⟩ := hnew r q hl (by rw [hr]; rfl) e
      rw [ho q hq]
      exact h.tid r q j hl (e' ▸ hr)
  · by_cases e : q = np
    · subst e
      exact hc hq
    · have hq' : m.Child q := by
        rcases hq with hq | ⟨r, hl, hr⟩
        · rw [Grown, ho q e] at hq
          exact .inl hq
        · have e' : r ≠ p := by
            rintro rfl
            rcases hk with hk | ⟨hk, -⟩
            · rw [attached_eq hr] at hk
              cases hk
              exact e rfl
            · rw [hk] at hr
              cases hr
          obtain ⟨hl, e', -⟩ := hnew r q hl (attached_eq hr) e'
          exact .inr ⟨r, hl, e' ▸ hr⟩
      obtain ⟨-, x, hx, hl⟩ := h.parent q hq' hne
      rw [ho q e]
      exact ⟨.inl hq', x, hx, (hlive x hl).2⟩

/-- A slot is allocated for the thread `p`, and has no parent yet. -/
theorem alloc (h : ParentInv m) (hS : Sound m.toState) (hc : m.cpu c = some p)
    (ha : allocSlot m.tab = some (np, t)) (hk : k.new = some np) (hn : k.attached = none) :
    Advance m a (((m.setTab t).goto np .user).goto p k) := by
  obtain ⟨hun, hem, hal⟩ := allocSlot_some ha
  have hS' : Sound (((m.setTab t).goto np .user).goto p k) := hS.alloc hc ha hk
  have hne : np ≠ p := by
    rintro rfl
    rw [hS.running c np hc] at hun
    cases hun
  have hpc : (((m.setTab t).goto np .user).goto p k).pc p = k := update_self ..
  have hi : t.initproc = m.tab.initproc := by rw [hal.globals]
  refine born h hS' hi (by rw [hun]; decide) hal.others
    ?_ (fun r hr hr' => ?_) (hS'.live hc) (.inl (by rw [hpc, hk])) (fun _ _ => hal.tid) ?_
  · change update (update m.pc np _) p _ np = _
    rw [update_of_ne hne, update_self]
  · change update (update m.pc np _) p _ r = _
    rw [update_of_ne hr, update_of_ne hr']
  · rintro (hg | ⟨r, hl, hr⟩)
    · exact absurd hem hg.2
    · have e : r = p := hS'.creator r p np hl (hS'.live hc) (attached_eq hr) (by rw [hpc, hk])
      rw [e, hpc, hn] at hr
      cases hr

/-- The thread `p` goes on with its new slot, which changes but is still under construction. -/
theorem attach (h : ParentInv m) (hS : Sound m.toState) (hS' : Sound ((m.setTab u).goto p k))
    (hc : m.cpu c = some p) (hp : (m.pc p).new = some np) (hi : u.initproc = m.tab.initproc)
    (ho : ∀ q, q ≠ np → u.proc q = m.tab.proc q)
    (hk : k.new = some np) (htid : ∀ j, k = .fork np j → (u.proc np).tid = 0)
    (ha : m.attaches a = some np)
    (hx : ∃ x, (u.proc np).parent = some x ∧ Live (u.proc x).state) :
    Advance m a ((m.setTab u).goto p k) := by
  obtain ⟨hem, hne⟩ := hS.new_ne hc hp
  have hpc : ((m.setTab u).goto p k).pc p = k := update_self ..
  refine born h hS' hi (by rw [hem]; decide) ho ?_
    (fun r e _ => update_of_ne e ..) (hS'.live hc) (.inl (by rw [hpc, hk]))
    (fun j e => htid j (hpc ▸ e)) fun _ => ⟨.inr ha, hx⟩
  change update m.pc p k np = _
  rw [update_of_ne hne]
  exact hS.fresh np hem

/-- The new slot of the thread `p` becomes runnable. -/
theorem grow (h : ParentInv m) (hS : Sound m.toState)
    (hS' : Sound ((m.setTab (m.tab.setState np .RUNNABLE)).goto p .user))
    (hc : m.cpu c = some p) (hp : (m.pc p).attached = some np) :
    Advance m a ((m.setTab (m.tab.setState np .RUNNABLE)).goto p .user) := by
  obtain ⟨hem, hne⟩ := hS.new_ne hc (attached_eq hp)
  have hpc : ((m.setTab (m.tab.setState np .RUNNABLE)).goto p .user).pc p = .user :=
    update_self ..
  have hstate : ((m.tab.setState np .RUNNABLE).proc np).state = .RUNNABLE := by
    simp [Ptable.setState]
  have hother : ∀ q, q ≠ np → (m.tab.setState np .RUNNABLE).proc q = m.tab.proc q :=
    fun q e => Ptable.setProc_proc_of_ne e
  refine born h hS' rfl (by rw [hem]; decide) hother ?_ (fun r e _ => update_of_ne e ..)
    (hS'.live hc) (.inr ⟨hpc, ?_⟩) (fun j e => ?_) fun _ => ?_
  · change update m.pc p .user np = _
    rw [update_of_ne hne]
    exact hS.fresh np hem
  · change ((m.tab.setState np .RUNNABLE).proc np).state ≠ _
    rw [hstate]
    decide
  · rw [hpc] at e
    cases e
  · have hchild : m.Child np := .inr ⟨p, hS.live hc, hp⟩
    have hi : m.tab.initproc ≠ some np := by
      intro e
      obtain ⟨i, hi, hl⟩ := h.init
      rw [e] at hi
      cases hi
      rw [hem] at hl
      exact absurd hl (by decide)
    obtain ⟨-, x, hx, hl⟩ := h.parent np hchild hi
    refine ⟨.inl hchild, x, setState_parent.trans hx, ?_⟩
    change Live ((m.tab.setState np .RUNNABLE).proc x).state
    rw [hother x]
    · exact hl
    · rintro rfl
      rw [hem] at hl
      exact absurd hl (by decide)

end Advance

/-- The main thread takes over from `exec`. -/
theorem detach_parent (ht : (t.proc p).tid ≠ 0) (hx : (t.proc p).main = some x) :
    ((detach t p).proc p).parent = (t.proc x).parent := by
  simp [detach, ht, hx]

theorem freevm_initproc (h : freevm t g = some u) : u.initproc = t.initproc := by
  cases g with
  | none => cases h
  | some g => cases h; rfl

theorem execLoad_initproc {e : ExecEnd} {r : Int} (h : execLoad t p e = some (r, u)) :
    u.initproc = t.initproc := by
  cases e with
  | early | bad => cases h; rfl
  | ok sz =>
    obtain ⟨w, hw, ⟨⟩⟩ := Option.map_eq_some_iff.mp h
    exact (freevm_initproc hw).trans rfl

theorem killFrom_cases {m : State n} {pid : Int} {i : Nat} {P : State n → Prop}
    (hq : ∀ q, P ((m.setTab (reparent m.tab q)).goto p (.killThread pid q)))
    (he : P (m.goto p .exec)) : P (m.killFrom p pid i) := by
  unfold State.killFrom
  split
  · exact hq _
  · exact he

namespace Advance

/-- The sub-thread `p` takes the place of its main thread. -/
theorem detach (h : ParentInv m) (hS : Sound m.toState) (hc : m.cpu c = some p)
    (htid : (m.tab.proc p).tid ≠ 0) (hx : (m.tab.proc p).main = some x)
    (hi : m.tab.initproc ≠ some x) (hg : Grown m.tab x) :
    Advance m a ((m.setTab (detach m.tab p)).goto p (.killThreads pid)) := by
  have hlive : ∀ q, Live ((Thread.detach m.tab p).proc q).state ↔ Live (m.tab.proc q).state :=
    fun q => by rw [detach_state]
  have hpc : ∀ r, r ≠ p → update m.pc p (.killThreads pid) r = m.pc r :=
    fun r e => update_of_ne e ..
  have hself : update m.pc p (.killThreads pid) p = .killThreads pid :=
    update_self ..
  refine ⟨congrArg Globals.initproc (detach_globals (t := m.tab)), fun i hi => ?_, fun r hr => ?_,
    fun r np j hl hr => ?_, fun q hq hne => ?_⟩
  · obtain ⟨j, hj, hl⟩ := h.init
    rw [hi] at hj
    cases hj
    exact (hlive i).mpr hl
  · change update m.pc p _ r = _ ∨ update m.pc p _ r = _ at hr
    by_cases e : r = p
    · rw [e, hself] at hr
      rcases hr with hr | hr <;> cases hr
    · rw [hpc r e] at hr
      exact h.exits r hr
  · change update m.pc p _ r = _ at hr
    have e : r ≠ p := by
      rintro rfl
      rw [hself] at hr
      cases hr
    rw [hpc r e] at hr
    replace hl : Live (m.tab.proc r).state := (hlive r).mp hl
    have e' : np ≠ p := by
      rintro rfl
      have he := hS.embryo r np hl (congrArg Point.new hr)
      rw [hS.running c np hc] at he
      cases he
    change ((Thread.detach m.tab p).proc np).tid = 0
    rw [detach_other e']
    exact h.tid r np j hl hr
  · have hq' : m.Child q := by
      rcases hq with hq | ⟨r, hl, hr⟩
      · change Grown (Thread.detach m.tab p) q at hq
        rw [Grown, detach_state] at hq
        exact .inl hq
      · change (update m.pc p _ r).attached = _ at hr
        have e : r ≠ p := by
          rintro rfl
          rw [hself] at hr
          cases hr
        rw [hpc r e] at hr
        exact .inr ⟨r, (hlive r).mp hl, hr⟩
    refine ⟨.inl hq', ?_⟩
    by_cases e : q = p
    · obtain ⟨-, y, hy, hl⟩ := h.parent x (.inl hg) hi
      rw [e]
      exact ⟨y, (detach_parent htid hx).trans hy, (hlive y).mpr hl⟩
    · obtain ⟨-, y, hy, hl⟩ := h.parent q hq' hne
      exact ⟨y, (congrArg Proc.parent (detach_other e)).trans hy, (hlive y).mpr hl⟩

/-- A thread on a CPU ends after its children have been passed on or were none. -/
theorem zombie (h : ParentInv m) (hS : Sound m.toState)
    (hS' : Sound (m.sched c (u.setState p .ZOMBIE)))
    (hc : m.cpu c = some p) (hf : Calm m.tab u) (hi : m.tab.initproc ≠ some p)
    (hp : ∀ q, u.InUse q → (u.proc q).parent ≠ some p) :
    Advance m a (m.sched c (u.setState p .ZOMBIE)) := by
  have hl : Live (u.proc p).state := (hf.live p id).mpr (hS.live hc)
  have hz : Family (· = p) m.tab (u.setState p .ZOMBIE) := hf.calm_trans (.setZombie hl)
  refine of_family h hS' hz ?_ h.exits (fun _ _ j e => ⟨j, e⟩) fun _ _ e => e
  rintro x rfl
  refine ⟨hi, fun q hq => ?_⟩
  change ((u.setState x .ZOMBIE).proc q).parent ≠ _
  rw [setState_parent]
  refine hp q ((Family.setZombie hl).inUse q hq)

/-- `kill_threads_except` takes the next thread, after it has cleared `x` or at its start. -/
theorem killFrom {pid : Int} {i : Nat} (h : ParentInv m)
    (hS : Sound ((m.setTab u).killFrom p pid i)) (hf : Family gone m.tab u)
    (hg : ∀ x, gone x → m.tab.initproc ≠ some x ∧
      ∀ q, u.InUse q → (u.proc q).parent ≠ some x) :
    Advance m a ((m.setTab u).killFrom p pid i) := by
  revert hS
  refine killFrom_cases (P := fun s => Sound s → Advance m a s) (fun r hS => ?_) fun hS => ?_
  · refine goto h hS (hf.trans_calm .reparent) (fun x hx => ?_) rfl nofun nofun nofun
    refine ⟨(hg x hx).1, fun q hq => ?_⟩
    change ((reparent u r).proc q).parent ≠ _
    rw [reparent_parent, hf.initproc]
    split
    · exact (hg x hx).1
    · exact (hg x hx).2 q (Family.reparent.inUse q hq)
  · exact goto h hS hf hg rfl nofun nofun nofun

end Advance

theorem ParentInv.step (h : ParentInv m) (hS : Sound m.toState) (hg : KeepsParents m a)
    (hs : Step m.toState a s) : Advance m a s := by
  have hS' : Sound s := hS.step hg.1 hs
  obtain ⟨hghost, hleaves, hadopts, hdetaches⟩ := hg
  cases hs with
  | dispatch hc hp => exact .still h hS' (.setLive (.inr (.inl hp)) (.inr (.inr rfl)) rfl) rfl
  | yield hc => exact .still h hS' (.setLive (hS.live hc) (.inr (.inl rfl)) rfl) rfl
  | wakeup => exact .still h hS' .wakeup1 rfl
  | kill => exact .still h hS' (.of_quiet .kill fun _ => .inl kill_parent) rfl
  | call | ret | cleariFails | waitFails | joinFails =>
    exact .plain h hS' .refl rfl (by decide) rfl
  | hold | noSlot => exact .still h hS' .refl rfl
  | sleep hc => exact .still h hS' (.setLive (hS.live hc) (.inl rfl) rfl) rfl
  | fork hc _ ha | threadCreate hc _ ha => exact .alloc h hS hc ha rfl rfl
  | forkKalloc hc hp =>
    exact .goOn h hS' .refl rfl rfl (fun _ _ => ⟨_, hp⟩) nofun
  | createKalloc hc hp => exact .goOn h hS' .refl rfl rfl nofun nofun
  | decNextpid hc hp => exact .goOn h hS' (.of_alike rfl fun _ => .refl) rfl rfl nofun nofun
  | allocuvm hc hp =>
    refine .goOn h hS' (.of_alike rfl growMain_alike) rfl rfl nofun fun q e => ?_
    rw [hp]
    exact e
  | drop hc hp =>
    exact .plain h hS' (.setUnused (hS.new_ne hc hp).1) rfl (by decide) rfl
  | allocuvmFails hc hp =>
    have he := (hS.new_ne hc (by rw [hp]; rfl)).1
    exact .plain h hS' (.dropped he rfl growMain_fails.1 growMain_fails.2) rfl (by decide) rfl
  | @copyuvm c p np hc hp =>
    obtain ⟨g, hnew⟩ := forkCopied_new p np m.tab
    have htid : (m.tab.proc np).tid = 0 := h.tid p np _ (hS.live hc) hp
    refine .attach h hS hS' hc (by rw [hp]; rfl) rfl (fun q => forkCopied_other) rfl
      (fun _ _ => ?_) ?_ ⟨p, ?_, hS'.live hc⟩
    · rw [hnew]
      exact htid
    · simp [State.attaches, hc, hp]
    · rw [hnew]
      simp [htid]
  | @setIds c p np main hc hp =>
    obtain ⟨he, hne⟩ := hS.new_ne hc (by rw [hp]; rfl)
    have hl : Live (m.tab.proc main).state := hadopts main (by simp [State.adopts, hc, hp])
    refine .attach h hS hS' hc (by rw [hp]; rfl) rfl (fun q => setIds_other) rfl nofun ?_
      ⟨main, ?_, ?_⟩
    · simp [State.attaches, hc, hp]
    · rw [setIds_new]
    · rw [setIds_other]
      · exact hl
      · rintro rfl
        rw [he] at hl
        exact absurd hl (by decide)
  | @runnable c p np main hc hp =>
    have hn : (m.pc p).attached = some np := by
      rcases hp with hp | hp <;> rw [hp] <;> rfl
    exact .grow h hS hS' hc hn
  | @exitCleared c p t hc _ hi ht =>
    have hk := Family.clearSubthreads (t := m.tab) (p := p)
    rw [ht] at hk
    exact .goto h hS' hk nofun rfl (fun _ => hi) nofun nofun
  | @exitSleeps c p t k hc _ ht =>
    have hk := Family.clearSubthreads (t := m.tab) (p := p)
    rw [ht] at hk
    have hl : Live (t.proc p).state := (hk.live p id).mpr (hS.live hc)
    exact .plain h hS' (hk.trans_calm (.setLive hl (.inl rfl) rfl)) rfl (by decide) rfl
  | exitThread hc _ hi => exact .goto h hS' .refl nofun rfl (fun _ => hi) nofun nofun
  | @exitEnd c p hc hp =>
    obtain ⟨u, hu, e, hpar⟩ := exitRest_family (t := m.tab) (p := p)
    have hi : m.tab.initproc ≠ some p := h.exits p (.inl hp)
    rw [e] at hS' ⊢
    exact .zombie h hS hS' hc hu hi fun q _ => hpar hi q
  | threadExit hc _ hi =>
    exact .goto h hS' (.of_alike rfl (alike_setProc ⟨rfl, rfl, rfl, rfl, rfl, rfl⟩)) nofun rfl
      (fun _ => hi) nofun nofun
  | @threadExitEnd c p hc hp =>
    obtain ⟨u, hu, e, hpar⟩ := threadExit_family (t := m.tab) (p := p)
    obtain ⟨hi, hq⟩ := hleaves p hc
    rw [e] at hS' ⊢
    refine .zombie h hS hS' hc hu hi fun q hu' => ?_
    rw [hpar]
    exact hq q (hu.inUse q hu')
  | waitReaps hc _ hq ht =>
    exact .plain h hS' (.reap hq ht) rfl (by decide) rfl
  | waitSleeps hc | joinSleeps hc =>
    exact .plain h hS' (.setLive (hS.live hc) (.inl rfl) rfl) rfl ⟨nofun, nofun⟩ rfl
  | joinReaps hc _ hq =>
    exact .plain h hS' (Family.threadClear.clear_zombie hq) rfl (by decide) rfl
  | @exec c p hc hp =>
    by_cases htid : (m.tab.proc p).tid = 0
    · have e : detach m.tab p = m.tab := by simp [detach, htid]
      refine .plain h hS' ?_ rfl ⟨nofun, nofun⟩ rfl
      change Calm m.tab (detach m.tab p)
      rw [e]
      exact .refl
    · obtain ⟨x, hx, hi, hgx⟩ := hdetaches p (by simp [State.detaches, hc, htid])
      exact .detach h hS hc htid hx hi hgx
  | killFirst hc hp => exact .killFrom h hS' .refl nofun
  | @killThread c p pid q hc hp hh =>
    refine .killFrom h hS' .threadClear ?_
    rintro x rfl
    obtain ⟨hi, hq⟩ := hleaves x (clears_killThreads hc hp)
    refine ⟨hi, fun r hr => ?_⟩
    have e : r ≠ x := by
      rintro rfl
      exact hr (by simp [threadClear])
    rw [threadClear, Ptable.setProc_proc_of_ne e]
    exact hq r (Family.threadClear.inUse r hr)
  | execEnd hc hp hh ht =>
    exact .plain h hS' (.of_alike (execLoad_initproc ht) (execLoad_alike ht)) rfl (by decide) rfl

theorem ParentInv.init_traced (hm : (traced n).init m) : ParentInv m := by
  obtain ⟨ht, -, hp, -⟩ := hm
  obtain ⟨hi, -, ⟨hs, -⟩, hz⟩ := userinit_pinit ht
  refine ⟨⟨0, hi, .inr (.inl hs)⟩, fun p h => ?_, fun p np k _ h => ?_, fun q hq hne => ?_⟩
  · rw [hp] at h
    rcases h with h | h <;> cases h
  · rw [hp] at h
    cases h
  · rcases hq with hq | ⟨p, -, h⟩
    · have e : q ≠ 0 := by
        rintro rfl
        exact hne hi
      rw [Grown, hz q e] at hq
      exact absurd rfl hq.1
    · rw [hp] at h
      cases h

end

theorem parentInv : (traced n).Invariant KeepsParents fun m => Sound m.toState ∧ ParentInv m where
  init hm := ⟨.init hm, .init_traced hm⟩
  step := by
    rintro m a m' ⟨hS, h⟩ hg hn
    obtain ⟨s, hs, rfl⟩ := Option.map_eq_some_iff.mp hn
    have hst : Step m.toState a s := .of_next hs
    exact ⟨hS.step hg.1 hst, h.advance (h.step hS hg hst)⟩

/-- While no slot that is a parent is taken away, the parent of a process or thread has been in use
since it became its parent. -/
theorem parent_kept {m : Traced n} (hm : (traced n).ReachedVia KeepsParents m)
    (hq : Grown m.tab q) (hne : m.tab.initproc ≠ some q) :
    m.kept q = true ∧ ∃ p, (m.tab.proc q).parent = some p ∧ m.tab.InUse p := by
  obtain ⟨-, h⟩ := parentInv.of_reached hm
  obtain ⟨hk, p, hp, hl⟩ := h.parent q (.inl hq) hne
  exact ⟨hk, p, hp, inUse_of_live hl⟩

def Traced.boot (n : Nat) : Traced n := ⟨Interleave.boot n, fun _ => false⟩

/-- A child of init with a thread makes a child of its own and exits: its child is passed to
init. -/
theorem parent_kept_orphan : ∃ m : Traced 2, (m.tab.proc 1).state = .ZOMBIE ∧
    (m.tab.proc 2).state = .RUNNABLE ∧ (m.tab.proc 2).parent = some 0 ∧ m.kept 2 = true := by
  obtain ⟨m, hm, hp⟩ := LTS.exists_reachedVia_of_run (M := traced 2) (C := KeepsParents)
    (.flatten [[.dispatch 0 0], forkSteps 0, [.dispatch 1 1], forkSteps 1, threadCreateSteps 1,
      [.exit 1, .yield 0, .dispatch 0 3, .exit 0, .exitEnd 0, .dispatch 0 1, .exit 0, .exitEnd 0]])
    (fun m => (m.tab.proc 1).state = .ZOMBIE ∧ (m.tab.proc 2).state = .RUNNABLE ∧
      (m.tab.proc 2).parent = some 0 ∧ m.tab.initproc ≠ some 2) (s := .boot 2) (init_boot 2)
      (by decide +kernel) (by decide +kernel)
  simp only [decide_eq_true_eq] at hp
  obtain ⟨h1, h2, h0, hi⟩ := hp
  refine ⟨m, h1, h2, h0, (parent_kept hm ?_ hi).1⟩
  rw [Grown, h2]
  decide

/-- A thread of a child of init makes a process, of which it is the parent, and ends; when the main
thread has joined it, the parent of the process is a free slot. -/
theorem thread_join_leaves_child : ∃ m : Traced 2, (traced 2).Reached m ∧ Grown m.tab 3 ∧
    m.tab.initproc ≠ some 3 ∧ (m.tab.proc 3).parent = some 2 ∧ ¬ m.tab.InUse 2 ∧
    m.kept 3 = false := by
  obtain ⟨m, hm, hp⟩ := LTS.exists_reached_of_run (M := traced 2)
    (.flatten [[.dispatch 0 0], forkSteps 0, [.yield 0, .dispatch 0 1], threadCreateSteps 0,
      [.dispatch 1 2], forkSteps 1, [.threadExit 1 0, .threadExitEnd 1, .threadJoin 0 1]])
    (fun m => (m.tab.proc 3).state = .RUNNABLE ∧ m.tab.initproc ≠ some 3 ∧
      (m.tab.proc 3).parent = some 2 ∧ ¬ m.tab.InUse 2 ∧ m.kept 3 = false)
    (s := .boot 2) (init_boot 2) (by decide +kernel)
  simp only [decide_eq_true_eq] at hp
  obtain ⟨h3, hrest⟩ := hp
  refine ⟨m, hm, ?_, hrest⟩
  rw [Grown, h3]
  decide

end Xv6.Interleave
