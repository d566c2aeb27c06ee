import Xv6.Thread.Frame

/-! # Page directories in the table

A page directory is shared by the threads of a process and freed by `wait` and `exec`. The
invariant says that only slots of one pid share a page directory, that a thread's main thread
stays in the table while the thread does, and that a process has one main thread. Each operation
keeps it, `wait`, `thread_join` and `exec` under conditions on the slots they free. -/

namespace Xv6.Thread

variable {t u : Ptable} {p q : Slot} {v : Proc}

/-- The page directory that the slot `p` holds. -/
def Ptable.holds (t : Ptable) (p : Slot) : Option Pgdir :=
  if t.InUse p then (t.proc p).pgdir else none

theorem holds_eq_some : t.holds p = some g ↔ t.InUse p ∧ (t.proc p).pgdir = some g := by
  simp [Ptable.holds]

structure PgdirInv (t : Ptable) : Prop where
  safe : Ownership.Safe t.vm t.holds
  shared : ∀ p q g, t.holds p = some g → t.holds q = some g → (t.proc p).pid = (t.proc q).pid
  main : ∀ p m, t.InUse p → (t.proc p).main = some m →
    t.InUse m ∧ (t.proc m).main = none ∧ (t.proc m).pid = (t.proc p).pid
  tid : ∀ p, t.InUse p → ((t.proc p).tid = 0 ↔ (t.proc p).main = none)
  leader : ∀ p q, t.InUse p → t.InUse q → (t.proc p).main = none → (t.proc q).main = none →
    (t.proc p).pid = (t.proc q).pid → p = q
  pid_lt : ∀ p, t.InUse p → (t.proc p).pid < t.nextpid
  nexttid : 0 < t.nexttid

/-! ## Slots that are left and slots that are taken -/

/-- From `t` to `u` slots may become free. A slot that stays keeps its pid and its page directory,
and its main thread stays; it may become a main thread itself when it is alone. -/
structure Shrinks (t u : Ptable) : Prop where
  vm : u.vm = t.vm
  nextpid : t.nextpid ≤ u.nextpid
  nexttid : t.nexttid ≤ u.nexttid
  inUse : ∀ q, u.InUse q → t.InUse q
  pid : ∀ q, u.InUse q → (u.proc q).pid = (t.proc q).pid
  pgdir : ∀ q, u.InUse q → (u.proc q).pgdir = (t.proc q).pgdir
  thread : ∀ q, u.InUse q →
    (u.proc q).tid = (t.proc q).tid ∧ (u.proc q).main = (t.proc q).main ∨
      (u.proc q).tid = 0 ∧ (u.proc q).main = none ∧ u.Alone q
  main : ∀ q m, u.InUse q → (u.proc q).main = some m → t.InUse m → u.InUse m

theorem Shrinks.holds (h : Shrinks t u) (hg : u.holds q = some g) : t.holds q = some g := by
  obtain ⟨hq, hg⟩ := holds_eq_some.mp hg
  exact holds_eq_some.mpr ⟨h.inUse q hq, h.pgdir q hq ▸ hg⟩

namespace PgdirInv

theorem shrinks (h : PgdirInv t) (hs : Shrinks t u) : PgdirInv u where
  safe := hs.vm ▸ h.safe.mono fun q g hg => ⟨q, hs.holds hg⟩
  shared p q g hp hq := by
    rw [hs.pid p (holds_eq_some.mp hp).1, hs.pid q (holds_eq_some.mp hq).1]
    exact h.shared p q g (hs.holds hp) (hs.holds hq)
  main p m hp hm := by
    rcases hs.thread p hp with ⟨-, e⟩ | ⟨-, e, -⟩
    · obtain ⟨hmt, hmain, hpid⟩ := h.main p m (hs.inUse p hp) (e ▸ hm)
      have hmu := hs.main p m hp hm hmt
      rw [hs.pid m hmu, hs.pid p hp]
      refine ⟨hmu, ?_, hpid⟩
      rcases hs.thread m hmu with ⟨-, e'⟩ | ⟨-, e', -⟩
      · exact e'.trans hmain
      · exact e'
    · rw [e] at hm; cases hm
  tid p hp := by
    rcases hs.thread p hp with ⟨e, e'⟩ | ⟨e, e', -⟩
    · rw [e, e']; exact h.tid p (hs.inUse p hp)
    · simp [e, e']
  leader p q hp hq hmp hmq hpid := by
    rcases hs.thread p hp with ⟨-, ep⟩ | ⟨-, -, ep⟩
    · rcases hs.thread q hq with ⟨-, eq⟩ | ⟨-, -, eq⟩
      · rw [hs.pid p hp, hs.pid q hq] at hpid
        exact h.leader p q (hs.inUse p hp) (hs.inUse q hq) (ep ▸ hmp) (eq ▸ hmq) hpid
      · by_contra hne
        exact eq p hne hp hpid
    · by_contra hne
      exact ep q (Ne.symm hne) hq hpid.symm
  pid_lt p hp := by
    rw [hs.pid p hp]
    exact (h.pid_lt p (hs.inUse p hp)).trans_le hs.nextpid
  nexttid := h.nexttid.trans_le hs.nexttid

/-- A page directory that no slot holds any more is freed. -/
theorem freevm (h : PgdirInv t) (hlt : g < t.vm.next) (hg : g ∉ t.vm.freed)
    (hn : ∀ q, t.holds q ≠ some g) (hf : freevm t (some g) = some u) : PgdirInv u := by
  cases hf
  exact ⟨h.safe.free hlt hg hn, h.shared, h.main, h.tid, h.leader, h.pid_lt, h.nexttid⟩

end PgdirInv

namespace Effect

/-- The slots that are left keep the invariant if no thread loses its main thread. -/
theorem shrinks (h : Effect gone t u)
    (hm : ∀ q m, t.InUse q → ¬ gone q → (t.proc q).main = some m → ¬ gone m) : Shrinks t u where
  vm := congrArg Globals.vm h.globals
  nextpid := (congrArg Globals.nextpid h.globals).ge
  nexttid := (congrArg Globals.nexttid h.globals).ge
  inUse q hq := (h.inUse_iff (h.not_gone hq)).mp hq
  pid q hq := (h.ids q (h.not_gone hq)).pid
  pgdir q hq := (h.ids q (h.not_gone hq)).pgdir
  thread q hq := .inl ⟨(h.ids q (h.not_gone hq)).tid, (h.ids q (h.not_gone hq)).main⟩
  main q m hq hqm hmt := by
    have hg := h.not_gone hq
    rw [(h.ids q hg).main] at hqm
    exact (h.inUse_iff (hm q m ((h.inUse_iff hg).mp hq) hg hqm)).mpr hmt

end Effect

/-! ## Operations -/

/-- `u` meets the invariant, and the processes that run in `t` still do. -/
structure Keeps (t u : Ptable) : Prop where
  inv : PgdirInv u
  running : ∀ q, (t.proc q).state = .RUNNING →
    (u.proc q).state = .RUNNING ∧ SameIds (t.proc q) (u.proc q)

namespace Keeps

theorem refl (h : PgdirInv t) : Keeps t t := ⟨h, fun _ hq => ⟨hq, .refl⟩⟩

theorem trans (h : Keeps t u) (h' : Keeps u t') : Keeps t t' := by
  refine ⟨h'.inv, fun q hq => ?_⟩
  obtain ⟨hr, hi⟩ := h.running q hq
  exact ⟨(h'.running q hr).1, hi.trans (h'.running q hr).2⟩

theorem quiet (h : PgdirInv t) (hu : Quiet t u) : Keeps t u :=
  ⟨h.shrinks (hu.shrinks fun _ _ _ _ _ => id),
    fun q hq => ⟨(hu.woken q id).running hq, hu.ids q id⟩⟩

/-- A zombie that is nobody's main thread is cleared. -/
theorem clear (h : PgdirInv t) (hz : (t.proc p).state = .ZOMBIE) (hv : v.state = .UNUSED)
    (hm : ∀ q, t.InUse q → q ≠ p → (t.proc q).main ≠ some p) : Keeps t (t.setProc p v) := by
  have he : Effect (· = p) t (t.setProc p v) := .clear .refl hv
  refine ⟨h.shrinks (he.shrinks fun q m hq hqp hqm hmp => hm q hq hqp (hmp ▸ hqm)), fun q hq => ?_⟩
  have hne : q ≠ p := by
    rintro rfl
    rw [hz] at hq; cases hq
  exact ⟨(he.woken q hne).running hq, he.ids q hne⟩

/-- A thread with a main thread is nobody's main thread. -/
theorem clear_sub (h : PgdirInv t) (hz : (t.proc p).state = .ZOMBIE) (hv : v.state = .UNUSED)
    (hm : (t.proc p).main ≠ none) : Keeps t (t.setProc p v) :=
  clear h hz hv fun q hq _ hqp => hm (h.main q p hq hqp).2.1

/-- Nor is a process without other threads. -/
theorem clear_alone (h : PgdirInv t) (hz : (t.proc p).state = .ZOMBIE) (hv : v.state = .UNUSED)
    (ha : t.Alone p) : Keeps t (t.setProc p v) :=
  clear h hz hv fun q hq hqp hm => ha q hqp hq (h.main q p hq hm).2.2.symm

/-- The running process `p` changes its state, or its other fields that the invariant does not
speak of, and leaves its CPU. -/
theorem setProc_self (h : PgdirInv t) (hp : t.InUse p) (hi : SameIds (t.proc p) v)
    (hv : v.state ≠ .UNUSED) : PgdirInv (t.setProc p v) := by
  have hids : ∀ q, SameIds (t.proc q) ((t.setProc p v).proc q) :=
    Ptable.forall_setProc (P := fun q v => SameIds (t.proc q) v) hi fun _ _ => .refl
  have huse : ∀ q, (t.setProc p v).InUse q ↔ t.InUse q :=
    Ptable.forall_setProc (P := fun q v => v.state ≠ .UNUSED ↔ t.InUse q) (iff_of_true hv hp)
      fun _ _ => Iff.rfl
  exact h.shrinks {
    vm := rfl
    nextpid := le_rfl
    nexttid := le_rfl
    inUse := fun q => (huse q).mp
    pid := fun q _ => (hids q).pid
    pgdir := fun q _ => (hids q).pgdir
    thread := fun q _ => .inl ⟨(hids q).tid, (hids q).main⟩
    main := fun _ m _ _ => (huse m).mpr }

end Keeps

/-- As `Keeps`, but `p` need not run on. -/
structure Leaves (p : Slot) (t u : Ptable) : Prop where
  inv : PgdirInv u
  running : ∀ q ≠ p, (t.proc q).state = .RUNNING → (u.proc q).state = .RUNNING

namespace Leaves

theorem of_keeps (h : Keeps t u) (h' : Leaves p u t') : Leaves p t t' :=
  ⟨h'.inv, fun q hq hr => h'.running q hq (h.running q hr).1⟩

theorem setProc (h : PgdirInv t) (hp : t.InUse p) (hi : SameIds (t.proc p) v)
    (hv : v.state ≠ .UNUSED) : Leaves p t (t.setProc p v) :=
  ⟨Keeps.setProc_self h hp hi hv, fun q hq hr => by rwa [Ptable.setProc_proc_of_ne hq]⟩

theorem sleep (h : PgdirInv t) (hp : t.InUse p) :
    Leaves p t (sleep t p chan k) := setProc h hp ⟨rfl, rfl, rfl, rfl⟩ nofun

theorem yield (h : PgdirInv t) (hp : t.InUse p) : Leaves p t (yield t p) :=
  setProc h hp ⟨rfl, rfl, rfl, rfl⟩ nofun

/-- The last steps of `exit` and of `thread_exit`. -/
theorem zombie (h : PgdirInv t) (hp : (t.proc p).state = .RUNNING) (hu : Quiet t u) :
    Leaves p t (u.setState p .ZOMBIE) := by
  have hk := Keeps.quiet h hu
  have hp' := inUse_of_running (hk.running p hp).1
  exact of_keeps hk (setProc hk.inv hp' ⟨rfl, rfl, rfl, rfl⟩ nofun)

theorem threadExit (h : PgdirInv t) (hp : (t.proc p).state = .RUNNING) :
    Leaves p t (threadExit t p retval) := by
  obtain ⟨u, hu, e⟩ := threadExit_eq t p retval
  exact e ▸ zombie h hp hu

theorem exitRest (h : PgdirInv t) (hp : (t.proc p).state = .RUNNING) :
    Leaves p t (exitRest t p) := by
  obtain ⟨u, hu, e⟩ := exitRest_eq t p
  exact e ▸ zombie h hp hu

end Leaves

/-- A main thread clears zombies of its own only. -/
theorem Keeps.clearOne (h : PgdirInv t) (hp : (t.proc p).state = .RUNNING)
    (hm : (t.proc p).main = none) : Keeps t (clearOne p (k, t) q).2 := by
  simp only [Thread.clearOne]
  split
  · exact .refl h
  · next hq =>
    push Not at hq
    split
    · next hz =>
      refine .clear_sub h hz rfl fun hqm => hq.2 ?_
      exact h.leader q p (by simp [Ptable.InUse, hz]) (inUse_of_running hp) hqm hm hq.1
    · have hk : Quiet t (t.setProc q { t.proc q with killed := true }) :=
        .setProc ⟨rfl, rfl, rfl, rfl⟩ (.inl rfl)
      exact .quiet h (hk.trans_quiet .wakeup1)

theorem Keeps.clearSubthreads (h : PgdirInv t) (hp : (t.proc p).state = .RUNNING)
    (hm : (t.proc p).main = none) : Keeps t (clearSubthreads t p).2 := by
  refine Table.foldl_inv (P := fun s : Nat × Ptable => Keeps t s.2) slots (fun s q hs => ?_)
    (.refl h)
  obtain ⟨hr, hi⟩ := hs.running p hp
  exact hs.trans (.clearOne hs.inv hr (hi.main.trans hm))

theorem Leaves.exit (h : PgdirInv t) (hp : (t.proc p).state = .RUNNING) :
    Leaves p t (exit t p) := by
  unfold Thread.exit
  split
  · next htid =>
    have hm := (h.tid p (inUse_of_running hp)).mp htid
    have hk := Keeps.clearSubthreads h hp hm
    have hr := (hk.running p hp).1
    split
    · next u hu =>
      rw [hu] at hk hr
      exact .of_keeps hk (.exitRest hk.inv hr)
    · next u hu =>
      rw [hu] at hk hr
      exact .of_keeps hk (.sleep hk.inv (inUse_of_running hr))
  · exact .exitRest h hp

/-! ## Creation -/

theorem Idle.shrinks (h : Idle t u) : Shrinks t u where
  vm := h.vm
  nextpid := h.nextpid
  nexttid := h.nexttid
  inUse q hq := h.inUse hq
  pid q hq := (h.ids q (h.inUse hq)).pid
  pgdir q hq := (h.ids q (h.inUse hq)).pgdir
  thread q hq := .inl ⟨(h.ids q (h.inUse hq)).tid, (h.ids q (h.inUse hq)).main⟩
  main q m _ _ hm := by
    rw [Ptable.InUse, h.state m hm]
    exact hm

theorem Keeps.idle (h : PgdirInv t) (hu : Idle t u) : Keeps t u := by
  refine ⟨h.shrinks hu.shrinks, fun q hq => ?_⟩
  have hq' := inUse_of_running hq
  exact ⟨(hu.state q hq').trans hq, hu.ids q hq'⟩

namespace Takes

variable {np : Slot}

theorem holds_cases (h : Takes np t u) (hg : u.holds q = some g) :
    q = np ∧ (u.proc np).pgdir = some g ∨ q ≠ np ∧ t.holds q = some g := by
  obtain ⟨hq, hg⟩ := holds_eq_some.mp hg
  rcases h.inUse_cases hq with rfl | ⟨hne, hq⟩
  · exact .inl ⟨rfl, hg⟩
  · exact .inr ⟨hne, holds_eq_some.mpr ⟨hq, (h.ids q hne).pgdir ▸ hg⟩⟩

/-- What has to be shown of the slot that is taken. -/
theorem inv (h : Takes np t u) (hi : PgdirInv t) (hsafe : Ownership.Safe u.vm u.holds)
    (hnextpid : t.nextpid ≤ u.nextpid) (hnexttid : 0 < u.nexttid)
    (hshared : ∀ q g, t.holds q = some g → (u.proc np).pgdir = some g →
      (u.proc np).pid = (t.proc q).pid)
    (hmain : ∀ m, (u.proc np).main = some m →
      t.InUse m ∧ (t.proc m).main = none ∧ (t.proc m).pid = (u.proc np).pid)
    (htid : (u.proc np).tid = 0 ↔ (u.proc np).main = none)
    (hlead : (u.proc np).main = none → ∀ q, t.InUse q → (u.proc np).pid ≠ (t.proc q).pid)
    (hpid : (u.proc np).pid < u.nextpid) : PgdirInv u where
  safe := hsafe
  shared p q g hp hq := by
    rcases h.holds_cases hp with ⟨rfl, ep⟩ | ⟨hp', ep⟩ <;>
      rcases h.holds_cases hq with ⟨rfl, eq⟩ | ⟨hq', eq⟩
    · rfl
    · exact (hshared q g eq ep).trans (h.ids q hq').pid.symm
    · exact (h.ids p hp').pid.trans (hshared p g ep eq).symm
    · rw [(h.ids p hp').pid, (h.ids q hq').pid]
      exact hi.shared p q g ep eq
  main p m hp hm := by
    have hold : t.InUse m ∧ (t.proc m).main = none ∧ (t.proc m).pid = (u.proc p).pid := by
      rcases h.inUse_cases hp with rfl | ⟨hne, hp⟩
      · exact hmain m hm
      · rw [(h.ids p hne).main] at hm
        rw [(h.ids p hne).pid]
        exact hi.main p m hp hm
    obtain ⟨hne, hmu⟩ := h.inUse hold.1
    rw [(h.ids m hne).main, (h.ids m hne).pid]
    exact ⟨hmu, hold.2⟩
  tid p hp := by
    rcases h.inUse_cases hp with rfl | ⟨hne, hp⟩
    · exact htid
    · rw [(h.ids p hne).tid, (h.ids p hne).main]
      exact hi.tid p hp
  leader p q hp hq hmp hmq hpq := by
    rcases h.inUse_cases hp with rfl | ⟨hp', hp⟩ <;> rcases h.inUse_cases hq with rfl | ⟨hq', hq⟩
    · rfl
    · exact (hlead hmp q hq (hpq.trans (h.ids q hq').pid)).elim
    · exact (hlead hmq p hp (hpq.symm.trans (h.ids p hp').pid)).elim
    · rw [(h.ids p hp').main] at hmp
      rw [(h.ids q hq').main] at hmq
      rw [(h.ids p hp').pid, (h.ids q hq').pid] at hpq
      exact hi.leader p q hp hq hmp hmq hpq
  pid_lt p hp := by
    rcases h.inUse_cases hp with rfl | ⟨hne, hp⟩
    · exact hpid
    · rw [(h.ids p hne).pid]
      exact (hi.pid_lt p hp).trans_le hnextpid
  nexttid := hnexttid

/-- A new process with a page directory of its own. -/
theorem process (h : Takes np t u) (hi : PgdirInv t) (hvm : u.vm = t.vm.alloc)
    (hnextpid : u.nextpid = t.nextpid + 1) (hnexttid : u.nexttid = t.nexttid)
    (hpid : (u.proc np).pid = t.nextpid) (htid : (u.proc np).tid = 0)
    (hmain : (u.proc np).main = none) (hpgdir : (u.proc np).pgdir = some t.vm.next) :
    Keeps t u := by
  refine ⟨h.inv hi ?_ (by omega) (hnexttid ▸ hi.nexttid) ?_ ?_ (by simp [htid, hmain]) ?_
    (by omega), fun q => h.running⟩
  · refine hvm ▸ hi.safe.alloc fun q g hg => ?_
    rcases h.holds_cases hg with ⟨-, e⟩ | ⟨-, e⟩
    · exact .inl (Option.some.inj (hpgdir ▸ e)).symm
    · exact .inr ⟨q, e⟩
  · intro q g hq e
    obtain rfl := Option.some.inj (hpgdir.symm.trans e)
    exact absurd (hi.safe.held_lt q _ hq) (Nat.lt_irrefl _)
  · intro m hm
    rw [hmain] at hm; cases hm
  · intro _ q hq e
    exact absurd (hi.pid_lt q hq) (by omega)

/-- A new thread of the main thread `m`. -/
theorem thread (h : Takes np t u) (hi : PgdirInv t) (hvm : u.vm = t.vm)
    (hnextpid : u.nextpid = t.nextpid) (hnexttid : u.nexttid = t.nexttid + 1) (hm : t.InUse m)
    (hmm : (t.proc m).main = none) (hpid : (u.proc np).pid = (t.proc m).pid)
    (htid : (u.proc np).tid = t.nexttid) (hmain : (u.proc np).main = some m)
    (hpgdir : (u.proc np).pgdir = (t.proc m).pgdir) : Keeps t u := by
  have htid0 := hi.nexttid
  have hlt := hi.pid_lt m hm
  refine ⟨h.inv hi ?_ hnextpid.ge (by omega) ?_ ?_ ?_ ?_ (by omega), fun q => h.running⟩
  · refine hvm ▸ hi.safe.mono fun q g hg => ?_
    rcases h.holds_cases hg with ⟨-, e⟩ | ⟨-, e⟩
    · exact ⟨m, holds_eq_some.mpr ⟨hm, hpgdir ▸ e⟩⟩
    · exact ⟨q, e⟩
  · intro q g hq e
    rw [hpid]
    exact hi.shared m q g (holds_eq_some.mpr ⟨hm, hpgdir ▸ e⟩) hq
  · intro m' hm'
    obtain rfl := Option.some.inj (hmain.symm.trans hm')
    exact ⟨hm, hmm, hpid.symm⟩
  · simp only [htid, hmain, reduceCtorEq, iff_false]
    omega
  · intro e
    rw [hmain] at e; cases e

end Takes

theorem Keeps.fork (h : PgdirInv t) : Keeps t (fork t p kalloc copyuvm).2 := by
  unfold Thread.fork
  split
  · next u hu => exact .idle h (allocproc_none hu)
  · next np u hu =>
    have ha := allocproc_some hu
    cases copyuvm with
    | false =>
      have hproc : ∀ q, q ≠ np → (u.setProc np { u.proc np with
          pgdir := none, state := .UNUSED }).proc q = t.proc q := fun q hq =>
        (Ptable.setProc_proc_of_ne hq).trans (ha.others q hq)
      refine .idle h (.of_ne ha.free (by simp) (fun q hq => ?_) (fun q hq => ?_) ?_ ?_ ?_)
      · exact hproc q hq ▸ .refl
      · exact congrArg _ (hproc q hq)
      all_goals simp [ha.globals]
    | true =>
      refine Takes.process ⟨ha.free, ?_, fun q hq => ?_, fun q hq => ?_⟩ h ?_ ?_ ?_ ?_ ?_ ?_ ?_
      · simp [Ptable.InUse, setupkvm]
      · simp [Ptable.setProc, setupkvm, hq, ha.others, SameIds.refl]
      · simp [Ptable.setProc, setupkvm, hq, ha.others]
      all_goals simp [setupkvm, ha.globals, ha.pid, ha.tid, ha.main]

/-- The main thread that `thread_create` attaches the new thread to. -/
theorem PgdirInv.main_getD (h : PgdirInv t) (hp : t.InUse p) :
    t.InUse ((t.proc p).main.getD p) ∧ (t.proc ((t.proc p).main.getD p)).main = none := by
  cases hm : (t.proc p).main with
  | none => exact ⟨hp, hm⟩
  | some m => exact ⟨(h.main p m hp hm).1, (h.main p m hp hm).2.1⟩

theorem Keeps.threadInit (h : PgdirInv t) (hm : t.InUse m) (hmm : (t.proc m).main = none)
    (ha : Allocated np t u) : Keeps t (threadInit u m np allocuvm).tab := by
  have hne : m ≠ np := fun e => ha.free (e ▸ hm)
  have hids : ∀ q, q ≠ np → SameIds (t.proc q) ((Thread.threadInit u m np allocuvm).tab.proc q) :=
    fun q hq => ha.others q hq ▸ (threadInit_other hq).1
  have hstate : ∀ q, q ≠ np →
      ((Thread.threadInit u m np allocuvm).tab.proc q).state = (t.proc q).state :=
    fun q hq => ha.others q hq ▸ (threadInit_other hq).2
  cases allocuvm with
  | false =>
    refine .idle h (.of_ne ha.free ?_ hids hstate ?_ ?_ ?_)
    · simp [Thread.threadInit, Ptable.setState]
    all_goals simp [threadInit_globals, ha.globals]
  | true =>
    obtain ⟨sz, e⟩ := threadInit_true (t := u) hne
    refine Takes.thread ⟨ha.free, ?_, hids, hstate⟩ h ?_ ?_ ?_ hm hmm ?_ ?_ ?_ ?_
    · simp [Ptable.InUse, e]
    all_goals simp [threadInit_globals, ha.globals, e, ha.others m hne]

theorem Keeps.threadCreate (h : PgdirInv t) (hp : t.InUse p) :
    Keeps t (threadCreate t p kalloc allocuvm).tab := by
  obtain ⟨hm, hmm⟩ := h.main_getD hp
  unfold Thread.threadCreate
  split
  · next u hu => exact .idle h (allocproc_none hu)
  · next np u hu => exact .threadInit h hm hmm (allocproc_some hu)

theorem PgdirInv.pinit : PgdirInv pinit := by
  have hfree : ∀ p, ¬ Thread.pinit.InUse p := fun p hp => hp rfl
  have hholds : ∀ p g, Thread.pinit.holds p ≠ some g := fun p g hg =>
    hfree p (holds_eq_some.mp hg).1
  exact ⟨⟨List.nodup_nil, nofun, fun p g hg => absurd hg (hholds p g), fun p g hg =>
    absurd hg (hholds p g)⟩, fun p _ g hg => absurd hg (hholds p g), fun p _ hp =>
    absurd hp (hfree p), fun p hp => absurd hp (hfree p), fun p _ hp => absurd hp (hfree p),
    fun p hp => absurd hp (hfree p), one_pos⟩

theorem PgdirInv.userinit (h : PgdirInv t) (hu : userinit t = some u) : PgdirInv u := by
  unfold Thread.userinit at hu
  split at hu
  · cases hu
  · next np t1 hnp =>
    have ha := allocproc_some hnp
    cases hu
    refine (Takes.process ⟨ha.free, ?_, fun q hq => ?_, fun q hq => ?_⟩ h ?_ ?_ ?_ ?_ ?_ ?_ ?_).inv
    · simp [Ptable.InUse]
    · simp [Ptable.setProc, hq, ha.others, SameIds.refl]
    · simp [Ptable.setProc, hq, ha.others]
    all_goals simp [ha.globals, ha.pid, ha.tid, ha.main]

/-! ## Reaping -/

/-- `wait` frees the page directory of a child without other threads. -/
theorem Keeps.reap (h : PgdirInv t) (hz : (t.proc p).state = .ZOMBIE) (ha : t.Alone p)
    (hr : reap t p = some u) : Keeps t u := by
  obtain ⟨g, hg, rfl⟩ := reap_eq_some hr
  have hp : t.holds p = some g := holds_eq_some.mpr ⟨by simp [Ptable.InUse, hz], hg⟩
  have hk := Keeps.clear_alone (v := { t.proc p with
    pid := 0, parent := none, killed := false, state := .UNUSED }) h hz rfl ha
  refine ⟨hk.inv.freevm (h.safe.held_lt p g hp) (h.safe.held p g hp) (fun q hq => ?_) rfl,
    hk.running⟩
  obtain ⟨hq, hqg⟩ := holds_eq_some.mp hq
  have hne : q ≠ p := by
    rintro rfl
    simp [Ptable.InUse] at hq
  rw [Ptable.InUse, Ptable.setProc_proc_of_ne hne] at hq
  rw [Ptable.setProc_proc_of_ne hne] at hqg
  exact ha q hne hq (h.shared q p g (holds_eq_some.mpr ⟨hq, hqg⟩) hp)

/-! ## `exec` -/

/-- A change of page directories only. -/
theorem PgdirInv.of_pgdir (h : PgdirInv t) (hpid : u.nextpid = t.nextpid)
    (htid : u.nexttid = t.nexttid) (hproc : ∀ q, { u.proc q with
      pgdir := (t.proc q).pgdir, sz := (t.proc q).sz } = t.proc q)
    (hsafe : Ownership.Safe u.vm u.holds)
    (hshared : ∀ p q g, u.holds p = some g → u.holds q = some g →
      (t.proc p).pid = (t.proc q).pid) : PgdirInv u := by
  have hstate : ∀ q, (u.proc q).state = (t.proc q).state := fun q => by rw [← hproc q]
  have hpids : ∀ q, (u.proc q).pid = (t.proc q).pid := fun q => by rw [← hproc q]
  have htids : ∀ q, (u.proc q).tid = (t.proc q).tid := fun q => by rw [← hproc q]
  have hmain : ∀ q, (u.proc q).main = (t.proc q).main := fun q => by rw [← hproc q]
  refine ⟨hsafe, ?_, ?_, ?_, ?_, ?_, htid ▸ h.nexttid⟩
  · simpa only [hpids] using hshared
  · simpa only [Ptable.InUse, hstate, hmain, hpids] using h.main
  · simpa only [Ptable.InUse, hstate, hmain, htids] using h.tid
  · simpa only [Ptable.InUse, hstate, hmain, hpids] using h.leader
  · simpa only [Ptable.InUse, hstate, hpids, hpid] using h.pid_lt

theorem PgdirInv.setupkvm (h : PgdirInv t) : PgdirInv (setupkvm t).2 :=
  h.of_pgdir rfl rfl (fun _ => rfl) (h.safe.alloc fun q _ hq => .inr ⟨q, hq⟩) h.shared

section SetPgdir
variable {sz : UInt32} {g : Pgdir}

/-- The table when `exec` has replaced the page directory of `p`. -/
abbrev replaced (t : Ptable) (p : Slot) (sz : UInt32) : Ptable :=
  (setupkvm t).2.setProc p { t.proc p with pgdir := some t.vm.next, sz := sz }

theorem holds_replaced (hg : (replaced t p sz).holds q = some g) :
    g = t.vm.next ∧ q = p ∨ q ≠ p ∧ t.holds q = some g := by
  by_cases hq : q = p
  · subst hq
    have := (holds_eq_some.mp hg).2
    simp only [Ptable.setProc_proc_self, Option.some.injEq] at this
    exact .inl ⟨this.symm, rfl⟩
  · simp only [Ptable.holds, Ptable.InUse, Ptable.setProc_proc_of_ne hq] at hg
    exact .inr ⟨hq, hg⟩

theorem PgdirInv.replaced (h : PgdirInv t) : PgdirInv (replaced t p sz) := by
  have hproc : ∀ q, { (Thread.replaced t p sz).proc q with
      pgdir := (t.proc q).pgdir, sz := (t.proc q).sz } = t.proc q :=
    Ptable.forall_setProc
      (P := fun q v => { v with pgdir := (t.proc q).pgdir, sz := (t.proc q).sz } = t.proc q)
      rfl fun _ _ => rfl
  refine h.of_pgdir rfl rfl hproc ?_ ?_
  · refine h.safe.alloc fun q g hg => ?_
    rcases holds_replaced hg with ⟨e, -⟩ | ⟨-, e⟩
    · exact .inl e
    · exact .inr ⟨q, e⟩
  · intro q r g hq hr
    rcases holds_replaced hq with ⟨eg, rfl⟩ | ⟨-, eq⟩ <;>
      rcases holds_replaced hr with ⟨eg', rfl⟩ | ⟨-, er⟩
    · rfl
    · exact absurd (eg ▸ h.safe.held_lt r g er) (Nat.lt_irrefl _)
    · exact absurd (eg' ▸ h.safe.held_lt q g eq) (Nat.lt_irrefl _)
    · exact h.shared q r g eq er

end SetPgdir

/-- The part of `exec` that loads the program, in a process without other threads. -/
theorem execLoad_inv (h : PgdirInv t) (hp : t.InUse p) (ha : t.Alone p)
    (he : execLoad t p e = some (r, u)) :
    PgdirInv u ∧ ∀ q, (u.proc q).state = (t.proc q).state := by
  cases e with
  | early => cases he; exact ⟨h, fun _ => rfl⟩
  | bad =>
    cases he
    refine ⟨h.setupkvm.freevm (g := t.vm.next) (Nat.lt_succ_self _) (fun hf => ?_) (fun q hq => ?_)
      rfl, fun _ => rfl⟩
    · exact absurd (h.safe.freed_lt _ hf) (Nat.lt_irrefl _)
    · exact absurd (h.safe.held_lt q _ hq) (Nat.lt_irrefl _)
  | ok sz =>
    obtain ⟨u', hf, heq⟩ := Option.map_eq_some_iff.mp he
    obtain ⟨-, rfl⟩ := Prod.mk.inj heq
    have hstate : ∀ q, ((replaced t p sz).proc q).state = (t.proc q).state :=
      Ptable.forall_setProc (P := fun q v => v.state = (t.proc q).state) rfl fun _ _ => rfl
    replace hf : freevm (replaced t p sz) (t.proc p).pgdir = some u' := hf
    cases hg : (t.proc p).pgdir with
    | none => rw [hg] at hf; cases hf
    | some g =>
      rw [hg] at hf
      have hpg : t.holds p = some g := holds_eq_some.mpr ⟨hp, hg⟩
      have hlt := h.safe.held_lt p g hpg
      have hr : PgdirInv (replaced t p sz) := h.replaced
      refine ⟨hr.freevm (hlt.trans (Nat.lt_succ_self _))
        (h.safe.held p g hpg) (fun q hq => ?_) hf, ?_⟩
      · rcases holds_replaced hq with ⟨e, -⟩ | ⟨hne, e⟩
        · exact absurd (e ▸ hlt) (Nat.lt_irrefl _)
        · exact ha q hne (holds_eq_some.mp e).1 (h.shared q p g e hpg)
      · cases hf; exact hstate

/-- The thread that calls `exec` becomes a main thread. -/
theorem detach_proc (h : PgdirInv t) (hp : t.InUse p) :
    ∃ parent, (detach t p).proc p = { t.proc p with tid := 0, main := none, parent := parent } := by
  unfold detach
  split
  · exact ⟨_, Ptable.setProc_proc_self ..⟩
  · next htid =>
    rw [not_not] at htid
    refine ⟨(t.proc p).parent, ?_⟩
    rw [← htid, ← (h.tid p hp).mp htid]

section ExecKilled

theorem execKilled_cases (h : PgdirInv t) (hp : t.InUse p) (hq : (execKilled t p).InUse q) :
    q = p ∧ ((execKilled t p).proc p).tid = 0 ∧ ((execKilled t p).proc p).main = none ∧
        ((execKilled t p).proc p).pid = (t.proc p).pid ∧
        ((execKilled t p).proc p).pgdir = (t.proc p).pgdir ∨
      q ≠ p ∧ t.InUse q ∧ (t.proc q).pid ≠ (t.proc p).pid ∧
        SameIds (t.proc q) ((execKilled t p).proc q) := by
  have he : Effect _ (detach t p) (execKilled t p) := .execKilled
  have hg := he.not_gone hq
  by_cases hqp : q = p
  · subst hqp
    obtain ⟨parent, e⟩ := detach_proc h hp
    have hi := e ▸ he.ids q hg
    exact .inl ⟨rfl, hi.tid, hi.main, hi.pid, hi.pgdir⟩
  · have hu := (he.inUse_iff hg).mp hq
    rw [Ptable.InUse, detach_other hqp] at hu
    exact .inr ⟨hqp, hu, fun e => hg ⟨hqp, e⟩, detach_other hqp ▸ he.ids q hg⟩

theorem execKilled_state (h : PgdirInv t) (hp : t.InUse p)
    (hq : q = p ∨ (t.proc q).pid ≠ (t.proc p).pid) :
    Woken (t.proc q) ((execKilled t p).proc q) := by
  have he : Effect _ (detach t p) (execKilled t p) := .execKilled
  have hw := he.woken q fun hg => hq.elim hg.1 fun hn => hn hg.2
  by_cases hqp : q = p
  · subst hqp
    obtain ⟨parent, e⟩ := detach_proc h hp
    rw [e] at hw
    exact hw
  · exact detach_other hqp ▸ hw

theorem execKilled_alone (h : PgdirInv t) (hp : t.InUse p) : (execKilled t p).Alone p := by
  intro q hqp hq
  rcases execKilled_cases h hp hq with ⟨e, -⟩ | ⟨-, -, hpid, hi⟩
  · exact absurd e hqp
  · have hpp : (execKilled t p).InUse p :=
      (execKilled_state h hp (.inl rfl)).unused_iff.mpr hp
    rcases execKilled_cases h hp hpp with ⟨-, -, -, e, -⟩ | ⟨e, -⟩
    · rwa [e, hi.pid]
    · exact absurd rfl e

/-- `exec` leaves the caller as the only thread of its process. -/
theorem Shrinks.execKilled (h : PgdirInv t) (hp : t.InUse p) : Shrinks t (execKilled t p) := by
  have he : Effect _ (detach t p) (Thread.execKilled t p) := .execKilled
  have hg : (Thread.execKilled t p).toGlobals = t.toGlobals := he.globals.trans detach_globals
  refine ⟨congrArg _ hg, (congrArg Globals.nextpid hg).ge, (congrArg Globals.nexttid hg).ge,
    fun q hq => ?_, fun q hq => ?_, fun q hq => ?_, fun q hq => ?_, fun q m hq hm hmt => ?_⟩ <;>
    rcases execKilled_cases h hp hq with ⟨rfl, htid, hmain, hpid, hpgdir⟩ | ⟨hqp, hqt, hne, hi⟩
  · exact hp
  · exact hqt
  · exact hpid
  · exact hi.pid
  · exact hpgdir
  · exact hi.pgdir
  · exact .inr ⟨htid, hmain, execKilled_alone h hp⟩
  · exact .inl ⟨hi.tid, hi.main⟩
  · rw [hmain] at hm; cases hm
  · -- the main thread of another process has the pid of that process
    rw [hi.main] at hm
    have hmpid := (h.main q m hqt hm).2.2
    exact (execKilled_state h hp (.inr (hmpid ▸ hne))).unused_iff.mpr hmt

end ExecKilled

theorem exec_inv (h : PgdirInv t) (hp : t.InUse p) (he : exec t p e = some (r, u)) :
    PgdirInv u ∧ ∀ q, (q = p ∨ (t.proc q).pid ≠ (t.proc p).pid) →
      (t.proc q).state = .RUNNING → (u.proc q).state = .RUNNING := by
  have hpp : (execKilled t p).InUse p := (execKilled_state h hp (.inl rfl)).unused_iff.mpr hp
  obtain ⟨hi, hs⟩ := execLoad_inv (h.shrinks (.execKilled h hp)) hpp (execKilled_alone h hp) he
  refine ⟨hi, fun q hq hr => ?_⟩
  rw [hs q]
  exact (execKilled_state h hp hq).running hr

end Xv6.Thread
