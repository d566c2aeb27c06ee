import Xv6.Thread.Machine
import Xv6.Thread.PgdirInv

/-! # Freed page directories

The invariant of page directories over the runs of the machine. Three kinds of steps can break it,
and `Guarded` excludes them; the first of them is shown to free a page directory in use. -/

namespace Xv6.Thread

variable {n : Nat} {t u : Ptable} {p q : Slot}

/-- The steps under which page directories are safe. `wait` reaps no thread of a process that has
others, nor does `thread_join(0)` reap a main thread with threads, and `exec` is not called while
another thread of the process is on another CPU. -/
def Guarded (m : Machine n) : Act n → Prop
  | .wait c => ∀ p q, m.cpu c = some p → (m.tab.proc q).parent = some p →
      (m.tab.proc q).state = .ZOMBIE →
      (∀ r < q, ¬ ((m.tab.proc r).parent = some p ∧ (m.tab.proc r).state = .ZOMBIE)) →
      m.tab.Alone q
  | .threadJoin _ thread => ∀ q, thread = 0 → (m.tab.proc q).tid = 0 →
      (m.tab.proc q).state = .ZOMBIE →
      (∀ r < q, ¬ ((m.tab.proc r).tid = 0 ∧ (m.tab.proc r).state = .ZOMBIE)) → m.tab.Alone q
  | .exec c _ => ∀ p c' q, m.cpu c = some p → m.cpu c' = some q →
      q = p ∨ (m.tab.proc q).pid ≠ (m.tab.proc p).pid
  | _ => True

structure MachineInv (m : Machine n) : Prop where
  inv : PgdirInv m.tab
  running : ∀ c p, m.cpu c = some p → (m.tab.proc p).state = .RUNNING
  distinct : ∀ c c' p, m.cpu c = some p → m.cpu c' = some p → c = c'

namespace MachineInv

variable {m m' : Machine n} {c : Fin n}

theorem setTab (h : MachineInv m) (hk : Keeps m.tab u) : MachineInv (m.setTab u) :=
  ⟨hk.inv, fun c p hp => (hk.running p (h.running c p hp)).1, h.distinct⟩

theorem sched (h : MachineInv m) (hc : m.cpu c = some p) (hl : Leaves p m.tab u) :
    MachineInv (m.sched c u) := by
  have hcpu : ∀ c' q, (m.sched c u).cpu c' = some q → c' ≠ c ∧ m.cpu c' = some q := by
    intro c' q hq
    by_cases e : c' = c
    · subst e; simp [Machine.sched] at hq
    · simp only [Machine.sched, Function.update_of_ne e] at hq
      exact ⟨e, hq⟩
  refine ⟨hl.inv, fun c' q hq => ?_, fun c₁ c₂ q h₁ h₂ => ?_⟩
  · obtain ⟨hne, hq⟩ := hcpu c' q hq
    exact hl.running q (fun e => hne (h.distinct c' c q hq (e ▸ hc))) (h.running c' q hq)
  · exact h.distinct c₁ c₂ q (hcpu c₁ q h₁).2 (hcpu c₂ q h₂).2

theorem dispatch (h : MachineInv m) (hp : (m.tab.proc p).state = .RUNNABLE) :
    MachineInv ⟨Thread.dispatch m.tab p, Function.update m.cpu c (some p)⟩ := by
  have hl : Leaves p m.tab (Thread.dispatch m.tab p) :=
    .setProc h.inv (by simp [Ptable.InUse, hp]) ⟨rfl, rfl, rfl, rfl⟩ nofun
  have hoff : ∀ c', m.cpu c' ≠ some p := fun c' hc' => by
    rw [h.running c' p hc'] at hp; cases hp
  have hcpu : ∀ c' q, Function.update m.cpu c (some p) c' = some q →
      c' = c ∧ q = p ∨ m.cpu c' = some q ∧ q ≠ p := by
    intro c' q hq
    by_cases e : c' = c
    · subst e
      rw [Function.update_self, Option.some.injEq] at hq
      exact .inl ⟨rfl, hq.symm⟩
    · rw [Function.update_of_ne e] at hq
      exact .inr ⟨hq, fun e => hoff c' (e ▸ hq)⟩
  refine ⟨hl.inv, fun c' q hq => ?_, fun c₁ c₂ q h₁ h₂ => ?_⟩
  · rcases hcpu c' q hq with ⟨-, rfl⟩ | ⟨hq, hne⟩
    · simp [Thread.dispatch]
    · exact hl.running q hne (h.running c' q hq)
  · rcases hcpu c₁ q h₁ with ⟨e₁, e⟩ | ⟨h₁, hne⟩ <;> rcases hcpu c₂ q h₂ with ⟨e₂, e'⟩ | ⟨h₂, hne'⟩
    · rw [e₁, e₂]
    · exact absurd e hne'
    · exact absurd e' hne
    · exact h.distinct c₁ c₂ q h₁ h₂

/-- Entering a call changes the context of the caller only. -/
theorem enter (h : MachineInv m) (he : m.enter c k = some (p, t)) :
    m.cpu c = some p ∧ Keeps m.tab t ∧ (t.proc p).state = .RUNNING ∧
      ∀ q, m.tab.proc q = { t.proc q with context := (m.tab.proc q).context } := by
  obtain ⟨p', hp, he⟩ := Option.bind_eq_some_iff.mp he
  simp only [Option.ite_none_right_eq_some, Option.some.injEq, Prod.mk.injEq] at he
  obtain ⟨-, rfl, rfl⟩ := he
  have hq : Quiet m.tab (m.tab.setProc p' { m.tab.proc p' with context := .user }) :=
    .setProc ⟨rfl, rfl, rfl, rfl⟩ (.inl rfl)
  have hk := Keeps.quiet h.inv hq
  refine ⟨hp, hk, (hk.running p' (h.running c p' hp)).1, ?_⟩
  exact Ptable.forall_setProc (P := fun q v =>
    m.tab.proc q = { v with context := (m.tab.proc q).context }) rfl fun _ _ => rfl

theorem alone_of_context
    (h : ∀ q, m.tab.proc q = { t.proc q with context := (m.tab.proc q).context })
    (ha : m.tab.Alone p) : t.Alone p := by
  intro q hqp hq
  have hne := ha q hqp
  rw [Ptable.InUse, h q, h p] at hne
  exact hne hq

theorem next (h : MachineInv m) (hg : Guarded m a) (hs : m.next a = some m') : MachineInv m' := by
  cases a with
  | dispatch c p =>
    simp only [Machine.next, Option.ite_none_right_eq_some, Option.some.injEq] at hs
    obtain ⟨⟨-, hp⟩, rfl⟩ := hs
    exact h.dispatch hp
  | yield c =>
    obtain ⟨⟨p, t⟩, he, rfl⟩ := Option.map_eq_some_iff.mp hs
    obtain ⟨hc, hk, hp, -⟩ := h.enter he
    exact h.sched hc (.of_keeps hk (.yield hk.inv (inUse_of_running hp)))
  | sleep c chan =>
    obtain ⟨⟨p, t⟩, he, rfl⟩ := Option.map_eq_some_iff.mp hs
    obtain ⟨hc, hk, hp, -⟩ := h.enter he
    exact h.sched hc (.of_keeps hk (.sleep hk.inv (inUse_of_running hp)))
  | wakeup chan => cases hs; exact h.setTab (.quiet h.inv .wakeup1)
  | kill pid => cases hs; exact h.setTab (.quiet h.inv .kill)
  | fork c kalloc copyuvm =>
    obtain ⟨⟨p, t⟩, he, rfl⟩ := Option.map_eq_some_iff.mp hs
    obtain ⟨-, hk, -, -⟩ := h.enter he
    exact h.setTab (hk.trans (.fork hk.inv))
  | threadCreate c kalloc allocuvm =>
    obtain ⟨⟨p, t⟩, he, rfl⟩ := Option.map_eq_some_iff.mp hs
    obtain ⟨-, hk, hp, -⟩ := h.enter he
    exact h.setTab (hk.trans (.threadCreate hk.inv (inUse_of_running hp)))
  | threadExit c retval =>
    obtain ⟨⟨p, t⟩, he, hs⟩ := Option.bind_eq_some_iff.mp hs
    obtain ⟨hc, hk, hp, -⟩ := h.enter he
    simp only [Option.ite_none_left_eq_some, Option.some.injEq] at hs
    obtain ⟨-, rfl⟩ := hs
    exact h.sched hc (.of_keeps hk (.threadExit hk.inv hp))
  | exit c =>
    obtain ⟨⟨p, t⟩, he, hs⟩ := Option.bind_eq_some_iff.mp hs
    obtain ⟨hc, hk, hp, -⟩ := h.enter he
    simp only [Option.ite_none_left_eq_some, Option.some.injEq] at hs
    obtain ⟨-, rfl⟩ := hs
    exact h.sched hc (.of_keeps hk (.exit hk.inv hp))
  | wait c =>
    obtain ⟨⟨p, t⟩, he, hs⟩ := Option.bind_eq_some_iff.mp hs
    obtain ⟨hc, hk, hp, hctx⟩ := h.enter he
    obtain ⟨o, hw, rfl⟩ := Option.map_eq_some_iff.mp hs
    rcases wait_cases hw with ⟨q, u, hq, hfirst, hr, rfl⟩ | rfl | ⟨-, rfl⟩
    · have ha : t.Alone q := by
        refine alone_of_context hctx (hg p q hc ?_ ?_ fun r hr => ?_)
        · rw [hctx q]; exact hq.1
        · rw [hctx q]; exact hq.2
        · rw [hctx r]; exact hfirst r hr
      exact h.setTab (hk.trans (.reap hk.inv hq.2 ha hr))
    · exact h.setTab hk
    · exact h.sched hc (.of_keeps hk (.sleep hk.inv (inUse_of_running hp)))
  | threadJoin c thread =>
    obtain ⟨⟨p, t⟩, he, rfl⟩ := Option.map_eq_some_iff.mp hs
    obtain ⟨hc, hk, hp, hctx⟩ := h.enter he
    simp only
    rcases threadJoin_cases t p thread with ⟨q, hq, hfirst, e⟩ | e | ⟨-, e⟩ <;> rw [e]
    · refine h.setTab (hk.trans ?_)
      by_cases htid : thread = 0
      · subst htid
        have ha : t.Alone q := by
          refine alone_of_context hctx (hg q rfl ?_ ?_ fun r hr => ?_)
          · rw [hctx q]; exact hq.1
          · rw [hctx q]; exact hq.2
          · rw [hctx r]; exact hfirst r hr
        exact .clear_alone hk.inv hq.2 rfl ha
      · refine .clear_sub hk.inv hq.2 rfl fun hm => htid ?_
        rw [← hq.1]
        exact (hk.inv.tid q (by simp [Ptable.InUse, hq.2])).mpr hm
    · exact h.setTab hk
    · exact h.sched hc (.of_keeps hk (.sleep hk.inv (inUse_of_running hp)))
  | exec c e =>
    obtain ⟨⟨p, t⟩, he, hs⟩ := Option.bind_eq_some_iff.mp hs
    obtain ⟨hc, hk, hp, hctx⟩ := h.enter he
    obtain ⟨⟨r, u⟩, hu, rfl⟩ := Option.map_eq_some_iff.mp hs
    obtain ⟨hi, hr⟩ := exec_inv hk.inv (inUse_of_running hp) hu
    refine ⟨hi, fun c' q hq => ?_, h.distinct⟩
    have hne := hg p c' q hc hq
    rw [hctx q, hctx p] at hne
    exact hr q hne (hk.running q (h.running c' q hq)).1

end MachineInv

theorem machineInv : (kernel n).Invariant Guarded MachineInv where
  init {m} h := by
    have hcpu : ∀ c p, m.cpu c ≠ some p := fun c p hp => by rw [h.2 c] at hp; cases hp
    exact ⟨PgdirInv.pinit.userinit h.1, fun c p hp => absurd hp (hcpu c p),
      fun c _ p hp => absurd hp (hcpu c p)⟩
  step h hg hs := h.next hg hs

/-- In runs of guarded steps no page directory is freed twice, and none that is freed is that of a
process that may run. -/
theorem freed_not_live {m : Machine n} (hm : (kernel n).ReachedVia Guarded m) :
    m.tab.vm.freed.Nodup ∧ ∀ p, Live (m.tab.proc p).state →
      ∀ g ∈ m.tab.vm.freed, (m.tab.proc p).pgdir ≠ some g := by
  have h := (machineInv.of_reached hm).inv
  refine ⟨h.safe.nodup, fun p hp g hg e => h.safe.held p g (holds_eq_some.mpr ⟨?_, e⟩) hg⟩
  rcases hp with hp | hp | hp <;> simp [Ptable.InUse, hp]

instance : Decidable (Ptable.Alone t p) := inferInstanceAs (Decidable (∀ _, _))

instance (m : Machine n) : ∀ a, Decidable (Guarded m a)
  | .wait _ => inferInstanceAs (Decidable (∀ _ _, _ → _ → _ → _ → _))
  | .threadJoin _ _ => inferInstanceAs (Decidable (∀ _, _ → _ → _ → _ → _))
  | .exec _ _ => inferInstanceAs (Decidable (∀ _ _ _, _ → _ → _))
  | .dispatch .. | .yield _ | .sleep .. | .wakeup _ | .kill _ | .fork .. | .threadCreate ..
  | .threadExit .. | .exit _ => isTrue trivial

/-- A child of init makes a thread and joins it, executes a program and exits, and init waits for
it: both page directories of the child are freed. -/
theorem freed_not_live_wait : ∃ m : Machine 1, m.tab.vm.freed = [2, 1] ∧
    Live (m.tab.proc 0).state ∧ m.tab.vm.freed.Nodup ∧ ∀ p, Live (m.tab.proc p).state →
      ∀ g ∈ m.tab.vm.freed, (m.tab.proc p).pgdir ≠ some g := by
  obtain ⟨m, hm, h⟩ := (kernel 1).exists_reachedVia_of_run (C := Guarded)
    (s := ⟨(userinit pinit).get (by decide +kernel), fun _ => none⟩)
    [.dispatch 0 0, .fork 0 true true, .wait 0, .dispatch 0 1, .threadCreate 0 true true, .yield 0,
      .dispatch 0 2, .threadExit 0 0, .dispatch 0 1, .threadJoin 0 1, .exec 0 (.ok 8192), .exit 0,
      .dispatch 0 0, .wait 0]
    (fun m => decide (m.tab.vm.freed = [2, 1] ∧ Live (m.tab.proc 0).state))
    ⟨by simp, fun _ => rfl⟩ (by decide +kernel) (by decide +kernel)
  obtain ⟨hf, hl⟩ := of_decide_eq_true h
  exact ⟨m, hf, hl, freed_not_live hm⟩

/-- A child of init makes a thread, the thread exits, and the child waits: `wait` frees the page
directory that the child is running in. -/
theorem wait_frees_own_pgdir : ∃ m : Machine 1, (kernel 1).Reached m ∧
    (m.tab.proc 1).state = .RUNNING ∧ (m.tab.proc 1).pgdir = some 1 ∧ 1 ∈ m.tab.vm.freed := by
  obtain ⟨s, m, hs, hr, hf⟩ := exists_run (n := 1)
    [.dispatch 0 0, .fork 0 true true, .wait 0, .dispatch 0 1, .threadCreate 0 true true, .yield 0,
      .dispatch 0 2, .threadExit 0 0, .dispatch 0 1, .wait 0]
    (fun m => (m.tab.proc 1).state = .RUNNING ∧ (m.tab.proc 1).pgdir = some 1 ∧
      1 ∈ m.tab.vm.freed) (by decide +kernel)
  simp only [decide_eq_true_eq] at hf
  exact ⟨m, .of_run hs hr, hf⟩

end Xv6.Thread
