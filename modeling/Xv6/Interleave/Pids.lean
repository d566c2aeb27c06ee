import Xv6.Interleave.Sound

/-! # Process ids

`allocproc` takes a pid from `nextpid` for a thread too, and `thread_create` gives it back by
`nextpid--` when other processes may have taken pids of their own. As long as the pid that is
given back is in use by nobody, slots with one pid are threads of one process. -/

namespace Xv6.Interleave

open Function Thread

variable {n : Nat} {m : State n} {a : Act n} {p q r np x : Slot} {k : Point}
/-- The steps by which threads end, wait for each other or execute programs. -/
def Act.ends : Act n → Bool
  | .exit _ | .exitEnd _ | .threadExit _ _ | .threadExitEnd _ | .wait _ | .threadJoin _ _
  | .exec _ | .killThreads _ | .execEnd _ _ => true
  | _ => false

/-- The kernel in which processes call `fork` and `thread_create`. -/
def creation (n : Nat) : LTS (State n) (Act n) where
  init := (kernel n).init
  next m a := if a.ends then none else m.next a

/-- The slot that a `thread_create` has allocated and not yet given the ids of its process. -/
def Point.unnamed : Point → Option Slot
  | .threadCreate np _ .kalloc | .threadCreate np _ .nextpid | .threadCreate np _ .ids => some np
  | _ => none

/-- A slot in use that has the pid of its process. -/
def State.Named (m : State n) (q : Slot) : Prop :=
  m.tab.InUse q ∧ ∀ p, Live (m.tab.proc p).state → (m.pc p).unnamed ≠ some q

def Act.isDecNextpid : Act n → Bool
  | .decNextpid _ => true
  | _ => false

/-- `nextpid--` gives back a pid that no process has. -/
def GivesBack (m : State n) (a : Act n) : Prop :=
  a.isDecNextpid = true → ∀ q, m.Named q → (m.tab.proc q).pid ≠ m.tab.nextpid - 1

instance (m : State n) (q : Slot) : Decidable (m.Named q) :=
  inferInstanceAs (Decidable (_ ∧ ∀ _, _))

instance (m : State n) (a : Act n) : Decidable (GivesBack m a) :=
  inferInstanceAs (Decidable (_ → ∀ _, _))

/-- The main thread of the process. -/
def group (t : Ptable) (q : Slot) : Slot := (t.proc q).main.getD q

structure PidInv (m : State n) : Prop where
  lt : ∀ q, m.Named q → (m.tab.proc q).pid < m.tab.nextpid
  group : ∀ q r, m.Named q → m.Named r → (m.tab.proc q).pid = (m.tab.proc r).pid →
    group m.tab q = group m.tab r
  main : ∀ q x, m.Named q → (m.tab.proc q).main = some x →
    Grown m.tab x ∧ (m.tab.proc x).main = none ∧ (m.tab.proc x).pid = (m.tab.proc q).pid
  pending : ∀ p np x k, Live (m.tab.proc p).state → m.pc p = .threadCreate np x k →
    Grown m.tab x ∧ (m.tab.proc x).main = none

theorem unnamed_eq (h : k.unnamed = some q) : k.new = some q := by
  cases k with
  | threadCreate np main j => cases j <;> first | exact h | cases h
  | _ => cases h

theorem Sound.named (h : Sound m) (hq : Grown m.tab q) : m.Named q :=
  ⟨hq.1, fun p hl hp => hq.2 (h.embryo p q hl (unnamed_eq hp))⟩

/-- No slot in use changes its pid or its main thread, and no creation begins or names a slot. -/
structure Steady (m m' : State n) : Prop where
  nextpid : m'.tab.nextpid = m.tab.nextpid
  ids : ∀ q, m'.tab.InUse q → m.tab.InUse q ∧ (m'.tab.proc q).pid = (m.tab.proc q).pid ∧
    (m'.tab.proc q).main = (m.tab.proc q).main
  grown : ∀ q, Grown m.tab q → Grown m'.tab q
  unnamed : ∀ p q, Live (m.tab.proc p).state → (m.pc p).unnamed = some q → m'.tab.InUse q →
    Live (m'.tab.proc p).state ∧ (m'.pc p).unnamed = some q
  create : ∀ p np x k, Live (m'.tab.proc p).state → m'.pc p = .threadCreate np x k →
    ∃ k', Live (m.tab.proc p).state ∧ m.pc p = .threadCreate np x k'

namespace Steady

theorem named (h : Steady m m') (hq : m'.Named q) : m.Named q :=
  ⟨(h.ids q hq.1).1, fun p hl hp =>
    have hp' := h.unnamed p q hl hp hq.1
    hq.2 p hp'.1 hp'.2⟩

/-- The thread `p` goes on, with the slot that it has allocated. -/
theorem goto (hnew : ∀ q, (m.pc p).unnamed = some q → k.unnamed = some q)
    (hk : ∀ np x j, k = .threadCreate np x j → ∃ j', m.pc p = .threadCreate np x j') :
    Steady m (m.goto p k) := by
  refine ⟨rfl, fun _ hq => ⟨hq, rfl, rfl⟩, fun _ => id, fun r q hl hq _ => ⟨hl, ?_⟩,
    fun r np x j hl hp => ?_⟩
  · change (update m.pc p k r).unnamed = _
    by_cases e : r = p
    · rw [e, update_self]
      exact hnew q (e ▸ hq)
    · rwa [update_of_ne e]
  · change update m.pc p k r = _ at hp
    by_cases e : r = p
    · rw [e, update_self] at hp
      obtain ⟨j', hj⟩ := hk np x j hp
      exact ⟨j', hl, e ▸ hj⟩
    · rw [update_of_ne e] at hp
      exact ⟨j, hl, hp⟩

/-- A change of the table that keeps the ids of slots in use and the threads that are live. -/
theorem of_tab (hpc : m'.pc = m.pc) (hnext : m'.tab.nextpid = m.tab.nextpid)
    (hids : ∀ q, m'.tab.InUse q → m.tab.InUse q ∧ (m'.tab.proc q).pid = (m.tab.proc q).pid ∧
      (m'.tab.proc q).main = (m.tab.proc q).main)
    (hgrown : ∀ q, Grown m.tab q → Grown m'.tab q)
    (hlive : ∀ q, Live (m'.tab.proc q).state ↔ Live (m.tab.proc q).state) : Steady m m' where
  nextpid := hnext
  ids := hids
  grown := hgrown
  unnamed p _ hl hq _ := ⟨(hlive p).mpr hl, hpc ▸ hq⟩
  create p _ _ k hl hp := ⟨k, (hlive p).mp hl, hpc ▸ hp⟩

theorem of_quiet (h : Quiet m.tab u) : Steady m (m.setTab u) := by
  refine of_tab rfl (congrArg Globals.nextpid h.globals) (fun q hq => ⟨(h.inUse_iff id).mp hq,
    (h.ids q id).pid, (h.ids q id).main⟩) (fun q hq => ⟨(h.inUse_iff id).mpr hq.1, ?_⟩)
    fun q => ⟨(Keeps.of_quiet h).live q, h.live id⟩
  exact fun e => hq.2 (((Keeps.of_quiet h).embryo q).mp e)

theorem of_state (hnext : u.nextpid = m.tab.nextpid)
    (h : ∀ q, (u.proc q).state = (m.tab.proc q).state ∧ (u.proc q).pid = (m.tab.proc q).pid ∧
      (u.proc q).main = (m.tab.proc q).main) : Steady m (m.setTab u) := by
  refine of_tab rfl hnext (fun q hq => ⟨?_, (h q).2⟩) (fun q hq => ?_) fun q => ?_
  · change (u.proc q).state ≠ _ at hq
    rwa [(h q).1] at hq
  · change (u.proc q).state ≠ _ ∧ (u.proc q).state ≠ _
    rwa [(h q).1]
  · change Live (u.proc q).state ↔ _
    rw [(h q).1]

/-- A thread that is live gets on a CPU or leaves it. -/
theorem of_setProc (htab : m'.tab = m.tab.setProc p v) (hpc : m'.pc = m.pc)
    (hl : Live (m.tab.proc p).state) (hv : Live v.state) (hpid : v.pid = (m.tab.proc p).pid)
    (hmain : v.main = (m.tab.proc p).main) : Steady m m' := by
  have hself : m'.tab.proc p = v := by rw [htab, Ptable.setProc_proc_self]
  have hother : ∀ q, q ≠ p → m'.tab.proc q = m.tab.proc q := fun q e => by
    rw [htab, Ptable.setProc_proc_of_ne e]
  refine of_tab hpc (by rw [htab]; rfl) (fun q hq => ?_) (fun q hq => ?_) fun q => ?_ <;>
    by_cases e : q = p
  · subst e
    rw [hself]
    exact ⟨inUse_of_live hl, hpid, hmain⟩
  · rw [Ptable.InUse, hother q e] at hq
    rw [hother q e]
    exact ⟨hq, rfl, rfl⟩
  · subst e
    exact grown_of_live (by rwa [hself])
  · rwa [Grown, hother q e]
  · subst e
    rw [hself]
    exact ⟨fun _ => hl, fun _ => hv⟩
  · rw [hother q e]

/-- A creation ends: its slot is free again, or it has been given its ids. -/
theorem release (hS : Sound m) (hc : m.cpu c = some p) (hp : (m.pc p).new = some np)
    (hnp : (u.proc np).state = .UNUSED ∨ (m.pc p).unnamed = none ∧
      (u.proc np).pid = (m.tab.proc np).pid ∧ (u.proc np).main = (m.tab.proc np).main)
    (hnext : u.nextpid = m.tab.nextpid) (ho : ∀ q, q ≠ np →
      (u.proc q).state = (m.tab.proc q).state ∧ (u.proc q).pid = (m.tab.proc q).pid ∧
      (u.proc q).main = (m.tab.proc q).main) : Steady m ((m.setTab u).goto p .user) := by
  obtain ⟨hem, hne⟩ := hS.new_ne hc hp
  refine ⟨hnext, fun q hq => ?_, fun q hq => ?_, fun r q hl hq hi => ?_, fun r y x j hl hr => ?_⟩
  · change u.InUse q at hq
    by_cases e : q = np
    · subst e
      obtain ⟨-, h⟩ := hnp.resolve_left hq
      exact ⟨by simp [Ptable.InUse, hem], h⟩
    · rw [Ptable.InUse, (ho q e).1] at hq
      exact ⟨hq, (ho q e).2⟩
  · have e : q ≠ np := by
      rintro rfl
      exact hq.2 hem
    change (u.proc q).state ≠ _ ∧ (u.proc q).state ≠ _
    rwa [(ho q e).1]
  · have e : r ≠ np := by
      rintro rfl
      rw [hem] at hl
      exact absurd hl (by decide)
    change Live (u.proc r).state ∧ (update m.pc p .user r).unnamed = _
    by_cases e' : r = p
    · -- the slot of `p` was not named, so it is free
      subst e'
      rcases hnp with hu | ⟨hn, -⟩
      · rw [unnamed_eq hq] at hp
        cases hp
        exact absurd hu hi
      · rw [hn] at hq
        cases hq
    · rw [(ho r e).1, update_of_ne e']
      exact ⟨hl, hq⟩
  · change update m.pc p .user r = _ at hr
    have e : r ≠ p := by
      rintro rfl
      rw [update_self] at hr
      cases hr
    rw [update_of_ne e] at hr
    have e' : r ≠ np := by
      rintro rfl
      rw [hS.fresh r hem] at hr
      cases hr
    change Live (u.proc r).state at hl
    rw [(ho r e').1] at hl
    exact ⟨j, hl, hr⟩

end Steady

namespace PidInv

theorem steady (h : PidInv m) (hs : Steady m m') : PidInv m' where
  lt q hq := by
    rw [(hs.ids q hq.1).2.1, hs.nextpid]
    exact h.lt q (hs.named hq)
  group q r hq hr e := by
    rw [(hs.ids q hq.1).2.1, (hs.ids r hr.1).2.1] at e
    rw [Interleave.group, Interleave.group, (hs.ids q hq.1).2.2, (hs.ids r hr.1).2.2]
    exact h.group q r (hs.named hq) (hs.named hr) e
  main q x hq hx := by
    rw [(hs.ids q hq.1).2.2] at hx
    obtain ⟨hg, hm, hd⟩ := h.main q x (hs.named hq) hx
    have hx' := hs.ids x (hs.grown x hg).1
    exact ⟨hs.grown x hg, hx'.2.2.trans hm, hx'.2.1.trans (hd.trans (hs.ids q hq.1).2.1.symm)⟩
  pending p np x k hl hp := by
    obtain ⟨k', hl', hp'⟩ := hs.create p np x k hl hp
    obtain ⟨hg, hm⟩ := h.pending p np x k' hl' hp'
    exact ⟨hs.grown x hg, (hs.ids x (hs.grown x hg).1).2.2.trans hm⟩

/-- The thread that a new thread will belong to. -/
theorem main_grown (h : PidInv m) (hS : Sound m) (hl : Live (m.tab.proc p).state) :
    Grown m.tab ((m.tab.proc p).main.getD p) ∧
      (m.tab.proc ((m.tab.proc p).main.getD p)).main = none := by
  have hp := hS.named (grown_of_live hl)
  cases hm : (m.tab.proc p).main with
  | none => exact ⟨grown_of_live hl, hm⟩
  | some x =>
    obtain ⟨hg, hx, -⟩ := h.main p x hp hm
    exact ⟨hg, hx⟩

theorem alloc (h : PidInv m) (hp : m.pc p = .user)
    (ha : allocSlot m.tab = some (np, t))
    (hk : ∀ y x j, k = .threadCreate y x j → Grown m.tab x ∧ (m.tab.proc x).main = none) :
    PidInv (((m.setTab t).goto np .user).goto p k) := by
  obtain ⟨hun, hem, hal⟩ := allocSlot_some ha
  have hnext : t.nextpid = m.tab.nextpid + 1 := congrArg Globals.nextpid hal.globals
  have hpc : ∀ r, r ≠ np → r ≠ p → (((m.setTab t).goto np .user).goto p k).pc r = m.pc r := by
    intro r e e'
    change update (update m.pc np _) p _ r = _
    rw [update_of_ne e', update_of_ne e]
  have hlive : ∀ r, Live (t.proc r).state → r ≠ np ∧ Live (m.tab.proc r).state := by
    intro r hr
    have e : r ≠ np := by
      rintro rfl
      rw [hem] at hr
      exact absurd hr (by decide)
    exact ⟨e, by rwa [hal.others r e] at hr⟩
  have hgrown : ∀ x, Grown m.tab x → x ≠ np := by
    rintro x hx rfl
    exact hx.1 hun
  have hnamed : ∀ q, (((m.setTab t).goto np .user).goto p k).Named q → q ≠ np → m.Named q := by
    intro q hq e
    refine ⟨?_, fun r hl hr => ?_⟩
    · have hi := hq.1
      change (t.proc q).state ≠ _ at hi
      rwa [hal.others q e] at hi
    · have er : r ≠ np := by
        rintro rfl
        exact inUse_of_live hl hun
      have ep : r ≠ p := by
        rintro rfl
        rw [hp] at hr
        cases hr
      refine hq.2 r ?_ (by rw [hpc r er ep, hr])
      change Live (t.proc r).state
      rwa [hal.others r er]
  refine ⟨fun q hq => ?_, fun q r hq hr e => ?_, fun q x hq hx => ?_, fun r y x j hl hr => ?_⟩
  · change (t.proc q).pid < t.nextpid
    rw [hnext]
    by_cases e : q = np
    · rw [e, hal.pid]
      exact Int.lt_succ _
    · rw [hal.others q e]
      exact (h.lt q (hnamed q hq e)).trans (Int.lt_succ _)
  · change (t.proc q).pid = (t.proc r).pid at e
    change Interleave.group t q = Interleave.group t r
    by_cases eq : q = np <;> by_cases er : r = np
    · rw [eq, er]
    · rw [eq, hal.pid, hal.others r er] at e
      exact absurd e (h.lt r (hnamed r hr er)).ne'
    · rw [er, hal.pid, hal.others q eq] at e
      exact absurd e (h.lt q (hnamed q hq eq)).ne
    · rw [hal.others q eq, hal.others r er] at e
      rw [Interleave.group, Interleave.group, hal.others q eq, hal.others r er]
      exact h.group q r (hnamed q hq eq) (hnamed r hr er) e
  · change (t.proc q).main = some x at hx
    change ((t.proc x).state ≠ _ ∧ (t.proc x).state ≠ _) ∧ (t.proc x).main = none ∧
      (t.proc x).pid = (t.proc q).pid
    have e : q ≠ np := by
      rintro rfl
      rw [hal.main] at hx
      cases hx
    rw [hal.others q e] at hx ⊢
    have hmain := h.main q x (hnamed q hq e) hx
    rwa [hal.others x (hgrown x hmain.1)]
  · change Live (t.proc r).state at hl
    change ((t.proc x).state ≠ _ ∧ (t.proc x).state ≠ _) ∧ (t.proc x).main = none
    have hx : Grown m.tab x ∧ (m.tab.proc x).main = none := by
      by_cases e : r = p
      · rw [e] at hr
        exact hk y x j ((update_self ..).symm.trans hr)
      · obtain ⟨e', hl'⟩ := hlive r hl
        rw [hpc r e' e] at hr
        exact h.pending r y x j hl' hr
    rwa [hal.others x (hgrown x hx.1)]

theorem decNextpid (h : PidInv m) (hp : m.pc p = .threadCreate np x .nextpid)
    (hg : ∀ q, m.Named q → (m.tab.proc q).pid ≠ m.tab.nextpid - 1) :
    PidInv ((m.setTab { m.tab with nextpid := m.tab.nextpid - 1 }).goto p
      (.threadCreate np x .ids)) := by
  have hs : Steady m (m.goto p (.threadCreate np x .ids)) := by
    refine .goto (fun q e => by rw [hp] at e; exact e) ?_
    rintro _ _ _ ⟨⟩
    exact ⟨_, hp⟩
  have h' := h.steady hs
  refine ⟨fun q hq => ?_, h'.group, h'.main, h'.pending⟩
  have hq' : m.Named q := hs.named hq
  have hlt := h.lt q hq'
  have hne := hg q hq'
  change (m.tab.proc q).pid < m.tab.nextpid - 1
  omega

theorem setIds (h : PidInv m) (hS : Sound m) (hc : m.cpu c = some p)
    (hp : m.pc p = .threadCreate np x .ids) :
    PidInv ((m.setTab (Interleave.setIds m.tab x np)).goto p (.threadCreate np x .allocuvm)) := by
  obtain ⟨hem, hne⟩ := hS.new_ne hc (congrArg Point.new hp)
  obtain ⟨hx, hxm⟩ := h.pending p np x _ (hS.live hc) hp
  have hxn := hS.named hx
  have hnew : (Interleave.setIds m.tab x np).proc np = _ := setIds_new
  have hother : ∀ q, q ≠ np → (Interleave.setIds m.tab x np).proc q = m.tab.proc q :=
    fun q e => setIds_other e
  have hnext : (Interleave.setIds m.tab x np).nextpid = m.tab.nextpid := rfl
  generalize Interleave.setIds m.tab x np = u at hnew hother hnext ⊢
  have hgrown : ∀ y, Grown m.tab y → y ≠ np := by
    rintro y hy rfl
    exact hy.2 hem
  have hpc : ∀ r, r ≠ p → ((m.setTab u).goto p (.threadCreate np x .allocuvm)).pc r = m.pc r :=
    fun r e => update_of_ne e ..
  have hstate : ∀ r, (u.proc r).state = (m.tab.proc r).state := by
    intro r
    by_cases e : r = np
    · rw [e, hnew]
    · rw [hother r e]
  have hnamed : ∀ q, ((m.setTab u).goto p (.threadCreate np x .allocuvm)).Named q → q ≠ np →
      m.Named q := by
    intro q hq e
    refine ⟨?_, fun r hl hr => ?_⟩
    · have hi := hq.1
      change (u.proc q).state ≠ _ at hi
      rwa [hstate] at hi
    · have ep : r ≠ p := by
        rintro rfl
        rw [hp] at hr
        exact e (Option.some.inj hr).symm
      refine hq.2 r ?_ (by rw [hpc r ep, hr])
      change Live (u.proc r).state
      rwa [hstate]
  have hxg : Interleave.group m.tab x = x := by rw [Interleave.group, hxm]; rfl
  refine ⟨fun q hq => ?_, fun q r hq hr e => ?_, fun q y hq hy => ?_, fun r y z j hl hr => ?_⟩
  · change (u.proc q).pid < u.nextpid
    rw [hnext]
    by_cases e : q = np
    · rw [e, hnew]
      exact h.lt x hxn
    · rw [hother q e]
      exact h.lt q (hnamed q hq e)
  · change (u.proc q).pid = (u.proc r).pid at e
    change Interleave.group u q = Interleave.group u r
    rw [Interleave.group, Interleave.group]
    by_cases eq : q = np <;> by_cases er : r = np
    · rw [eq, er]
    · rw [eq, hnew, hother r er] at e
      rw [eq, hnew, hother r er]
      have hg := h.group x r hxn (hnamed r hr er) e
      rw [hxg] at hg
      exact hg
    · rw [er, hnew, hother q eq] at e
      rw [er, hnew, hother q eq]
      have hg := h.group q x (hnamed q hq eq) hxn e
      rw [hxg] at hg
      exact hg
    · rw [hother q eq, hother r er] at e ⊢
      exact h.group q r (hnamed q hq eq) (hnamed r hr er) e
  · change (u.proc q).main = some y at hy
    change ((u.proc y).state ≠ _ ∧ (u.proc y).state ≠ _) ∧ (u.proc y).main = none ∧
      (u.proc y).pid = (u.proc q).pid
    by_cases e : q = np
    · rw [e, hnew] at hy
      cases hy
      rw [e, hnew, hother x (hgrown x hx)]
      exact ⟨hx, hxm, rfl⟩
    · rw [hother q e] at hy ⊢
      have hmain := h.main q y (hnamed q hq e) hy
      rwa [hother y (hgrown y hmain.1)]
  · change Live (u.proc r).state at hl
    rw [hstate] at hl
    change ((u.proc z).state ≠ _ ∧ (u.proc z).state ≠ _) ∧ (u.proc z).main = none
    have hz : Grown m.tab z ∧ (m.tab.proc z).main = none := by
      by_cases e : r = p
      · rw [e] at hr
        have hr := (update_self ..).symm.trans hr
        cases hr
        exact ⟨hx, hxm⟩
      · rw [hpc r e] at hr
        exact h.pending r y z j hl hr
    rwa [hother z (hgrown z hz.1)]

theorem step (h : PidInv m) (hS : Sound m) (he : a.ends = false) (hg : GivesBack m a)
    (hs : Step m a m') : PidInv m' := by
  cases hs with
  | @dispatch c p hc hp =>
    exact h.steady (.of_setProc rfl rfl (.inr (.inl hp)) (.inr (.inr rfl)) rfl rfl)
  | yield hc => exact h.steady (.of_setProc rfl rfl (hS.live hc) (.inr (.inl rfl)) rfl rfl)
  | wakeup => exact h.steady (.of_quiet .wakeup1)
  | kill => exact h.steady (.of_quiet .kill)
  | call hc hp | ret hc hp | cleariFails hc hp | forkKalloc hc hp =>
    exact h.steady (.goto (fun q e => by rw [hp] at e; cases e) nofun)
  | hold =>
    exact h.steady (.of_tab rfl rfl (fun _ hq => ⟨hq, rfl, rfl⟩) (fun _ => id) fun _ => .rfl)
  | sleep hc => exact h.steady (.of_setProc rfl rfl (hS.live hc) (.inl rfl) rfl rfl)
  | noSlot => exact h
  | fork hc hp ha => exact h.alloc hp ha nofun
  | threadCreate hc hp ha =>
    refine h.alloc hp ha ?_
    rintro _ _ _ ⟨⟩
    exact h.main_grown hS (hS.live hc)
  | createKalloc hc hp =>
    refine h.steady (.goto (fun q e => by rw [hp] at e; exact e) ?_)
    rintro _ _ _ ⟨⟩
    exact ⟨_, hp⟩
  | @drop a c p np v hc hp =>
    refine h.steady (.release hS hc hp (.inl (by simp)) rfl fun q e => ?_)
    rw [Ptable.setProc_proc_of_ne e]
    exact ⟨rfl, rfl, rfl⟩
  | @copyuvm c p np hc hp =>
    have hs : Steady m (m.setTab (forkCopied m.tab p np)) := by
      refine .of_state rfl fun q => ?_
      by_cases e : q = np
      · obtain ⟨g, hg⟩ := forkCopied_new p np m.tab
        rw [e, hg]
        exact ⟨rfl, rfl, rfl⟩
      · rw [forkCopied_other e]
        exact ⟨rfl, rfl, rfl⟩
    refine (h.steady hs).steady (.goto (fun q e => ?_) nofun)
    change (m.pc p).unnamed = _ at e
    rw [hp] at e
    cases e
  | decNextpid hc hp => exact h.decNextpid hp (hg rfl)
  | setIds hc hp => exact h.setIds hS hc hp
  | @allocuvm c p np x hc hp =>
    have hs : Steady m (m.setTab (growMain m.tab x np true)) :=
      .of_state rfl fun q =>
        have ha := growMain_alike q
        ⟨ha.state, ha.pid, ha.main⟩
    refine (h.steady hs).steady (.goto (fun q e => ?_) ?_)
    · change (m.pc p).unnamed = _ at e
      rw [hp] at e
      cases e
    · rintro _ _ _ ⟨⟩
      exact ⟨_, hp⟩
  | @allocuvmFails c p np x hc hp =>
    exact h.steady (.release hS hc (congrArg Point.new hp) (.inl growMain_fails.1) rfl fun q e =>
      have ha := growMain_fails.2 q e
      ⟨ha.state, ha.pid, ha.main⟩)
  | @runnable c p np x hc hp =>
    have hn : (m.pc p).new = some np := hp.elim (congrArg Point.new) (congrArg Point.new)
    have hu : (m.pc p).unnamed = none :=
      hp.elim (congrArg Point.unnamed) (congrArg Point.unnamed)
    refine h.steady (.release hS hc hn (.inr ⟨hu, ?_⟩) rfl fun q e => ?_)
    · simp [Ptable.setState]
    · rw [Ptable.setState, Ptable.setProc_proc_of_ne e]
      exact ⟨rfl, rfl, rfl⟩
  | exitCleared | exitSleeps | exitThread | exitEnd | threadExit | threadExitEnd | waitReaps
  | waitFails | waitSleeps | joinReaps | joinFails | joinSleeps | exec | killFirst | killThread
  | execEnd => cases he

end PidInv

theorem noGhost_of_ends (he : a.ends = false) : NoGhost m a := by
  intro q hq
  cases a <;> first | cases hq | cases he

theorem pidInv : (creation n).Invariant GivesBack fun m => Sound m ∧ PidInv m where
  init {m} hm := by
    refine ⟨.init hm, ?_⟩
    obtain ⟨ht, -, hp, -⟩ := hm
    obtain ⟨-, hnext, ⟨-, hpid, hmain⟩, ho⟩ := userinit_pinit ht
    have hone : ∀ q, m.Named q → q = 0 := fun q hq => by_contra fun e => hq.1 (by rw [ho q e]; rfl)
    refine ⟨fun q hq => ?_, fun q r hq hr _ => ?_, fun q x hq hx => ?_, fun p _ _ _ _ h => ?_⟩
    · rw [hone q hq, hpid, hnext]
      decide
    · rw [hone q hq, hone r hr]
    · rw [hone q hq, hmain] at hx
      cases hx
    · rw [hp] at h
      cases h
  step {m a m'} h hg hn := by
    obtain ⟨he, hn⟩ := Option.ite_none_left_eq_some.mp hn
    have he : a.ends = false := by simpa using he
    exact ⟨h.1.step (noGhost_of_ends he) (.of_next hn), h.2.step h.1 he hg (.of_next hn)⟩

/-- One is the main thread of the other, or they have the same main thread. -/
def SameGroup (t : Ptable) (q r : Slot) : Prop :=
  q = r ∨ (t.proc q).main = some r ∨ (t.proc r).main = some q ∨
    (t.proc q).main = (t.proc r).main ∧ (t.proc q).main ≠ none

/-- In every run of `fork` and `thread_create` in which `nextpid--` gives back a pid that no process
has, slots with one pid are threads of one process. -/
theorem pid_sameGroup (hm : (creation n).ReachedVia GivesBack m) (hq : Grown m.tab q)
    (hr : Grown m.tab r) (e : (m.tab.proc q).pid = (m.tab.proc r).pid) : SameGroup m.tab q r := by
  obtain ⟨hS, h⟩ := pidInv.of_reached hm
  have hg := h.group q r (hS.named hq) (hS.named hr) e
  rw [group, group] at hg
  unfold SameGroup
  cases hmq : (m.tab.proc q).main <;> cases hmr : (m.tab.proc r).main <;>
    rw [hmq, hmr] at hg <;> simp_all

/-- A child of init makes a thread: both have its pid. -/
theorem pid_sameGroup_thread : ∃ m : State 2, (m.tab.proc 1).state = .RUNNING ∧
    (m.tab.proc 2).state = .RUNNABLE ∧ (m.tab.proc 1).pid = 2 ∧ (m.tab.proc 2).pid = 2 ∧
    SameGroup m.tab 1 2 := by
  obtain ⟨m, hm, hp⟩ := LTS.exists_reachedVia_of_run (M := creation 2) (C := GivesBack)
    (.flatten [[.dispatch 0 0], forkSteps 0, [.dispatch 1 1], threadCreateSteps 1])
    (fun m => (m.tab.proc 1).state = .RUNNING ∧ (m.tab.proc 2).state = .RUNNABLE ∧
      (m.tab.proc 1).pid = 2 ∧ (m.tab.proc 2).pid = 2) (init_boot 2) (by decide +kernel)
    (by decide +kernel)
  simp only [decide_eq_true_eq] at hp
  obtain ⟨h1, h2, p1, p2⟩ := hp
  refine ⟨m, h1, h2, p1, p2, pid_sameGroup hm ?_ ?_ (p1.trans p2.symm)⟩
  · rw [Grown, h1]
    decide
  · rw [Grown, h2]
    decide

/-- While a child of init is in `thread_create`, init makes a process; when the child has given
back the pid of its thread, init makes another process, with the pid of the first. -/
theorem fork_duplicates_pid : ∃ m : State 2, (creation 2).Reached m ∧ Grown m.tab 3 ∧
    Grown m.tab 4 ∧ (m.tab.proc 3).pid = (m.tab.proc 4).pid ∧ ¬ SameGroup m.tab 3 4 := by
  obtain ⟨m, hm, hp⟩ := LTS.exists_reached_of_run (M := creation 2)
    (.flatten [[.dispatch 0 0], forkSteps 0, [.dispatch 1 1, .threadCreate 1, .kalloc 1 true],
      forkSteps 0, [.decNextpid 1], forkSteps 0])
    (fun m => (m.tab.proc 3).state = .RUNNABLE ∧ (m.tab.proc 4).state = .RUNNABLE ∧
      (m.tab.proc 3).pid = (m.tab.proc 4).pid ∧ (m.tab.proc 3).main = none ∧
      (m.tab.proc 4).main = none) (init_boot 2) (by decide +kernel)
  simp only [decide_eq_true_eq] at hp
  obtain ⟨h3, h4, e, m3, m4⟩ := hp
  refine ⟨m, hm, ?_, ?_, e, ?_⟩
  · rw [Grown, h3]
    decide
  · rw [Grown, h4]
    decide
  · rw [SameGroup, m3, m4]
    decide

end Xv6.Interleave
