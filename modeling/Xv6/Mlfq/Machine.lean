import Xv6.Lib.Transition
import Xv6.Mlfq.Search

/-! # The MLFQ kernel on several CPUs

The states and steps of the MLFQ kernel with `n` CPUs. A step is a section of the source that
holds `ptable.lock`; sections of different CPUs and processes interleave in any order. The
search of `scheduler` is split into its iterations: from `acquire` to a dispatch or to `release`
its CPU is the `holder` of the lock, and no other section runs. A process that enters `sched`
leaves the lock to the scheduler of its CPU, which goes on from the slot after the one it last
dispatched. -/

namespace Xv6.Mlfq

/-- What the scheduler of a CPU keeps: `c->proc`, and where its loops continue. -/
structure Cpu where
  proc : Option Slot
  pos : Pos
  deriving DecidableEq, Repr

structure Machine (n : Nat) where
  tab : Ptable
  cpu : Fin n → Cpu
  /-- The CPU whose scheduler holds `ptable.lock`. -/
  holder : Option (Fin n)

/-- The steps. Those of the process running on a CPU name the CPU. -/
inductive Act (n : Nat)
  | userinit
  | acquire (c : Fin n)
  | search (c : Fin n)
  | allocproc (c : Fin n)
  | forkFail (np : Slot)
  | forkDone (c : Fin n) (np : Slot)
  | exit (c : Fin n)
  | wait (c : Fin n)
  | sleep (c : Fin n) (chan : Option Chan)
  | yield (c : Fin n)
  | wakeup (chan : Option Chan)
  | kill (pid : Int)
  | setpriority (c : Fin n) (pid priority : Int)
  | rst (c : Fin n)
  | degrade (c : Fin n)
  | boost

namespace Machine

variable {n : Nat}

/-- After `pinit`, before `userinit`. -/
def boot : Machine n where
  tab := pinit
  cpu _ := ⟨none, schbegin⟩
  holder := none

def setTab (m : Machine n) (t : Ptable) : Machine n := { m with tab := t }

/-- `sched`: the process on `c` has changed its state to that in `t` and gives up the CPU; the
scheduler of `c` holds the lock and goes on. -/
def sched (m : Machine n) (c : Fin n) (t : Ptable) : Machine n :=
  { tab := t
    cpu := Function.update m.cpu c { m.cpu c with proc := none }
    holder := some c }

/-- `swtch` to `p`. The process releases the lock, `sleep` after clearing `p->chan`. -/
def swtch (m : Machine n) (c : Fin n) (p : Slot) : Machine n :=
  let t := dispatch m.tab p
  { tab := t.setProc p { t.proc p with chan := none }
    cpu := Function.update m.cpu c ⟨some p, ⟨(m.cpu c).pos.level, (m.cpu c).pos.idx + 1⟩⟩
    holder := none }

/-- One iteration of the search of the scheduler of `c`. -/
def searchStep (K : Nat) (m : Machine n) (c : Fin n) : Machine n :=
  match search K m.tab (m.cpu c).pos with
  | .next pos => { m with cpu := Function.update m.cpu c ⟨none, pos⟩ }
  | .done (.dispatch p) => m.swtch c p
  | .done .release => { m with holder := none }

/-- The steps that acquire the lock. -/
def locked (K : Nat) (m : Machine n) : Act n → Option (Machine n)
  | .userinit => if m.tab.initproc = none then (Mlfq.userinit m.tab).map m.setTab else none
  | .acquire c =>
    if (m.cpu c).proc = none then
      some { m with cpu := Function.update m.cpu c ⟨none, schbegin⟩, holder := some c }
    else none
  | .search _ => none
  | .allocproc c => (m.cpu c).proc.bind fun _ => (Mlfq.allocproc m.tab).map fun r => m.setTab r.2
  | .forkFail np =>
    if (m.tab.proc np).state = .EMBRYO then some (m.setTab (freeEmbryo m.tab np)) else none
  | .forkDone c np => (m.cpu c).proc.bind fun p =>
    if (m.tab.proc np).state = .EMBRYO then some (m.setTab (Mlfq.forkDone m.tab p np)) else none
  | .exit c => (m.cpu c).proc.bind fun p =>
    if m.tab.initproc = some p then none else some (m.sched c (Mlfq.exit m.tab p))
  | .wait c => (m.cpu c).proc.map fun p =>
    match Mlfq.wait m.tab p with
    | .reaped _ t => m.setTab t
    | .noChildren => m
    | .sleeps t => m.sched c t
  | .sleep c chan => (m.cpu c).proc.map fun p => m.sched c (Mlfq.sleep m.tab p chan)
  | .yield c => (m.cpu c).proc.map fun p => m.sched c (Mlfq.yield m.tab p)
  | .wakeup chan => some (m.setTab (wakeup1 m.tab chan))
  | .kill pid => some (m.setTab (Mlfq.kill m.tab pid))
  | .setpriority c pid priority => (m.cpu c).proc.map fun p =>
    m.setTab (Mlfq.setpriority m.tab p pid priority).2
  | .rst c => (m.cpu c).proc.map fun p => m.setTab (Mlfq.rst m.tab p)
  | .degrade c => (Mlfq.degrade K m.tab (m.cpu c).proc).map m.setTab
  | .boost => some (m.setTab (Mlfq.boost m.tab))

/-- The search iterates while its CPU holds the lock; every other step needs the lock free. -/
def next (K : Nat) (m : Machine n) : Act n → Option (Machine n)
  | .search c => if m.holder = some c then some (m.searchStep K c) else none
  | a => if m.holder = none then m.locked K a else none

end Machine

/-- The three ways in which a pass of `wait` ends. -/
theorem wait_cases (t : Ptable) (p : Slot) :
    (∃ q, (t.proc q).state = .ZOMBIE ∧ wait t p = .reaped (t.proc q).pid (reap t q)) ∨
      wait t p = .noChildren ∨ wait t p = .sleeps (sleep t p (some (.proc p))) := by
  unfold wait
  split
  · next q hq =>
    have hz := (find_slots_eq_some.mp hq).1
    simp only [decide_eq_true_eq] at hz
    exact .inl ⟨q, hz.2, rfl⟩
  · split
    · exact .inr (.inl rfl)
    · exact .inr (.inr rfl)

/-- The branches of the steps that acquire the lock. -/
inductive Machine.Step (K : Nat) (m : Machine n) : Act n → Machine n → Prop
  | userinit (hu : Mlfq.userinit m.tab = some u) : Step K m .userinit (m.setTab u)
  | acquire (hc : (m.cpu c).proc = none) : Step K m (.acquire c)
      { m with cpu := Function.update m.cpu c ⟨none, schbegin⟩, holder := some c }
  | allocproc (hu : Mlfq.allocproc m.tab = some (p, u)) : Step K m (.allocproc c) (m.setTab u)
  | forkFail (hp : (m.tab.proc np).state = .EMBRYO) :
    Step K m (.forkFail np) (m.setTab (freeEmbryo m.tab np))
  | forkDone (hp : (m.tab.proc np).state = .EMBRYO) :
    Step K m (.forkDone c np) (m.setTab (Mlfq.forkDone m.tab p np))
  | exit (hc : (m.cpu c).proc = some p) : Step K m (.exit c) (m.sched c (Mlfq.exit m.tab p))
  | reap (hz : (m.tab.proc q).state = .ZOMBIE) : Step K m (.wait c) (m.setTab (Mlfq.reap m.tab q))
  | noChildren : Step K m (.wait c) m
  | waitSleeps (hc : (m.cpu c).proc = some p) :
    Step K m (.wait c) (m.sched c (Mlfq.sleep m.tab p (some (.proc p))))
  | sleep (hc : (m.cpu c).proc = some p) :
    Step K m (.sleep c chan) (m.sched c (Mlfq.sleep m.tab p chan))
  | yield (hc : (m.cpu c).proc = some p) : Step K m (.yield c) (m.sched c (Mlfq.yield m.tab p))
  | wakeup : Step K m (.wakeup chan) (m.setTab (wakeup1 m.tab chan))
  | kill : Step K m (.kill pid) (m.setTab (Mlfq.kill m.tab pid))
  | setpriority : Step K m (.setpriority c pid priority)
      (m.setTab (Mlfq.setpriority m.tab p pid priority).2)
  | rst (hc : (m.cpu c).proc = some p) : Step K m (.rst c) (m.setTab (Mlfq.rst m.tab p))
  | degrade (hu : Mlfq.degrade K m.tab (m.cpu c).proc = some u) :
    Step K m (.degrade c) (m.setTab u)
  | boost : Step K m .boost (m.setTab (Mlfq.boost m.tab))

theorem Machine.Step.of_locked {m : Machine n} (h : m.locked K a = some m') : m.Step K a m' := by
  cases a <;> simp only [Machine.locked, Option.bind_eq_some_iff, Option.map_eq_some_iff,
    Option.ite_none_right_eq_some, Option.ite_none_left_eq_some, Option.some.injEq,
    reduceCtorEq] at h
  case userinit =>
    obtain ⟨-, u, hu, rfl⟩ := h
    exact .userinit hu
  case acquire c =>
    obtain ⟨hc, rfl⟩ := h
    exact .acquire hc
  case allocproc c =>
    obtain ⟨_, -, ⟨p, u⟩, hu, rfl⟩ := h
    exact .allocproc hu
  case forkFail np =>
    obtain ⟨hp, rfl⟩ := h
    exact .forkFail hp
  case forkDone c np =>
    obtain ⟨p, -, hp, rfl⟩ := h
    exact .forkDone hp
  case exit c =>
    obtain ⟨p, hc, -, rfl⟩ := h
    exact .exit hc
  case wait c =>
    obtain ⟨p, hc, rfl⟩ := h
    rcases wait_cases m.tab p with ⟨q, hz, e⟩ | e | e <;> rw [e]
    · exact .reap hz
    · exact .noChildren
    · exact .waitSleeps hc
  case sleep c chan =>
    obtain ⟨p, hc, rfl⟩ := h
    exact .sleep hc
  case yield c =>
    obtain ⟨p, hc, rfl⟩ := h
    exact .yield hc
  case setpriority c pid priority =>
    obtain ⟨p, -, rfl⟩ := h
    exact .setpriority
  case rst c =>
    obtain ⟨p, hc, rfl⟩ := h
    exact .rst hc
  case degrade c =>
    obtain ⟨u, hu, rfl⟩ := h
    exact .degrade hu
  case wakeup => exact h ▸ .wakeup
  case kill => exact h ▸ .kill
  case boost => exact h ▸ .boost

/-- The MLFQ kernel with `MLFQ_K = K` on `n` CPUs. -/
def kernel (K n : Nat) : LTS (Machine n) (Act n) where
  init m := m = .boot
  next := Machine.next K

end Xv6.Mlfq
