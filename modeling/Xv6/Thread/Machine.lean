import Xv6.Lib.Transition
import Xv6.Thread.Ptable

/-! # The kernel with threads on several CPUs

The state is the process table and the process on each of `n` CPUs. A step is one operation of the
table made by the process on a CPU, by an interrupt (`wakeup`) or by a scheduler. The scan of
`scheduler` may have come to any slot when it finds a runnable one, so a dispatch may choose any
of them. A process that sleeps in `wait`, `thread_join` or `exit` makes the same call again when it
is dispatched; the other steps are open to a process in user code.

`exec` clears the slots of the other threads without regard to where they run: one that is on
another CPU stays there, with its slot free. -/

namespace Xv6.Thread

structure Machine (n : Nat) where
  tab : Ptable
  /-- `cpus[c].proc`. -/
  cpu : Fin n → Option Slot

inductive Act (n : Nat)
  | dispatch (c : Fin n) (p : Slot)
  | yield (c : Fin n)
  | sleep (c : Fin n) (chan : Option Chan)
  | wakeup (chan : Option Chan)
  | kill (pid : Int)
  | fork (c : Fin n) (kalloc copyuvm : Bool)
  | threadCreate (c : Fin n) (kalloc allocuvm : Bool)
  | threadExit (c : Fin n) (retval : UInt32)
  | exit (c : Fin n)
  | wait (c : Fin n)
  | threadJoin (c : Fin n) (thread : Int)
  | exec (c : Fin n) (e : ExecEnd)

namespace Machine

variable {n : Nat}

def setTab (m : Machine n) (t : Ptable) : Machine n := { m with tab := t }

/-- `sched`: the process on `c` gives up the CPU. -/
def sched (m : Machine n) (c : Fin n) (t : Ptable) : Machine n :=
  ⟨t, Function.update m.cpu c none⟩

/-- The process on `c`, if it can be in the call `k`, and the table when it is. -/
def enter (m : Machine n) (c : Fin n) (k : Context) : Option (Slot × Ptable) :=
  (m.cpu c).bind fun p =>
    if (m.tab.proc p).context = .user ∨ (m.tab.proc p).context = k then
      some (p, m.tab.setProc p { m.tab.proc p with context := .user })
    else none

/-- The state after a call that may sleep. -/
def after {α : Type} (m : Machine n) (c : Fin n) : Outcome α → Machine n
  | .returns _ t => m.setTab t
  | .sleeps t => m.sched c t

def next (m : Machine n) : Act n → Option (Machine n)
  | .dispatch c p =>
    if m.cpu c = none ∧ (m.tab.proc p).state = .RUNNABLE then
      some ⟨Thread.dispatch m.tab p, Function.update m.cpu c (some p)⟩
    else none
  | .yield c => (m.enter c .user).map fun (p, t) => m.sched c (Thread.yield t p)
  | .sleep c chan => (m.enter c .user).map fun (p, t) => m.sched c (Thread.sleep t p chan .user)
  | .wakeup chan => some (m.setTab (wakeup1 m.tab chan))
  | .kill pid => some (m.setTab (Thread.kill m.tab pid))
  | .fork c kalloc copyuvm => (m.enter c .user).map fun (p, t) =>
    m.setTab (Thread.fork t p kalloc copyuvm).2
  | .threadCreate c kalloc allocuvm => (m.enter c .user).map fun (p, t) =>
    m.setTab (Thread.threadCreate t p kalloc allocuvm).tab
  | .threadExit c retval => (m.enter c .user).bind fun (p, t) =>
    if t.initproc = some p then none else some (m.sched c (Thread.threadExit t p retval))
  | .exit c => (m.enter c .exit).bind fun (p, t) =>
    if t.initproc = some p then none else some (m.sched c (Thread.exit t p))
  | .wait c => (m.enter c .wait).bind fun (p, t) => (Thread.wait t p).map (m.after c)
  | .threadJoin c thread => (m.enter c (.threadJoin thread)).map fun (p, t) =>
    m.after c (Thread.threadJoin t p thread)
  | .exec c e => (m.enter c .user).bind fun (p, t) =>
    (Thread.exec t p e).map fun r => m.setTab r.2

end Machine

/-- The kernel with threads on `n` CPUs, from the end of `userinit`. -/
def kernel (n : Nat) : LTS (Machine n) (Act n) where
  init m := userinit pinit = some m.tab ∧ ∀ c, m.cpu c = none
  next := Machine.next

/-- A run from boot that ends in a state passing the test `f`. -/
theorem exists_run (as : List (Act n)) (f : Machine n → Bool)
    (h : ((userinit pinit).bind fun t => (kernel n).run ⟨t, fun _ => none⟩ as).map f = some true) :
    ∃ s m, (kernel n).init s ∧ (kernel n).run s as = some m ∧ f m = true := by
  obtain ⟨m, hb, hf⟩ := Option.map_eq_some_iff.mp h
  obtain ⟨t, ht, hr⟩ := Option.bind_eq_some_iff.mp hb
  exact ⟨⟨t, fun _ => none⟩, m, ⟨ht, fun _ => rfl⟩, hr, hf⟩

end Xv6.Thread
