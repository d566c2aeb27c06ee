import Mathlib.Logic.Function.Basic
import Xv6.Basic
import Xv6.Lib.Ownership

/-! # The process table of the kernel with threads

The data and the operations of `proc.c`, and what `exec.c` does to the table. A thread is a slot
of its own with the `pid` and the `pgdir` of its main thread. Each operation is one section of the
source between two points at which the process gives up the CPU, with `ptable.lock` held or not;
what depends on free memory (`kalloc`, `copyuvm`, `allocuvm`, the loading of a program) is an
argument. Open files and current directories are not part of the table here, and an overflow of
the signed counters `nextpid` and `nexttid`, which C leaves undefined, is not modelled. -/

namespace Xv6.Thread

/-- The page directories in the order in which `setupkvm` makes them. -/
abbrev Pgdir := Nat

/-- Where a process goes on when it is dispatched. -/
inductive Context
  /-- In user code, or in a call that only slept on the way. -/
  | user
  | wait
  | threadJoin (tid : Int)
  /-- In `clear_subthreads`, called by `exit`. -/
  | exit
  deriving DecidableEq, Repr

/-- The fields of `struct proc` that the operations below read. -/
structure Proc where
  state : ProcState
  pid : Int
  tid : Int
  main : Option Slot
  parent : Option Slot
  chan : Option Chan
  killed : Bool
  pgdir : Option Pgdir
  sz : UInt32
  retval : UInt32
  context : Context
  deriving DecidableEq, Repr

/-- The globals of `proc.c`, and the page directories made and passed to `freevm`. -/
structure Globals where
  initproc : Option Slot
  nextpid : Int
  nexttid : Int
  vm : Ownership.Heap
  deriving DecidableEq, Repr

structure Ptable extends Globals where
  proc : Slot → Proc

def PGSIZE : UInt32 := 4096

def Proc.zero : Proc := ⟨.UNUSED, 0, 0, none, none, none, false, none, 0, 0, .user⟩

/-- `pinit` on zeroed memory. -/
def pinit : Ptable where
  initproc := none
  nextpid := 1
  nexttid := 1
  vm := ⟨0, []⟩
  proc _ := .zero

namespace Ptable

def setProc (t : Ptable) (p : Slot) (v : Proc) : Ptable :=
  { t with proc := Function.update t.proc p v }

def setState (t : Ptable) (p : Slot) (s : ProcState) : Ptable :=
  t.setProc p { t.proc p with state := s }

section
variable (t : Ptable) (p : Slot) (v : Proc)

@[simp] theorem setProc_proc_self : (t.setProc p v).proc p = v := Function.update_self ..
@[simp] theorem setProc_toGlobals : (t.setProc p v).toGlobals = t.toGlobals := rfl

end

theorem setProc_proc_of_ne {t : Ptable} {p q : Slot} {v : Proc} (h : q ≠ p) :
    (t.setProc p v).proc q = t.proc q := Function.update_of_ne h ..

/-- What holds of the new entry and of the other slots holds of every slot. -/
theorem forall_setProc {t : Ptable} {p : Slot} {v : Proc} {P : Slot → Proc → Prop}
    (hp : P p v) (ho : ∀ q, q ≠ p → P q (t.proc q)) (q : Slot) : P q ((t.setProc p v).proc q) := by
  by_cases hq : q = p
  · rw [hq, setProc_proc_self]; exact hp
  · rw [setProc_proc_of_ne hq]; exact ho q hq

def InUse (t : Ptable) (p : Slot) : Prop := (t.proc p).state ≠ .UNUSED

instance (t : Ptable) (p : Slot) : Decidable (t.InUse p) := inferInstanceAs (Decidable (_ ≠ _))

/-- No other slot in use has the pid of `p`. -/
def Alone (t : Ptable) (p : Slot) : Prop :=
  ∀ q, q ≠ p → t.InUse q → (t.proc q).pid ≠ (t.proc p).pid

end Ptable

/-- The states of a process that may run in its address space. -/
def Live (s : ProcState) : Prop := s = .SLEEPING ∨ s = .RUNNABLE ∨ s = .RUNNING

instance (s : ProcState) : Decidable (Live s) := inferInstanceAs (Decidable (_ ∨ _))

def setupkvm (t : Ptable) : Pgdir × Ptable := (t.vm.next, { t with vm := t.vm.alloc })

/-- `freevm`; `none` is `panic("freevm: no pgdir")`. -/
def freevm (t : Ptable) : Option Pgdir → Option Ptable
  | none => none
  | some g => some { t with vm := t.vm.free g }

/-! ## Creation -/

/-- `allocproc`, where `kalloc` tells whether there is a page for the kernel stack. -/
def allocproc (t : Ptable) (kalloc : Bool) : Option Slot × Ptable :=
  match slots.find? fun p => (t.proc p).state = .UNUSED with
  | none => (none, t)
  | some p =>
    let t := { t.setProc p { t.proc p with
                 state := .EMBRYO, pid := t.nextpid, tid := 0, main := none, context := .user } with
               nextpid := t.nextpid + 1 }
    if kalloc then (some p, t) else (none, t.setState p .UNUSED)

/-- `userinit`, which panics without memory. -/
def userinit (t : Ptable) : Option Ptable :=
  match allocproc t true with
  | (none, _) => none
  | (some p, t) =>
    let (pgdir, t) := setupkvm { t with initproc := some p }
    some (t.setProc p { t.proc p with pgdir := some pgdir, sz := PGSIZE, state := .RUNNABLE })

def fork (t : Ptable) (curproc : Slot) (kalloc copyuvm : Bool) : Int × Ptable :=
  match allocproc t kalloc with
  | (none, t) => (-1, t)
  | (some np, t) =>
    if copyuvm then
      let (pgdir, t) := setupkvm t
      let parent := if (t.proc np).tid ≠ 0 then (t.proc curproc).main else some curproc
      ((t.proc np).pid, t.setProc np { t.proc np with
        pgdir := some pgdir, sz := (t.proc curproc).sz, parent := parent, state := .RUNNABLE })
    else (-1, t.setProc np { t.proc np with pgdir := none, state := .UNUSED })

/-- What `thread_create` stores through its argument, what it returns, and the table. -/
structure Created where
  thread : Option Int
  ret : Int
  tab : Ptable

/-- `thread_create` after the slot `np` has been allocated. -/
def threadInit (t : Ptable) (main np : Slot) (allocuvm : Bool) : Created :=
  let tid := t.nexttid
  let t := { t with nextpid := t.nextpid - 1, nexttid := tid + 1 }
  let t := t.setProc np { t.proc np with
    tid := tid, main := some main, parent := some main, pid := (t.proc main).pid }
  let t := t.setProc main { t.proc main with sz := (t.proc main).sz + 2 * PGSIZE }
  if allocuvm then
    ⟨some tid, 0, t.setProc np { t.proc np with
      pgdir := (t.proc main).pgdir, sz := (t.proc main).sz, state := .RUNNABLE }⟩
  else ⟨some tid, -1, t.setState np .UNUSED⟩

def threadCreate (t : Ptable) (curproc : Slot) (kalloc allocuvm : Bool) : Created :=
  let main := (t.proc curproc).main.getD curproc
  match allocproc t kalloc with
  | (none, t) => ⟨none, -1, t⟩
  | (some np, t) => threadInit t main np allocuvm

/-! ## Sleeping and waking -/

def wakeupOne (chan : Option Chan) (t : Ptable) (p : Slot) : Ptable :=
  if (t.proc p).state = .SLEEPING ∧ (t.proc p).chan = chan then t.setState p .RUNNABLE else t

def wakeup1 (t : Ptable) (chan : Option Chan) : Ptable := slots.foldl (wakeupOne chan) t

/-- `sleep` up to `sched`; it will return into `context`. -/
def sleep (t : Ptable) (p : Slot) (chan : Option Chan) (context : Context) : Ptable :=
  t.setProc p { t.proc p with chan := chan, state := .SLEEPING, context := context }

def yield (t : Ptable) (p : Slot) : Ptable := t.setState p .RUNNABLE

def kill (t : Ptable) (pid : Int) : Ptable :=
  match slots.find? fun p => (t.proc p).pid = pid with
  | some p => t.setProc p { t.proc p with
      killed := true
      state := if (t.proc p).state = .SLEEPING then .RUNNABLE else (t.proc p).state }
  | none => t

/-- The assignments of `scheduler` before `swtch` to `p`, and that of `sleep` after it. -/
def dispatch (t : Ptable) (p : Slot) : Ptable :=
  t.setProc p { t.proc p with state := .RUNNING, chan := none }

/-! ## Exit -/

def threadClear (t : Ptable) (p : Slot) : Ptable :=
  t.setProc p { t.proc p with
    pid := 0, tid := 0, main := none, parent := none, killed := false, state := .UNUSED }

/-- One iteration of the loop that passes the children of `p` to init. -/
def reparentOne (p : Slot) (t : Ptable) (q : Slot) : Ptable :=
  if (t.proc q).parent = some p then
    let t := t.setProc q { t.proc q with parent := t.initproc }
    if (t.proc q).state = .ZOMBIE then wakeup1 t (t.initproc.map .proc) else t
  else t

def reparent (t : Ptable) (p : Slot) : Ptable := slots.foldl (reparentOne p) t

/-- One iteration of the scan of `clear_subthreads`, with the counter `havethreads`. -/
def clearOne (curproc : Slot) (s : Nat × Ptable) (p : Slot) : Nat × Ptable :=
  let (havethreads, t) := s
  if (t.proc p).pid ≠ (t.proc curproc).pid ∨ p = curproc then (havethreads, t)
  else if (t.proc p).state = .ZOMBIE then (havethreads, threadClear t p)
  else (havethreads + 1, wakeup1 (t.setProc p { t.proc p with killed := true }) (some (.proc p)))

/-- One pass of `clear_subthreads`. -/
def clearSubthreads (t : Ptable) (curproc : Slot) : Nat × Ptable :=
  slots.foldl (clearOne curproc) (0, t)

/-- `exit` after `clear_subthreads`, up to `sched`. -/
def exitRest (t : Ptable) (curproc : Slot) : Ptable :=
  let t := match (t.proc curproc).main with
    | none => wakeup1 t ((t.proc curproc).parent.map .proc)
    | some m => wakeup1 (t.setProc m { t.proc m with killed := true }) (some (.proc m))
  (reparent t curproc).setState curproc .ZOMBIE

/-- `exit` up to its next `sched`, which is in `clear_subthreads` while there are threads. -/
def exit (t : Ptable) (curproc : Slot) : Ptable :=
  if (t.proc curproc).tid = 0 then
    match clearSubthreads t curproc with
    | (0, t) => exitRest t curproc
    | (_ + 1, t) => sleep t curproc (some (.proc curproc)) .exit
  else exitRest t curproc

/-- `thread_exit` up to `sched`. -/
def threadExit (t : Ptable) (curproc : Slot) (retval : UInt32) : Ptable :=
  let t := t.setProc curproc { t.proc curproc with retval := retval }
  (wakeup1 t ((t.proc curproc).main.map .proc)).setState curproc .ZOMBIE

/-! ## Waiting -/

/-- A call that returns a value or goes to sleep. -/
inductive Outcome (α : Type)
  | returns (r : α) (t : Ptable)
  | sleeps (t : Ptable)

def reap (t : Ptable) (p : Slot) : Option Ptable :=
  (freevm t (t.proc p).pgdir).map fun t =>
    t.setProc p { t.proc p with pid := 0, parent := none, killed := false, state := .UNUSED }

/-- One pass of `wait`; `none` is a panic in `freevm`. -/
def wait (t : Ptable) (curproc : Slot) : Option (Outcome Int) :=
  match slots.find? fun p => (t.proc p).parent = some curproc ∧ (t.proc p).state = .ZOMBIE with
  | some p => (reap t p).map (.returns (t.proc p).pid)
  | none =>
    if ¬ (∃ p ∈ slots, (t.proc p).parent = some curproc) ∨ (t.proc curproc).killed then
      some (.returns (-1) t)
    else some (.sleeps (sleep t curproc (some (.proc curproc)) .wait))

/-- One pass of `thread_join`, with what it stores through `retval` and its return value. -/
def threadJoin (t : Ptable) (curproc : Slot) (thread : Int) : Outcome (Option UInt32 × Int) :=
  match slots.find? fun p => (t.proc p).tid = thread ∧ (t.proc p).state = .ZOMBIE with
  | some p => .returns (some (t.proc p).retval, 0) (threadClear t p)
  | none =>
    if ¬ (∃ p ∈ slots, (t.proc p).tid = thread) ∨ (t.proc curproc).killed then
      .returns (none, -1) t
    else .sleeps (sleep t curproc (some (.proc curproc)) (.threadJoin thread))

/-! ## `exec` -/

/-- A thread that calls `exec` takes the place of its main thread. -/
def detach (t : Ptable) (p : Slot) : Ptable :=
  if (t.proc p).tid ≠ 0 then
    t.setProc p { t.proc p with
      tid := 0, parent := (t.proc p).main.bind fun m => (t.proc m).parent, main := none }
  else t

def killOne (pid : Int) (cp : Slot) (t : Ptable) (p : Slot) : Ptable :=
  if (t.proc p).pid ≠ pid ∨ p = cp then t else threadClear (reparent t p) p

def killThreadsExcept (t : Ptable) (pid : Int) (cp : Slot) : Ptable :=
  slots.foldl (killOne pid cp) t

/-- How `exec` ends. -/
inductive ExecEnd
  /-- It fails before `setupkvm`. -/
  | early
  /-- It fails after `setupkvm`. -/
  | bad
  /-- It succeeds with a program of size `sz`. -/
  | ok (sz : UInt32)
  deriving DecidableEq, Repr

/-- `exec` after `kill_threads_except`; `none` is a panic in `freevm`. -/
def execLoad (t : Ptable) (curproc : Slot) : ExecEnd → Option (Int × Ptable)
  | .early => some (-1, t)
  | .bad =>
    let (pgdir, t) := setupkvm t
    (freevm t (some pgdir)).map fun t => (-1, t)
  | .ok sz =>
    let (pgdir, t) := setupkvm t
    let oldpgdir := (t.proc curproc).pgdir
    let t := t.setProc curproc { t.proc curproc with pgdir := some pgdir, sz := sz }
    (freevm t oldpgdir).map fun t => (0, t)

def exec (t : Ptable) (curproc : Slot) (e : ExecEnd) : Option (Int × Ptable) :=
  let t := detach t curproc
  execLoad (killThreadsExcept t (t.proc curproc).pid curproc) curproc e

end Xv6.Thread
