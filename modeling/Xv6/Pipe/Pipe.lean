import Xv6.Lib.RingBuffer
import Xv6.Lib.Transition

/-! # Pipes

`pipe.c` for the processes of a type `ι`. A process with `p->lock` runs on in steps of one byte, so
that `kill`, which does not take that lock, may come between any two of them. Sleeping on a counter
of the pipe and being woken are steps of the process table; which processes have an end open is left
to `file.c`, and `pipeclose` may be called by any process that is not in a call itself.

`stored` and `taken` are history variables: the bytes that the calls of `pipewrite` have stored and
that those of `piperead` have taken, in this order. -/

namespace Xv6

def PIPESIZE : Nat := 512

/-- `struct pipe`, without its lock. -/
structure Pipe extends RingBuffer 32 PIPESIZE UInt8 where
  readopen : Bool
  writeopen : Bool

namespace Pipe

/-- The channels `&p->nread` and `&p->nwrite`. -/
inductive Chan
  | nread
  | nwrite
  deriving DecidableEq, Repr

/-- Where a process is. -/
inductive Pc
  | user
  /-- In `pipewrite` with `i` bytes of `addr` stored, before it has `p->lock`. -/
  | write (addr : List UInt8) (i : Nat)
  /-- At the head of the loop of `pipewrite`, with `p->lock`. -/
  | writing (addr : List UInt8) (i : Nat)
  /-- Past the tests for a full buffer, with `p->lock`. -/
  | full (addr : List UInt8) (i : Nat)
  /-- In `piperead`, before it has `p->lock`. -/
  | read (n : Nat)
  /-- At the head of the first loop of `piperead`, with `p->lock`. -/
  | reading (n : Nat)
  /-- Past the tests for an empty buffer, with `p->lock`. -/
  | empty (n : Nat)
  /-- In the second loop of `piperead` with `i` bytes taken, with `p->lock`. -/
  | copying (n i : Nat)
  deriving DecidableEq, Repr

/-- What `proc.c` has of a process. -/
structure Proc where
  pc : Pc
  /-- `p->chan` of a process that is `SLEEPING`. -/
  asleep : Option Chan
  killed : Bool
  /-- What its last call has returned. -/
  ret : Int

structure State (ι : Type) where
  pipe : Pipe
  /-- The process that holds `p->lock`. -/
  lock : Option ι
  proc : ι → Proc
  stored : List UInt8
  taken : List UInt8

inductive Act (ι : Type)
  | pipewrite (p : ι) (addr : List UInt8)
  | piperead (p : ι) (n : Nat)
  | pipeclose (p : ι) (writable : Bool)
  | kill (p : ι)
  /-- The process goes on with its call. -/
  | step (p : ι)

namespace State

variable {ι : Type} [DecidableEq ι]

def setProc (s : State ι) (p : ι) (v : Proc) : State ι :=
  { s with proc := Function.update s.proc p v }

@[simp] theorem setProc_proc_self (s : State ι) (p : ι) (v : Proc) : (s.setProc p v).proc p = v :=
  Function.update_self ..

theorem setProc_proc_of_ne {s : State ι} {p q : ι} {v : Proc} (h : q ≠ p) :
    (s.setProc p v).proc q = s.proc q := Function.update_of_ne h ..

def goto (s : State ι) (p : ι) (pc : Pc) : State ι := s.setProc p { s.proc p with pc := pc }

def wakeup (s : State ι) (chan : Chan) : State ι :=
  { s with proc := fun p =>
      if (s.proc p).asleep = some chan then { s.proc p with asleep := none } else s.proc p }

/-- `sleep(chan, &p->lock)`, up to the point at which the process has been woken. -/
def sleep (s : State ι) (p : ι) (chan : Chan) (pc : Pc) : State ι :=
  { s.setProc p { s.proc p with pc := pc, asleep := some chan } with lock := none }

/-- `acquire(&p->lock)`, for a process that is not asleep. -/
def acquire (s : State ι) (p : ι) (pc : Pc) : Option (State ι) :=
  if (s.proc p).asleep = none ∧ s.lock = none then some { s.goto p pc with lock := some p }
  else none

/-- `release(&p->lock)` and `return ret`. -/
def leave (s : State ι) (p : ι) (ret : Int) : State ι :=
  { s.setProc p { s.proc p with pc := .user, ret := ret } with lock := none }

/-- `p->data[p->nwrite++ % PIPESIZE] = b`. -/
def store (s : State ι) (b : UInt8) : State ι :=
  { s with
    pipe := { s.pipe with toRingBuffer := s.pipe.push b }
    stored := s.stored ++ [b] }

/-- The byte `p->data[p->nread++ % PIPESIZE]` goes to the reader. -/
def take (s : State ι) : State ι :=
  { s with
    pipe := { s.pipe with toRingBuffer := s.pipe.pop }
    taken := s.taken ++ [s.pipe.front] }

def step (s : State ι) (p : ι) : Option (State ι) :=
  match (s.proc p).pc with
  | .user => none
  | .write addr i => s.acquire p (.writing addr i)
  | .writing addr i =>
    match addr[i]? with
    | none => some ((s.wakeup .nread).leave p addr.length)
    | some b =>
      if s.pipe.Full then
        if s.pipe.readopen = false ∨ (s.proc p).killed = true then some (s.leave p (-1))
        else some (s.goto p (.full addr i))
      else some ((s.store b).goto p (.writing addr (i + 1)))
  | .full addr i => some ((s.wakeup .nread).sleep p .nwrite (.write addr i))
  | .read n => s.acquire p (.reading n)
  | .reading n =>
    if s.pipe.Empty ∧ s.pipe.writeopen = true then
      if (s.proc p).killed = true then some (s.leave p (-1)) else some (s.goto p (.empty n))
    else some (s.goto p (.copying n 0))
  | .empty n => some (s.sleep p .nread (.read n))
  | .copying n i =>
    if i < n ∧ ¬ s.pipe.Empty then some (s.take.goto p (.copying n (i + 1)))
    else some ((s.wakeup .nwrite).leave p i)

/-- `pipeclose`, from `acquire(&p->lock)` to `release(&p->lock)`. -/
def pipeclose (s : State ι) (writable : Bool) : State ι :=
  if writable then { s with pipe := { s.pipe with writeopen := false } }.wakeup .nread
  else { s with pipe := { s.pipe with readopen := false } }.wakeup .nwrite

def next (s : State ι) : Act ι → Option (State ι)
  | .pipewrite p addr => if (s.proc p).pc = .user then some (s.goto p (.write addr 0)) else none
  | .piperead p n => if (s.proc p).pc = .user then some (s.goto p (.read n)) else none
  | .pipeclose p writable =>
    if (s.proc p).pc = .user ∧ s.lock = none then some (s.pipeclose writable) else none
  | .kill p => some (s.setProc p { s.proc p with killed := true, asleep := none })
  | .step p => s.step p

/-- The pipe that `pipealloc` makes, with whatever the page held before. -/
def pipealloc (data : Nat → UInt8) : State ι where
  pipe := ⟨⟨data, 0, 0⟩, true, true⟩
  lock := none
  proc _ := ⟨.user, none, false, 0⟩
  stored := []
  taken := []

end State

/-- A pipe from its creation on. -/
def pipes (ι : Type) [DecidableEq ι] : LTS (State ι) (Act ι) where
  init s := ∃ data, s = .pipealloc data
  next := State.next

end Pipe

end Xv6
