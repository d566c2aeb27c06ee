import Mathlib.Logic.Function.Basic
import Xv6.Basic
import Xv6.Lib.Loop

/-! # The process table of the MLFQ kernel

The data and the operations of `proc_MLFQ.c`. Each operation below is the part of the source
function that runs with `ptable.lock` held; the calls that a function makes without the lock
(page allocation, file closing) do not touch the table. `K` is `MLFQ_K`. -/

namespace Xv6.Mlfq

/-- The fields of `struct proc` that `proc_MLFQ.c` reads or writes in the table. -/
structure Proc where
  state : ProcState
  pid : Int
  parent : Option Slot
  chan : Option Chan
  killed : Bool
  priority : Int
  level : Nat
  extime : Int
  deriving DecidableEq, Repr

/-- `QT(LEVEL)` of `proc.h`. -/
def QT (level : Nat) : Int := 4 * level + 2

/-- `ptable`, with the globals `initproc` and `nextpid`. -/
structure Ptable where
  proc : Slot → Proc
  heads : Nat → Option Slot
  numproc : Nat → Int
  initproc : Option Slot
  nextpid : Int

def Proc.zero : Proc := ⟨.UNUSED, 0, none, none, false, 0, 0, 0⟩

def pinit : Ptable where
  proc _ := .zero
  heads _ := none
  numproc _ := 0
  initproc := none
  nextpid := 1

namespace Ptable

def setProc (t : Ptable) (p : Slot) (v : Proc) : Ptable :=
  { t with proc := Function.update t.proc p v }

def addNum (t : Ptable) (l : Nat) (d : Int) : Ptable :=
  { t with numproc := Function.update t.numproc l (t.numproc l + d) }

def setHead (t : Ptable) (l : Nat) (h : Option Slot) : Ptable :=
  { t with heads := Function.update t.heads l h }

section
variable (t : Ptable) (p : Slot) (v : Proc) (l : Nat) (d : Int) (h : Option Slot)

theorem setProc_proc : (t.setProc p v).proc = Function.update t.proc p v := rfl
@[simp] theorem setProc_proc_self : (t.setProc p v).proc p = v := Function.update_self ..
@[simp] theorem setProc_heads : (t.setProc p v).heads = t.heads := rfl
@[simp] theorem setProc_numproc : (t.setProc p v).numproc = t.numproc := rfl
@[simp] theorem addNum_proc : (t.addNum l d).proc = t.proc := rfl
@[simp] theorem addNum_heads : (t.addNum l d).heads = t.heads := rfl
@[simp] theorem setHead_proc : (t.setHead l h).proc = t.proc := rfl

end

theorem setProc_proc_of_ne {t : Ptable} {p q : Slot} {v : Proc} (h : q ≠ p) :
    (t.setProc p v).proc q = t.proc q := Function.update_of_ne h ..

/-- What holds of the new entry and of the other slots holds of every slot. -/
theorem forall_setProc {t : Ptable} {p : Slot} {v : Proc} {P : Slot → Proc → Prop}
    (hp : P p v) (ho : ∀ q, q ≠ p → P q (t.proc q)) (q : Slot) : P q ((t.setProc p v).proc q) := by
  by_cases hq : q = p
  · rw [hq, setProc_proc_self]; exact hp
  · rw [setProc_proc_of_ne hq]; exact ho q hq

/-- `p->state = RUNNABLE; ptable.numproc[p->level]++;` -/
def setRunnable (t : Ptable) (p : Slot) : Ptable :=
  (t.setProc p { t.proc p with state := .RUNNABLE }).addNum (t.proc p).level 1

def RunnableAt (t : Ptable) (l : Nat) (p : Slot) : Prop :=
  (t.proc p).state = .RUNNABLE ∧ (t.proc p).level = l

instance (t : Ptable) (l : Nat) (p : Slot) : Decidable (t.RunnableAt l p) :=
  inferInstanceAs (Decidable (_ ∧ _))

end Ptable

/-! ## Creation and exit -/

/-- `allocproc` up to `release`: the first unused slot becomes an embryo at level 0. -/
def allocproc (t : Ptable) : Option (Slot × Ptable) :=
  (slots.find? fun p => (t.proc p).state = .UNUSED).map fun p =>
    (p, { t.setProc p { t.proc p with
            state := .EMBRYO, pid := t.nextpid, priority := 0, extime := 0, level := 0 } with
          nextpid := t.nextpid + 1 })

/-- `p->state = UNUSED` where `allocproc` finds no kernel stack or `fork` no memory. -/
def freeEmbryo (t : Ptable) (p : Slot) : Ptable :=
  t.setProc p { t.proc p with state := .UNUSED }

def userinit (t : Ptable) : Option Ptable :=
  (allocproc t).map fun (p, t) => { t with initproc := some p }.setRunnable p

/-- `fork` after `copyuvm`: the parent is recorded and the child made runnable. -/
def forkDone (t : Ptable) (curproc np : Slot) : Ptable :=
  (t.setProc np { t.proc np with parent := some curproc }).setRunnable np

def wakeupOne (chan : Option Chan) (t : Ptable) (p : Slot) : Ptable :=
  if (t.proc p).state = .SLEEPING ∧ (t.proc p).chan = chan then t.setRunnable p else t

def wakeup1 (t : Ptable) (chan : Option Chan) : Ptable := slots.foldl (wakeupOne chan) t

/-- One iteration of `exit`'s loop that passes abandoned children to init. -/
def reparentOne (curproc : Slot) (t : Ptable) (p : Slot) : Ptable :=
  if (t.proc p).parent = some curproc then
    let t := t.setProc p { t.proc p with parent := t.initproc }
    if (t.proc p).state = .ZOMBIE then wakeup1 t (t.initproc.map .proc) else t
  else t

/-- `exit` from `acquire` to `sched`. -/
def exit (t : Ptable) (curproc : Slot) : Ptable :=
  let t := wakeup1 t ((t.proc curproc).parent.map .proc)
  let t := slots.foldl (reparentOne curproc) t
  t.setProc curproc { t.proc curproc with state := .ZOMBIE }

/-- `sleep` from `p->chan = chan` to `sched`. -/
def sleep (t : Ptable) (p : Slot) (chan : Option Chan) : Ptable :=
  t.setProc p { t.proc p with chan := chan, state := .SLEEPING }

/-- `wait`'s assignments to a child it has found. -/
def reap (t : Ptable) (p : Slot) : Ptable :=
  t.setProc p { t.proc p with pid := 0, parent := none, killed := false, state := .UNUSED }

/-- What one pass of `wait`'s loop does. -/
inductive WaitResult
  | reaped (pid : Int) (t : Ptable)
  | noChildren
  | sleeps (t : Ptable)

/-- One pass of `wait`'s loop: the first zombie child is freed. -/
def wait (t : Ptable) (curproc : Slot) : WaitResult :=
  match slots.find? fun p => (t.proc p).parent = some curproc ∧ (t.proc p).state = .ZOMBIE with
  | some p => .reaped (t.proc p).pid (reap t p)
  | none =>
    if ¬ (∃ p ∈ slots, (t.proc p).parent = some curproc) ∨ (t.proc curproc).killed then .noChildren
    else .sleeps (sleep t curproc (some (.proc curproc)))

/-! ## Levels -/

/-- `level = 0; extime = 0` with the counters moved along, as in `boost` and `rst`. -/
def resetLevel (t : Ptable) (p : Slot) : Ptable :=
  let t := if (t.proc p).state = .RUNNABLE then (t.addNum (t.proc p).level (-1)).addNum 0 1 else t
  t.setProc p { t.proc p with level := 0, extime := 0 }

def rst (t : Ptable) (p : Slot) : Ptable := resetLevel t p

def boostOne (t : Ptable) (p : Slot) : Ptable :=
  if (t.proc p).state ≠ .UNUSED then resetLevel t p else t

def boost (t : Ptable) : Ptable := slots.foldl boostOne t

/-- The branch of `degrade` for a process whose time at its level is used up. -/
def expire (K : Nat) (t : Ptable) (p : Slot) : Ptable :=
  let l := (t.proc p).level
  let t := t.setHead l none
  if l = K - 1 then t.setProc p { t.proc p with extime := -1 }
  else
    let t := if (t.proc p).state = .RUNNABLE then (t.addNum l (-1)).addNum (l + 1) 1 else t
    t.setProc p { t.proc p with extime := 0, level := l + 1 }

/-- `degrade` with `myproc()` given; `none` is `panic("degrade")`. -/
def degrade (K : Nat) (t : Ptable) : Option Slot → Option Ptable
  | none => some t
  | some p =>
    let t := t.setProc p { t.proc p with extime := (t.proc p).extime + 1 }
    if t.heads (t.proc p).level ≠ some p then none
    else if (t.proc p).extime ≥ QT (t.proc p).level then some (expire K t p)
    else some t

/-- `yield` up to `sched`. -/
def yield (t : Ptable) (p : Slot) : Ptable := t.setRunnable p

def kill (t : Ptable) (pid : Int) : Ptable :=
  match slots.find? fun p => (t.proc p).pid = pid with
  | some p =>
    let t := t.setProc p { t.proc p with killed := true }
    if (t.proc p).state = .SLEEPING then t.setRunnable p else t
  | none => t

/-- `setpriority` called by `curproc`, with its return value. -/
def setpriority (t : Ptable) (curproc : Slot) (pid priority : Int) : Int × Ptable :=
  if priority < 0 ∨ priority > 10 then (-2, t)
  else
    match slots.find? fun p => (t.proc p).state ≠ .UNUSED ∧ (t.proc p).parent = some curproc ∧
        (t.proc p).pid = pid with
    | some p => (0, t.setProc p { t.proc p with priority := priority })
    | none => (-1, t)

/-! ## The search of `scheduler` -/

/-- A position in the loops of `scheduler`: the loop variables `level` and `p`. The slot `idx`
is `NPROC` at the test of the `do`-`while` loop. -/
structure Pos where
  level : Nat
  idx : Nat
  deriving DecidableEq, Repr

def schbegin : Pos := ⟨0, 0⟩

/-- How a search ends: with a process to run, or with `release` after the loop over `level`. -/
inductive Stop
  | dispatch (p : Slot)
  | release
  deriving DecidableEq, Repr

/-- The inner loop over `p1`: the first runnable process of the level with a priority greater
than that of `p`, looked for only when the level counts more than one process. -/
def higher (t : Ptable) (level : Nat) (p : Slot) : Option Slot :=
  if t.numproc level > 1 then
    slots.find? fun p1 => t.RunnableAt level p1 ∧ (t.proc p1).priority > (t.proc p).priority
  else none

/-- One iteration of the loop over `p` at `pos`, one test of the `do`-`while` loop, or the
`release` at the end of the loop over `level`. -/
def search (K : Nat) (t : Ptable) (pos : Pos) : Loop.Iter Pos Stop :=
  if pos.level < K then
    if h : pos.idx < NPROC then
      let p : Slot := ⟨pos.idx, h⟩
      if ∃ i ∈ List.range pos.level, t.numproc i > 0 then .next schbegin
      else if ¬ t.RunnableAt pos.level p then .next ⟨pos.level, pos.idx + 1⟩
      else
        match higher t pos.level p with
        | some p1 => if p1 < p then .next ⟨pos.level, 0⟩ else .next ⟨pos.level, pos.idx + 1⟩
        | none => .done (.dispatch p)
    else if t.numproc pos.level > 0 then .next ⟨pos.level, 0⟩
    else .next ⟨pos.level + 1, 0⟩
  else .done .release

/-- The assignments of `scheduler` before `swtch`. -/
def dispatch (t : Ptable) (p : Slot) : Ptable :=
  ((t.setHead (t.proc p).level (some p)).setProc p { t.proc p with state := .RUNNING }).addNum
    (t.proc p).level (-1)

end Xv6.Mlfq
