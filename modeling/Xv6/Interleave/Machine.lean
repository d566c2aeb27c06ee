import Xv6.Lib.Transition
import Xv6.Thread.Ptable

/-! # The kernel with threads, section by section

The calls of `proc.c` and `exec.c`, cut where another CPU may come in between: a step is a section
under `ptable.lock`, or a few assignments made without it. A thread that has been allocated by
`allocproc` is not yet running while its creator goes on, `kill_threads_except` gives up the lock
for each thread that it clears, and `exit` and `thread_exit` close files before they take it.

In a call on files a thread takes and gives back operations of the log and sleep locks in any
order, and may sleep on any channel; it returns when it has given everything back. The one
exception in the source is `flushUsers`, which returns when `cleari` fails (`/passwd` is a device).

`pc p` is where the thread in slot `p` is, also while it is not on a CPU. A slot that
`kill_threads_except` clears while its thread is on another CPU stays there, with a stack that has
been freed; nothing is meant to be said about the steps it takes then. -/

namespace Xv6.Interleave

open Thread

inductive Lock
  | inode (i : Nat)
  | buf (b : Nat)
  deriving DecidableEq, Repr

def Lock.isInode : Lock → Bool
  | .inode _ => true
  | .buf _ => false

/-- What a thread holds in the file system. -/
structure Held where
  /-- The operations of the thread that `log.outstanding` counts. -/
  ops : Nat
  locks : List Lock
  deriving DecidableEq, Repr

def Held.nothing : Held := ⟨0, []⟩

/-- Where a thread is in `fork`, after it has allocated a slot. -/
inductive ForkAt
  | kalloc | copyuvm | runnable
  deriving DecidableEq, Repr

/-- Where a thread is in `thread_create`, after it has allocated a slot. -/
inductive CreateAt
  | kalloc | nextpid | ids | allocuvm | runnable
  deriving DecidableEq, Repr

inductive Point
  /-- In user code, or in no call that is modelled. -/
  | user
  /-- In a call on files. -/
  | call
  | fork (np : Slot) (k : ForkAt)
  | threadCreate (np main : Slot) (k : CreateAt)
  | clearSubthreads
  /-- In `exit`, past `clear_subthreads`. -/
  | exit
  | threadExit
  | wait
  | threadJoin (thread : Int)
  /-- In `kill_threads_except`, before its loop. -/
  | killThreads (pid : Int)
  /-- In the loop of `kill_threads_except` at slot `p`, without `ptable.lock`. -/
  | killThread (pid : Int) (p : Slot)
  /-- In `exec`, past `kill_threads_except`. -/
  | exec
  deriving DecidableEq, Repr

namespace Point

/-- Where a thread works on files. -/
def files : Point → Bool
  | .call | .exit | .threadExit | .killThread _ _ | .exec => true
  | _ => false

/-- The slot that the thread has allocated. -/
def new : Point → Option Slot
  | .fork np _ | .threadCreate np _ _ => some np
  | _ => none

end Point

structure State (n : Nat) where
  tab : Ptable
  /-- `cpus[c].proc`. -/
  cpu : Fin n → Option Slot
  pc : Slot → Point
  held : Slot → Held

inductive Act (n : Nat)
  | dispatch (c : Fin n) (p : Slot)
  /-- `yield`, at any point at which a timer interrupt comes. -/
  | yield (c : Fin n)
  | wakeup (chan : Option Chan)
  | kill (pid : Int)
  /-- The start of a call on files. -/
  | call (c : Fin n)
  | beginOp (c : Fin n)
  | endOp (c : Fin n)
  | acquiresleep (c : Fin n) (l : Lock)
  | releasesleep (c : Fin n) (l : Lock)
  /-- `sleep` in a call on files. -/
  | sleep (c : Fin n) (chan : Option Chan)
  /-- The return from a call on files. -/
  | ret (c : Fin n)
  /-- The return from `flushUsers` when `cleari` fails. -/
  | cleariFails (c : Fin n)
  | fork (c : Fin n)
  | threadCreate (c : Fin n)
  /-- The rest of `allocproc`. -/
  | kalloc (c : Fin n) (ok : Bool)
  | copyuvm (c : Fin n) (ok : Bool)
  /-- `nextpid--`. -/
  | decNextpid (c : Fin n)
  /-- The assignments of `thread_create` to the ids of the new thread. -/
  | setIds (c : Fin n)
  | allocuvm (c : Fin n) (ok : Bool)
  /-- `np->state = RUNNABLE`. -/
  | runnable (c : Fin n)
  /-- `exit` up to the closing of files, or a pass of `clear_subthreads`. -/
  | exit (c : Fin n)
  | exitEnd (c : Fin n)
  | threadExit (c : Fin n) (retval : UInt32)
  | threadExitEnd (c : Fin n)
  | wait (c : Fin n)
  | threadJoin (c : Fin n) (thread : Int)
  /-- The start of `exec`. -/
  | exec (c : Fin n)
  /-- A section of `kill_threads_except` under `ptable.lock`. -/
  | killThreads (c : Fin n)
  | execEnd (c : Fin n) (e : ExecEnd)
  deriving DecidableEq, Repr

/-! ## Sections of the calls that are one step in `Xv6.Thread` -/

/-- The section of `allocproc` under `ptable.lock`. -/
def allocSlot (t : Ptable) : Option (Slot × Ptable) :=
  (slots.find? fun p => (t.proc p).state = .UNUSED).map fun p =>
    (p, { t.setProc p { t.proc p with
            state := .EMBRYO, pid := t.nextpid, tid := 0, main := none, context := .user } with
          nextpid := t.nextpid + 1 })

/-- `fork` when `copyuvm` has succeeded, up to the copying of files. -/
def forkCopied (t : Ptable) (curproc np : Slot) : Ptable :=
  let (pgdir, t) := setupkvm t
  let parent := if (t.proc np).tid ≠ 0 then (t.proc curproc).main else some curproc
  t.setProc np { t.proc np with
    pgdir := some pgdir, sz := (t.proc curproc).sz, parent := parent }

def setIds (t : Ptable) (main np : Slot) : Ptable :=
  { t.setProc np { t.proc np with
      tid := t.nexttid, main := some main, parent := some main, pid := (t.proc main).pid } with
    nexttid := t.nexttid + 1 }

/-- `thread_create` around `allocuvm`. -/
def growMain (t : Ptable) (main np : Slot) (allocuvm : Bool) : Ptable :=
  let t := t.setProc main { t.proc main with sz := (t.proc main).sz + 2 * PGSIZE }
  if allocuvm then
    t.setProc np { t.proc np with pgdir := (t.proc main).pgdir, sz := (t.proc main).sz }
  else t.setState np .UNUSED

/-- The next slot, from `i` on, that the loop of `kill_threads_except` does not skip. -/
def nextThread (t : Ptable) (pid : Int) (cp : Slot) (i : Nat) : Option Slot :=
  slots.find? fun p => i ≤ p.val ∧ (t.proc p).pid = pid ∧ p ≠ cp

/-- Without another CPU in between, the sections of `fork` are `fork`. -/
theorem fork_eq_sections (t : Ptable) (curproc : Slot) (kalloc copyuvm : Bool) :
    (Thread.fork t curproc kalloc copyuvm).2 = match allocSlot t with
      | none => t
      | some (np, t) =>
        if kalloc then
          if copyuvm then (forkCopied t curproc np).setState np .RUNNABLE
          else t.setProc np { t.proc np with pgdir := none, state := .UNUSED }
        else t.setState np .UNUSED := by
  unfold Thread.fork allocproc allocSlot
  cases slots.find? fun p => (t.proc p).state = .UNUSED with
  | none => rfl
  | some np => cases kalloc <;> cases copyuvm <;> simp [forkCopied, setupkvm, Ptable.setProc,
      Ptable.setState]

/-- Without another CPU in between, the sections of `thread_create` are `thread_create`. -/
theorem threadCreate_eq_sections (t : Ptable) (curproc : Slot) (kalloc allocuvm : Bool) :
    (Thread.threadCreate t curproc kalloc allocuvm).tab = match allocSlot t with
      | none => t
      | some (np, u) =>
        let main := (t.proc curproc).main.getD curproc
        if kalloc then
          let u := growMain (setIds { u with nextpid := u.nextpid - 1 } main np) main np allocuvm
          if allocuvm then u.setState np .RUNNABLE else u
        else u.setState np .UNUSED := by
  unfold Thread.threadCreate allocproc allocSlot
  cases slots.find? fun p => (t.proc p).state = .UNUSED with
  | none => rfl
  | some np => cases kalloc <;> cases allocuvm <;> simp [threadInit, growMain, setIds,
      Ptable.setProc, Ptable.setState]

namespace State

variable {n : Nat}

def setTab (m : State n) (t : Ptable) : State n := { m with tab := t }

def goto (m : State n) (p : Slot) (k : Point) : State n :=
  { m with pc := Function.update m.pc p k }

def setHeld (m : State n) (p : Slot) (h : Held) : State n :=
  { m with held := Function.update m.held p h }

def sched (m : State n) (c : Fin n) (t : Ptable) : State n :=
  { m with tab := t, cpu := Function.update m.cpu c none }

/-- The section of `allocproc` under `ptable.lock`, for a call that goes on at `k` with the new
slot. -/
def alloc (m : State n) (p : Slot) (k : Slot → Point) : State n :=
  match allocSlot m.tab with
  | none => m
  | some (np, t) => ((m.setTab t).goto np .user).goto p (k np)

/-- A creation that fails gives back its slot and returns. -/
def dropNew (m : State n) (p np : Slot) (v : Proc) : State n :=
  (m.setTab (m.tab.setProc np { v with state := .UNUSED })).goto p .user

/-- The state after a call that may sleep at `k`. -/
def after {α : Type} (m : State n) (c : Fin n) (p : Slot) (k : Point) : Outcome α → State n
  | .returns _ t => (m.setTab t).goto p .user
  | .sleeps t => (m.sched c t).goto p k

def killFrom (m : State n) (p : Slot) (pid : Int) (i : Nat) : State n :=
  match nextThread m.tab pid p i with
  | some q => (m.setTab (reparent m.tab q)).goto p (.killThread pid q)
  | none => m.goto p .exec

def next (m : State n) : Act n → Option (State n)
  | .dispatch c p =>
    if m.cpu c = none ∧ (m.tab.proc p).state = .RUNNABLE then
      some { m with tab := Thread.dispatch m.tab p, cpu := Function.update m.cpu c (some p) }
    else none
  | .yield c => (m.cpu c).bind fun p =>
    if (m.tab.proc p).state = .RUNNING then some (m.sched c (Thread.yield m.tab p)) else none
  | .wakeup chan => some (m.setTab (wakeup1 m.tab chan))
  | .kill pid => some (m.setTab (Thread.kill m.tab pid))
  | .call c => (m.cpu c).bind fun p => if m.pc p = .user then some (m.goto p .call) else none
  | .beginOp c => (m.cpu c).bind fun p =>
    if (m.pc p).files then some (m.setHeld p { m.held p with ops := (m.held p).ops + 1 }) else none
  | .endOp c => (m.cpu c).bind fun p =>
    if (m.pc p).files ∧ 0 < (m.held p).ops then
      some (m.setHeld p { m.held p with ops := (m.held p).ops - 1 })
    else none
  | .acquiresleep c l => (m.cpu c).bind fun p =>
    if (m.pc p).files ∧ ∀ q ∈ slots, l ∉ (m.held q).locks then
      some (m.setHeld p { m.held p with locks := l :: (m.held p).locks })
    else none
  | .releasesleep c l => (m.cpu c).bind fun p =>
    if (m.pc p).files ∧ l ∈ (m.held p).locks then
      some (m.setHeld p { m.held p with locks := (m.held p).locks.erase l })
    else none
  | .sleep c chan => (m.cpu c).bind fun p =>
    if (m.pc p).files then some (m.sched c (Thread.sleep m.tab p chan .user)) else none
  | .ret c => (m.cpu c).bind fun p =>
    if m.pc p = .call ∧ m.held p = .nothing then some (m.goto p .user) else none
  | .cleariFails c => (m.cpu c).bind fun p =>
    if m.pc p = .call ∧ 0 < (m.held p).ops ∧ (m.held p).locks.any Lock.isInode then
      some (m.goto p .user)
    else none
  | .fork c => (m.cpu c).bind fun p =>
    if m.pc p = .user then some (m.alloc p (.fork · .kalloc)) else none
  | .threadCreate c => (m.cpu c).bind fun p =>
    let main := (m.tab.proc p).main.getD p
    if m.pc p = .user then some (m.alloc p (.threadCreate · main .kalloc)) else none
  | .kalloc c ok => (m.cpu c).bind fun p =>
    match m.pc p with
    | .fork np .kalloc =>
      some (if ok then m.goto p (.fork np .copyuvm) else m.dropNew p np (m.tab.proc np))
    | .threadCreate np main .kalloc =>
      some (if ok then m.goto p (.threadCreate np main .nextpid)
        else m.dropNew p np (m.tab.proc np))
    | _ => none
  | .copyuvm c ok => (m.cpu c).bind fun p =>
    match m.pc p with
    | .fork np .copyuvm =>
      some (if ok then (m.setTab (forkCopied m.tab p np)).goto p (.fork np .runnable)
        else m.dropNew p np { m.tab.proc np with pgdir := none })
    | _ => none
  | .decNextpid c => (m.cpu c).bind fun p =>
    match m.pc p with
    | .threadCreate np main .nextpid =>
      some ((m.setTab { m.tab with nextpid := m.tab.nextpid - 1 }).goto p
        (.threadCreate np main .ids))
    | _ => none
  | .setIds c => (m.cpu c).bind fun p =>
    match m.pc p with
    | .threadCreate np main .ids =>
      some ((m.setTab (Interleave.setIds m.tab main np)).goto p (.threadCreate np main .allocuvm))
    | _ => none
  | .allocuvm c ok => (m.cpu c).bind fun p =>
    match m.pc p with
    | .threadCreate np main .allocuvm =>
      some ((m.setTab (growMain m.tab main np ok)).goto p
        (if ok then .threadCreate np main .runnable else .user))
    | _ => none
  | .runnable c => (m.cpu c).bind fun p =>
    match m.pc p with
    | .fork np .runnable | .threadCreate np _ .runnable =>
      some ((m.setTab (m.tab.setState np .RUNNABLE)).goto p .user)
    | _ => none
  | .exit c => (m.cpu c).bind fun p =>
    if (m.pc p = .user ∨ m.pc p = .clearSubthreads) ∧ m.tab.initproc ≠ some p then
      if (m.tab.proc p).tid = 0 then
        match clearSubthreads m.tab p with
        | (0, t) => some ((m.setTab t).goto p .exit)
        | (_ + 1, t) =>
          some ((m.sched c (Thread.sleep t p (some (.proc p)) .exit)).goto p .clearSubthreads)
      else some (m.goto p .exit)
    else none
  | .exitEnd c => (m.cpu c).bind fun p =>
    if m.pc p = .exit ∧ m.held p = .nothing then some (m.sched c (exitRest m.tab p)) else none
  | .threadExit c retval => (m.cpu c).bind fun p =>
    if m.pc p = .user ∧ m.tab.initproc ≠ some p then
      some ((m.setTab (m.tab.setProc p { m.tab.proc p with retval := retval })).goto p .threadExit)
    else none
  | .threadExitEnd c => (m.cpu c).bind fun p =>
    if m.pc p = .threadExit ∧ m.held p = .nothing then
      some (m.sched c (Thread.threadExit m.tab p (m.tab.proc p).retval))
    else none
  | .wait c => (m.cpu c).bind fun p =>
    if m.pc p = .user ∨ m.pc p = .wait then (Thread.wait m.tab p).map (m.after c p .wait) else none
  | .threadJoin c thread => (m.cpu c).bind fun p =>
    if m.pc p = .user ∨ m.pc p = .threadJoin thread then
      some (m.after c p (.threadJoin thread) (Thread.threadJoin m.tab p thread))
    else none
  | .exec c => (m.cpu c).bind fun p =>
    if m.pc p = .user then
      some ((m.setTab (detach m.tab p)).goto p (.killThreads (m.tab.proc p).pid))
    else none
  | .killThreads c => (m.cpu c).bind fun p =>
    match m.pc p with
    | .killThreads pid => some (m.killFrom p pid 0)
    | .killThread pid q =>
      if m.held p = .nothing then
        some ((m.setTab (threadClear m.tab q)).killFrom p pid (q.val + 1))
      else none
    | _ => none
  | .execEnd c e => (m.cpu c).bind fun p =>
    if m.pc p = .exec ∧ m.held p = .nothing then
      (execLoad m.tab p e).map fun r => (m.setTab r.2).goto p .user
    else none

end State

/-- The kernel with threads on `n` CPUs, from the end of `userinit`. -/
def kernel (n : Nat) : LTS (State n) (Act n) where
  init m := userinit pinit = some m.tab ∧ (∀ c, m.cpu c = none) ∧ (∀ p, m.pc p = .user) ∧
    ∀ p, m.held p = .nothing
  next := State.next

def boot (n : Nat) : State n where
  tab := (userinit pinit).getD pinit
  cpu _ := none
  pc _ := .user
  held _ := .nothing

theorem init_boot (n : Nat) : (kernel n).init (boot n) := by
  refine ⟨?_, fun _ => rfl, fun _ => rfl, fun _ => rfl⟩
  have h : (userinit pinit).isSome = true := by decide +kernel
  obtain ⟨t, ht⟩ := Option.isSome_iff_exists.mp h
  rw [boot, ht]
  rfl

/-- The steps of a `fork` that succeeds, without another CPU in between. -/
def forkSteps {n : Nat} (c : Fin n) : List (Act n) :=
  [.fork c, .kalloc c true, .copyuvm c true, .runnable c]

/-- The steps of a `thread_create` that succeeds, without another CPU in between. -/
def threadCreateSteps {n : Nat} (c : Fin n) : List (Act n) :=
  [.threadCreate c, .kalloc c true, .decNextpid c, .setIds c, .allocuvm c true, .runnable c]

end Xv6.Interleave
