import Xv6.Fs.Data
import Xv6.Lib.CString
import Xv6.Thread.Ptable

/-! # Arguments and results of system calls

The functions of `syscall.c` that fetch arguments, and the system calls that store a result through
a pointer of the caller: `read`, `fstat`, `pipe`, `thread_create` and `thread_join`. A call gives
its return value and the bytes it stores, in order. It has no return value while it sleeps, and
after a panic.

What other processes do while a call sleeps is an argument: the pipe a reader finds when it leaves
its loop, the characters the console delivers, the process tables `thread_join` sees. -/

namespace Xv6.Syscall

open Thread Fs

def KERNBASE : UInt32 := 0x80000000

def PIPESIZE : Nat := 512

/-- A word that is negative as an `int`. -/
def Neg (w : UInt32) : Prop := 0x80000000 ≤ w

instance (w : UInt32) : Decidable (Neg w) := inferInstanceAs (Decidable (0x80000000 ≤ w))

/-- Bytes stored by the kernel, with their addresses. -/
abbrev Stores := List (UInt32 × UInt8)

structure Effect where
  ret : Option Int
  stores : Stores
  deriving DecidableEq

/-- The result `-1`, and no store. -/
def Effect.fail : Effect := ⟨some (-1), []⟩

/-- Consecutive bytes from `a` on. -/
def store (a : UInt32) : List UInt8 → Stores
  | [] => []
  | b :: bs => (a, b) :: store (a + 1) bs

/-! ## Files -/

structure Inode where
  dev : UInt32
  inum : UInt32
  type : InodeType
  /-- `ip->major`, for a device whose driver has a `read`. -/
  console : Bool
  nlink : UInt16
  size : UInt32
  perm : UInt32
  owner : CString.Mem
  data : UInt32 → UInt8

inductive FileType
  | FD_NONE
  | FD_PIPE
  | FD_INODE (ip : Inode) (off : UInt32)

structure File where
  type : FileType
  readable : Bool

structure Pipe where
  data : Nat → UInt8
  nread : UInt32
  nwrite : UInt32

/-- How a process leaves a loop in which it sleeps. -/
inductive Wait (α : Type)
  | sleeps
  | killed
  | ready (a : α)

/-! ## Arguments -/

structure Caller where
  sz : UInt32
  /-- `tf->esp`. -/
  esp : UInt32
  mem : UInt32 → UInt8
  ofile : Fin NOFILE → Option File

variable (c : Caller)

def Caller.word (addr : UInt32) : UInt32 :=
  (c.mem addr).toUInt32 ||| (c.mem (addr + 1)).toUInt32 <<< 8 |||
    (c.mem (addr + 2)).toUInt32 <<< 16 ||| (c.mem (addr + 3)).toUInt32 <<< 24

def fetchint (addr : UInt32) : Option UInt32 :=
  if addr ≥ c.sz ∨ addr + 4 > c.sz then none else some (c.word addr)

def argint (n : UInt32) : Option UInt32 := fetchint c (c.esp + 4 + 4 * n)

def argptr (n size : UInt32) : Option UInt32 := do
  let i ← argint c n
  if Neg size ∨ i ≥ c.sz ∨ i + size > c.sz then none else some i

def getfilebyfd (fd : UInt32) : Option File :=
  if h : fd.toNat < NOFILE then c.ofile ⟨fd.toNat, h⟩ else none

def argfd (n : UInt32) : Option File := do getfilebyfd c (← argint c n)

/-! ## `read` -/

/-- The loop of `piperead` that copies. -/
def pipeCopy (p : Pipe) (addr : UInt32) : Nat → Stores
  | 0 => []
  | n + 1 =>
    if p.nread = p.nwrite then []
    else (addr, p.data (p.nread.toNat % PIPESIZE)) ::
      pipeCopy { p with nread := p.nread + 1 } (addr + 1) n

def piperead (wait : Wait Pipe) (addr n : UInt32) : Effect :=
  match wait with
  | .sleeps => ⟨none, []⟩
  | .killed => .fail
  | .ready p => ⟨some (pipeCopy p addr n.toNat).length, pipeCopy p addr n.toNat⟩

def ctrlD : UInt8 := 4

def newline : UInt8 := 10

/-- The loop of `consoleread`, with `target - n` characters stored; the process is killed while it
waits where the input has `none`. -/
def consoleCopy (stored : Nat) (dst : UInt32) : Nat → List (Option UInt8) → Effect
  | 0, _ => ⟨some stored, []⟩
  | _ + 1, [] => ⟨none, []⟩
  | _ + 1, none :: _ => .fail
  | n + 1, some ch :: input =>
    if ch = ctrlD then ⟨some stored, []⟩
    else if ch = newline then ⟨some (stored + 1), [(dst, ch)]⟩
    else
      let r := consoleCopy (stored + 1) (dst + 1) n input
      ⟨r.ret, (dst, ch) :: r.stores⟩

def consoleread (input : List (Option UInt8)) (dst n : UInt32) : Effect :=
  consoleCopy 0 dst n.toNat input

def readi (input : List (Option UInt8)) (ip : Inode) (dst off n : UInt32) : Effect :=
  if ip.type = .T_DEV then
    if ip.console then consoleread input dst n else .fail
  else if off > ip.size ∨ off + n < off then .fail
  else
    let n := if off + n > ip.size then ip.size - off else n
    ⟨some n.toNat, store dst ((List.range n.toNat).map fun i => ip.data (off + .ofNat i))⟩

def fileread (wait : Wait Pipe) (input : List (Option UInt8)) (f : File) (addr n : UInt32) :
    Effect :=
  if f.readable = false then .fail
  else
    match f.type with
    | .FD_PIPE => piperead wait addr n
    | .FD_INODE ip off => readi input ip addr off n
    | .FD_NONE => ⟨none, []⟩

def sysRead (wait : Wait Pipe) (input : List (Option UInt8)) : Effect :=
  let args := do
    let f ← argfd c 0
    let n ← argint c 2
    let p ← argptr c 1 n
    pure (f, p, n)
  match args with
  | none => .fail
  | some (f, p, n) => fileread wait input f p n

/-! ## `fstat` -/

/-- `sizeof(struct stat)`. -/
def statSize : UInt32 := 40

/-- `strncpy` of the owner, which fills up with zeros. -/
def ownerBytes (ip : Inode) : List UInt8 :=
  let s := CString.str ip.owner 16 0
  s ++ List.replicate (16 - s.length) 0

/-- The assignments of `stati`, at the offsets of the fields of `struct stat`. -/
def stati (ip : Inode) (st : UInt32) : Stores :=
  store (st + 4) (wordBytes ip.dev) ++ store (st + 8) (wordBytes ip.inum) ++
    store st (halfBytes ip.type.code) ++ store (st + 12) (halfBytes ip.nlink) ++
    store (st + 16) (wordBytes ip.size) ++ store (st + 20) (wordBytes ip.perm) ++
    store (st + 24) (ownerBytes ip)

def filestat (f : File) (st : UInt32) : Effect :=
  match f.type with
  | .FD_INODE ip _ => ⟨some 0, stati ip st⟩
  | _ => .fail

def sysFstat : Effect :=
  let args := do
    let f ← argfd c 0
    let st ← argptr c 1 statSize
    pure (f, st)
  match args with
  | none => .fail
  | some (f, st) => filestat f st

/-! ## `pipe` -/

/-- `fdalloc`: the first free descriptor, and the table with the file in it. -/
def fdalloc (ofile : Fin NOFILE → Option File) (f : File) :
    Option (Fin NOFILE × (Fin NOFILE → Option File)) :=
  ((List.finRange NOFILE).find? fun fd => (ofile fd).isNone).map fun fd =>
    (fd, Function.update ofile fd (some f))

/-- `sys_pipe`; `pipealloc` says whether there are two files and a page. -/
def sysPipe (pipealloc : Bool) : Effect :=
  match argptr c 0 8 with
  | none => .fail
  | some fd =>
    let fds := do
      let (fd0, ofile) ← fdalloc c.ofile ⟨.FD_PIPE, true⟩
      let (fd1, _) ← fdalloc ofile ⟨.FD_PIPE, false⟩
      pure (fd0, fd1)
    if pipealloc = false then .fail
    else
      match fds with
      | none => .fail
      | some (fd0, fd1) => ⟨some 0,
          store fd (wordBytes (.ofNat fd0)) ++ store (fd + 4) (wordBytes (.ofNat fd1))⟩

/-! ## `thread_create` and `thread_join` -/

/-- `sys_thread_create` by the process in slot `curproc`. -/
def sysThreadCreate (t : Ptable) (curproc : Slot) (kalloc allocuvm : Bool) : Effect :=
  let args := do
    let thread ← argint c 0
    let _ ← argint c 1
    let _ ← argint c 2
    pure thread
  match args with
  | none => .fail
  | some thread =>
    let r := threadCreate t curproc kalloc allocuvm
    ⟨some r.ret, match r.thread with
      | some tid => store thread (wordBytes (.ofInt tid))
      | none => []⟩

/-- The passes of `thread_join`, one for each table it sees: what it stores and returns. -/
def threadJoinPasses (curproc : Slot) (thread : Int) :
    List Ptable → Option UInt32 × Option Int
  | [] => (none, none)
  | t :: ts =>
    match threadJoin t curproc thread with
    | .returns (retval, r) _ => (retval, some r)
    | .sleeps _ => threadJoinPasses curproc thread ts

def sysThreadJoin (curproc : Slot) (tables : List Ptable) : Effect :=
  let args := do
    let thread ← argint c 0
    let retval ← argint c 1
    pure (thread, retval)
  match args with
  | none => .fail
  | some (thread, retval) =>
    let (v, r) := threadJoinPasses curproc thread.toNat tables
    ⟨r, match v with
      | some v => store retval (wordBytes v)
      | none => []⟩

/-! ## Calls -/

inductive Call
  | read (wait : Wait Pipe) (input : List (Option UInt8))
  | fstat
  | pipe (pipealloc : Bool)
  | threadCreate (t : Ptable) (curproc : Slot) (kalloc allocuvm : Bool)
  | threadJoin (curproc : Slot) (tables : List Ptable)

def Call.run (c : Caller) : Call → Effect
  | .read wait input => sysRead c wait input
  | .fstat => sysFstat c
  | .pipe pipealloc => sysPipe c pipealloc
  | .threadCreate t curproc kalloc allocuvm => sysThreadCreate c t curproc kalloc allocuvm
  | .threadJoin curproc tables => sysThreadJoin c curproc tables

end Xv6.Syscall
