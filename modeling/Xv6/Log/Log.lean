import Xv6.Lib.Redo
import Xv6.Lib.Transition

/-! # The log and the buffer cache

`log.c` and the parts of `bio.c` it rests on, for `k` processes. A step writes at most one block to
the disk: the steps of `commit` and of `recover_from_log` are the iterations of their loops, and
`crash` may come between any two steps. `log_write` is two steps, since it compares `log.lh.n` with
the bounds before it acquires `log.lock`.

A block is the words it holds. There are `NBUF` buffers. One that is neither dirty nor held may be
given up at any time, which stands for the choice of `bget`. A panic stops the machine: the step is
not enabled.

`committed` and `current` are history variables: the modifications made by the operations of the
groups whose header has been written, and by those of the group since then. -/

namespace Xv6.Log

open Function

def MAXOPBLOCKS : Nat := 10

def LOGSIZE : Nat := MAXOPBLOCKS * 3

def NBUF : Nat := MAXOPBLOCKS * 3

abbrev Block := Nat → Nat

abbrev Disk := Nat → Block

/-- `log.start` and `log.size`, read from the superblock; the log holds at least its header. -/
structure Layout where
  start : Nat
  size : Nat
  size_pos : 0 < size

namespace Layout

/-- The block that holds log entry `i`. -/
def slot (L : Layout) (i : Nat) : Nat := L.start + i + 1

/-- A block outside of the log. -/
def Home (L : Layout) (b : Nat) : Prop := b < L.start ∨ L.start + L.size ≤ b

instance (L : Layout) (b : Nat) : Decidable (L.Home b) := inferInstanceAs (Decidable (_ ∨ _))

end Layout

structure Header where
  n : Nat
  block : Nat → Nat

namespace Header

/-- The header that a block holds, over `h` where it holds none. -/
def decode (h : Header) (data : Block) : Header where
  n := data 0
  block i := if i < data 0 then data (i + 1) else h.block i

/-- The assignments of `write_head` to the header block. -/
def encode (h : Header) (data : Block) : Block
  | 0 => h.n
  | i + 1 => if i < h.n then h.block i else data (i + 1)

/-- The loop of `log_write`: the index of `b`, or `n`. -/
def find (h : Header) (b : Nat) : Nat := ((List.range h.n).find? fun i => h.block i = b).getD h.n

/-- The assignments of `log_write` to the header. -/
def add (h : Header) (b : Nat) : Header where
  n := if h.find b = h.n then h.n + 1 else h.n
  block := update h.block (h.find b) b

def Has (h : Header) (b : Nat) : Prop := ∃ i < h.n, h.block i = b

instance (h : Header) (b : Nat) : Decidable (h.Has b) :=
  inferInstanceAs (Decidable (∃ i < h.n, h.block i = b))

end Header

structure Buf (k : Nat) where
  data : Block
  /-- `B_DIRTY`. -/
  dirty : Bool
  /-- The process that holds the buffer and has modified it since it last called `log_write`. -/
  writer : Option (Fin k)

/-- The buffers, by the blocks that are in them. -/
structure Cache (k : Nat) where
  buf : Nat → Option (Buf k)
  blocks : List Nat
  nodup : blocks.Nodup
  length_le : blocks.length ≤ NBUF
  mem : ∀ b, b ∈ blocks ↔ (buf b).isSome

namespace Cache

variable {k : Nat}

instance : CoeFun (Cache k) fun _ => Nat → Option (Buf k) := ⟨Cache.buf⟩

def empty : Cache k := ⟨fun _ => none, [], .nil, Nat.zero_le _, by simp⟩

/-- The buffer of `b` changes. -/
def set (c : Cache k) (b : Nat) (v : Buf k) : Cache k :=
  if h : (c b).isSome then
    { c with
      buf := update c.buf b (some v)
      mem := fun a => by
        by_cases e : a = b
        · subst e
          simpa [c.mem] using h
        · simp [e, c.mem] }
  else c

/-- The buffer of `b` is given up. -/
def drop (c : Cache k) (b : Nat) : Cache k where
  buf := update c.buf b none
  blocks := c.blocks.erase b
  nodup := c.nodup.erase b
  length_le := Nat.le_trans List.length_erase_le c.length_le
  mem a := by
    by_cases e : a = b
    · simp [e, c.nodup.not_mem_erase]
    · simp [e, List.mem_erase_of_ne, c.mem]

/-- A buffer that holds no block is taken for `b`. -/
def insert (c : Cache k) (b : Nat) (v : Buf k) : Cache k :=
  if h : c b = none ∧ c.blocks.length < NBUF then
    { buf := update c.buf b (some v)
      blocks := b :: c.blocks
      nodup := List.nodup_cons.mpr ⟨fun hb => by
        have := (c.mem b).mp hb
        simp [h.1] at this, c.nodup⟩
      length_le := h.2
      mem := fun a => by
        by_cases e : a = b
        · simp [e]
        · simp [e, c.mem] }
  else c

/-- The buffer of `b` may be recycled. -/
def Unused (c : Cache k) (b : Nat) : Prop :=
  ∀ buf ∈ c b, buf.dirty = false ∧ buf.writer = none

instance (c : Cache k) (b : Nat) : Decidable (c.Unused b) :=
  inferInstanceAs (Decidable (∀ buf ∈ c b, _))

/-- `bget` for block `b`, for a caller that has the buffers of `held`. If the block is not cached it
comes with the data `v`, in a buffer that is unused; `none` is `panic("bget: no buffers")`. -/
def bget (c : Cache k) (held : List Nat) (b : Nat) (v : Buf k) : Option (Cache k) :=
  if (c b).isSome then some c
  else if c.blocks.length < NBUF then some (c.insert b v)
  else (c.blocks.find? fun a => a ∉ held ∧ c.Unused a).map fun a => (c.drop a).insert b v

end Cache

/-- What a process does with the log. -/
inductive Op
  | idle
  /-- Between `begin_op` and `end_op`. -/
  | active
  /-- In `log_write` on the buffer of block `b`, past the first two tests. -/
  | logging (b : Nat)
  deriving DecidableEq, Repr

/-- The next write of `recover_from_log` or of `commit`. -/
inductive Ctl
  | readHead
  | recover (tail : Nat)
  | recoverErase
  | ready
  | writeLog (tail : Nat)
  | writeHead
  | install (tail : Nat)
  | erase
  | finish
  deriving DecidableEq, Repr

/-- The points of `recover_from_log`. -/
def Ctl.recovers : Ctl → Bool
  | .readHead | .recover _ | .recoverErase => true
  | .ready | .writeLog _ | .writeHead | .install _ | .erase | .finish => false

/-- The points of `end_op` between the assignments to `log.committing`. -/
def Ctl.commits : Ctl → Bool
  | .writeLog _ | .writeHead | .install _ | .erase | .finish => true
  | .readHead | .recover _ | .recoverErase | .ready => false

/-- The disk, the buffers and the log. -/
structure Store (k : Nat) where
  disk : Disk
  cache : Cache k
  lh : Header
  outstanding : Nat
  committing : Bool
  proc : Fin k → Op
  committed : List (Nat × Block)
  current : List (Nat × Block)

structure State (k : Nat) extends Store k where
  ctl : Ctl

inductive Act (k : Nat)
  | crash
  /-- The next write of `recover_from_log` or of `commit`. -/
  | advance
  | load (b : Nat)
  | evict (b : Nat)
  | beginOp (p : Fin k)
  /-- `bread`, followed by an assignment to the data of the buffer. -/
  | modify (p : Fin k) (b : Nat) (data : Block)
  | logCheck (p : Fin k) (b : Nat)
  | logAppend (p : Fin k)
  | endOp (p : Fin k)

namespace Store

variable {k : Nat}

/-- Memory after a reboot. -/
def boot (disk : Disk) (committed : List (Nat × Block)) : Store k where
  disk := disk
  cache := .empty
  lh := ⟨0, fun _ => 0⟩
  outstanding := 0
  committing := false
  proc _ := .idle
  committed := committed
  current := []

/-- The data that `bread` returns. -/
def data (s : Store k) (b : Nat) : Block := ((s.cache b).map Buf.data).getD (s.disk b)

/-- No process has modified the buffer of `b` and still holds it. -/
def Free (s : Store k) (b : Nat) : Prop := ∀ buf ∈ s.cache b, buf.writer = none

instance (s : Store k) (b : Nat) : Decidable (s.Free b) :=
  inferInstanceAs (Decidable (∀ buf ∈ s.cache b, buf.writer = none))

/-- `bread` of block `b`, for a caller that has the buffers of `held`. -/
def bread (s : Store k) (held : List Nat) (b : Nat) : Option (Store k) :=
  (s.cache.bget held b ⟨s.disk b, false, none⟩).map fun c => { s with cache := c }

/-- `bwrite` of a buffer with the given data. -/
def bwrite (s : Store k) (b : Nat) (data : Block) : Store k :=
  { s with disk := update s.disk b data, cache := s.cache.set b ⟨data, false, none⟩ }

/-- The loops of `write_log` and of `install_trans` read a block of the log and then another one. -/
def breads (s : Store k) (slot b : Nat) : Option (Store k) :=
  if s.Free slot ∧ s.Free b then (s.bread [] slot).bind fun s => s.bread [slot] b else none

/-- An iteration of `write_log`. -/
def toLog (s : Store k) (slot b : Nat) : Option (Store k) :=
  (s.breads slot b).map fun s => s.bwrite slot (s.data b)

/-- An iteration of `install_trans`. -/
def toHome (s : Store k) (slot b : Nat) : Option (Store k) :=
  (s.breads slot b).map fun s => s.bwrite b (s.data slot)

def writeHead (L : Layout) (s : Store k) : Option (Store k) :=
  if s.Free L.start then
    (s.bread [] L.start).map fun s => s.bwrite L.start (s.lh.encode (s.data L.start))
  else none

/-- `log.lh.n = 0`. -/
def clear (s : Store k) : Store k := { s with lh := { s.lh with n := 0 } }

/-- `log_write` in its locked section, and `brelse`. -/
def logAppend (s : Store k) (p : Fin k) (b : Nat) : Store k :=
  { s with
    lh := s.lh.add b
    cache := s.cache.set b ⟨s.data b, true, none⟩
    proc := update s.proc p .active }

/-- `bread` followed by an assignment to the data of the buffer. -/
def modify (s : Store k) (p : Fin k) (b : Nat) (data : Block) : Option (Store k) :=
  (s.bread [] b).map fun s => { s with
    cache := s.cache.set b ⟨data, ((s.cache b).map Buf.dirty).getD false, some p⟩
    current := s.current ++ [(b, data)] }

end Store

namespace State

variable {k : Nat}

/-- The next step of `recover_from_log` or of `commit`. -/
def advance (L : Layout) (s : State k) : Option (State k) :=
  match s.ctl with
  | .readHead =>
    if s.Free L.start then
      (s.bread [] L.start).map fun s =>
        ⟨{ s with lh := s.lh.decode (s.data L.start) }, .recover 0⟩
    else none
  | .recover tail =>
    if tail < s.lh.n then
      (s.toHome (L.slot tail) (s.lh.block tail)).map fun t => ⟨t, .recover (tail + 1)⟩
    else some ⟨s.clear, .recoverErase⟩
  | .recoverErase => (s.toStore.writeHead L).map fun t => ⟨t, .ready⟩
  | .ready => none
  | .writeLog tail =>
    if tail < s.lh.n then
      (s.toLog (L.slot tail) (s.lh.block tail)).map fun t => ⟨t, .writeLog (tail + 1)⟩
    else some ⟨s.toStore, .writeHead⟩
  | .writeHead => (s.toStore.writeHead L).map fun t =>
    ⟨{ t with committed := t.committed ++ t.current, current := [] }, .install 0⟩
  | .install tail =>
    if tail < s.lh.n then
      (s.toHome (L.slot tail) (s.lh.block tail)).map fun t => ⟨t, .install (tail + 1)⟩
    else some ⟨s.clear, .erase⟩
  | .erase => (s.toStore.writeHead L).map fun t => ⟨t, .finish⟩
  | .finish => some ⟨{ s.toStore with committing := false }, .ready⟩

/-- `end_op`, with the test of `commit`. -/
def endOp (s : State k) (p : Fin k) : State k :=
  let t := { s.toStore with
    outstanding := s.outstanding - 1, proc := update s.proc p .idle }
  if t.outstanding = 0 then
    ⟨{ t with committing := true }, if t.lh.n > 0 then .writeLog 0 else .finish⟩
  else ⟨t, s.ctl⟩

def next (L : Layout) (s : State k) : Act k → Option (State k)
  | .crash => some ⟨.boot s.disk s.committed, .readHead⟩
  | .advance => s.advance L
  | .load b => (s.bread [] b).map fun t => ⟨t, s.ctl⟩
  | .evict b => if s.cache.Unused b then some { s with cache := s.cache.drop b } else none
  | .beginOp p =>
    if s.ctl.recovers = false ∧ s.proc p = .idle ∧ s.committing = false ∧
        s.lh.n + (s.outstanding + 1) * MAXOPBLOCKS ≤ LOGSIZE then
      some { s with
        outstanding := s.outstanding + 1, proc := update s.proc p .active }
    else none
  | .modify p b data =>
    if s.proc p = .active ∧ ∀ buf ∈ s.cache b, buf.writer = none ∨ buf.writer = some p then
      (s.modify p b data).map fun t => ⟨t, s.ctl⟩
    else none
  | .logCheck p b =>
    if s.proc p = .active ∧ (∃ buf ∈ s.cache b, buf.writer = some p) ∧
        s.lh.n < LOGSIZE ∧ s.lh.n < L.size - 1 ∧ 1 ≤ s.outstanding then
      some { s with proc := update s.proc p (.logging b) }
    else none
  | .logAppend p =>
    match s.proc p with
    | .logging b => some ⟨s.toStore.logAppend p b, s.ctl⟩
    | _ => none
  | .endOp p =>
    if s.proc p = .active ∧ (∀ w ∈ s.current, ∀ buf ∈ s.cache w.1, buf.writer ≠ some p) then
      some (s.endOp p)
    else none

end State

/-- The file system from a disk image on. -/
def system (L : Layout) (image : Disk) (k : Nat) : LTS (State k) (Act k) where
  init s := s = ⟨.boot image [], .readHead⟩
  next := State.next L

end Xv6.Log
