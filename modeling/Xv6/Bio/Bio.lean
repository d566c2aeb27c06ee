import Mathlib.Algebra.GroupWithZero.Nat
import Mathlib.Data.List.FinRange
import Xv6.Lib.Dll
import Xv6.Lib.Transition

/-! # The buffer cache

`bio.c` for the processes of a type `ι`, with blocks of contents `β`. The list of buffers is the
circular list of the source, a buffer or `none` for `bcache.head`. A section under `bcache.lock` is
one step, and so is a transfer by `iderw`; a process that waits for the sleep lock of a buffer does
so between two steps. `log_write` and `commit` use the cache through these functions: the loops of
`write_log` and `install_trans` read two blocks, copy one to the other and call `bwrite`, and
`log_write` sets `B_DIRTY`.

`recent` and `touched` are history variables: the most recent contents that a process has given to
a block, and the buffers whose data has been changed without a `log_write` or `bwrite` since. -/

namespace Xv6.Bio

open Function

def NBUF : Nat := 30

instance : NeZero NBUF := ⟨by decide⟩

def ROOTDEV : Nat := 1

/-- A buffer of `bcache.buf`. -/
abbrev Bp := Fin NBUF

/-- `struct buf`, without its lock and its links. -/
structure Buf (β : Type) where
  /-- `B_VALID`. -/
  valid : Bool
  /-- `B_DIRTY`. -/
  dirty : Bool
  dev : Nat
  blockno : Nat
  refcnt : Nat
  data : β

/-- Where a process is. -/
inductive Pc
  | idle
  /-- In `bget`, before it has the lock of the buffer. -/
  | waiting (b : Bp) (blockno : Nat)
  /-- In `bread`, past `bget`. -/
  | reading (b : Bp) (blockno : Nat)
  /-- In `brelse`, past `releasesleep`. -/
  | releasing (b : Bp)
  deriving DecidableEq, Repr

structure State (ι β : Type) where
  buf : Bp → Buf β
  link : Dll (Option Bp)
  /-- The process that holds the sleep lock of a buffer. -/
  lock : Bp → Option ι
  disk : Nat → β
  proc : ι → Pc
  recent : Nat → β
  touched : Bp → Bool

inductive Act (ι β : Type)
  /-- `bread`, up to the sleep lock of the buffer. -/
  | bread (p : ι) (blockno : Nat)
  /-- `acquiresleep` in `bget`. -/
  | acquiresleep (p : ι)
  /-- The end of `bread`. -/
  | fill (p : ι)
  /-- An assignment to the data of a buffer. -/
  | modify (p : ι) (b : Bp) (data : β)
  | logWrite (p : ι) (b : Bp)
  | bwrite (p : ι) (b : Bp)
  /-- `brelse`, up to `bcache.lock`. -/
  | brelse (p : ι) (b : Bp)
  /-- The rest of `brelse`. -/
  | release (p : ι)

def binit : Dll (Option Bp) :=
  (List.finRange NBUF).foldl (fun d b => d.insert none (some b)) ⟨fun _ => none, fun _ => none⟩

/-- The buffer that a pointer of the list leads to. -/
def holdsBlock {β : Type} (buf : Bp → Buf β) (blockno : Nat) : Option Bp → Bool
  | none => false
  | some b => (buf b).dev = ROOTDEV ∧ (buf b).blockno = blockno

def unusedBuf {β : Type} (buf : Bp → Buf β) : Option Bp → Bool
  | none => false
  | some b => (buf b).refcnt = 0 ∧ (buf b).dirty = false

namespace State

variable {ι β : Type}

/-- The first loop of `bget`. -/
def cached (s : State ι β) (blockno : Nat) : Option Bp :=
  (Dll.find s.link.next none (holdsBlock s.buf blockno) (NBUF + 1) (s.link.next none)).join

/-- The second loop of `bget`, from the least recently used buffer on. -/
def unused (s : State ι β) : Option Bp :=
  (Dll.find s.link.prev none (unusedBuf s.buf) (NBUF + 1) (s.link.prev none)).join

def setBuf (s : State ι β) (b : Bp) (v : Buf β) : State ι β :=
  { s with buf := update s.buf b v }

/-- The section of `bget` under `bcache.lock`; it panics if no buffer can be recycled. -/
def bget (s : State ι β) (blockno : Nat) : Option (Bp × State ι β) :=
  match s.cached blockno with
  | some b => some (b, s.setBuf b { s.buf b with refcnt := (s.buf b).refcnt + 1 })
  | none =>
    match s.unused with
    | some b => some (b, s.setBuf b { s.buf b with
        dev := ROOTDEV, blockno := blockno, valid := false, dirty := false, refcnt := 1 })
    | none => none

def iderw (s : State ι β) (b : Bp) : State ι β :=
  if (s.buf b).dirty then
    { s.setBuf b { s.buf b with dirty := false, valid := true } with
      disk := update s.disk (s.buf b).blockno (s.buf b).data }
  else s.setBuf b { s.buf b with data := s.disk (s.buf b).blockno, valid := true }

/-- The section of `brelse` under `bcache.lock`. -/
def unref (s : State ι β) (b : Bp) : State ι β :=
  let s := s.setBuf b { s.buf b with refcnt := (s.buf b).refcnt - 1 }
  if (s.buf b).refcnt = 0 then { s with link := (s.link.remove (some b)).insert none (some b) }
  else s

section
variable (s : State ι β) (b : Bp)

theorem unref_buf : (s.unref b).buf =
    update s.buf b { s.buf b with refcnt := (s.buf b).refcnt - 1 } := by
  simp only [unref]
  split <;> rfl

@[simp] theorem unref_lock : (s.unref b).lock = s.lock := by
  simp only [unref]
  split <;> rfl

@[simp] theorem unref_proc : (s.unref b).proc = s.proc := by
  simp only [unref]
  split <;> rfl

@[simp] theorem unref_disk : (s.unref b).disk = s.disk := by
  simp only [unref]
  split <;> rfl

@[simp] theorem unref_recent : (s.unref b).recent = s.recent := by
  simp only [unref]
  split <;> rfl

@[simp] theorem unref_touched : (s.unref b).touched = s.touched := by
  simp only [unref]
  split <;> rfl

@[simp] theorem iderw_proc : (s.iderw b).proc = s.proc := by
  unfold iderw
  split <;> rfl

@[simp] theorem iderw_lock : (s.iderw b).lock = s.lock := by
  unfold iderw
  split <;> rfl

@[simp] theorem iderw_recent : (s.iderw b).recent = s.recent := by
  unfold iderw
  split <;> rfl

theorem iderw_block : ((s.iderw b).buf b).dev = (s.buf b).dev ∧
    ((s.iderw b).buf b).blockno = (s.buf b).blockno := by
  unfold iderw
  split <;> simp [setBuf]

end

variable [DecidableEq ι]

def goto (s : State ι β) (p : ι) (pc : Pc) : State ι β :=
  { s with proc := update s.proc p pc }

def setLock (s : State ι β) (b : Bp) (v : Option ι) : State ι β :=
  { s with lock := update s.lock b v }

def setTouched (s : State ι β) (b : Bp) (v : Bool) : State ι β :=
  { s with touched := update s.touched b v }

/-- `p` has got `b` from `bread` and not released it. -/
def Has (s : State ι β) (p : ι) (b : Bp) : Prop := s.proc p = .idle ∧ s.lock b = some p

instance (s : State ι β) (p : ι) (b : Bp) : Decidable (s.Has p b) :=
  inferInstanceAs (Decidable (_ ∧ _))

def next (s : State ι β) : Act ι β → Option (State ι β)
  | .bread p blockno =>
    if s.proc p = .idle then (s.bget blockno).map fun r => r.2.goto p (.waiting r.1 blockno)
    else none
  | .acquiresleep p =>
    match s.proc p with
    | .waiting b blockno =>
      if s.lock b = none then some ((s.setLock b (some p)).goto p (.reading b blockno)) else none
    | _ => none
  | .fill p =>
    match s.proc p with
    | .reading b _ => some ((if (s.buf b).valid then s else s.iderw b).goto p .idle)
    | _ => none
  | .modify p b data =>
    if s.Has p b then
      some { (s.setBuf b { s.buf b with data := data }).setTouched b true with
        recent := update s.recent (s.buf b).blockno data }
    else none
  | .logWrite p b =>
    if s.Has p b then some ((s.setBuf b { s.buf b with dirty := true }).setTouched b false)
    else none
  | .bwrite p b =>
    if s.Has p b then
      some (((s.setBuf b { s.buf b with dirty := true }).iderw b).setTouched b false)
    else none
  | .brelse p b =>
    if s.Has p b ∧ s.touched b = false then some ((s.setLock b none).goto p (.releasing b))
    else none
  | .release p =>
    match s.proc p with
    | .releasing b => some ((s.unref b).goto p .idle)
    | _ => none

/-- The cache after `binit`, on zeroed memory. -/
def boot (data : Bp → β) (disk : Nat → β) : State ι β where
  buf b := ⟨false, false, 0, 0, 0, data b⟩
  link := binit
  lock _ := none
  disk := disk
  proc _ := .idle
  recent := disk
  touched _ := false

end State

/-- The buffer cache and the disk, from `binit` on. -/
def cache (ι β : Type) [DecidableEq ι] : LTS (State ι β) (Act ι β) where
  init s := ∃ data disk, s = .boot data disk
  next := State.next

end Xv6.Bio
