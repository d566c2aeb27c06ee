import Xv6.Fs.Sysfile
import Xv6.Lib.Fault

/-! # Blocks and inodes on the disk

The block and inode layers of `fs.c`, down to the blocks. The inode blocks and the blocks of the
free bit map are tables of inodes and of bits; the data blocks hold bytes. An inode in the cache is
a copy that `ilock` reads and `iupdate` writes. Every change of a block is followed by `log_write`,
which enters its number in the header of the log and panics if there is no room. The operations run
one after another, so that `end_op` commits and empties the log. The buffers and the locks are left
out, and a driver of `devsw` is taken to refuse. -/

namespace Xv6.Disk

open Fault
open Fs (BSIZE NDIRECT NINDIRECT MAXFILE NINODE InodeType)
open Log (LOGSIZE)
open Users (MAX_LEN)

/-- Inodes per block, of 64 bytes each. -/
def IPB : Nat := BSIZE / 64

/-- Bitmap bits per block. -/
def BPB : Nat := BSIZE * 8

/-- What the kernel uses of `struct superblock`. -/
structure Superblock where
  size : Nat
  /-- The number of data blocks; they are the last ones. -/
  nblocks : Nat
  ninodes : Nat
  nlog : Nat
  inodestart : Nat
  bmapstart : Nat
  nblocks_lt : nblocks < size
  size_le : size ≤ 2 ^ 32

namespace Superblock

variable (sb : Superblock)

def datastart : Nat := sb.size - sb.nblocks

def IsData (b : Nat) : Prop := sb.datastart ≤ b ∧ b < sb.size

instance (b : Nat) : Decidable (sb.IsData b) := inferInstanceAs (Decidable (_ ∧ _))

def IBLOCK (i : Nat) : Nat := i / IPB + sb.inodestart

/-- The block of the free map containing the bit for a block. -/
def BBLOCK (b : Nat) : Nat := b / BPB + sb.bmapstart

end Superblock

/-! ## The state -/

/-- The bytes of a block, of which there are `BSIZE`. -/
abbrev Block := Nat → UInt8

namespace Block

/-- The number at an index of a block of numbers. -/
def word (b : Block) (j : Nat) : Nat :=
  (b (4 * j)).toNat + 256 * (b (4 * j + 1)).toNat + 65536 * (b (4 * j + 2)).toNat +
    16777216 * (b (4 * j + 3)).toNat

def setWord (b : Block) (j w : Nat) : Block :=
  fun k => if k / 4 = j then .ofNat (w / 256 ^ (k % 4)) else b k

def read (b : Block) (off n : Nat) : List UInt8 := (List.range n).map fun k => b (off + k)

def write (b : Block) (off : Nat) (src : List UInt8) : Block :=
  fun k => if off ≤ k ∧ k < off + src.length then src.getD (k - off) 0 else b k

end Block

/-- `strncpy`, on the bytes of two fields. -/
def strncpy (dst src : List UInt8) (n : Nat) : List UInt8 :=
  let s := (src.take n).takeWhile (· ≠ 0)
  s ++ List.replicate (n - s.length) 0 ++ dst.drop n

/-- `struct dinode`, and the copy of it in `struct inode`. The first `NDIRECT + 1` addresses
count. -/
structure Dinode where
  type : Option InodeType
  major : Int16
  minor : Int16
  nlink : Int16
  size : Nat
  perm : UInt32
  owner : List UInt8
  addrs : Nat → Nat

/-- `struct dinode` in a zeroed block, with a type. -/
def Dinode.zero (type : Option InodeType) : Dinode :=
  ⟨type, 0, 0, 0, 0, 0, List.replicate (MAX_LEN + 1) 0, fun _ => 0⟩

/-- An entry of the inode cache. -/
structure Entry where
  inum : Nat
  ref : Int
  valid : Bool
  ino : Dinode

abbrev Ip := Fin NINODE

structure State where
  sb : Superblock
  bitmap : Nat → Bool
  dinode : Nat → Dinode
  block : Nat → Block
  icache : Ip → Entry
  /-- The blocks in the header of the log. -/
  logged : List Nat

inductive Panic
  /-- `"too big a transaction"`. -/
  | tooBig
  /-- `"balloc: out of blocks"`. -/
  | outOfBlocks
  /-- `"freeing free block"`. -/
  | freeingFreeBlock
  /-- `"ialloc: no inodes"`. -/
  | ialloc
  /-- `"iget: no inodes"`. -/
  | iget
  /-- `"ilock"`. -/
  | ilock
  /-- `"ilock: no type"`. -/
  | noType
  /-- `"iunlock"`. -/
  | iunlock
  /-- `"bmap: out of range"`. -/
  | bmap
  /-- `"dirlookup not DIR"`. -/
  | notDir
  /-- `"dirlookup read"`. -/
  | dirlookupRead
  /-- `"dirlink read"`. -/
  | dirlinkRead
  /-- `"dirlink"`. -/
  | dirlink
  /-- `"isdirempty: readi"`. -/
  | isdirempty
  /-- `"unlink: nlink < 1"`. -/
  | unlinkNlink
  /-- `"unlink: writei"`. -/
  | unlinkWritei
  /-- `"create dots"`. -/
  | createDots
  /-- `"create: dirlink"`. -/
  | createDirlink
  deriving DecidableEq

abbrev Kernel (α : Type) := Fault Panic State α

namespace State

variable (s : State)

def ino (ip : Ip) : Dinode := (s.icache ip).ino

def setEntry (ip : Ip) (v : Entry) : State := { s with icache := Function.update s.icache ip v }

def setIno (ip : Ip) (x : Dinode) : State := s.setEntry ip { s.icache ip with ino := x }

def setAddr (ip : Ip) (k b : Nat) : State :=
  s.setIno ip { s.ino ip with addrs := Function.update (s.ino ip).addrs k b }

def setBit (b : Nat) (v : Bool) : State :=
  { s with bitmap := Function.update s.bitmap b v, logged := s.logged.insert (s.sb.BBLOCK b) }

def setBlock (b : Nat) (v : Block) : State :=
  { s with block := Function.update s.block b v, logged := s.logged.insert b }

def setDinode (i : Nat) (x : Dinode) : State :=
  { s with dinode := Function.update s.dinode i x, logged := s.logged.insert (s.sb.IBLOCK i) }

/-- The test of `log_write`. -/
def HasLog : Prop := s.logged.length < LOGSIZE ∧ s.logged.length < s.sb.nlog - 1

instance : DecidablePred HasLog := fun _ => inferInstanceAs (Decidable (_ ∧ _))

end State

/-- A change of a block, with its `log_write`. -/
def logWrite (f : State → State) : Kernel Unit := do
  check State.HasLog .tooBig
  writes f

/-- `end_op` of the only operation outstanding, with `commit`. -/
def endOp : Kernel Unit := writes fun s => { s with logged := [] }

/-! ## Blocks -/

/-- `balloc`, with `bzero`. -/
def balloc : Kernel Nat := do
  let s ← reads id
  match (List.range s.sb.size).find? fun b => s.bitmap b = false with
  | some b =>
    logWrite fun s => s.setBit b true
    logWrite fun s => s.setBlock b fun _ => 0
    pure b
  | none => panic .outOfBlocks

def bfree (b : Nat) : Kernel Unit := do
  check (fun s => s.bitmap b = true) .freeingFreeBlock
  logWrite fun s => s.setBit b false

/-! ## Inodes -/

def iupdate (ip : Ip) : Kernel Unit :=
  logWrite fun s => s.setDinode (s.icache ip).inum { s.ino ip with
    owner := strncpy (s.dinode (s.icache ip).inum).owner (s.ino ip).owner MAX_LEN }

def iget (inum : Nat) : Kernel Ip := do
  let icache ← reads State.icache
  match (List.finRange NINODE).find? fun ip => (icache ip).ref > 0 ∧ (icache ip).inum = inum with
  | some ip =>
    writes fun s => s.setEntry ip { icache ip with ref := (icache ip).ref + 1 }
    pure ip
  | none =>
    match (List.finRange NINODE).find? fun ip => (icache ip).ref = 0 with
    | some ip =>
      writes fun s => s.setEntry ip { icache ip with inum := inum, ref := 1, valid := false }
      pure ip
    | none => panic .iget

def ialloc (type : InodeType) : Kernel Ip := do
  let s ← reads id
  match (List.range' 1 (s.sb.ninodes - 1)).find? fun inum => (s.dinode inum).type = none with
  | some inum =>
    logWrite fun s => s.setDinode inum (.zero (some type))
    iget inum
  | none => panic .ialloc

def idup (ip : Ip) : Kernel Ip := do
  writes fun s => s.setEntry ip { s.icache ip with ref := (s.icache ip).ref + 1 }
  pure ip

def State.load (s : State) (ip : Ip) : State :=
  let dip := s.dinode (s.icache ip).inum
  s.setEntry ip { s.icache ip with
    valid := true, ino := { dip with owner := strncpy (s.ino ip).owner dip.owner MAX_LEN } }

/-- `ilock` without the lock. -/
def ilock (ip : Ip) : Kernel Unit := do
  check (fun s => 1 ≤ (s.icache ip).ref) .ilock
  if (← reads fun s => (s.icache ip).valid) = false then
    writes fun s => s.load ip
    check (fun s => (s.ino ip).type ≠ none) .noType
  else pure ()

def iunlock (ip : Ip) : Kernel Unit := check (fun s => 1 ≤ (s.icache ip).ref) .iunlock

def freeDirect (ip : Ip) (i : Nat) : Kernel Unit := do
  let b ← reads fun s => (s.ino ip).addrs i
  if b ≠ 0 then
    bfree b
    writes fun s => s.setAddr ip i 0
  else pure ()

/-- Free a block that an indirect block lists. -/
def freeEntry (b : Nat) : Kernel Unit := if b ≠ 0 then bfree b else pure ()

def itrunc (ip : Ip) : Kernel Unit := do
  (List.range NDIRECT).forM (freeDirect ip)
  let b ← reads fun s => (s.ino ip).addrs NDIRECT
  if b ≠ 0 then
    let a ← reads fun s => s.block b
    (List.range NINDIRECT).forM fun j => freeEntry (a.word j)
    bfree b
    writes fun s => s.setAddr ip NDIRECT 0
  else pure ()
  writes fun s => s.setIno ip { s.ino ip with size := 0 }
  iupdate ip

def iput (ip : Ip) : Kernel Unit := do
  let e ← reads fun s => s.icache ip
  if e.valid = true ∧ e.ino.nlink = 0 ∧ e.ref = 1 then
    itrunc ip
    writes fun s => s.setIno ip { s.ino ip with type := none }
    iupdate ip
    writes fun s => s.setEntry ip { s.icache ip with valid := false }
  else pure ()
  writes fun s => s.setEntry ip { s.icache ip with ref := (s.icache ip).ref - 1 }

def iunlockput (ip : Ip) : Kernel Unit := do
  iunlock ip
  iput ip

/-! ## Contents -/

/-- The block in `addrs[k]`, allocated if there is none. -/
def loadAddr (ip : Ip) (k : Nat) : Kernel Nat := do
  let addr ← reads fun s => (s.ino ip).addrs k
  if addr = 0 then
    let addr ← balloc
    writes fun s => s.setAddr ip k addr
    pure addr
  else pure addr

def bmap (ip : Ip) (bn : Nat) : Kernel Nat := do
  if bn < NDIRECT then loadAddr ip bn
  else if bn - NDIRECT < NINDIRECT then
    let b ← loadAddr ip NDIRECT
    let addr ← reads fun s => (s.block b).word (bn - NDIRECT)
    if addr = 0 then
      let addr ← balloc
      logWrite fun s => s.setBlock b ((s.block b).setWord (bn - NDIRECT) addr)
      pure addr
    else pure addr
  else panic .bmap

/-- The loop of `readi`, for at most as many iterations as the second argument. -/
def readLoop (ip : Ip) : Nat → Nat → Nat → Kernel (List UInt8)
  | 0, _, _ => pure []
  | k + 1, off, n =>
    if n = 0 then pure []
    else do
      let m := min n (BSIZE - off % BSIZE)
      let b ← bmap ip (off / BSIZE)
      let bytes ← reads fun s => (s.block b).read (off % BSIZE) m
      let rest ← readLoop ip k (off + m) (n - m)
      pure (bytes ++ rest)

/-- `readi`, with `none` for the result `-1`; every iteration reads a byte. -/
def readi (ip : Ip) (off n : Nat) : Kernel (Option (List UInt8)) := do
  let x ← reads fun s => s.ino ip
  if x.type = some .T_DEV then pure none
  else if off > x.size ∨ (off + n) % 2 ^ 32 < off then pure none
  else
    let n := if off + n > x.size then x.size - off else n
    let bytes ← readLoop ip n off n
    pure (some bytes)

/-- The loop of `writei`, for at most as many iterations as the second argument, and that of
`cleari`. The result is the offset behind what was written. -/
def writeLoop (ip : Ip) : Nat → Nat → List UInt8 → Kernel Nat
  | 0, off, _ => pure off
  | k + 1, off, src =>
    if src = [] then pure off
    else do
      let m := min src.length (BSIZE - off % BSIZE)
      let b ← bmap ip (off / BSIZE)
      logWrite fun s => s.setBlock b ((s.block b).write (off % BSIZE) (src.take m))
      writeLoop ip k (off + m) (src.drop m)

/-- `writei`, with `none` for the result `-1`; every iteration writes a byte. -/
def writei (ip : Ip) (off : Nat) (src : List UInt8) : Kernel (Option Nat) := do
  let x ← reads fun s => s.ino ip
  let n := src.length
  if x.type = some .T_DEV then pure none
  else if off > x.size ∨ (off + n) % 2 ^ 32 < off then pure none
  else if off + n > MAXFILE * BSIZE then pure none
  else
    let off ← writeLoop ip n off src
    if n > 0 ∧ off > x.size then
      writes fun s => s.setIno ip { s.ino ip with size := off }
      iupdate ip
    else pure ()
    pure (some n)

/-- `cleari`, with `true` for the result 0. -/
def cleari (ip : Ip) : Kernel Bool := do
  let x ← reads fun s => s.ino ip
  if x.type = some .T_DEV then pure false
  else if x.size > MAXFILE * BSIZE then pure false
  else
    let _ ← writeLoop ip x.size 0 (List.replicate x.size 0)
    iupdate ip
    pure true

end Xv6.Disk
