import Mathlib.Data.Fintype.Basic
import Xv6.Fs.Inode

/-! # The inode cache, section by section

`iget`, `idup`, `ilock`, `iunlock`, `iput` and `ialloc` of `fs.c` for the processes of a type `ι`. A
section under `icache.lock` is one step, and so is the use of a buffer with inodes. What a process
does to the fields of an entry whose sleep lock it holds is seen by nobody else before it gives the
lock back, so that assignments and the `iupdate` that follows them are one step.

The references are held by pointers, of a type `ω`: variables of processes, the `ip` of open files,
current directories. Several processes may use one pointer at a time, such as that of a file they
share; it is neither given to `iput` nor assigned to another pointer as long as one of them does.

Of the directories it is only known how many entries name an inode. The surroundings of the inode
layer call `iget` for an inode that an entry names, make an entry for an inode that has links, and
keep `nlink` positive as long as there is an entry. -/

namespace Xv6.Icache

open Fs (InodeType Ip NINODE NINODES)
open Function

/-- A device and the number of an inode, or of a block, on it. -/
abbrev Id := Nat × Nat

/-- `struct dinode`, with the addresses of all its blocks. -/
structure Dinode where
  /-- `none` is 0. -/
  type : Option InodeType
  nlink : Int
  addrs : List Nat
  deriving DecidableEq

/-- `struct inode`, without its lock. -/
structure Inode where
  dev : Nat
  inum : Nat
  ref : Int
  valid : Bool
  /-- The copy of the inode on the disk. -/
  copy : Dinode
  deriving DecidableEq

def Inode.id (v : Inode) : Id := (v.dev, v.inum)

/-- Where a process is in `iput`. -/
inductive Stage
  /-- It waits for the lock of the entry. -/
  | wait
  /-- It tests `valid` and `nlink`. -/
  | test
  /-- It reads `ref`. -/
  | read
  | itrunc
  /-- Past `itrunc`. -/
  | free
  | releasesleep
  /-- It has given back the lock. -/
  | unref
  deriving DecidableEq

/-- A pointer to an entry. -/
inductive Ptr (ι : Type)
  | null
  /-- In `ialloc`, before the inode `inum`. -/
  | ialloc (p : ι) (dev : Nat) (type : InodeType) (inum : Nat)
  /-- In `ialloc`, which has taken an inode into use. -/
  | iget (p : ι) (id : Id)
  | ref (ip : Ip)
  | iput (p : ι) (ip : Ip) (k : Stage)
  deriving DecidableEq

/-- How a process uses a pointer. -/
inductive Use
  | idle
  /-- In `ilock`, before it has the lock. -/
  | waiting
  /-- In `ilock`, with the lock. -/
  | filling
  /-- Between `ilock` and `iunlock`. -/
  | locked
  deriving DecidableEq

structure State (ι ω : Type) where
  icache : Ip → Inode
  /-- The process that holds the sleep lock of an entry. -/
  lock : Ip → Option ι
  disk : Id → Dinode
  /-- The bitmaps of the devices. -/
  used : Id → Bool
  ptr : ω → Ptr ι
  use : ι → ω → Use
  /-- The number of directory entries that name an inode. -/
  entries : Id → Nat
  /-- How often an inode has been allocated. -/
  allocs : Id → Nat

inductive Act (ι ω : Type)
  | iget (x : ω) (id : Id)
  | idup (x y : ω)
  /-- The assignment `y = x`, after which `x` is not used. -/
  | assign (x y : ω)
  | ilock (p : ι) (x : ω)
  /-- `acquiresleep` in `ilock`. -/
  | acquiresleep (p : ι) (x : ω)
  /-- The end of `ilock`. -/
  | fill (p : ι) (x : ω)
  | iunlock (p : ι) (x : ω)
  /-- `ip->nlink = n` and `iupdate`. -/
  | nlink (p : ι) (x : ω) (n : Int)
  /-- A write that appends the block `b`. -/
  | balloc (p : ι) (x : ω) (b : Nat)
  | iput (p : ι) (x : ω)
  | ialloc (p : ι) (x : ω) (dev : Nat) (type : InodeType)
  /-- The next step of `iput` or `ialloc`. -/
  | goOn (x : ω)
  /-- A new entry of a directory. -/
  | link (id : Id)
  /-- An entry of a directory is removed. -/
  | unlink (id : Id)
  deriving DecidableEq

namespace State

variable {ι ω : Type} (s : State ι ω)

def Unused (x : ω) : Prop := ∀ p, s.use p x = .idle

instance [Fintype ι] (x : ω) : Decidable (s.Unused x) := inferInstanceAs (Decidable (∀ _, _))

/-- A step through the pointer `x` to an entry. -/
def onRef (x : ω) (f : Ip → Option (State ι ω)) : Option (State ι ω) :=
  match s.ptr x with
  | .ref ip => f ip
  | _ => none

def setInode (ip : Ip) (v : Inode) : State ι ω := { s with icache := update s.icache ip v }

def setLock (ip : Ip) (v : Option ι) : State ι ω := { s with lock := update s.lock ip v }

/-- Change the copy of an inode, and with `iupdate` the inode on the disk. -/
def setCopy (ip : Ip) (v : Dinode) : State ι ω :=
  { s.setInode ip { s.icache ip with copy := v } with
    disk := update s.disk (s.icache ip).id v }

/-- `bfree` for the blocks of an inode, and `iupdate`. -/
def itrunc (ip : Ip) : State ι ω :=
  let v := s.icache ip
  { s.setCopy ip { v.copy with addrs := [] } with
    used := fun b => s.used b && !decide (b.1 = v.dev ∧ b.2 ∈ v.copy.addrs) }

/-- `balloc`, with the block `b`, and `iupdate`. -/
def append (ip : Ip) (b : Nat) : State ι ω :=
  let v := s.icache ip
  { s.setCopy ip { v.copy with addrs := v.copy.addrs ++ [b] } with
    used := update s.used (v.dev, b) true }

/-- `ip->type = 0`, `iupdate` and `ip->valid = 0`. -/
def free (ip : Ip) : State ι ω :=
  let s := s.setCopy ip { (s.icache ip).copy with type := none }
  s.setInode ip { s.icache ip with valid := false }

section
variable [DecidableEq ω]

def setPtr (x : ω) (v : Ptr ι) : State ι ω := { s with ptr := update s.ptr x v }

def setUse [DecidableEq ι] (p : ι) (x : ω) (v : Use) : State ι ω :=
  { s with use := update s.use p (update (s.use p) x v) }

@[simp] theorem setPtr_self : (s.setPtr x v).ptr x = v := by simp [setPtr]

theorem setPtr_of_ne (h : y ≠ x) : (s.setPtr x v).ptr y = s.ptr y := by
  simp [setPtr, h]

@[simp] theorem setUse_self [DecidableEq ι] : (s.setUse p x v).use p x = v := by
  simp [setUse]

theorem setUse_of_ne [DecidableEq ι] (h : ¬ (q = p ∧ y = x)) :
    (s.setUse p x v).use q y = s.use q y := by
  by_cases e : q = p
  · subst e
    have hne : y ≠ x := fun e => h ⟨rfl, e⟩
    simp [setUse, hne]
  · simp [setUse, e]

def get (x : ω) (ip : Ip) : State ι ω :=
  (s.setInode ip { s.icache ip with ref := (s.icache ip).ref + 1 }).setPtr x (.ref ip)

def load (x : ω) (ip : Ip) (id : Id) : State ι ω :=
  (s.setInode ip { s.icache ip with dev := id.1, inum := id.2, ref := 1, valid := false }).setPtr x
    (.ref ip)

def iget (x : ω) (id : Id) : Option (State ι ω) :=
  match (List.finRange NINODE).find? fun ip => 0 < (s.icache ip).ref ∧ (s.icache ip).id = id with
  | some ip => some (s.get x ip)
  | none =>
    match (List.finRange NINODE).find? fun ip => (s.icache ip).ref = 0 with
    | some ip => some (s.load x ip id)
    | none => none

def putStep (x : ω) (p : ι) (ip : Ip) : Stage → Option (State ι ω)
  | .wait =>
    if s.lock ip = none then some ((s.setLock ip (some p)).setPtr x (.iput p ip .test)) else none
  | .test =>
    if (s.icache ip).valid = true ∧ (s.icache ip).copy.nlink = 0 then
      some (s.setPtr x (.iput p ip .read))
    else some (s.setPtr x (.iput p ip .releasesleep))
  | .read =>
    if (s.icache ip).ref = 1 then some (s.setPtr x (.iput p ip .itrunc))
    else some (s.setPtr x (.iput p ip .releasesleep))
  | .itrunc => some ((s.itrunc ip).setPtr x (.iput p ip .free))
  | .free => some ((s.free ip).setPtr x (.iput p ip .releasesleep))
  | .releasesleep => some ((s.setLock ip none).setPtr x (.iput p ip .unref))
  | .unref =>
    some ((s.setInode ip { s.icache ip with ref := (s.icache ip).ref - 1 }).setPtr x .null)

/-- Take a free inode into use. -/
def mark (x : ω) (p : ι) (id : Id) (type : InodeType) : State ι ω :=
  { s.setPtr x (.iget p id) with
    disk := update s.disk id ⟨some type, 0, []⟩
    allocs := update s.allocs id (s.allocs id + 1) }

/-- One iteration of the loop of `ialloc`; it panics at the end. -/
def scan (x : ω) (p : ι) (dev : Nat) (type : InodeType) (inum : Nat) : Option (State ι ω) :=
  if inum < NINODES then
    if (s.disk (dev, inum)).type = none then some (s.mark x p (dev, inum) type)
    else some (s.setPtr x (.ialloc p dev type (inum + 1)))
  else none

def goOn (x : ω) : Option (State ι ω) :=
  match s.ptr x with
  | .iput p ip k => s.putStep x p ip k
  | .ialloc p dev type inum => s.scan x p dev type inum
  | .iget _ id => s.iget x id
  | .null | .ref _ => none

end

variable [DecidableEq ω] [DecidableEq ι]

/-- The steps of a process that uses the pointer `x` to the entry `ip`. -/
def useStep (p : ι) (x : ω) (ip : Ip) : Use → Option (State ι ω)
  | .idle => if 1 ≤ (s.icache ip).ref then some (s.setUse p x .waiting) else none
  | .waiting =>
    if s.lock ip = none then some ((s.setLock ip (some p)).setUse p x .filling) else none
  | .filling =>
    if (s.icache ip).valid = true then some (s.setUse p x .locked)
    else
      let v := s.disk (s.icache ip).id
      if v.type = none then none
      else some ((s.setInode ip { s.icache ip with valid := true, copy := v }).setUse p x .locked)
  | .locked =>
    if s.lock ip = some p ∧ 1 ≤ (s.icache ip).ref then some ((s.setLock ip none).setUse p x .idle)
    else none

def onUse (p : ι) (x : ω) (u : Use) : Option (State ι ω) :=
  s.onRef x fun ip => if s.use p x = u then s.useStep p x ip u else none

def next [Fintype ι] (s : State ι ω) : Act ι ω → Option (State ι ω)
  | .iget x id => if s.ptr x = .null ∧ 0 < s.entries id then s.iget x id else none
  | .idup x y => s.onRef x fun ip => if s.ptr y = .null then some (s.get y ip) else none
  | .assign x y => s.onRef x fun ip =>
    if s.Unused x ∧ s.ptr y = .null then some ((s.setPtr x .null).setPtr y (.ref ip)) else none
  | .ilock p x => s.onUse p x .idle
  | .acquiresleep p x => s.onUse p x .waiting
  | .fill p x => s.onUse p x .filling
  | .iunlock p x => s.onUse p x .locked
  | .nlink p x n => s.onRef x fun ip =>
    if s.use p x = .locked ∧ (0 < n ∨ s.entries (s.icache ip).id = 0) then
      some (s.setCopy ip { (s.icache ip).copy with nlink := n })
    else none
  | .balloc p x b => s.onRef x fun ip =>
    if s.use p x = .locked ∧ s.used ((s.icache ip).dev, b) = false then some (s.append ip b)
    else none
  | .iput p x => s.onRef x fun ip =>
    if s.Unused x then some (s.setPtr x (.iput p ip .wait)) else none
  | .ialloc p x dev type =>
    if s.ptr x = .null then some (s.setPtr x (.ialloc p dev type 1)) else none
  | .goOn x => s.goOn x
  | .link id =>
    if (s.disk id).type ≠ none ∧ 0 < (s.disk id).nlink then
      some { s with entries := update s.entries id (s.entries id + 1) }
    else none
  | .unlink id => some { s with entries := update s.entries id (s.entries id - 1) }

end State

/-- The blocks of the inodes are in use, and those of different inodes are different. -/
structure Blocks {ι ω : Type} (s : State ι ω) : Prop where
  used : ∀ dev i b, b ∈ (s.disk (dev, i)).addrs → s.used (dev, b) = true
  disjoint : ∀ dev i j b, b ∈ (s.disk (dev, i)).addrs → b ∈ (s.disk (dev, j)).addrs → i = j

/-- The inodes that directory entries name are in use and have links. -/
def Linked {ι ω : Type} (s : State ι ω) : Prop :=
  ∀ id, 0 < s.entries id → (s.disk id).type ≠ none ∧ 0 < (s.disk id).nlink

/-- The cache from the end of `iinit`, on disks that are in order. -/
def cache (ι ω : Type) [DecidableEq ι] [DecidableEq ω] [Fintype ι] :
    LTS (State ι ω) (Act ι ω) where
  init s := (∀ ip, (s.icache ip).ref = 0) ∧ (∀ ip, s.lock ip = none) ∧ (∀ x, s.ptr x = .null) ∧
    (∀ p x, s.use p x = .idle) ∧ Blocks s ∧ Linked s
  next := State.next

end Xv6.Icache
