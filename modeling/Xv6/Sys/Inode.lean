import Xv6.Fs.Inode
import Xv6.Lib.Fault

/-! # Inodes with locks, transactions and contents

The inode layer of `fs.c` once more, with what the model in `Xv6.Fs` leaves out: the sleep locks of
the inodes, `log.outstanding`, the bytes of regular files, and what a call stops with when it does
not return. A system call is one step; a call that has to wait for a lock waits for ever. Waiting
for log space and running out of disk blocks are left out.

`dirWrites` and `allocs` are history variables: the changes made to entries of directories, with
whether `checkmod` granted `W_OK` at that moment, and how often each inode has been allocated. -/

namespace Xv6.Sys

open Fault
open Fs (Inode Entry Ip Name Dirent InodeType NINODE NINODES NFILE DIRSIZ ROOTINO BSIZE MAXFILE W_OK
  X_OK addEntry elems)

inductive Stop
  /-- It waits for a lock that is never released. -/
  | blocked
  /-- It follows a null pointer. -/
  | fault
  | iget | ialloc | ilock | ilockType | iunlock | dirlookup | dirlink
  | createDots | createDirlink | unlinkNlink
  | filedup | fileclose | fileread | filewrite
  | loadUsers (n : Nat)
  | initExiting | freevm
  deriving DecidableEq, Repr

/-- A change of an entry of a directory. -/
structure DirWrite where
  inum : Nat
  granted : Bool
  deriving DecidableEq, Repr

structure State extends Fs.State where
  /-- The bytes of the regular files. -/
  data : Nat → List UInt8
  /-- `off` of the files. -/
  off : Fin NFILE → Nat
  /-- The pid of the process that holds the lock of an inode. -/
  lock : Ip → Option Int
  /-- `log.outstanding`. -/
  outstanding : Int
  dirWrites : List DirWrite
  allocs : Nat → Nat

abbrev Kernel (α : Type) := Fault Stop State α

namespace State

variable (s : State)

def setEntry (ip : Ip) (v : Entry) : State := { s with icache := Function.update s.icache ip v }

def setInode (inum : Nat) (v : Inode) : State := { s with inode := Function.update s.inode inum v }

def setIno (ip : Ip) (v : Inode) : State := s.setInode (s.icache ip).inum v

def setData (inum : Nat) (v : List UInt8) : State :=
  { s with data := Function.update s.data inum v }

def setLock (ip : Ip) (v : Option Int) : State := { s with lock := Function.update s.lock ip v }

def pid (p : Slot) : Int := (s.tab.proc p).pid

/-- `size` of an inode. -/
def length (i : Nat) : Nat :=
  if (s.inode i).type = some .T_DIR then 16 * (s.inode i).entries.length else (s.data i).length

def size (ip : Ip) : Nat := s.length (s.icache ip).inum

end State

def grants (ip : Ip) (ok : UInt32) : Kernel Bool := reads fun s => s.Grants (s.ino ip) ok

/-! ## Transactions and locks -/

def beginOp : Kernel Unit := writes fun s => { s with outstanding := s.outstanding + 1 }

def endOp : Kernel Unit := writes fun s => { s with outstanding := s.outstanding - 1 }

/-- `acquiresleep` on the lock of an inode. -/
def acquiresleep (p : Slot) (ip : Ip) : Kernel Unit := do
  check (fun s => s.lock ip = none) .blocked
  writes fun s => s.setLock ip (some (s.pid p))

def releasesleep (ip : Ip) : Kernel Unit := writes fun s => s.setLock ip none

/-! ## The inode cache -/

def iget (inum : Nat) : Kernel Ip := do
  let icache ← reads fun s => s.icache
  match (List.finRange NINODE).find? fun ip => (icache ip).ref > 0 ∧ (icache ip).inum = inum with
  | some ip =>
    writes fun s => s.setEntry ip { icache ip with ref := (icache ip).ref + 1 }
    pure ip
  | none =>
    match (List.finRange NINODE).find? fun ip => (icache ip).ref = 0 with
    | some ip =>
      writes fun s => s.setEntry ip ⟨inum, 1, false⟩
      pure ip
    | none => panic .iget

def idup (ip : Ip) : Kernel Ip := do
  writes fun s => s.setEntry ip { s.icache ip with ref := (s.icache ip).ref + 1 }
  pure ip

def ilock (p : Slot) (ip : Ip) : Kernel Unit := do
  check (fun s => 1 ≤ (s.icache ip).ref) .ilock
  acquiresleep p ip
  check (fun s => (s.icache ip).valid = true ∨ (s.ino ip).type ≠ none) .ilockType
  writes fun s => s.setEntry ip { s.icache ip with valid := true }

def iunlock (p : Slot) (ip : Ip) : Kernel Unit := do
  check (fun s => s.lock ip = some (s.pid p) ∧ 1 ≤ (s.icache ip).ref) .iunlock
  releasesleep ip

def State.free (s : State) (ip : Ip) : State :=
  ((s.setIno ip { s.ino ip with type := none, entries := [] }).setData
    (s.icache ip).inum []).setEntry ip { s.icache ip with valid := false }

def iput (p : Slot) (ip : Ip) : Kernel Unit := do
  acquiresleep p ip
  writes fun s =>
    if (s.icache ip).valid = true ∧ (s.ino ip).nlink = 0 ∧ (s.icache ip).ref = 1 then s.free ip
    else s
  releasesleep ip
  writes fun s => s.setEntry ip { s.icache ip with ref := (s.icache ip).ref - 1 }

def iunlockput (p : Slot) (ip : Ip) : Kernel Unit := do
  iunlock p ip
  iput p ip

def State.alloc (s : State) (inum : Nat) (type : InodeType) : State :=
  { (s.setInode inum ⟨some type, 0, 0, [], []⟩).setData inum [] with
    allocs := Function.update s.allocs inum (s.allocs inum + 1) }

def ialloc (type : InodeType) : Kernel Ip := do
  let inode ← reads fun s => s.inode
  match (List.range' 1 (NINODES - 1)).find? fun inum => (inode inum).type = none with
  | some inum =>
    writes fun s => s.alloc inum type
    iget inum
  | none => panic .ialloc

/-! ## Directories -/

def dirlookup (dp : Ip) (name : Name) : Kernel (Option (Ip × Nat)) := do
  check (fun s => (s.ino dp).type = some .T_DIR) .dirlookup
  let d ← reads fun s => s.ino dp
  match d.lookup name with
  | some off =>
    let ip ← iget (d.entries[off]?.elim 0 Dirent.inum)
    pure (some (ip, off))
  | none => pure none

/-- The entries of the directory `i` are changed. -/
def State.setDir (s : State) (i : Nat) (entries : List Dirent) : State :=
  { s.setInode i { s.inode i with entries := entries } with
    dirWrites := s.dirWrites ++ [⟨i, decide (s.Grants (s.inode i) W_OK)⟩] }

def State.setEntries (s : State) (dp : Ip) (entries : List Dirent) : State :=
  s.setDir (s.icache dp).inum entries

/-- The entries of the largest directory. -/
def MAXENTRIES : Nat := MAXFILE * BSIZE / 16

def dirlink (p : Slot) (dp : Ip) (name : Name) (inum : Nat) : Kernel Bool := do
  match ← dirlookup dp name with
  | some (ip, _) =>
    iput p ip
    pure false
  | none =>
    let entries ← reads fun s => addEntry (s.ino dp).entries ⟨inum, name.take DIRSIZ⟩
    if entries.length ≤ MAXENTRIES then
      writes fun s => s.setEntries dp entries
      pure true
    else panic .dirlink

/-! ## Paths -/

def namexLoop (p : Slot) (nameiparent : Bool) : Ip → List Name → Kernel (Option (Ip × Name))
  | ip, [] =>
    if nameiparent then do
      iput p ip
      pure none
    else pure (some (ip, []))
  | ip, name :: path => do
    ilock p ip
    let d ← reads fun s => s.ino ip
    let pid ← reads fun s => s.pid p
    let ok ← grants ip X_OK
    if d.type ≠ some .T_DIR then do
      iunlockput p ip
      pure none
    else if pid > 2 ∧ ok = false then do
      iunlockput p ip
      pure none
    else if nameiparent ∧ path = [] then do
      iunlock p ip
      pure (some (ip, name))
    else
      match ← dirlookup ip name with
      | none => do
        iunlockput p ip
        pure none
      | some (next, _) => do
        iunlockput p ip
        namexLoop p nameiparent next path

def namex (p : Slot) (path : Name) (nameiparent : Bool) : Kernel (Option (Ip × Name)) := do
  if path.head? = some Users.SLASH then
    let ip ← iget ROOTINO
    namexLoop p nameiparent ip (elems path)
  else
    match (← reads fun s => s.cwd p) with
    | some cwd =>
      let ip ← idup cwd
      namexLoop p nameiparent ip (elems path)
    | none => if elems path = [] ∧ nameiparent = false then pure none else panic .fault

def namei (p : Slot) (path : Name) : Kernel (Option Ip) := do
  let r ← namex p path false
  pure (r.map Prod.fst)

def nameiparent (p : Slot) (path : Name) : Kernel (Option (Ip × Name)) := namex p path true

end Xv6.Sys
