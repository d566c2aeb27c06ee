import Mathlib.Order.Basic
import Xv6.Lib.Triple
import Xv6.Thread.Ptable
import Xv6.Users.Ltable

/-! # Inodes, directories and paths

The inode layer of `fs.c` with the permissions of `sysfile.c`. Every change that the kernel makes to
an inode in memory is followed by `iupdate` before the inode is unlocked, so with a system call as
one step there is one copy of the inodes, and the inode cache holds numbers and reference counts.
A directory is its entries; the bytes of the other files are left out, as are the locks and the
transactions of the log. A panic stops the program. -/

namespace Xv6.Fs

open Prog

def NINODE : Nat := 50

theorem NINODE_pos : 0 < NINODE := by decide

def NFILE : Nat := 100

def DIRSIZ : Nat := 14

def ROOTINO : Nat := 1

/-- `sb.ninodes`, as `mkfs` sets it. -/
def NINODES : Nat := 200

def MODE_RUSR : UInt32 := 32

def MODE_WUSR : UInt32 := 16

def MODE_XUSR : UInt32 := 8

def MODE_ROTH : UInt32 := 4

def MODE_WOTH : UInt32 := 2

def MODE_XOTH : UInt32 := 1

def R_OK : UInt32 := 4

def W_OK : UInt32 := 2

def X_OK : UInt32 := 1

/-- A name or a path. -/
abbrev Name := List UInt8

structure Dirent where
  inum : Nat
  name : Name
  deriving DecidableEq

/-- `struct dinode`; a free one has no type. -/
structure Inode where
  type : Option InodeType
  nlink : Int16
  perm : UInt32
  owner : Name
  entries : List Dirent
  deriving DecidableEq

structure Entry where
  inum : Nat
  ref : Int
  valid : Bool
  deriving DecidableEq

abbrev Ip := Fin NINODE

inductive FileType
  | FD_NONE
  | FD_PIPE
  | FD_INODE (ip : Ip)
  deriving DecidableEq

structure File where
  type : FileType
  ref : Int
  readable : Bool
  writable : Bool
  deriving DecidableEq

structure State where
  inode : Nat → Inode
  icache : Ip → Entry
  file : Fin NFILE → File
  tab : Thread.Ptable
  /-- `ofile` of the processes. -/
  ofile : Slot → Fin NOFILE → Option (Fin NFILE)
  /-- `cwd` of the processes. -/
  cwd : Slot → Option Ip
  ltable : Users.Ltable
  /-- `ltable.fd`. -/
  ltableFd : UInt32

abbrev Kernel (α : Type) := Prog State α

namespace State

variable (s : State)

/-- The inode that an entry of the cache stands for. -/
def ino (ip : Ip) : Inode := s.inode (s.icache ip).inum

def setInode (inum : Nat) (v : Inode) : State := { s with inode := Function.update s.inode inum v }

/-- Change the inode of an entry. -/
def setIno (ip : Ip) (v : Inode) : State := s.setInode (s.icache ip).inum v

def setEntry (ip : Ip) (v : Entry) : State := { s with icache := Function.update s.icache ip v }

def setFile (f : Fin NFILE) (v : File) : State := { s with file := Function.update s.file f v }

def setOfile (p : Slot) (fd : Fin NOFILE) (v : Option (Fin NFILE)) : State :=
  { s with ofile := Function.update s.ofile p (Function.update (s.ofile p) fd v) }

def setCwd (p : Slot) (v : Option Ip) : State := { s with cwd := Function.update s.cwd p v }

def setTab (t : Thread.Ptable) : State := { s with tab := t }

/-- `whoami`. Before the first login it reads the row before the first one, which is the memory of
`ltable.fd`, `ltable.userIdx` and `ltable.userCnt`. -/
def whoami : Name :=
  if s.ltable.userCnt = 0 then Users.root.1
  else if 0 ≤ s.ltable.userIdx then s.ltable.username s.ltable.userIdx.toNat
  else (wordBytes s.ltableFd ++ wordBytes (.ofInt s.ltable.userIdx) ++
    wordBytes (.ofNat s.ltable.userCnt)).takeWhile (· ≠ 0)

end State

/-! ## Permissions -/

/-- `checkmod`, for a user. -/
def checkmod (username : Name) (st : Inode) : UInt32 :=
  if st.type = some .T_DEV then R_OK ||| W_OK ||| X_OK
  else if Users.equals st.owner username ∨ Users.equals Users.root username then
    (if st.perm &&& MODE_RUSR ≠ 0 then R_OK else 0) |||
      (if st.perm &&& MODE_WUSR ≠ 0 then W_OK else 0) |||
      (if st.perm &&& MODE_XUSR ≠ 0 then X_OK else 0)
  else
    (if st.perm &&& MODE_ROTH ≠ 0 then R_OK else 0) |||
      (if st.perm &&& MODE_WOTH ≠ 0 then W_OK else 0) |||
      (if st.perm &&& MODE_XOTH ≠ 0 then X_OK else 0)

/-- `checkmod(st) & ok`, for the current user. -/
def State.Grants (s : State) (st : Inode) (ok : UInt32) : Prop := checkmod s.whoami st &&& ok ≠ 0

instance (s : State) (st : Inode) (ok : UInt32) : Decidable (s.Grants st ok) :=
  inferInstanceAs (Decidable (_ ≠ _))

/-- The test of `checkmod` on an inode in the cache. -/
def grants (ip : Ip) (ok : UInt32) : Kernel Bool := reads fun s => s.Grants (s.ino ip) ok

/-! ## The inode cache -/

/-- `iget`; it panics if no entry is free. -/
def iget (inum : Nat) : Kernel Ip := do
  let icache ← reads State.icache
  match (List.finRange NINODE).find? fun ip => (icache ip).ref > 0 ∧ (icache ip).inum = inum with
  | some ip =>
    writes fun s => s.setEntry ip { icache ip with ref := (icache ip).ref + 1 }
    pure ip
  | none =>
    match (List.finRange NINODE).find? fun ip => (icache ip).ref = 0 with
    | some ip =>
      writes fun s => s.setEntry ip ⟨inum, 1, false⟩
      pure ip
    | none => stop

def idup (ip : Ip) : Kernel Ip := do
  writes fun s => s.setEntry ip { s.icache ip with ref := (s.icache ip).ref + 1 }
  pure ip

/-- `ilock` without the lock. -/
def ilock (ip : Ip) : Kernel Unit := do
  check fun s => 1 ≤ (s.icache ip).ref ∧ ((s.icache ip).valid = true ∨ (s.ino ip).type ≠ none)
  writes fun s => s.setEntry ip { s.icache ip with valid := true }

def iunlock (ip : Ip) : Kernel Unit := check fun s => 1 ≤ (s.icache ip).ref

/-- `itrunc`, `type = 0` and `iupdate`. -/
def State.free (s : State) (ip : Ip) : State :=
  (s.setIno ip { s.ino ip with type := none, entries := [] }).setEntry ip
    { s.icache ip with valid := false }

def iput (ip : Ip) : Kernel Unit := do
  writes fun s =>
    if (s.icache ip).valid = true ∧ (s.ino ip).nlink = 0 ∧ (s.icache ip).ref = 1 then s.free ip
    else s
  writes fun s => s.setEntry ip { s.icache ip with ref := (s.icache ip).ref - 1 }

def iunlockput (ip : Ip) : Kernel Unit := do
  iunlock ip
  iput ip

/-- `ialloc`; it panics if no inode is free. -/
def ialloc (type : InodeType) : Kernel Ip := do
  let inode ← reads State.inode
  match (List.range' 1 (NINODES - 1)).find? fun inum => (inode inum).type = none with
  | some inum =>
    writes fun s => s.setInode inum ⟨some type, 0, 0, [], []⟩
    iget inum
  | none => stop

/-! ## Directories -/

def namecmp (s t : Name) : Int := CString.strncmp s t DIRSIZ

/-- The index of the entry that `dirlookup` finds. -/
def Inode.lookup (dp : Inode) (name : Name) : Option Nat :=
  dp.entries.findIdx? fun de => de.inum ≠ 0 ∧ namecmp name de.name = 0

/-- `dirlookup`, with the index of the entry for `*poff`. -/
def dirlookup (dp : Ip) (name : Name) : Kernel (Option (Ip × Nat)) := do
  check fun s => (s.ino dp).type = some .T_DIR
  let d ← reads fun s => s.ino dp
  match d.lookup name with
  | some off =>
    let ip ← iget (d.entries[off]?.elim 0 Dirent.inum)
    pure (some (ip, off))
  | none => pure none

/-- The entries with a new one in the first free place. -/
def addEntry (entries : List Dirent) (de : Dirent) : List Dirent :=
  match entries.findIdx? fun de => de.inum = 0 with
  | some off => entries.set off de
  | none => entries ++ [de]

/-- `dirlink`, with `true` for the result 0. -/
def dirlink (dp : Ip) (name : Name) (inum : Nat) : Kernel Bool := do
  match ← dirlookup dp name with
  | some (ip, _) =>
    iput ip
    pure false
  | none =>
    writes fun s => s.setIno dp { s.ino dp with
      entries := addEntry (s.ino dp).entries ⟨inum, name.take DIRSIZ⟩ }
    pure true

def Inode.isdirempty (dp : Inode) : Bool := (dp.entries.drop 2).all fun de => de.inum = 0

/-! ## Paths -/

/-- `skipelem`: the next element of a path and what follows it. -/
def skipelem (path : Name) : Option (Name × Name) :=
  let path := path.dropWhile (· = Users.SLASH)
  if path = [] then none
  else some ((path.takeWhile (· ≠ Users.SLASH)).take DIRSIZ,
    (path.dropWhile (· ≠ Users.SLASH)).dropWhile (· = Users.SLASH))

/-- The elements that the calls of `skipelem` in `namex` give. -/
def elemsFor : Nat → Name → List Name
  | 0, _ => []
  | k + 1, path =>
    match skipelem path with
    | none => []
    | some (name, path) => name :: elemsFor k path

def elems (path : Name) : List Name := elemsFor path.length path

theorem length_skipelem (h : skipelem path = some (name, rest)) : rest.length < path.length := by
  simp only [skipelem] at h
  split at h
  · cases h
  · next hne =>
    cases h
    have h₁ := (List.dropWhile_sublist (l := path) (· = Users.SLASH)).length_le
    cases hd : path.dropWhile (· = Users.SLASH) with
    | nil => exact absurd hd hne
    | cons c cs =>
      have hc : c ≠ Users.SLASH := by
        have := List.head?_dropWhile_not (· = Users.SLASH) path
        simpa [hd] using this
      rw [hd, List.length_cons] at h₁
      have h₂ := (List.dropWhile_sublist (l := cs) (· ≠ Users.SLASH)).length_le
      have h₃ := (List.dropWhile_sublist (l := cs.dropWhile (· ≠ Users.SLASH))
        (· = Users.SLASH)).length_le
      simp only [List.dropWhile_cons, decide_not, hc, decide_false, Bool.not_false, if_true] at *
      omega

theorem elemsFor_succ (h : path.length ≤ k) : elemsFor (k + 1) path = elemsFor k path := by
  induction k generalizing path with
  | zero =>
    obtain rfl := List.length_eq_zero_iff.mp (Nat.le_zero.mp h)
    rfl
  | succ k ih =>
    rw [elemsFor, elemsFor]
    cases hs : skipelem path with
    | none => rfl
    | some r =>
      have := length_skipelem hs
      exact congrArg _ (ih (by omega))

theorem elemsFor_eq (h : path.length ≤ k) : elemsFor k path = elems path := by
  induction k, h using Nat.le_induction with
  | base => rfl
  | succ k h ih => rw [elemsFor_succ h, ih]

/-- `elems` takes as many steps as it needs. -/
theorem elems_eq (path : Name) : elems path = match skipelem path with
    | none => []
    | some (name, path) => name :: elems path := by
  rw [← elemsFor_eq (Nat.le_succ path.length), elemsFor]
  cases hs : skipelem path with
  | none => rfl
  | some r => exact congrArg _ (elemsFor_eq (length_skipelem hs).le)

/-- The loop of `namex`, for the process in slot `p`. -/
def namexLoop (p : Slot) (nameiparent : Bool) : Ip → List Name → Kernel (Option (Ip × Name))
  | ip, [] =>
    if nameiparent then do
      iput ip
      pure none
    else pure (some (ip, []))
  | ip, name :: path => do
    ilock ip
    let d ← reads fun s => s.ino ip
    let pid ← reads fun s => (s.tab.proc p).pid
    let ok ← grants ip X_OK
    if d.type ≠ some .T_DIR then do
      iunlockput ip
      pure none
    else if pid > 2 ∧ ok = false then do
      iunlockput ip
      pure none
    else if nameiparent ∧ path = [] then do
      iunlock ip
      pure (some (ip, name))
    else
      match ← dirlookup ip name with
      | none => do
        iunlockput ip
        pure none
      | some (next, _) => do
        iunlockput ip
        namexLoop p nameiparent next path

/-- `namex`. A process without a current directory starts from a null pointer, which `ilock` and
`iput` do not take. -/
def namex (p : Slot) (path : Name) (nameiparent : Bool) : Kernel (Option (Ip × Name)) := do
  if path.head? = some Users.SLASH then
    let ip ← iget ROOTINO
    namexLoop p nameiparent ip (elems path)
  else
    match (← reads fun s => s.cwd p) with
    | some cwd =>
      let ip ← idup cwd
      namexLoop p nameiparent ip (elems path)
    | none => if elems path = [] ∧ nameiparent = false then pure none else stop

def namei (p : Slot) (path : Name) : Kernel (Option Ip) := do
  let r ← namex p path false
  pure (r.map Prod.fst)

def nameiparent (p : Slot) (path : Name) : Kernel (Option (Ip × Name)) := namex p path true

end Xv6.Fs
