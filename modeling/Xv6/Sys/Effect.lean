import Xv6.Lib.Holding
import Xv6.Lib.Table
import Xv6.Sys.Sysfile

/-! # What a call does, step by step

A call changes the state in small steps, each with what the code has made sure of before it. Between
the steps the call holds resources: references and locks of inodes, references to files, and the
operations it has begun. A reference to an inode may come with knowledge of it, gained when the
inode was locked.

Where the code makes a change on trust and pays for it later (`fdalloc` before `filedup`, `iput` of
a current directory before it is replaced), the steps are in the order in which nothing is owed. -/

namespace Xv6.Sys

open Fault Holding Thread
open Fs (Inode Ip FileType Name Dirent InodeType NFILE NOFILE W_OK newPerm WantsWrite openFile)

/-- What a call knows of an inode. -/
inductive Know
  | plain
  /-- `checkmod` lets the current user write it. -/
  | write
  /-- It is not a directory. -/
  | file
  deriving DecidableEq

/-- What a call may hold. -/
inductive Res
  | ref (k : Know) (ip : Ip)
  | lock (ip : Ip)
  | file (f : Fin NFILE)
  | op
  deriving DecidableEq

/-- The calls that may do more than others: `account` ones change the user table and set owners, and
`link` ones change directories without a test. -/
inductive Mode
  | plain | account | link
  deriving DecidableEq

abbrev Config := Multiset Res × State

/-- What a call must know of a directory to change its entries. -/
def Know.Allows (m : Mode) (k : Know) : Prop := k = .write ∨ m = .link

/-- The reference that a file has. -/
def FileType.held : FileType → Multiset Res
  | .FD_INODE ip => {.ref .plain ip}
  | _ => 0

/-- The reference that a current directory is. -/
def cwdHeld (v : Option Ip) : Multiset Res := v.elim 0 fun ip => {.ref .plain ip}

/-- No permission to write is held. -/
def NoWrite (R : Multiset Res) : Prop := ∀ ip, Res.ref .write ip ∉ R

namespace State

variable (s : State)

def locked (p : Slot) (ip : Ip) : State :=
  (s.setLock ip (some (s.pid p))).setEntry ip { s.icache ip with valid := true }

/-- The condition under which `iput` frees the inode. -/
def Frees (ip : Ip) : Prop :=
  (s.icache ip).valid = true ∧ (s.ino ip).nlink = 0 ∧ (s.icache ip).ref = 1

instance (ip : Ip) : Decidable (s.Frees ip) := inferInstanceAs (Decidable (_ ∧ _))

def put (ip : Ip) : State :=
  let s := if s.Frees ip then s.free ip else s
  s.setEntry ip { s.icache ip with ref := (s.icache ip).ref - 1 }

def close (f : Fin NFILE) : State :=
  if (s.file f).ref - 1 > 0 then s.setFile f { s.file f with ref := (s.file f).ref - 1 }
  else
    let s' := s.setFile f { s.file f with ref := 0, type := .FD_NONE }
    match (s.file f).type with
    | .FD_INODE ip => s'.put ip
    | _ => s'

/-- The inode that `create` makes. -/
def made (type : InodeType) : Inode :=
  ⟨some type, 1, newPerm type, if s.ltable.userCnt = 0 then Users.root.1 else s.whoami, []⟩

/-- A free inode becomes one that `create` makes. -/
def make (inum : Nat) (type : InodeType) : State :=
  { (s.setInode inum (s.made type)).setData inum [] with
    allocs := Function.update s.allocs inum (s.allocs inum + 1) }

/-- What `open` leaves when it succeeds. -/
def opened (p : Slot) (fd : Fin NOFILE) (f : Fin NFILE) (ip : Ip) (omode : UInt32) : State :=
  ((s.setFile f (openFile ip omode 1)).setOfile p fd (some f)).setOff f 0

end State

/-- The current user may write what `create` makes. -/
theorem State.grants_made {s : State} {type : InodeType} : s.Grants (s.made type) W_OK := by
  have howner : Users.equals (s.made type).owner s.whoami = true := by
    rw [Users.equals_iff, State.made, Fs.State.whoami]
    split <;> rfl
  have htype : (s.made type).type = some type := rfl
  have hperm : (s.made type).perm = Fs.newPerm type := rfl
  simp only [Fs.State.Grants, Fs.checkmod, howner, true_or, if_true, htype, hperm]
  cases type with
  | T_DIR | T_FILE | T_DEV => decide

section Put
variable {s : State} {ip : Ip}

/-- What `iput` leaves as it is. -/
theorem State.put_cases {P : State → Prop}
    (hd : P (s.setEntry ip { s.icache ip with ref := (s.icache ip).ref - 1 }))
    (hf : s.Frees ip → P ((s.free ip).setEntry ip
      { (s.free ip).icache ip with ref := ((s.free ip).icache ip).ref - 1 })) : P (s.put ip) := by
  unfold State.put
  by_cases h : s.Frees ip
  · simpa only [if_pos h] using hf h
  · simpa only [if_neg h] using hd

@[simp] theorem State.put_inum {ip' : Ip} : ((s.put ip).icache ip').inum = (s.icache ip').inum := by
  refine put_cases (P := fun t => (t.icache ip').inum = (s.icache ip').inum) ?_ fun _ => ?_
  · by_cases e : ip' = ip <;> simp [setEntry, e]
  · by_cases e : ip' = ip <;>
      simp [setEntry, free, setIno, setInode, setData, e]

@[simp] theorem State.put_file : (s.put ip).file = s.file :=
  put_cases (P := fun t => t.file = s.file) rfl fun _ => rfl

@[simp] theorem State.put_ofile : (s.put ip).ofile = s.ofile :=
  put_cases (P := fun t => t.ofile = s.ofile) rfl fun _ => rfl

@[simp] theorem State.put_tab : (s.put ip).tab = s.tab :=
  put_cases (P := fun t => t.tab = s.tab) rfl fun _ => rfl

@[simp] theorem State.put_lock : (s.put ip).lock = s.lock :=
  put_cases (P := fun t => t.lock = s.lock) rfl fun _ => rfl

@[simp] theorem State.put_outstanding : (s.put ip).outstanding = s.outstanding :=
  put_cases (P := fun t => t.outstanding = s.outstanding) rfl fun _ => rfl

end Put

/-! ## The steps -/

/-- Steps on locks and transactions. -/
inductive LockStep : Config → Config → Prop
  | lock {R s ip} (v : Int) : s.lock ip = none →
    LockStep (R, s) ({.lock ip} + R, s.setLock ip (some v))
  | unlock {R s ip} : LockStep ({.lock ip} + R, s) (R, s.setLock ip none)
  | beginOp {R s} : LockStep (R, s) ({.op} + R, { s with outstanding := s.outstanding + 1 })
  | endOp {R s} : LockStep ({.op} + R, s) (R, { s with outstanding := s.outstanding - 1 })

/-- Steps on inodes and references to them. -/
inductive CacheStep (m : Mode) : Config → Config → Prop
  | get {R s ip} : 0 < (s.icache ip).ref ∨ (∃ q, s.cwd q = some ip) →
    CacheStep m (R, s)
      ({.ref .plain ip} + R, s.setEntry ip { s.icache ip with ref := (s.icache ip).ref + 1 })
  | load {R s ip} {inum : Nat} : (s.icache ip).ref = 0 →
    (∀ ip', 0 < (s.icache ip').ref → (s.icache ip').inum ≠ inum) →
    CacheStep m (R, s) ({.ref .plain ip} + R, s.setEntry ip ⟨inum, 1, false⟩)
  | valid {R s ip} : (s.icache ip).valid = true ∨ (s.ino ip).type ≠ none →
    CacheStep m (R, s) (R, s.setEntry ip { s.icache ip with valid := true })
  | put {R s k ip} : CacheStep m ({.ref k ip} + R, s) (R, s.put ip)
  | leak {R s k ip} : CacheStep m ({.ref k ip} + R, s) (R, s)
  | grant {R s ip} : s.Grants (s.ino ip) W_OK →
    CacheStep m ({.ref .plain ip} + R, s) ({.ref .write ip} + R, s)
  | notDir {R s ip} : (s.icache ip).valid = true → (s.ino ip).type ≠ some .T_DIR →
    CacheStep m ({.ref .plain ip} + R, s) ({.ref .file ip} + R, s)
  | forget {R s k ip} : CacheStep m ({.ref k ip} + R, s) ({.ref .plain ip} + R, s)
  | make {R s} {inum : Nat} (type : InodeType) : (s.inode inum).type = none →
    CacheStep m (R, s) (R, s.make inum type)
  | links {R s ip} (n : Int16) : CacheStep m (R, s) (R, s.setIno ip { s.ino ip with nlink := n })
  | entries {R s k dp} (es : List Dirent) : Know.Allows m k →
    CacheStep m ({.ref k dp} + R, s) ({.ref k dp} + R, s.setEntries dp es)
  | writeDir {R s f ip} (es : List Dirent) : (s.file f).type = .FD_INODE ip →
    (s.file f).writable = true → (s.ino ip).type = some .T_DIR →
    CacheStep m (R, s) (R, s.setEntries ip es)
  | writeData {R s f ip} (bytes : List UInt8) : (s.file f).type = .FD_INODE ip →
    (s.file f).writable = true → CacheStep m (R, s) (R, s.setData (s.icache ip).inum bytes)
  | perm {R s ip} (mode : UInt32) :
    Users.equals Users.root s.whoami = true ∨ Users.equals (s.ino ip).owner s.whoami = true →
    NoWrite R → CacheStep m (R, s) (R, s.setIno ip { s.ino ip with perm := mode })
  | owner {R s ip} (name : Name) : m = .account → NoWrite R →
    CacheStep m (R, s) (R, s.setIno ip { s.ino ip with owner := name })
  | cwdSet {R s k ip} (q : Slot) :
    CacheStep m ({.ref k ip} + R, s) (cwdHeld (s.cwd q) + R, s.setCwd q (some ip))
  | cwdClear {R s} (q : Slot) : CacheStep m (R, s) (cwdHeld (s.cwd q) + R, s.setCwd q none)

/-- Steps on files and descriptors, in a call of the slot `p`. -/
inductive FileStep (p : Slot) : Config → Config → Prop
  | new {R s f} : (s.file f).ref = 0 →
    FileStep p (R, s) ({.file f} + R, s.setFile f { s.file f with ref := 1 })
  | pipe {R s f} (writable : Bool) : (s.file f).ref = 0 →
    FileStep p (R, s) ({.file f} + R, s.setFile f (pipeFile writable 1))
  | dup {R s f} : 1 ≤ (s.file f).ref →
    FileStep p (R, s) ({.file f} + R, s.setFile f { s.file f with ref := (s.file f).ref + 1 })
  | drop {R s f} : 1 < (s.file f).ref →
    FileStep p ({.file f} + R, s) (R, s.setFile f { s.file f with ref := (s.file f).ref - 1 })
  | last {R s f} : (s.file f).ref = 1 → FileStep p ({.file f} + R, s)
      (FileType.held (s.file f).type + R,
        s.setFile f { s.file f with ref := 0, type := .FD_NONE })
  | opened {R s fd f k ip} {omode : UInt32} : (s.file f).ref = 0 → s.ofile p fd = none →
    (WantsWrite omode → s.Grants (s.ino ip) W_OK ∧ k = .file) →
    FileStep p ({.ref k ip} + R, s) (R, s.opened p fd f ip omode)
  | fdSet {R s q fd f} : s.ofile q fd = none → (q = p ∨ Live (s.tab.proc q).state) →
    FileStep p ({.file f} + R, s) (R, s.setOfile q fd (some f))
  | fdClear {R s q fd f} : s.ofile q fd = some f →
    FileStep p (R, s) ({.file f} + R, s.setOfile q fd none)
  | off {R s f} (n : Nat) : FileStep p (R, s) (R, s.setOff f n)

/-- Steps on the process table, which keep the slots with open files live, and on the user table. -/
inductive TableStep (p : Slot) (m : Mode) : Config → Config → Prop
  | tab {R s} {t : Ptable} : (∀ q, Live (s.tab.proc q).state →
      Live (t.proc q).state ∨ q ≠ p ∧ ∀ fd, s.ofile q fd = none) →
    TableStep p m (R, s) (R, s.setTab t)
  | ltable {R s} (t : Users.Ltable) : m = .account → NoWrite R →
    TableStep p m (R, s) (R, s.setLtable t)
  | ltableFd {R s} (fd : UInt32) : m = .account → NoWrite R →
    TableStep p m (R, s) (R, s.setLtableFd fd)

/-- A step of a call of the slot `p`. -/
inductive Micro (p : Slot) (m : Mode) (c c' : Config) : Prop
  | lock : LockStep c c' → Micro p m c c'
  | cache : CacheStep m c c' → Micro p m c c'
  | file : FileStep p c c' → Micro p m c c'
  | table : TableStep p m c c' → Micro p m c c'

/-! ## What the steps leave alone -/

structure SameLocks (c c' : Config) : Prop where
  lock : c'.2.lock = c.2.lock
  outstanding : c'.2.outstanding = c.2.outstanding
  held : ∀ ip, c'.1.count (.lock ip) = c.1.count (.lock ip)
  op : c'.1.count .op = c.1.count .op

structure SameFiles (c c' : Config) : Prop where
  file : c'.2.file = c.2.file
  ofile : c'.2.ofile = c.2.ofile
  tab : c'.2.tab = c.2.tab
  held : ∀ f, c'.1.count (.file f) = c.1.count (.file f)

section Frame
@[simp] theorem count_cwdHeld_lock :
    (cwdHeld v).count (.lock ip) = 0 := by cases v <;> simp [cwdHeld]

@[simp] theorem count_cwdHeld_file :
    (cwdHeld v).count (.file f) = 0 := by cases v <;> simp [cwdHeld]

@[simp] theorem count_cwdHeld_op : (cwdHeld v).count .op = 0 := by
  cases v <;> simp [cwdHeld]

@[simp] theorem count_held_lock :
    (FileType.held t).count (.lock ip) = 0 := by cases t <;> simp [FileType.held]

@[simp] theorem count_held_file :
    (FileType.held t).count (.file f) = 0 := by cases t <;> simp [FileType.held]

@[simp] theorem count_held_op : (FileType.held t).count .op = 0 := by
  cases t <;> simp [FileType.held]

theorem LockStep.sameFiles (h : LockStep c c') : SameFiles c c' := by
  cases h <;> exact ⟨rfl, rfl, rfl, by simp⟩

theorem CacheStep.sameFiles (h : CacheStep m c c') : SameFiles c c' := by
  cases h with
  | put => exact ⟨by simp, by simp, by simp, by simp⟩
  | _ => exact ⟨rfl, rfl, rfl, by simp⟩

theorem CacheStep.sameLocks (h : CacheStep m c c') : SameLocks c c' := by
  cases h with
  | put => exact ⟨by simp, by simp, by simp, by simp⟩
  | _ => exact ⟨rfl, rfl, by simp, by simp⟩

theorem FileStep.sameLocks (h : FileStep p c c') : SameLocks c c' := by
  cases h <;> exact ⟨rfl, rfl, by simp, by simp⟩

theorem TableStep.sameLocks (h : TableStep p m c c') : SameLocks c c' := by
  cases h <;> exact ⟨rfl, rfl, fun _ => rfl, rfl⟩

end Frame

end Xv6.Sys
