import Xv6.Disk.Inode

/-! # Directories, paths and calls on the disk

The directory layer of `fs.c`, whose entries are bytes of a file here, with `create` and
`sys_unlink` of `sysfile.c`. What `namex` and `checkmod` ask of the process and of the user table is
an argument. -/

namespace Xv6.Disk

open Fault
open Fs (DIRSIZ ROOTINO Name Dirent InodeType namecmp elems checkmod W_OK X_OK newPerm dot dotdot)
open Users (MAX_LEN)

/-! ## Directories -/

/-- `sizeof(struct dirent)`. -/
def DIRENT : Nat := 2 + DIRSIZ

/-- `struct dirent` in memory. -/
def decodeDirent (bytes : List UInt8) : Dirent where
  inum := (bytes.getD 0 0).toNat + 256 * (bytes.getD 1 0).toNat
  name := ((bytes.drop 2).take DIRSIZ).takeWhile (· ≠ 0)

def encodeDirent (inum : Nat) (name : Name) : List UInt8 :=
  .ofNat inum :: .ofNat (inum / 256) :: strncpy [] name DIRSIZ

/-- The offsets of entries from `start` to the end of a directory. -/
def offsets (start size : Nat) : List Nat :=
  (List.range ((size - start + (DIRENT - 1)) / DIRENT)).map fun k => start + DIRENT * k

def readDirent (dp : Ip) (off : Nat) (e : Panic) : Kernel Dirent := do
  match ← readi dp off DIRENT with
  | some bytes => if bytes.length = DIRENT then pure (decodeDirent bytes) else panic e
  | none => panic e

def dirlookupLoop (dp : Ip) (name : Name) : List Nat → Kernel (Option (Ip × Nat))
  | [] => pure none
  | off :: offs => do
    let de ← readDirent dp off .dirlookupRead
    if de.inum = 0 then dirlookupLoop dp name offs
    else if namecmp name de.name = 0 then
      let ip ← iget de.inum
      pure (some (ip, off))
    else dirlookupLoop dp name offs

/-- `dirlookup`, with the offset for `*poff`. -/
def dirlookup (dp : Ip) (name : Name) : Kernel (Option (Ip × Nat)) := do
  check (fun s => (s.ino dp).type = some .T_DIR) .notDir
  let size ← reads fun s => (s.ino dp).size
  dirlookupLoop dp name (offsets 0 size)

/-- The loop of `dirlink` for an empty entry, where `stop` is the offset behind the last one. -/
def emptyLoop (dp : Ip) (stop : Nat) : List Nat → Kernel Nat
  | [] => pure stop
  | off :: offs => do
    let de ← readDirent dp off .dirlinkRead
    if de.inum = 0 then pure off else emptyLoop dp stop offs

/-- `writei` of an entry, which panics if it fails. -/
def writeDirent (dp : Ip) (off : Nat) (bytes : List UInt8) (e : Panic) : Kernel Unit := do
  if (← writei dp off bytes) = some DIRENT then pure () else panic e

def dirlink (dp : Ip) (name : Name) (inum : Nat) : Kernel Bool := do
  match ← dirlookup dp name with
  | some (ip, _) =>
    iput ip
    pure false
  | none =>
    let size ← reads fun s => (s.ino dp).size
    let off ← emptyLoop dp ((size + (DIRENT - 1)) / DIRENT * DIRENT) (offsets 0 size)
    writeDirent dp off (encodeDirent inum name) .dirlink
    pure true

def isdiremptyLoop (dp : Ip) : List Nat → Kernel Bool
  | [] => pure true
  | off :: offs => do
    let de ← readDirent dp off .isdirempty
    if de.inum ≠ 0 then pure false else isdiremptyLoop dp offs

def isdirempty (dp : Ip) : Kernel Bool := do
  let size ← reads fun s => (s.ino dp).size
  isdiremptyLoop dp (offsets (2 * DIRENT) size)

/-! ## Paths -/

/-- What the calls read of the process and of the user table. -/
structure Caller where
  pid : Int
  whoami : Name
  userCnt : Nat
  cwd : Ip

/-- `stati`, as far as `checkmod` reads it. -/
def Dinode.stat (x : Dinode) : Fs.Inode where
  type := x.type
  nlink := x.nlink
  perm := x.perm
  owner := (strncpy [] x.owner (MAX_LEN + 1)).takeWhile (· ≠ 0)
  entries := []

/-- `checkmod(st) & ok`, for an inode in the cache. -/
def grants (c : Caller) (ip : Ip) (ok : UInt32) : Kernel Bool :=
  reads fun s => checkmod c.whoami (s.ino ip).stat &&& ok ≠ 0

def namexLoop (c : Caller) (nameiparent : Bool) : Ip → List Name → Kernel (Option (Ip × Name))
  | ip, [] =>
    if nameiparent then do
      iput ip
      pure none
    else pure (some (ip, []))
  | ip, name :: path => do
    ilock ip
    let d ← reads fun s => s.ino ip
    let ok ← grants c ip X_OK
    if d.type ≠ some .T_DIR then do
      iunlockput ip
      pure none
    else if c.pid > 2 ∧ ok = false then do
      iunlockput ip
      pure none
    else if nameiparent ∧ path = [] then do
      iunlock ip
      pure (some (ip, name))
    else
      match ← dirlookup ip name with
      | none => do
        iunlockput ip
        pure none
      | some (next, _) => do
        iunlockput ip
        namexLoop c nameiparent next path

def namex (c : Caller) (path : Name) (nameiparent : Bool) : Kernel (Option (Ip × Name)) := do
  let ip ← if path.head? = some Users.SLASH then iget ROOTINO else idup c.cwd
  namexLoop c nameiparent ip (elems path)

/-! ## `create` and `unlink` -/

def addLinks (ip : Ip) (n : Int16) : Kernel Unit := do
  writes fun s => s.setIno ip { s.ino ip with nlink := (s.ino ip).nlink + n }
  iupdate ip

def mustLink (dp : Ip) (name : Name) (inum : Nat) (e : Panic) : Kernel Unit := do
  if ← dirlink dp name inum then pure () else panic e

/-- The assignments of `create` to the new inode, with `whoami`. -/
def initInode (c : Caller) (ip : Ip) (type : InodeType) (major minor : Int16) : Kernel Unit := do
  writes fun s => s.setIno ip { s.ino ip with
    major := major
    minor := minor
    nlink := 1
    perm := newPerm type
    owner := c.whoami ++ 0 :: (s.ino ip).owner.drop (c.whoami.length + 1) }
  iupdate ip

def createNew (c : Caller) (dp : Ip) (name : Name) (type : InodeType) (major minor : Int16) :
    Kernel (Option Ip) := do
  if (← grants c dp W_OK) = false then
    iunlock dp
    pure none
  else
    let ip ← ialloc type
    ilock ip
    initInode c ip type major minor
    let inum ← reads fun s => (s.icache ip).inum
    let dinum ← reads fun s => (s.icache dp).inum
    if type = .T_DIR then
      addLinks dp 1
      mustLink ip dot inum .createDots
      mustLink ip dotdot dinum .createDots
    else pure ()
    mustLink dp name inum .createDirlink
    iunlockput dp
    pure (some ip)

def createOld (c : Caller) (ip : Ip) (type : InodeType) : Kernel (Option Ip) := do
  ilock ip
  let st ← reads fun s => s.ino ip
  if type = .T_FILE ∧ st.type = some .T_FILE then
    if c.userCnt > 0 ∧ (← grants c ip W_OK) = false then
      iunlock ip
      pure none
    else pure (some ip)
  else
    iunlockput ip
    pure none

def create (c : Caller) (path : Name) (type : InodeType) (major minor : Int16) :
    Kernel (Option Ip) := do
  match ← namex c path true with
  | none => pure none
  | some (dp, name) =>
    ilock dp
    match ← dirlookup dp name with
    | some (ip, _) =>
      iunlockput dp
      createOld c ip type
    | none => createNew c dp name type major minor

/-- `sys_unlink` behind the permissions, in a directory that is locked. -/
def unlinkIn (dp : Ip) (name : Name) : Kernel Int := do
  if namecmp name dot = 0 ∨ namecmp name dotdot = 0 then
    iunlockput dp
    pure (-1)
  else
    match ← dirlookup dp name with
    | none =>
      iunlockput dp
      pure (-1)
    | some (ip, off) =>
      ilock ip
      let st ← reads fun s => s.ino ip
      if st.nlink < 1 then panic .unlinkNlink
      else
        let empty ← if st.type = some .T_DIR then isdirempty ip else pure true
        if empty = false then
          iunlockput ip
          iunlockput dp
          pure (-1)
        else
          writeDirent dp off (List.replicate DIRENT 0) .unlinkWritei
          if st.type = some .T_DIR then addLinks dp (-1) else pure ()
          iunlockput dp
          addLinks ip (-1)
          iunlockput ip
          pure 0

def sysUnlink (c : Caller) (path : Name) : Kernel Int := do
  match ← namex c path true with
  | none => pure (-1)
  | some (dp, name) =>
    ilock dp
    if (← grants c dp W_OK) = false then
      iunlock dp
      pure (-1)
    else unlinkIn dp name

/-! ## Runs -/

/-- An operation on entries of the inode cache to which the caller has a reference. -/
inductive Op
  | iget (inum : Nat)
  | idup (ip : Ip)
  | iput (ip : Ip)
  | readi (ip : Ip) (off n : UInt32)
  | writei (ip : Ip) (off : UInt32) (src : List UInt8) (hn : src.length < 2 ^ 32)
  | cleari (ip : Ip)
  | dirlink (dp : Ip) (name : Name) (inum : Nat)
  | create (c : Caller) (path : Name) (type : InodeType) (major minor : Int16)
  | unlink (c : Caller) (path : Name)

namespace Op

/-- The entry that the caller must have a reference to. -/
def entry : Op → Option Ip
  | .iget _ => none
  | .idup ip | .iput ip | .readi ip .. | .writei ip .. | .cleari ip | .dirlink ip .. => some ip
  | .create c .. | .unlink c _ => some c.cwd

def Enabled (s : State) (a : Op) : Prop := ∀ ip ∈ a.entry, 0 < (s.icache ip).ref

instance {s : State} {a : Op} : Decidable (Enabled s a) :=
  Option.decidableForallMem a.entry

def call : Op → Kernel Unit
  | .iget inum => do let _ ← Disk.iget inum
  | .idup ip => do let _ ← Disk.idup ip
  | .iput ip => Disk.iput ip
  | .readi ip off n => do
    ilock ip
    let _ ← Disk.readi ip off.toNat n.toNat
    iunlock ip
  | .writei ip off src _ => do
    ilock ip
    let _ ← Disk.writei ip off.toNat src
    iunlock ip
  | .cleari ip => do
    ilock ip
    let _ ← Disk.cleari ip
    iunlock ip
  | .dirlink dp name inum => do
    ilock dp
    let _ ← Disk.dirlink dp name inum
    iunlock dp
  | .create c path type major minor => do let _ ← Disk.create c path type major minor
  | .unlink c path => do let _ ← sysUnlink c path

def run (a : Op) : Kernel Unit := do
  a.call
  endOp

end Op

/-- A disk with its superblock. `mkfs` marks the blocks before the data blocks as in use. -/
structure Image where
  sb : Superblock
  bitmap : Nat → Bool
  dinode : Nat → Dinode
  block : Nat → Block
  reserved : ∀ b, b < sb.datastart → bitmap b = true

/-- The state after `iinit`, with an empty inode cache. -/
def Image.boot (image : Image) : State where
  sb := image.sb
  bitmap := image.bitmap
  dinode := image.dinode
  block := image.block
  icache _ := ⟨0, 0, false, .zero none⟩
  logged := []

end Xv6.Disk
