import Xv6.Disk.Dir
import Xv6.Sys.Inode
import Xv6.Users.Directory

/-! # System calls with locks, transactions and contents

The system calls of `sysfile.c` and those of `proc.c` and `exec.c` that touch files, over the inode
layer with locks. Their arguments have been fetched. What a pipe or a device transfers is an
argument, and so is what the memory of the kernel allows. -/

namespace Xv6.Sys

open Fault Thread
open Fs (Inode Ip File Name Dirent InodeType NFILE NOFILE BSIZE MAXFILE R_OK W_OK X_OK O_RDONLY
  O_WRONLY O_CREATE namecmp dot dotdot newPerm WantsRead WantsWrite openFile maxWrite splice
  passwdPath wordBytes)

namespace State

variable (s : State)

def setFile (f : Fin NFILE) (v : File) : State := { s with file := Function.update s.file f v }

def setOff (f : Fin NFILE) (n : Nat) : State := { s with off := Function.update s.off f n }

def setOfile (p : Slot) (fd : Fin NOFILE) (v : Option (Fin NFILE)) : State :=
  { s with ofile := Function.update s.ofile p (Function.update (s.ofile p) fd v) }

def setCwd (p : Slot) (v : Option Ip) : State := { s with cwd := Function.update s.cwd p v }

def setTab (t : Ptable) : State := { s with tab := t }

def setLtable (t : Users.Ltable) : State := { s with ltable := t }

def setLtableFd (fd : UInt32) : State := { s with ltableFd := fd }

end State

/-! ## The file table -/

def filealloc : Kernel (Option (Fin NFILE)) := do
  let file ← reads fun s => s.file
  match (List.finRange NFILE).find? fun f => (file f).ref = 0 with
  | some f =>
    writes fun s => s.setFile f { s.file f with ref := 1 }
    pure (some f)
  | none => pure none

def filedup (f : Fin NFILE) : Kernel Unit := do
  check (fun s => 1 ≤ (s.file f).ref) .filedup
  writes fun s => s.setFile f { s.file f with ref := (s.file f).ref + 1 }

def fileclose (p : Slot) (f : Fin NFILE) : Kernel Unit := do
  check (fun s => 1 ≤ (s.file f).ref) .fileclose
  let ff ← reads fun s => s.file f
  if ff.ref - 1 > 0 then writes fun s => s.setFile f { s.file f with ref := ff.ref - 1 }
  else do
    writes fun s => s.setFile f { s.file f with ref := 0, type := .FD_NONE }
    match ff.type with
    | .FD_INODE ip =>
      beginOp
      iput p ip
      endOp
    | _ => pure ()

def fdalloc (p : Slot) (f : Fin NFILE) : Kernel (Option (Fin NOFILE)) := do
  let ofile ← reads fun s => s.ofile p
  match (List.finRange NOFILE).find? fun fd => ofile fd = none with
  | some fd =>
    writes fun s => s.setOfile p fd (some f)
    pure (some fd)
  | none => pure none

def getfilebyfd (p : Slot) (fd : Nat) : Kernel (Option (Fin NOFILE × Fin NFILE)) :=
  reads fun s => if h : fd < NOFILE then (s.ofile p ⟨fd, h⟩).map (⟨fd, h⟩, ·) else none

def sysDup (p : Slot) (fd : Nat) : Kernel Int := do
  match ← getfilebyfd p fd with
  | none => pure (-1)
  | some (_, f) =>
    match ← fdalloc p f with
    | none => pure (-1)
    | some fd =>
      filedup f
      pure fd.val

def sysClose (p : Slot) (fd : Nat) : Kernel Int := do
  match ← getfilebyfd p fd with
  | none => pure (-1)
  | some (fd, f) =>
    writes fun s => s.setOfile p fd none
    fileclose p f
    pure 0

/-- `filestat`, without the data. -/
def filestat (p : Slot) (f : Fin NFILE) : Kernel Int := do
  match (← reads fun s => (s.file f).type) with
  | .FD_INODE ip =>
    ilock p ip
    iunlock p ip
    pure 0
  | _ => pure (-1)

/-- The number of bytes `readi` gives; for a device it is an argument. -/
def State.readi (s : State) (ip : Ip) (off n : Nat) (dev : Int) : Int :=
  if (s.ino ip).type = some .T_DEV then dev
  else if off > s.size ip then -1 else min n (s.size ip - off)

/-- `fileread`, without the data, where `r` is the result of a pipe or a device. -/
def fileread (p : Slot) (f : Fin NFILE) (n : Nat) (r : Int) : Kernel Int := do
  let ff ← reads fun s => s.file f
  if ff.readable = false then pure (-1)
  else
    match ff.type with
    | .FD_PIPE => pure r
    | .FD_INODE ip =>
      ilock p ip
      let off ← reads fun s => s.off f
      let k ← reads fun s => s.readi ip off n r
      if k > 0 then writes fun s => s.setOff f (off + k.toNat) else pure ()
      iunlock p ip
      pure k
    | .FD_NONE => panic .fileread

/-! ## Writing -/

def encodeDir (entries : List Dirent) : List UInt8 :=
  entries.flatMap fun de => Disk.encodeDirent de.inum de.name

def decodeDir (bytes : List UInt8) : List Dirent :=
  (List.range (bytes.length / Disk.DIRENT)).map fun k =>
    Disk.decodeDirent ((bytes.drop (Disk.DIRENT * k)).take Disk.DIRENT)

/-- `writei`, with `true` if all bytes are written; for a device `dev` says whether they are. -/
def writei (ip : Ip) (off : Nat) (src : List UInt8) (dev : Bool) : Kernel Bool := do
  let type ← reads fun s => (s.ino ip).type
  let size ← reads fun s => s.size ip
  if type = some .T_DEV then pure dev
  else if off > size ∨ off + src.length > MAXFILE * BSIZE then pure false
  else if type = some .T_DIR then
    writes fun s => s.setEntries ip (decodeDir (splice (encodeDir (s.ino ip).entries) off src))
    pure true
  else
    writes fun s =>
      s.setData (s.icache ip).inum (splice (s.data (s.icache ip).inum) off src)
    pure true

def filewriteChunk (p : Slot) (f : Fin NFILE) (ip : Ip) (src : List UInt8) (dev : Bool) :
    Kernel Bool := do
  beginOp
  ilock p ip
  let off ← reads fun s => s.off f
  let ok ← writei ip off src dev
  if ok then writes fun s => s.setOff f (off + src.length) else pure ()
  iunlock p ip
  endOp
  pure ok

/-- The loop of `filewrite`, for at most as many iterations as the first argument. -/
def filewriteFor (p : Slot) (f : Fin NFILE) (ip : Ip) (dev : Bool) :
    Nat → List UInt8 → Kernel Bool
  | 0, src => pure src.isEmpty
  | k + 1, src =>
    if src.isEmpty then pure true
    else do
      if ← filewriteChunk p f ip (src.take maxWrite) dev then
        filewriteFor p f ip dev k (src.drop maxWrite)
      else pure false

/-- `filewrite`, where `r` is the result of a pipe and `dev` that of a device. Every iteration
writes a byte. -/
def filewrite (p : Slot) (f : Fin NFILE) (src : List UInt8) (r : Int) (dev : Bool) :
    Kernel Int := do
  let ff ← reads fun s => s.file f
  if ff.writable = false then pure (-1)
  else
    match ff.type with
    | .FD_PIPE => pure r
    | .FD_INODE ip =>
      if ← filewriteFor p f ip dev src.length src then pure src.length else pure (-1)
    | .FD_NONE => panic .filewrite

def sysRead (p : Slot) (fd n : Nat) (r : Int) : Kernel Int := do
  match ← getfilebyfd p fd with
  | none => pure (-1)
  | some (_, f) => fileread p f n r

def sysWrite (p : Slot) (fd : Nat) (src : List UInt8) (r : Int) (dev : Bool) : Kernel Int := do
  match ← getfilebyfd p fd with
  | none => pure (-1)
  | some (_, f) => filewrite p f src r dev

def sysFstat (p : Slot) (fd : Nat) : Kernel Int := do
  match ← getfilebyfd p fd with
  | none => pure (-1)
  | some (_, f) => filestat p f

/-! ## Pipes -/

/-- The read end of a pipe if `writable` is false, and the write end otherwise. -/
def pipeFile (writable : Bool) (ref : Int) : File := ⟨.FD_PIPE, ref, !writable, writable⟩

/-- `pipealloc`, where `kalloc` tells whether there is a page. -/
def pipealloc (p : Slot) (kalloc : Bool) : Kernel (Option (Fin NFILE × Fin NFILE)) := do
  match ← filealloc with
  | none => pure none
  | some f0 =>
    match ← filealloc with
    | none =>
      fileclose p f0
      pure none
    | some f1 =>
      if kalloc then
        writes fun s => s.setFile f0 (pipeFile false (s.file f0).ref)
        writes fun s => s.setFile f1 (pipeFile true (s.file f1).ref)
        pure (some (f0, f1))
      else
        fileclose p f0
        fileclose p f1
        pure none

def sysPipe (p : Slot) (kalloc : Bool) : Kernel Int := do
  match ← pipealloc p kalloc with
  | none => pure (-1)
  | some (rf, wf) =>
    match ← fdalloc p rf with
    | none =>
      fileclose p rf
      fileclose p wf
      pure (-1)
    | some fd0 =>
      match ← fdalloc p wf with
      | none =>
        writes fun s => s.setOfile p fd0 none
        fileclose p rf
        fileclose p wf
        pure (-1)
      | some _ => pure 0

/-! ## Links -/

def addLinks (ip : Ip) (n : Int16) : Kernel Unit :=
  writes fun s => s.setIno ip { s.ino ip with nlink := (s.ino ip).nlink + n }

def linkBad (p : Slot) (ip : Ip) : Kernel Int := do
  ilock p ip
  addLinks ip (-1)
  iunlockput p ip
  endOp
  pure (-1)

/-- `sys_link` once it has the directory `dp`. -/
def linkEntry (p : Slot) (ip dp : Ip) (name : Name) : Kernel Int := do
  ilock p dp
  let inum ← reads fun s => (s.icache ip).inum
  if ← dirlink p dp name inum then
    iunlockput p dp
    iput p ip
    endOp
    pure 0
  else
    iunlockput p dp
    linkBad p ip

def sysLink (p : Slot) (old new : Name) : Kernel Int := do
  beginOp
  match ← namei p old with
  | none =>
    endOp
    pure (-1)
  | some ip =>
    ilock p ip
    let st ← reads fun s => s.ino ip
    if st.type = some .T_DIR then
      iunlockput p ip
      endOp
      pure (-1)
    else
      addLinks ip 1
      iunlock p ip
      match ← nameiparent p new with
      | none => linkBad p ip
      | some (dp, name) => linkEntry p ip dp name

/-- `sys_unlink` once the directory `dp` has been tested. -/
def unlinkEntry (p : Slot) (dp : Ip) (name : Name) : Kernel Int := do
  match ← dirlookup dp name with
  | none =>
    iunlockput p dp
    endOp
    pure (-1)
  | some (ip, off) =>
    ilock p ip
    let st ← reads fun s => s.ino ip
    if st.nlink < 1 then panic .unlinkNlink
    else if st.type = some .T_DIR ∧ st.isdirempty = false then
      iunlockput p ip
      iunlockput p dp
      endOp
      pure (-1)
    else
      writes fun s => s.setEntries dp ((s.ino dp).entries.set off ⟨0, []⟩)
      if st.type = some .T_DIR then addLinks dp (-1) else pure ()
      iunlockput p dp
      addLinks ip (-1)
      iunlockput p ip
      endOp
      pure 0

def sysUnlink (p : Slot) (path : Name) : Kernel Int := do
  beginOp
  match ← nameiparent p path with
  | none =>
    endOp
    pure (-1)
  | some (dp, name) =>
    ilock p dp
    if (← grants dp W_OK) = false then
      iunlock p dp
      endOp
      pure (-1)
    else if namecmp name dot = 0 ∨ namecmp name dotdot = 0 then
      iunlockput p dp
      endOp
      pure (-1)
    else unlinkEntry p dp name

/-! ## Creation -/

def initInode (ip : Ip) (type : InodeType) : Kernel Unit :=
  writes fun s => s.setIno ip { s.ino ip with
    nlink := 1
    perm := newPerm type
    owner := if s.ltable.userCnt = 0 then Users.root.1 else s.whoami }

def mustLink (p : Slot) (dp : Ip) (name : Name) (inum : Nat) (e : Stop) : Kernel Unit := do
  if ← dirlink p dp name inum then pure () else panic e

def newInode (p : Slot) (type : InodeType) : Kernel Ip := do
  let ip ← ialloc type
  ilock p ip
  initInode ip type
  pure ip

def createNew (p : Slot) (dp : Ip) (name : Name) (type : InodeType) : Kernel (Option Ip) := do
  if (← grants dp W_OK) = false then
    iunlock p dp
    pure none
  else
    let ip ← newInode p type
    let inum ← reads fun s => (s.icache ip).inum
    let dinum ← reads fun s => (s.icache dp).inum
    if type = .T_DIR then
      addLinks dp 1
      mustLink p ip dot inum .createDots
      mustLink p ip dotdot dinum .createDots
    else pure ()
    mustLink p dp name inum .createDirlink
    iunlockput p dp
    pure (some ip)

def createOld (p : Slot) (ip : Ip) (type : InodeType) : Kernel (Option Ip) := do
  ilock p ip
  let st ← reads fun s => s.ino ip
  let userCnt ← reads fun s => s.ltable.userCnt
  let ok ← grants ip W_OK
  if type = .T_FILE ∧ st.type = some .T_FILE then
    if userCnt > 0 ∧ ok = false then
      iunlock p ip
      pure none
    else pure (some ip)
  else
    iunlockput p ip
    pure none

def create (p : Slot) (path : Name) (type : InodeType) : Kernel (Option Ip) := do
  match ← nameiparent p path with
  | none => pure none
  | some (dp, name) =>
    ilock p dp
    match ← dirlookup dp name with
    | some (ip, _) =>
      iunlockput p dp
      createOld p ip type
    | none => createNew p dp name type

/-- `mkdir` and `sys_mknod`. -/
def make (p : Slot) (path : Name) (type : InodeType) : Kernel Int := do
  beginOp
  match ← create p path type with
  | none =>
    endOp
    pure (-1)
  | some ip =>
    iunlockput p ip
    endOp
    pure 0

def mkdir (p : Slot) (path : Name) : Kernel Int := make p path .T_DIR

def sysMknod (p : Slot) (path : Name) : Kernel Int := make p path .T_DEV

/-! ## `open` -/

def openAlloc (p : Slot) (ip : Ip) (omode : UInt32) : Kernel Int := do
  match ← filealloc with
  | none =>
    iunlockput p ip
    endOp
    pure (-1)
  | some f =>
    match ← fdalloc p f with
    | none =>
      fileclose p f
      iunlockput p ip
      endOp
      pure (-1)
    | some fd =>
      iunlock p ip
      endOp
      writes fun s => (s.setFile f (openFile ip omode (s.file f).ref)).setOff f 0
      pure fd.val

def openChecked (p : Slot) (ip : Ip) (omode : UInt32) : Kernel Int := do
  let r ← grants ip R_OK
  let w ← grants ip W_OK
  if WantsRead omode ∧ r = false then
    iunlock p ip
    endOp
    pure (-1)
  else if WantsWrite omode ∧ w = false then
    iunlock p ip
    endOp
    pure (-1)
  else openAlloc p ip omode

/-- `open` of an inode that was there, once it is locked. -/
def openFound (p : Slot) (ip : Ip) (omode : UInt32) : Kernel Int := do
  let st ← reads fun s => s.ino ip
  if st.type = some .T_DIR ∧ omode ≠ O_RDONLY then
    iunlockput p ip
    endOp
    pure (-1)
  else openChecked p ip omode

def sysOpen (p : Slot) (path : Name) (omode : UInt32) : Kernel Int := do
  beginOp
  if omode &&& O_CREATE ≠ 0 then
    match ← create p path .T_FILE with
    | none =>
      endOp
      pure (-1)
    | some ip => openChecked p ip omode
  else
    match ← namei p path with
    | none =>
      endOp
      pure (-1)
    | some ip =>
      ilock p ip
      openFound p ip omode

/-! ## `chdir` and `chmod` -/

/-- `iput(p->cwd)` for a slot `q`. With a null pointer `iput` works on the memory at address 0, not
on the cache. -/
def putCwd (p q : Slot) : Kernel Unit := do
  match (← reads fun s => s.cwd q) with
  | some ip => iput p ip
  | none => pure ()

def sysChdir (p : Slot) (path : Name) : Kernel Int := do
  beginOp
  match ← namei p path with
  | none =>
    endOp
    pure (-1)
  | some ip =>
    ilock p ip
    let st ← reads fun s => s.ino ip
    let ok ← grants ip X_OK
    if st.type ≠ some .T_DIR then
      iunlockput p ip
      endOp
      pure (-1)
    else if ok = false then
      iunlock p ip
      endOp
      pure (-1)
    else
      iunlock p ip
      putCwd p p
      endOp
      writes fun s => s.setCwd p (some ip)
      pure 0

def sysChmod (p : Slot) (path : Name) (mode : UInt32) : Kernel Int := do
  beginOp
  match ← namei p path with
  | none =>
    endOp
    pure (-1)
  | some ip =>
    ilock p ip
    let st ← reads fun s => s.ino ip
    let curUser ← reads fun s => s.whoami
    if st.type = some .T_DEV then
      iunlock p ip
      endOp
      pure (-1)
    else if ¬ Users.equals Users.root curUser ∧ ¬ Users.equals st.owner curUser then
      iunlock p ip
      endOp
      pure (-1)
    else
      writes fun s => s.setIno ip { s.ino ip with perm := mode }
      iunlock p ip
      endOp
      pure 0

/-! ## Accounts -/

def cleari (ip : Ip) : Kernel Bool := do
  let type ← reads fun s => (s.ino ip).type
  let size ← reads fun s => s.size ip
  if type = some .T_DEV ∨ size > MAXFILE * BSIZE then pure false
  else if type = some .T_DIR then
    writes fun s => s.setEntries ip ((s.ino ip).entries.map fun _ => ⟨0, []⟩)
    pure true
  else
    writes fun s =>
      s.setData (s.icache ip).inum (List.replicate (s.data (s.icache ip).inum).length 0)
    pure true

/-- The texts that the iterations of the loop of `flushUsers` write, from row `i` on. -/
def rowTexts (t : Users.Ltable) : CString.Mem → List Nat → List (List UInt8)
  | _, [] => []
  | buf, i :: is =>
    let buf := Users.fillBuf t buf i
    Users.cstr buf 0 :: rowTexts t buf is

/-- The loop of `flushUsers`, which does not look at the results of `filewrite`. -/
def writeRows (p : Slot) (f : Fin NFILE) : List (List UInt8) → Kernel Unit
  | [] => pure ()
  | text :: texts => do
    let _ ← filewrite p f text 0 false
    writeRows p f texts

/-- `flushUsers` once it has the file `f` of the descriptor `fd`. If `cleari` fails it returns with
the lock, within the transaction, and with the file open. -/
def flushFile (p : Slot) (fd : Fin NOFILE) (f : Fin NFILE) : Kernel Bool := do
  match (← reads fun s => (s.file f).type) with
  | .FD_INODE ip =>
    beginOp
    ilock p ip
    if ← cleari ip then
      iunlock p ip
      endOp
      writes fun s => s.setOff f 0
      let t ← reads fun s => s.ltable
      writeRows p f (rowTexts t (fun _ => 0) (List.range t.userCnt))
      writes fun s => s.setOfile p fd none
      fileclose p f
      writes fun s => s.setLtableFd 0
      pure true
    else pure false
  | _ => panic .fault

/-- `flushUsers`, with `true` for the result 0. -/
def flushUsers (p : Slot) : Kernel Bool := do
  let fd ← sysOpen p passwdPath O_WRONLY
  writes fun s => s.setLtableFd (.ofInt fd)
  if fd < 0 then pure false
  else
    match ← getfilebyfd p fd.toNat with
    | none => pure false
    | some (fd, f) => flushFile p fd f

def Accepts (t : Users.Ltable) (username password : Users.Str) : Prop :=
  t.userCnt ≠ Users.MAX_USER ∧
    2 ≤ username.1.length ∧ username.1.length ≤ Users.MAX_LEN ∧
    2 ≤ password.1.length ∧ password.1.length ≤ Users.MAX_LEN ∧
    ((List.range t.userCnt).any fun i => Users.equals (t.username i) username) = false

instance (t : Users.Ltable) (username password : Users.Str) :
    Decidable (Accepts t username password) := inferInstanceAs (Decidable (_ ∧ _))

/-- The end of `addUser`: the home directory gets its owner. -/
def setOwner (p : Slot) (username : Users.Str) : Kernel Int := do
  match ← namei p username with
  | none => pure (-1)
  | some ip =>
    beginOp
    ilock p ip
    writes fun s => s.setIno ip { s.ino ip with owner := username }
    iunlock p ip
    endOp
    pure 0

def addUser (p : Slot) (username password : Users.Str) : Kernel Int := do
  let t ← reads fun s => s.ltable
  if ¬ Accepts t username password then pure (-1)
  else
    writes fun s => s.setLtable (Users.append t username password)
    if ← flushUsers p then
      if t.userCnt + 1 > 1 then
        let _ ← mkdir p username
        setOwner p username
      else setOwner p username
    else pure (-1)

/-- The row that `deleteUser` deletes; it refuses to delete the first one. -/
def deletes (t : Users.Ltable) (username : Users.Str) : Option Nat :=
  let found := (Users.find t username).getD 0
  if found = 0 then none else some found

def deleteUser (p : Slot) (username : Users.Str) : Kernel Int := do
  let t ← reads fun s => s.ltable
  match deletes t username with
  | none => pure (-1)
  | some found =>
    writes fun s => s.setLtable (Users.remove t found)
    if ← flushUsers p then pure 0 else pure (-1)

def loadUsers (p : Slot) : Kernel Unit := do
  let fd ← sysOpen p passwdPath (O_RDONLY ||| O_CREATE)
  writes fun s => s.setLtableFd (.ofInt fd)
  if fd < 0 then panic (.loadUsers 1)
  else
    match ← getfilebyfd p fd.toNat with
    | none => panic (.loadUsers 2)
    | some (fd, f) =>
      let passwd ← reads fun s => match (s.file f).type with
        | .FD_INODE ip => s.data (s.icache ip).inum
        | _ => []
      let n ← fileread p f Users.bufSize 0
      writes fun s => s.setLtable (Users.loadUsers s.ltable passwd)
      if n < 0 then panic (.loadUsers 3)
      else
        writes fun s => s.setOfile p fd none
        fileclose p f
        writes fun s => s.setLtableFd 0

def sysLbegin (p : Slot) : Kernel Int := do
  loadUsers p
  if (← reads fun s => s.ltable.userCnt) = 0 then let _ ← addUser p Users.root Users.zeros
  writes fun s => s.setLtable { s.ltable with userIdx := -1 }
  pure 0

def sysAddUser (p : Slot) (username password : Users.Str) : Kernel Int := do
  if (← reads fun s => s.ltable.userIdx) > 0 then pure (-1) else addUser p username password

def sysDeleteUser (p : Slot) (username : Users.Str) : Kernel Int := do
  if (← reads fun s => s.ltable.userIdx) > 0 then pure (-1) else deleteUser p username

def sysLogin (username password : Users.Str) : Kernel Int := do
  let t ← reads fun s => s.ltable
  writes fun s => s.setLtable (Users.sysLogin username password t).2
  pure (Users.sysLogin username password t).1

/-- `sys_whoami`, which prints the name. -/
def sysWhoami : Kernel Int := do
  let _ ← reads fun s => s.whoami
  pure 0

/-! ## Processes -/

def closeFiles (p q : Slot) : Kernel Unit :=
  (List.finRange NOFILE).forM fun fd => do
    match (← reads fun s => s.ofile q fd) with
    | some f =>
      fileclose p f
      writes fun s => s.setOfile q fd none
    | none => pure ()

def dropFiles (p q : Slot) : Kernel Unit := do
  closeFiles p q
  beginOp
  putCwd p q
  endOp
  writes fun s => s.setCwd q none

def copyFiles (q np : Slot) : Kernel Unit := do
  (List.finRange NOFILE).forM fun fd => do
    match (← reads fun s => s.ofile q fd) with
    | some f =>
      filedup f
      writes fun s => s.setOfile np fd (some f)
    | none => pure ()
  match (← reads fun s => s.cwd q) with
  | some ip =>
    let ip ← idup ip
    writes fun s => s.setCwd np (some ip)
  | none => writes fun s => s.setCwd np none

def sysFork (p : Slot) (kalloc copyuvm : Bool) : Kernel Int := do
  let t ← reads fun s => s.tab
  writes fun s => s.setTab (fork t p kalloc copyuvm).2
  match (allocproc t kalloc).1, copyuvm with
  | some np, true =>
    copyFiles p np
    pure (fork t p kalloc copyuvm).1
  | _, _ => pure (-1)

/-- Where a pointer leads through which `thread_create` or `thread_join` stores, which they do not
test. -/
inductive Ptr
  /-- To the memory of the process. -/
  | user
  /-- To the buffer with byte `off` of the contents of an inode. -/
  | buf (inum off : Nat)

/-- The entries of a directory after a word has been stored in its contents. -/
def State.overwritten (s : State) (i off : Nat) (v : UInt32) : List Dirent :=
  decodeDir (splice (encodeDir (s.inode i).entries) off (wordBytes v))

/-- The word at byte `off` of the contents of the inode is in one block. -/
def State.HasWord (s : State) (i off : Nat) : Prop :=
  off + 4 ≤ s.length i ∧ off % BSIZE + 4 ≤ BSIZE

instance (s : State) (i off : Nat) : Decidable (s.HasWord i off) :=
  inferInstanceAs (Decidable (_ ∧ _))

/-- A word is stored. What a buffer holds is what the kernel takes for the contents. -/
def State.store (s : State) (v : UInt32) : Ptr → State
  | .user => s
  | .buf i off =>
    if ¬ s.HasWord i off then s
    else if (s.inode i).type ≠ some .T_DIR then
      s.setData i (splice (s.data i) off (wordBytes v))
    else if s.overwritten i off v = (s.inode i).entries then s
    else s.setDir i (s.overwritten i off v)

/-- Stores through a pointer what there is to store. -/
def storeTo (ptr : Ptr) (v : Option UInt32) : Kernel Unit :=
  writes fun s => v.elim s fun v => s.store v ptr

def sysThreadCreate (p : Slot) (thread : Ptr) (kalloc allocuvm : Bool) : Kernel Int := do
  let t ← reads fun s => s.tab
  storeTo thread ((threadCreate t p kalloc allocuvm).thread.map .ofInt)
  writes fun s => s.setTab (threadCreate t p kalloc allocuvm).tab
  match (allocproc t kalloc).1, allocuvm with
  | some np, true =>
    copyFiles ((t.proc p).main.getD p) np
    pure 0
  | _, _ => pure (-1)

/-- The last pass of `thread_join`. -/
def sysThreadJoin (p : Slot) (thread : Int) (retval : Ptr) : Kernel Int := do
  let t ← reads fun s => s.tab
  match threadJoin t p thread with
  | .returns (v, r) t =>
    storeTo retval v
    writes fun s => s.setTab t
    pure r
  | .sleeps _ => panic .blocked

def sysThreadExit (p : Slot) (retval : UInt32) : Kernel Unit := do
  check (fun s => s.tab.initproc ≠ some p) .initExiting
  dropFiles p p
  writes fun s => s.setTab (threadExit s.tab p retval)

def sysExit (p : Slot) : Kernel Unit := do
  check (fun s => s.tab.initproc ≠ some p) .initExiting
  let t ← reads fun s => s.tab
  let (havethreads, t) := if (t.proc p).tid = 0 then clearSubthreads t p else (0, t)
  if havethreads = 0 then
    writes fun s => s.setTab t
    dropFiles p p
    writes fun s => s.setTab (exitRest s.tab p)
  else writes fun s => s.setTab (sleep t p (some (.proc p)) .exit)

def killThread (pid : Int) (cp q : Slot) : Kernel Unit := do
  let v ← reads fun s => s.tab.proc q
  if v.pid ≠ pid ∨ q = cp then pure ()
  else
    dropFiles cp q
    writes fun s => s.setTab (threadClear (reparent s.tab q) q)

def sysExec (p : Slot) (path : Name) (e : ExecEnd) : Kernel Int := do
  writes fun s => s.setTab (detach s.tab p)
  let pid ← reads fun s => s.pid p
  slots.forM (killThread pid p)
  beginOp
  match ← namei p path with
  | none =>
    endOp
    pure (-1)
  | some ip =>
    ilock p ip
    let ok ← grants ip X_OK
    iunlockput p ip
    endOp
    if pid > 2 ∧ ok = false then pure (-1)
    else
      let t ← reads fun s => s.tab
      match execLoad t p e with
      | none => panic .freevm
      | some (r, t) =>
        writes fun s => s.setTab t
        pure r

/-! ## Runs -/

inductive Call
  | sysOpen (path : Name) (omode : UInt32)
  | sysRead (fd n : Nat) (r : Int)
  | sysWrite (fd : Nat) (src : List UInt8) (r : Int) (dev : Bool)
  | sysClose (fd : Nat)
  | sysDup (fd : Nat)
  | sysFstat (fd : Nat)
  | sysPipe (kalloc : Bool)
  | sysMkdir (path : Name)
  | sysMknod (path : Name)
  | sysLink (old new : Name)
  | sysUnlink (path : Name)
  | sysChdir (path : Name)
  | sysChmod (path : Name) (mode : UInt32)
  | sysLbegin
  | sysAddUser (username password : Users.Str)
  | sysDeleteUser (username : Users.Str)
  | sysLogin (username password : Users.Str)
  | sysWhoami
  | sysFork (kalloc copyuvm : Bool)
  | sysThreadCreate (thread : Ptr) (kalloc allocuvm : Bool)
  | sysThreadJoin (thread : Int) (retval : Ptr)
  | sysThreadExit (retval : UInt32)
  | sysExec (path : Name) (e : ExecEnd)
  | sysExit

/-- The call made by the process in slot `p`, with the value it returns, which is 0 for those that
do not return. -/
def Call.run (p : Slot) : Call → Kernel Int
  | .sysOpen path omode => Sys.sysOpen p path omode
  | .sysRead fd n r => Sys.sysRead p fd n r
  | .sysWrite fd src r dev => Sys.sysWrite p fd src r dev
  | .sysClose fd => Sys.sysClose p fd
  | .sysDup fd => Sys.sysDup p fd
  | .sysFstat fd => Sys.sysFstat p fd
  | .sysPipe kalloc => Sys.sysPipe p kalloc
  | .sysMkdir path => mkdir p path
  | .sysMknod path => Sys.sysMknod p path
  | .sysLink old new => Sys.sysLink p old new
  | .sysUnlink path => Sys.sysUnlink p path
  | .sysChdir path => Sys.sysChdir p path
  | .sysChmod path mode => Sys.sysChmod p path mode
  | .sysLbegin => Sys.sysLbegin p
  | .sysAddUser username password => Sys.sysAddUser p username password
  | .sysDeleteUser username => Sys.sysDeleteUser p username
  | .sysLogin username password => Sys.sysLogin username password
  | .sysWhoami => Sys.sysWhoami
  | .sysFork kalloc copyuvm => Sys.sysFork p kalloc copyuvm
  | .sysThreadCreate thread kalloc allocuvm => Sys.sysThreadCreate p thread kalloc allocuvm
  | .sysThreadJoin thread retval => Sys.sysThreadJoin p thread retval
  | .sysThreadExit retval => do
    Sys.sysThreadExit p retval
    pure 0
  | .sysExec path e => Sys.sysExec p path e
  | .sysExit => do
    Sys.sysExit p
    pure 0

/-- The call may go on where the process is in the kernel: `exit` when it is killed, and
`thread_join` after it has slept. -/
def Call.resumes : Call → Context → Bool
  | .sysExit, _ => true
  | .sysThreadJoin thread _, .threadJoin tid => thread = tid
  | _, _ => false

def State.CanCall (s : State) (p : Slot) (call : Call) : Prop :=
  ((s.tab.proc p).state = .RUNNABLE ∨ (s.tab.proc p).state = .RUNNING) ∧
    ((s.tab.proc p).context = .user ∨ call.resumes (s.tab.proc p).context = true)

instance (s : State) (p : Slot) (call : Call) : Decidable (s.CanCall p call) :=
  inferInstanceAs (Decidable (_ ∧ _))

/-- A step of the kernel: a call of a process, or something that changes the process table only. The
latter stands for the other calls (`wait`, `kill`, `sleep`, `yield`, `sbrk`, a `thread_join` that
sleeps, and those that change nothing here), for interrupts and for the scheduler. -/
inductive Step
  | call (p : Slot) (c : Call)
  | table (t : Ptable)

/-- The slots that are live stay so. -/
def KeepsLive (t u : Ptable) : Prop := ∀ q, Live (t.proc q).state → Live (u.proc q).state

instance (t u : Ptable) : Decidable (KeepsLive t u) :=
  inferInstanceAs (Decidable (∀ q : Slot, Live (t.proc q).state → Live (u.proc q).state))

/-- The state after a call that does not stop. -/
def State.after (s : State) (p : Slot) (c : Call) : Option State :=
  match c.run p s with
  | .ok (_, s') => some s'
  | .error _ => none

def State.next (s : State) : Step → Option State
  | .call p c => if s.CanCall p c then s.after p c else none
  | .table t => if KeepsLive s.tab t then some (s.setTab t) else none

structure Image where
  inode : Nat → Inode
  data : Nat → List UInt8

def Image.boot (image : Image) (tab : Ptable) : State where
  toState := .boot image.inode tab .empty
  data := image.data
  off _ := 0
  lock _ := none
  outstanding := 0
  dirWrites := []
  allocs _ := 0

/-- The kernel from the end of `userinit`, with every system call as one step. -/
def kernel : LTS State Step where
  init s := ∃ image tab, userinit pinit = some tab ∧ s = Image.boot image tab
  next := State.next

end Xv6.Sys
