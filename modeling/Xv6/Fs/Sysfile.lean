import Xv6.Fs.Inode

/-! # System calls on files

The system calls of `sysfile.c`, and those of `proc.c` and `exec.c` that copy or drop descriptors
and current directories, each as one step. Their arguments have been fetched; what the memory of
the kernel allows is an argument of the process calls, as in the process table. -/

namespace Xv6.Fs

open Prog Thread

def O_RDONLY : UInt32 := 0x000

def O_WRONLY : UInt32 := 0x001

def O_RDWR : UInt32 := 0x002

def O_CREATE : UInt32 := 0x200

/-! ## The file table -/

def filealloc : Kernel (Option (Fin NFILE)) := do
  let file ← reads State.file
  match (List.finRange NFILE).find? fun f => (file f).ref = 0 with
  | some f =>
    writes fun s => s.setFile f { s.file f with ref := 1 }
    pure (some f)
  | none => pure none

def filedup (f : Fin NFILE) : Kernel Unit := do
  check fun s => 1 ≤ (s.file f).ref
  writes fun s => s.setFile f { s.file f with ref := (s.file f).ref + 1 }

/-- `fileclose`; what `pipeclose` does to the pipe is left out. -/
def fileclose (f : Fin NFILE) : Kernel Unit := do
  check fun s => 1 ≤ (s.file f).ref
  let ff ← reads fun s => s.file f
  if ff.ref - 1 > 0 then writes fun s => s.setFile f { s.file f with ref := ff.ref - 1 }
  else do
    writes fun s => s.setFile f { s.file f with ref := 0, type := .FD_NONE }
    match ff.type with
    | .FD_INODE ip => iput ip
    | _ => pure ()

def fdalloc (p : Slot) (f : Fin NFILE) : Kernel (Option (Fin NOFILE)) := do
  let ofile ← reads fun s => s.ofile p
  match (List.finRange NOFILE).find? fun fd => ofile fd = none with
  | some fd =>
    writes fun s => s.setOfile p fd (some f)
    pure (some fd)
  | none => pure none

def getfilebyfd (p : Slot) (fd : Nat) : Kernel (Option (Fin NOFILE × Fin NFILE)) :=
  reads fun s => if h : fd < NOFILE then (s.ofile p ⟨fd, h⟩).map (⟨fd, h⟩, ·) else none

def sysDup (p : Slot) (fd : Nat) : Kernel Int := do
  match ← getfilebyfd p fd with
  | none => pure (-1)
  | some (_, f) =>
    match ← fdalloc p f with
    | none => pure (-1)
    | some fd =>
      filedup f
      pure fd.val

def sysClose (p : Slot) (fd : Nat) : Kernel Int := do
  match ← getfilebyfd p fd with
  | none => pure (-1)
  | some (fd, f) =>
    writes fun s => s.setOfile p fd none
    fileclose f
    pure 0

/-! ## Links -/

/-- Add to the link count, and `iupdate`. -/
def addLinks (ip : Ip) (n : Int16) : Kernel Unit :=
  writes fun s => s.setIno ip { s.ino ip with nlink := (s.ino ip).nlink + n }

/-- The label `bad` of `sys_link`. -/
def linkBad (ip : Ip) : Kernel Int := do
  ilock ip
  addLinks ip (-1)
  iunlockput ip
  pure (-1)

def sysLink (p : Slot) (old new : Name) : Kernel Int := do
  match ← namei p old with
  | none => pure (-1)
  | some ip =>
    ilock ip
    let st ← reads fun s => s.ino ip
    if st.type = some .T_DIR then do
      iunlockput ip
      pure (-1)
    else do
      addLinks ip 1
      iunlock ip
      match ← nameiparent p new with
      | none => linkBad ip
      | some (dp, name) =>
        ilock dp
        let inum ← reads fun s => (s.icache ip).inum
        if ← dirlink dp name inum then
          iunlockput dp
          iput ip
          pure 0
        else
          iunlockput dp
          linkBad ip

def dot : Name := [46]

def dotdot : Name := [46, 46]

def sysUnlink (p : Slot) (path : Name) : Kernel Int := do
  match ← nameiparent p path with
  | none => pure (-1)
  | some (dp, name) =>
    ilock dp
    if (← grants dp W_OK) = false then
      iunlock dp
      pure (-1)
    else if namecmp name dot = 0 ∨ namecmp name dotdot = 0 then
      iunlockput dp
      pure (-1)
    else
      match ← dirlookup dp name with
      | none =>
        iunlockput dp
        pure (-1)
      | some (ip, off) =>
        ilock ip
        let st ← reads fun s => s.ino ip
        if st.nlink < 1 then stop
        else if st.type = some .T_DIR ∧ st.isdirempty = false then
          iunlockput ip
          iunlockput dp
          pure (-1)
        else
          writes fun s => s.setIno dp { s.ino dp with
            entries := (s.ino dp).entries.set off ⟨0, []⟩ }
          if st.type = some .T_DIR then addLinks dp (-1) else pure ()
          iunlockput dp
          addLinks ip (-1)
          iunlockput ip
          pure 0

/-! ## Creation -/

def newPerm : InodeType → UInt32
  | .T_DIR => MODE_RUSR ||| MODE_WUSR ||| MODE_XUSR ||| MODE_ROTH ||| MODE_XOTH
  | .T_FILE => MODE_RUSR ||| MODE_WUSR ||| MODE_ROTH
  | .T_DEV => 0

/-- The assignments of `create` to the new inode. -/
def initInode (ip : Ip) (type : InodeType) : Kernel Unit :=
  writes fun s => s.setIno ip { s.ino ip with
    nlink := 1
    perm := newPerm type
    owner := if s.ltable.userCnt = 0 then Users.root.1 else s.whoami }

/-- A directory entry that `create` needs. -/
def mustLink (dp : Ip) (name : Name) (inum : Nat) : Kernel Unit := do
  if ← dirlink dp name inum then pure () else stop

/-- `create` when the name is not there. -/
def createNew (dp : Ip) (name : Name) (type : InodeType) : Kernel (Option Ip) := do
  if (← grants dp W_OK) = false then
    iunlock dp
    pure none
  else
    let ip ← ialloc type
    ilock ip
    initInode ip type
    let inum ← reads fun s => (s.icache ip).inum
    let dinum ← reads fun s => (s.icache dp).inum
    if type = .T_DIR then
      addLinks dp 1
      mustLink ip dot inum
      mustLink ip dotdot dinum
    else pure ()
    mustLink dp name inum
    iunlockput dp
    pure (some ip)

/-- `create` when the name stands for `ip`. -/
def createOld (ip : Ip) (type : InodeType) : Kernel (Option Ip) := do
  ilock ip
  let st ← reads fun s => s.ino ip
  let userCnt ← reads fun s => s.ltable.userCnt
  if type = .T_FILE ∧ st.type = some .T_FILE then
    if userCnt > 0 ∧ (← grants ip W_OK) = false then
      iunlock ip
      pure none
    else pure (some ip)
  else
    iunlockput ip
    pure none

def create (p : Slot) (path : Name) (type : InodeType) : Kernel (Option Ip) := do
  match ← nameiparent p path with
  | none => pure none
  | some (dp, name) =>
    ilock dp
    match ← dirlookup dp name with
    | some (ip, _) =>
      iunlockput dp
      createOld ip type
    | none => createNew dp name type

def mkdir (p : Slot) (path : Name) : Kernel Int := do
  match ← create p path .T_DIR with
  | none => pure (-1)
  | some ip =>
    iunlockput ip
    pure 0

def sysMknod (p : Slot) (path : Name) : Kernel Int := do
  match ← create p path .T_DEV with
  | none => pure (-1)
  | some ip =>
    iunlockput ip
    pure 0

/-! ## `open` -/

/-- The condition of the first permission test of `open`. -/
def WantsRead (omode : UInt32) : Prop := omode = O_RDONLY ∨ omode &&& O_RDWR ≠ 0

/-- The condition of the second permission test of `open`. -/
def WantsWrite (omode : UInt32) : Prop := omode &&& O_WRONLY ≠ 0 ∨ omode &&& O_RDWR ≠ 0

instance (omode : UInt32) : Decidable (WantsRead omode) := inferInstanceAs (Decidable (_ ∨ _))

instance (omode : UInt32) : Decidable (WantsWrite omode) := inferInstanceAs (Decidable (_ ∨ _))

def openFile (ip : Ip) (omode : UInt32) (ref : Int) : File where
  type := .FD_INODE ip
  ref := ref
  readable := omode &&& O_WRONLY = 0
  writable := omode &&& O_WRONLY ≠ 0 ∨ omode &&& O_RDWR ≠ 0

/-- `open` after the permission tests. -/
def openAlloc (p : Slot) (ip : Ip) (omode : UInt32) : Kernel Int := do
  match ← filealloc with
  | none =>
    iunlockput ip
    pure (-1)
  | some f =>
    match ← fdalloc p f with
    | none =>
      fileclose f
      iunlockput ip
      pure (-1)
    | some fd =>
      iunlock ip
      writes fun s => s.setFile f (openFile ip omode (s.file f).ref)
      pure fd.val

/-- `open` once it has the inode, from the permission tests on. -/
def openChecked (p : Slot) (ip : Ip) (omode : UInt32) : Kernel Int := do
  let r ← grants ip R_OK
  let w ← grants ip W_OK
  if WantsRead omode ∧ r = false then
    iunlock ip
    pure (-1)
  else if WantsWrite omode ∧ w = false then
    iunlock ip
    pure (-1)
  else openAlloc p ip omode

def sysOpen (p : Slot) (path : Name) (omode : UInt32) : Kernel Int := do
  if omode &&& O_CREATE ≠ 0 then
    match ← create p path .T_FILE with
    | none => pure (-1)
    | some ip => openChecked p ip omode
  else
    match ← namei p path with
    | none => pure (-1)
    | some ip =>
      ilock ip
      let st ← reads fun s => s.ino ip
      if st.type = some .T_DIR ∧ omode ≠ O_RDONLY then
        iunlockput ip
        pure (-1)
      else openChecked p ip omode

/-! ## `chdir` and `chmod` -/

/-- `iput(p->cwd)`. With a null pointer `iput` works on the memory at address 0, not on the
cache. -/
def putCwd (p : Slot) : Kernel Unit := do
  match (← reads fun s => s.cwd p) with
  | some ip => iput ip
  | none => pure ()

def sysChdir (p : Slot) (path : Name) : Kernel Int := do
  match ← namei p path with
  | none => pure (-1)
  | some ip =>
    ilock ip
    let st ← reads fun s => s.ino ip
    if st.type ≠ some .T_DIR then
      iunlockput ip
      pure (-1)
    else if (← grants ip X_OK) = false then
      iunlock ip
      pure (-1)
    else
      iunlock ip
      putCwd p
      writes fun s => s.setCwd p (some ip)
      pure 0

def sysChmod (p : Slot) (path : Name) (mode : UInt32) : Kernel Int := do
  match ← namei p path with
  | none => pure (-1)
  | some ip =>
    ilock ip
    let st ← reads fun s => s.ino ip
    let curUser ← reads State.whoami
    if st.type = some .T_DEV then
      iunlock ip
      pure (-1)
    else if ¬ Users.equals Users.root curUser ∧ ¬ Users.equals st.owner curUser then
      iunlock ip
      pure (-1)
    else
      writes fun s => s.setIno ip { s.ino ip with perm := mode }
      iunlock ip
      pure 0

/-! ## Accounts -/

def passwdPath : Name := [47, 112, 97, 115, 115, 119, 100]

/-- `flushUsers`, with `true` for the result 0; the text it writes is left out. `cleari` refuses a
device, and `flushUsers` then returns with the file open. -/
def flushUsers (p : Slot) : Kernel Bool := do
  let fd ← sysOpen p passwdPath O_WRONLY
  writes fun s => { s with ltableFd := .ofInt fd }
  if fd < 0 then pure false
  else
    match ← getfilebyfd p fd.toNat with
    | none => pure false
    | some (fd, f) =>
      let dev ← reads fun s => match (s.file f).type with
        | .FD_INODE ip => decide ((s.ino ip).type = some InodeType.T_DEV)
        | _ => false
      if dev then pure false
      else
        writes fun s => s.setOfile p fd none
        fileclose f
        writes fun s => { s with ltableFd := 0 }
        pure true

/-- The tests of `sys_addUser` and of `addUser`. -/
def Accepts (t : Users.Ltable) (username password : Users.Str) : Prop :=
  t.userIdx ≤ 0 ∧ t.userCnt ≠ Users.MAX_USER ∧
    2 ≤ username.1.length ∧ username.1.length ≤ Users.MAX_LEN ∧
    2 ≤ password.1.length ∧ password.1.length ≤ Users.MAX_LEN ∧
    ((List.range t.userCnt).any fun i => Users.equals (t.username i) username) = false

instance (t : Users.Ltable) (username password : Users.Str) :
    Decidable (Accepts t username password) := inferInstanceAs (Decidable (_ ∧ _))

def sysAddUser (p : Slot) (username password : Users.Str) : Kernel Int := do
  let t ← reads State.ltable
  if ¬ Accepts t username password then pure (-1)
  else
    writes fun s => { s with ltable := Users.append t username password }
    if (← flushUsers p) = false then pure (-1)
    else
      if t.userCnt + 1 > 1 then let _ ← mkdir p username else pure ()
      match ← namei p username with
      | none => pure (-1)
      | some ip =>
        ilock ip
        writes fun s => s.setIno ip { s.ino ip with owner := username }
        iunlock ip
        pure 0

/-- The row that `sys_deleteUser` deletes, unless it refuses. -/
def deletes (t : Users.Ltable) (username : Users.Str) : Option Nat :=
  let found := (Users.find t username).getD 0
  if t.userIdx > 0 ∨ found = 0 then none else some found

def sysDeleteUser (p : Slot) (username : Users.Str) : Kernel Int := do
  let t ← reads State.ltable
  match deletes t username with
  | none => pure (-1)
  | some found =>
    writes fun s => { s with ltable := Users.remove t found }
    if ← flushUsers p then pure 0 else pure (-1)

/-! ## Processes -/

def closeFiles (p : Slot) : Kernel Unit :=
  (List.finRange NOFILE).forM fun fd => do
    match (← reads fun s => s.ofile p fd) with
    | some f =>
      fileclose f
      writes fun s => s.setOfile p fd none
    | none => pure ()

def dropFiles (p : Slot) : Kernel Unit := do
  closeFiles p
  putCwd p
  writes fun s => s.setCwd p none

/-- Copy the open files and the current directory of `q` to the new process `np`. -/
def copyFiles (q np : Slot) : Kernel Unit := do
  (List.finRange NOFILE).forM fun fd => do
    match (← reads fun s => s.ofile q fd) with
    | some f =>
      filedup f
      writes fun s => s.setOfile np fd (some f)
    | none => pure ()
  match (← reads fun s => s.cwd q) with
  | some ip =>
    let ip ← idup ip
    writes fun s => s.setCwd np (some ip)
  | none => writes fun s => s.setCwd np none

def sysFork (p : Slot) (kalloc copyuvm : Bool) : Kernel Int := do
  let t ← reads State.tab
  writes fun s => s.setTab (fork t p kalloc copyuvm).2
  match (allocproc t kalloc).1, copyuvm with
  | some np, true =>
    copyFiles p np
    pure (fork t p kalloc copyuvm).1
  | _, _ => pure (-1)

def sysThreadCreate (p : Slot) (kalloc allocuvm : Bool) : Kernel Int := do
  let t ← reads State.tab
  writes fun s => s.setTab (threadCreate t p kalloc allocuvm).tab
  match (allocproc t kalloc).1, allocuvm with
  | some np, true =>
    copyFiles ((t.proc p).main.getD p) np
    pure 0
  | _, _ => pure (-1)

def sysThreadExit (p : Slot) (retval : UInt32) : Kernel Unit := do
  check fun s => s.tab.initproc ≠ some p
  dropFiles p
  writes fun s => s.setTab (threadExit s.tab p retval)

/-- `exit`. A main thread sleeps until its other threads have exited, and tries again. -/
def sysExit (p : Slot) : Kernel Unit := do
  check fun s => s.tab.initproc ≠ some p
  let t ← reads State.tab
  let (havethreads, t) := if (t.proc p).tid = 0 then clearSubthreads t p else (0, t)
  if havethreads = 0 then
    writes fun s => s.setTab t
    dropFiles p
    writes fun s => s.setTab (exitRest s.tab p)
  else writes fun s => s.setTab (sleep t p (some (.proc p)) .exit)

/-- An iteration of `kill_threads_except`. -/
def killThread (pid : Int) (cp p : Slot) : Kernel Unit := do
  let q ← reads fun s => s.tab.proc p
  if q.pid ≠ pid ∨ p = cp then pure ()
  else
    dropFiles p
    writes fun s => s.setTab (threadClear (reparent s.tab p) p)

/-- `exec`, where `e` says how it ends if the path leads to a file that may be executed. -/
def sysExec (p : Slot) (path : Name) (e : ExecEnd) : Kernel Int := do
  writes fun s => s.setTab (detach s.tab p)
  let pid ← reads fun s => (s.tab.proc p).pid
  slots.forM (killThread pid p)
  match ← namei p path with
  | none => pure (-1)
  | some ip =>
    ilock ip
    let ok ← grants ip X_OK
    iunlockput ip
    if pid > 2 ∧ ok = false then pure (-1)
    else
      let t ← reads State.tab
      match execLoad t p e with
      | none => stop
      | some (r, t) =>
        writes fun s => s.setTab t
        pure r

/-! ## Runs -/

inductive Call
  | sysOpen (path : Name) (omode : UInt32)
  | sysClose (fd : Nat)
  | sysDup (fd : Nat)
  | sysMkdir (path : Name)
  | sysMknod (path : Name)
  | sysLink (old new : Name)
  | sysUnlink (path : Name)
  | sysChdir (path : Name)
  | sysChmod (path : Name) (mode : UInt32)
  | sysAddUser (username password : Users.Str)
  | sysDeleteUser (username : Users.Str)
  | sysFork (kalloc copyuvm : Bool)
  | sysThreadCreate (kalloc allocuvm : Bool)
  | sysThreadExit (retval : UInt32)
  | sysExec (path : Name) (e : ExecEnd)
  | sysExit

/-- The call made by the process in slot `p`. -/
def Call.run (p : Slot) : Call → Kernel Unit
  | .sysOpen path omode => do let _ ← Fs.sysOpen p path omode
  | .sysClose fd => do let _ ← Fs.sysClose p fd
  | .sysDup fd => do let _ ← Fs.sysDup p fd
  | .sysMkdir path => do let _ ← mkdir p path
  | .sysMknod path => do let _ ← Fs.sysMknod p path
  | .sysLink old new => do let _ ← Fs.sysLink p old new
  | .sysUnlink path => do let _ ← Fs.sysUnlink p path
  | .sysChdir path => do let _ ← Fs.sysChdir p path
  | .sysChmod path mode => do let _ ← Fs.sysChmod p path mode
  | .sysAddUser username password => do let _ ← Fs.sysAddUser p username password
  | .sysDeleteUser username => do let _ ← Fs.sysDeleteUser p username
  | .sysFork kalloc copyuvm => do let _ ← Fs.sysFork p kalloc copyuvm
  | .sysThreadCreate kalloc allocuvm => do let _ ← Fs.sysThreadCreate p kalloc allocuvm
  | .sysThreadExit retval => Fs.sysThreadExit p retval
  | .sysExec path e => do let _ ← Fs.sysExec p path e
  | .sysExit => Fs.sysExit p

/-- The call that a process which sleeps in it makes again. -/
def Call.isExit : Call → Bool
  | .sysExit => true
  | _ => false

/-- A process that can make a call: it is not asleep, and if it has been woken in `exit` it goes on
with that. -/
def State.CanCall (s : State) (p : Slot) (call : Call) : Prop :=
  ((s.tab.proc p).state = .RUNNABLE ∨ (s.tab.proc p).state = .RUNNING) ∧
    ((s.tab.proc p).context = .user ∨ call.isExit = true)

instance (s : State) (p : Slot) (call : Call) : Decidable (s.CanCall p call) :=
  inferInstanceAs (Decidable (_ ∧ _))

def File.closed : File := ⟨.FD_NONE, 0, false, false⟩

/-- The state at the end of `userinit`: the first process is in the root directory. -/
def State.boot (inode : Nat → Inode) (tab : Ptable) (ltable : Users.Ltable) : State where
  inode := inode
  icache ip := if ip.val = 0 then ⟨ROOTINO, 1, false⟩ else ⟨0, 0, false⟩
  file _ := .closed
  tab := tab
  ofile _ _ := none
  cwd p := if p.val = 0 then some ⟨0, by decide⟩ else none
  ltable := ltable
  ltableFd := 0

/-- The kernel, with every system call as one step. -/
def calls : LTS State (Slot × Call) where
  init s := ∃ inode tab ltable, userinit pinit = some tab ∧ s = .boot inode tab ltable
  next s a := if s.CanCall a.1 a.2 then (a.2.run a.1 s).map Prod.snd else none

end Xv6.Fs
