import Xv6.Fs.Inode
import Xv6.Lib.Fault
import Xv6.Thread.Frame

/-! # Spin locks and sleeping

`acquire`, `release`, `sleep` and `wakeup`, and the functions over them that close a file and put
back an inode, as one thread runs them on its CPU. `acquire` panics if the CPU holds the lock
already, and `sched` if it holds any lock but `ptable.lock`; a lock that another CPU holds is
waited for. What the others do is in the state from the start: how often each loop around `sleep`
goes round, and which buffers `itrunc`, `iupdate` and `commit` use. -/

namespace Xv6.Locks

open Fault Thread
open Fs (NFILE NOFILE)
open Function

/-- `struct sleeplock` of an inode or a buffer. -/
inductive Sleeplock
  | inode (ip : Nat)
  | buf (b : Nat)
  deriving DecidableEq, Repr

inductive Spinlock
  | ptable | ftable | log | icache | bcache | idelock
  | pipe (p : Nat)
  /-- `lk->lk` of a sleep lock. -/
  | sleeplock (lk : Sleeplock)
  deriving DecidableEq, Repr

/-- The objects whose addresses are wait channels here. -/
inductive Object
  | log
  | sleeplock (lk : Sleeplock)
  | buf (b : Nat)
  /-- `p->nread`. -/
  | nread (p : Nat)
  | nwrite (p : Nat)

def Object.addr : Object → Nat
  | .log => 0
  | .sleeplock (.inode ip) => 5 * ip + 1
  | .sleeplock (.buf b) => 5 * b + 2
  | .buf b => 5 * b + 3
  | .nread p => 5 * (2 * p) + 4
  | .nwrite p => 5 * (2 * p + 1) + 4

def Object.chan (x : Object) : Option Chan := some (.other x.addr)

inductive Stop
  /-- `panic("acquire")`. -/
  | acquire
  /-- `panic("release")`. -/
  | release
  /-- `panic("sched ptable.lock")`. -/
  | schedPtable
  /-- `panic("sched locks")`. -/
  | schedLocks
  /-- `panic("fileclose")`. -/
  | fileclose
  /-- A pointer that is 0 is used as an inode, which C leaves undefined. -/
  | null
  deriving DecidableEq, Repr

inductive FileType
  | FD_NONE
  | FD_PIPE (pipe : Nat)
  | FD_INODE (ip : Nat)
  deriving DecidableEq, Repr

structure File where
  type : FileType
  ref : Int
  writable : Bool
  deriving DecidableEq, Repr

structure Pipe where
  readopen : Bool
  writeopen : Bool
  deriving DecidableEq, Repr

structure Inode where
  ref : Int
  valid : Bool
  nlink : Int16
  deriving DecidableEq, Repr

/-- A use of a buffer. -/
inductive Io
  | bget (b : Nat)
  | iderw (b : Nat)
  | logWrite
  | brelse (b : Nat)
  deriving DecidableEq, Repr

structure State where
  tab : Ptable
  /-- `ofile` of the processes. -/
  ofile : Slot → Fin NOFILE → Option (Fin NFILE)
  /-- `cwd` of the processes. -/
  cwd : Slot → Option Nat
  file : Fin NFILE → File
  pipe : Nat → Pipe
  icache : Nat → Inode
  /-- `log.outstanding`. -/
  outstanding : Int
  /-- The spin locks of this CPU. -/
  held : List Spinlock
  /-- How often the loops around `sleep` go round, in their order. -/
  waits : Nat → Nat
  /-- The buffers that `itrunc` with `iupdate`, or `commit`, use, in their order. -/
  io : Nat → List Io

abbrev Kernel (α : Type) := Fault Stop State α

/-! ## Locks -/

def acquire (lk : Spinlock) : Kernel Unit := do
  check (fun s => lk ∉ s.held) .acquire
  writes fun s => { s with held := lk :: s.held }

def release (lk : Spinlock) : Kernel Unit := do
  check (fun s => lk ∈ s.held) .release
  writes fun s => { s with held := s.held.erase lk }

/-- `sched`, up to the return from `swtch`; `mycpu()->ncli` counts the locks. -/
def sched : Kernel Unit := do
  check (fun s => .ptable ∈ s.held) .schedPtable
  check (fun s => s.held.length = 1) .schedLocks

/-- The first test of `sleep`. -/
def enterSleep (lk : Spinlock) : Kernel Unit :=
  if lk ≠ .ptable then do
    acquire .ptable
    release lk
  else pure ()

/-- The last test of `sleep`. -/
def leaveSleep (lk : Spinlock) : Kernel Unit :=
  if lk ≠ .ptable then do
    release .ptable
    acquire lk
  else pure ()

def sleep (p : Slot) (x : Object) (lk : Spinlock) : Kernel Unit := do
  enterSleep lk
  writes fun s => { s with tab := Thread.sleep s.tab p x.chan .user }
  sched
  writes fun s => { s with tab := Thread.dispatch s.tab p }
  leaveSleep lk

def wakeup (x : Object) : Kernel Unit := do
  acquire .ptable
  writes fun s => { s with tab := wakeup1 s.tab x.chan }
  release .ptable

/-- A loop around `sleep`. -/
def sleepWhile (p : Slot) (x : Object) (lk : Spinlock) : Kernel Unit := do
  let k ← reads fun s => s.waits 0
  writes fun s => { s with waits := fun i => s.waits (i + 1) }
  (List.replicate k ()).forM fun _ => sleep p x lk

def acquiresleep (p : Slot) (lk : Sleeplock) : Kernel Unit := do
  acquire (.sleeplock lk)
  sleepWhile p (.sleeplock lk) (.sleeplock lk)
  release (.sleeplock lk)

def releasesleep (lk : Sleeplock) : Kernel Unit := do
  acquire (.sleeplock lk)
  wakeup (.sleeplock lk)
  release (.sleeplock lk)

/-! ## The file system -/

def Io.run (p : Slot) : Io → Kernel Unit
  | .bget b => do
    acquire .bcache
    release .bcache
    acquiresleep p (.buf b)
  | .iderw b => do
    acquire .idelock
    sleepWhile p (.buf b) .idelock
    release .idelock
  | .logWrite => do
    acquire .log
    release .log
  | .brelse b => do
    releasesleep (.buf b)
    acquire .bcache
    release .bcache

/-- `itrunc` and `iupdate`, or `commit`. -/
def disk (p : Slot) : Kernel Unit := do
  let io ← reads fun s => s.io 0
  writes fun s => { s with io := fun i => s.io (i + 1) }
  io.forM (Io.run p)

def beginOp (p : Slot) : Kernel Unit := do
  acquire .log
  sleepWhile p .log .log
  writes fun s => { s with outstanding := s.outstanding + 1 }
  release .log

/-- `end_op`, which finds `log.committing` clear. -/
def endOp (p : Slot) : Kernel Unit := do
  acquire .log
  writes fun s => { s with outstanding := s.outstanding - 1 }
  let outstanding ← reads fun s => s.outstanding
  if outstanding = 0 then do
    release .log
    disk p
    acquire .log
    wakeup .log
    release .log
  else do
    wakeup .log
    release .log

/-- The test of `iput` for an inode that is in use nowhere. -/
def iputLast (p : Slot) (ip : Nat) : Kernel Unit := do
  let v ← reads fun s => s.icache ip
  if v.valid = true ∧ v.nlink = 0 then do
    acquire .icache
    let r ← reads fun s => (s.icache ip).ref
    release .icache
    if r = 1 then do
      disk p
      writes fun s => { s with
        icache := update s.icache ip { s.icache ip with valid := false } }
    else pure ()
  else pure ()

def iput (p : Slot) : Option Nat → Kernel Unit
  | none => panic .null
  | some ip => do
    acquiresleep p (.inode ip)
    iputLast p ip
    releasesleep (.inode ip)
    acquire .icache
    writes fun s => { s with
      icache := update s.icache ip { s.icache ip with ref := (s.icache ip).ref - 1 } }
    release .icache

/-- The end of a pipe that `pipeclose` closes. -/
def closeEnd (pipe : Nat) (writable : Bool) : Kernel Unit :=
  if writable then do
    writes fun s => { s with
      pipe := update s.pipe pipe { s.pipe pipe with writeopen := false } }
    wakeup (.nread pipe)
  else do
    writes fun s => { s with
      pipe := update s.pipe pipe { s.pipe pipe with readopen := false } }
    wakeup (.nwrite pipe)

/-- `pipeclose`; with both ends closed the page is freed after the lock is given back. -/
def pipeclose (pipe : Nat) (writable : Bool) : Kernel Unit := do
  acquire (.pipe pipe)
  closeEnd pipe writable
  release (.pipe pipe)

/-- `fileclose` after it has given back `ftable.lock`, with the copy `ff` of the file. -/
def closeLast (p : Slot) (ff : File) : Kernel Unit :=
  match ff.type with
  | .FD_NONE => pure ()
  | .FD_PIPE pipe => pipeclose pipe ff.writable
  | .FD_INODE ip => do
    beginOp p
    iput p (some ip)
    endOp p

def fileclose (p : Slot) (f : Fin NFILE) : Kernel Unit := do
  acquire .ftable
  check (fun s => 1 ≤ (s.file f).ref) .fileclose
  let ff ← reads fun s => s.file f
  if ff.ref - 1 > 0 then do
    writes fun s => { s with file := update s.file f { ff with ref := ff.ref - 1 } }
    release .ftable
  else do
    writes fun s => { s with
      file := update s.file f { ff with ref := 0, type := .FD_NONE } }
    release .ftable
    closeLast p ff

/-! ## With `ptable.lock` -/

def Holding (s : State) : Prop := .ptable ∈ s.held

/-- The program panics. -/
abbrev Dies (P : State → Prop) (x : Kernel Unit) : Prop :=
  Triple (fun _ => True) P x fun _ _ => False

/-- The program panics, or it returns with `ptable.lock`. -/
abbrev Keeps (x : Kernel Unit) : Prop := Triple (fun _ => True) Holding x fun _ => Holding

section Holding
theorem Dies.bind (h : Dies P x) : Dies P (x >>= y) := Triple.bind h fun _ _ => False.elim

theorem Keeps.dies (hx : Keeps x) (hy : ∀ a, Dies Holding (y a)) : Dies Holding (x >>= y) :=
  Triple.bind hx hy

theorem Dies.keeps (h : Dies Holding x) : Keeps x := h.post fun _ _ => False.elim

theorem writes_keeps {f : State → State} (h : ∀ s, (f s).held = s.held) : Keeps (writes f) :=
  .writes fun s hs => by rwa [Holding, h]

theorem acquire_keeps (lk : Spinlock) : Keeps (acquire lk) :=
  .bind (.check fun _ _ _ => trivial) fun _ => .writes fun _ hs => List.mem_cons_of_mem _ hs.1

theorem release_keeps (h : lk ≠ .ptable) : Keeps (release lk) :=
  .bind (.check fun _ _ _ => trivial) fun _ => .writes fun _ hs =>
    (List.mem_erase_of_ne h.symm).mpr hs.1

/-- The second `acquire` of a lock. -/
theorem acquire_dies : Dies Holding (acquire .ptable) :=
  Triple.bind (.check fun _ _ _ => trivial) fun _ => .writes fun _ hs => hs.2 hs.1

theorem sleep_dies {o : Object} (h : lk ≠ .ptable) : Dies Holding (sleep p o lk) := by
  refine Dies.bind ?_
  rw [enterSleep, if_pos h]
  exact acquire_dies.bind

theorem wakeup_dies {o : Object} : Dies Holding (wakeup o) := acquire_dies.bind

theorem sleepWhile_keeps {o : Object} (h : lk ≠ .ptable) : Keeps (sleepWhile p o lk) :=
  .read fun _ => .bind (writes_keeps fun _ => rfl) fun _ =>
    .forM (P := fun _ => Holding) fun _ _ => (sleep_dies h).keeps

theorem acquiresleep_keeps {l : Sleeplock} : Keeps (acquiresleep p l) :=
  .bind (acquire_keeps _) fun _ => .bind (sleepWhile_keeps nofun) fun _ => release_keeps nofun

theorem releasesleep_dies {l : Sleeplock} : Dies Holding (releasesleep l) :=
  (acquire_keeps _).dies fun _ => wakeup_dies.bind

theorem io_keeps (a : Io) : Keeps (a.run p) := by
  cases a with
  | bget b =>
    exact .bind (acquire_keeps _) fun _ => .bind (release_keeps nofun) fun _ => acquiresleep_keeps
  | iderw b =>
    exact .bind (acquire_keeps _) fun _ => .bind (sleepWhile_keeps nofun) fun _ =>
      release_keeps nofun
  | logWrite => exact .bind (acquire_keeps _) fun _ => release_keeps nofun
  | brelse b => exact releasesleep_dies.bind.keeps

theorem disk_keeps : Keeps (disk p) :=
  .read fun _ => .bind (writes_keeps fun _ => rfl) fun _ =>
    .forM (P := fun _ => Holding) fun a _ => io_keeps a

theorem beginOp_keeps : Keeps (beginOp p) :=
  .bind (acquire_keeps _) fun _ => .bind (sleepWhile_keeps nofun) fun _ =>
    .bind (writes_keeps fun _ => rfl) fun _ => release_keeps nofun

theorem iputLast_keeps {ip : Nat} : Keeps (iputLast p ip) := by
  refine .read fun v => .ite (fun _ => ?_) fun _ => .pure fun _ => id
  refine .bind (acquire_keeps _) fun _ => .read fun r => .bind (release_keeps nofun) fun _ => ?_
  refine .ite (fun _ => ?_) fun _ => .pure fun _ => id
  exact .bind disk_keeps fun _ => writes_keeps fun _ => rfl

/-- `iput` wakes those who wait for the lock of the inode, if it comes so far. -/
theorem iput_dies (ip : Option Nat) : Dies Holding (iput p ip) := by
  cases ip with
  | none => exact .panic trivial
  | some ip =>
    exact acquiresleep_keeps.dies fun _ => iputLast_keeps.dies fun _ => releasesleep_dies.bind

/-- `pipeclose` wakes those who wait at the other end. -/
theorem pipeclose_dies {pipe : Nat} {writable : Bool} : Dies Holding (pipeclose pipe writable) := by
  refine (acquire_keeps _).dies fun _ => Dies.bind (.ite (fun _ => ?_) fun _ => ?_)
  · exact Keeps.dies (writes_keeps fun _ => rfl) fun _ => wakeup_dies
  · exact Keeps.dies (writes_keeps fun _ => rfl) fun _ => wakeup_dies

/-- The last reference to a pipe or an inode cannot be given back. -/
theorem closeLast_dies {ff : File} (h : ff.type ≠ .FD_NONE) : Dies Holding (closeLast p ff) := by
  unfold closeLast
  split
  · next e => exact absurd e h
  · exact pipeclose_dies
  · exact beginOp_keeps.dies fun _ => (iput_dies _).bind

end Holding

/-! ## Without `ptable.lock` -/

/-- What `kill_threads_except` reads of the processes and the files. -/
structure Tables where
  file : Fin NFILE → File
  ofile : Slot → Fin NOFILE → Option (Fin NFILE)
  cwd : Slot → Option Nat
  pid : Slot → Int

def State.tables (s : State) : Tables := ⟨s.file, s.ofile, s.cwd, fun q => (s.tab.proc q).pid⟩

/-- The CPU holds the locks in `l`, and the tables are `T`. -/
def At (l : List Spinlock) (T : Tables) (s : State) : Prop := s.held = l ∧ s.tables = T

/-- The program returns, and does not panic. -/
abbrev Runs (P : State → Prop) (x : Kernel Unit) (Q : State → Prop) : Prop :=
  Triple (fun _ => False) P x fun _ => Q

section At
theorem Runs.writes {f : State → State} (hh : ∀ s, (f s).held = s.held)
    (ht : ∀ s, s.tables = T → (f s).tables = T') : Runs (At l T) (writes f) (At l T') :=
  Triple.writes fun s hs => ⟨(hh s).trans hs.1, ht s hs.2⟩

theorem Runs.check {c : State → Prop} [DecidablePred c] {e : Stop} (h : ∀ s, At l T s → c s) :
    Runs (At l T) (check c e) (At l T) :=
  (Triple.check fun s hs hn => hn (h s hs)).post fun _ _ => And.left

/-- What is read of the tables is known. -/
theorem read_at {E : Stop → Prop} {α : Type} {g : State → α} {v : α} {k : α → Kernel Unit}
    {Q : Unit → State → Prop} (hg : ∀ s, At l T s → g s = v) (h : Triple E (At l T) (k v) Q) :
    Triple E (At l T) (reads g >>= k) Q := by
  intro s hs
  rw [reads_bind, hg s hs]
  exact h s hs

theorem acquire_runs (h : lk ∉ l) : Runs (At l T) (acquire lk) (At (lk :: l) T) :=
  Triple.bind (Runs.check fun _ hs => hs.1 ▸ h) fun _ => .writes fun _ hs =>
    ⟨congrArg _ hs.1, hs.2⟩

theorem release_runs (h : lk ∈ l) : Runs (At l T) (release lk) (At (l.erase lk) T) :=
  Triple.bind (Runs.check fun _ hs => hs.1 ▸ h) fun _ => .writes fun _ hs =>
    ⟨congrArg (·.erase lk) hs.1, hs.2⟩

/-- The last lock taken is given back. -/
theorem release_head_runs : Runs (At (lk :: l) T) (release lk) (At l T) := by
  have h := release_runs (T := T) (List.mem_cons_self (a := lk) (l := l))
  rwa [List.erase_cons_head] at h

theorem sched_runs : Runs (At [.ptable] T) sched (At [.ptable] T) :=
  Triple.bind (Runs.check fun _ hs => hs.1 ▸ List.mem_cons_self) fun _ =>
    Runs.check fun _ hs => hs.1 ▸ rfl

theorem setProc_pid {t : Ptable} {v : Proc} (h : v.pid = (t.proc p).pid) (q : Slot) :
    ((t.setProc p v).proc q).pid = (t.proc q).pid :=
  Ptable.forall_setProc (P := fun q v => v.pid = (t.proc q).pid) h (fun _ _ => rfl) q

theorem sleep_pid {t : Ptable} {chan : Option Chan} {k : Context} (q : Slot) :
    ((Thread.sleep t p chan k).proc q).pid = (t.proc q).pid := by
  refine setProc_pid ?_ q
  rfl

theorem dispatch_pid {t : Ptable} (q : Slot) :
    ((Thread.dispatch t p).proc q).pid = (t.proc q).pid := by
  refine setProc_pid ?_ q
  rfl

/-- The states of processes change, and their ids do not. -/
theorem writeTab_runs {f : Ptable → Ptable} (h : ∀ t q, ((f t).proc q).pid = (t.proc q).pid) :
    Runs (At l T) (writes fun s => { s with tab := f s.tab }) (At l T) := by
  refine .writes (fun _ => rfl) ?_
  rintro s rfl
  simp only [State.tables, h]

theorem sleep_runs {o : Object} (h : lk ≠ .ptable) :
    Runs (At [lk] T) (sleep p o lk) (At [lk] T) := by
  have hin : Runs (At [lk] T) (enterSleep lk) (At [.ptable] T) := by
    rw [enterSleep, if_pos h]
    refine Triple.bind (acquire_runs (by simpa using h.symm)) fun _ => ?_
    have hr : Runs (At [.ptable, lk] T) (release lk) _ := release_runs (by simp)
    rwa [List.erase_cons_tail (by simpa using h.symm), List.erase_cons_head] at hr
  have hout : Runs (At [.ptable] T) (leaveSleep lk) (At [lk] T) := by
    rw [leaveSleep, if_pos h]
    exact Triple.bind release_head_runs fun _ => acquire_runs List.not_mem_nil
  exact Triple.bind hin fun _ => .bind (writeTab_runs fun _ => sleep_pid) fun _ =>
    .bind sched_runs fun _ => .bind (writeTab_runs fun _ => dispatch_pid) fun _ => hout

theorem wakeup_runs {o : Object} (h : .ptable ∉ l) : Runs (At l T) (wakeup o) (At l T) :=
  Triple.bind (acquire_runs h) fun _ =>
    .bind (writeTab_runs fun _ q => (Effect.wakeup1.ids q id).pid) fun _ => release_head_runs

theorem sleepWhile_runs {o : Object} (h : lk ≠ .ptable) :
    Runs (At [lk] T) (sleepWhile p o lk) (At [lk] T) :=
  Triple.read fun _ => .bind (Runs.writes (fun _ => rfl) fun _ => id) fun _ =>
    .forM (P := fun _ => At [lk] T) fun _ _ => sleep_runs h

theorem acquiresleep_runs {k : Sleeplock} : Runs (At [] T) (acquiresleep p k) (At [] T) :=
  Triple.bind (acquire_runs List.not_mem_nil) fun _ => .bind (sleepWhile_runs nofun) fun _ =>
    release_head_runs

theorem releasesleep_runs {k : Sleeplock} : Runs (At [] T) (releasesleep k) (At [] T) :=
  Triple.bind (acquire_runs List.not_mem_nil) fun _ => .bind (wakeup_runs (by simp)) fun _ =>
    release_head_runs

theorem io_runs (a : Io) : Runs (At [] T) (a.run p) (At [] T) := by
  cases a with
  | bget b =>
    exact Triple.bind (acquire_runs List.not_mem_nil) fun _ => .bind release_head_runs fun _ =>
      acquiresleep_runs
  | iderw b =>
    exact Triple.bind (acquire_runs List.not_mem_nil) fun _ => .bind (sleepWhile_runs nofun)
      fun _ => release_head_runs
  | logWrite => exact Triple.bind (acquire_runs List.not_mem_nil) fun _ => release_head_runs
  | brelse b =>
    exact Triple.bind releasesleep_runs fun _ => .bind (acquire_runs List.not_mem_nil) fun _ =>
      release_head_runs

theorem disk_runs : Runs (At [] T) (disk p) (At [] T) :=
  Triple.read fun _ => .bind (Runs.writes (fun _ => rfl) fun _ => id) fun _ =>
    .forM (P := fun _ => At [] T) fun a _ => io_runs a

theorem beginOp_runs : Runs (At [] T) (beginOp p) (At [] T) :=
  Triple.bind (acquire_runs List.not_mem_nil) fun _ => .bind (sleepWhile_runs nofun) fun _ =>
    .bind (Runs.writes (fun _ => rfl) fun _ => id) fun _ => release_head_runs

theorem endOp_runs : Runs (At [] T) (endOp p) (At [] T) := by
  refine Triple.bind (acquire_runs List.not_mem_nil) fun _ =>
    .bind (Runs.writes (fun _ => rfl) fun _ => id) fun _ => .read fun _ => .ite (fun _ => ?_)
      fun _ => ?_
  · exact .bind release_head_runs fun _ => .bind disk_runs fun _ =>
      .bind (acquire_runs List.not_mem_nil) fun _ => .bind (wakeup_runs (by simp)) fun _ =>
        release_head_runs
  · exact .bind (wakeup_runs (by simp)) fun _ => release_head_runs

theorem iputLast_runs {ip : Nat} : Runs (At [] T) (iputLast p ip) (At [] T) := by
  refine Triple.read fun v => .ite (fun _ => ?_) fun _ => .pure fun _ => id
  refine .bind (acquire_runs List.not_mem_nil) fun _ => .read fun r =>
    .bind release_head_runs fun _ => ?_
  refine .ite (fun _ => ?_) fun _ => .pure fun _ => id
  exact .bind disk_runs fun _ => Runs.writes (fun _ => rfl) fun _ => id

theorem iput_runs {ip : Nat} : Runs (At [] T) (iput p (some ip)) (At [] T) :=
  Triple.bind acquiresleep_runs fun _ => .bind iputLast_runs fun _ =>
    .bind releasesleep_runs fun _ => .bind (acquire_runs List.not_mem_nil) fun _ =>
      .bind (Runs.writes (fun _ => rfl) fun _ => id) fun _ => release_head_runs

end At

/-! ## `fileclose` with `ptable.lock` -/

/-- The file after a reference is given back with `ptable.lock`; `none` is a panic. -/
def File.closed (v : File) : Option File :=
  if v.ref > 1 then some { v with ref := v.ref - 1 }
  else if v.ref = 1 ∧ v.type = .FD_NONE then some { v with ref := 0 } else none

def Tables.setFile (T : Tables) (f : Fin NFILE) (v : File) : Tables :=
  { T with file := update T.file f v }

theorem At.holding {l : List Spinlock} {T : Tables} {s : State} (h : At (.ptable :: l) T s) :
    Holding s := by
  rw [Holding, h.1]
  exact List.mem_cons_self

section Fileclose
theorem file_at {l : List Spinlock} {s : State} (h : At l T s) : s.file f = T.file f := by
  rw [← h.2]
  rfl

theorem setFile_runs {l : List Spinlock} :
    Runs (At l T) (writes fun s => { s with file := update s.file f v })
      (At l (T.setFile f v)) :=
  .writes (fun _ => rfl) fun _ hs => hs ▸ rfl

theorem fileclose_runs (h : (T.file f).closed = some v) :
    Runs (At [.ptable] T) (fileclose p f) (At [.ptable] (T.setFile f v)) := by
  have href : 1 ≤ (T.file f).ref := by
    by_contra hr
    rw [File.closed, if_neg (by omega), if_neg (by omega)] at h
    cases h
  refine Triple.bind (acquire_runs (by simp)) fun _ =>
    .bind (Runs.check fun s hs => (file_at hs).symm ▸ href) fun _ =>
      read_at (fun s hs => file_at hs) (.ite (fun hr => ?_) fun hr => ?_)
  · rw [File.closed, if_pos (by omega)] at h
    cases h
    exact .bind setFile_runs fun _ => release_head_runs
  · rw [File.closed, if_neg (by omega)] at h
    obtain ⟨⟨-, hnone⟩, e⟩ := Option.ite_none_right_eq_some.mp h
    have hv : { T.file f with ref := 0, type := .FD_NONE } = v := by
      rw [← Option.some_inj.mp e, ← hnone]
    refine .bind setFile_runs fun _ => .bind release_head_runs fun _ => ?_
    rw [closeLast, hnone, hv]
    exact .pure fun _ => id

theorem fileclose_dies (h : (T.file f).closed = none) : Dies (At [.ptable] T) (fileclose p f) := by
  have hw : ∀ {P Q : State → Prop} {x : Kernel Unit}, Runs P x Q →
      Triple (fun _ => True) P x fun _ => Q := fun h => h.weaken fun _ => False.elim
  refine Triple.bind (hw (acquire_runs (by simp))) fun _ => .bind (.check fun _ _ _ => trivial)
    fun _ => Triple.pre (P := fun s => 1 ≤ (T.file f).ref ∧ At [.ftable, .ptable] T s)
      (.of_and fun hr => ?_) (fun s hs => ⟨file_at hs.1 ▸ hs.2, hs.1⟩)
  refine read_at (fun s hs => file_at hs) (.ite (fun hr' => ?_) fun hr' => ?_)
  · rw [File.closed, if_pos (by omega)] at h
    cases h
  · rw [File.closed, if_neg (by omega)] at h
    have hnone : (T.file f).type ≠ .FD_NONE := by
      intro e
      rw [if_pos ⟨by omega, e⟩] at h
      cases h
    exact .bind (hw setFile_runs) fun _ => .bind (hw release_head_runs) fun _ =>
      (closeLast_dies hnone).pre fun s => At.holding

end Fileclose

end Xv6.Locks
