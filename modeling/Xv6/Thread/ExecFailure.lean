import Xv6.Thread.Sizes

/-! # `exec` that fails

`exec` with the checks that it makes on its way: the lookup of the path, the permission, the ELF
header, the segments of the program, the stack and the arguments. All of them come after the caller
has taken the place of its main thread and the other threads of the process have been cleared, so
that a call that fails leaves a process as it was only if that had nothing to do
(`exec_failed_iff`). -/

namespace Xv6.Thread

/-! ## The checks -/

/-- The fields of `struct proghdr` that are read. -/
structure Proghdr where
  type : UInt32
  off : UInt32
  vaddr : UInt32
  filesz : UInt32
  memsz : UInt32
  deriving DecidableEq, Repr

/-- The fields of `struct elfhdr` that are read. -/
structure Elfhdr where
  magic : UInt32
  entry : UInt32
  phoff : UInt32
  phnum : UInt16
  deriving DecidableEq, Repr

def ELF_MAGIC : UInt32 := 0x464C457F

def ELF_PROG_LOAD : UInt32 := 1

def MAXARG : Nat := 32

/-- What `exec` finds in the file and in memory. -/
structure Program where
  /-- `namei` leads to an inode. -/
  found : Bool
  /-- `checkmod` gives `X_OK`. -/
  executable : Bool
  /-- `readi` reads as many bytes as asked for at an offset. -/
  readi : UInt32 → UInt32 → Bool
  elf : Elfhdr
  /-- The program header at an offset. -/
  proghdr : UInt32 → Proghdr
  /-- `loaduvm` reads a segment. -/
  loaduvm : Proghdr → Bool
  setupkvm : Bool
  /-- There are pages enough for an `allocuvm` from one size to another. -/
  kalloc : UInt32 → UInt32 → Bool
  /-- `copyout` finds the pages from an address on for a number of bytes. -/
  copyout : UInt32 → UInt32 → Bool

inductive Checked
  /-- A failure before `setupkvm`. -/
  | early
  /-- A failure after it. -/
  | bad
  | ok (sz entry sp : UInt32)
  deriving DecidableEq, Repr

namespace Program

variable (pg : Program)

/-- The loop over `n` more program headers, from the offset `off` on; `none` is `goto bad`. -/
def segments : Nat → UInt32 → UInt32 → Option UInt32
  | 0, _, sz => some sz
  | n + 1, off, sz =>
    let ph := pg.proghdr off
    if ¬ pg.readi off 32 then none
    else if ph.type ≠ ELF_PROG_LOAD then segments n (off + 32) sz
    else if ph.memsz < ph.filesz then none
    else if ph.vaddr + ph.memsz < ph.vaddr then none
    else
      let new := allocuvm sz (ph.vaddr + ph.memsz) (pg.kalloc sz (ph.vaddr + ph.memsz))
      if new = 0 then none
      else if ph.vaddr % PGSIZE ≠ 0 then none
      else if ¬ pg.loaduvm ph then none
      else segments n (off + 32) new

/-- The loop over the arguments, whose lengths are given: `argc` and `sp` at its end. -/
def arguments : List UInt32 → Nat → UInt32 → Option (Nat × UInt32)
  | [], argc, sp => some (argc, sp)
  | len :: argv, argc, sp =>
    if argc ≥ MAXARG then none
    else
      let sp := (sp - (len + 1)) &&& ~~~3
      if pg.copyout sp (len + 1) then arguments argv (argc + 1) sp else none

/-- From the stack to the last `copyout`, for a program of size `sz`. -/
def stack (sz : UInt32) (argv : List UInt32) : Option (UInt32 × UInt32) :=
  let sz := PGROUNDUP sz
  let new := allocuvm sz (sz + 2 * PGSIZE) (pg.kalloc sz (sz + 2 * PGSIZE))
  if new = 0 then none
  else
    (pg.arguments argv 0 new).bind fun (argc, sp) =>
      let size := UInt32.ofNat ((3 + argc + 1) * 4)
      if pg.copyout (sp - size) size then some (new, sp - size) else none

/-- The checks of `exec` made by a process with the given pid. -/
def check (pid : Int) (argv : List UInt32) : Checked :=
  if ¬ pg.found then .early
  else if pid > 2 ∧ ¬ pg.executable then .early
  else if ¬ pg.readi 0 52 then .early
  else if pg.elf.magic ≠ ELF_MAGIC then .early
  else if ¬ pg.setupkvm then .early
  else
    match (pg.segments pg.elf.phnum.toNat pg.elf.phoff 0).bind fun sz => pg.stack sz argv with
    | none => .bad
    | some (sz, sp) => .ok sz pg.elf.entry sp

end Program

/-! ## `exec` -/

/-- The fields of `struct trapframe` that `exec` sets. -/
structure Trapframe where
  eip : UInt32
  esp : UInt32
  deriving DecidableEq, Repr

/-- The table and the trap frames. -/
structure Framed where
  tab : Ptable
  tf : Slot → Trapframe

def Checked.outcome : Checked → ExecEnd
  | .early => .early
  | .bad => .bad
  | .ok sz _ _ => .ok sz

def Checked.frame (tf : Slot → Trapframe) (p : Slot) : Checked → Slot → Trapframe
  | .ok _ entry sp => Function.update tf p ⟨entry, sp⟩
  | _ => tf

namespace Framed

/-- `exec`, `none` for a panic in `freevm`. -/
def exec (s : Framed) (curproc : Slot) (pg : Program) (argv : List UInt32) :
    Option (Int × Framed) :=
  let c := pg.check (s.tab.proc curproc).pid argv
  (Thread.exec s.tab curproc c.outcome).map fun (r, t) => (r, ⟨t, c.frame s.tf curproc⟩)

end Framed

variable {t : Ptable} {p q : Slot}

/-! ## What the caller keeps -/

theorem killOne_parent (hq : q ≠ cp) : ((killOne pid cp t q).proc cp).parent =
    if (t.proc q).pid = pid ∧ (t.proc cp).parent = some q then t.initproc
    else (t.proc cp).parent := by
  unfold killOne
  by_cases hp : (t.proc q).pid = pid
  · rw [if_neg (not_or.mpr ⟨not_not.mpr hp, hq⟩), threadClear, Ptable.setProc_proc_of_ne hq.symm,
      reparent_parent]
    simp [hp]
  · simp [hp]

theorem killOne_self : killOne pid cp t cp = t := if_pos (.inr rfl)

theorem killOne_pid (hq : q ≠ p) : ((killOne pid cp t p).proc q).pid = (t.proc q).pid :=
  ((Effect.killOne .refl p cp pid).ids q fun h => h.elim id fun h => hq h.1).pid

theorem killOne_initproc : (killOne pid cp t q).initproc = t.initproc :=
  congrArg Globals.initproc (Effect.killOne .refl q cp pid).globals

/-- The slots of `ps` with the given pid are cleared: the caller passes to init if its parent is
one of them. -/
theorem foldl_killOne_parent (ps : List Slot) (hps : ps.Nodup) (t : Ptable) :
    ((ps.foldl (killOne pid cp) t).proc cp).parent =
      if ∃ q ∈ ps, q ≠ cp ∧ (t.proc q).pid = pid ∧ (t.proc cp).parent = some q then t.initproc
      else (t.proc cp).parent := by
  induction ps generalizing t with
  | nil => simp
  | cons r ps ih =>
    obtain ⟨hr, hps⟩ := List.nodup_cons.mp hps
    rw [List.foldl_cons, ih hps, killOne_initproc]
    by_cases e : r = cp
    · subst e
      rw [killOne_self]
      simp
    · have hpid : ∀ q ∈ ps, ((killOne pid cp t r).proc q).pid = (t.proc q).pid :=
        fun q hq => killOne_pid fun e => hr (e ▸ hq)
      rw [killOne_parent e]
      by_cases h : (t.proc r).pid = pid ∧ (t.proc cp).parent = some r
      · -- its parent is init now, whichever slots are cleared after this one
        have hex : ∃ q ∈ r :: ps, q ≠ cp ∧ (t.proc q).pid = pid ∧ (t.proc cp).parent = some q :=
          ⟨r, List.mem_cons_self, e, h⟩
        rw [if_pos h, if_pos hex, ite_self]
      · rw [if_neg h]
        refine if_congr ⟨?_, ?_⟩ rfl rfl
        · rintro ⟨q, hq, hne, hp, hpar⟩
          exact ⟨q, List.mem_cons_of_mem r hq, hne, hpid q hq ▸ hp, hpar⟩
        · rintro ⟨q, hq, hne, hp, hpar⟩
          rcases List.mem_cons.mp hq with rfl | hq
          · exact absurd ⟨hp, hpar⟩ h
          · exact ⟨q, hq, hne, (hpid q hq).trans hp, hpar⟩

theorem killThreadsExcept_parent (t : Ptable) (pid : Int) (cp : Slot) :
    ((killThreadsExcept t pid cp).proc cp).parent =
      if ∃ q, q ≠ cp ∧ (t.proc q).pid = pid ∧ (t.proc cp).parent = some q then t.initproc
      else (t.proc cp).parent := by
  rw [killThreadsExcept, foldl_killOne_parent slots nodup_slots]
  simp only [mem_slots, true_and]

/-! ## A call that fails -/

/-- A failure changes no slot after `kill_threads_except`. -/
theorem exec_failed (h : exec t p e = some (-1, u)) : u.proc = (execKilled t p).proc := by
  unfold exec at h
  cases e with
  | early =>
    cases h
    rfl
  | bad =>
    simp only [execLoad, setupkvm, freevm, Option.map_some, Option.some.injEq, Prod.mk.injEq,
      true_and] at h
    rw [← h]
  | ok sz =>
    simp only [execLoad, Option.map_eq_some_iff, Prod.mk.injEq] at h
    obtain ⟨_, -, h, -⟩ := h
    cases h

/-- The process of `p` is as it was: `p` itself, its trap frame, and its other threads. -/
structure Kept (s s' : Framed) (p : Slot) : Prop where
  tid : (s'.tab.proc p).tid = (s.tab.proc p).tid
  main : (s'.tab.proc p).main = (s.tab.proc p).main
  parent : (s'.tab.proc p).parent = (s.tab.proc p).parent
  pgdir : (s'.tab.proc p).pgdir = (s.tab.proc p).pgdir
  sz : (s'.tab.proc p).sz = (s.tab.proc p).sz
  tf : s'.tf p = s.tf p
  threads : ∀ q, q ≠ p → s.tab.InUse q → (s.tab.proc q).pid = (s.tab.proc p).pid →
    s'.tab.proc q = s.tab.proc q

/-- There is nothing to detach and nothing to kill: `p` is a main thread without other threads, and
no free slot that has kept the pid of the process is its parent. -/
structure Untouched (t : Ptable) (p : Slot) : Prop where
  tid : (t.proc p).tid = 0
  alone : t.Alone p
  parent : ∀ q, q ≠ p → (t.proc q).pid = (t.proc p).pid → (t.proc p).parent = some q →
    t.initproc = some q

variable {s s' : Framed} {pg : Program} {argv : List UInt32}

theorem frame_failed (h : s.exec p pg argv = some (-1, s')) :
    s'.tf = s.tf ∧ s'.tab.proc = (execKilled s.tab p).proc := by
  obtain ⟨⟨r, u⟩, hu, he⟩ := Option.map_eq_some_iff.mp h
  simp only [Prod.mk.injEq] at he
  obtain ⟨rfl, rfl⟩ := he
  refine ⟨?_, exec_failed hu⟩
  cases hc : pg.check (s.tab.proc p).pid argv with
  | early | bad => rfl
  | ok sz entry sp =>
    rw [hc] at hu
    simp only [Checked.outcome, Thread.exec, execLoad, Option.map_eq_some_iff, Prod.mk.injEq] at hu
    obtain ⟨_, -, hr, -⟩ := hu
    cases hr

theorem detach_of_main (h : (t.proc p).tid = 0) : detach t p = t := if_neg (not_not.mpr h)

theorem detach_tid : ((detach t p).proc p).tid = 0 := by
  unfold detach
  split
  · simp
  · next h => exact not_not.mp h

theorem execKilled_tid : ((execKilled t p).proc p).tid = 0 :=
  ((Effect.execKilled (t := t)).ids p fun h => h.1 rfl).tid.trans detach_tid

theorem Untouched.kept (hu : Untouched s.tab p) (htf : s'.tf = s.tf)
    (htab : s'.tab.proc = (execKilled s.tab p).proc) : Kept s s' p := by
  have hd := detach_of_main hu.tid
  have hids := (Effect.execKilled (t := s.tab) (p := p)).ids p fun h => h.1 rfl
  rw [← htab, hd] at hids
  refine ⟨hids.tid, hids.main, ?_, hids.pgdir, ?_, by rw [htf], ?_⟩
  · rw [htab, execKilled, hd, killThreadsExcept_parent]
    split
    · next h =>
      obtain ⟨q, hne, hp, hpar⟩ := h
      rw [hpar]
      exact hu.parent q hne hp hpar
    · rfl
  · rw [htab, execKilled, hd]
    exact Stays.killThreadsExcept.sz p
  · intro q hne hq hp
    exact absurd hp (hu.alone q hne hq)

theorem Kept.untouched (h : Kept s s' p) (htab : s'.tab.proc = (execKilled s.tab p).proc) :
    Untouched s.tab p := by
  have htid : (s.tab.proc p).tid = 0 := by
    rw [← h.tid, htab]
    exact execKilled_tid
  refine ⟨htid, fun q hne hq hp => ?_, fun q hne hp hpar => ?_⟩
  · -- a thread of the process is cleared
    have hfree := (Effect.execKilled (t := s.tab) (p := p)).free q ⟨hne, hp⟩
    rw [Ptable.InUse, ← htab, h.threads q hne hq hp] at hfree
    exact hfree hq
  · have hparent := h.parent
    rw [htab, execKilled, detach_of_main htid, killThreadsExcept_parent, if_pos ⟨q, hne, hp, hpar⟩]
      at hparent
    exact hparent.trans hpar

/-- An `exec` that fails leaves the process as it was just in case there was nothing to detach and
nothing to kill. -/
theorem exec_failed_iff (h : s.exec p pg argv = some (-1, s')) :
    Kept s s' p ↔ Untouched s.tab p := by
  obtain ⟨htf, htab⟩ := frame_failed h
  exact ⟨fun hk => hk.untouched htab, fun hu => hu.kept htf htab⟩

def missing : Program where
  found := false
  executable := false
  readi _ _ := false
  elf := ⟨0, 0, 0, 0⟩
  proghdr _ := ⟨0, 0, 0, 0, 0⟩
  loaduvm _ := false
  setupkvm := false
  kalloc _ _ := false
  copyout _ _ := false

theorem exec_missing (s : Framed) (p : Slot) : s.exec p missing [] =
    some (-1, ⟨execKilled s.tab p, s.tf⟩) := rfl

/-- init, which has no thread, executes a file that does not exist. -/
theorem exec_failed_init : ∃ s s' : Framed, calls.Reached s.tab ∧
    (s.tab.proc 0).state = .RUNNING ∧ s.exec 0 missing [] = some (-1, s') ∧ Kept s s' 0 := by
  obtain ⟨t, ht, h⟩ := calls.exists_reached_of_run [.dispatch 0]
    (fun t => decide ((t.proc 0).state = .RUNNING ∧ (t.proc 0).tid = 0 ∧
      (∀ q, q ≠ 0 → (t.proc q).pid ≠ (t.proc 0).pid))) calls_init (by decide +kernel)
  obtain ⟨hrun, htid, hall⟩ := of_decide_eq_true h
  have hu : Untouched t 0 :=
    ⟨htid, fun q hq _ => hall q hq, fun q hq hp => absurd hp (hall q hq)⟩
  have hs := exec_missing ⟨t, fun _ => ⟨0, 0⟩⟩ 0
  exact ⟨_, _, ht, hrun, hs, (exec_failed_iff hs).mpr hu⟩

/-- A child of init makes a thread, and the thread executes a file that does not exist: it is the
main thread now, and the slot that was is free. -/
theorem exec_failed_changes : ∃ s s' : Framed, calls.Reached s.tab ∧
    (s.tab.proc 2).state = .RUNNING ∧ s.exec 2 missing [] = some (-1, s') ∧
    (s.tab.proc 2).tid = 1 ∧ (s.tab.proc 2).main = some 1 ∧ (s.tab.proc 1).state = .RUNNING ∧
    (s'.tab.proc 2).tid = 0 ∧ (s'.tab.proc 2).main = none ∧ (s'.tab.proc 2).parent = some 0 ∧
    (s'.tab.proc 1).state = .UNUSED := by
  obtain ⟨t, ht, h⟩ := calls.exists_reached_of_run
    [.dispatch 0, .call 0 (.fork true true), .dispatch 1, .call 1 (.threadCreate true true),
      .dispatch 2]
    (fun t => decide ((t.proc 2).state = .RUNNING ∧ (t.proc 2).tid = 1 ∧
        (t.proc 2).main = some 1 ∧ (t.proc 1).state = .RUNNING) &&
      decide (((execKilled t 2).proc 2).tid = 0 ∧ ((execKilled t 2).proc 2).main = none ∧
        ((execKilled t 2).proc 2).parent = some 0 ∧ ((execKilled t 2).proc 1).state = .UNUSED))
    calls_init (by decide +kernel)
  simp only [Bool.and_eq_true, decide_eq_true_eq] at h
  obtain ⟨⟨hrun, htid, hmain, h1⟩, h'⟩ := h
  exact ⟨⟨t, fun _ => ⟨0, 0⟩⟩, _, ht, hrun, exec_missing _ _, htid, hmain, h1, h'⟩

end Xv6.Thread
