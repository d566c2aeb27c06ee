import Xv6.Thread.Locks

/-! # The locks of `kill_threads_except`

`exec` closes the files of the other threads of its process with `ptable.lock`, and gives the lock
back only around `iput`. The call runs to its end if none of these descriptors is the last one of a
pipe or an inode. -/

namespace Xv6.Locks

open Fault Thread
open Fs (NFILE NOFILE)
open Function

/-! ## The call -/

/-- An iteration of the loop over the descriptors of `p`. -/
def closeFd (cp p : Slot) (fd : Fin NOFILE) : Kernel Unit := do
  let f ← reads fun s => s.ofile p fd
  match f with
  | none => pure ()
  | some f => do
    fileclose cp f
    writes fun s => { s with
      ofile := update s.ofile p (update (s.ofile p) fd none) }

/-- The part of an iteration without `ptable.lock`. -/
def putCwd (cp p : Slot) : Kernel Unit := do
  beginOp cp
  let ip ← reads fun s => s.cwd p
  iput cp ip
  endOp cp
  writes fun s => { s with cwd := update s.cwd p none }

/-- An iteration of the loop of `kill_threads_except`. -/
def killOne (pid : Int) (cp p : Slot) : Kernel Unit := do
  let pid' ← reads fun s => (s.tab.proc p).pid
  if pid' ≠ pid ∨ p = cp then pure ()
  else do
    writes fun s => { s with tab := reparent s.tab p }
    (List.finRange NOFILE).forM (closeFd cp p)
    release .ptable
    putCwd cp p
    acquire .ptable
    writes fun s => { s with tab := threadClear s.tab p }

def killThreadsExcept (pid : Int) (cp : Slot) : Kernel Unit := do
  acquire .ptable
  slots.forM (killOne pid cp)
  release .ptable

/-! ## The call on the tables -/

namespace Tables

variable (T : Tables)

def setOfile (p : Slot) (fd : Fin NOFILE) (v : Option (Fin NFILE)) : Tables :=
  { T with ofile := update T.ofile p (update (T.ofile p) fd v) }

def clear (p : Slot) : Tables :=
  { T with cwd := update T.cwd p none, pid := update T.pid p 0 }

def closeFd (p : Slot) (fd : Fin NOFILE) : Option Tables :=
  match T.ofile p fd with
  | none => some T
  | some f => (T.file f).closed.map fun v => (T.setFile f v).setOfile p fd none

def killOne (pid : Int) (cp p : Slot) : Option Tables :=
  if T.pid p ≠ pid ∨ p = cp then some T
  else ((List.finRange NOFILE).foldlM (fun T : Tables => T.closeFd p) T).bind fun T =>
    (T.cwd p).map fun _ => T.clear p

end Tables

/-- With `ptable.lock`, the program makes `g` of the tables `T`, and panics if `g` is `none`. -/
structure Computes (x : Kernel Unit) (T : Tables) (g : Option Tables) : Prop where
  runs : ∀ T', g = some T' → Runs (At [.ptable] T) x (At [.ptable] T')
  dies : g = none → Dies (At [.ptable] T) x

section Computes
variable {T : Tables} {g : Option Tables} {p : Slot} {pid : Int}

theorem Runs.weaken (h : Runs P x Q) : Triple (fun _ => True) P x fun _ => Q :=
  Triple.weaken h fun _ => False.elim

theorem Computes.forM {α : Type} {f : α → Kernel Unit} {g : Tables → α → Option Tables}
    (h : ∀ T a, Computes (f a) T (g T a)) (l : List α) (T : Tables) :
    Computes (l.forM f) T (l.foldlM g T) := by
  induction l generalizing T with
  | nil =>
    refine ⟨fun T' e => ?_, nofun⟩
    cases e
    exact .pure fun _ => id
  | cons a l ih =>
    have ha := h T a
    rw [List.foldlM_cons]
    cases hg : g T a with
    | none => exact ⟨nofun, fun _ => (ha.dies hg).bind⟩
    | some T₁ =>
      exact ⟨fun T' e => Triple.bind (ha.runs T₁ hg) fun _ => (ih T₁).runs T' e,
        fun e => Triple.bind (ha.runs T₁ hg).weaken fun _ => (ih T₁).dies e⟩

theorem closeFd_computes (T : Tables) (fd : Fin NOFILE) :
    Computes (closeFd cp p fd) T (T.closeFd p fd) := by
  have hr : ∀ s, At [.ptable] T s → s.ofile p fd = T.ofile p fd := fun s hs => by rw [← hs.2]; rfl
  unfold Tables.closeFd
  cases hf : T.ofile p fd with
  | none =>
    refine ⟨fun T' e => read_at hr ?_, nofun⟩
    cases e
    rw [hf]
    exact .pure fun _ => id
  | some f =>
    refine ⟨fun T' e => read_at hr ?_, fun e => read_at hr ?_⟩ <;> rw [hf]
    · obtain ⟨v, hv, rfl⟩ := Option.map_eq_some_iff.mp e
      exact .bind (fileclose_runs hv) fun _ => Runs.writes (fun _ => rfl) fun _ hs => hs ▸ rfl
    · exact (fileclose_dies (Option.map_eq_none_iff.mp e)).bind

theorem putCwd_runs (h : T.cwd p = some ip) : Runs (At [] T) (putCwd cp p)
    (At [] { T with cwd := update T.cwd p none }) := by
  refine Triple.bind beginOp_runs fun _ => read_at (v := some ip) (fun s hs => ?_) ?_
  · rw [← h, ← hs.2]
    rfl
  · exact .bind iput_runs fun _ => .bind endOp_runs fun _ =>
      Runs.writes (fun _ => rfl) fun _ hs => hs ▸ rfl

theorem putCwd_dies (h : T.cwd p = none) : Dies (At [] T) (putCwd cp p) := by
  refine Triple.bind beginOp_runs.weaken fun _ => read_at (v := none) (fun s hs => ?_) ?_
  · rw [← h, ← hs.2]
    rfl
  · exact Dies.bind (.panic trivial)

theorem threadClear_runs : Runs (At l { T with cwd := update T.cwd p none })
      (writes fun s => { s with tab := threadClear s.tab p }) (At l (T.clear p)) := by
  refine Runs.writes (fun _ => rfl) fun s hs => ?_
  obtain ⟨hfile, hofile, hcwd, hpid⟩ := Tables.mk.inj hs
  have hp : (fun q => ((threadClear s.tab p).proc q).pid) = update T.pid p 0 := by
    funext q
    by_cases e : q = p
    · subst e
      simp [threadClear]
    · rw [update_of_ne e, threadClear, Ptable.setProc_proc_of_ne e]
      exact congrFun hpid q
  simp only [State.tables, Tables.clear, hfile, hofile, hcwd, hp]

theorem killOne_computes (T : Tables) (p : Slot) :
    Computes (killOne pid cp p) T (T.killOne pid cp p) := by
  have hr : ∀ s, At [.ptable] T s → (s.tab.proc p).pid = T.pid p := fun s hs => by rw [← hs.2]; rfl
  have hreparent : Runs (At [.ptable] T) (writes fun s => { s with tab := reparent s.tab p })
      (At [.ptable] T) := writeTab_runs fun _ q => (Effect.reparent.ids q id).pid
  have hclose : Computes ((List.finRange NOFILE).forM (closeFd cp p)) T _ :=
    .forM closeFd_computes _ T
  unfold Tables.killOne
  by_cases hs : T.pid p ≠ pid ∨ p = cp
  · rw [if_pos hs]
    refine ⟨fun T' e => read_at hr ?_, nofun⟩
    cases e
    rw [if_pos hs]
    exact .pure fun _ => id
  · rw [if_neg hs]
    cases hc : (List.finRange NOFILE).foldlM (fun T : Tables => T.closeFd p) T with
    | none =>
      refine ⟨nofun, fun _ => read_at hr ?_⟩
      rw [if_neg hs]
      exact .bind hreparent.weaken fun _ => (hclose.dies hc).bind
    | some T₁ =>
      rw [Option.bind_some]
      cases hd : T₁.cwd p with
      | none =>
        refine ⟨nofun, fun _ => read_at hr ?_⟩
        rw [if_neg hs]
        exact .bind hreparent.weaken fun _ => .bind (hclose.runs T₁ hc).weaken fun _ =>
          .bind release_head_runs.weaken fun _ => (putCwd_dies hd).bind
      | some ip =>
        refine ⟨fun T' e => read_at hr ?_, nofun⟩
        cases e
        rw [if_neg hs]
        refine .bind hreparent fun _ => .bind (hclose.runs T₁ hc) fun _ =>
          .bind release_head_runs fun _ => .bind (putCwd_runs hd) fun _ =>
            .bind (acquire_runs List.not_mem_nil) fun _ => threadClear_runs

/-- The call returns if it does so on the tables. -/
theorem killThreadsExcept_iff {s : State} (h : s.held = []) :
    (∃ s', killThreadsExcept pid cp s = .ok ((), s')) ↔
      (slots.foldlM (fun T : Tables => T.killOne pid cp) s.tables).isSome := by
  have hat : At [] s.tables s := ⟨h, rfl⟩
  have hc : Computes (slots.forM (killOne pid cp)) s.tables _ := .forM killOne_computes slots _
  cases hg : slots.foldlM (fun T : Tables => T.killOne pid cp) s.tables with
  | none =>
    have hd : Dies (At [] s.tables) (killThreadsExcept pid cp) :=
      Triple.bind (acquire_runs List.not_mem_nil).weaken fun _ => (hc.dies hg).bind
    refine ⟨fun ⟨s', e⟩ => ?_, nofun⟩
    have := hd s hat
    rw [e] at this
    exact this.elim
  | some T' =>
    have hr : Runs (At [] s.tables) (killThreadsExcept pid cp) (At [] T') :=
      Triple.bind (acquire_runs List.not_mem_nil) fun _ => .bind (hc.runs T' hg) fun _ =>
        release_head_runs
    refine ⟨fun _ => rfl, fun _ => ?_⟩
    have := hr s hat
    cases e : killThreadsExcept pid cp s with
    | ok r => exact ⟨r.2, rfl⟩
    | error =>
      rw [e] at this
      exact this.elim

end Computes

/-! ## The files that are closed -/

/-- `k` references can be given back with `ptable.lock`. -/
def Spare (k : Nat) (v : File) : Prop := k = 0 ∨ k < v.ref ∨ k = v.ref ∧ v.type = .FD_NONE

instance (k : Nat) (v : File) : Decidable (Spare k v) := inferInstanceAs (Decidable (_ ∨ _))

theorem spare_succ_iff : Spare (k + 1) v ↔ ∃ w, v.closed = some w ∧ Spare k w := by
  unfold Spare File.closed
  by_cases h : v.ref > 1
  · simp only [if_pos h, Option.some.injEq, exists_eq_left']
    grind
  · rw [if_neg h]
    by_cases h' : v.ref = 1 ∧ v.type = .FD_NONE
    · simp only [if_pos h', Option.some.injEq, exists_eq_left']
      grind
    · simp only [if_neg h', reduceCtorEq, false_and, exists_false, iff_false]
      grind

/-- References to the files of a list are given back, one for each member. -/
def closeAll (F : Fin NFILE → File) (l : List (Fin NFILE)) : Option (Fin NFILE → File) :=
  l.foldlM (fun F f => (F f).closed.map (update F f)) F

theorem closeAll_isSome_iff : (closeAll F l).isSome ↔ ∀ f, Spare (l.count f) (F f) := by
  induction l generalizing F with
  | nil => simp [closeAll, Spare]
  | cons f l ih =>
    have hne : ∀ g, g ≠ f → (f :: l).count g = l.count g := fun g hg =>
      List.count_cons_of_ne hg.symm
    have hone : Spare ((f :: l).count f) (F f) ↔
        ∃ w, (F f).closed = some w ∧ Spare (l.count f) w := by
      rw [List.count_cons_self, spare_succ_iff]
    rw [closeAll, List.foldlM_cons]
    cases hc : (F f).closed with
    | none =>
      simp only [Option.map_none, Option.bind_eq_bind, Option.bind_none, Option.isSome_none,
        Bool.false_eq_true, false_iff]
      intro h
      obtain ⟨w, hw, -⟩ := hone.mp (h f)
      rw [hc] at hw
      cases hw
    | some v =>
      refine (ih (F := update F f v)).trans ⟨fun h g => ?_, fun h g => ?_⟩ <;>
        by_cases e : g = f
      · subst e
        refine hone.mpr ⟨v, hc, ?_⟩
        simpa using h g
      · rw [hne g e]
        simpa [e] using h g
      · subst e
        obtain ⟨w, hw, hs⟩ := hone.mp (h g)
        rw [hc] at hw
        cases hw
        simpa using hs
      · simpa [e, hne g e] using h g

namespace Tables

variable {T : Tables} {p : Slot} {pid : Int}

/-- The tables of the slots other than `p` are as they were. -/
structure Apart (p : Slot) (T T' : Tables) : Prop where
  ofile : ∀ q, q ≠ p → T'.ofile q = T.ofile q
  cwd : ∀ q, q ≠ p → T'.cwd q = T.cwd q
  pid : ∀ q, q ≠ p → T'.pid q = T.pid q

theorem Apart.refl : Apart p T T := ⟨fun _ _ => rfl, fun _ _ => rfl, fun _ _ => rfl⟩

theorem Apart.trans (h : Apart p T T') (h' : Apart p T' T'') : Apart p T T'' :=
  ⟨fun q hq => (h'.ofile q hq).trans (h.ofile q hq), fun q hq => (h'.cwd q hq).trans (h.cwd q hq),
    fun q hq => (h'.pid q hq).trans (h.pid q hq)⟩

theorem closeFd_apart (h : T.closeFd p fd = some T') : T'.cwd = T.cwd ∧ Apart p T T' := by
  unfold closeFd at h
  split at h
  · cases h
    exact ⟨rfl, .refl⟩
  · obtain ⟨v, -, rfl⟩ := Option.map_eq_some_iff.mp h
    exact ⟨rfl, fun q hq => by simp [setOfile, setFile, hq], fun _ _ => rfl, fun _ _ => rfl⟩

theorem closeFds_apart {fds : List (Fin NOFILE)}
    (h : fds.foldlM (fun T : Tables => T.closeFd p) T = some T') :
    T'.cwd = T.cwd ∧ Apart p T T' := by
  induction fds generalizing T with
  | nil =>
    cases h
    exact ⟨rfl, .refl⟩
  | cons fd fds ih =>
    rw [List.foldlM_cons] at h
    obtain ⟨T₁, h₁, h⟩ := Option.bind_eq_some_iff.mp h
    obtain ⟨hc, ha⟩ := closeFd_apart h₁
    obtain ⟨hc', ha'⟩ := ih h
    exact ⟨hc'.trans hc, ha.trans ha'⟩

/-- The files after the descriptors in a list have been closed, one after the other. -/
theorem closeFds_file {fds : List (Fin NOFILE)} (hn : fds.Nodup) :
    (fds.foldlM (fun T : Tables => T.closeFd p) T).map file =
      closeAll T.file (fds.filterMap (T.ofile p)) := by
  induction fds generalizing T with
  | nil => rfl
  | cons fd fds ih =>
    obtain ⟨hfd, hn⟩ := List.nodup_cons.mp hn
    rw [List.foldlM_cons, closeFd, List.filterMap_cons]
    cases hf : T.ofile p fd with
    | none => exact ih hn
    | some f =>
      rw [closeAll, List.foldlM_cons]
      dsimp only
      cases hc : (T.file f).closed with
      | none => rfl
      | some v =>
        -- the other descriptors of `p` are still there
        have hrest : fds.filterMap (((T.setFile f v).setOfile p fd none).ofile p) =
            fds.filterMap (T.ofile p) := by
          refine List.filterMap_congr fun fd' h => ?_
          have : fd' ≠ fd := fun e => hfd (e ▸ h)
          simp [setOfile, setFile, this]
        have := ih (T := (T.setFile f v).setOfile p fd none) hn
        rw [hrest] at this
        exact this

/-- The files that the descriptors of `p` name, if it is one of the threads to clear. -/
def descriptors (T : Tables) (pid : Int) (cp p : Slot) : List (Fin NFILE) :=
  if T.pid p ≠ pid ∨ p = cp then [] else (List.finRange NOFILE).filterMap (T.ofile p)

theorem Apart.descriptors (h : Apart p T T') (hq : q ≠ p) :
    T'.descriptors pid cp q = T.descriptors pid cp q := by
  rw [Tables.descriptors, Tables.descriptors, h.ofile q hq, h.pid q hq]

theorem kill_isSome_iff {ps : List Slot} (hn : ps.Nodup) :
    (ps.foldlM (fun T : Tables => T.killOne pid cp) T).isSome ↔
      (closeAll T.file (ps.flatMap (T.descriptors pid cp))).isSome ∧
        ∀ p ∈ ps, T.pid p = pid → p ≠ cp → (T.cwd p).isSome := by
  induction ps generalizing T with
  | nil => simp [closeAll]
  | cons p ps ih =>
    obtain ⟨hp, hn⟩ := List.nodup_cons.mp hn
    rw [List.foldlM_cons, List.flatMap_cons, List.forall_mem_cons]
    by_cases hs : T.pid p ≠ pid ∨ p = cp
    · have hv : T.pid p = pid → p ≠ cp → (T.cwd p).isSome := fun h h' =>
        absurd hs (not_or.mpr ⟨not_not.mpr h, h'⟩)
      rw [killOne, if_pos hs, descriptors, if_pos hs]
      exact (ih hn).trans ⟨fun h => ⟨h.1, hv, h.2⟩, fun h => ⟨h.1, h.2.2⟩⟩
    · have hfile := closeFds_file (T := T) (p := p) (List.nodup_finRange NOFILE)
      rw [killOne, if_neg hs, descriptors, if_neg hs, closeAll, List.foldlM_append]
      change _ ↔ ((closeAll T.file _).bind fun F => closeAll F _).isSome ∧ _
      rw [← hfile]
      cases hc : (List.finRange NOFILE).foldlM (fun T : Tables => T.closeFd p) T with
      | none => simp
      | some T₁ =>
        obtain ⟨hcwd, ha⟩ := closeFds_apart hc
        rw [not_or, not_not] at hs
        rw [Option.bind_some, Option.map_some, Option.bind_some, hcwd]
        cases hd : T.cwd p with
        | none => simp [hs]
        | some ip =>
          have hclear : Apart p T (T₁.clear p) := ha.trans
            ⟨fun _ _ => rfl, fun q hq => by simp [clear, hq], fun q hq => by simp [clear, hq]⟩
          have hne : ∀ q ∈ ps, q ≠ p := fun q hq e => hp (e ▸ hq)
          refine (ih (T := T₁.clear p) hn).trans (and_congr ?_ ?_)
          · rw [List.flatMap_congr fun q hq => hclear.descriptors (hne q hq)]
            rfl
          · simp only [Option.isSome_some, implies_true, true_and]
            refine forall₂_congr fun q hq => ?_
            rw [hclear.pid q (hne q hq), hclear.cwd q (hne q hq)]

end Tables

/-- The threads of `pid` other than `cp` hold fewer references to each file than there are, or as
many to one that is not open yet, and each has a current directory. -/
structure Closable (s : State) (pid : Int) (cp : Slot) : Prop where
  files : ∀ f, Spare ((slots.flatMap (s.tables.descriptors pid cp)).count f) (s.file f)
  cwd : ∀ p, (s.tab.proc p).pid = pid → p ≠ cp → (s.cwd p).isSome

/-- `kill_threads_except` runs to its end, without a second `acquire` of `ptable.lock` and without
sleeping with it, if no thread that it clears has the last descriptor of a pipe or an inode. -/
theorem killThreadsExcept_returns_iff {s : State} {pid : Int} {cp : Slot} (h : s.held = []) :
    (∃ s', killThreadsExcept pid cp s = .ok ((), s')) ↔ Closable s pid cp := by
  rw [killThreadsExcept_iff h, Tables.kill_isSome_iff nodup_slots, closeAll_isSome_iff]
  constructor
  · exact fun h => ⟨h.1, fun p => h.2 p (mem_slots p)⟩
  · exact fun h => ⟨h.files, fun p _ => h.cwd p⟩

/-- The main thread in slot 0 and a thread in slot 1, which has `f` open. -/
def twoThreads (f : File) : State where
  tab := (pinit.setProc 0 { Proc.zero with state := .RUNNING, pid := 1 }).setProc 1
    { Proc.zero with state := .RUNNABLE, pid := 1, tid := 1, main := some 0, parent := some 0 }
  ofile p fd := if p = 1 ∧ fd.val = 0 then some ⟨0, by decide⟩ else none
  cwd p := if p = 0 ∨ p = 1 then some 1 else none
  file g := if g.val = 0 then f else ⟨.FD_NONE, 0, false⟩
  pipe _ := ⟨true, true⟩
  icache _ := ⟨3, true, 1⟩
  outstanding := 0
  held := []
  waits i := i % 2
  io _ := []

/-- The main thread calls `exec`, and another process has the file open as well. -/
theorem killThreadsExcept_returns_shared :
    ∃ s', killThreadsExcept 1 0 (twoThreads ⟨.FD_INODE 2, 2, true⟩) = .ok ((), s') :=
  (killThreadsExcept_returns_iff rfl).mpr ⟨by decide +kernel, by decide +kernel⟩

/-- The thread has the last descriptor of the end of a pipe, or of an inode. -/
theorem killThreadsExcept_panics :
    killThreadsExcept 1 0 (twoThreads ⟨.FD_PIPE 0, 1, true⟩) = .error .acquire ∧
    killThreadsExcept 1 0 (twoThreads ⟨.FD_INODE 2, 1, true⟩) = .error .acquire := by
  have h : ∀ r : Except Stop (Unit × State),
      (match r with | .error e => decide (e = .acquire) | .ok _ => false) = true →
      r = .error .acquire := by
    intro r hr
    cases r with
    | ok r => cases hr
    | error e => rw [of_decide_eq_true hr]
  exact ⟨h _ (by decide +kernel), h _ (by decide +kernel)⟩

end Xv6.Locks
