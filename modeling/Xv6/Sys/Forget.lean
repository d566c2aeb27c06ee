import Xv6.Lib.Forget
import Xv6.Sys.Sysfile

/-! # Without locks, transactions and contents

The functions of `Xv6.Fs` are those of `Xv6.Sys` without what only the latter has in its state. -/

namespace Xv6.Sys

open Fault
open Fs (Ip Name InodeType)

variable {p : Slot} {ip dp : Ip} {name path : Name} {inum : Nat} {type : InodeType}

abbrev Forgets (x : Kernel α) (y : Fs.Kernel α) : Prop := Fault.Forgets State.toState x y

/-! ## The inode cache -/

theorem beginOp_forgets : Forgets beginOp (pure ()) := fun _ => rfl

theorem endOp_forgets : Forgets (do endOp; pure a) (pure a) := fun _ => rfl

theorem acquiresleep_forgets : Forgets (acquiresleep p ip) (pure ()) :=
  .after (.check (d := fun _ => True) fun _ _ => trivial) fun _ _ => rfl

theorem iget_forgets : Forgets (iget inum) (Fs.iget inum) := by
  refine .bind (fun _ => rfl) fun icache => ?_
  cases (List.finRange Fs.NINODE).find? fun ip => (icache ip).ref > 0 ∧ (icache ip).inum = inum with
  | some ip => exact fun _ => rfl
  | none =>
    cases (List.finRange Fs.NINODE).find? fun ip => (icache ip).ref = 0 with
    | some ip => exact fun _ => rfl
    | none => exact fun _ => trivial

theorem ilock_forgets : Forgets (ilock p ip) (Fs.ilock ip) := by
  have h : Forgets (ilock p ip) (do
      Prog.check fun s => 1 ≤ (s.icache ip).ref
      Prog.check fun s => (s.icache ip).valid = true ∨ (s.ino ip).type ≠ none
      Prog.writes fun s => s.setEntry ip { s.icache ip with valid := true }) :=
    .bind (.check fun _ => id) fun _ => .after acquiresleep_forgets fun _ =>
      .bind (.check fun _ => id) fun _ _ => rfl
  refine fun s => (h s).imp (fun _ => id) fun a s' hs => ?_
  simpa [Fs.ilock, and_assoc] using hs

theorem iunlock_forgets : Forgets (iunlock p ip) (Fs.iunlock ip) := by
  have h : Forgets (iunlock p ip) (do Fs.iunlock ip; pure ()) :=
    .bind (.check fun _ => And.right) fun _ _ => rfl
  rwa [bind_pure_unit] at h

theorem iput_forgets : Forgets (iput p ip) (Fs.iput ip) := by
  refine .after acquiresleep_forgets fun _ => .bind (fun s => ?_) fun _ _ => rfl
  change some ((), ite _ _ _) = some ((), State.toState (ite _ _ _))
  split <;> rfl

theorem iunlockput_forgets : Forgets (iunlockput p ip) (Fs.iunlockput ip) :=
  .bind iunlock_forgets fun _ => iput_forgets

theorem ialloc_forgets : Forgets (ialloc type) (Fs.ialloc type) := by
  refine .bind (fun _ => rfl) fun inode => ?_
  cases (List.range' 1 (Fs.NINODES - 1)).find? fun inum => (inode inum).type = none with
  | some inum => exact .bind (fun _ => rfl) fun _ => iget_forgets
  | none => exact fun _ => trivial

/-! ## Directories and paths -/

theorem dirlookup_forgets : Forgets (dirlookup dp name) (Fs.dirlookup dp name) := by
  refine .bind (.check fun _ => id) fun _ => .bind (fun _ => rfl) fun d => ?_
  cases d.lookup name with
  | some off => exact .bind iget_forgets fun ip _ => rfl
  | none => exact fun _ => rfl

theorem dirlink_forgets : Forgets (dirlink p dp name inum) (Fs.dirlink dp name inum) := by
  refine .bind dirlookup_forgets fun r => ?_
  cases r with
  | some r => exact .bind iput_forgets fun _ _ => rfl
  | none =>
    intro s
    simp only [reads_bind]
    split
    · rfl
    · trivial

theorem namexLoop_forgets {parent : Bool} {names : List Name} :
    Forgets (namexLoop p parent ip names) (Fs.namexLoop p parent ip names) := by
  induction names generalizing ip with
  | nil => exact .ite (.bind iput_forgets fun _ _ => rfl) fun _ => rfl
  | cons name names ih =>
    have hput : Forgets (do iunlockput p ip; pure (none : Option (Ip × Name))) (do
        Fs.iunlockput ip; pure none) := .bind iunlockput_forgets fun _ _ => rfl
    refine .bind ilock_forgets fun _ => .bind (fun _ => rfl) fun d =>
      .bind (fun _ => rfl) fun pid => .bind (fun _ => rfl) fun ok => .ite hput (.ite hput (.ite
        (.bind iunlock_forgets fun _ _ => rfl) (.bind dirlookup_forgets fun r => ?_)))
    cases r with
    | none => exact hput
    | some r => exact .bind iunlockput_forgets fun _ => ih

theorem namex_forgets {parent : Bool} : Forgets (namex p path parent) (Fs.namex p path parent) := by
  refine .ite (.bind iget_forgets fun _ => namexLoop_forgets) (.bind (fun _ => rfl) fun cwd => ?_)
  cases cwd with
  | some cwd => exact .bind (y := Fs.idup cwd) (fun _ => rfl) fun _ => namexLoop_forgets
  | none => exact .ite (fun _ => rfl) fun _ => trivial

/-! ## Calls -/

theorem mustLink_forgets {e : Stop} :
    Forgets (mustLink p dp name inum e) (Fs.mustLink dp name inum) :=
  .bind dirlink_forgets fun _ => .ite (fun _ => rfl) fun _ => trivial

theorem createNew_forgets : Forgets (createNew p dp name type) (Fs.createNew dp name type) := by
  refine .bind (fun _ => rfl) fun ok => .ite (.bind iunlock_forgets fun _ _ => rfl) ?_
  simp only [newInode, bind_assoc, pure_bind]
  refine .bind ialloc_forgets fun ip => .bind ilock_forgets fun _ => .bind (fun _ => rfl) fun _ =>
    .bind (fun _ => rfl) fun inum => .bind (fun _ => rfl) fun dinum => ?_
  have hend : Forgets (do mustLink p dp name inum .createDirlink; iunlockput p dp; pure (some ip))
      (do Fs.mustLink dp name inum; Fs.iunlockput dp; pure (some ip)) :=
    .bind mustLink_forgets fun _ => .bind iunlockput_forgets fun _ _ => rfl
  exact .ite (.bind (fun _ => rfl) fun _ => .bind mustLink_forgets fun _ =>
    .bind mustLink_forgets fun _ => hend) hend

theorem createOld_forgets : Forgets (createOld p ip type) (Fs.createOld ip type) := by
  refine .bind ilock_forgets fun _ => .bind (fun _ => rfl) fun st =>
    .bind (fun _ => rfl) fun n => ?_
  by_cases hc : type = .T_FILE ∧ st.type = some .T_FILE
  · simp only [if_pos hc]
    exact .bind (fun _ => rfl) fun ok => .ite (.bind iunlock_forgets fun _ _ => rfl) fun _ => rfl
  · simp only [if_neg hc]
    exact .read fun _ => .bind iunlockput_forgets fun _ _ => rfl

theorem create_forgets : Forgets (create p path type) (Fs.create p path type) := by
  refine .bind namex_forgets fun r => ?_
  cases r with
  | none => exact fun _ => rfl
  | some r =>
    refine .bind ilock_forgets fun _ => .bind dirlookup_forgets fun q => ?_
    cases q with
    | some q => exact .bind iunlockput_forgets fun _ => createOld_forgets
    | none => exact createNew_forgets

theorem sysUnlink_forgets : Forgets (sysUnlink p path) (Fs.sysUnlink p path) := by
  refine .after beginOp_forgets fun _ => .bind namex_forgets fun r => ?_
  cases r with
  | none => exact endOp_forgets
  | some r =>
    have hput : Forgets (do iunlockput p r.1; endOp; pure (-1)) (do
        Fs.iunlockput r.1; pure (-1 : Int)) := .bind iunlockput_forgets fun _ => endOp_forgets
    refine .bind ilock_forgets fun _ => .bind (fun _ => rfl) fun ok => .ite
      (.bind iunlock_forgets fun _ => endOp_forgets) (.ite hput ?_)
    refine .bind dirlookup_forgets fun q => ?_
    cases q with
    | none => exact hput
    | some q =>
      have hend : Forgets (do iunlockput p r.1; addLinks q.1 (-1); iunlockput p q.1; endOp; pure 0)
          (do Fs.iunlockput r.1; Fs.addLinks q.1 (-1); Fs.iunlockput q.1; pure (0 : Int)) :=
        .bind iunlockput_forgets fun _ => .bind (fun _ => rfl) fun _ =>
          .bind iunlockput_forgets fun _ => endOp_forgets
      exact .bind ilock_forgets fun _ => .bind (fun _ => rfl) fun st => .ite (fun _ => trivial)
        (.ite (.bind iunlockput_forgets fun _ => hput) (.bind (fun _ => rfl) fun _ =>
          .ite (.bind (fun _ => rfl) fun _ => hend) hend))

end Xv6.Sys
