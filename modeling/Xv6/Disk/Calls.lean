import Xv6.Disk.Icache

/-! # Directories and calls keep the blocks

The functions on directories read and write entries with `readi` and `writei`. A call gives up the
references that it takes, or keeps them for good; an operation that ends so leaves the disk as
`Calm` says. -/

namespace Xv6.Disk

open Fault
open Fs (Name InodeType)

variable {s : State} {α : Type}

/-! ## Directories -/

theorem readDirent_keeps (hP : ∀ s, P s → Locked dp s) (he : E e) :
    Triple E P (readDirent dp off e) fun _ => P := by
  refine .bind (readi_keeps hP) fun bytes => ?_
  cases bytes with
  | none => exact .panic he
  | some bytes => exact .ite (fun _ => .pure fun _ => id) fun _ => .panic he

theorem readDirent_spec (hx : ⟨dp, i, true⟩ ∈ l) (he : Safe e) :
    Triple Safe (Calm l) (readDirent dp off e) fun _ => Calm l :=
  readDirent_keeps (fun _ => Calm.locked hx) he

theorem writeDirent_spec {bytes : List UInt8} (hx : ⟨dp, i, true⟩ ∈ l) (he : Safe e) :
    Triple Safe (Calm l) (writeDirent dp off bytes e) fun _ => Calm l :=
  .bind (writei_spec hx) fun _ => .ite (fun _ => .pure fun _ => id) fun _ => .panic he

/-- What a function has found is a reference to an entry, which is held. -/
def Found (l : List Pin) : Option (Ip × α) → State → Prop
  | none, s => Calm l s
  | some r, s => ∃ i, Calm (⟨r.1, i, false⟩ :: l) s

theorem dirlookupLoop_spec (hx : ⟨dp, i, true⟩ ∈ l) :
    Triple Safe (Calm l) (dirlookupLoop dp name offs) (Found l) := by
  induction offs with
  | nil => exact .pure fun _ => id
  | cons off offs ih =>
    refine .bind (readDirent_spec hx nofun) fun de => .ite (fun _ => ih) fun _ =>
      .ite (fun _ => ?_) fun _ => ih
    exact .bind iget_spec fun ip => .pure fun s h => ⟨de.inum, h⟩

theorem dirlookup_spec (hx : ⟨dp, i, true⟩ ∈ l) :
    Triple Safe (Calm l) (dirlookup dp name) (Found l) :=
  .bind (.check_keeps nofun) fun _ => .read fun _ => dirlookupLoop_spec hx

theorem emptyLoop_spec (hx : ⟨dp, i, true⟩ ∈ l) :
    Triple Safe (Calm l) (emptyLoop dp stop offs) fun _ => Calm l := by
  induction offs with
  | nil => exact .pure fun _ => id
  | cons off offs ih =>
    exact .bind (readDirent_spec hx nofun) fun de => .ite (fun _ => .pure fun _ => id) fun _ => ih

theorem dirlink_spec (hx : ⟨dp, i, true⟩ ∈ l) :
    Triple Safe (Calm l) (dirlink dp name inum) fun _ => Calm l := by
  refine .bind (dirlookup_spec hx) fun r => ?_
  cases r with
  | some r => exact .exists fun i => .bind_pure iput_spec
  | none =>
    exact .read fun size => .bind (emptyLoop_spec hx) fun off =>
      .bind_pure (writeDirent_spec hx nofun)

theorem isdiremptyLoop_keeps (hP : ∀ s, P s → Locked dp s) (he : E .isdirempty) :
    Triple E P (isdiremptyLoop dp offs) fun _ => P := by
  induction offs with
  | nil => exact .pure fun _ => id
  | cons off offs ih =>
    exact .bind (readDirent_keeps hP he) fun de => .ite (fun _ => .pure fun _ => id) fun _ => ih

theorem isdirempty_keeps (hP : ∀ s, P s → Locked dp s) (he : E .isdirempty) :
    Triple E P (isdirempty dp) fun _ => P :=
  .read fun _ => isdiremptyLoop_keeps hP he

/-! ## Paths -/

theorem namexLoop_spec :
    Triple Safe (fun s => ∃ i, Calm (⟨ip, i, false⟩ :: l) s) (namexLoop c nameiparent ip path)
      (Found l) := by
  induction path generalizing ip with
  | nil =>
    refine .exists fun i => .ite (fun _ => ?_) fun _ => .pure fun s h => ⟨i, h⟩
    exact .bind_pure iput_spec
  | cons name path ih =>
    refine .exists fun i => .bind ilock_spec fun _ => .read fun d => .read fun ok => ?_
    refine .ite (fun _ => .bind_pure iunlockput_spec) fun _ =>
      .ite (fun _ => .bind_pure iunlockput_spec) fun _ =>
      .ite (fun _ => .bind iunlock_spec fun _ => .pure fun s h => ⟨i, h.unlock⟩) fun _ =>
      .bind (dirlookup_spec List.mem_cons_self) fun r => ?_
    cases r with
    | none => exact .bind_pure iunlockput_spec
    | some r =>
      exact .exists fun j => .bind (iunlockput_spec.mono (fun s h => h.perm (.swap ..))
        fun _ s h => ⟨j, h⟩) fun _ => ih

theorem namex_spec (hx : ⟨c.cwd, i, false⟩ ∈ l) :
    Triple Safe (Calm l) (namex c path nameiparent) (Found l) := by
  refine .ite (fun _ => ?_) fun _ => ?_
  · exact .bind iget_spec fun ip => namexLoop_spec.pre fun s h => ⟨_, h⟩
  · exact .bind (idup_spec hx) fun ip => namexLoop_spec.pre fun s h => ⟨_, h⟩

/-! ## `create` and `unlink` -/

/-- What changes of an inode does not say which blocks it has. -/
theorem setIno_content {f : State → Dinode} (hx : ⟨ip, i, true⟩ ∈ l)
    (hf : ∀ s, (f s).extent = (s.ino ip).extent) :
    Triple E (Content l v g) (writes fun s => s.setIno ip (f s)) fun _ => Content l v g := by
  refine .writes ?_
  rintro s ⟨⟨hb, hc⟩, hg⟩
  obtain ⟨hino, ht⟩ := hc.ino hx
  have hext : (f s).extent = v i := (hf s).trans hino
  refine ⟨⟨hb.congr rfl rfl rfl, ?_⟩, hg⟩
  have hc := hc.setIno (x := f s) hx (by rwa [← hext] at ht)
  rwa [hext, Function.update_eq_self] at hc

theorem addLinks_content {n : Int16} (hE : E .tooBig) (hx : ⟨ip, i, true⟩ ∈ l) :
    Triple E (Content l v g) (addLinks ip n) fun _ => Content l v g :=
  .bind (setIno_content hx fun _ => rfl) fun _ => iupdate_content hE hx

theorem addLinks_spec (hx : ⟨ip, i, true⟩ ∈ l) :
    Triple Safe (Calm l) (addLinks ip n) fun _ => Calm l :=
  Calm.triple fun v _ => (addLinks_content nofun hx).post fun _ _ h => ⟨v, h.1⟩

theorem initInode_spec {type : InodeType} {major minor : Int16} (hx : ⟨ip, i, true⟩ ∈ l) :
    Triple Safe (Calm l) (initInode c ip type major minor) fun _ => Calm l :=
  Calm.triple fun v _ => .bind (setIno_content hx fun _ => rfl) fun _ =>
    (iupdate_content nofun hx).post fun _ _ h => ⟨v, h.1⟩

theorem mustLink_spec (hx : ⟨dp, i, true⟩ ∈ l) (he : Safe e) :
    Triple Safe (Calm l) (mustLink dp name inum e) fun _ => Calm l :=
  .bind (dirlink_spec hx) fun _ => .ite (fun _ => .pure fun _ => id) fun _ => .panic he

theorem createNew_spec :
    Triple Safe (Calm (⟨dp, i, true⟩ :: l)) (createNew c dp name type major minor)
      fun _ => Calm l := by
  refine .read fun ok => .ite (fun _ => .bind iunlock_spec fun _ => .pure fun s h => h.forget)
    fun _ => .bind ialloc_spec fun ip => .exists fun j => .bind ilock_spec fun _ => ?_
  have hip : ⟨ip, j, true⟩ ∈ ⟨ip, j, true⟩ :: ⟨dp, i, true⟩ :: l := List.mem_cons_self
  have hdp : ⟨dp, i, true⟩ ∈ ⟨ip, j, true⟩ :: ⟨dp, i, true⟩ :: l := .tail _ List.mem_cons_self
  refine .bind (initInode_spec hip) fun _ => .read fun inum => .read fun dinum => ?_
  have hend : Triple Safe (Calm (⟨ip, j, true⟩ :: ⟨dp, i, true⟩ :: l))
      (do
        mustLink dp name inum .createDirlink
        iunlockput dp
        pure (some ip)) fun _ => Calm l :=
    .bind (mustLink_spec hdp nofun) fun _ => .bind (iunlockput_spec.pre
      (fun s h => h.perm (.swap ..))) fun _ => .pure fun s h => h.forget
  refine .ite (fun _ => ?_) fun _ => hend
  exact .bind (addLinks_spec hdp) fun _ => .bind (mustLink_spec hip nofun) fun _ =>
    .bind (mustLink_spec hip nofun) fun _ => hend

theorem createOld_spec :
    Triple Safe (Calm (⟨ip, i, false⟩ :: l)) (createOld c ip type) fun _ => Calm l := by
  refine .bind ilock_spec fun _ => .read fun st => .ite (fun _ => .read fun ok => ?_) fun _ =>
    .bind_pure iunlockput_spec
  exact .ite (fun _ => .bind iunlock_spec fun _ => .pure fun s h => h.forget)
    fun _ => .pure fun s h => h.forget

theorem create_spec (hx : ⟨c.cwd, i, false⟩ ∈ l) :
    Triple Safe (Calm l) (create c path type major minor) fun _ => Calm l := by
  refine .bind (namex_spec hx) fun r => ?_
  cases r with
  | none => exact .pure fun _ => id
  | some r =>
    refine .exists fun j => .bind ilock_spec fun _ =>
      .bind (dirlookup_spec List.mem_cons_self) fun q => ?_
    cases q with
    | none => exact createNew_spec
    | some q =>
      exact .exists fun k => .bind (iunlockput_spec.pre fun s h => h.perm (.swap ..)) fun _ =>
        createOld_spec

theorem unlinkIn_spec :
    Triple Safe (Calm (⟨dp, j, true⟩ :: l)) (unlinkIn dp name) fun _ => Calm l := by
  refine .ite (fun _ => .bind_pure iunlockput_spec) fun _ =>
    .bind (dirlookup_spec List.mem_cons_self) fun q => ?_
  cases q with
  | none => exact .bind_pure iunlockput_spec
  | some q =>
    refine .exists fun k => .bind ilock_spec fun _ => .read fun st =>
      .ite (fun _ => .panic nofun) fun _ => ?_
    have hip : ⟨q.1, k, true⟩ ∈ ⟨q.1, k, true⟩ :: ⟨dp, j, true⟩ :: l := List.mem_cons_self
    have hdp : ⟨dp, j, true⟩ ∈ ⟨q.1, k, true⟩ :: ⟨dp, j, true⟩ :: l :=
      .tail _ List.mem_cons_self
    have hput : Triple Safe (Calm (⟨q.1, k, true⟩ :: ⟨dp, j, true⟩ :: l)) (iunlockput dp)
        fun _ => Calm (⟨q.1, k, true⟩ :: l) :=
      iunlockput_spec.pre fun s h => h.perm (.swap ..)
    have hend := Triple.bind hput fun _ => .bind (addLinks_spec (n := -1) List.mem_cons_self)
      fun _ => .bind iunlockput_spec fun _ =>
      (.pure fun _ => id : Triple Safe (Calm l) (pure (0 : Int)) fun _ => Calm l)
    refine .ite (fun _ => .bind (isdirempty_keeps (fun _ => Calm.locked hip) nofun)
      fun empty => ?_) fun _ => .bind (Q := fun _ => Calm (⟨q.1, k, true⟩ :: ⟨dp, j, true⟩ :: l))
        (.pure fun _ => id) fun empty => ?_
    all_goals
      refine .ite (fun _ => .bind iunlockput_spec fun _ => .bind_pure iunlockput_spec) fun _ =>
        .bind (writeDirent_spec hdp nofun) fun _ =>
          .ite (fun _ => .bind (addLinks_spec hdp) fun _ => hend) fun _ => hend

theorem sysUnlink_spec {path : Name} (hx : ⟨c.cwd, i, false⟩ ∈ l) :
    Triple Safe (Calm l) (sysUnlink c path) fun _ => Calm l := by
  refine .bind (namex_spec hx) fun r => ?_
  cases r with
  | none => exact .pure fun _ => id
  | some r =>
    exact .exists fun j => .bind ilock_spec fun _ => .read fun ok =>
      .ite (fun _ => .bind iunlock_spec fun _ => .pure fun s h => h.forget) fun _ => unlinkIn_spec

/-! ## Operations -/

/-- An operation on an entry in use gets a reference to it. -/
theorem pin_spec (h : ∀ i, Triple Safe (Calm [⟨ip, i, false⟩]) x fun _ => Calm []) :
    Triple Safe (fun s => Calm [] s ∧ 0 < (s.icache ip).ref) x fun _ => Calm [] :=
  fun s hs => h _ s (hs.1.pin hs.2)

/-- A function is called between `ilock` and `iunlock`. -/
theorem locked_spec (h : ∀ i, Triple Safe (Calm [⟨ip, i, true⟩]) x fun _ => Calm [⟨ip, i, true⟩]) :
    Triple Safe (fun s => Calm [] s ∧ 0 < (s.icache ip).ref)
      (do
        ilock ip
        let _ ← x
        iunlock ip) fun _ => Calm [] :=
  pin_spec fun i => .bind ilock_spec fun _ => .bind (h i) fun _ =>
    iunlock_spec.post fun _ _ h => h.forget

theorem Op.call_spec (a : Op) :
    Triple Safe (fun s => Calm [] s ∧ a.Enabled s) a.call fun _ => Calm [] := by
  have hpin : ∀ {ip}, a.entry = some ip →
      Triple Safe (fun s => Calm [] s ∧ 0 < (s.icache ip).ref) a.call (fun _ => Calm []) →
      Triple Safe (fun s => Calm [] s ∧ a.Enabled s) a.call fun _ => Calm [] :=
    fun he h => h.pre fun s hs => ⟨hs.1, hs.2 _ he⟩
  cases a with
  | iget inum =>
    exact .bind (iget_spec.pre (fun s h => h.1)) fun ip =>
      .pure fun s h => h.forget
  | idup ip =>
    exact hpin rfl (pin_spec fun i => .bind (idup_spec List.mem_cons_self) fun ip =>
      .pure fun s h => h.forget.forget)
  | iput ip => exact hpin rfl (pin_spec fun i => iput_spec)
  | readi ip off n => exact hpin rfl (locked_spec fun i => readi_spec List.mem_cons_self)
  | writei ip off src hn => exact hpin rfl (locked_spec fun i => writei_spec List.mem_cons_self)
  | cleari ip => exact hpin rfl (locked_spec fun i => cleari_spec List.mem_cons_self)
  | dirlink dp name inum => exact hpin rfl (locked_spec fun i => dirlink_spec List.mem_cons_self)
  | create c path type major minor =>
    exact hpin rfl (pin_spec fun i => .bind (create_spec List.mem_cons_self) fun _ =>
      .pure fun s h => h.forget)
  | unlink c path =>
    exact hpin rfl (pin_spec fun i => .bind (sysUnlink_spec List.mem_cons_self) fun _ =>
      .pure fun s h => h.forget)

/-- Between two operations the log is empty. -/
def Idle (s : State) : Prop := Calm [] s ∧ s.logged = []

theorem Op.run_spec (a : Op) :
    Triple Safe (fun s => Idle s ∧ a.Enabled s) a.run fun _ => Idle := by
  refine .bind (a.call_spec.pre fun s h => ⟨h.1.1, h.2⟩) fun _ => .writes ?_
  rintro s ⟨v, hb, hc⟩
  exact ⟨⟨v, hb.congr rfl rfl rfl, hc.congr rfl rfl⟩, rfl⟩

end Xv6.Disk
