import Xv6.Fs.LinkSpec
import Xv6.Fs.Refs

/-! # The calls on files and the link counts

A system call changes entries and counts apart, and sets them right before it returns. That fails
in one place: a directory that has been removed stays usable as a current directory, and an entry
made in it is counted in the file it is for, although nothing leads to the directory. `Attached` is
the condition under which a call makes no such entry. -/

namespace Xv6.Fs

open Function Prog Thread LinkTree

variable {s : State} {ip : Ip} {p : Slot} {x : Inode} {path old new : Name} {l : List (Ip × Nat)}
variable {tops : Set Nat}
  {omode : UInt32}

/-! ## The condition -/

/-- An entry for the name is there, or the directory has not been removed. -/
def InTree (r : Option (Ip × Name)) (s : State) : Prop :=
  ∀ x ∈ r, (s.ino x.1).lookup x.2 = none → (s.ino x.1).nlink ≠ 0

instance {r : Option (Ip × Name)} : Decidable (InTree r s) :=
  inferInstanceAs (Decidable (∀ x ∈ r, _))

/-- `create` makes no entry in a removed directory. -/
def CreateInTree (p : Slot) (path : Name) : State → Prop := wlp (nameiparent p path) InTree

instance : Decidable (CreateInTree p path s) := inferInstanceAs (Decidable (wlp _ _ s))

/-- `sys_link` up to the directory of the new entry. -/
def linkParent (p : Slot) (old new : Name) : Kernel (Option (Ip × Name)) := do
  match ← namei p old with
  | none => pure none
  | some ip =>
    ilock ip
    let st ← reads fun s => s.ino ip
    if st.type = some .T_DIR then do
      iunlockput ip
      pure none
    else do
      addLinks ip 1
      iunlock ip
      nameiparent p new

/-- `sys_link` makes no entry in a removed directory. -/
def LinkInTree (p : Slot) (old new : Name) : State → Prop := wlp (linkParent p old new) InTree

instance : Decidable (LinkInTree p old new s) := inferInstanceAs (Decidable (wlp _ _ s))

/-- The call makes no entry in a directory that has been removed. -/
def Attached (s : State) : Slot × Call → Prop
  | (p, .sysOpen path omode) => omode &&& O_CREATE ≠ 0 → CreateInTree p path s
  | (p, .sysMkdir path) => CreateInTree p path s
  | (p, .sysMknod path) => CreateInTree p path s
  | (p, .sysLink old new) => LinkInTree p old new s
  | _ => True

instance : ∀ a, Decidable (Attached s a)
  | (p, .sysOpen path omode) =>
    inferInstanceAs (Decidable (omode &&& O_CREATE ≠ 0 → CreateInTree p path s))
  | (p, .sysMkdir path) => inferInstanceAs (Decidable (CreateInTree p path s))
  | (p, .sysMknod path) => inferInstanceAs (Decidable (CreateInTree p path s))
  | (p, .sysLink old new) => inferInstanceAs (Decidable (LinkInTree p old new s))
  | (_, .sysClose _) | (_, .sysDup _) | (_, .sysUnlink _) | (_, .sysChdir _) | (_, .sysChmod ..)
  | (_, .sysAddUser ..) | (_, .sysDeleteUser _) | (_, .sysFork ..) | (_, .sysThreadCreate ..)
  | (_, .sysThreadExit _) | (_, .sysExec ..) | (_, .sysExit) => isTrue trivial

/-! ## What holds between calls -/

theorem Tree.frees {extra : Option Nat} : Frees (Tree tops extra) :=
  fun _ _ h hn => h.release hn rfl

/-- The link counts are right and have not come to the end of their range. -/
def Roomy (tops : Set Nat) (inode : Nat → Inode) : Prop :=
  Tree tops none inode ∧ entryCount inode < 2 ^ 15 - 1

theorem Roomy.frees : Frees (Roomy tops) := fun _ _ h hn =>
  ⟨Tree.frees _ _ h.1 hn, (entryCount_update_le (Nat.zero_le _)).trans_lt h.2⟩

theorem Roomy.nlink_lt (h : Roomy tops v) (hi : (v i).type ≠ none) :
    (v i).nlink.toInt < 2 ^ 15 - 1 := by
  have hle := h.1.links_le (i := i)
  have hlt := h.2
  rw [h.1.nlink_eq hi, if_neg nofun]
  omega

/-- A call has returned, and may have kept references that it should have dropped. -/
def Leaves (tops : Set Nat) (t : Ptable) (r : Option Ip) (s : State) : Prop :=
  ∃ l, Gives t l (Tree tops none) r s

theorem Sane.leaves (h : Sane t l (Roomy tops) s) : Leaves tops t none s :=
  ⟨l, h.weaken fun _ => And.left⟩

theorem leaves_of_sane (h : Sane t l (Tree tops none) s) : Leaves tops t none s := ⟨l, h⟩

theorem Held.leaves (h : Held l (Tree tops none) t [] s) : Leaves tops t none s := ⟨l, h.sane⟩

/-- `InTree`, for a directory whose number is known. -/
def Enters (d : Nat) (name : Name) (v : Nat → Inode) : Prop :=
  (v d).lookup name = none → (v d).nlink ≠ 0

theorem InTree.enters {r : Ip × Name} (hin : InTree (some r) s) (h : Gives t l T (some r.1) s) :
    ∃ d, Sane t ((r.1, d) :: l) (fun v => T v ∧ Enters d r.2 v) s := by
  obtain ⟨d, h⟩ := h
  have hin := hin r rfl
  rw [h.ino_eq (.head _)] at hin
  exact ⟨d, h.counted, h.pinned, ⟨h.good.inodes, hin⟩, h.good.uniq, h.good.valid⟩

/-! ## Two inodes of a call -/

/-- The inodes `i` and `d` have changed. -/
def both (v : Nat → Inode) (i : Nat) (x : Inode) (d : Nat) (y : Inode) : Nat → Inode :=
  update (update v i x) d y

theorem both_self (h : i ≠ d) : both v i x d (v d) = update v i x := by
  refine update_eq_self_iff.mpr ?_
  rw [update_of_ne h.symm]

namespace Sane

theorem ino_fst (h : Sane t l (· = both v i x d y) s) (hip : (ip, i) ∈ l) (hne : i ≠ d) :
    s.ino ip = x := by
  rw [h.ino_eq hip, h.good.inodes, both, update_of_ne hne, update_self]

theorem ino_snd (h : Sane t l (· = both v i x d y) s) (hdp : (dp, d) ∈ l) : s.ino dp = y := by
  rw [h.ino_eq hdp, h.good.inodes, both, update_self]

theorem setFst {x' : Inode} (h : Sane t l (· = both v i x d y) s) (hip : (ip, i) ∈ l) (hne : i ≠ d)
    (hx : x'.type ≠ none) : Sane t l (· = both v i x' d y) (s.setIno ip x') := by
  refine h.setIno hip ?_ hx
  rw [h.good.inodes, both, both, update_comm hne.symm, update_idem]

theorem setSnd {y' : Inode} (h : Sane t l (· = both v i x d y) s) (hdp : (dp, d) ∈ l)
    (hy : y'.type ≠ none) : Sane t l (· = both v i x d y') (s.setIno dp y') := by
  refine h.setIno hdp ?_ hy
  rw [h.good.inodes, both, both, update_idem]

/-- The number of an inode that is held is known. -/
theorem inum_bind {α : Type} {k : Nat → Kernel α} {R : α → State → Prop} (hip : (ip, i) ∈ l)
    (h : Triple (Sane t l T) (k i) R) :
    Triple (Sane t l T) (reads (fun s => (s.icache ip).inum) >>= k) R := by
  refine .reads_bind fun n => ?_
  rintro s a s' ⟨hs, rfl⟩ hrun
  rw [hs.pinned _ hip] at hrun
  exact h s a s' hs hrun

end Sane

/-- An entry is made in the first one. -/
theorem mustLink_fst {inum : Nat} (hip : (ip, i) ∈ l) (hne : i ≠ d) :
    Triple (Sane t l (· = both v i x d y)) (mustLink ip name inum) fun _ => Sane t l
      (· = both v i { x with entries := addEntry x.entries ⟨inum, name.take DIRSIZ⟩ } d y) := by
  intro s u s' h hrun
  obtain ⟨hdir, -, rfl⟩ := dirlink_eq_true (mustLink_eq_some hrun)
  rw [h.ino_fst hip hne] at hdir ⊢
  exact h.setFst hip hne (by simp [hdir])

theorem mustLink_snd {inum : Nat} (hdp : (dp, d) ∈ l) :
    Triple (Sane t l (· = both v i x d y)) (mustLink dp name inum) fun _ => Sane t l
      (· = both v i x d { y with entries := addEntry y.entries ⟨inum, name.take DIRSIZ⟩ }) := by
  intro s u s' h hrun
  obtain ⟨hdir, -, rfl⟩ := dirlink_eq_true (mustLink_eq_some hrun)
  rw [h.ino_snd hdp] at hdir ⊢
  exact h.setSnd hdp (by simp [hdir])

theorem addLinks_fst {n : Int16} (hip : (ip, i) ∈ l) (hne : i ≠ d) (hx : x.type ≠ none) :
    Triple (Sane t l (· = both v i x d y)) (addLinks ip n) fun _ => Sane t l
      (· = both v i { x with nlink := x.nlink + n } d y) := by
  refine .writes fun s h => ?_
  rw [h.ino_fst hip hne]
  exact h.setFst hip hne hx

theorem addLinks_snd {n : Int16} (hdp : (dp, d) ∈ l) (hy : y.type ≠ none) :
    Triple (Sane t l (· = both v i x d y)) (addLinks dp n) fun _ => Sane t l
      (· = both v i x d { y with nlink := y.nlink + n }) := by
  refine .writes fun s h => ?_
  rw [h.ino_snd hdp]
  exact h.setSnd hdp hy

/-! ## Creation -/

/-- A file is made and entered in the directory. -/
theorem Tree.create (h : Tree tops none v) (hd : (v d).type = some .T_DIR) (hn : (v d).nlink ≠ 0)
    (hl : (v d).lookup name = none) (hi : i ∈ inums) (hf : (v i).type = none)
    (hx : x.type ≠ none ∧ x.type ≠ some .T_DIR) (hx1 : x.nlink = 1) :
    Tree tops none (both v i x d { v d with
      entries := addEntry (v d).entries ⟨i, name.take DIRSIZ⟩ }) := by
  have hne : d ≠ i := by
    rintro rfl
    rw [hd] at hf
    cases hf
  have hd' : update v i x d = v d := update_of_ne hne ..
  have h₁ : Tree tops (some i) (update v i x) := by
    refine h.setFile hi (by rw [hf]; nofun) hx ?_ fun j hj => ?_
    · rw [h.linked.free i (Inode.node_kind_eq_free.mpr hf), if_pos rfl, hx1]
      rfl
    · simp [Ne.symm hj]
  have hlook : (update v i x d).lookup name = none := by rwa [hd']
  refine h₁.enter (by rwa [hd']) (by rwa [hd']) hlook hd ?_ ?_
  · rw [hd']
  · rw [hd']

theorem createNew_sane : Triple (Sane t ((dp, d) :: l)
    fun v => (Roomy tops v ∧ Enters d name v) ∧ Missing d name v)
    (createNew dp name type) (Leaves tops t) := by
  refine .pre (P := fun s => ∃ v, (Roomy tops v ∧ (v d).nlink ≠ 0 ∧ Missing d name v) ∧
    Sane t ((dp, d) :: l) (· = v) s) (.exists fun v => .of_and ?_) (fun s h => ?_)
  swap
  · obtain ⟨⟨hr, hn⟩, hm⟩ := h.good.inodes
    exact ⟨s.inode, ⟨hr, hn hm.lookup, hm⟩, h.exact⟩
  rintro ⟨⟨hv, hmax⟩, hn, hdir, hl⟩
  refine .read fun ok => .ite (fun _ => ?_) fun _ => ?_
  · refine .bind iunlock_keeps fun _ => .pure fun s h => ⟨_, h.weaken ?_⟩
    rintro _ rfl
    exact hv
  refine .bind ialloc_sane fun ip => .exists fun i => .of_and ?_
  rintro ⟨hi, hf⟩
  have hne : i ≠ d := by
    rintro rfl
    rw [hdir] at hf
    cases hf
  refine .bind ilock_sane fun _ => .bind (Q := fun _ s => ∃ x : Inode,
    (x.type = some type ∧ x.nlink = 1 ∧ x.entries = []) ∧
      Sane t ((ip, i) :: (dp, d) :: l) (· = both v i x d (v d)) s) (.writes fun s h => ?_) fun _ =>
    .exists fun x => .of_and ?_
  · have hino : s.ino ip = ⟨some type, 0, 0, [], []⟩ := by
      rw [h.ino_eq (.head _), h.good.inodes, update_self]
    rw [← both_self hne] at h
    refine ⟨_, ⟨?_, rfl, ?_⟩, h.setFst (.head _) hne ?_⟩ <;> simp [hino]
  rintro ⟨hxt, hxn, hxe⟩
  have hdp : (dp, d) ∈ (ip, i) :: (dp, d) :: l := .tail _ (.head _)
  refine Sane.inum_bind (.head _) (Sane.inum_bind hdp ?_)
  have hrest : ∀ {x y : Inode}, Tree tops none (both v i x d y) → Triple
      (Sane t ((ip, i) :: (dp, d) :: l) (· = both v i x d y))
      (do iunlockput dp; pure (some ip) : Kernel (Option Ip)) (Leaves tops t) := by
    intro x y hy
    refine .pre (P := Sane t ((ip, i) :: (dp, d) :: l) (Tree tops none)) ?_
      (fun s h => h.weaken fun _ e => e ▸ hy)
    exact .bind (iunlockput_sane_second Tree.frees) fun _ => .pure fun s h => ⟨l, i, h⟩
  refine .ite (fun htype => ?_) fun htype => .bind (mustLink_snd hdp) fun _ => hrest ?_
  · refine .bind (addLinks_snd hdp (by simp [hdir])) fun _ => ?_
    refine .bind (mustLink_fst (.head _) hne) fun _ =>
      .bind (mustLink_fst (.head _) hne) fun _ => ?_
    refine .bind (mustLink_snd hdp) fun _ => hrest (hv.mkdir hdir hn ?_ hl hi hf ⟨?_, hxn, ?_⟩
      ⟨hdir, rfl, rfl⟩)
    · exact Roomy.nlink_lt ⟨hv, hmax⟩ (by simp [hdir])
    · rw [hxt, htype]
    · have hi0 : i ≠ 0 := by
        have := (Finset.mem_Ico.mp hi).1
        omega
      simp [hxe, addEntry, hi0, dot, dotdot, DIRSIZ]
  · exact hv.create hdir hn hl hi hf ⟨by simp [hxt], by rw [hxt]; simpa using htype⟩ hxn

/-- `create` when the name stands for an inode. -/
theorem createOld_sane :
    Triple (Sane t ((ip, i) :: l) (Tree tops none)) (createOld ip type) (Leaves tops t) := by
  refine .bind ilock_sane fun _ => .read fun st => .read fun cnt => .ite (fun _ => ?_) fun _ => ?_
  · refine .read fun ok => .ite (fun _ => ?_) fun _ => .pure fun s h => ⟨l, i, h⟩
    exact .bind iunlock_keeps fun _ => .pure fun s h => ⟨_, h⟩
  · exact .bind (iunlockput_sane Tree.frees) fun _ => .pure fun s h => ⟨l, h⟩

theorem create_sane : Triple (fun s => Sane t l (Roomy tops) s ∧ CreateInTree p path s)
    (create p path type) (Leaves tops t) := by
  refine .bind ((nameiparent_sane Roomy.frees).and .of_wlp) fun r => ?_
  rcases r with _ | ⟨dp, name⟩
  · exact .pure fun s h => Sane.leaves h.1
  refine .pre (P := fun s => ∃ d, Sane t ((dp, d) :: l) (fun v => Roomy tops v ∧ Enters d name v) s)
    (.exists fun d => ?_) (fun s h => h.2.enters h.1)
  refine .bind ilock_sane fun _ => .bind (dirlookup_looked (.head _)) fun r => ?_
  rcases r with _ | ⟨ip, off⟩
  · exact createNew_sane
  · refine .exists fun de => .pre (P := Sane t ((ip, de.inum) :: (dp, d) :: l) (Tree tops none)) ?_
      (fun s h => h.weaken fun _ h => h.1.1.1)
    exact .bind (iunlockput_sane_second Tree.frees) fun _ => createOld_sane

/-- `mkdir` and `sys_mknod`. -/
theorem create_put_sane : Triple (fun s => Sane t l (Roomy tops) s ∧ CreateInTree p path s) (do
      match ← create p path type with
      | none => pure (-1)
      | some ip =>
        iunlockput ip
        pure 0 : Kernel Int) fun _ => Leaves tops t none := by
  refine .bind create_sane fun r => .exists fun l => ?_
  cases r with
  | none => exact .pure fun s h => ⟨l, h⟩
  | some ip =>
    exact .exists fun i => .bind (iunlockput_sane Tree.frees) fun _ => .pure fun s h => ⟨l, h⟩

/-! ## `open` -/

theorem openChecked_sane : Triple (Sane t ((ip, i) :: l) (Tree tops none)) (openChecked p ip omode)
    fun _ => Leaves tops t none := by
  have hkeep : Triple (Sane t ((ip, i) :: l) (Tree tops none))
      (do iunlock ip; pure (-1) : Kernel Int) fun _ => Leaves tops t none :=
    .bind iunlock_keeps fun _ => .pure fun s h => ⟨_, h⟩
  refine .read fun r => .read fun w => .ite (fun _ => hkeep) fun _ => .ite (fun _ => hkeep) ?_
  exact fun _ => (openAlloc_ledger (.held Tree.frees)).mono (fun _ => Sane.held_cons)
    fun _ _ => Held.leaves

theorem sysOpen_sane : Triple (fun s => Sane t l (Roomy tops) s ∧
    (omode &&& O_CREATE ≠ 0 → CreateInTree p path s)) (sysOpen p path omode)
    fun _ => Leaves tops t none := by
  refine .ite (fun hc => ?_) fun _ => ?_
  · refine .bind (create_sane.pre (fun s h => ⟨h.1, h.2 hc⟩)) fun r =>
      .exists fun l => ?_
    cases r with
    | none => exact .pure fun s h => ⟨l, h⟩
    | some ip => exact .exists fun i => openChecked_sane
  · refine .bind ((namei_sane Tree.frees).pre (fun s h => h.1.weaken fun _ => And.left)) fun r => ?_
    cases r with
    | none => exact .pure fun s h => ⟨l, h⟩
    | some ip =>
      refine .exists fun i => .bind ilock_sane fun _ => .read fun st => .ite (fun _ => ?_) fun _ =>
        openChecked_sane
      exact .bind (iunlockput_sane Tree.frees) fun _ => .pure fun s h => ⟨l, h⟩

/-! ## `link` -/

/-- The count of a file that is one ahead is taken back. -/
theorem Tree.unlinkFile (h : Tree tops (some i) v) (hx : x.type = (v i).type)
    (hn : x.nlink = (v i).nlink + -1) : Tree tops none (update v i x) := by
  have hk := Inode.node_kind_eq_file.mp (h.linked.extra i rfl)
  have hnlink := h.nlink_eq hk.1
  rw [if_pos rfl] at hnlink
  have hpos := links_nonneg (S := inums) (v := Inode.node ∘ v) (i := i)
  refine h.setFile (h.linked.inside i fun e => hk.1 (Inode.node_kind_eq_free.mp e)) hk.2
    (by rwa [hx]) ?_ fun j hj => ?_
  · rw [hn, toInt_sub_one (by omega), hnlink, if_neg nofun]
    omega
  · simp [Ne.symm hj]

theorem unlinkFile_sane : Triple (Sane t ((ip, i) :: l) (Tree tops (some i))) (do
      addLinks ip (-1)
      iunlockput ip : Kernel Unit) fun _ => Sane t l (Tree tops none) := by
  refine .bind (Q := fun _ => Sane t ((ip, i) :: l) (Tree tops none)) (.writes fun s h => ?_)
    fun _ => iunlockput_sane Tree.frees
  rw [h.ino_eq (.head _)]
  have hk := Inode.node_kind_eq_file.mp (h.good.inodes.linked.extra i rfl)
  exact h.setIno (.head _) (h.good.inodes.unlinkFile rfl rfl) hk.1

theorem linkBad_sane :
    Triple (Sane t ((ip, i) :: l) (Tree tops (some i))) (linkBad ip)
      fun _ => Sane t l (Tree tops none) := by
  refine .bind ilock_sane fun _ s r s' h hrun => ?_
  simp only [bind_eq_some, pure_eq_some] at hrun
  obtain ⟨_, s₁, ha, _, s₂, hu, rfl, rfl⟩ := hrun
  exact unlinkFile_sane _ _ _ h (bind_eq_some.mpr ⟨_, _, ha, hu⟩)

/-- An entry for the file whose count is one ahead is made, or there is one with the name. -/
theorem dirlink_sane :
    Triple (Sane t ((dp, d) :: l) fun v => Tree tops (some i) v ∧ Enters d name v)
      (dirlink dp name i) fun ok =>
        Sane t ((dp, d) :: l) (Tree tops (if ok then none else some i)) := by
  refine .bind (dirlookup_looked (.head _)) fun r => ?_
  rcases r with _ | ⟨ip, off⟩
  · refine .bind_pure (.writes fun s h => ?_)
    obtain ⟨⟨hv, hin⟩, hdir, hl⟩ := h.good.inodes
    rw [h.ino_eq (.head _)]
    exact h.setIno (.head _) (hv.enter hdir (hin hl) hl hdir rfl rfl) (by simp [hdir])
  · refine .exists fun de => .bind_pure ?_
    exact (iput_sane Tree.frees).pre fun s h => h.weaken fun _ h => h.1.1

/-- The count of a file goes one ahead. -/
theorem Roomy.linkFile (h : Roomy tops v) (hi : (v i).type ≠ none) (hd : (v i).type ≠ some .T_DIR)
    (hx : x.type = (v i).type) (hn : x.nlink = (v i).nlink + 1) :
    Tree tops (some i) (update v i x) := by
  refine h.1.setFile (h.1.linked.inside i fun e => hi (Inode.node_kind_eq_free.mp e)) hd
    (by rw [hx]; exact ⟨hi, hd⟩) ?_ fun j hj => ?_
  · rw [hn, toInt_add_one (h.nlink_lt hi), h.1.nlink_eq hi, if_neg nofun, if_pos rfl]
    omega
  · simp [Ne.symm hj]

theorem linkFile_sane : Triple (fun s => Sane t ((ip, i) :: l) (Roomy tops) s ∧
    (s.ino ip).type ≠ none ∧ (s.ino ip).type ≠ some .T_DIR) (addLinks ip 1)
    fun _ => Sane t ((ip, i) :: l) (Tree tops (some i)) := by
  refine .writes ?_
  rintro s ⟨h, htype, hdir⟩
  rw [h.ino_eq (.head _)] at htype hdir ⊢
  exact h.setIno (.head _) (h.good.inodes.linkFile htype hdir rfl rfl) htype

/-- `sys_link` from the lookup of the new entry on. -/
theorem linkEntry_sane {r : Option (Ip × Name)} :
    Triple (fun s =>
      Gives t ((ip, i) :: l) (Tree tops (some i)) (r.map Prod.fst) s ∧ InTree r s) (do
      match r with
      | none => linkBad ip
      | some (dp, name) =>
        ilock dp
        let inum ← reads fun s => (s.icache ip).inum
        if ← dirlink dp name inum then
          iunlockput dp
          iput ip
          pure 0
        else
          iunlockput dp
          linkBad ip) fun _ => Sane t l (Tree tops none) := by
  rcases r with _ | ⟨dp, name⟩
  · exact linkBad_sane.pre fun s h => h.1
  refine .pre (P := fun s => ∃ d, Sane t ((dp, d) :: (ip, i) :: l)
    (fun v => Tree tops (some i) v ∧ Enters d name v) s) (.exists fun d => ?_)
    (fun s h => h.2.enters h.1)
  refine .bind ilock_sane fun _ => Sane.inum_bind (.tail _ (.head _)) ?_
  refine .bind dirlink_sane fun ok => .ite (fun hok => ?_) fun hok => ?_
  · subst hok
    exact .bind (iunlockput_sane Tree.frees) fun _ => .bind_pure (iput_sane Tree.frees)
  · rw [if_neg hok]
    exact .bind (iunlockput_sane Tree.frees) fun _ => linkBad_sane

theorem sysLink_sane : Triple (fun s => Sane t l (Roomy tops) s ∧ LinkInTree p old new s)
    (sysLink p old new) fun _ => Leaves tops t none := by
  rintro s r s' ⟨h, hg⟩ hrun
  simp only [sysLink, bind_eq_some] at hrun
  obtain ⟨r₁, s₁, hold, hrun⟩ := hrun
  have h₁ := namei_sane Roomy.frees _ _ _ h hold
  cases r₁ with
  | none =>
    obtain ⟨-, rfl⟩ := pure_eq_some.mp hrun
    exact Sane.leaves h₁
  | some ip =>
    obtain ⟨i, h₁⟩ := h₁
    simp only [bind_eq_some, reads_eq_some] at hrun
    obtain ⟨_, s₂, hlock, _, _, ⟨rfl, rfl⟩, hrun⟩ := hrun
    have h₂ := ilock_sane _ _ _ h₁ hlock
    have htype := ilock_type _ _ _ h₁ hlock
    split at hrun
    · simp only [bind_eq_some, pure_eq_some] at hrun
      obtain ⟨_, _, hput, -, rfl⟩ := hrun
      exact (iunlockput_sane Roomy.frees _ _ _ h₂ hput).leaves
    · next hdir =>
      simp only [bind_eq_some] at hrun
      obtain ⟨_, s₃, hadd, _, s₄, hunlock, r₂, s₅, hnew, hrun⟩ := hrun
      have hin : InTree r₂ s₅ := by
        refine hg (r₂, s₅) ?_
        refine bind_eq_some.mpr ⟨_, _, hold, bind_eq_some.mpr ⟨_, _, hlock, ?_⟩⟩
        rw [reads_bind, if_neg hdir]
        exact bind_eq_some.mpr ⟨_, _, hadd, bind_eq_some.mpr ⟨_, _, hunlock, hnew⟩⟩
      have h₃ := linkFile_sane _ _ _ ⟨h₂, htype, hdir⟩ hadd
      have h₅ := nameiparent_sane Tree.frees _ _ _ (iunlock_keeps _ _ _ h₃ hunlock) hnew
      exact leaves_of_sane (linkEntry_sane _ _ _ ⟨h₅, hin⟩ hrun)

/-! ## `unlink` -/

/-- `sys_unlink` once it has found the entry. -/
theorem unlinkEntry_sane {off : Nat} {de : Dirent} {st : Inode} (hname : namecmp name dot ≠ 0)
    (hname' : namecmp name dotdot ≠ 0) (hempty : st.type = some .T_DIR → st.isdirempty = true) :
    Triple (fun s => Sane t ((ip, de.inum) :: (dp, d) :: l)
        (fun v => Tree tops none v ∧ Found d name off de v) s ∧ s.ino ip = st) (do
      writes fun s => s.setIno dp { s.ino dp with
        entries := (s.ino dp).entries.set off ⟨0, []⟩ }
      if st.type = some .T_DIR then addLinks dp (-1) else pure ()
      iunlockput dp
      addLinks ip (-1)
      iunlockput ip
      pure 0 : Kernel Int) fun _ => Sane t l (Tree tops none) := by
  refine .pre (P := fun s => ∃ v, (Tree tops none v ∧ Found d name off de v ∧ v de.inum = st) ∧
    Sane t ((ip, de.inum) :: (dp, d) :: l) (· = v) s) (.exists fun v => .of_and ?_) (fun s h => ?_)
  swap
  · obtain ⟨hv, hf⟩ := h.1.good.inodes
    exact ⟨s.inode, ⟨hv, hf, (h.1.ino_eq (.head _)).symm.trans h.2⟩, h.1.exact⟩
  rintro ⟨hv, ⟨hdir, hl, hde, hi⟩, rfl⟩
  have ho : 2 ≤ off := (hv.dots d hdir).lookup_ge hl hname hname'
  have hdp : (dp, d) ∈ (ip, de.inum) :: (dp, d) :: l := .tail _ (.head _)
  by_cases hk : (v de.inum).type = some .T_DIR
  · have hne : d ≠ de.inum := by
      intro e
      have hempty := hempty hk
      rw [Inode.isdirempty, List.all_eq_true] at hempty
      have hmem : de ∈ (v de.inum).entries.drop 2 := by
        obtain ⟨k, rfl⟩ := Nat.exists_eq_add_of_le ho
        rw [← e]
        exact List.mem_iff_getElem?.mpr ⟨k, by rwa [List.getElem?_drop]⟩
      exact hi (of_decide_eq_true (hempty de hmem))
    have hself : both v d (v d) de.inum (v de.inum) = v := by
      rw [both_self hne, update_eq_self]
    obtain ⟨y, hy⟩ : ∃ y, y = { v d with entries := (v d).entries.set off ⟨0, []⟩ } := ⟨_, rfl⟩
    have hyt : y.type = some .T_DIR := by rw [hy, ← hdir]
    obtain ⟨hv', hy0⟩ := hv.rmdir (y := { y with nlink := y.nlink + -1 })
      (x := { v de.inum with nlink := (v de.inum).nlink + -1 }) hdir ho hde hi hk (hempty hk)
      ⟨hyt, by rw [hy], by rw [hy]⟩ ⟨hk, rfl, rfl⟩
    rw [if_pos hk]
    refine .bind (Q := fun _ => Sane t ((ip, de.inum) :: (dp, d) :: l)
      (· = both v d y de.inum (v de.inum))) (.writes fun s h => ?_) fun _ => ?_
    · have h' : Sane t ((ip, de.inum) :: (dp, d) :: l)
          (· = both v d (v d) de.inum (v de.inum)) s := by rwa [hself]
      rw [h'.ino_fst hdp hne, ← hy]
      exact h'.setFst hdp hne (by simp [hyt])
    refine .bind (addLinks_fst hdp hne (by simp [hyt])) fun _ => ?_
    -- the directory has another link, so it is not freed
    refine .bind (Q := fun _ => Sane t ((ip, de.inum) :: l)
      (· = both v d { y with nlink := y.nlink + -1 } de.inum (v de.inum))) ?_ fun _ => ?_
    · intro s u s' h hrun
      refine (h.perm (.swap ..)).put (fun hn => absurd hn ?_) (iunlockput_eq_some hrun)
      rwa [h.ino_fst hdp hne]
    · refine .bind (addLinks_snd (.head _) (by simp [hk])) fun _ => ?_
      refine .bind_pure ((iunlockput_sane Tree.frees).pre (fun s h => h.weaken ?_))
      rintro _ rfl
      exact hv'
  · rw [if_neg hk]
    refine .bind (Q := fun _ => Sane t ((ip, de.inum) :: (dp, d) :: l) (Tree tops (some de.inum)))
      (.writes fun s h => ?_) fun _ => .bind (iunlockput_sane_second Tree.frees) fun _ => ?_
    · rw [h.ino_eq hdp, h.good.inodes]
      refine h.setIno hdp ?_ (by simp [hdir])
      rw [h.good.inodes]
      exact hv.leave hdir ho hde hi hk hdir rfl rfl
    · intro s r s' h hrun
      simp only [bind_eq_some, pure_eq_some] at hrun
      obtain ⟨_, s₁, ha, _, s₂, hu, rfl, rfl⟩ := hrun
      exact unlinkFile_sane _ _ _ h (bind_eq_some.mpr ⟨_, _, ha, hu⟩)

theorem sysUnlink_sane :
    Triple (Sane t l (Roomy tops)) (sysUnlink p path) fun _ => Leaves tops t none := by
  refine .pre (P := Sane t l (Tree tops none)) ?_ (fun s h => h.weaken fun _ => And.left)
  refine .bind (nameiparent_sane Tree.frees) fun r => ?_
  rcases r with _ | ⟨dp, name⟩
  · exact .pure fun s h => ⟨l, h⟩
  refine .exists fun d => .bind ilock_sane fun _ => .read fun ok => .ite (fun _ => ?_) fun _ => ?_
  · exact .bind iunlock_keeps fun _ => .pure fun s h => ⟨_, h⟩
  have hput : Triple (Sane t ((dp, d) :: l) (Tree tops none))
      (do iunlockput dp; pure (-1) : Kernel Int) fun _ => Leaves tops t none :=
    .bind (iunlockput_sane Tree.frees) fun _ => .pure fun s h => ⟨l, h⟩
  refine .ite (fun _ => hput) fun hname => .bind (dirlookup_looked (.head _)) fun r => ?_
  rw [not_or] at hname
  rcases r with _ | ⟨ip, off⟩
  · exact hput.pre fun s h => h.weaken fun _ => And.left
  refine .exists fun de => .bind ilock_sane fun _ => .reads_bind fun st => .ite (fun _ => .stop)
    fun _ => .ite (fun _ => ?_) fun hempty => ?_
  · refine .bind ((iunlockput_sane Tree.frees).pre fun s h => h.1.weaken fun _ => And.left)
      fun _ => hput
  · refine (unlinkEntry_sane hname.1 hname.2 fun hk => ?_).post fun _ s h => ⟨l, h⟩
    by_contra he
    exact hempty ⟨hk, by simpa using he⟩

/-! ## Current directories -/

theorem sysChdir_sane (hl : Live (t.proc p).state) :
    Triple (Sane t l (Tree tops none)) (sysChdir p path) fun _ => Leaves tops t none := by
  refine .bind (namei_sane Tree.frees) fun r => ?_
  cases r with
  | none => exact .pure fun s h => ⟨l, h⟩
  | some ip =>
    refine .exists fun i => .bind ilock_sane fun _ => .read fun st => .ite (fun _ => ?_) fun _ => ?_
    · exact .bind (iunlockput_sane Tree.frees) fun _ => .pure fun s h => ⟨l, h⟩
    refine .read fun ok => .ite (fun _ => ?_) fun _ => .bind iunlock_keeps fun _ => ?_
    · exact .bind iunlock_keeps fun _ => .pure fun s h => ⟨_, h⟩
    refine .bind ((putCwd_ledger (.held Tree.frees) (v := some ip) fun _ => hl).pre
      fun _ => Sane.held_cons) fun _ => ?_
    exact .bind (Q := fun _ => Held l (Tree tops none) t []) (.writes fun _ => id) fun _ =>
      .pure fun s => Held.leaves

end Xv6.Fs
