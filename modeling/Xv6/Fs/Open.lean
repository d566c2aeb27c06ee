import Xv6.Fs.Spec

/-! # What `open` lets a process do

`open` decodes `omode` once for its permission tests and once for the file it makes. The two agree
on writing. On reading they differ for a mode that is not `O_RDONLY` and has neither `O_WRONLY` nor
`O_RDWR`: no permission is tested, and the file is readable. -/

namespace Xv6.Fs

open Prog Thread

variable {s s' t : State} {p : Slot} {ip dp : Ip} {path name : Name} {omode : UInt32}

def State.fileOf (s : State) (p : Slot) (fd : Int) : Option (Fin NFILE) :=
  if h : fd.toNat < NOFILE then s.ofile p ⟨fd.toNat, h⟩ else none

/-- If `open` gives a descriptor for a file that is not a device, its file is readable and writable
only as far as `checkmod` grants it to the current user. -/
def OpenSound (p : Slot) (path : Name) (omode : UInt32) (s : State) : Prop :=
  ∀ fd s', sysOpen p path omode s = some (fd, s') → 0 ≤ fd →
    ∀ f ip, s'.fileOf p fd = some f → (s'.file f).type = .FD_INODE ip →
      (s'.ino ip).type ≠ some .T_DEV →
      ((s'.file f).readable = true → s'.Grants (s'.ino ip) R_OK) ∧
      ((s'.file f).writable = true → s'.Grants (s'.ino ip) W_OK)

/-- The file at a path, looked up and locked in the way of `open`, if there is one. -/
def target (p : Slot) (path : Name) (omode : UInt32) : Kernel (Option Ip) := do
  if omode &&& O_CREATE ≠ 0 then
    match ← nameiparent p path with
    | none => pure none
    | some (dp, name) =>
      ilock dp
      match ← dirlookup dp name with
      | none => pure none
      | some (ip, _) =>
        iunlockput dp
        ilock ip
        pure (some ip)
  else
    match ← namei p path with
    | none => pure none
    | some ip =>
      ilock ip
      pure (some ip)

/-- Nothing but a missing permission keeps `open` from giving a descriptor for the inode. -/
structure Available (p : Slot) (omode : UInt32) (ip : Ip) (s : State) : Prop where
  not_dir : (s.ino ip).type ≠ some .T_DIR
  create : omode &&& O_CREATE ≠ 0 →
    (s.ino ip).type = some .T_FILE ∧ (0 < s.ltable.userCnt → s.Grants (s.ino ip) W_OK)
  file : ∃ f, (s.file f).ref = 0
  fd : ∃ fd, s.ofile p fd = none

/-- The permission to read is tested, or the file at the path is readable. -/
def ReadTested (p : Slot) (path : Name) (omode : UInt32) (s : State) : Prop :=
  omode = O_RDONLY ∨ omode &&& (O_WRONLY ||| O_RDWR) ≠ 0 ∨
    ∀ ip t, target p path omode s = some (some ip, t) → (t.ino ip).type ≠ some .T_DEV →
      Available p omode ip t → t.Grants (t.ino ip) R_OK

/-! ## The new file -/

/-- A descriptor for `ip` as `open` makes it. -/
structure Opened (p : Slot) (ip : Ip) (omode : UInt32) (s s' : State) (fd : Int) : Prop where
  free_file : ∃ f, (s.file f).ref = 0
  free_fd : ∃ fd, s.ofile p fd = none
  ino : s'.ino ip = s.ino ip
  whoami : s'.whoami = s.whoami
  file : ∃ f r, s'.fileOf p fd = some f ∧ s'.file f = openFile ip omode r

/-- `open` after its tests. -/
theorem openAlloc_eq_some (h : openAlloc p ip omode s = some (fd, s')) (hfd : 0 ≤ fd) :
    Opened p ip omode s s' fd := by
  simp only [openAlloc, bind_eq_some] at h
  obtain ⟨r, t, hf, h⟩ := h
  have hf := filealloc_eq_some hf
  cases r with
  | none =>
    simp only [bind_eq_some, pure_eq_some] at h
    obtain ⟨_, _, -, rfl, -⟩ := h
    cases hfd
  | some f =>
    obtain ⟨hf0, rfl⟩ := hf
    simp only [bind_eq_some] at h
    obtain ⟨r, t, hd, h⟩ := h
    have hd := fdalloc_eq_some hd
    cases r with
    | none =>
      simp only [bind_eq_some, pure_eq_some] at h
      obtain ⟨_, _, -, _, _, -, rfl, -⟩ := h
      cases hfd
    | some d =>
      obtain ⟨hd0, rfl⟩ := hd
      simp only [bind_eq_some, writes_eq_some, pure_eq_some, iunlock, check_eq_some] at h
      obtain ⟨_, _, ⟨-, rfl⟩, _, _, rfl, rfl, rfl⟩ := h
      refine ⟨⟨f, hf0⟩, ⟨d, hd0⟩, rfl, rfl, f, _, ?_, Function.update_self ..⟩
      simp [State.fileOf, State.setFile, State.setOfile]

/-- There is a descriptor if there is a file and a place for it. -/
theorem openAlloc_run (omode : UInt32) (hr : 1 ≤ (s.icache ip).ref) (hf : ∃ f, (s.file f).ref = 0)
    (hd : ∃ fd, s.ofile p fd = none) :
    ∃ fd s', openAlloc p ip omode s = some (fd, s') ∧ 0 ≤ fd := by
  obtain ⟨r, t, hfa⟩ := filealloc_run s
  have hspec := filealloc_eq_some hfa
  cases r with
  | none =>
    obtain ⟨f, hf⟩ := hf
    exact absurd hf (hspec.2 f)
  | some f =>
    obtain ⟨-, rfl⟩ := hspec
    obtain ⟨r, t', hda⟩ := fdalloc_run p f (s.setFile f { s.file f with ref := 1 })
    have hspec := fdalloc_eq_some hda
    cases r with
    | none =>
      obtain ⟨d, hd⟩ := hd
      exact absurd hd (hspec.2 d)
    | some d =>
      obtain ⟨-, rfl⟩ := hspec
      have hunlock : iunlock ip ((s.setFile f { s.file f with ref := 1 }).setOfile p d (some f)) =
          some ((), (s.setFile f { s.file f with ref := 1 }).setOfile p d (some f)) :=
        check_eq_some.mpr ⟨hr, rfl⟩
      obtain ⟨s', h⟩ : ∃ s', openAlloc p ip omode s = some ((d.val : Int), s') :=
        ⟨_, bind_eq_some.mpr ⟨_, _, hfa, bind_eq_some.mpr ⟨_, _, hda,
          bind_eq_some.mpr ⟨_, _, hunlock, rfl⟩⟩⟩⟩
      exact ⟨d.val, s', h, Int.natCast_nonneg _⟩

theorem openChecked_eq_some (h : openChecked p ip omode s = some (fd, s')) (hfd : 0 ≤ fd) :
    Opened p ip omode s s' fd ∧ (WantsRead omode → s.Grants (s.ino ip) R_OK) ∧
      (WantsWrite omode → s.Grants (s.ino ip) W_OK) := by
  simp only [openChecked, grants, bind_eq_some, reads_eq_some] at h
  obtain ⟨_, _, ⟨rfl, rfl⟩, _, _, ⟨rfl, rfl⟩, h⟩ := h
  split at h
  · simp only [bind_eq_some, pure_eq_some] at h
    obtain ⟨_, _, -, rfl, -⟩ := h
    cases hfd
  · next hr =>
    split at h
    · simp only [bind_eq_some, pure_eq_some] at h
      obtain ⟨_, _, -, rfl, -⟩ := h
      cases hfd
    · next hw =>
      refine ⟨openAlloc_eq_some h hfd, fun hwr => ?_, fun hww => ?_⟩
      · simpa [hwr] using hr
      · simpa [hww] using hw

/-- Without a test, `open` gives a descriptor. -/
theorem openChecked_run (hr : ¬ WantsRead omode) (hw : ¬ WantsWrite omode)
    (h1 : 1 ≤ (s.icache ip).ref) (hf : ∃ f, (s.file f).ref = 0) (hd : ∃ fd, s.ofile p fd = none) :
    ∃ fd s', openChecked p ip omode s = some (fd, s') ∧ 0 ≤ fd := by
  obtain ⟨fd, s', h, hfd⟩ := openAlloc_run omode h1 hf hd
  refine ⟨fd, s', ?_, hfd⟩
  simp only [openChecked, grants, bind_eq_some, reads_eq_some]
  exact ⟨_, _, ⟨rfl, rfl⟩, _, _, ⟨rfl, rfl⟩, by simpa [hr, hw] using h⟩

/-! ## The modes -/

/-- The modes for which a file is readable, and the permission is not tested. -/
theorem not_wantsRead_iff : ¬ WantsRead omode ∧ omode &&& O_WRONLY = 0 ↔
    ¬ (omode = O_RDONLY ∨ omode &&& (O_WRONLY ||| O_RDWR) ≠ 0) := by
  have h : omode &&& (O_WRONLY ||| O_RDWR) = (omode &&& O_WRONLY) ||| (omode &&& O_RDWR) :=
    UInt32.toBitVec_inj.mp BitVec.and_or_distrib_left
  simp only [WantsRead, not_or, not_not, h, UInt32.or_eq_zero_iff, ne_eq]
  tauto

/-- The file is writable exactly if the permission to write is tested. -/
theorem openFile_writable : (openFile ip omode r).writable = true ↔ WantsWrite omode :=
  decide_eq_true_iff

theorem openFile_readable : (openFile ip omode r).readable = true ↔
    omode &&& O_WRONLY = 0 := decide_eq_true_iff

/-! ## A new file -/

theorem equals_self (n : Name) : Users.equals n n = true := by
  simp [Users.equals, CString.strncmp_eq_zero_iff]

/-- The owner of a new file may read and write it. -/
theorem checkmod_new (ht : st.type = some .T_FILE) (hp : st.perm = newPerm .T_FILE)
    (ho : st.owner = user) : checkmod user st = R_OK ||| W_OK := by
  unfold checkmod
  rw [if_neg (by rw [ht]; decide), if_pos (.inl (by rw [ho]; exact equals_self user)), hp]
  decide

theorem initInode_eq_some (h : initInode ip type s = some (u, s')) :
    (s'.ino ip).type = (s.ino ip).type ∧ (s'.ino ip).perm = newPerm type ∧
      (s'.ino ip).owner = s'.whoami := by
  obtain rfl := writes_eq_some.mp h
  rw [ino_setIno_self]
  refine ⟨rfl, rfl, ?_⟩
  change _ = s.whoami
  unfold State.whoami
  split <;> rfl

/-- A new file grants its maker to read and to write. -/
theorem createNew_grants (h : createNew dp name .T_FILE s = some (some ip, t)) :
    checkmod t.whoami (t.ino ip) = R_OK ||| W_OK := by
  simp only [createNew, grants, bind_eq_some, reads_eq_some] at h
  obtain ⟨_, _, ⟨rfl, rfl⟩, h⟩ := h
  split at h
  · simp only [bind_eq_some, pure_eq_some] at h
    obtain ⟨_, _, -, e, -⟩ := h
    cases e
  · simp only [bind_eq_some, reads_eq_some, pure_eq_some, Option.some.injEq, reduceCtorEq,
      if_false] at h
    obtain ⟨ip, s₁, hi, _, s₂, hl, _, s₃, hinit, _, _, ⟨rfl, rfl⟩, _, _, ⟨rfl, rfl⟩, _, s₄, hlink,
      _, t, hu, rfl, rfl⟩ := h
    obtain ⟨htype, hperm, howner⟩ := initInode_eq_some hinit
    obtain ⟨hdir, -, rfl⟩ := dirlink_eq_true (mustLink_eq_some hlink)
    have hput := iunlockput_eq_some hu
    have htype : (s₃.ino ip).type = some .T_FILE := by
      obtain ⟨inum, v, rfl⟩ := ialloc_eq_some hi
      rw [htype, (ilock_eq_some hl).ino]
      simp [State.ino, State.setEntry, State.setInode]
    -- the new inode is not the directory, since it is not of its type
    have hne : (s₃.icache ip).inum ≠ (s₃.icache dp).inum := by
      intro e
      rw [State.ino, ← e, ← State.ino, htype] at hdir
      cases hdir
    have hino := (iput_ino hput hne).trans (ino_setIno_of_ne hne)
    refine checkmod_new (hino ▸ htype) (hino ▸ hperm) ?_
    rw [hino, howner, iput_whoami hput]
    rfl

/-! ## `open` -/

/-- `create` gives the inode of a regular file that may be written. -/
theorem createOld_eq_some :
    createOld ip' type s = some (some ip, t) ↔ ip' = ip ∧ ilock ip s = some ((), t) ∧
      type = .T_FILE ∧ (t.ino ip).type = some .T_FILE ∧
      (0 < t.ltable.userCnt → t.Grants (t.ino ip) W_OK) := by
  simp only [createOld, grants, bind_eq_some, reads_eq_some]
  constructor
  · rintro ⟨_, s₁, hl, _, _, ⟨rfl, rfl⟩, _, _, ⟨rfl, rfl⟩, h⟩
    split at h
    · next hf =>
      simp only [bind_eq_some, reads_eq_some] at h
      obtain ⟨_, _, ⟨rfl, rfl⟩, h⟩ := h
      split at h
      · simp only [bind_eq_some, pure_eq_some] at h
        obtain ⟨_, _, -, e, -⟩ := h
        cases e
      · next hw =>
        obtain ⟨e, rfl⟩ := pure_eq_some.mp h
        cases e
        refine ⟨rfl, hl, hf.1, hf.2, fun hcnt => ?_⟩
        simpa [hcnt] using hw
    · simp only [bind_eq_some, pure_eq_some] at h
      obtain ⟨_, _, -, e, -⟩ := h
      cases e
  · rintro ⟨rfl, hl, rfl, hf, hw⟩
    refine ⟨_, _, hl, _, _, ⟨rfl, rfl⟩, _, _, ⟨rfl, rfl⟩, ?_⟩
    simp only [hf, true_and, if_true, bind_eq_some, reads_eq_some]
    refine ⟨_, _, ⟨rfl, rfl⟩, ?_⟩
    rw [if_neg]
    · rfl
    · simpa using hw

/-- `create` finds the name or makes a file. -/
theorem create_eq_some (h : create p path type s = some (some ip, t)) :
    ∃ dp name s₁ s₂ s₃, nameiparent p path s = some (some (dp, name), s₁) ∧
      ilock dp s₁ = some ((), s₂) ∧
      ((∃ ip' off s₄, dirlookup dp name s₂ = some (some (ip', off), s₃) ∧
          iunlockput dp s₃ = some ((), s₄) ∧ createOld ip' type s₄ = some (some ip, t)) ∨
        dirlookup dp name s₂ = some (none, s₃) ∧
          createNew dp name type s₃ = some (some ip, t)) := by
  simp only [create, bind_eq_some] at h
  obtain ⟨r, s₁, hn, h⟩ := h
  cases r with
  | none => simp at h
  | some r =>
    simp only [bind_eq_some] at h
    obtain ⟨_, s₂, hl, r', s₃, hd, h⟩ := h
    refine ⟨r.1, r.2, s₁, s₂, s₃, hn, hl, ?_⟩
    cases r' with
    | none => exact .inr ⟨hd, h⟩
    | some r' =>
      simp only [bind_eq_some] at h
      obtain ⟨_, s₄, hu, h⟩ := h
      exact .inl ⟨r'.1, r'.2, s₄, hd, hu, h⟩

/-- `target` for a mode with `O_CREATE`. -/
theorem target_create (hc : omode &&& O_CREATE ≠ 0) :
    target p path omode s = some (some ip, t) ↔ ∃ dp name s₁ s₂ s₃ s₄ off,
      nameiparent p path s = some (some (dp, name), s₁) ∧ ilock dp s₁ = some ((), s₂) ∧
      dirlookup dp name s₂ = some (some (ip, off), s₃) ∧ iunlockput dp s₃ = some ((), s₄) ∧
      ilock ip s₄ = some ((), t) := by
  simp only [target, if_pos hc, bind_eq_some]
  constructor
  · rintro ⟨r, s₁, hn, h⟩
    cases r with
    | none => simp at h
    | some r =>
      simp only [bind_eq_some] at h
      obtain ⟨_, s₂, hl, r', s₃, hd, h⟩ := h
      cases r' with
      | none => simp at h
      | some r' =>
        simp only [bind_eq_some, pure_eq_some, Option.some.injEq] at h
        obtain ⟨_, s₄, hu, _, _, hl', rfl, rfl⟩ := h
        exact ⟨r.1, r.2, s₁, s₂, s₃, s₄, r'.2, hn, hl, hd, hu, hl'⟩
  · rintro ⟨dp, name, s₁, s₂, s₃, s₄, off, hn, hl, hd, hu, hl'⟩
    refine ⟨_, _, hn, ?_⟩
    simp only [bind_eq_some]
    refine ⟨_, _, hl, _, _, hd, ?_⟩
    simp only [bind_eq_some]
    exact ⟨_, _, hu, _, _, hl', rfl⟩

/-- `target` for a mode without `O_CREATE`. -/
theorem target_namei (hc : ¬ omode &&& O_CREATE ≠ 0) : target p path omode s = some (some ip, t) ↔
    ∃ s₁, namei p path s = some (some ip, s₁) ∧ ilock ip s₁ = some ((), t) := by
  simp only [target, if_neg hc, bind_eq_some]
  constructor
  · rintro ⟨r, s₁, hn, h⟩
    cases r with
    | none => simp at h
    | some r =>
      simp only [bind_eq_some, pure_eq_some, Option.some.injEq] at h
      obtain ⟨_, _, hl, rfl, rfl⟩ := h
      exact ⟨s₁, hn, hl⟩
  · rintro ⟨s₁, hn, hl⟩
    refine ⟨_, _, hn, ?_⟩
    simp only [bind_eq_some]
    exact ⟨_, _, hl, rfl⟩

/-- `open` at a path that leads to a file. -/
theorem sysOpen_old (ht : target p path omode s = some (some ip, t))
    (ha : Available p omode ip t) : sysOpen p path omode s = openChecked p ip omode t ∧
      1 ≤ (t.icache ip).ref := by
  by_cases hc : omode &&& O_CREATE ≠ 0
  · obtain ⟨dp, name, s₁, s₂, s₃, s₄, off, hn, hl, hd, hu, hl'⟩ := (target_create hc).mp ht
    obtain ⟨hfile, hw⟩ := ha.create hc
    refine ⟨?_, (ilock_eq_some hl').ref⟩
    have hold : createOld ip .T_FILE s₄ = some (some ip, t) :=
      createOld_eq_some.mpr ⟨rfl, hl', rfl, hfile, hw⟩
    have hcreate : create p path .T_FILE s = some (some ip, t) := by
      simp only [create, bind_of_eq_some hn, bind_of_eq_some hl, bind_of_eq_some hd,
        bind_of_eq_some hu, hold]
    simp only [sysOpen, if_pos hc, bind_of_eq_some hcreate]
  · obtain ⟨s₁, hn, hl⟩ := (target_namei hc).mp ht
    refine ⟨?_, (ilock_eq_some hl).ref⟩
    have hdir : ¬ ((t.ino ip).type = some .T_DIR ∧ omode ≠ O_RDONLY) := fun h => ha.not_dir h.1
    simp only [sysOpen, if_neg hc, bind_of_eq_some hn, bind_of_eq_some hl, reads_bind, if_neg hdir]

/-- `open` gives a descriptor for the file at the path, or for a new one that grants everything. -/
theorem sysOpen_eq_some (h : sysOpen p path omode s = some (fd, s')) (hfd : 0 ≤ fd) :
    ∃ ip t, openChecked p ip omode t = some (fd, s') ∧
      (target p path omode s = some (some ip, t) ∧
          ((t.ino ip).type = some .T_DIR → omode = O_RDONLY) ∧
          (omode &&& O_CREATE ≠ 0 → (t.ino ip).type = some .T_FILE ∧
            (0 < t.ltable.userCnt → t.Grants (t.ino ip) W_OK)) ∨
        t.Grants (t.ino ip) R_OK) := by
  by_cases hc : omode &&& O_CREATE ≠ 0
  · simp only [sysOpen, if_pos hc, bind_eq_some] at h
    obtain ⟨r, t, hcreate, h⟩ := h
    cases r with
    | none =>
      obtain ⟨rfl, -⟩ := pure_eq_some.mp h
      cases hfd
    | some ip =>
      refine ⟨ip, t, h, ?_⟩
      obtain ⟨dp, name, s₁, s₂, s₃, hn, hl, hcase⟩ := create_eq_some hcreate
      rcases hcase with ⟨ip', off, s₄, hd, hu, hold⟩ | ⟨-, hnew⟩
      · obtain ⟨rfl, hl', -, hfile, hw⟩ := createOld_eq_some.mp hold
        refine .inl ⟨(target_create hc).mpr ⟨_, _, _, _, _, _, _, hn, hl, hd, hu, hl'⟩, ?_,
          fun _ => ⟨hfile, hw⟩⟩
        intro hdir
        rw [hfile] at hdir
        cases hdir
      · refine .inr ?_
        rw [State.Grants, createNew_grants hnew]
        decide
  · simp only [sysOpen, if_neg hc, bind_eq_some] at h
    obtain ⟨r, s₁, hn, h⟩ := h
    cases r with
    | none =>
      obtain ⟨rfl, -⟩ := pure_eq_some.mp h
      cases hfd
    | some ip =>
      simp only [bind_eq_some, reads_eq_some] at h
      obtain ⟨_, t, hl, _, _, ⟨rfl, rfl⟩, h⟩ := h
      split at h
      · simp only [bind_eq_some, pure_eq_some] at h
        obtain ⟨_, _, -, rfl, -⟩ := h
        cases hfd
      · next hdir =>
        refine ⟨ip, t, h, .inl ⟨(target_namei hc).mpr ⟨s₁, hn, hl⟩, fun hd => ?_,
          fun h => absurd h hc⟩⟩
        by_contra hne
        exact hdir ⟨hd, hne⟩

/-- `open` gives no more than `checkmod` grants exactly if the permission to read is tested or
granted. -/
theorem openSound_iff : OpenSound p path omode s ↔ ReadTested p path omode s := by
  constructor
  · intro h
    by_cases hmode : omode = O_RDONLY ∨ omode &&& (O_WRONLY ||| O_RDWR) ≠ 0
    · exact hmode.imp_right .inl
    refine .inr (.inr fun ip t ht hdev ha => ?_)
    obtain ⟨hr, hwr⟩ := not_wantsRead_iff.mpr hmode
    have hw : ¬ WantsWrite omode := fun hw => hw.elim (fun h => h hwr) fun h => hr (.inr h)
    obtain ⟨hopen, href⟩ := sysOpen_old ht ha
    obtain ⟨fd, s', hrun, hfd⟩ := openChecked_run hr hw href ha.file ha.fd
    obtain ⟨ho, -⟩ := openChecked_eq_some hrun hfd
    obtain ⟨f, r, hf, e⟩ := ho.file
    have := h fd s' (hopen.trans hrun) hfd f ip hf (by rw [e]; rfl) (by rwa [ho.ino])
    rw [e, openFile_readable, ho.ino] at this
    simpa only [State.Grants, ho.whoami] using this.1 hwr
  · intro h fd s' hrun hfd f ip hf htype hdev
    obtain ⟨ip', t, hrun', hcase⟩ := sysOpen_eq_some hrun hfd
    obtain ⟨ho, hr, hw⟩ := openChecked_eq_some hrun' hfd
    obtain ⟨f', r, hf', e⟩ := ho.file
    obtain rfl : f' = f := Option.some.inj (hf'.symm.trans hf)
    obtain rfl : ip' = ip := by
      rw [e] at htype
      exact FileType.FD_INODE.inj htype
    have hgr : ∀ ok, t.Grants (t.ino ip') ok → s'.Grants (s'.ino ip') ok := by
      intro ok hok
      simpa only [State.Grants, ho.whoami, ho.ino] using hok
    rw [e, openFile_readable, openFile_writable]
    refine ⟨fun hwr => hgr _ ?_, fun hww => hgr _ (hw hww)⟩
    by_cases hwants : WantsRead omode
    · exact hr hwants
    have hmode := not_wantsRead_iff.mp ⟨hwants, hwr⟩
    rcases hcase with ⟨ht, hdir, hcreate⟩ | hgranted
    · rcases h with h | h | h
      · exact absurd (.inl h) hmode
      · exact absurd (.inr h) hmode
      · refine h ip' t ht (by rwa [← ho.ino]) ⟨fun hd => ?_, hcreate, ho.free_file, ho.free_fd⟩
        exact hmode (.inl (hdir hd))
    · exact hgranted

/-- A root directory with the file `"f"`, which its owner may write and not read. -/
def writeOnlyDisk : Nat → Inode
  | 1 => ⟨some .T_DIR, 1, newPerm .T_DIR, Users.root.1, [⟨1, dot⟩, ⟨1, dotdot⟩, ⟨2, [102]⟩]⟩
  | 2 => ⟨some .T_FILE, 1, MODE_WUSR, Users.root.1, []⟩
  | _ => ⟨none, 0, 0, [], []⟩

def writeOnly : State :=
  .boot writeOnlyDisk ((userinit pinit).getD pinit) (Users.append .empty Users.root Users.zeros)

/-- `open("f", O_CREATE)` gives a readable file, and `checkmod` grants `W_OK` only. -/
theorem open_reads_writeOnly : ∃ s', sysOpen 0 [102] O_CREATE writeOnly = some (0, s') ∧
    s'.fileOf 0 0 = some ⟨0, by decide⟩ ∧
    s'.file ⟨0, by decide⟩ = ⟨.FD_INODE ⟨1, by decide⟩, 1, true, false⟩ ∧
    checkmod s'.whoami (s'.ino ⟨1, by decide⟩) = W_OK := by
  have h : ((sysOpen 0 [102] O_CREATE writeOnly).map fun r => decide (r.1 = 0 ∧
      r.2.fileOf 0 0 = some ⟨0, by decide⟩ ∧
      r.2.file ⟨0, by decide⟩ = ⟨.FD_INODE ⟨1, by decide⟩, 1, true, false⟩ ∧
      checkmod r.2.whoami (r.2.ino ⟨1, by decide⟩) = W_OK)) = some true := by decide +kernel
  obtain ⟨⟨fd, s'⟩, hrun, hd⟩ := Option.map_eq_some_iff.mp h
  obtain ⟨rfl, hf, hfile, hc⟩ := of_decide_eq_true hd
  exact ⟨s', hrun, hf, hfile, hc⟩

end Xv6.Fs
