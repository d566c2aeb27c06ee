import Xv6.Sys.Spec

/-! # The steps of the calls on files

Reading, writing, pipes, creation and `open`. -/

namespace Xv6.Sys

open Fault Holding Thread
open Fs (Ip Name InodeType NFILE NOFILE R_OK W_OK O_RDONLY WantsRead WantsWrite openFile)

variable {p q : Slot} {m : Mode} {c : Config} {R : Multiset Res} {s : State} {ip dp : Ip} {k : Know}
  {f : Fin NFILE} {name path : Name} {type : InodeType} {omode : UInt32}
  {o : Slot → Fin NOFILE → Option (Fin NFILE)} {N : Prop} {K : Ip → State → Prop}
  {L : State → Prop}

/-! ## Descriptors -/

theorem fileclose_at : Triple (Blame p c) (At p m c ({.file f} + R)) (fileclose p f) fun _ =>
    At p m c R := by
  refine fileclose_rule (fun _ _ _ _ _ _ => blame_of rfl) (fun s h hr _ hc => ?_)
    fun s h h1 => h.close h1
  have := (h.filesCounted hc).one_le
  omega

/-- A file with a descriptor can be duplicated. -/
theorem blame_filedup {fd : Fin NOFILE} (h : At p m c R s) (hfd : s.ofile q fd = some f)
    (hr : (s.file f).ref < 1) : Blame p c .filedup := by
  intro _ hc
  have := (h.filesCounted hc).one_le_of_ofile hfd
  omega

theorem getfilebyfd_eq_some {fd : Nat} {r : Fin NOFILE × Fin NFILE}
    (h : (if h : fd < NOFILE then (s.ofile p ⟨fd, h⟩).map (⟨fd, h⟩, ·) else none) = some r) :
    s.ofile p r.1 = some r.2 ∧ r.1.val = fd := by
  split at h
  · obtain ⟨f, hf, rfl⟩ := Option.map_eq_some_iff.mp h
    exact ⟨hf, rfl⟩
  · cases h

/-- The rule of `getfilebyfd`. -/
theorem getfilebyfd_bind {α : Type} {fd : Nat} {P : State → Prop} {Q : α → State → Prop}
    {E : Stop → Prop} {g : Option (Fin NOFILE × Fin NFILE) → Kernel α}
    (hnone : Triple E P (g none) Q)
    (hsome : ∀ r : Fin NOFILE × Fin NFILE,
      Triple E (fun s => P s ∧ s.ofile p r.1 = some r.2 ∧ r.1.val = fd) (g (some r)) Q) :
    Triple E P (getfilebyfd p fd >>= g) Q := by
  refine .reads_bind fun r => ?_
  cases r with
  | none => exact hnone.pre fun _ => And.left
  | some r => exact (hsome r).pre fun _ h => ⟨h.1, getfilebyfd_eq_some h.2⟩

theorem sysDup_at {fd : Nat} : Triple (Blame p c) (At p m c R) (sysDup p fd) fun _ =>
    At p m c R := by
  refine getfilebyfd_bind (.pure fun _ => id) fun r => ?_
  -- `fdalloc` makes a descriptor before `filedup` counts it
  refine .bind (Q := fun o t => ∃ s, (At p m c R s ∧ s.ofile p r.1 = some r.2) ∧
    Fdallocs p r.2 s o t)
    (fdalloc_rule (fun s h _ => ⟨s, ⟨h.1, h.2.1⟩, rfl⟩) fun s fd h hfd =>
      ⟨s, ⟨h.1, h.2.1⟩, hfd, rfl⟩) fun o => ?_
  cases o with
  | none =>
    refine .pure ?_
    rintro t ⟨s, ⟨h, -⟩, rfl⟩
    exact h
  | some fd =>
    refine .bind_pure (filedup_rule (Q := fun _ => At p m c R) ?_ ?_)
    · rintro t ⟨s, ⟨h, ho⟩, -, rfl⟩ hr
      exact blame_filedup h ho hr
    · rintro t ⟨s, ⟨h, ho⟩, hfd, rfl⟩ h1
      exact (h.file (.dup h1)).file (.fdSet hfd (.inl rfl))

theorem sysClose_at {fd : Nat} : Triple (Blame p c) (At p m c R) (sysClose p fd) fun _ =>
    At p m c R := by
  refine getfilebyfd_bind (.pure fun _ => id) fun r => ?_
  refine .bind (.writes (Q := fun _ => At p m c ({.file r.2} + R)) fun s h => ?_) fun _ =>
    .bind_pure fileclose_at
  exact h.1.file (.fdClear h.2.1)

/-! ## Reading -/

theorem filestat_at : Triple (Blame p c) (At p m c R) (filestat p f) fun _ => At p m c R := by
  refine .read fun type => ?_
  cases type with
  | FD_INODE ip => exact .bind ilock_at fun _ => .bind_pure iunlock_at
  | FD_NONE | FD_PIPE => exact .pure fun _ => id

theorem fileread_at {n : Nat} {r : Int} :
    Triple (Blame p c) (fun s => At p m c R s ∧ s.ofile = o) (fileread p f n r)
      fun _ s => At p m c R s ∧ s.ofile = o := by
  refine .read fun ff => .ite (fun _ => .pure fun _ => id) fun _ => ?_
  cases ff.type with
  | FD_NONE => exact .panic (blame_of rfl)
  | FD_PIPE => exact .pure fun _ => id
  | FD_INODE ip =>
    refine .bind (ilock_rule (Q := fun _ s => At p m c ({.lock ip} + R) s ∧ s.ofile = o)
      (fun _ _ _ => blame_of rfl) (fun _ _ _ => blame_of rfl)
      (fun _ _ _ _ _ => blame_of rfl) fun s h _ hl hv => ⟨h.1.locked hl hv, h.2⟩)
      fun _ => .read fun off => .read fun k => ?_
    have hend : Triple (Blame p c) (fun s => At p m c ({.lock ip} + R) s ∧ s.ofile = o)
        (do iunlock p ip; pure k) fun _ s => At p m c R s ∧ s.ofile = o :=
      .bind_pure (iunlock_rule (Q := fun _ s => At p m c R s ∧ s.ofile = o)
        (fun _ _ _ => blame_of rfl) fun s h _ _ => ⟨h.1.lock .unlock, h.2⟩)
    refine .ite (fun _ => .bind (.writes ?_) fun _ => hend) fun _ => hend
    exact fun s h => ⟨h.1.file (.off _), h.2⟩

/-! ## Writing -/

/-- `f` is a file for writing to the inode of `ip`, and `o` are the descriptors. -/
def State.Writes (s : State) (o : Slot → Fin NOFILE → Option (Fin NFILE)) (f : Fin NFILE)
    (ip : Ip) : Prop :=
  (s.file f).type = .FD_INODE ip ∧ (s.file f).writable = true ∧ s.ofile = o

theorem writei_at {off : Nat} {src : List UInt8} {dev : Bool} :
    Triple (Blame p c) (fun s => At p m c R s ∧ s.Writes o f ip) (writei ip off src dev)
      fun _ s => At p m c R s ∧ s.Writes o f ip := by
  refine .reads_bind fun type => .read fun size => ?_
  refine .ite (fun _ => .pure fun _ => And.left) fun _ =>
    .ite (fun _ => .pure fun _ => And.left) fun _ => .ite (fun hd => ?_) fun _ => ?_
  · refine .bind_pure (.writes ?_)
    rintro s ⟨⟨h, hw⟩, rfl⟩
    exact ⟨h.cache (.writeDir _ hw.1 hw.2.1 hd), hw⟩
  · refine .bind_pure (.writes ?_)
    rintro s ⟨⟨h, hw⟩, rfl⟩
    exact ⟨h.cache (.writeData _ hw.1 hw.2.1), hw⟩

theorem filewriteChunk_at {src : List UInt8} {dev : Bool} :
    Triple (Blame p c) (fun s => At p m c R s ∧ s.Writes o f ip) (filewriteChunk p f ip src dev)
      fun _ s => At p m c R s ∧ s.Writes o f ip := by
  refine .bind (.writes (Q := fun _ s => At p m c ({.op} + R) s ∧ s.Writes o f ip) ?_) fun _ => ?_
  · exact fun s h => ⟨h.1.lock .beginOp, h.2⟩
  refine .bind (ilock_rule (Q := fun _ s => At p m c ({.lock ip} + ({.op} + R)) s ∧ s.Writes o f ip)
    (fun _ _ _ => blame_of rfl) (fun _ _ _ => blame_of rfl)
    (fun _ _ _ _ _ => blame_of rfl) ?_) fun _ => .read fun off =>
    .bind writei_at fun ok => ?_
  · exact fun s h _ hl hv => ⟨h.1.locked hl hv, h.2⟩
  have hend : Triple (Blame p c)
      (fun s => At p m c ({.lock ip} + ({.op} + R)) s ∧ s.Writes o f ip)
      (do iunlock p ip; endOp; pure ok) fun _ s => At p m c R s ∧ s.Writes o f ip := by
    refine .bind (iunlock_rule (Q := fun _ s => At p m c ({.op} + R) s ∧ s.Writes o f ip)
      (fun _ _ _ => blame_of rfl) ?_) fun _ => ?_
    · exact fun s h _ _ => ⟨h.1.lock .unlock, h.2⟩
    · refine .bind_pure (.writes ?_)
      exact fun s h => ⟨h.1.lock .endOp, h.2⟩
  refine .ite (fun _ => .bind (.writes ?_) fun _ => hend) fun _ => hend
  exact fun s h => ⟨h.1.file (.off _), h.2⟩

theorem filewriteFor_at {n : Nat} {src : List UInt8} {dev : Bool} :
    Triple (Blame p c) (fun s => At p m c R s ∧ s.Writes o f ip) (filewriteFor p f ip dev n src)
      fun _ s => At p m c R s ∧ s.Writes o f ip := by
  induction n generalizing src with
  | zero => exact .pure fun _ => id
  | succ n ih =>
    refine .ite (fun _ => .pure fun _ => id) fun _ => .bind filewriteChunk_at fun ok => ?_
    exact .ite (fun _ => ih) fun _ => .pure fun _ => id

theorem filewrite_at {src : List UInt8} {r : Int} {dev : Bool} :
    Triple (Blame p c) (fun s => At p m c R s ∧ s.ofile = o) (filewrite p f src r dev)
      fun _ s => At p m c R s ∧ s.ofile = o := by
  refine .reads_bind fun ff => .ite (fun _ => .pure fun _ => And.left) fun hw => ?_
  cases ht : ff.type with
  | FD_NONE => exact .panic (blame_of rfl)
  | FD_PIPE => exact .pure fun _ => And.left
  | FD_INODE ip =>
    refine .bind (filewriteFor_at.mono ?_ fun _ _ h => ⟨h.1, h.2.2.2⟩) fun ok =>
      .ite (fun _ => .pure fun _ => id) fun _ => .pure fun _ => id
    rintro s ⟨⟨h, ho⟩, rfl⟩
    exact ⟨h, ht, by simpa using hw, ho⟩

theorem sysRead_at {fd n : Nat} {r : Int} : Triple (Blame p c) (At p m c R) (sysRead p fd n r)
    fun _ => At p m c R :=
  getfilebyfd_bind (.pure fun _ => id) fun _ => fun s h =>
    fileread_at.post (fun _ _ => And.left) s ⟨h.1, rfl⟩

theorem sysWrite_at {fd : Nat} {src : List UInt8} {r : Int} {dev : Bool} :
    Triple (Blame p c) (At p m c R) (sysWrite p fd src r dev) fun _ => At p m c R :=
  getfilebyfd_bind (.pure fun _ => id) fun _ => fun s h =>
    filewrite_at.post (fun _ _ => And.left) s ⟨h.1, rfl⟩

theorem sysFstat_at {fd : Nat} : Triple (Blame p c) (At p m c R) (sysFstat p fd)
    fun _ => At p m c R :=
  getfilebyfd_bind (.pure fun _ => id) fun _ => filestat_at.pre fun _ => And.left

/-! ## Pipes -/

/-- The two files of `pipealloc` are set up when it is sure that it has them. -/
theorem State.setFile_pipe {f0 f1 : Fin NFILE} (h : f1 ≠ f0) :
    (let t := (s.setFile f0 { s.file f0 with ref := 1 })
      let t := t.setFile f1 { t.file f1 with ref := 1 }
      let t := t.setFile f0 (pipeFile false (t.file f0).ref)
      t.setFile f1 (pipeFile true (t.file f1).ref)) =
    (s.setFile f0 (pipeFile false 1)).setFile f1 (pipeFile true 1) := by
  simp only [State.setFile, Function.update_self, Function.update_of_ne h,
    Function.update_of_ne h.symm]
  congr 2
  funext g
  by_cases h1 : g = f1
  · simp [h1]
  · by_cases h0 : g = f0
    · simp [h0, h.symm]
    · simp [h1, h0]

theorem pipealloc_at {kalloc : Bool} :
    Triple (Blame p c) (At p m c R) (pipealloc p kalloc) fun r s => match r with
      | none => At p m c R s
      | some r => At p m c ({.file r.2} + ({.file r.1} + R)) s := by
  refine .bind (Q := fun o t => ∃ s, At p m c R s ∧ Fileallocs s o t)
    (filealloc_rule (fun s h _ => ⟨s, h, rfl⟩) fun s f h h0 => ⟨s, h, h0, rfl⟩) fun o => ?_
  cases o with
  | none =>
    refine .pure ?_
    rintro t ⟨s, h, rfl⟩
    exact h
  | some f0 =>
    refine .bind (Q := fun o t => ∃ s, (At p m c R s ∧ (s.file f0).ref = 0) ∧
      Fileallocs (s.setFile f0 { s.file f0 with ref := 1 }) o t)
      (filealloc_rule ?_ ?_) fun o => ?_
    · rintro t ⟨s, h, h0, rfl⟩ -
      exact ⟨s, ⟨h, h0⟩, rfl⟩
    · rintro t f ⟨s, h, h0, rfl⟩ hf
      exact ⟨s, ⟨h, h0⟩, hf, rfl⟩
    · cases o with
      | none =>
        refine .bind_pure (fileclose_at.pre ?_)
        rintro t ⟨s, ⟨h, h0⟩, rfl⟩
        exact h.file (.new h0)
      | some f1 =>
        refine .ite (fun _ => ?_) fun _ => ?_
        · refine .bind (Q := fun _ t => ∃ s, At p m c R s ∧ (s.file f0).ref = 0 ∧
            (s.file f1).ref = 0 ∧ f1 ≠ f0 ∧ t = (
              let t := (s.setFile f0 { s.file f0 with ref := 1 })
              let t := t.setFile f1 { t.file f1 with ref := 1 }
              t.setFile f0 (pipeFile false (t.file f0).ref))) (.writes ?_) fun _ => ?_
          · rintro t ⟨s, ⟨h, h0⟩, hf, rfl⟩
            have hne : f1 ≠ f0 := by
              rintro rfl
              simp [State.setFile] at hf
            have h1 : (s.file f1).ref = 0 := by simpa [State.setFile, hne] using hf
            exact ⟨s, h, h0, h1, hne, rfl⟩
          · refine .bind (.writes (Q := fun _ => At p m c ({.file f1} + ({.file f0} + R))) ?_)
              fun _ => .pure fun _ => id
            rintro t ⟨s, h, h0, h1, hne, rfl⟩
            have hstate := State.setFile_pipe (s := s) hne
            have h1' : ((s.setFile f0 (pipeFile false 1)).file f1).ref = 0 := by
              simpa [State.setFile, hne] using h1
            have hAt := (h.file (.pipe false h0)).file (.pipe true h1')
            exact hstate ▸ hAt
        · refine .bind ((fileclose_at (R := {.file f1} + R)).pre ?_) fun _ =>
            .bind_pure fileclose_at
          rintro t ⟨s, ⟨h, h0⟩, hf, rfl⟩
          have hAt := (h.file (.new h0)).file (.new hf)
          rwa [add_left_comm] at hAt

/-- A descriptor takes the reference to its file. -/
theorem fdalloc_at : Triple (Blame p c) (At p m c ({.file f} + R)) (fdalloc p f) fun r s =>
    match r with
    | none => At p m c ({.file f} + R) s
    | some fd => At p m c R s ∧ s.ofile p fd = some f :=
  fdalloc_rule (fun _ h _ => h) fun s fd h hfd =>
    ⟨h.file (.fdSet hfd (.inl rfl)), by simp [State.setOfile]⟩

theorem sysPipe_at {kalloc : Bool} : Triple (Blame p c) (At p m c R) (sysPipe p kalloc) fun _ =>
    At p m c R := by
  refine .bind pipealloc_at fun r => ?_
  cases r with
  | none => exact .pure fun _ => id
  | some r =>
    have hbad : Triple (Blame p c) (At p m c ({.file r.1} + ({.file r.2} + R)))
        (do fileclose p r.1; fileclose p r.2; pure (-1 : Int)) fun _ => At p m c R :=
      .bind fileclose_at fun _ => .bind_pure fileclose_at
    refine .bind (perm (add_left_comm ..) fdalloc_at) fun fd0 => ?_
    cases fd0 with
    | none => exact hbad
    | some fd0 =>
      refine .bind (Q := fun fd s => match fd with
        | none => At p m c ({.file r.2} + R) s ∧ s.ofile p fd0 = some r.1
        | some _ => At p m c R s)
        (fdalloc_rule (fun _ h _ => h) fun s fd h hfd => h.1.file (.fdSet hfd (.inl rfl)))
        fun fd1 => ?_
      cases fd1 with
      | none => exact .bind (.writes fun s h => h.1.file (.fdClear h.2)) fun _ => hbad
      | some fd1 => exact .pure fun _ => id

/-! ## Creation -/

/-- The new inode can be initialised when it is taken into use. -/
theorem State.setIno_alloc {t : State} {inum : Nat} {e : Fs.Entry} (he : e.inum = inum)
    (ht : t = ((s.alloc inum type).setEntry ip e).locked p ip) :
    t.setIno ip { t.ino ip with
      nlink := 1
      perm := Fs.newPerm type
      owner := if t.ltable.userCnt = 0 then Users.root.1 else t.whoami } =
      ((s.make inum type).setEntry ip e).locked p ip := by
  subst he ht
  simp [State.locked, State.setEntry, State.setLock, State.setIno, State.setInode, State.alloc,
    State.make, State.made, State.setData, Fs.State.ino, State.pid, Fs.State.whoami]

theorem newInode_at : Triple (Blame p c) (At p m c R) (newInode p type) fun ip s =>
    At p m c ({.lock ip} + ({.ref .plain ip} + R)) s ∧ (s.icache ip).valid = true ∧
      s.ino ip = s.made type := by
  have hgot : Triple (Blame p c) (At p m c R) (ialloc type) fun ip t =>
      ∃ (s : State) (inum : Nat) (e : Fs.Entry),
        At p m c ({.ref .plain ip} + R) ((s.make inum type).setEntry ip e) ∧ e.inum = inum ∧
        t = (s.alloc inum type).setEntry ip e := by
    refine .reads_bind fun inode => ?_
    split
    · next inum hfind =>
      have htype := List.find?_some hfind
      simp only [decide_eq_true_eq] at htype
      refine .bind (Q := fun _ t => ∃ s, At p m c R s ∧ (s.inode inum).type = none ∧
        t = s.alloc inum type) (.writes ?_) fun _ => iget_rule
          (fun _ _ _ => blame_of rfl) ?_ ?_
      · rintro s ⟨h, rfl⟩
        exact ⟨s, h, htype, rfl⟩
      · rintro t ip ⟨s, h, hn, rfl⟩ hr he
        exact ⟨s, inum, _, (h.cache (.make type hn)).cache (.get (.inl hr)), he, rfl⟩
      · rintro t ip ⟨s, h, hn, rfl⟩ h0 hno
        exact ⟨s, inum, _, (h.cache (.make type hn)).cache (.load h0 hno), rfl, rfl⟩
    · exact .panic (blame_of rfl)
  refine .bind hgot fun ip => ?_
  refine .bind (Q := fun _ t => ∃ (s : State) (inum : Nat) (e : Fs.Entry),
    At p m c ({.lock ip} + ({.ref .plain ip} + R))
      (((s.make inum type).setEntry ip e).locked p ip) ∧ e.inum = inum ∧
        t = ((s.alloc inum type).setEntry ip e).locked p ip)
    (ilock_rule (fun _ _ _ => blame_of rfl) (fun _ _ _ => blame_of rfl)
      (fun _ _ _ _ _ => blame_of rfl) ?_) fun _ => ?_
  · rintro t ⟨s, inum, e, h, rfl, rfl⟩ - hl -
    refine ⟨s, e.inum, e, h.locked hl (.inr ?_), rfl, rfl⟩
    simp [Fs.State.ino, State.setEntry, State.make, State.setInode, State.setData, State.made]
  · refine .bind (.writes (Q := fun _ s => At p m c ({.lock ip} + ({.ref .plain ip} + R)) s ∧
      (s.icache ip).valid = true ∧ s.ino ip = s.made type) ?_) fun _ => .pure fun _ => id
    rintro t ⟨s, inum, e, h, he, ht⟩
    rw [State.setIno_alloc he ht]
    refine ⟨h, by simp [State.locked, State.setEntry], ?_⟩
    subst he
    simp [State.locked, State.setEntry, State.setLock, State.make, State.made, State.setInode,
      State.setData, Fs.State.ino, Fs.State.whoami]

/-- What `create` knows of the inode it gives. -/
def created (type : InodeType) : Know := if type = .T_DIR then .plain else .file

def AtCreated (p : Slot) (m : Mode) (c : Config) (R : Multiset Res) (type : InodeType)
    (r : Option Ip) : State → Prop :=
  match r with
  | none => At p m c R
  | some ip => At p m c ({.lock ip} + ({.ref (created type) ip} + R))

theorem addLinks_at {n : Int16} : Triple (Blame p c) (At p m c R) (addLinks ip n) fun _ =>
    At p m c R := .writes fun _ h => h.cache (.links _)

theorem createNew_at : Triple (Blame p c) (At p m c ({.lock dp} + ({.ref .plain dp} + R)))
    (createNew p dp name type) (AtCreated p m c R type) := by
  refine .reads_bind fun ok => .ite (fun _ => ?_) fun hok => ?_
  · exact .bind (iunlock_at.pre (fun _ => And.left)) fun _ =>
      .pure fun s h => h.cache .leak
  have hgrant : ∀ s, (At p m c ({.lock dp} + ({.ref .plain dp} + R)) s ∧
      decide (s.Grants (s.ino dp) W_OK) = ok) →
      At p m c ({.ref .write dp} + ({.lock dp} + R)) s := by
    rintro s ⟨h, rfl⟩
    rw [add_left_comm] at h
    exact h.cache (.grant (by simpa using hok))
  refine .bind (newInode_at.pre hgrant) fun ip => .read fun inum =>
    .read fun dinum => ?_
  -- the entry in the directory, whatever is known of the new inode
  have hend : ∀ k, k = created type → Triple (Blame p c)
      (At p m c ({.ref .write dp} + ({.lock dp} + ({.lock ip} + ({.ref k ip} + R)))))
      (do mustLink p dp name inum .createDirlink; iunlockput p dp; pure (some ip))
      (AtCreated p m c R type) := by
    rintro k rfl
    exact .bind (mustLink_at (.inl rfl) (.inr rfl)) fun _ =>
      .bind_pure (perm (add_left_comm ..) iunlockput_at)
  have hperm : ∀ k, ({.ref k ip} : Multiset Res) +
      ({.lock ip} + ({.ref .write dp} + ({.lock dp} + R))) =
      {.ref .write dp} + ({.lock dp} + ({.lock ip} + ({.ref k ip} + R))) := fun k => by ac_rfl
  refine .ite (fun ht => ?_) fun ht => ?_
  · -- the dots of a new directory
    have hip : ∀ s, (At p m c
        ({.lock ip} + ({.ref .plain ip} + ({.ref .write dp} + ({.lock dp} + R)))) s ∧
        (s.icache ip).valid = true ∧ s.ino ip = s.made type) →
        At p m c ({.ref .write ip} + ({.lock ip} + ({.ref .write dp} + ({.lock dp} + R)))) s := by
      rintro s ⟨h, -, hmade⟩
      rw [add_left_comm] at h
      exact h.cache (.grant (hmade ▸ State.grants_made))
    refine .bind (addLinks_at.pre hip) fun _ => ?_
    refine .bind (mustLink_at (.inl rfl) (.inl rfl)) fun _ => ?_
    refine .bind ((mustLink_at (.inl rfl) (.inl rfl)).post fun _ s h => ?_) fun _ =>
      hend .plain (if_pos ht).symm
    rw [← hperm]
    exact h.cache .forget
  · refine (hend .file (if_neg ht).symm).pre ?_
    rintro s ⟨h, hv, hmade⟩
    rw [add_left_comm] at h
    rw [← hperm]
    refine h.cache (.notDir hv ?_)
    rw [hmade]
    simpa [State.made] using ht

theorem createOld_at : Triple (Blame p c) (At p m c ({.ref .plain ip} + R)) (createOld p ip type)
    (AtCreated p m c R type) := by
  refine .bind (ilock_rule (Q := fun _ s => At p m c ({.lock ip} + ({.ref .plain ip} + R)) s ∧
    (s.icache ip).valid = true) (fun _ _ _ => blame_of rfl)
    (fun _ _ _ => blame_of rfl) (fun _ _ _ _ _ => blame_of rfl) ?_)
    fun _ => ?_
  · exact fun s h _ hl hv => ⟨h.locked hl hv, by simp [State.locked, State.setEntry]⟩
  refine .reads_bind fun st => .read fun userCnt => .read fun ok => ?_
  refine .ite (fun ht => .ite (fun _ => ?_) fun _ => ?_) fun _ => ?_
  · exact .bind (iunlock_at.pre (fun _ h => h.1.1)) fun _ =>
      .pure fun s h => h.cache .leak
  · refine .pure ?_
    rintro s ⟨⟨h, hv⟩, rfl⟩
    rw [add_left_comm] at h
    have hk : created type = .file := if_neg (by simp [ht.1])
    change At p m c ({.lock ip} + ({.ref (created type) ip} + R)) s
    rw [hk, add_left_comm]
    exact h.cache (.notDir hv (by simp [ht.2]))
  · exact .bind_pure (iunlockput_at.pre (fun _ h => h.1.1))

theorem create_at : Triple (Blame p c) (At p m c R) (create p path type)
    (AtCreated p m c R type) := by
  refine .bind nameiparent_at fun r => ?_
  cases r with
  | none => exact .pure fun s h => by simpa [cwdHeld, AtCreated] using h
  | some r =>
    refine .bind ilock_at fun _ => .bind dirlookup_at fun r' => ?_
    cases r' with
    | none => exact perm (zero_add _) createNew_at
    | some r' =>
      have e : ({.ref .plain r'.1} : Multiset Res) + ({.lock r.1} + ({.ref .plain r.1} + R)) =
          {.lock r.1} + ({.ref .plain r.1} + ({.ref .plain r'.1} + R)) := by ac_rfl
      exact .bind (perm e iunlockput_at) fun _ => createOld_at

theorem make_at : Triple (Blame p c) (At p m c R) (make p path type) fun _ => At p m c R := by
  refine .bind beginOp_at fun _ => .bind create_at fun r => ?_
  cases r with
  | none => exact return_at
  | some ip => exact putReturn_at

/-! ## `open` -/

/-- A descriptor is for a file that `open` has made. -/
def State.Opened (s : State) (p : Slot) (omode : UInt32) (ip : Ip) (r : Int) : Prop :=
  ∃ fd f, r = (fd : Fin NOFILE).val ∧ s.ofile p fd = some f ∧ s.file f = openFile ip omode 1

/-- The process may open the inode, and there is room for it. -/
def State.CanOpen (s : State) (p : Slot) (i : Nat) (omode : UInt32) : Prop :=
  (WantsRead omode → s.Grants (s.inode i) R_OK) ∧ (WantsWrite omode → s.Grants (s.inode i) W_OK) ∧
    (∃ f, (s.file f).ref = 0) ∧ ∃ fd, s.ofile p fd = none

/-- `open` of the inode succeeds. -/
def State.Opens (s : State) (p : Slot) (i : Nat) (omode : UInt32) : Prop :=
  ¬ ((s.inode i).type = some .T_DIR ∧ omode ≠ O_RDONLY) ∧ s.CanOpen p i omode

/-- What `open` leaves, with a reason `N` for a failure and what it knows of the inode. -/
def AtOpened (p : Slot) (m : Mode) (c : Config) (R : Multiset Res) (omode : UInt32) (N : Prop)
    (K : Ip → State → Prop) (r : Int) (s : State) : Prop :=
  At p m c R s ∧ (r = -1 ∧ N ∨ ∃ ip, s.Opened p omode ip r ∧ K ip s)

theorem pure_opened_of_neg (hN : N) : Triple (Blame p c) (At p m c R) (pure (-1))
    (AtOpened p m c R omode N K) := .pure fun _ h => ⟨h, .inl ⟨rfl, hN⟩⟩

def State.ended (s : State) (ip : Ip) : State :=
  { s.setLock ip none with outstanding := s.outstanding - 1 }

/-- The file is set up when the descriptor is there and the lock has been released. -/
theorem State.opened_eq {t : State} {fd : Fin NOFILE} (ht : t =
      (((s.setFile f { s.file f with ref := 1 }).setOfile p fd (some f)).setLock ip none)) :
    State.setOff (State.setFile { t with outstanding := t.outstanding - 1 } f
      (openFile ip omode (t.file f).ref)) f 0 = (s.ended ip).opened p fd f ip omode := by
  subst ht
  simp [State.opened, State.ended, State.setOff, State.setFile, State.setOfile, State.setLock]

/-- What `open` has when its tests are passed. -/
def AtOpening (p : Slot) (m : Mode) (c : Config) (R : Multiset Res) (k : Know) (ip : Ip)
    (omode : UInt32) (L : State → Prop) (s : State) : Prop :=
  At p m c ({.lock ip} + ({.ref k ip} + ({.op} + R))) s ∧ L s ∧
    (WantsRead omode → s.Grants (s.ino ip) R_OK) ∧ (WantsWrite omode → s.Grants (s.ino ip) W_OK)

section Open

variable (hk : WantsWrite omode → k = .file)
  (hN : ∀ s, L s → ¬ s.CanOpen p (s.icache ip).inum omode → N)
  (hK : ∀ s fd f, L s → s.CanOpen p (s.icache ip).inum omode →
    K ip ((s.ended ip).opened p fd f ip omode))
include hk hN hK

theorem openAlloc_at : Triple (Blame p c) (AtOpening p m c R k ip omode L) (openAlloc p ip omode)
      (AtOpened p m c R omode N K) := by
  have hbad : N → Triple (Blame p c) (At p m c ({.lock ip} + ({.ref k ip} + ({.op} + R))))
      (do iunlockput p ip; endOp; pure (-1)) (AtOpened p m c R omode N K) := fun h =>
    .bind iunlockput_at fun _ => .bind endOp_at fun _ => pure_opened_of_neg h
  refine .bind (Q := fun o t => ∃ s, AtOpening p m c R k ip omode L s ∧ (o = none → N) ∧
    Fileallocs s o t) (filealloc_rule (fun s h hf => ?_) fun s f h h0 => ⟨s, h, by simp, h0, rfl⟩)
    fun o => ?_
  · exact ⟨s, h, fun _ => hN s h.2.1 fun hc => hc.2.2.1.elim hf, rfl⟩
  cases o with
  | none =>
    rintro t ⟨s, h, hn, rfl⟩
    exact hbad (hn rfl) t h.1
  | some f =>
    refine .bind (Q := fun o t => ∃ s, AtOpening p m c R k ip omode L s ∧ (s.file f).ref = 0 ∧
      (o = none → N) ∧ Fdallocs p f (s.setFile f { s.file f with ref := 1 }) o t)
      (fdalloc_rule ?_ ?_) fun o => ?_
    · rintro t ⟨s, h, -, h0, rfl⟩ hfd
      exact ⟨s, h, h0, fun _ => hN s h.2.1 fun hc => hc.2.2.2.elim hfd, rfl⟩
    · rintro t fd ⟨s, h, -, h0, rfl⟩ hfd
      exact ⟨s, h, h0, by simp, hfd, rfl⟩
    · cases o with
      | none =>
        refine .bind (Q := fun _ s => N ∧ At p m c ({.lock ip} + ({.ref k ip} + ({.op} + R))) s) ?_
          fun _ => .of_and hbad
        rintro t ⟨s, h, h0, hn, rfl⟩
        exact fileclose_at.post (fun _ _ h => ⟨hn rfl, h⟩) _ (h.1.file (.new h0))
      | some fd =>
        refine .bind (Q := fun _ t => ∃ s, AtOpening p m c R k ip omode L s ∧ (s.file f).ref = 0 ∧
          s.ofile p fd = none ∧ t =
            ((s.setFile f { s.file f with ref := 1 }).setOfile p fd (some f)).setLock ip none)
          (iunlock_rule (fun _ _ _ => blame_of rfl) ?_) fun _ => ?_
        · rintro t ⟨s, h, h0, -, hfd, rfl⟩ - -
          exact ⟨s, h, h0, hfd, rfl⟩
        · refine .bind (Q := fun _ t => ∃ s, AtOpening p m c R k ip omode L s ∧
            (s.file f).ref = 0 ∧ s.ofile p fd = none ∧ ∃ u,
            u = ((s.setFile f { s.file f with ref := 1 }).setOfile p fd (some f)).setLock ip none ∧
            t = { u with outstanding := u.outstanding - 1 })
            (.writes ?_) fun _ => ?_
          · rintro t ⟨s, h, h0, hfd, ht⟩
            exact ⟨s, h, h0, hfd, t, ht, rfl⟩
          · refine .bind_pure (.writes ?_)
            rintro t ⟨s, ⟨h, hs, hr, hg⟩, h0, hfd, u, hu, rfl⟩
            have hunlock := h.lock .unlock
            rw [add_left_comm] at hunlock
            have hstep : FileStep p ({.ref k ip} + R, s.ended ip)
                (R, (s.ended ip).opened p fd f ip omode) :=
              .opened h0 hfd fun hwant => ⟨hg hwant, hk hwant⟩
            rw [State.opened_eq hu]
            refine ⟨(hunlock.lock .endOp).file hstep, .inr ⟨ip, ⟨fd, f, rfl, ?_, ?_⟩,
              hK s fd f hs ⟨hr, hg, ⟨f, h0⟩, fd, hfd⟩⟩⟩
            · simp [State.opened, State.setOfile, State.setOff]
            · simp [State.opened, State.setOfile, State.setOff, State.setFile]

theorem openChecked_at :
    Triple (Blame p c) (fun s => At p m c ({.lock ip} + ({.ref k ip} + ({.op} + R))) s ∧ L s)
      (openChecked p ip omode) (AtOpened p m c R omode N K) := by
  have hbad : Triple (Blame p c)
      (fun s => At p m c ({.lock ip} + ({.ref k ip} + ({.op} + R))) s ∧ L s ∧
        ¬ s.CanOpen p (s.icache ip).inum omode) (do iunlock p ip; endOp; pure (-1))
      (AtOpened p m c R omode N K) := by
    intro s h
    have hn := hN s h.2.1 h.2.2
    refine Triple.bind iunlock_at (fun _ => .bind (perm (add_left_comm ..) endOp_at) fun _ => ?_)
      s h.1
    exact .pure fun s h => ⟨h.cache .leak, .inl ⟨rfl, hn⟩⟩
  refine .reads_bind fun r => .reads_bind fun w => ?_
  refine .ite (fun hr => hbad.pre ?_) fun hr => ?_
  · rintro s ⟨⟨h, rfl⟩, rfl⟩
    exact ⟨h.1, h.2, fun hc => absurd (hc.1 hr.1) (of_decide_eq_false hr.2)⟩
  refine .ite (fun hw => hbad.pre ?_) fun hw => ?_
  · rintro s ⟨⟨h, rfl⟩, rfl⟩
    exact ⟨h.1, h.2, fun hc => absurd (hc.2.1 hw.1) (of_decide_eq_false hw.2)⟩
  refine (openAlloc_at hk hN hK).pre ?_
  rintro s ⟨⟨h, rfl⟩, rfl⟩
  refine ⟨h.1, h.2, fun hwant => ?_, fun hwant => ?_⟩
  · simpa [hwant] using hr
  · simpa [hwant] using hw

end Open

theorem openFound_at (hN : ∀ s, L s → ¬ s.Opens p (s.icache ip).inum omode → N)
    (hK : ∀ s fd f, L s → s.Opens p (s.icache ip).inum omode →
      K ip ((s.ended ip).opened p fd f ip omode)) :
    Triple (Blame p c) (fun s => At p m c ({.lock ip} + ({.ref .plain ip} + ({.op} + R))) s ∧
      (s.icache ip).valid = true ∧ L s) (openFound p ip omode) (AtOpened p m c R omode N K) := by
  refine .reads_bind fun st => .ite (fun hd => ?_) fun hd => ?_
  · rintro s ⟨⟨h, -, hs⟩, rfl⟩
    have hn := hN s hs fun ho => ho.1 hd
    exact Triple.bind iunlockput_at (fun _ => .bind endOp_at fun _ => pure_opened_of_neg hn) s h
  let L' : State → Prop := fun s => L s ∧ s.ino ip = st
  have hN' : ∀ s, L' s → ¬ s.CanOpen p (s.icache ip).inum omode → N := fun s h hc =>
    hN s h.1 fun ho => hc ho.2
  have hK' : ∀ s fd f, L' s → s.CanOpen p (s.icache ip).inum omode →
      K ip ((s.ended ip).opened p fd f ip omode) := by
    rintro s fd f ⟨h, rfl⟩ hc
    exact hK s fd f h ⟨hd, hc⟩
  by_cases hdir : st.type = some .T_DIR
  · -- a directory is only opened for reading
    have homode : omode = O_RDONLY := by simpa [hdir] using hd
    refine (openChecked_at (k := .plain) (fun hw => ?_) hN' hK').pre fun _ h =>
      ⟨h.1.1, h.1.2.2, h.2⟩
    rw [homode] at hw
    exact absurd hw (by decide)
  · refine (openChecked_at (k := .file) (fun _ => rfl) hN' hK').pre ?_
    rintro s ⟨⟨h, hv, hs⟩, rfl⟩
    rw [add_left_comm] at h ⊢
    exact ⟨h.cache (.notDir hv hdir), hs, rfl⟩

theorem sysOpen_at : Triple (Blame p c) (At p m c R) (sysOpen p path omode)
    (AtOpened p m c R omode True fun _ _ => True) := by
  have hend : Triple (Blame p c) (At p m c ({.op} + R)) (do endOp; pure (-1))
    (AtOpened p m c R omode True fun _ _ => True) :=
    .bind endOp_at fun _ => pure_opened_of_neg trivial
  refine .bind beginOp_at fun _ => .ite (fun _ => .bind create_at fun r => ?_) fun _ =>
    .bind namei_at fun r => ?_
  · cases r with
    | none => exact hend
    | some ip =>
      refine (openChecked_at (k := created .T_FILE) (fun _ => if_neg (by decide))
        (fun _ _ _ => trivial) fun _ _ _ _ _ => trivial).pre fun _ h => ⟨h, trivial⟩
  · cases r with
    | none => exact perm (zero_add _) hend
    | some ip =>
      refine .bind (ilock_rule (Q := fun _ s =>
        At p m c ({.lock ip} + ({.ref .plain ip} + ({.op} + R))) s ∧ (s.icache ip).valid = true ∧
          True) (fun _ _ _ => blame_of rfl) (fun _ _ _ => blame_of rfl)
        (fun _ _ _ _ _ => blame_of rfl) fun s h _ hl hv => ?_) fun _ =>
        openFound_at (L := fun _ => True) (fun _ _ _ => trivial) fun _ _ _ _ _ => trivial
      exact ⟨h.locked hl hv, by simp [State.locked, State.setEntry], trivial⟩

end Xv6.Sys
