import Xv6.Fs.Spec
import Xv6.Thread.Live

/-! # The references to inodes

`Counted t held s` says that every reference count of the inode cache is accounted for: by the files
in use, by the current directories, and by the references in the list `held`, which the system call
under way has taken and has to drop or to store. A function that takes a reference adds to `held`,
and one that drops a reference removes from it; none of them changes the process table `t`. -/

namespace Xv6.Fs

open Function Prog Thread

/-- A file in use that stands for the inode of an entry. -/
def File.uses (ip : Ip) (f : File) : Bool := 0 < f.ref ∧ f.type = .FD_INODE ip

/-- The number of files in use for the inode of an entry. -/
def State.files (s : State) (ip : Ip) : Int := Table.count (File.uses ip) s.file

/-- The number of processes in the directory of an entry. -/
def State.cwds (s : State) (ip : Ip) : Int := Table.count (fun c => decide (c = some ip)) s.cwd

structure Counted (t : Ptable) (held : List Ip) (s : State) : Prop where
  tab : s.tab = t
  ref : ∀ ip, (s.icache ip).ref = s.files ip + s.cwds ip + held.count ip
  closed : ∀ f, (s.file f).ref ≤ 0 → (s.file f).type = .FD_NONE
  live : ∀ p, s.cwd p ≠ none → Live (t.proc p).state

variable {ip : Ip}

namespace Counted

theorem perm (h : Counted t l s) (hl : l.Perm l') : Counted t l' s :=
  ⟨h.tab, fun ip => by rw [h.ref, hl.count_eq], h.closed, h.live⟩

/-- A change of an entry is matched in `held`. -/
theorem setEntry (h : Counted t l s) (hl : ∀ x, (l'.count x : Int) =
    l.count x + if ip = x then v.ref - (s.icache ip).ref else 0) :
    Counted t l' (s.setEntry ip v) := by
  refine ⟨h.tab, fun x => ?_, h.closed, h.live⟩
  change (update s.icache ip v x).ref = s.files x + s.cwds x + _
  rw [hl]
  by_cases hx : ip = x
  · subst hx
    have := h.ref ip
    simp only [update_self, if_true]
    omega
  · rw [update_of_ne (Ne.symm hx), h.ref, if_neg hx]
    omega

theorem count_cons_eq (ip : Ip) (l : List Ip) (x : Ip) :
    ((ip :: l).count x : Int) = l.count x + Table.ind (ip = x) := by
  rw [List.count_cons]
  by_cases h : ip = x
  · simp [h]
  · simp [h]

theorem addRef (h : Counted t l s) :
    Counted t (ip :: l) (s.setEntry ip ⟨inum, (s.icache ip).ref + 1, v⟩) := by
  refine h.setEntry fun x => ?_
  simp only [count_cons_eq, Table.ind, decide_eq_true_eq]
  split <;> omega

theorem dropRef (h : Counted t (ip :: l) s) :
    Counted t l (s.setEntry ip ⟨inum, (s.icache ip).ref - 1, v⟩) := by
  refine h.setEntry fun x => ?_
  simp only [count_cons_eq, Table.ind, decide_eq_true_eq]
  split <;> omega

/-- The inodes do not matter. -/
theorem setIno (h : Counted t l s) : Counted t l (s.setIno ip v) := ⟨h.1, h.2, h.3, h.4⟩

theorem setOfile (h : Counted t l s) : Counted t l (s.setOfile p fd v) := ⟨h.1, h.2, h.3, h.4⟩

/-- A change of a file is matched in `held`. -/
theorem setFile (h : Counted t l s) (hv : v.ref ≤ 0 → v.type = .FD_NONE)
    (hl : ∀ x, (l'.count x : Int) + Table.ind (v.uses x) =
      l.count x + Table.ind ((s.file f).uses x)) : Counted t l' (s.setFile f v) := by
  refine ⟨h.tab, fun x => ?_, fun g => ?_, h.live⟩
  · change (s.icache x).ref = Table.count _ (update s.file f v) + s.cwds x + _
    have := h.ref x
    have := hl x
    rw [Table.count_update]
    simp only [State.files] at *
    omega
  · change (update s.file f v g).ref ≤ 0 → (update s.file f v g).type = _
    by_cases hg : g = f
    · subst hg
      rwa [update_self]
    · rw [update_of_ne hg]
      exact h.closed g

/-- A file stays in use. -/
theorem setFile_ref (h : Counted t l s) (hf : 0 < (s.file f).ref) (hn : 0 < n) :
    Counted t l (s.setFile f { s.file f with ref := n }) := by
  refine h.setFile (fun hn' => absurd hn' (not_le.mpr hn)) fun x => ?_
  simp [File.uses, hf, hn]

/-- A change of a current directory is matched in `held`. -/
theorem setCwd (h : Counted t l s) (hv : v ≠ none → Live (t.proc p).state)
    (hl : ∀ x, (l'.count x : Int) + Table.ind (v = some x) =
      l.count x + Table.ind (s.cwd p = some x)) : Counted t l' (s.setCwd p v) := by
  refine ⟨h.tab, fun x => ?_, h.closed, fun q => ?_⟩
  · change (s.icache x).ref = s.files x + Table.count _ (update s.cwd p v) + _
    have := h.ref x
    have := hl x
    rw [Table.count_update]
    simp only [State.cwds] at *
    omega
  · change update s.cwd p v q ≠ none → Live (t.proc q).state
    by_cases hq : q = p
    · subst hq
      rwa [update_self]
    · rw [update_of_ne hq]
      exact h.live q

theorem setTab (h : Counted t l s)
    (hu : ∀ q, s.cwd q ≠ none → Live (t.proc q).state → Live (u.proc q).state) :
    Counted u l (s.setTab u) := ⟨rfl, h.ref, h.closed, fun q hq => hu q hq (h.live q hq)⟩

end Counted

/-! ## The inode cache -/

theorem iget_counted : Triple (Counted t l) (iget inum) fun ip => Counted t (ip :: l) := by
  intro s ip s' h hrun
  obtain ⟨v, rfl⟩ := iget_eq_some hrun
  exact h.addRef

theorem idup_counted :
    Triple (Counted t l) (idup ip) fun r s => r = ip ∧ Counted t (ip :: l) s := by
  refine .bind (.writes fun s h => ?_) fun _ => .pure fun s h => ⟨rfl, h⟩
  exact h.addRef

theorem ilock_counted : Triple (Counted t l) (ilock ip) fun _ => Counted t l := by
  refine .bind (.check) fun _ => .writes fun s h => ?_
  exact h.1.setEntry fun x => by simp

/-- What an inode is and grants is kept by `ilock`. -/
theorem ilock_ino (P : Name → Inode → Prop) : Triple (fun s => P s.whoami (s.ino ip')) (ilock ip)
    fun _ s => P s.whoami (s.ino ip') := by
  intro s u s' h hrun
  have hl := ilock_eq_some hrun
  rwa [hl.ino, hl.whoami]

theorem iunlock_keeps : Triple P (iunlock ip) fun _ => P :=
  Triple.check.post fun _ _ => And.left

theorem iput_counted : Triple (Counted t (ip :: l)) (iput ip) fun _ => Counted t l := by
  intro s u s' h hrun
  obtain ⟨v, rfl | rfl⟩ := iput_eq_some hrun
  · exact h.dropRef
  · exact h.setIno.dropRef

theorem iunlockput_counted : Triple (Counted t (ip :: l)) (iunlockput ip) fun _ => Counted t l :=
  .bind iunlock_keeps fun _ => iput_counted

theorem ialloc_counted : Triple (Counted t l) (ialloc type) fun ip => Counted t (ip :: l) := by
  intro s ip s' h hrun
  obtain ⟨inum, v, rfl⟩ := ialloc_eq_some hrun
  exact Counted.addRef (s := s.setInode inum _) ⟨h.1, h.2, h.3, h.4⟩

theorem setIno_counted {g : State → Inode} :
    Triple (Counted t l) (writes fun s => s.setIno ip (g s)) fun _ => Counted t l :=
  .writes fun _ h => h.setIno

/-- What is kept by the functions on paths, files and processes when it is kept by those on the
inode cache. `K t l` is said of a state in which the references in `l` are held; it depends on their
number, the inodes and the inode cache only. -/
structure Ledger (K : Ptable → List Ip → State → Prop) : Prop where
  exists_counted : K t l s → ∃ m, Counted t (l ++ m) s
  congr : K t l s → (∀ m, Counted t (l ++ m) s → Counted u (l' ++ m) s') → s'.inode = s.inode →
    s'.icache = s.icache → K u l' s'
  iget : Triple (K t l) (iget inum) fun ip => K t (ip :: l)
  idup {ip : Ip} : Triple (fun s => K t l s ∧ s.cwd p = some ip) (idup ip)
    fun r s => r = ip ∧ K t (ip :: l) s
  ilock {ip : Ip} : Triple (K t l) (ilock ip) fun _ => K t l
  iput {ip : Ip} : Triple (K t (ip :: l)) (iput ip) fun _ => K t l

/-- The references alone. -/
theorem Ledger.refs : Ledger Counted where
  exists_counted h := ⟨[], by rwa [List.append_nil]⟩
  congr h hc _ _ := by simpa using hc [] (by simpa using h)
  iget := iget_counted
  idup := idup_counted.pre fun _ => And.left
  ilock := ilock_counted
  iput := iput_counted

section

variable {K : Ptable → List Ip → State → Prop} (hK : Ledger K)

include hK

theorem Ledger.iunlockput : Triple (K t (ip :: l)) (iunlockput ip) fun _ => K t l :=
  .bind iunlock_keeps fun _ => hK.iput

/-- The reference to drop is not the last one taken. -/
theorem Ledger.iunlockput_second : Triple (K t (ip' :: ip :: l)) (Fs.iunlockput ip)
    fun _ => K t (ip' :: l) :=
  hK.iunlockput.pre fun _ h => hK.congr h (fun _ hc => hc.perm (.swap ..)) rfl rfl

/-! ## Directories and paths -/

theorem dirlookup_ledger :
    Triple (K t l) (dirlookup dp name) fun r => K t (r.elim l (·.1 :: l)) := by
  intro s r s' h hrun
  have hd := (dirlookup_eq_some hrun).2
  rcases r with _ | ⟨ip, off⟩
  · exact hd.1 ▸ h
  · exact hK.iget _ _ _ h hd.2

/-- The loop of `namex` holds one reference, to the directory it has come to. -/
theorem namexLoop_ledger : Triple (K t (ip :: l))
    (namexLoop p parent ip path) fun r => K t (r.elim l (·.1 :: l)) := by
  induction path generalizing ip with
  | nil =>
    refine .ite (fun _ => ?_) fun _ => .pure fun _ => id
    exact .bind_pure hK.iput
  | cons name path ih =>
    have hput : Triple (K t (ip :: l)) (do iunlockput ip; pure none : Kernel (Option (Ip × Name)))
        fun r => K t (r.elim l (·.1 :: l)) :=
      .bind_pure hK.iunlockput
    refine .bind hK.ilock fun _ => .read fun d => .read fun pid => .read fun ok => ?_
    refine .ite (fun _ => hput) fun _ => .ite (fun _ => hput) fun _ => ?_
    refine .ite (fun _ => ?_) fun _ => ?_
    · exact .bind_pure iunlock_keeps
    · refine .bind (dirlookup_ledger hK) fun r => ?_
      rcases r with _ | ⟨next, off⟩
      · exact hput
      · exact .bind hK.iunlockput_second fun _ => ih

theorem namex_ledger :
    Triple (K t l) (namex p path parent) fun r => K t (r.elim l (·.1 :: l)) := by
  refine .ite (fun _ => .bind hK.iget fun ip => namexLoop_ledger hK) fun _ =>
    .reads_bind fun c => ?_
  cases c with
  | some cwd =>
    refine .bind hK.idup fun ip => ?_
    exact (namexLoop_ledger hK).pre fun s h => h.1 ▸ h.2
  | none => exact .ite (fun _ => .pure fun _ => And.left) fun _ => .stop

theorem namei_ledger : Triple (K t l) (namei p path) fun r => K t (r.elim l (· :: l)) := by
  refine .bind (namex_ledger hK) fun r => .pure fun s h => ?_
  cases r with
  | none | some => exact h

theorem nameiparent_ledger :
    Triple (K t l) (nameiparent p path) fun r => K t (r.elim l (·.1 :: l)) :=
  namex_ledger hK

end

theorem dirlink_counted : Triple (Counted t l) (dirlink dp name inum) fun _ => Counted t l := by
  refine .bind (dirlookup_ledger .refs) fun r => ?_
  rcases r with _ | ⟨ip, off⟩
  · exact .bind_pure setIno_counted
  · exact .bind_pure iput_counted

/-! ## The file table -/

/-- A file that `filealloc` has given out. -/
def Fresh (f : Fin NFILE) (s : State) : Prop := 0 < (s.file f).ref ∧ (s.file f).type = .FD_NONE

/-- The reference that a file of the type has held. -/
def FileType.held (l : List Ip) : FileType → List Ip
  | .FD_INODE ip => ip :: l
  | _ => l

theorem FileType.held_append {ty : FileType} : ty.held (l ++ m) = ty.held l ++ m := by
  cases ty <;> rfl

/-- A file gives back its reference. -/
theorem Counted.closeFile (h : Counted t l s) (hf : 0 < (s.file f).ref) :
    Counted t ((s.file f).type.held l)
      (s.setFile f { s.file f with ref := 0, type := .FD_NONE }) := by
  refine h.setFile (fun _ => rfl) fun x => ?_
  cases ht : (s.file f).type with
  | FD_INODE ip => simp [FileType.held, File.uses, ht, hf, Counted.count_cons_eq]
  | FD_NONE | FD_PIPE => simp [FileType.held, File.uses, ht]

/-- The reference that is held becomes that of the file that `open` makes. -/
theorem Counted.openFile (h : Counted t (ip :: l) s) (hf : Fresh f s) :
    Counted t l (s.setFile f (Fs.openFile ip omode (s.file f).ref)) := by
  obtain ⟨hr, hnone⟩ := hf
  refine h.setFile (fun hr' => absurd hr' (not_le.mpr hr)) fun x => ?_
  simp [File.uses, Fs.openFile, hr, hnone, Counted.count_cons_eq]

section

variable {K : Ptable → List Ip → State → Prop} (hK : Ledger K)

include hK

theorem Ledger.setOfile (h : K t l s) : K t l (s.setOfile p fd v) :=
  hK.congr h (fun _ hc => hc.setOfile) rfl rfl

theorem filealloc_ledger :
    Triple (K t l) filealloc fun r s => K t l s ∧ ∀ f ∈ r, Fresh f s := by
  intro s r s' h hrun
  have hf := filealloc_eq_some hrun
  cases r with
  | none => exact ⟨hf.1 ▸ h, nofun⟩
  | some f =>
    obtain ⟨h0, rfl⟩ := hf
    obtain ⟨m, hc⟩ := hK.exists_counted h
    have hnone : (s.file f).type = .FD_NONE := hc.closed f h0.le
    refine ⟨hK.congr h (fun m hc => hc.setFile (fun _ => hnone) fun x => ?_) rfl rfl, ?_⟩
    · simp [File.uses, hnone]
    · rintro _ ⟨⟩
      simp [Fresh, State.setFile, hnone]

theorem filedup_ledger : Triple (K t l) (filedup f) fun _ => K t l := by
  refine .bind .check fun _ => .writes ?_
  rintro s ⟨h, h1⟩
  exact hK.congr h (fun _ hc => hc.setFile_ref h1 (Int.lt_add_one_of_le (Int.le_of_lt h1))) rfl rfl

theorem fileclose_ledger : Triple (K t l) (fileclose f) fun _ => K t l := by
  refine .bind .check fun _ => .reads_bind fun v => .ite (fun hv => .writes ?_) fun hv => ?_
  · rintro s ⟨⟨h, h1⟩, rfl⟩
    exact hK.congr h (fun _ hc => hc.setFile_ref h1 hv) rfl rfl
  · refine .bind (Q := fun _ => K t (v.type.held l)) (.writes ?_) fun _ => ?_
    · rintro s ⟨⟨h, h1⟩, rfl⟩
      exact hK.congr h (fun _ hc => FileType.held_append ▸ hc.closeFile h1) rfl rfl
    · cases v.type with
      | FD_INODE ip => exact hK.iput
      | FD_NONE | FD_PIPE => exact .pure fun _ => id

end

theorem fdalloc_keeps (hP : ∀ s fd, P s → P (s.setOfile p fd (some f))) :
    Triple P (fdalloc p f) fun _ => P := by
  intro s r s' h hrun
  have hd := fdalloc_eq_some hrun
  cases r with
  | none => exact hd.1 ▸ h
  | some fd => exact hd.2 ▸ hP s fd h

end Xv6.Fs
