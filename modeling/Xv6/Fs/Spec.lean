import Xv6.Fs.Sysfile

/-! # What the functions of the file system do

For each function of the inode and file layers, the state it leaves. -/

namespace Xv6.Fs

open Prog Thread

variable {s s' : State} {ip ip' : Ip} {u : Unit}

/-! ## The inode cache -/

theorem ino_setEntry (h : v.inum = (s.icache ip).inum) : (s.setEntry ip v).ino ip' = s.ino ip' := by
  simp only [State.ino, State.setEntry, Function.update_apply]
  split
  · next e => rw [e, h]
  · rfl

/-- What `ilock` leaves as it is. -/
structure Locked (ip : Ip) (s s' : State) : Prop where
  ref : 1 ≤ (s'.icache ip).ref
  ino : s'.ino = s.ino
  whoami : s'.whoami = s.whoami

theorem ilock_eq_some (h : ilock ip s = some (u, s')) : Locked ip s s' := by
  simp only [ilock, bind_eq_some, check_eq_some, writes_eq_some] at h
  obtain ⟨_, _, ⟨⟨hr, -⟩, rfl⟩, rfl⟩ := h
  refine ⟨?_, funext fun _ => ino_setEntry rfl, rfl⟩
  simpa [State.setEntry] using hr

/-- `iget` counts a reference in the entry for the inode, or takes a free entry if there is none. -/
theorem iget_cases (h : iget inum s = some (ip, s')) :
    (0 < (s.icache ip).ref ∧ (s.icache ip).inum = inum ∧
      s' = s.setEntry ip { s.icache ip with ref := (s.icache ip).ref + 1 }) ∨
    ((s.icache ip).ref = 0 ∧ (∀ x, 0 < (s.icache x).ref → (s.icache x).inum ≠ inum) ∧
      s' = s.setEntry ip ⟨inum, 1, false⟩) := by
  simp only [iget, bind_eq_some, reads_eq_some] at h
  obtain ⟨_, _, ⟨rfl, rfl⟩, h⟩ := h
  cases hf : (List.finRange NINODE).find? fun ip =>
      decide ((s.icache ip).ref > 0 ∧ (s.icache ip).inum = inum) with
  | some e =>
    simp only [hf, bind_eq_some, writes_eq_some, pure_eq_some] at h
    obtain ⟨_, _, rfl, rfl, rfl⟩ := h
    have hfound := List.find?_some hf
    simp only [decide_eq_true_eq] at hfound
    exact .inl ⟨hfound.1, hfound.2, rfl⟩
  | none =>
    simp only [hf] at h
    cases hf' : (List.finRange NINODE).find? fun ip => decide ((s.icache ip).ref = 0) with
    | some e =>
      simp only [hf', bind_eq_some, writes_eq_some, pure_eq_some] at h
      obtain ⟨_, _, rfl, rfl, rfl⟩ := h
      exact .inr ⟨by simpa using List.find?_some hf', by simpa using hf, rfl⟩
    | none => simp [hf'] at h

theorem iget_eq_some (h : iget inum s = some (ip, s')) :
    ∃ v, s' = s.setEntry ip ⟨inum, (s.icache ip).ref + 1, v⟩ := by
  obtain ⟨-, e, rfl⟩ | ⟨e, -, rfl⟩ := iget_cases h
  · exact ⟨(s.icache ip).valid, by rw [← e]⟩
  · exact ⟨false, by rw [e]; rfl⟩

/-- `iput` drops the last reference to an inode without links and frees it, or drops a reference and
leaves the inodes alone. -/
theorem iput_cases (h : iput ip s = some (u, s')) : ((s.ino ip).nlink = 0 ∧ (s.icache ip).ref = 1 ∧
      s' = (s.setIno ip { s.ino ip with type := none, entries := [] }).setEntry ip
        ⟨(s.icache ip).inum, 0, false⟩) ∨
    s' = s.setEntry ip { s.icache ip with ref := (s.icache ip).ref - 1 } := by
  simp only [iput, bind_eq_some, writes_eq_some] at h
  obtain ⟨_, _, rfl, rfl⟩ := h
  split
  · next hc =>
    refine .inl ⟨hc.2.1, hc.2.2, ?_⟩
    simp [State.free, State.setEntry, State.setIno, State.setInode, hc.2.2]
  · exact .inr rfl

theorem iput_eq_some (h : iput ip s = some (u, s')) : ∃ v,
    s' = s.setEntry ip ⟨(s.icache ip).inum, (s.icache ip).ref - 1, v⟩ ∨
    s' = (s.setIno ip { s.ino ip with type := none, entries := [] }).setEntry ip
      ⟨(s.icache ip).inum, (s.icache ip).ref - 1, v⟩ := by
  obtain ⟨-, e, rfl⟩ | rfl := iput_cases h
  · exact ⟨false, .inr (by rw [e]; rfl)⟩
  · exact ⟨_, .inl rfl⟩

theorem iunlockput_eq_some (h : iunlockput ip s = some (u, s')) : iput ip s = some (u, s') := by
  simp only [iunlockput, iunlock, bind_eq_some, check_eq_some] at h
  obtain ⟨_, _, ⟨-, rfl⟩, h⟩ := h
  exact h

theorem ino_setIno_self : (s.setIno ip v).ino ip = v := Function.update_self ..

theorem ino_setIno_of_ne (h : (s.icache ip').inum ≠ (s.icache ip).inum) :
    (s.setIno ip v).ino ip' = s.ino ip' := Function.update_of_ne h ..

/-- `iput` leaves the other inodes alone. -/
theorem iput_ino (h : iput ip s = some (u, s'))
    (hne : (s.icache ip').inum ≠ (s.icache ip).inum) : s'.ino ip' = s.ino ip' := by
  obtain ⟨v, rfl | rfl⟩ := iput_eq_some h
  · exact ino_setEntry rfl
  · rw [ino_setEntry (by rfl), ino_setIno_of_ne hne]

theorem iput_whoami (h : iput ip s = some (u, s')) : s'.whoami = s.whoami := by
  obtain ⟨v, rfl | rfl⟩ := iput_eq_some h <;> rfl

/-- `ialloc` takes a free inode. -/
theorem ialloc_cases (h : ialloc type s = some (ip, s')) :
    ∃ inum, 1 ≤ inum ∧ inum < NINODES ∧ (s.inode inum).type = none ∧
      iget inum (s.setInode inum ⟨some type, 0, 0, [], []⟩) = some (ip, s') := by
  simp only [ialloc, bind_eq_some, reads_eq_some] at h
  obtain ⟨_, _, ⟨rfl, rfl⟩, h⟩ := h
  cases hf : (List.range' 1 (NINODES - 1)).find? fun inum =>
      decide ((s.inode inum).type = none) with
  | some inum =>
    simp only [hf, bind_eq_some, writes_eq_some] at h
    obtain ⟨_, _, rfl, h⟩ := h
    have hmem := List.mem_range'_1.mp (List.mem_of_find?_eq_some hf)
    exact ⟨inum, hmem.1, hmem.2, by simpa using List.find?_some hf, h⟩
  | none => simp [hf] at h

/-- `ialloc` gives an inode of the type. -/
theorem ialloc_eq_some (h : ialloc type s = some (ip, s')) :
    ∃ inum v, s' = (s.setInode inum ⟨some type, 0, 0, [], []⟩).setEntry ip
      ⟨inum, (s.icache ip).ref + 1, v⟩ := by
  obtain ⟨inum, -, -, -, h⟩ := ialloc_cases h
  obtain ⟨v, rfl⟩ := iget_eq_some h
  exact ⟨inum, v, rfl⟩

/-! ## Directories -/

/-- `dirlookup` counts a reference for what it finds. -/
theorem dirlookup_eq_some (h : dirlookup dp name s = some (r, s')) : (s.ino dp).type = some .T_DIR ∧
      match r with
      | none => s' = s ∧ (s.ino dp).lookup name = none
      | some (ip, off) => (s.ino dp).lookup name = some off ∧
          iget ((s.ino dp).entries[off]?.elim 0 Dirent.inum) s = some (ip, s') := by
  simp only [dirlookup, bind_eq_some, check_eq_some, reads_eq_some] at h
  obtain ⟨_, _, ⟨hdir, rfl⟩, _, _, ⟨rfl, rfl⟩, h⟩ := h
  refine ⟨hdir, ?_⟩
  cases hl : (s.ino dp).lookup name with
  | none =>
    simp only [hl, pure_eq_some] at h
    obtain ⟨rfl, rfl⟩ := h
    exact ⟨rfl, rfl⟩
  | some off =>
    simp only [hl, bind_eq_some, pure_eq_some] at h
    obtain ⟨ip, _, hi, rfl, rfl⟩ := h
    exact ⟨rfl, hi⟩

/-- `dirlink` adds an entry to a directory that does not have the name. -/
theorem dirlink_eq_true (h : dirlink dp name inum s = some (true, s')) :
    (s.ino dp).type = some .T_DIR ∧ (s.ino dp).lookup name = none ∧
      s' = s.setIno dp { s.ino dp with
        entries := addEntry (s.ino dp).entries ⟨inum, name.take DIRSIZ⟩ } := by
  simp only [dirlink, bind_eq_some] at h
  obtain ⟨r, _, hd, h⟩ := h
  have hd := dirlookup_eq_some hd
  cases r with
  | none =>
    obtain ⟨hdir, rfl, hl⟩ := hd
    simp only [bind_eq_some, writes_eq_some, pure_eq_some, true_and] at h
    obtain ⟨_, _, rfl, rfl⟩ := h
    exact ⟨hdir, hl, rfl⟩
  | some r =>
    simp only [bind_eq_some, pure_eq_some] at h
    obtain ⟨_, _, -, e, -⟩ := h
    cases e

theorem mustLink_eq_some (h : mustLink dp name inum s = some (u, s')) :
    dirlink dp name inum s = some (true, s') := by
  simp only [mustLink, bind_eq_some] at h
  obtain ⟨r, _, hl, h⟩ := h
  cases r with
  | true =>
    obtain ⟨-, rfl⟩ := pure_eq_some.mp h
    exact hl
  | false => simp at h

/-! ## The file table -/

theorem filealloc_eq_some (h : filealloc s = some (r, s')) : match r with
    | some f => (s.file f).ref = 0 ∧ s' = s.setFile f { s.file f with ref := 1 }
    | none => s' = s ∧ ∀ f, (s.file f).ref ≠ 0 := by
  simp only [filealloc, bind_eq_some, reads_eq_some] at h
  obtain ⟨_, _, ⟨rfl, rfl⟩, h⟩ := h
  cases hf : (List.finRange NFILE).find? fun f => decide ((s.file f).ref = 0) with
  | some f =>
    simp only [hf, bind_eq_some, writes_eq_some, pure_eq_some] at h
    obtain ⟨_, _, rfl, rfl, rfl⟩ := h
    exact ⟨by simpa using List.find?_some hf, rfl⟩
  | none =>
    simp only [hf, pure_eq_some] at h
    obtain ⟨rfl, rfl⟩ := h
    exact ⟨rfl, by simpa using hf⟩

theorem fdalloc_eq_some (h : fdalloc p f s = some (r, s')) : match r with
    | some fd => s.ofile p fd = none ∧ s' = s.setOfile p fd (some f)
    | none => s' = s ∧ ∀ fd, s.ofile p fd ≠ none := by
  simp only [fdalloc, bind_eq_some, reads_eq_some] at h
  obtain ⟨_, _, ⟨rfl, rfl⟩, h⟩ := h
  cases hfd : (List.finRange NOFILE).find? fun fd => decide (s.ofile p fd = none) with
  | some fd =>
    simp only [hfd, bind_eq_some, writes_eq_some, pure_eq_some] at h
    obtain ⟨_, _, rfl, rfl, rfl⟩ := h
    exact ⟨by simpa using List.find?_some hfd, rfl⟩
  | none =>
    simp only [hfd, pure_eq_some] at h
    obtain ⟨rfl, rfl⟩ := h
    exact ⟨rfl, by simpa using hfd⟩

/-- `filealloc` and `fdalloc` never stop. -/
theorem filealloc_run (s : State) : ∃ r t, filealloc s = some (r, t) := by
  simp only [filealloc, bind_eq_some, reads_eq_some]
  cases hf : (List.finRange NFILE).find? fun f => decide ((s.file f).ref = 0) with
  | some | none => exact ⟨_, _, _, _, ⟨rfl, rfl⟩, by rw [hf]; rfl⟩

theorem fdalloc_run (p : Slot) (f : Fin NFILE) (s : State) :
    ∃ r t, fdalloc p f s = some (r, t) := by
  simp only [fdalloc, bind_eq_some, reads_eq_some]
  cases hf : (List.finRange NOFILE).find? fun fd => decide (s.ofile p fd = none) with
  | some | none => exact ⟨_, _, _, _, ⟨rfl, rfl⟩, by rw [hf]; rfl⟩

end Xv6.Fs
