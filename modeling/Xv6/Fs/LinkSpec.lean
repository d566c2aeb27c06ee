import Xv6.Fs.Counted
import Xv6.Fs.Links

/-! # The tree of inodes and the inode cache

`Sane` says that the link counts are right and that the inode cache has one entry for an inode in
use, and keeps account of the references that the system call under way holds and of the inodes
they are for. The functions below the system calls change the tree only when `iput` frees an inode
that nothing refers to. -/

namespace Xv6.Fs

open Function Prog Thread LinkTree

/-- The inodes satisfy `T`, and the inode cache has one entry for an inode in use. -/
structure Good (T : (Nat → Inode) → Prop) (s : State) : Prop where
  inodes : T s.inode
  uniq : ∀ x y, 0 < (s.icache x).ref → 0 < (s.icache y).ref →
    (s.icache x).inum = (s.icache y).inum → x = y
  valid : ∀ x, 0 < (s.icache x).ref → (s.icache x).valid = true → (s.ino x).type ≠ none

/-- `T` is kept when an inode without links becomes free. -/
def Frees (T : (Nat → Inode) → Prop) : Prop :=
  ∀ inode d, T inode → (inode d).nlink = 0 →
    T (update inode d { inode d with type := none, entries := [] })

variable {s : State} {i : Nat} {ip : Ip} {x : Inode}

namespace Good

theorem congr (h : Good T s) (hi : s'.inode = s.inode) (hc : s'.icache = s.icache) : Good T s' := by
  have hino : s'.ino = s.ino := by
    funext x
    rw [State.ino, hi, hc]
    rfl
  exact ⟨hi ▸ h.inodes, hc ▸ h.uniq, by rw [hino, hc]; exact h.valid⟩

/-- An entry changes that is the only one in use for its inode, or is not in use. -/
theorem setEntry (h : Good T s)
    (hu : 0 < v.ref → ∀ x, x ≠ ip → 0 < (s.icache x).ref → (s.icache x).inum ≠ v.inum)
    (hv : 0 < v.ref → v.valid = true → (s.inode v.inum).type ≠ none) :
    Good T (s.setEntry ip v) := by
  have hself : (s.setEntry ip v).icache ip = v := update_self ..
  have hother : ∀ x, x ≠ ip → (s.setEntry ip v).icache x = s.icache x :=
    fun x e => update_of_ne e ..
  refine ⟨h.inodes, fun x y hx hy hxy => ?_, fun x hx hvx => ?_⟩
  · by_cases ex : x = ip <;> by_cases ey : y = ip
    · rw [ex, ey]
    · rw [ex, hself] at hx hxy
      rw [hother y ey] at hy hxy
      exact absurd hxy.symm (hu hx y ey hy)
    · rw [ey, hself] at hy hxy
      rw [hother x ex] at hx hxy
      exact absurd hxy (hu hy x ex hx)
    · rw [hother x ex] at hx hxy
      rw [hother y ey] at hy hxy
      exact h.uniq x y hx hy hxy
  · change (s.inode ((s.setEntry ip v).icache x).inum).type ≠ none
    by_cases e : x = ip
    · rw [e, hself] at hx hvx ⊢
      exact hv hx hvx
    · rw [hother x e] at hx hvx ⊢
      exact h.valid x hx hvx

/-- An entry in use is the only one for its inode. -/
theorem only (h : Good T s) (hr : 0 < (s.icache ip).ref) (x : Ip) (e : x ≠ ip)
    (hx : 0 < (s.icache x).ref) : (s.icache x).inum ≠ (s.icache ip).inum :=
  fun hi => e (h.uniq x ip hx hr hi)

/-- A reference is counted in an entry in use, or dropped. -/
theorem setRef (h : Good T s) (hr : 0 < r → 0 < (s.icache ip).ref) :
    Good T (s.setEntry ip { s.icache ip with ref := r }) :=
  h.setEntry (fun h0 => h.only (hr h0)) fun h0 => h.valid ip (hr h0)

/-- An inode in use changes. -/
theorem setInode (h : Good T s) (hT : T' (update s.inode i x)) (hx : x.type ≠ none) :
    Good T' (s.setInode i x) := by
  refine ⟨hT, h.uniq, fun y hy hv => ?_⟩
  change (update s.inode i x (s.icache y).inum).type ≠ none
  by_cases e : (s.icache y).inum = i
  · rw [e, update_self]
    exact hx
  · rw [update_of_ne e]
    exact h.valid y hy hv

/-- The last reference to an inode without links is dropped. -/
theorem free (h : Good T s) (hT : Frees T) (hn : (s.ino ip).nlink = 0)
    (hr : (s.icache ip).ref = 1) :
    Good T ((s.setIno ip { s.ino ip with type := none, entries := [] }).setEntry ip
      ⟨(s.icache ip).inum, 0, false⟩) := by
  have hin : ∀ x, 0 < (update s.icache ip ⟨(s.icache ip).inum, 0, false⟩ x).ref →
      x ≠ ip ∧ update s.icache ip ⟨(s.icache ip).inum, 0, false⟩ x = s.icache x := by
    intro x hx
    have e : x ≠ ip := by
      rintro rfl
      rw [update_self] at hx
      exact lt_irrefl _ hx
    exact ⟨e, update_of_ne e ..⟩
  refine ⟨hT _ _ h.inodes hn, fun x y hx hy hxy => ?_, fun x hx hv => ?_⟩
  · have hx' := (hin x hx).2
    have hy' := (hin y hy).2
    change 0 < (update s.icache ip _ x).ref at hx
    change 0 < (update s.icache ip _ y).ref at hy
    change (update s.icache ip _ x).inum = (update s.icache ip _ y).inum at hxy
    rw [hx'] at hx hxy
    rw [hy'] at hy hxy
    exact h.uniq x y hx hy hxy
  · obtain ⟨e, hx'⟩ := hin x hx
    change 0 < (update s.icache ip _ x).ref at hx
    change (update s.icache ip _ x).valid = true at hv
    change (update s.inode _ _ (update s.icache ip _ x).inum).type ≠ none
    rw [hx'] at hx hv ⊢
    -- no other entry stands for the inode
    rw [update_of_ne (h.only (by omega) x e hx)]
    exact h.valid x hx hv

end Good

/-- The references in `l` are held, each for the inode with the number, and all is `Good`. -/
structure Sane (t : Ptable) (l : List (Ip × Nat)) (T : (Nat → Inode) → Prop) (s : State) :
    Prop where
  counted : Counted t (l.map Prod.fst) s
  pinned : ∀ x ∈ l, (s.icache x.1).inum = x.2
  good : Good T s

namespace Sane

theorem weaken (h : Sane t l T s) (hT : ∀ inode, T inode → T' inode) : Sane t l T' s :=
  ⟨h.counted, h.pinned, hT _ h.good.inodes, h.good.uniq, h.good.valid⟩

/-- What the inodes are is known. -/
theorem exact (h : Sane t l T s) : Sane t l (· = s.inode) s :=
  ⟨h.counted, h.pinned, rfl, h.good.uniq, h.good.valid⟩

theorem ref_pos (h : Sane t l T s) {x : Ip × Nat} (hx : x ∈ l) : 0 < (s.icache x.1).ref := by
  have hc : 0 < (l.map Prod.fst).count x.1 := List.count_pos_iff.mpr (List.mem_map_of_mem hx)
  have h₁ := Table.count_nonneg (File.uses x.1) s.file
  have h₂ := Table.count_nonneg (fun c => decide (c = some x.1)) s.cwd
  rw [h.counted.ref, State.files, State.cwds]
  omega

/-- The entry of a current directory is in use. -/
theorem cwd_pos (h : Sane t l T s) (hp : s.cwd p = some ip) : 0 < (s.icache ip).ref := by
  have h₁ := Table.count_nonneg (File.uses ip) s.file
  have h₂ : 0 < s.cwds ip := Table.count_pos (i := p) (by simp [hp])
  rw [h.counted.ref, State.files]
  omega

theorem congr (h : Sane t l T s) (hc : Counted u (l'.map Prod.fst) s')
    (hl : ∀ x ∈ l', x ∈ l ∨ x.2 = (s.icache x.1).inum) (hi : s'.inode = s.inode)
    (he : s'.icache = s.icache) : Sane u l' T s' := by
  refine ⟨hc, fun x hx => ?_, h.good.congr hi he⟩
  rw [he]
  rcases hl x hx with hx | hx
  · exact h.pinned x hx
  · exact hx.symm

theorem perm (h : Sane t l T s) (hl : l.Perm l') : Sane t l' T s :=
  ⟨h.counted.perm (hl.map _), fun x hx => h.pinned x (hl.mem_iff.mpr hx), h.good⟩

theorem ino_eq (h : Sane t l T s) (hip : (ip, i) ∈ l) : s.ino ip = s.inode i :=
  congrArg s.inode (h.pinned _ hip)

/-- The inode of an entry that is held changes. -/
theorem setIno (h : Sane t l T s) (hip : (ip, i) ∈ l) (hT : T' (update s.inode i x))
    (hx : x.type ≠ none) : Sane t l T' (s.setIno ip x) := by
  refine ⟨h.counted.setIno, h.pinned, ?_⟩
  rw [State.setIno, h.pinned _ hip]
  exact h.good.setInode hT hx

end Sane

/-! ## Functions of the inode layer -/

theorem iget_sane : Triple (Sane t l T) (iget i) fun ip => Sane t ((ip, i) :: l) T := by
  intro s ip s' h hrun
  refine ⟨iget_counted _ _ _ h.counted hrun, ?_, ?_⟩
  · obtain ⟨-, hi, rfl⟩ | ⟨hr, -, rfl⟩ := iget_cases hrun
    · rintro x (_ | ⟨_, hx⟩)
      · simp [State.setEntry, hi]
      · have := h.pinned x hx
        by_cases e : x.1 = ip
        · simp [State.setEntry, ← e, this]
        · simp [State.setEntry, e, this]
    · rintro x (_ | ⟨_, hx⟩)
      · simp [State.setEntry]
      · have e : x.1 ≠ ip := by
          intro e
          have := h.ref_pos hx
          rw [e, hr] at this
          exact lt_irrefl _ this
        simp [State.setEntry, e, h.pinned x hx]
  · obtain ⟨hr, -, rfl⟩ | ⟨-, hn, rfl⟩ := iget_cases hrun
    · exact h.good.setRef fun _ => hr
    · exact h.good.setEntry (fun _ x _ hx => hn x hx) (by simp)

/-- An entry changes and keeps its number. -/
theorem Sane.setEntry (h : Sane t l T s) (hc : Counted t (l'.map Prod.fst) (s.setEntry ip v))
    (hv : v.inum = (s.icache ip).inum) (hl : ∀ x ∈ l', x ∈ l ∨ x.2 = (s.icache x.1).inum)
    (hg : Good T (s.setEntry ip v)) : Sane t l' T (s.setEntry ip v) := by
  refine ⟨hc, fun x hx => ?_, hg⟩
  have hinum : ((s.setEntry ip v).icache x.1).inum = (s.icache x.1).inum := by
    by_cases e : x.1 = ip
    · simp [State.setEntry, e, hv]
    · simp [State.setEntry, e]
  rw [hinum]
  rcases hl x hx with hx | hx
  · exact h.pinned x hx
  · exact hx.symm

theorem ilock_sane : Triple (Sane t l T) (ilock ip) fun _ => Sane t l T := by
  intro s u s' h hrun
  have hc := ilock_counted _ _ _ h.counted hrun
  simp only [ilock, bind_eq_some, check_eq_some, writes_eq_some] at hrun
  obtain ⟨_, _, ⟨⟨hr, hv⟩, rfl⟩, rfl⟩ := hrun
  refine h.setEntry hc rfl (fun x hx => .inl hx) ?_
  refine h.good.setEntry (fun _ => h.good.only hr) fun _ _ => ?_
  exact hv.elim (h.good.valid ip hr) id

/-- A locked inode has a type. -/
theorem ilock_type : Triple (Sane t l T) (ilock ip) fun _ s => (s.ino ip).type ≠ none := by
  intro s u s' h hrun
  rw [(ilock_eq_some hrun).ino]
  simp only [ilock, bind_eq_some, check_eq_some] at hrun
  obtain ⟨_, _, ⟨⟨hr, hv⟩, -⟩, -⟩ := hrun
  exact hv.elim (h.good.valid ip hr) id

theorem idup_sane : Triple (fun s => Sane t l T s ∧ 0 < (s.icache ip).ref) (idup ip)
    fun r s => r = ip ∧ ∃ i, Sane t ((ip, i) :: l) T s := by
  rintro s r s' ⟨h, hr⟩ hrun
  obtain ⟨rfl, hc⟩ := idup_counted _ _ _ h.counted hrun
  simp only [idup, bind_eq_some, writes_eq_some, pure_eq_some, true_and] at hrun
  obtain ⟨_, _, rfl, rfl⟩ := hrun
  refine ⟨rfl, (s.icache r).inum, h.setEntry hc rfl ?_ (h.good.setRef fun _ => hr)⟩
  rintro x (_ | ⟨_, hx⟩)
  · exact .inr rfl
  · exact .inl hx

/-- `iput` of an entry whose inode has links, or may be freed. -/
theorem Sane.put (h : Sane t ((ip, i) :: l) T s) (hT : (s.ino ip).nlink = 0 → Frees T)
    (hrun : iput ip s = some (u, s')) : Sane t l T s' := by
  have hc := iput_counted _ _ _ h.counted hrun
  obtain ⟨hn, hr, rfl⟩ | rfl := iput_cases hrun
  · refine ⟨hc, fun x hx => ?_, h.good.free (hT hn) hn hr⟩
    have := h.pinned x (.tail _ hx)
    by_cases e : x.1 = ip
    · simp [State.setEntry, State.setIno, State.setInode, ← e, this]
    · simp [State.setEntry, State.setIno, State.setInode, e, this]
  · exact h.setEntry hc rfl (fun x hx => .inl (.tail _ hx)) (h.good.setRef fun h0 => by
      omega)

theorem iput_sane (hT : Frees T) : Triple (Sane t ((ip, i) :: l) T) (iput ip) fun _ => Sane t l T :=
  fun _ _ _ h => h.put fun _ => hT

theorem iunlockput_sane (hT : Frees T) :
    Triple (Sane t ((ip, i) :: l) T) (iunlockput ip) fun _ => Sane t l T :=
  .bind iunlock_keeps fun _ => iput_sane hT

/-- The reference to drop is not the last one taken. -/
theorem iunlockput_sane_second (hT : Frees T) :
    Triple (Sane t (z :: (ip, i) :: l) T) (iunlockput ip)
      fun _ => Sane t (z :: l) T :=
  (iunlockput_sane hT).pre fun _ h => h.perm (.swap ..)

/-- A new inode is taken. -/
theorem ialloc_sane : Triple (Sane t l (· = inode)) (ialloc type)
    fun ip s => ∃ i, (i ∈ inums ∧ (inode i).type = none) ∧ Sane t ((ip, i) :: l)
      (· = update inode i ⟨some type, 0, 0, [], []⟩) s := by
  intro s ip s' h hrun
  obtain ⟨i, h1, hn, hf, hrun⟩ := ialloc_cases hrun
  obtain rfl := h.good.inodes
  refine ⟨i, ⟨Finset.mem_Ico.mpr ⟨h1, hn⟩, hf⟩, iget_sane _ _ _ ?_ hrun⟩
  exact ⟨⟨h.counted.1, h.counted.2, h.counted.3, h.counted.4⟩, h.pinned,
    h.good.setInode rfl nofun⟩

/-- A function that may have taken a reference. -/
def Gives (t : Ptable) (l : List (Ip × Nat)) (T : (Nat → Inode) → Prop) :
    Option Ip → State → Prop
  | none, s => Sane t l T s
  | some ip, s => ∃ i, Sane t ((ip, i) :: l) T s

/-- The entry `de` of the directory `d` is the first one with the name. -/
structure Found (d : Nat) (name : Name) (off : Nat) (de : Dirent) (inode : Nat → Inode) :
    Prop where
  dir : (inode d).type = some .T_DIR
  lookup : (inode d).lookup name = some off
  entry : (inode d).entries[off]? = some de
  inum : de.inum ≠ 0

/-- The directory `d` has no entry with the name. -/
structure Missing (d : Nat) (name : Name) (inode : Nat → Inode) : Prop where
  dir : (inode d).type = some .T_DIR
  lookup : (inode d).lookup name = none

/-- What `dirlookup` finds in the directory of an entry that is held. -/
def Looked (t : Ptable) (l : List (Ip × Nat)) (T : (Nat → Inode) → Prop) (d : Nat) (name : Name) :
    Option (Ip × Nat) → State → Prop
  | none, s => Sane t l (fun v => T v ∧ Missing d name v) s
  | some (ip, off), s =>
    ∃ de, Sane t ((ip, de.inum) :: l) (fun v => T v ∧ Found d name off de v) s

theorem dirlookup_looked (hd : (dp, d) ∈ l) :
    Triple (Sane t l T) (dirlookup dp name) (Looked t l T d name) := by
  intro s r s' h hrun
  obtain ⟨hdir, hr⟩ := dirlookup_eq_some hrun
  rw [h.ino_eq hd] at hdir hr
  rcases r with _ | ⟨ip, off⟩
  · obtain ⟨rfl, hl⟩ := hr
    exact ⟨h.counted, h.pinned, ⟨h.good.inodes, hdir, hl⟩, h.good.uniq, h.good.valid⟩
  · obtain ⟨hl, hget⟩ := hr
    obtain ⟨hlt, hp, -⟩ := List.findIdx?_eq_some_iff_getElem.mp hl
    have hde := List.getElem?_eq_getElem hlt
    rw [hde] at hget
    refine ⟨_, iget_sane _ _ _ ⟨h.counted, h.pinned, ⟨h.good.inodes, hdir, hl, hde, ?_⟩,
      h.good.uniq, h.good.valid⟩ hget⟩
    exact (of_decide_eq_true hp).1

/-! ## Paths and files -/

/-- References in `l` are held besides those in `l₀`. -/
def Held (l₀ : List (Ip × Nat)) (T : (Nat → Inode) → Prop) (t : Ptable) (l : List Ip) (s : State) :
    Prop := ∃ l₁, l₁.map Prod.fst = l ∧ Sane t (l₁ ++ l₀) T s

theorem Sane.held (h : Sane t l T s) : Held l T t [] s := ⟨[], rfl, h⟩

theorem Sane.held_cons (h : Sane t ((ip, i) :: l) T s) : Held l T t [ip] s := ⟨[(ip, i)], rfl, h⟩

theorem Held.sane (h : Held l T t [] s) : Sane t l T s := by
  obtain ⟨l₁, hl, h⟩ := h
  cases List.map_eq_nil_iff.mp hl
  exact h

theorem Held.exists_cons (h : Held l₀ T t (ip :: l) s) :
    ∃ i l₁, l₁.map Prod.fst = l ∧ Sane t ((ip, i) :: (l₁ ++ l₀)) T s := by
  obtain ⟨l₁, hl, h⟩ := h
  obtain ⟨⟨_, i⟩, l₁, rfl, rfl, rfl⟩ := List.map_eq_cons_iff.mp hl
  exact ⟨i, l₁, rfl, h⟩

theorem Ledger.held (hT : Frees T) : Ledger (Held l₀ T) where
  exists_counted := by
    rintro t _ s ⟨l₁, rfl, h⟩
    exact ⟨l₀.map Prod.fst, List.map_append ▸ h.counted⟩
  congr := by
    rintro t _ s u l' s' ⟨l₁, rfl, h⟩ hc hi he
    have hl : (l'.map fun ip => (ip, (s.icache ip).inum)).map Prod.fst = l' :=
      List.map_map.trans (List.map_id l')
    refine ⟨_, hl, h.congr ?_ (fun x hx => ?_) hi he⟩
    · rw [List.map_append, hl]
      exact hc _ (List.map_append ▸ h.counted)
    · rcases List.mem_append.mp hx with hx | hx
      · obtain ⟨ip, -, rfl⟩ := List.mem_map.mp hx
        exact .inr rfl
      · exact .inl (List.mem_append_right _ hx)
  iget := by
    rintro t _ i s ip s' ⟨l₁, rfl, h⟩ hrun
    exact ⟨(ip, i) :: l₁, rfl, iget_sane _ _ _ h hrun⟩
  idup := by
    rintro t _ p ip s r s' ⟨⟨l₁, rfl, h⟩, hp⟩ hrun
    obtain ⟨rfl, i, h⟩ := idup_sane _ _ _ ⟨h, h.cwd_pos hp⟩ hrun
    exact ⟨rfl, (r, i) :: l₁, rfl, h⟩
  ilock := by
    rintro t _ ip s u s' ⟨l₁, rfl, h⟩ hrun
    exact ⟨l₁, rfl, ilock_sane _ _ _ h hrun⟩
  iput := by
    intro t l ip s u s' h hrun
    obtain ⟨i, l₁, rfl, hs⟩ := h.exists_cons
    exact ⟨l₁, rfl, iput_sane hT _ _ _ hs hrun⟩

theorem Held.gives {r : Option Ip} (h : Held l T t (r.elim [] (· :: [])) s) : Gives t l T r s := by
  cases r with
  | none => exact h.sane
  | some ip =>
    obtain ⟨i, l₁, hl, h⟩ := h.exists_cons
    cases List.map_eq_nil_iff.mp hl
    exact ⟨i, h⟩

theorem namei_sane (hT : Frees T) : Triple (Sane t l T) (namei p path) fun r => Gives t l T r :=
  (namei_ledger (.held hT)).mono (fun _ => Sane.held) fun _ _ => Held.gives

theorem nameiparent_sane (hT : Frees T) : Triple (Sane t l T) (nameiparent p path)
    fun r => Gives t l T (r.map Prod.fst) := by
  refine (nameiparent_ledger (.held hT)).mono (fun _ => Sane.held) fun r s h => Held.gives ?_
  cases r with
  | none | some => exact h

end Xv6.Fs
