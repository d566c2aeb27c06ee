import Xv6.Disk.Records

/-! # A directory is a finite map

`dirlookup`, `dirlink` and `unlink` on the bytes of a directory. A directory in which no two records
in use have the same name stays one, and the operations are those of a finite map: `dirlink` enters
a name that is not there, and `unlink` removes one. -/

namespace Xv6.Disk

open Fault
open Fs (BSIZE DIRSIZ NDIRECT NINDIRECT MAXFILE Name InodeType namecmp dot dotdot)
open Log (MAXOPBLOCKS)

/-! ## Operations -/

/-- An operation on a directory, with a name in the sense of C. -/
inductive DirOp
  | lookup (name : Name) (hn : 0 ∉ name)
  | link (name : Name) (inum : Nat) (hn : 0 ∉ name) (hi : 0 < inum ∧ inum < 65536)
  | unlink (name : Name) (hn : 0 ∉ name)

inductive DirReply
  /-- The inode number that `dirlookup` finds. -/
  | found (inum : Option Nat)
  | ret (r : Int)
  deriving DecidableEq

/-- A directory with nothing behind its first two records. -/
def EmptyDir (b : List UInt8) : Prop := ∀ k < recordCount b, 2 ≤ k → (record b k).inum = 0

instance {b : List UInt8} : Decidable (EmptyDir b) :=
  inferInstanceAs (Decidable (∀ k < recordCount b, 2 ≤ k → (record b k).inum = 0))

/-- The log has no room for an operation. -/
def TooBig (sb : Superblock) (e : Panic) : Prop := e = .tooBig ∧ ¬ sb.Fits MAXOPBLOCKS

namespace DirOp

/-- An operation on a directory to which the caller has a reference; that of `nameiparent` is given
up by `unlink`. -/
def run (dp : Ip) : DirOp → Kernel DirReply
  | .lookup name _ => do
    ilock dp
    let r ← dirlookup dp name
    iunlock dp
    match r with
    | some (ip, _) => do
      let inum ← reads fun s => (s.icache ip).inum
      pure (.found (some inum))
    | none => pure (.found none)
  | .link name inum _ _ => do
    ilock dp
    let r ← dirlink dp name inum
    iunlock dp
    endOp
    pure (.ret (if r then 0 else -1))
  | .unlink name _ => do
    let dp ← idup dp
    ilock dp
    let r ← unlinkIn dp name
    endOp
    pure (.ret r)

/-- The panics of `dirlink`: the inode cache has no free entry for an inode that was found, or the
disk or the directory is full. -/
def LinkPanic (b : List UInt8) (name : Name) (e : Panic) : Prop :=
  (find b name).isSome ∧ e = .iget ∨
    find b name = none ∧ (e = .outOfBlocks ∨ MAXFILE * BSIZE ≤ b.length ∧ e = .dirlink)

/-- The panics of `unlink` for a name that is there: as for `dirlink`, or the inode is not one with
links, or a directory that cannot be read. -/
def UnlinkPanic (b : List UInt8) (name : Name) (e : Panic) : Prop :=
  (find b name).isSome ∧ (e = .iget ∨ e = .noType ∨ e = .unlinkNlink ∨ e = .isdirempty)

/-- The panics of an operation on a directory with the bytes `b`. -/
def MayPanic (sb : Superblock) (b : List UInt8) : DirOp → Panic → Prop
  | .lookup name _, e => (find b name).isSome ∧ e = .iget
  | .link name _ _ _, e => LinkPanic b name e ∨ TooBig sb e
  | .unlink name _, e => UnlinkPanic b name e ∨ TooBig sb e

/-- The name is there and is not that of a directory with entries, where `τ` and `c` are the types
and the bytes of the inodes. -/
def CanUnlink (τ : Nat → Option InodeType) (c : Nat → List UInt8) (b : List UInt8) (name : Name) :
    Prop :=
  ¬ (namecmp name dot = 0 ∨ namecmp name dotdot = 0) ∧
    ∃ j, find b name = some j ∧ (τ j = some .T_DIR → EmptyDir (c j))

/-- What an operation returns and makes of the bytes `b` of a directory, as on a finite map from
names to inode numbers. -/
def Post (τ : Nat → Option InodeType) (c : Nat → List UInt8) (b : List UInt8) (r : DirReply)
    (b' : List UInt8) : DirOp → Prop
  | .lookup name _ => r = .found (find b name) ∧ b' = b
  | .link name inum _ _ =>
    if (find b name).isSome then r = .ret (-1) ∧ b' = b
    else r = .ret 0 ∧
      ∀ n : Name, 0 ∉ n → find b' n = if namecmp n name = 0 then some inum else find b n
  | .unlink name _ =>
    (¬ CanUnlink τ c b name → r = .ret (-1) ∧ b' = b) ∧
    (CanUnlink τ c b name → r = .ret 0 ∧
      ∀ n : Name, 0 ∉ n → find b' n = if namecmp n name = 0 then none else find b n)

end DirOp

variable {s s' : State} {i k : Nat} {b : List UInt8} {ip dp : Ip} {τ : Nat → Option InodeType}
  {c : Nat → List UInt8} {E : Panic → Prop}

/-! ## Frames -/

theorem Files.calm (h : Files l τ c s) : Calm l s :=
  let ⟨v, h, _⟩ := h
  ⟨v, h⟩

theorem bytes_congr (h : v' i = v i) : bytes v' block i = bytes v block i := by
  funext k
  simp only [bytes, data, stored, h]

theorem Files.of_calm (h : Files l τ c s) (hc : Calm l' s') (hd : s'.dinode = s.dinode)
    (hb : s'.block = s.block) : Files l' τ c s' := by
  obtain ⟨v, h, hτ, hbytes⟩ := h
  obtain ⟨v', h'⟩ := hc
  have hv : v' = v := by
    rw [← h'.extents_eq, ← h.extents_eq]
    funext j
    rw [State.extents, State.extents, hd]
  subst hv
  exact ⟨v', h', hτ, by rwa [hb]⟩

/-- The inode `i` is a directory with the bytes `b`. -/
def Dir (l : List Pin) (i : Nat) (b : List UInt8) (s : State) : Prop :=
  ∃ τ c, Files l τ c s ∧ τ i = some .T_DIR ∧ c i = b

theorem Dir.of_calm (h : Dir l i b s) (hc : Calm l' s') (hd : s'.dinode i = s.dinode i)
    (hb : s'.block = s.block) : Dir l' i b s' := by
  obtain ⟨τ, c, ⟨v, h, hτ, hbytes⟩, ht, hci⟩ := h
  obtain ⟨v', h'⟩ := hc
  have hv : v' i = v i := by rw [← h'.2.disk i, ← h.2.disk i, hd]
  refine ⟨_, _, ⟨v', h', fun _ => rfl, fun _ => rfl⟩, ?_, ?_⟩
  · rw [hv, hτ, ht]
  · rw [hv, bytes_congr hv, hb, hbytes, hci]

theorem iget_frame : Triple (· = .iget) (fun s => s.dinode = D ∧ s.block = B) (iget inum)
      fun _ s => s.dinode = D ∧ s.block = B := by
  refine .read fun icache => ?_
  split
  · exact .bind_pure (.writes fun _ => id)
  · split
    · exact .bind_pure (.writes fun _ => id)
    · exact .panic rfl

theorem iget_files : Triple (· = .iget) (Files l τ c) (iget inum)
    fun ip => Files (⟨ip, inum, false⟩ :: l) τ c := by
  intro s h
  exact ((iget_spec.and iget_frame) s ⟨h.calm, rfl, rfl⟩).imp (fun _ => And.right)
    fun ip s' h' => h.of_calm h'.1 h'.2.1 h'.2.2

theorem idup_files (hx : ⟨ip, i, false⟩ ∈ l) : Triple E (Files l τ c) (idup ip)
    fun ip' => Files (⟨ip', i, false⟩ :: l) τ c := by
  intro s h
  have hframe : Triple (fun _ => False) (fun t : State => t.dinode = s.dinode ∧ t.block = s.block)
      (idup ip) fun _ t => t.dinode = s.dinode ∧ t.block = s.block :=
    .bind_pure (.writes fun _ => id)
  exact (((idup_spec hx).and hframe) s ⟨h.calm, rfl, rfl⟩).imp (fun _ h => h.2.elim)
    fun ip s' h' => h.of_calm h'.1 h'.2.1 h'.2.2

theorem idup_open (hx : ⟨ip, i, false⟩ ∈ l) : Triple E (fun s => Files l τ c s ∧ Ready sb N n s)
    (idup ip) fun ip' s => Files (⟨ip', i, false⟩ :: l) τ c s ∧ Ready sb N n s := by
  have hready : Triple (fun _ => True) (Ready sb N n) (idup ip) fun _ => Ready sb N n :=
    .bind_pure (.writes fun _ => id)
  exact ((idup_files hx).and hready).weaken fun _ => And.left

/-- `iput` frees an inode only with its last reference. -/
theorem iput_frame : Triple (fun e => e = .freeingFreeBlock ∨ e = .tooBig)
    (fun s => (s.dinode i = x ∧ s.block = B) ∧
      ((s.icache ip).inum = i → 1 < (s.icache ip).ref)) (iput ip)
      fun _ s => s.dinode i = x ∧ s.block = B := by
  refine .reads_bind fun e => .ite (fun he => ?_) fun _ => .writes fun s h => h.1.1
  have hset : ∀ (s : State) y, (s.dinode i = x ∧ s.block = B) ∧ (s.icache ip).inum ≠ i →
      ((s.setIno ip y).dinode i = x ∧ (s.setIno ip y).block = B) ∧
        ((s.setIno ip y).icache ip).inum ≠ i := by
    intro s y h
    exact ⟨h.1, by simpa [State.setIno, State.setEntry] using h.2⟩
  have hdisk : Triple (fun e => e = .freeingFreeBlock ∨ e = .tooBig)
      (fun s => (s.dinode i = x ∧ s.block = B) ∧ (s.icache ip).inum ≠ i) (iupdate ip)
      fun _ s => (s.dinode i = x ∧ s.block = B) ∧ (s.icache ip).inum ≠ i :=
    logWrite_spec (.inr rfl) fun s h =>
      ⟨⟨(Function.update_of_ne h.2.symm ..).trans h.1.1, h.1.2⟩, h.2⟩
  refine .pre (P := fun s => (s.dinode i = x ∧ s.block = B) ∧ (s.icache ip).inum ≠ i)
    (.bind (itrunc_keeps (.inl rfl) (.inr rfl) (fun _ _ _ => id) hset hdisk) fun _ => .bind
      (.writes fun s => hset s _) fun _ => .bind hdisk fun _ => .bind (.writes fun s h => h.1)
        fun _ => .writes fun s h => h) ?_
  rintro s ⟨⟨h, hi⟩, rfl⟩
  refine ⟨h, fun hinum => ?_⟩
  have := hi hinum
  omega

theorem iput_dir (hlog : E .tooBig) (hl : ⟨dp, i, lk⟩ ∈ l) :
    Triple E (Dir (⟨ip, j, lk'⟩ :: l) i b) (iput ip) fun _ => Dir l i b := by
  intro s h
  obtain ⟨τ, c, hf, ht, hc⟩ := h
  obtain ⟨v, hv, hf'⟩ := hf
  have hlast : (s.icache ip).inum = i → 1 < (s.icache ip).ref := by
    intro hinum
    have hdp := (hv.2.pinned _ (.tail _ hl)).1
    have he : ip = dp := hv.2.uniq ip dp (hv.2.ref_pos List.mem_cons_self)
      (hv.2.ref_pos (.tail _ hl)) (hinum.trans hdp.symm)
    subst he
    have hrefs := hv.2.refs ip
    have hcount : 0 < (l.map Pin.ip).count ip :=
      List.count_pos_iff.mpr (List.mem_map_of_mem (f := Pin.ip) hl)
    rw [List.map_cons, List.count_cons_self] at hrefs
    omega
  refine ((iput_spec.and iput_frame) s ⟨⟨v, hv⟩, ⟨rfl, rfl⟩, hlast⟩).imp (fun e h => ?_)
    fun _ s' h' => ?_
  · rw [h.2.resolve_left h.1]
    exact hlog
  exact Dir.of_calm ⟨τ, c, ⟨v, hv, hf'⟩, ht, hc⟩ h'.1 h'.2.1 h'.2.2

theorem Dir.perm (h : Dir l i b s) (hl : l.Perm l') : Dir l' i b s := by
  obtain ⟨τ, c, h, h'⟩ := h
  exact ⟨τ, c, h.congr fun _ h => h.perm hl, h'⟩

theorem iunlock_dir {P : State → Prop} :
    Triple E (fun s => Dir (⟨ip, j, true⟩ :: l) i b s ∧ P s) (iunlock ip)
      fun _ s => Dir (⟨ip, j, false⟩ :: l) i b s ∧ P s := by
  rintro s ⟨⟨τ, c, h, h'⟩, hP⟩
  exact (iunlock_open s ⟨h, hP⟩).imp (fun _ => id) fun _ _ h => ⟨⟨τ, c, h.1, h'⟩, h.2⟩

theorem iunlockput_dir (hlog : E .tooBig) (hl : ⟨dp, i, lk⟩ ∈ l) :
    Triple E (Dir (⟨ip, j, true⟩ :: l) i b) (iunlockput ip) fun _ => Dir l i b :=
  .bind (iunlock_dir.mono (fun _ h => ⟨h, trivial⟩) fun _ _ => And.left) fun _ => iput_dir hlog hl

/-! ## Records -/

/-- A file has at most `MAXFILE` blocks. -/
theorem Files.length_le (h : Files l τ c s) (ht : τ i ≠ none) : (c i).length ≤ MAXFILE * BSIZE := by
  obtain ⟨v, h, hτ, hc⟩ := h
  rw [← hc, Block.length_read]
  by_contra hlt
  have hmap := h.1.mapped i (by rwa [hτ]) MAXFILE (by simp only [sizes, BSIZE] at *; omega)
  refine hmap ?_
  rw [Place.ofIndex, if_neg (by decide), Extent.stored, if_neg fun h => absurd h.1 (by decide)]

/-- What `readi` gives for a record, of which a part may be missing at the end. -/
theorem readi_record (h : Files l τ c s) (ht : τ i = some .T_DIR) (hx : ⟨dp, i, true⟩ ∈ l)
    (hk : DIRENT * k ≤ (c i).length) :
    readi dp (DIRENT * k) DIRENT s = .ok (some (((c i).drop (DIRENT * k)).take DIRENT), s) := by
  have hlen := h.length_le (i := i) (by simp [ht])
  have hmax : MAXFILE * BSIZE < 2 ^ 32 - DIRENT := by decide
  rw [readi_files (by simp [ht]) (by omega) (by decide) hx h, readBytes, if_neg (by omega)]

theorem readDirent_eq (h : Files l τ c s) (ht : τ i = some .T_DIR) (hx : ⟨dp, i, true⟩ ∈ l)
    (hk : k < recordCount (c i)) :
    readDirent dp (DIRENT * k) e s = .ok (record (c i) k, s) := by
  have hend : DIRENT * k + DIRENT ≤ (c i).length := by
    simp only [recordCount, DIRENT, DIRSIZ] at *
    omega
  have hsize : (((c i).drop (DIRENT * k)).take DIRENT).length = DIRENT := by
    rw [List.length_take, List.length_drop]
    omega
  rw [readDirent, bind_of_ok (readi_record h ht hx (by omega))]
  dsimp only
  rw [if_pos hsize]
  rfl

theorem readDirent_short (h : Files l τ c s) (ht : τ i = some .T_DIR) (hx : ⟨dp, i, true⟩ ∈ l)
    (hk : ¬ k < recordCount (c i)) (hoff : DIRENT * k ≤ (c i).length) :
    readDirent dp (DIRENT * k) e s = .error e := by
  have hsize : ¬ (((c i).drop (DIRENT * k)).take DIRENT).length = DIRENT := by
    rw [List.length_take, List.length_drop]
    simp only [recordCount, DIRENT, DIRSIZ] at *
    omega
  rw [readDirent, bind_of_ok (readi_record h ht hx hoff)]
  dsimp only
  rw [if_neg hsize]
  rfl

theorem offsets_eq (hw : DIRENT ∣ b.length) :
    offsets 0 b.length = (List.range (recordCount b)).map (DIRENT * ·) := by
  obtain ⟨m, hm⟩ := hw
  have hn : (b.length - 0 + (DIRENT - 1)) / DIRENT = recordCount b := by
    rw [recordCount, hm]
    simp only [DIRENT, DIRSIZ]
    omega
  rw [offsets, hn]
  simp

/-- What is read of an inode that is locked. -/
theorem Files.ino (h : Files l τ c s) (hx : ⟨ip, i, true⟩ ∈ l) :
    (s.ino ip).type = τ i ∧ (s.ino ip).size = (c i).length := by
  obtain ⟨v, hv, hτ, hc⟩ := h
  have hino := (hv.2.ino hx).1
  refine ⟨?_, ?_⟩
  · rw [← hτ, ← hino]
    rfl
  · rw [← hc, Block.length_read, ← hino]
    rfl

/-- What `dirlookup` returns if it stops at a record or at none. -/
def Looked (l : List Pin) (τ : Nat → Option InodeType) (c : Nat → List UInt8) (b : List UInt8)
    (found : Option Nat) (r : Option (Ip × Nat)) (s : State) : Prop :=
  match found with
  | none => r = none ∧ Files l τ c s
  | some k => ∃ ip, r = some (ip, DIRENT * k) ∧ Files (⟨ip, (record b k).inum, false⟩ :: l) τ c s

section Looked

variable {x : Kernel α} {r : Option (Ip × Nat)} {K : State → Prop}

/-- What follows `dirlookup` of a name that is not there. -/
theorem looked_none (h : r = none → Triple E (fun s => Files l τ c s ∧ K s) x R) :
    Triple E (fun s => Looked l τ c b none r s ∧ K s) x R := by
  rintro s ⟨⟨hr, hs⟩, hK⟩
  exact h hr s ⟨hs, hK⟩

/-- What follows `dirlookup` of a name that is there. -/
theorem looked_some (h : ∀ ip, r = some (ip, DIRENT * k) →
      Triple E (fun s => Files (⟨ip, (record b k).inum, false⟩ :: l) τ c s ∧ K s) x R) :
    Triple E (fun s => Looked l τ c b (some k) r s ∧ K s) x R := by
  rintro s ⟨⟨ip, hr, hs⟩, hK⟩
  exact h ip hr s ⟨hs, hK⟩

end Looked

theorem dirlookupLoop_files {ks : List Nat} (ht : τ i = some .T_DIR) (hx : ⟨dp, i, true⟩ ∈ l)
    (hks : ∀ k ∈ ks, k < recordCount (c i)) :
    Triple (fun e => (ks.find? fun k => Matches name (record (c i) k)).isSome ∧ e = .iget)
      (Files l τ c) (dirlookupLoop dp name (ks.map (DIRENT * ·)))
      (Looked l τ c (c i) (ks.find? fun k => Matches name (record (c i) k))) := by
  induction ks with
  | nil => exact .pure fun s h => ⟨rfl, h⟩
  | cons k ks ih =>
    have ih := ih fun k hk => hks k (.tail _ hk)
    intro s h
    rw [List.map_cons, dirlookupLoop,
      bind_of_ok (readDirent_eq h ht hx (hks k List.mem_cons_self))]
    by_cases h0 : (record (c i) k).inum = 0
    · have hno : ¬ Matches name (record (c i) k) := fun hm => hm.1 h0
      rw [if_pos h0, List.find?_cons_of_neg (by simpa using hno)]
      exact ih s h
    · by_cases hm : namecmp name (record (c i) k).name = 0
      · have hyes : Matches name (record (c i) k) := ⟨h0, hm⟩
        rw [if_neg h0, if_pos hm, List.find?_cons_of_pos (by simpa using hyes)]
        refine Triple.bind (Q := fun ip => Files (⟨ip, (record (c i) k).inum, false⟩ :: l) τ c)
          (iget_files.weaken fun e he => ⟨rfl, he⟩) (fun ip => .pure fun s' h' => ?_) s h
        exact ⟨ip, rfl, h'⟩
      · have hno : ¬ Matches name (record (c i) k) := fun h => hm h.2
        rw [if_neg h0, if_neg hm, List.find?_cons_of_neg (by simpa using hno)]
        exact ih s h

theorem dirlookup_files (ht : τ i = some .T_DIR) (hx : ⟨dp, i, true⟩ ∈ l)
    (hw : DIRENT ∣ (c i).length) :
    Triple (fun e => (lookup (c i) name).isSome ∧ e = .iget) (Files l τ c) (dirlookup dp name)
      (Looked l τ c (c i) (lookup (c i) name)) := by
  refine .bind ((Triple.check fun s h hno => absurd ((h.ino hx).1.trans ht) hno).post
    fun _ _ => And.left) fun _ => .reads_known (p := fun size => size = (c i).length)
      (fun _ h => (h.ino hx).2) fun size hsize => ?_
  rw [hsize, offsets_eq hw]
  exact dirlookupLoop_files ht hx fun k hk => List.mem_range.mp hk

theorem emptyLoop_eq {ks : List Nat} {stop : Nat} (h : Files l τ c s) (ht : τ i = some .T_DIR)
    (hx : ⟨dp, i, true⟩ ∈ l) (hks : ∀ k ∈ ks, k < recordCount (c i)) :
    emptyLoop dp stop (ks.map (DIRENT * ·)) s = .ok
      (((ks.find? fun k => (record (c i) k).inum = 0).map (DIRENT * ·)).getD stop, s) := by
  induction ks with
  | nil => rfl
  | cons k ks ih =>
    have hread : readDirent dp (DIRENT * k) .dirlinkRead s = .ok (record (c i) k, s) :=
      readDirent_eq h ht hx (hks k List.mem_cons_self)
    rw [List.map_cons, emptyLoop, bind_of_ok hread]
    by_cases h0 : (record (c i) k).inum = 0
    · rw [if_pos h0, List.find?_cons_of_pos (by simpa using h0)]
      rfl
    · rw [if_neg h0, List.find?_cons_of_neg (by simpa using h0)]
      exact ih fun k hk => hks k (.tail _ hk)

theorem isdiremptyLoop_files {ks : List Nat} (ht : τ i = some .T_DIR) (hx : ⟨dp, i, true⟩ ∈ l)
    (hks : ∀ k ∈ ks, DIRENT * k ≤ (c i).length) :
    Triple (· = .isdirempty) (Files l τ c) (isdiremptyLoop dp (ks.map (DIRENT * ·))) fun r s =>
      (r = true ↔ ∀ k ∈ ks, k < recordCount (c i) → (record (c i) k).inum = 0) ∧
        Files l τ c s := by
  induction ks with
  | nil => exact .pure fun s h => ⟨by simp, h⟩
  | cons k ks ih =>
    have ih := ih fun k hk => hks k (.tail _ hk)
    intro s h
    by_cases hk : k < recordCount (c i)
    · rw [List.map_cons, isdiremptyLoop, bind_of_ok (readDirent_eq h ht hx hk)]
      by_cases h0 : (record (c i) k).inum = 0
      · rw [if_neg (not_not.mpr h0)]
        refine (ih s h).imp (fun _ => id) fun r s' h' => ⟨h'.1.trans ?_, h'.2⟩
        rw [List.forall_mem_cons, and_iff_right fun _ => h0]
      · rw [if_pos h0]
        refine ⟨⟨nofun, fun hall => ?_⟩, h⟩
        exact absurd (hall k List.mem_cons_self hk) h0
    · rw [List.map_cons, isdiremptyLoop]
      have herr : readDirent dp (DIRENT * k) .isdirempty s = .error .isdirempty :=
        readDirent_short h ht hx hk (hks k List.mem_cons_self)
      change Result _ _ ((readDirent dp (DIRENT * k) .isdirempty s).bind _)
      rw [herr]
      rfl

theorem isdirempty_files (ht : τ i = some .T_DIR) (hx : ⟨dp, i, true⟩ ∈ l) :
    Triple (· = .isdirempty) (Files l τ c) (isdirempty dp) fun r s =>
      (r = true ↔ EmptyDir (c i)) ∧ Files l τ c s := by
  refine .reads_known (p := fun size => size = (c i).length) (fun _ h => (h.ino hx).2)
    fun size hsize => ?_
  subst hsize
  -- the indices of the records from the third one on
  have hoffs : offsets (2 * DIRENT) (c i).length =
      ((List.range (((c i).length - 2 * DIRENT + (DIRENT - 1)) / DIRENT)).map (· + 2)).map
        (DIRENT * ·) := by
    rw [offsets, List.map_map]
    refine List.map_congr_left fun k _ => ?_
    rw [Function.comp_apply, Nat.mul_add, Nat.mul_comm 2, Nat.add_comm]
  rw [hoffs]
  refine (isdiremptyLoop_files ht hx fun k hk => ?_).post fun r s h => ⟨h.1.trans ?_, h.2⟩
  · obtain ⟨j, hj, rfl⟩ := List.mem_map.mp hk
    have := List.mem_range.mp hj
    simp only [DIRENT, DIRSIZ] at *
    omega
  · refine ⟨fun hall k hk h2 => hall k (List.mem_map.mpr ⟨k - 2, ?_, by omega⟩) hk,
      fun hempty k hk hlt => ?_⟩
    · rw [List.mem_range]
      simp only [recordCount, DIRENT, DIRSIZ] at *
      omega
    · obtain ⟨j, -, rfl⟩ := List.mem_map.mp hk
      exact hempty _ hlt (Nat.le_add_left ..)

/-- The bytes with a record written. -/
theorem written_record (hw : DIRENT ∣ (c i).length) (hk : k ≤ recordCount (c i))
    (hsrc : src.length = DIRENT) (hmax : (c i).length ≤ MAXFILE * BSIZE) :
    written c i (DIRENT * k) src = (some DIRENT, Function.update c i (patch (c i) k src)) ∨
      k = recordCount (c i) ∧ MAXFILE * BSIZE ≤ (c i).length ∧
        written c i (DIRENT * k) src = (none, c) := by
  obtain ⟨m, hm⟩ := hw
  have hcount : recordCount (c i) = m := by
    rw [recordCount, hm, Nat.mul_div_cancel_left _ (by decide)]
  have hoff : DIRENT * k ≤ (c i).length := hm ▸ Nat.mul_le_mul_left _ (hcount ▸ hk)
  have hword : MAXFILE * BSIZE < 2 ^ 32 - DIRENT := by decide
  by_cases hfull : MAXFILE * BSIZE < DIRENT * k + DIRENT
  · -- the records fill a directory of the maximum size
    have hk' : k = m ∧ MAXFILE * BSIZE ≤ (c i).length := by
      simp only [hcount, hm, MAXFILE, NDIRECT, NINDIRECT, BSIZE, DIRENT, DIRSIZ] at *
      omega
    refine .inr ⟨hk'.1.trans hcount.symm, hk'.2, ?_⟩
    rw [written, writeBytes, if_pos (.inr (.inr (hsrc ▸ hfull)))]
  · left
    rw [written, writeBytes, if_neg (by omega), hsrc]
    rfl

/-- A record is written, over one that is there or behind the last one. -/
theorem writeDirent_dir (ht : τ i = some .T_DIR) (hx : ⟨dp, i, true⟩ ∈ l)
    (hw : DIRENT ∣ (c i).length) (hk : k ≤ recordCount (c i)) (hsrc : src.length = DIRENT)
    (hlog : E .tooBig)
    (hE : k < recordCount (c i) ∨ E .outOfBlocks ∧ (MAXFILE * BSIZE ≤ (c i).length → E e)) :
    Triple E (Files l τ c) (writeDirent dp (DIRENT * k) src e)
      fun _ => Dir l i (patch (c i) k src) := by
  intro s h
  have hlen := h.length_le (i := i) (by rw [ht]; nofun)
  have hword : MAXFILE * BSIZE < 2 ^ 32 - DIRENT := by decide
  have hmul : DIRENT * recordCount (c i) = (c i).length := Nat.mul_div_cancel' hw
  have hoff : DIRENT * k ≤ (c i).length := hmul ▸ Nat.mul_le_mul_left _ hk
  have hin : k < recordCount (c i) → DIRENT * k + src.length ≤ (c i).length := by
    intro hlt
    rw [hsrc, ← hmul, ← Nat.mul_succ]
    exact Nat.mul_le_mul_left _ hlt
  refine Triple.bind (Q := fun r s => r = (written c i (DIRENT * k) src).1 ∧
    Files l τ (written c i (DIRENT * k) src).2 s)
    (writei_files (hE.imp hin And.left) hlog (by rw [ht]; nofun) (by omega)
      (by rw [hsrc]; decide) hx) (fun r => .of_and fun hr => ?_) s h
  rcases written_record hw hk hsrc hlen with hw | ⟨hend, hfull, hw⟩
  · rw [hr, hw, if_pos rfl]
    exact .pure fun s h => ⟨τ, _, h, ht, Function.update_self ..⟩
  · rw [hr, hw, if_neg nofun]
    exact .panic ((hE.resolve_left (by omega)).2 hfull)

/-! ## The log -/

/-- What is done to the files and to the log by the same function. -/
theorem files_and_log {α : Type} {x : Kernel α} {P P' : State → Prop} {Q Q' : α → State → Prop}
    (h : Triple (fun e => E e ∨ e = .tooBig) P x Q)
    (h' : Triple (Crowded sb MAXOPBLOCKS) P' x Q') :
    Triple (fun e => E e ∨ TooBig sb e) (fun s => P s ∧ P' s) x fun a s => Q a s ∧ Q' a s :=
  (h.and h').weaken fun _ he => he.1.imp_right fun hbig => ⟨hbig, he.2 hbig⟩

theorem Ready.logged (h : Ready sb 0 0 s) : Logged sb 0 s := ⟨[], le_rfl, h.logs⟩

theorem iget_ready : Triple (Crowded sb f) (Ready sb 0 0) (iget inum) fun _ => Ready sb 0 0 := by
  refine .read fun icache => ?_
  split
  · exact .bind_pure (.writes fun _ => id)
  · split
    · exact .bind_pure (.writes fun _ => id)
    · exact .panic nofun

theorem dirlookup_ready (hx : ⟨dp, i, true⟩ ∈ l) : Triple (Crowded sb f)
    (fun s => Calm l s ∧ Ready sb 0 0 s) (dirlookup dp name) fun _ => Ready sb 0 0 := by
  have hloop : ∀ offs, Triple (Crowded sb f) (fun s => Calm l s ∧ Ready sb 0 0 s)
      (dirlookupLoop dp name offs) fun _ => Ready sb 0 0 := by
    intro offs
    induction offs with
    | nil => exact .pure fun s h => h.2
    | cons off offs ih =>
      exact .bind (readDirent_keeps (fun _ h => Calm.locked hx h.1) nofun) fun de =>
        .ite (fun _ => ih) fun _ => .ite (fun _ => .bind (iget_ready.pre fun _ => And.right)
          fun _ => .pure fun _ => id) fun _ => ih
  exact .bind (.check_keeps nofun) fun _ => .read fun _ => hloop _

/-- A record lies in one block. -/
theorem span_record : span (DIRENT * k) DIRENT = 1 := by
  rw [span, if_neg (by decide)]
  simp only [DIRENT, DIRSIZ, BSIZE]
  omega

theorem writeDirent_logged (hsrc : src.length = DIRENT) (he : e ≠ .tooBig) :
    Triple (Crowded sb MAXOPBLOCKS) (Ready sb 0 0) (writeDirent dp (DIRENT * k) src e)
      fun _ => Logged sb 3 := by
  have hw : Triple (Short sb 0 0 (span (DIRENT * k) src.length)) (Ready sb 0 0)
      (writei dp (DIRENT * k) src) _ := writei_spare
  rw [hsrc, span_record] at hw
  refine .bind ((hw.post fun _ _ h => h.2).weaken fun e h hbig hfit => h.2 hbig ?_) fun r =>
    .ite (fun _ => .pure fun _ => id) fun _ => .panic fun hbig => absurd hbig he
  exact Nat.lt_of_le_of_lt (Nat.add_le_add_right (by decide) _) hfit

theorem addLinks_logged (hn : n ≤ f + 1) :
    Triple (Crowded sb f) (Logged sb n) (addLinks ip d) fun _ => Logged sb (n + 1) :=
  .bind (Q := fun _ => Logged sb n) (.writes fun _ => .setEntry) fun _ => iupdate_logged hn

theorem iunlockput_logged (hn : n ≤ f) : Triple (Crowded sb f)
    (fun s => Calm (⟨ip, i, lk⟩ :: l) s ∧ Logged sb n s) (iunlockput ip)
    fun _ => Logged sb (n + 2) :=
  .bind (iunlock_keeps nofun) fun _ => iput_logged hn

theorem Dir.calm (h : Dir l i b s) : Calm l s :=
  let ⟨_, _, h, _⟩ := h
  h.calm

/-! ## `dirlink` -/

theorem find_isSome : (find b name).isSome = (lookup b name).isSome := by
  rw [find, Option.isSome_map]

theorem find_eq_none : find b name = none ↔ lookup b name = none := by
  rw [find, Option.map_eq_none_iff]

/-- `dirlookup` of an operation that has not written yet. -/
theorem dirlookup_quiet (ht : τ i = some .T_DIR) (hx : ⟨dp, i, true⟩ ∈ l)
    (hw : DIRENT ∣ (c i).length) (hE : (find (c i) name).isSome → E .iget) :
    Triple (fun e => E e ∨ TooBig sb e) (fun s => Files l τ c s ∧ Ready sb 0 0 s)
      (dirlookup dp name) fun r s =>
        Looked l τ c (c i) (lookup (c i) name) r s ∧ Ready sb 0 0 s := by
  refine (files_and_log ((dirlookup_files ht hx hw).weaken fun e he => .inl ?_)
    (dirlookup_ready hx)).pre fun s h => ⟨h.1, h.1.calm, h.2⟩
  rw [he.2]
  exact hE (find_isSome.trans he.1)

open DirOp (LinkPanic) in
theorem dirlink_dir {inum : Nat} (ht : τ i = some .T_DIR) (hx : ⟨dp, i, true⟩ ∈ l)
    (hw : DIRENT ∣ (c i).length) :
    Triple (fun e => LinkPanic (c i) name e ∨ TooBig sb e)
      (fun s => Files l τ c s ∧ Ready sb 0 0 s) (dirlink dp name inum) fun r s =>
        (if (find (c i) name).isSome then r = false ∧ Dir l i (c i) s
        else r = true ∧ Dir l i (patch (c i) (freeRecord (c i)) (encodeDirent inum name)) s) ∧
          s.sb = sb := by
  refine .bind (dirlookup_quiet ht hx hw fun h => .inl ⟨h, rfl⟩) fun r => ?_
  rw [find_isSome]
  cases hf : lookup (c i) name with
  | some k =>
    refine looked_some fun ip hr => ?_
    subst hr
    exact .bind ((files_and_log (iput_dir (.inr rfl) hx) (iput_logged (Nat.zero_le _))).pre
      fun s h => ⟨⟨τ, c, h.1, ht, rfl⟩, h.1.calm, h.2.logged⟩) fun _ =>
        .pure fun s h => ⟨⟨rfl, h.1⟩, h.2.sb_eq⟩
  | none =>
    refine looked_none fun hr => ?_
    subst hr
    refine .reads_known (p := fun size => size = (c i).length) (fun _ h => (h.1.ino hx).2)
      fun size hsize => ?_
    have hstop : (size + (DIRENT - 1)) / DIRENT * DIRENT = DIRENT * recordCount (c i) := by
      obtain ⟨m, hm⟩ := hw
      rw [hsize, recordCount, hm]
      simp only [DIRENT, DIRSIZ]
      omega
    have hfree : (((List.range (recordCount (c i))).find? fun k =>
        (record (c i) k).inum = 0).map (DIRENT * ·)).getD (DIRENT * recordCount (c i)) =
          DIRENT * freeRecord (c i) := by
      rw [freeRecord]
      cases (List.range (recordCount (c i))).find? fun k => (record (c i) k).inum = 0 <;> rfl
    have hnone : find (c i) name = none := find_eq_none.mpr hf
    rw [hstop, hsize, offsets_eq hw]
    refine .bind (Q := fun off s => off = DIRENT * freeRecord (c i) ∧ Files l τ c s ∧
      Ready sb 0 0 s) (fun s h => ?_) fun off => .of_and fun hoff => ?_
    · rw [emptyLoop_eq h.1 ht hx fun k hk => List.mem_range.mp hk, hfree]
      exact ⟨rfl, h⟩
    · rw [hoff]
      exact .bind (files_and_log (writeDirent_dir ht hx hw freeRecord_le length_encodeDirent
        (.inr rfl) (.inr ⟨.inl (.inr ⟨hnone, .inl rfl⟩),
          fun h => .inl (.inr ⟨hnone, .inr ⟨h, rfl⟩⟩)⟩))
        (writeDirent_logged length_encodeDirent (by simp))) fun _ =>
          .pure fun s h => ⟨⟨rfl, h.1⟩, h.2.sb_eq⟩

/-! ## `unlink` -/

theorem addLinks_dir (hlog : E .tooBig) (hx : ⟨ip, j, true⟩ ∈ l) :
    Triple E (Dir l i b) (addLinks ip n) fun _ => Dir l i b := by
  rintro s ⟨τ, c, ⟨v, h, hτ, hc⟩, h'⟩
  refine (addLinks_content hlog hx s ⟨h, rfl⟩).imp (fun _ => id) fun _ s' hs => ?_
  exact ⟨τ, c, ⟨v, hs.1, hτ, by rwa [hs.2]⟩, h'⟩

/-- The directory has the bytes `b`, and the log has at most `n` blocks. -/
def Logging (sb : Superblock) (n : Nat) (l : List Pin) (i : Nat) (b : List UInt8) (s : State) :
    Prop :=
  Dir l i b s ∧ Logged sb n s

theorem addLinks_logging (hx : ⟨ip, j, true⟩ ∈ l) (hn : n ≤ MAXOPBLOCKS) :
    Triple (fun e => E e ∨ TooBig sb e) (Logging sb n l i b) (addLinks ip d)
      fun _ => Logging sb (n + 1) l i b :=
  files_and_log (addLinks_dir (.inr rfl) hx) (addLinks_logged (hn.trans (Nat.le_succ _)))

theorem iunlockput_logging (hl : ⟨dp, i, lk⟩ ∈ l) (hn : n ≤ MAXOPBLOCKS) :
    Triple (fun e => E e ∨ TooBig sb e) (Logging sb n (⟨ip, j, true⟩ :: l) i b) (iunlockput ip)
      fun _ => Logging sb (n + 2) l i b :=
  (files_and_log (iunlockput_dir (.inr rfl) hl) (iunlockput_logged hn)).pre
    fun _ h => ⟨h.1, h.1.calm, h.2⟩

open DirOp (CanUnlink UnlinkPanic)

/-- What `unlink` returns, and what it makes of the directory. -/
def Unlinked (sb : Superblock) (l : List Pin) (τ : Nat → Option InodeType) (c : Nat → List UInt8)
    (i : Nat) (name : Name) (r : Int) (s : State) : Prop :=
  (¬ CanUnlink τ c (c i) name ∧ r = -1 ∧ Dir l i (c i) s ∨
    CanUnlink τ c (c i) name ∧ r = 0 ∧ ∃ k, lookup (c i) name = some k ∧
      Dir l i (patch (c i) k (List.replicate DIRENT 0)) s) ∧ s.sb = sb

/-- The end of `unlink` with a name that is removed. -/
theorem unlinkIn_removed (hl : ⟨dp', i, lk⟩ ∈ l) (hcan : CanUnlink τ c (c i) name)
    (hf : lookup (c i) name = some k) :
    Triple (fun e => E e ∨ TooBig sb e)
      (Logging sb 4 (⟨ip, j, true⟩ :: ⟨dp, i, true⟩ :: l) i
        (patch (c i) k (List.replicate DIRENT 0)))
      (do
        iunlockput dp
        addLinks ip (-1)
        iunlockput ip
        pure (0 : Int)) (Unlinked sb l τ c i name) := by
  have hput : Triple (fun e => E e ∨ TooBig sb e)
      (Logging sb 4 (⟨ip, j, true⟩ :: ⟨dp, i, true⟩ :: l) i
        (patch (c i) k (List.replicate DIRENT 0))) (iunlockput dp)
      fun _ => Logging sb 6 (⟨ip, j, true⟩ :: l) i (patch (c i) k (List.replicate DIRENT 0)) :=
    (iunlockput_logging (.tail _ hl) (by decide)).pre fun s h => ⟨h.1.perm (.swap ..), h.2⟩
  exact .bind hput fun _ => .bind (addLinks_logging List.mem_cons_self (by decide)) fun _ =>
    .bind (iunlockput_logging hl (by decide)) fun _ =>
      .pure fun s h => ⟨.inr ⟨hcan, rfl, k, hf, h.1⟩, h.2.sb_eq⟩

/-- A name is not removed. -/
theorem unlinkIn_refused (hl : ⟨dp', i, lk⟩ ∈ l) (hcan : ¬ CanUnlink τ c (c i) name)
    (hn : n ≤ MAXOPBLOCKS) :
    Triple (fun e => E e ∨ TooBig sb e) (Logging sb n (⟨dp, i, true⟩ :: l) i (c i))
      (do
        iunlockput dp
        pure (-1)) (Unlinked sb l τ c i name) :=
  .bind (iunlockput_logging hl hn) fun _ => .pure fun _ h => ⟨.inl ⟨hcan, rfl, h.1⟩, h.2.sb_eq⟩

theorem Files.logging (h : Files l τ c s) (ht : τ i = some .T_DIR) (hr : Ready sb 0 0 s) :
    Logging sb 0 l i (c i) s :=
  ⟨⟨τ, c, h, ht, rfl⟩, hr.logged⟩

/-- The rest of `unlink` behind the test for an empty directory; the directory and the inode of the
record are both locked. -/
theorem unlinkIn_tested {empty : Bool} {type : Option InodeType} (ht : τ i = some .T_DIR)
    (hl : ⟨dp', i, lk⟩ ∈ l) (hw : DIRENT ∣ (c i).length) (hf : lookup (c i) name = some k)
    (hcan : CanUnlink τ c (c i) name ↔ empty = true) :
    Triple (fun e => E e ∨ TooBig sb e)
      (fun s => Files (⟨ip, j, true⟩ :: ⟨dp, i, true⟩ :: l) τ c s ∧ Ready sb 0 0 s)
      (if empty = false then do
        iunlockput ip
        iunlockput dp
        pure (-1)
      else do
        writeDirent dp (DIRENT * k) (List.replicate DIRENT 0) .unlinkWritei
        if type = some .T_DIR then addLinks dp (-1) else pure ()
        iunlockput dp
        addLinks ip (-1)
        iunlockput ip
        pure (0 : Int)) (Unlinked sb l τ c i name) := by
  have hk : k < recordCount (c i) := List.mem_range.mp (List.mem_of_find?_eq_some hf)
  have hdp : ⟨dp, i, true⟩ ∈ ⟨ip, j, true⟩ :: ⟨dp, i, true⟩ :: l := .tail _ List.mem_cons_self
  refine .ite (fun h0 => ?_) fun h0 => ?_
  · have hno : ¬ CanUnlink τ c (c i) name := by
      rw [hcan, h0]
      nofun
    exact .bind ((iunlockput_logging (.tail _ hl) (Nat.zero_le _)).pre
      fun s h => h.1.logging ht h.2) fun _ => unlinkIn_refused hl hno (by decide)
  · have hyes : CanUnlink τ c (c i) name := hcan.mpr (by simpa using h0)
    refine .bind (files_and_log (writeDirent_dir ht hdp hw hk.le List.length_replicate (.inr rfl)
      (.inl hk)) (writeDirent_logged List.length_replicate nofun)) fun _ =>
      .ite (fun _ => .bind (addLinks_logging hdp (by decide)) fun _ =>
        unlinkIn_removed hl hyes hf) fun _ => .pre (P := Logging sb 4 (⟨ip, j, true⟩ ::
          ⟨dp, i, true⟩ :: l) i (patch (c i) k (List.replicate DIRENT 0)))
          (unlinkIn_removed hl hyes hf) ?_
    rintro s ⟨h, D, hD, hlog⟩
    exact ⟨h, D, hD.trans (by decide), hlog⟩

theorem unlinkIn_dir (ht : τ i = some .T_DIR) (hl : ⟨dp', i, lk⟩ ∈ l)
    (hw : DIRENT ∣ (c i).length) :
    Triple (fun e => UnlinkPanic (c i) name e ∨ TooBig sb e)
      (fun s => Files (⟨dp, i, true⟩ :: l) τ c s ∧ Ready sb 0 0 s) (unlinkIn dp name)
      (Unlinked sb l τ c i name) := by
  refine .ite (fun hdot => (unlinkIn_refused hl (fun h => h.1 hdot) (Nat.zero_le _)).pre
    fun s h => h.1.logging ht h.2) fun hdot =>
      .bind (dirlookup_quiet ht List.mem_cons_self hw fun h => ⟨h, .inl rfl⟩) fun r => ?_
  cases hf : lookup (c i) name with
  | none =>
    have hnone : ¬ CanUnlink τ c (c i) name := by
      rintro ⟨-, j, hj, -⟩
      rw [find_eq_none.mpr hf] at hj
      cases hj
    refine looked_none fun hr => ?_
    subst hr
    exact (unlinkIn_refused hl hnone (Nat.zero_le _)).pre fun s h => h.1.logging ht h.2
  | some k =>
    obtain ⟨j, hj⟩ : ∃ j, (record (c i) k).inum = j := ⟨_, rfl⟩
    have hfind : find (c i) name = some j := by rw [find, hf, ← hj]; rfl
    have hsome : (find (c i) name).isSome := by rw [hfind]; rfl
    have hcan : CanUnlink τ c (c i) name ↔ (τ j = some .T_DIR → EmptyDir (c j)) := by
      refine ⟨?_, fun h => ⟨hdot, j, hfind, h⟩⟩
      rintro ⟨-, j', hj', h⟩
      rwa [Option.some.inj (hfind.symm.trans hj')]
    refine looked_some fun ip hr => ?_
    subst hr
    rw [hj]
    have hip : ⟨ip, j, true⟩ ∈ ⟨ip, j, true⟩ :: ⟨dp, i, true⟩ :: l := List.mem_cons_self
    refine .bind (files_and_log (ilock_files fun _ => .inl ⟨hsome, .inr (.inl rfl)⟩)
      (ilock_ready (by simp [Crowded]) (by simp [Crowded]))) fun _ =>
      .reads_known (p := fun st => st.type = τ j) (fun _ h => (h.1.ino hip).1) fun st hst =>
        .ite (fun _ => .panic (.inl ⟨hsome, .inr (.inr (.inl rfl))⟩)) fun _ => ?_
    rw [← hst] at hcan
    refine .ite (fun htd => ?_) fun htd => ?_
    · have hread : Triple (fun e => UnlinkPanic (c i) name e ∨ TooBig sb e)
          (fun s => Files (⟨ip, j, true⟩ :: ⟨dp, i, true⟩ :: l) τ c s ∧ Ready sb 0 0 s)
          (isdirempty ip) fun empty s => (empty = true ↔ EmptyDir (c j)) ∧
            Files (⟨ip, j, true⟩ :: ⟨dp, i, true⟩ :: l) τ c s ∧ Ready sb 0 0 s := by
        refine (files_and_log ((isdirempty_files (hst.symm.trans htd) hip).weaken fun e he =>
          .inl ⟨hsome, .inr (.inr (.inr he))⟩) (isdirempty_keeps (P := fun s =>
            Calm (⟨ip, j, true⟩ :: ⟨dp, i, true⟩ :: l) s ∧ Ready sb 0 0 s)
            (fun s h => Calm.locked hip h.1) (by simp [Crowded]))).mono
          (fun s h => ⟨h.1, h.1.calm, h.2⟩) fun _ s h => ⟨h.1.1, h.1.2, h.2.2⟩
      refine .bind hread fun empty => .of_and fun hempty => unlinkIn_tested ht hl hw hf ?_
      rw [hcan, hempty, htd]
      simp
    · refine .bind (Q := fun empty s => empty = true ∧
        Files (⟨ip, j, true⟩ :: ⟨dp, i, true⟩ :: l) τ c s ∧ Ready sb 0 0 s)
        (.pure fun s h => ⟨rfl, h⟩) fun empty => .of_and fun hempty =>
          unlinkIn_tested ht hl hw hf ?_
      simp [hcan, htd, hempty]

/-! ## Operations as on a finite map -/

theorem Dir.forget (h : Dir (x :: l) i b s) : Dir l i b s := by
  obtain ⟨τ, c, h, h'⟩ := h
  exact ⟨τ, c, h.congr fun _ h => h.forget, h'⟩

/-- An operation has ended. -/
theorem endOp_dir : Triple E (fun s => Dir l i b s ∧ s.sb = sb) endOp
    fun _ s => Dir l i b s ∧ Ready sb 0 0 s := by
  refine .writes ?_
  rintro s ⟨⟨τ, c, ⟨v, h, h'⟩, hi⟩, hsb⟩
  exact ⟨⟨τ, c, ⟨v, ⟨h.1.congr rfl rfl rfl, h.2.congr rfl rfl⟩, h'⟩, hi⟩, ⟨h.1.boot, Nat.zero_le _⟩,
    hsb, rfl⟩

/-- The caller keeps its reference to the directory. -/
theorem DirOp.run_spec {a : DirOp} (ht : τ i = some .T_DIR) (hb : IsMap (c i)) :
    Triple (a.MayPanic sb (c i)) (fun s => Files [⟨dp, i, false⟩] τ c s ∧ Ready sb 0 0 s)
      (a.run dp) fun r s => ∃ b', (a.Post τ c (c i) r b' ∧ IsMap b') ∧
        Dir [⟨dp, i, false⟩] i b' s ∧ Ready sb 0 0 s := by
  have hn : τ i ≠ none := by
    rw [ht]
    nofun
  cases a with
  | lookup name hname =>
    refine .bind (ilock_open hn) fun _ => .bind (Q := fun r s =>
      Looked [⟨dp, i, true⟩] τ c (c i) (Disk.lookup (c i) name) r s ∧ Ready sb 0 0 s) ?_
      fun r => ?_
    · refine (((dirlookup_files ht List.mem_cons_self hb.whole).and
        (dirlookup_ready (f := 0) List.mem_cons_self)).weaken ?_).pre
          fun s h => ⟨h.1, h.1.calm, h.2⟩
      rintro e ⟨⟨hsome, rfl⟩, -⟩
      exact ⟨find_isSome.trans hsome, rfl⟩
    cases hf : Disk.lookup (c i) name with
    | none =>
      refine looked_none fun hr => ?_
      subst hr
      refine .bind iunlock_open fun _ => .pure fun s h =>
        ⟨c i, ⟨⟨?_, rfl⟩, hb⟩, ⟨τ, c, h.1, ht, rfl⟩, h.2⟩
      rw [find_eq_none.mpr hf]
    | some k =>
      refine looked_some fun ip hr => ?_
      subst hr
      refine .bind (iunlock_open.pre fun s h => ⟨h.1.congr fun _ h => h.perm (.swap ..), h.2⟩)
        fun _ => .reads_bind fun inum => .pure ?_
      rintro s ⟨⟨h, hready⟩, rfl⟩
      have hinum : (s.icache ip).inum = (record (c i) k).inum := by
        obtain ⟨v, hv, -⟩ := h
        exact (hv.2.pinned ⟨ip, _, false⟩ (.tail _ List.mem_cons_self)).1
      have hperm := Dir.perm (i := i) ⟨τ, c, h, ht, rfl⟩ (.swap ..)
      refine ⟨c i, ⟨⟨?_, rfl⟩, hb⟩, hperm.forget, hready⟩
      rw [hinum, find, hf]
      rfl
  | link name inum hname hi =>
    refine .bind (ilock_open hn) fun _ => .bind (dirlink_dir ht List.mem_cons_self hb.whole)
      fun r => ?_
    refine .pre (P := fun s => ∃ b', (DirOp.Post τ c (c i) (.ret (if r then 0 else -1)) b'
      (.link name inum hname hi) ∧ IsMap b') ∧ Dir [⟨dp, i, true⟩] i b' s ∧ s.sb = sb)
      (.exists fun b' => .of_and fun hpost => .bind iunlock_dir fun _ => .bind endOp_dir fun _ =>
        .pure fun s h => ⟨b', hpost, h⟩) ?_
    rintro s ⟨h, hsb⟩
    simp only [DirOp.Post]
    split at h
    · next hsome =>
      obtain ⟨rfl, h⟩ := h
      exact ⟨c i, ⟨by rw [if_pos hsome]; exact ⟨rfl, rfl⟩, hb⟩, h, hsb⟩
    · next hnone =>
      obtain ⟨rfl, h⟩ := h
      obtain ⟨hmap, hfind⟩ := hb.link hi hname (by simpa using hnone)
      exact ⟨_, ⟨by rw [if_neg hnone]; exact ⟨rfl, hfind⟩, hmap⟩, h, hsb⟩
  | unlink name hname =>
    refine .bind (idup_open List.mem_cons_self) fun dp' => .bind (ilock_open hn) fun _ =>
      .bind (unlinkIn_dir ht List.mem_cons_self hb.whole) fun r => ?_
    refine .pre (P := fun s => ∃ b', (DirOp.Post τ c (c i) (.ret r) b' (.unlink name hname) ∧
      IsMap b') ∧ Dir [⟨dp, i, false⟩] i b' s ∧ s.sb = sb) (.exists fun b' => .of_and fun hpost =>
        .bind endOp_dir fun _ => .pure fun s h => ⟨b', hpost, h⟩) ?_
    rintro s ⟨⟨hno, rfl, h⟩ | ⟨hcan, rfl, k, hf, h⟩, hsb⟩
    · exact ⟨c i, ⟨⟨fun _ => ⟨rfl, rfl⟩, fun h => absurd h hno⟩, hb⟩, h, hsb⟩
    · obtain ⟨hmap, hfind⟩ := hb.unlink hname hf
      exact ⟨_, ⟨⟨fun h => absurd hcan h, fun _ => ⟨rfl, hfind⟩⟩, hmap⟩, h, hsb⟩

/-- Operations one after another on a directory to which the caller has a reference, and in which
no two records in use have the same name. -/
def dirOps (dp : Ip) : LTS State DirOp where
  init s := disk.Reached s ∧ 0 < (s.icache dp).ref ∧
    (s.dinode (s.icache dp).inum).type = some .T_DIR ∧ IsMap (s.contents (s.icache dp).inum)
  next s a := (a.run dp s).toOption.map Prod.snd

def State.dirBytes (s : State) (dp : Ip) : List UInt8 := s.contents (s.icache dp).inum

/-- The caller has a reference to a directory that is a map, between two operations. -/
def MapAt (dp : Ip) (s : State) : Prop :=
  ∃ i b, IsMap b ∧ Dir [⟨dp, i, false⟩] i b s ∧ Ready s.sb 0 0 s

theorem Dir.dirBytes (h : Dir [⟨dp, i, false⟩] i b s) : s.dirBytes dp = b := by
  obtain ⟨τ, c, h, -, rfl⟩ := h
  have hcont := h.contents_eq
  obtain ⟨v, hv, -⟩ := h
  rw [State.dirBytes, (hv.2.pinned _ List.mem_cons_self).1, hcont]

/-- What an operation does to a directory that is a map. -/
theorem MapAt.run {a : DirOp} (h : MapAt dp s) : Result (a.MayPanic s.sb (s.dirBytes dp))
    (fun r s' => a.Post (fun j => (s.dinode j).type) s.contents (s.dirBytes dp) r
      (s'.dirBytes dp) ∧ MapAt dp s') (a.run dp s) := by
  obtain ⟨i, b, hb, hdir, hready⟩ := h
  obtain ⟨τ, c, hf, ht, rfl⟩ := id hdir
  have hτ : (fun j => (s.dinode j).type) = τ := by
    obtain ⟨v, hv, hτ, -⟩ := hf
    funext j
    rw [← hτ, ← hv.2.disk j]
    rfl
  rw [hdir.dirBytes, hτ, hf.contents_eq]
  refine (a.run_spec ht hb s ⟨hf, hready⟩).imp (fun _ => id) ?_
  rintro r s' ⟨b', ⟨hpost, hb'⟩, h', hready'⟩
  have hsb := hready'.2.1
  rw [h'.dirBytes]
  exact ⟨hpost, i, b', hb', h', hsb ▸ hready'⟩

theorem mapAt_invariant : (dirOps dp).Invariant (fun _ _ => True) (MapAt dp) where
  init := by
    rintro s ⟨h, hr, ht, hm⟩
    obtain ⟨hcalm, hlog⟩ := idle_invariant.of_reached h
    obtain ⟨v, hv⟩ := hcalm.pin hr
    exact ⟨_, _, hm, ⟨_, _, hv.files, ht, rfl⟩, ⟨hv.1.boot, Nat.zero_le _⟩, rfl, hlog⟩
  step := by
    intro s a s' hs _ hn
    have hn : (a.run dp s).toOption.map Prod.snd = some s' := hn
    have hspec := hs.run (a := a)
    cases hx : a.run dp s with
    | ok r =>
      rw [hx] at hn hspec
      exact Option.some.inj hn ▸ hspec.2
    | error e =>
      rw [hx] at hn
      cases hn

/-- A directory reached by any operations is a finite map, on which each operation does what it does
on a map. -/
theorem directory_isMap (h : (dirOps dp).Reached s) : IsMap (s.dirBytes dp) ∧
    ∀ a : DirOp, Result (a.MayPanic s.sb (s.dirBytes dp))
      (fun r s' => a.Post (fun j => (s.dinode j).type) s.contents (s.dirBytes dp) r
        (s'.dirBytes dp)) (a.run dp s) := by
  have hmap := mapAt_invariant.of_reached h
  refine ⟨?_, fun a => hmap.run.imp (fun _ => id) fun _ _ => And.left⟩
  obtain ⟨i, b, hb, hdir, -⟩ := hmap
  rwa [hdir.dirBytes]

/-- The first entry of the cache. -/
def rootIp : Ip := ⟨0, Fs.NINODE_pos⟩

theorem isMap_of_length (h : b.length = DIRENT) : IsMap b := by
  have hone : recordCount b = 1 := by rw [recordCount, h]; rfl
  refine ⟨⟨1, h⟩, fun j k hj hk _ _ _ => ?_⟩
  omega

/-- The directory has `"a"` and the file `"f"`, which is removed. -/
theorem directory_isMap_unlink : ∃ s r s', (dirOps rootIp).Reached s ∧
    find (s.dirBytes rootIp) [102] = some 2 ∧ find (s.dirBytes rootIp) [97] = some 7 ∧
    (DirOp.unlink [102] (by decide)).run rootIp s = .ok (r, s') ∧ r = .ret 0 ∧
    find (s'.dirBytes rootIp) [102] = none ∧ find (s'.dirBytes rootIp) [97] = some 7 := by
  obtain ⟨s, hs, h⟩ := LTS.exists_reached_of_run (M := disk) (s := emptyImage.boot)
    [.iget 1, .create emptyCaller [102] .T_FILE 0 0]
    (fun s => decide ((0 < (s.icache rootIp).ref ∧
      (s.dinode (s.icache rootIp).inum).type = some .T_DIR ∧
      (s.contents (s.icache rootIp).inum).length = DIRENT) ∧
      ((dirOps rootIp).run s [.link [97] 7 (by decide) (by decide)]).map (fun t =>
        decide (find (t.dirBytes rootIp) [102] = some 2 ∧ (t.dinode 2).type = some .T_FILE ∧
          find (t.dirBytes rootIp) [97] = some 7 ∧
          ((DirOp.unlink [102] (by decide)).run rootIp t).isOk)) = some true))
    ⟨_, blockOwnership_emptyImage, rfl⟩ (by decide +kernel)
  obtain ⟨⟨hr, ht, hl⟩, hlink⟩ := of_decide_eq_true h
  have hinit : (dirOps rootIp).init s := ⟨hs, hr, ht, isMap_of_length hl⟩
  obtain ⟨t, hreach, hq⟩ := LTS.exists_reached_of_run _ _ hinit hlink
  obtain ⟨hf, htype, ha, hok⟩ := of_decide_eq_true hq
  have hpost := (directory_isMap hreach).2 (.unlink [102] (by decide))
  cases hx : (DirOp.unlink [102] (by decide)).run rootIp t with
  | error e =>
    rw [hx] at hok
    cases hok
  | ok r =>
    rw [hx] at hpost
    obtain ⟨hret, hfind⟩ := hpost.2 ⟨by decide, 2, hf, by simp [htype]⟩
    refine ⟨t, r.1, r.2, hreach, hf, ha, hx, hret, ?_, ?_⟩
    · rw [hfind [102] (by decide), if_pos (by decide)]
    · rw [hfind [97] (by decide), if_neg (by decide), ha]

end Xv6.Disk
