import Mathlib.Data.Finset.Card
import Mathlib.Data.List.Perm.Subperm
import Xv6.Disk.Ownership

/-! # Room on the disk and in the log

`balloc` panics if no block is free, and `log_write` if the log is full. What `writei` takes of both
is at most a block for each block that it writes to, one for the indirect block and, in the log, the
blocks of the free map and the block of the inode. The log of an operation is counted up from the
empty log that the operation before has left. -/

namespace Xv6.Disk

open Fault
open Fs (BSIZE NDIRECT NINDIRECT)
open Log (LOGSIZE)
open Function

variable {l : List Pin} {v : Nat → Extent} {s s' : State} {ip : Ip} {i k n off : Nat}
  {src : List UInt8} {E : Panic → Prop}

def State.free (s : State) : Nat := ((Finset.range s.sb.size).filter (s.bitmap · = false)).card

namespace Superblock

variable (sb : Superblock)

/-- The blocks of the free map, as `mkfs` counts them. -/
def bitmapBlocks : List Nat := (List.range (sb.size / BPB + 1)).map (· + sb.bmapstart)

/-- The log has room for `n` blocks of a file, its indirect block and the free map, and for one more
block behind them. -/
def Fits (n : Nat) : Prop := n + 1 + (sb.size / BPB + 1) < min LOGSIZE (sb.nlog - 1)

instance (n : Nat) : Decidable (sb.Fits n) := inferInstanceAs (Decidable (_ < _))

end Superblock

/-- The blocks that have an offset of a part of a file. -/
def span (off n : Nat) : Nat := if n = 0 then 0 else (off + n - 1) / BSIZE - off / BSIZE + 1

/-! ## Free blocks and the log -/

/-- Of `N` blocks that were free at the start, at most `n` have been taken. The boot block is in
use. -/
def Spare (N n : Nat) (s : State) : Prop := s.bitmap 0 = true ∧ N ≤ s.free + n

theorem Spare.mono (h : Spare N n s) (hn : n ≤ m) : Spare N m s := by
  refine ⟨h.1, ?_⟩
  have := h.2
  omega

/-- The log has blocks of `D` and blocks of the free map, each once. -/
structure Logs (sb : Superblock) (D : List Nat) (s : State) : Prop where
  sb_eq : s.sb = sb
  nodup : s.logged.Nodup
  mem : ∀ b ∈ s.logged, b ∈ D ∨ b ∈ sb.bitmapBlocks

theorem Logs.setEntry {e : Entry} (h : Logs sb D s) : Logs sb D (s.setEntry ip e) :=
  ⟨h.sb_eq, h.nodup, h.mem⟩

theorem Logs.mono (h : Logs sb D s) (hD : ∀ b ∈ D, b ∈ D') : Logs sb D' s :=
  ⟨h.sb_eq, h.nodup, fun b hb => (h.mem b hb).imp_left (hD b)⟩

/-- The block of a change is one of the list or of the free map. -/
theorem Logs.insert (h : Logs sb D s) (hb : b ∈ D ∨ b ∈ sb.bitmapBlocks) (hsb : s'.sb = s.sb)
    (hl : s'.logged = s.logged.insert b) : Logs sb D s' := by
  refine ⟨hsb.trans h.sb_eq, hl ▸ h.nodup.insert, fun c hc => ?_⟩
  rw [hl] at hc
  rcases List.mem_insert_iff.mp hc with rfl | hc
  · exact hb
  · exact h.mem c hc

theorem Logs.hasLog (h : Logs sb D s) (hD : D.length ≤ f + 1) (hf : sb.Fits f) : s.HasLog := by
  have hsub : s.logged ⊆ D ++ sb.bitmapBlocks := fun b hb => List.mem_append.mpr (h.mem b hb)
  have hle := (h.nodup.subperm hsub).length_le
  rw [List.length_append, Superblock.bitmapBlocks, List.length_map, List.length_range] at hle
  have hlt : s.logged.length < min LOGSIZE (sb.nlog - 1) := by
    unfold Superblock.Fits at hf
    omega
  rw [← h.sb_eq] at hlt
  exact lt_min_iff.mp hlt

/-- The log runs out only if `f` blocks of a file do not fit. -/
def Crowded (sb : Superblock) (f : Nat) (e : Panic) : Prop := e = .tooBig → ¬ sb.Fits f

/-- The blocks run out only if there were too few for `n` blocks, the `f` blocks of a call and the
indirect block. -/
def Short (sb : Superblock) (N n f : Nat) (e : Panic) : Prop :=
  (e = .outOfBlocks → N < n + (f + 1)) ∧ Crowded sb f e

/-- The log has at most `n` blocks that are not of the free map. -/
def Logged (sb : Superblock) (n : Nat) (s : State) : Prop := ∃ D, D.length ≤ n ∧ Logs sb D s

theorem Logged.sb_eq (h : Logged sb n s) : s.sb = sb :=
  let ⟨_, _, h⟩ := h
  h.sb_eq

theorem Logged.mono (h : Logged sb n s) (hn : n ≤ m) : Logged sb m s := by
  obtain ⟨D, hD, hlog⟩ := h
  exact ⟨D, hD.trans hn, hlog⟩

theorem Logged.setEntry {e : Entry} (h : Logged sb n s) : Logged sb n (s.setEntry ip e) := by
  obtain ⟨D, hD, hlog⟩ := h
  exact ⟨D, hD, hlog.setEntry⟩

theorem logWrite_logs {g : State → State} {Q : Unit → State → Prop}
    (hE : Crowded sb f .tooBig → E .tooBig) (hP : ∀ s, P s → Logged sb (f + 1) s)
    (h : ∀ s, P s → Q () (g s)) : Triple E P (logWrite g) Q := by
  refine .bind (.check fun s hs hlog => hE fun _ hf => ?_) fun _ => .writes fun s hs => h s hs.1
  obtain ⟨D, hD, hs⟩ := hP s hs
  exact hlog (hs.hasLog hD hf)

theorem Short.of_crowded (h : Crowded sb f .tooBig) : Short sb N n f .tooBig := ⟨nofun, h⟩

theorem State.free_setBit (hb : s.bitmap b = false) (hs : b < s.sb.size) :
    (s.setBit b true).free + 1 = s.free := by
  have he : (Finset.range s.sb.size).filter (update s.bitmap b true · = false) =
      ((Finset.range s.sb.size).filter (s.bitmap · = false)).erase b := by
    ext c
    by_cases e : c = b
    · simp [e]
    · simp [e]
  have hmem : b ∈ (Finset.range s.sb.size).filter (s.bitmap · = false) := by simp [hb, hs]
  change ((Finset.range s.sb.size).filter (update s.bitmap b true · = false)).card + 1 = _
  rw [he, Finset.card_erase_add_one hmem]
  rfl

theorem Superblock.BBLOCK_mem {sb : Superblock} (hb : b < sb.size) :
    sb.BBLOCK b ∈ sb.bitmapBlocks :=
  List.mem_map_of_mem (List.mem_range.mpr (Nat.lt_succ_of_le (Nat.div_le_div_right hb.le)))

theorem balloc_spare (hm : m ≤ n + f) (hD : D.length ≤ f + 1) : Triple (Short sb N n f)
    (fun s => Spare N m s ∧ Logs sb D s ∧ s.ino ip = x) balloc
    fun b s => b ≠ 0 ∧ Spare N (m + 1) s ∧ Logs sb (b :: D) s ∧ s.ino ip = x := by
  refine .reads_bind fun r => ?_
  cases hf : (List.range r.sb.size).find? fun b => r.bitmap b = false with
  | none =>
    rintro s ⟨⟨⟨-, hN⟩, -⟩, rfl⟩
    refine ⟨fun _ => ?_, nofun⟩
    have hnone : ∀ b < s.sb.size, s.bitmap b = true := by simpa using hf
    have h0 : s.free = 0 := by
      refine Finset.card_eq_zero.mpr (Finset.filter_eq_empty_iff.mpr fun b hb => ?_)
      rw [hnone b (Finset.mem_range.mp hb)]
      nofun
    omega
  | some b =>
    refine .bind (Q := fun _ s => b ≠ 0 ∧ Spare N (m + 1) s ∧ Logs sb D s ∧ s.ino ip = x)
      (logWrite_logs .of_crowded (fun s h => ⟨D, hD, h.1.2.1⟩) ?_) fun _ =>
        .bind_pure (logWrite_logs .of_crowded (fun s h => ⟨D, hD, h.2.2.1⟩) ?_)
    · rintro s ⟨⟨⟨hboot, hN⟩, hlog, hx⟩, rfl⟩
      have hbit : s.bitmap b = false := by simpa using List.find?_some hf
      have hsize := List.mem_range.mp (List.mem_of_find?_eq_some hf)
      have hfree := State.free_setBit hbit hsize
      have hb : b ≠ 0 := by
        rintro rfl
        rw [hboot] at hbit
        cases hbit
      refine ⟨hb, ⟨(update_of_ne hb.symm ..).trans hboot, by omega⟩, ?_, hx⟩
      refine hlog.insert (.inr ?_) rfl rfl
      rw [← hlog.sb_eq]
      exact Superblock.BBLOCK_mem hsize
    · rintro s ⟨hb, hspare, hlog, hx⟩
      exact ⟨hb, hspare, (hlog.mono fun _ => .tail _).insert (.inl List.mem_cons_self) rfl rfl, hx⟩

/-- The indirect block, if there is one. -/
def Dinode.indirect (x : Dinode) : List Nat :=
  if x.addrs NDIRECT = 0 then [] else [x.addrs NDIRECT]

theorem Dinode.indirect_congr {x y : Dinode} (h : x.addrs NDIRECT = y.addrs NDIRECT) :
    x.indirect = y.indirect := by
  rw [Dinode.indirect, Dinode.indirect, h]

theorem Dinode.length_indirect {x : Dinode} : x.indirect.length ≤ 1 := by
  unfold Dinode.indirect
  split <;> simp

/-- At most `k` blocks have been taken for contents, and one for the indirect block, since `n`
blocks were taken; the log has blocks of `D`, of which there are at most `k`, and the indirect
block. -/
def Room (sb : Superblock) (N n k : Nat) (ip : Ip) (D : List Nat) (s : State) : Prop :=
  D.length ≤ k ∧ Spare N (n + k + (s.ino ip).indirect.length) s ∧
    Logs sb ((s.ino ip).indirect ++ D) s

theorem Room.cons (h : Room sb N n k ip D s) : Room sb N n (k + 1) ip (b :: D) s := by
  refine ⟨Nat.succ_le_succ h.1, h.2.1.mono (by omega), h.2.2.mono fun c hc => ?_⟩
  simp only [List.mem_append, List.mem_cons] at hc ⊢
  exact hc.imp_right .inr

theorem Room.length_le (h : D.length ≤ k) (hk : k ≤ f) (x : Dinode) :
    (x.indirect ++ D).length ≤ f + 1 := by
  have := x.length_indirect
  rw [List.length_append]
  omega

theorem Room.logged (h : Room sb N n k ip D s) (hk : k ≤ f) : Logged sb (f + 1) s :=
  ⟨_, Room.length_le h.1 hk _, h.2.2⟩

/-- A block for contents. -/
theorem balloc_room (hk : k < f) : Triple (Short sb N n f)
    (fun s => Room sb N n k ip D s ∧ s.ino ip = x) balloc
    fun b s => Room sb N n (k + 1) ip (b :: D) s ∧ s.ino ip = x := by
  rintro s ⟨⟨hD, hspare, hlog⟩, rfl⟩
  have hx := (s.ino ip).length_indirect
  have hino : s.ino ip = s.ino ip := rfl
  refine (balloc_spare (by omega) (Room.length_le hD hk.le _) s ⟨hspare, hlog, hino⟩).imp
    (fun _ => id) ?_
  rintro b s' ⟨-, hspare, hlog, hino⟩
  refine ⟨⟨Nat.succ_le_succ hD, ?_, ?_⟩, hino⟩
  · rw [hino]
    exact hspare.mono (by omega)
  · rw [hino]
    refine hlog.mono fun c hc => ?_
    simp only [List.mem_append, List.mem_cons] at hc ⊢
    tauto

theorem loadAddr_room (ha : a < NDIRECT) (hk : k < f) : Triple (Short sb N n f)
    (Room sb N n k ip D) (loadAddr ip a) fun b => Room sb N n (k + 1) ip (b :: D) := by
  refine .read fun addr => .ite (fun _ => ?_) fun _ => .pure fun s hs => hs.cons
  refine .pre (P := fun s => ∃ x : Dinode, Room sb N n k ip D s ∧ s.ino ip = x)
    (.exists fun x => .bind (balloc_room hk) fun b => .bind_pure (.writes fun s hs => ?_))
    fun s hs => ⟨_, hs, rfl⟩
  have hind : ((s.setAddr ip a b).ino ip).indirect = (s.ino ip).indirect :=
    Dinode.indirect_congr (by simp [State.setAddr, State.setIno, State.setEntry, State.ino, ha.ne'])
  obtain ⟨⟨hD, hspare, hlog⟩, -⟩ := hs
  rw [Room, hind]
  exact ⟨hD, hspare, hlog.setEntry⟩

/-- The indirect block has been counted. -/
theorem loadIndirect_room (hk : k ≤ f) : Triple (Short sb N n f) (Room sb N n k ip D)
    (loadAddr ip NDIRECT) fun b s => Room sb N n k ip D s ∧ b ∈ (s.ino ip).indirect := by
  refine .reads_bind fun addr => .ite (fun h0 => ?_) fun h0 => .pure ?_
  · refine .pre (P := fun s => ∃ x : Dinode, D.length ≤ k ∧ Spare N (n + k) s ∧ Logs sb D s ∧
      s.ino ip = x) (.exists fun x => .of_and fun hD => .bind (balloc_spare (by omega) (by omega))
        fun b => .bind_pure (.writes ?_)) ?_
    · rintro s ⟨hb, hspare, hlog, -⟩
      have hind : ((s.setAddr ip NDIRECT b).ino ip).indirect = [b] := by
        simp [Dinode.indirect, State.setAddr, State.setIno, State.setEntry, State.ino, hb]
      rw [Room, hind]
      exact ⟨⟨hD, hspare, hlog.setEntry⟩, List.mem_singleton_self b⟩
    · rintro s ⟨⟨hD, hspare, hlog⟩, rfl⟩
      have hind : (s.ino ip).indirect = [] := if_pos h0
      rw [hind] at hspare hlog
      exact ⟨_, hD, hspare, hlog, rfl⟩
  · rintro s ⟨hs, rfl⟩
    refine ⟨hs, ?_⟩
    rw [Dinode.indirect, if_neg h0]
    exact List.mem_singleton_self _

theorem bmap_room (hk : k < f) : Triple (Short sb N n f) (Room sb N n k ip D) (bmap ip bn)
    fun b => Room sb N n (k + 1) ip (b :: D) := by
  refine .ite (fun hbn => loadAddr_room hbn hk) fun _ => .ite (fun _ => ?_) fun _ =>
    .panic ⟨nofun, nofun⟩
  refine .bind (loadIndirect_room hk.le) fun b => .read fun addr => .ite (fun _ => ?_)
    fun _ => .pure fun s hs => hs.1.cons
  refine .pre (P := fun s => ∃ x : Dinode, b ∈ x.indirect ∧ Room sb N n k ip D s ∧ s.ino ip = x)
    (.exists fun x => .of_and fun hb => .bind (balloc_room hk) fun c =>
      .bind_pure (logWrite_logs .of_crowded (fun s hs => hs.1.logged hk) ?_))
    fun s hs => ⟨_, hs.2, hs.1, rfl⟩
  rintro s ⟨⟨hD, hspare, hlog⟩, rfl⟩
  exact ⟨hD, hspare, hlog.insert (.inl (List.mem_append_left _ hb)) rfl rfl⟩

theorem span_eq (hn : 0 < n) : span off n =
    span (off + min n (BSIZE - off % BSIZE)) (n - min n (BSIZE - off % BSIZE)) + 1 := by
  rw [span, if_neg hn.ne']
  by_cases h : n ≤ BSIZE - off % BSIZE
  · rw [min_eq_left h, Nat.sub_self, span, if_pos rfl]
    simp only [BSIZE] at h ⊢
    omega
  · rw [min_eq_right (by omega), span, if_neg (by omega)]
    simp only [BSIZE] at h ⊢
    omega

theorem writeLoop_room (h : k + span off src.length ≤ f) :
    Triple (Short sb N n f) (fun s => ∃ D, Room sb N n k ip D s) (writeLoop ip m off src)
      fun _ s => ∃ D, Room sb N n f ip D s := by
  have hend : ∀ {k s}, k ≤ f → (∃ D, Room sb N n k ip D s) → ∃ D, Room sb N n f ip D s := by
    rintro k s hk ⟨D, hD, hspare, hlog⟩
    exact ⟨D, hD.trans hk, hspare.mono (by omega), hlog⟩
  induction m generalizing off src k with
  | zero => exact .pure fun s hs => hend (by omega) hs
  | succ m ih =>
    refine .ite (fun _ => .pure fun s hs => hend (by omega) hs) fun h0 => .exists fun D => ?_
    rw [span_eq (List.length_pos_of_ne_nil h0)] at h
    refine .bind (bmap_room (by omega)) fun b =>
      .bind (Q := fun _ s => ∃ D, Room sb N n (k + 1) ip D s)
        (logWrite_logs (f := f) .of_crowded (fun s hs => hs.logged (by omega)) ?_) fun _ => ih ?_
    · rintro s ⟨hD, hspare, hlog⟩
      refine ⟨b :: D, hD, hspare, hlog.insert (.inl ?_) rfl rfl⟩
      exact List.mem_append_right _ List.mem_cons_self
    · rw [List.length_drop]
      omega

theorem Blocks.boot (h : Blocks v m held s) : s.bitmap 0 = true := by
  refine h.reserved 0 ?_
  have := s.sb.nblocks_lt
  unfold Superblock.datastart
  omega

/-- Before and after a call. -/
def Ready (sb : Superblock) (N n : Nat) (s : State) : Prop :=
  Spare N n s ∧ s.sb = sb ∧ s.logged = []

theorem Ready.logs (h : Ready sb N n s) : Logs sb D s := by
  refine ⟨h.2.1, ?_, ?_⟩
  · rw [h.2.2]
    exact .nil
  · rw [h.2.2]
    nofun

theorem Ready.room (h : Ready sb N n s) : Room sb N n 0 ip [] s :=
  ⟨le_rfl, h.1.mono (Nat.le_add_right ..), h.logs⟩

/-- What is left of the free blocks and of the log behind a call that has come to `f` blocks. -/
def Left (sb : Superblock) (N n f : Nat) (s : State) : Prop :=
  Spare N (n + (f + 1)) s ∧ Logged sb (f + 2) s

theorem Room.left (h : Room sb N n f ip D s) : Left sb N n f s := by
  have hind := (s.ino ip).length_indirect
  exact ⟨h.2.1.mono (by omega), _, (Room.length_le h.1 le_rfl _).trans (Nat.le_succ _), h.2.2⟩

theorem Ready.left (h : Ready sb N n s) : Left sb N n f s :=
  ⟨h.1.mono (Nat.le_add_right ..), [], Nat.zero_le _, h.logs⟩

theorem iupdate_room : Triple (Short sb N n f) (fun s => ∃ D, Room sb N n f ip D s) (iupdate ip)
    fun _ => Left sb N n f := by
  refine .exists fun D => logWrite_logs .of_crowded (fun s hs => hs.logged le_rfl) fun s hs => ?_
  refine ⟨hs.left.1, s.sb.IBLOCK (s.icache ip).inum :: ((s.ino ip).indirect ++ D),
    Nat.succ_le_succ (Room.length_le hs.1 le_rfl _), ?_⟩
  exact (hs.2.2.mono fun _ => .tail _).insert (.inl List.mem_cons_self) rfl rfl

/-- `writei` takes a block for each block that it writes to, and one more. -/
theorem writei_spare : Triple (Short sb N n (span off src.length)) (Ready sb N n)
    (writei ip off src) fun _ => Left sb N n (span off src.length) := by
  have hmono : ∀ s, Ready sb N n s → Left sb N n (span off src.length) s := fun s h => h.left
  refine .read fun x => .ite (fun _ => .pure hmono) fun _ => .ite (fun _ => .pure hmono) fun _ =>
    .ite (fun _ => .pure hmono) fun _ => .bind ((writeLoop_room (Nat.zero_add _).le).pre
      fun s h => ⟨[], h.room⟩) fun off' => .ite (fun _ => ?_) fun _ => .pure ?_
  · refine .bind (Q := fun _ s => ∃ D, Room sb N n (span off src.length) ip D s) (.writes ?_)
      fun _ => .bind_pure iupdate_room
    rintro s ⟨D, hD, hspare, hlog⟩
    have hind : ((s.setIno ip { s.ino ip with size := off' }).ino ip).indirect =
        (s.ino ip).indirect :=
      Dinode.indirect_congr (by simp [State.setIno, State.setEntry, State.ino])
    refine ⟨D, hD, ?_, ?_⟩
    · rw [hind]
      exact hspare
    · rw [hind]
      exact hlog.setEntry
  · rintro s ⟨D, h⟩
    exact Room.left h

theorem ilock_ready (hlock : E .ilock) (htype : E .noType) :
    Triple E (Ready sb N n) (ilock ip) fun _ => Ready sb N n := by
  refine .bind (.check_keeps hlock) fun _ => .read fun valid => .ite (fun _ => ?_) fun _ =>
    .pure fun _ => id
  exact .bind (Q := fun _ => Ready sb N n) (.writes fun _ => id) fun _ => .check_keeps htype

theorem iunlock_keeps (hE : E .iunlock) : Triple E P (iunlock ip) fun _ => P :=
  .check_keeps hE

theorem endOp_ready : Triple E (Left sb N n f) endOp fun _ => Ready sb N (n + (f + 1)) :=
  .writes fun _ ⟨h, _, _, hlog⟩ => ⟨h, hlog.sb_eq, rfl⟩

/-! ## The log of `iput` -/

/-- The blocks of a log without blocks of files. -/
theorem logWrite_logged {g : State → State} {b : State → Nat} (hn : n ≤ f + 1)
    (hg : ∀ s, (g s).sb = s.sb ∧ (g s).logged = s.logged.insert (b s)) :
    Triple (Crowded sb f) (Logged sb n) (logWrite g) fun _ => Logged sb (n + 1) := by
  refine logWrite_logs id (fun s hs => hs.mono hn) ?_
  rintro s ⟨D, hD, hlog⟩
  exact ⟨b s :: D, Nat.succ_le_succ hD, (hlog.mono fun _ => .tail _).insert
    (.inl List.mem_cons_self) (hg s).1 (hg s).2⟩

theorem iupdate_logged (hn : n ≤ f + 1) :
    Triple (Crowded sb f) (Logged sb n) (iupdate ip) fun _ => Logged sb (n + 1) :=
  logWrite_logged hn fun _ => ⟨rfl, rfl⟩

/-- The block numbers of an inode are those of blocks of the disk. -/
structure Bounded (sb : Superblock) (ip : Ip) (s : State) : Prop where
  addrs : ∀ k ≤ NDIRECT, (s.ino ip).addrs k < sb.size
  word : (s.ino ip).addrs NDIRECT ≠ 0 → ∀ j < NINDIRECT,
    (s.block ((s.ino ip).addrs NDIRECT)).word j < sb.size

theorem Clean.bounded (h : Clean l v s) (hr : 0 < (s.icache ip).ref)
    (hv : (s.icache ip).valid = true) : Bounded s.sb ip s := by
  obtain ⟨hext, ht⟩ := h.2.cached ip hr hv
  have hstored : ∀ p b, (s.ino ip).extent.stored s.block p = some b → b < s.sb.size := by
    intro p b hp
    refine (h.1.owned.placed ((s.icache ip).inum, p) b ?_).1.2
    rw [stored_of_type ht, ← hext, hp]
  have hpos : 0 < s.sb.size := Nat.zero_lt_of_lt s.sb.nblocks_lt
  refine ⟨fun k hk => ?_, fun h0 j hj => ?_⟩
  · by_cases h0 : (s.ino ip).addrs k = 0
    · rwa [h0]
    · exact hstored (.ofAddr k) _ ((Extent.stored_ofAddr hk).trans (blockNo_of_ne h0))
  · by_cases hw : (s.block ((s.ino ip).addrs NDIRECT)).word j = 0
    · rwa [hw]
    · exact hstored (.entry j) _ ((if_pos ⟨hj, h0⟩).trans (blockNo_of_ne hw))

/-- Between the steps of `itrunc`. -/
def Trimming (sb : Superblock) (n : Nat) (ip : Ip) (s : State) : Prop :=
  Bounded sb ip s ∧ Logged sb n s

theorem bfree_trimming (hn : n ≤ f + 1) (hb : b < sb.size) :
    Triple (Crowded sb f) (Trimming sb n ip) (bfree b) fun _ => Trimming sb n ip := by
  refine .bind (.check_keeps nofun) fun _ => logWrite_logs id (fun s hs => hs.2.mono hn) ?_
  rintro s ⟨hs, D, hD, hlog⟩
  refine ⟨⟨hs.addrs, hs.word⟩, D, hD, hlog.insert (.inr ?_) rfl rfl⟩
  rw [hlog.sb_eq]
  exact Superblock.BBLOCK_mem hb

theorem Trimming.setAddr (h : Trimming sb n ip s) : Trimming sb n ip (s.setAddr ip k 0) := by
  obtain ⟨⟨haddrs, hword⟩, hlog⟩ := h
  have hino : ((s.setAddr ip k 0).ino ip).addrs = update (s.ino ip).addrs k 0 := by
    simp [State.setAddr, State.setIno, State.setEntry, State.ino]
  refine ⟨⟨fun j hj => ?_, fun h0 j hj => ?_⟩, hlog.setEntry⟩
  · rw [hino]
    by_cases e : j = k
    · rw [e, update_self]
      exact Nat.zero_lt_of_lt sb.nblocks_lt
    · rw [update_of_ne e]
      exact haddrs j hj
  · rw [hino] at h0 ⊢
    have hne : NDIRECT ≠ k := by
      rintro rfl
      exact h0 (update_self ..)
    rw [update_of_ne hne] at h0 ⊢
    exact hword h0 j hj

theorem itrunc_logged (hn : n ≤ f + 1) :
    Triple (Crowded sb f) (Trimming sb n ip) (itrunc ip) fun _ => Logged sb (n + 1) := by
  have hend : Triple (Crowded sb f) (Trimming sb n ip)
      (do
        writes fun s => s.setIno ip { s.ino ip with size := 0 }
        iupdate ip) fun _ => Logged sb (n + 1) :=
    .bind (Q := fun _ => Logged sb n) (.writes fun s h => h.2.setEntry) fun _ => iupdate_logged hn
  refine .bind (Q := fun _ => Trimming sb n ip) (.forM_mem fun k hk => ?_) fun _ =>
    .reads_bind fun b => .ite (fun h0 => .reads_bind fun a => ?_) fun _ => hend.pre fun s h => h.1
  · refine .reads_known (p := (· < sb.size)) (fun s h => h.1.addrs k (List.mem_range.mp hk).le)
      fun b hb => .ite (fun _ => ?_) fun _ => .pure fun _ => id
    exact .bind (bfree_trimming hn hb) fun _ => .writes fun s h => h.setAddr
  · refine .pre (P := fun s => ((b < sb.size) ∧ ∀ j < NINDIRECT, a.word j < sb.size) ∧
      Trimming sb n ip s) (.of_and fun hb => ?_) ?_
    · refine .bind (Q := fun _ => Trimming sb n ip) (.forM_mem fun j hj => ?_) fun _ =>
        .bind (bfree_trimming hn hb.1) fun _ => .bind (.writes fun s h => h.setAddr) fun _ => hend
      exact .ite (fun _ => bfree_trimming hn (hb.2 j (List.mem_range.mp hj))) fun _ =>
        .pure fun _ => id
    · rintro s ⟨⟨h, rfl⟩, rfl⟩
      exact ⟨⟨h.1.addrs NDIRECT le_rfl, h.1.word h0⟩, h⟩

theorem iput_logged (hn : n ≤ f) : Triple (Crowded sb f)
    (fun s => Calm (⟨ip, i, lk⟩ :: l) s ∧ Logged sb n s) (iput ip) fun _ => Logged sb (n + 2) := by
  refine .reads_bind fun e => .ite (fun he => ?_) fun _ =>
    .writes fun s h => (h.1.2.mono (Nat.le_add_right ..)).setEntry
  refine .bind ((itrunc_logged (hn.trans (Nat.le_succ f))).pre ?_) fun _ =>
    .bind (Q := fun _ => Logged sb (n + 1)) (.writes fun _ => .setEntry) fun _ =>
      .bind (iupdate_logged (Nat.succ_le_succ hn)) fun _ =>
        .bind (Q := fun _ => Logged sb (n + 2)) (.writes fun _ => .setEntry) fun _ =>
          .writes fun _ => .setEntry
  rintro s ⟨⟨⟨v, h⟩, hlog⟩, rfl⟩
  exact ⟨hlog.sb_eq ▸ h.bounded (h.2.ref_pos List.mem_cons_self) he.1, hlog⟩

end Xv6.Disk
