import Xv6.Disk.Files
import Xv6.Users.Passwd

/-! # `flushUsers` on the blocks of `/passwd`

`cleari` and `filewrite` change the blocks of an inode as they change its list of bytes, so that the
file has the text that `flushUsers` writes to a list. -/

namespace Xv6.Disk

open Fault
open CString (Mem)
open Fs (BSIZE MAXFILE InodeType maxWrite)
open Users (Ltable MAX_LEN MAX_USER fillBuf cstr)
open Function

/-- The loop of `filewrite`, for at most as many iterations as the second argument; `writei` writes
all bytes if it does not return -1. The result is whether all was written, and the offset. -/
def filewriteFor (ip : Ip) : Nat → Nat → List UInt8 → Kernel (Bool × Nat)
  | 0, off, src => pure (src.isEmpty, off)
  | k + 1, off, src =>
    if src.isEmpty then pure (true, off)
    else do
      match ← writeOp ip off (src.take maxWrite) with
      | none => pure (false, off)
      | some r => filewriteFor ip k (off + r) (src.drop maxWrite)

def filewrite (ip : Ip) (off : Nat) (src : List UInt8) : Kernel (Bool × Nat) :=
  filewriteFor ip src.length off src

/-- The first `n` iterations of `flushUsers`, with `buf` and the offset of the file. -/
def flushRows (ip : Ip) (t : Ltable) : Nat → Kernel (Mem × Nat)
  | 0 => pure (fun _ => 0, 0)
  | n + 1 => do
    let b ← flushRows ip t n
    let buf := fillBuf t b.1 n
    let r ← filewrite ip b.2 (cstr buf 0)
    pure (buf, r.2)

/-- `flushUsers` with `/passwd` open, with `true` for the result 0. -/
def flushUsers (ip : Ip) (t : Ltable) : Kernel Bool := do
  ilock ip
  let r ← cleari ip
  if r = false then pure false
  else
    iunlock ip
    endOp
    let _ ← flushRows ip t t.userCnt
    pure true

variable {l : List Pin} {s : State} {ip : Ip} {i k off : Nat} {src : List UInt8} {t : Ltable}
  {c : Nat → List UInt8} {τ : Nat → Option InodeType}

theorem written_eq : written c i off src = match Fs.writei (c i) off src with
    | some b => (some src.length, update c i b)
    | none => (none, c) := by
  have hiff : (c i).length < off ∨ 2 ^ 32 ≤ off + src.length ∨ MAXFILE * BSIZE < off + src.length ↔
      off > (c i).length ∨ off + src.length > MAXFILE * BSIZE := by
    simp only [MAXFILE, BSIZE, Fs.NDIRECT, Fs.NINDIRECT]
    omega
  have hw : writeBytes (c i) off src = Fs.writei (c i) off src := by
    simp only [writeBytes, Fs.writei, hiff, Fs.splice]
  exact hw ▸ rfl

/-- There is no room, and if it is the log that has none, `f` blocks of a file do not fit. -/
def Tight (sb : Superblock) (f : Nat) (e : Panic) : Prop := Full e ∧ (e = .tooBig → ¬ sb.Fits f)

theorem Tight.mono (hf : f ≤ f') (e : Panic) (h : Tight sb f e) : Tight sb f' e := by
  refine ⟨h.1, fun he hfit => h.2 he ?_⟩
  unfold Superblock.Fits at hfit ⊢
  omega

/-- The inodes are as `Files` says, between two operations on the disk. -/
def Steady (sb : Superblock) (l : List Pin) (τ : Nat → Option InodeType) (c : Nat → List UInt8)
    (s : State) : Prop :=
  Files l τ c s ∧ ∃ n, Ready sb 0 n s

/-- A write of `filewrite` comes to at most four blocks. -/
theorem span_maxWrite (h : n ≤ maxWrite) : span off n ≤ 4 := by
  have hmax : maxWrite = 3 * BSIZE := by decide
  rw [hmax] at h
  unfold span
  split
  · exact Nat.zero_le 4
  · simp only [BSIZE] at h ⊢
    omega

theorem writeOp_steady (ht : τ i = some .T_FILE) (ho : off < 2 ^ 32)
    (hsrc : src.length ≤ maxWrite) : Triple (Tight sb 4) (Steady sb (⟨ip, i, false⟩ :: l) τ c)
      (writeOp ip off src) fun r s => r = (written c i off src).1 ∧
        Steady sb (⟨ip, i, false⟩ :: l) τ (written c i off src).2 s := by
  rintro s ⟨h, n, hready⟩
  have hmax : maxWrite < 2 ^ 32 := by decide
  have hlen : src.length < 2 ^ 32 := hsrc.trans_lt hmax
  refine (writeOp_spec (by simp [ht]) (by simp [ht]) ho hlen s ⟨h, hready⟩).imp
    (fun e he => Tight.mono (span_maxWrite hsrc) e ⟨he.1, he.2.2⟩) ?_
  rintro r s' ⟨hr, h', hready'⟩
  exact ⟨hr, h', _, hready'⟩

/-- The blocks change as the bytes do. -/
theorem filewriteFor_steady (ht : τ i = some .T_FILE) (ho : off < 2 ^ 32) :
    Triple (Tight sb 4) (Steady sb (⟨ip, i, false⟩ :: l) τ c) (filewriteFor ip k off src)
      fun r s => ((Fs.filewriteFor k (c i) off src).2.2 < 2 ^ 32 ∧
        r.2 = (Fs.filewriteFor k (c i) off src).2.2) ∧
      Steady sb (⟨ip, i, false⟩ :: l) τ
        (update c i (Fs.filewriteFor k (c i) off src).2.1) s := by
  induction k generalizing off src c with
  | zero => exact .pure fun s h => ⟨⟨ho, rfl⟩, by rwa [Fs.filewriteFor, update_eq_self]⟩
  | succ k ih =>
    unfold Fs.filewriteFor
    refine .ite (fun h0 => .pure fun s h => ?_) fun h0 => ?_
    · rw [if_pos h0, update_eq_self]
      exact ⟨⟨ho, rfl⟩, h⟩
    refine .bind (writeOp_steady ht ho (List.length_take_le ..)) fun r => .of_and fun hr => ?_
    simp only [if_neg h0]
    rw [written_eq] at hr ⊢
    cases hw : Fs.writei (c i) off (src.take maxWrite) with
    | none =>
      rw [hw] at hr
      subst hr
      refine .pure fun s h => ?_
      rw [update_eq_self]
      exact ⟨⟨ho, rfl⟩, h⟩
    | some b =>
      rw [hw] at hr
      subst hr
      have hmax := (Option.ite_none_left_eq_some.mp hw).1
      have ho' : off + (src.take maxWrite).length < 2 ^ 32 := by
        simp only [MAXFILE, BSIZE, Fs.NDIRECT, Fs.NINDIRECT] at hmax
        omega
      have h := @ih _ (src.drop maxWrite) (update c i b) ho'
      rwa [update_self, update_idem] at h

theorem filewrite_steady (ht : τ i = some .T_FILE) (ho : off < 2 ^ 32) :
    Triple (Tight sb 4) (Steady sb (⟨ip, i, false⟩ :: l) τ c) (filewrite ip off src) fun r s =>
      ((Fs.filewrite (c i) off src).2.2 < 2 ^ 32 ∧ r.2 = (Fs.filewrite (c i) off src).2.2) ∧
      Steady sb (⟨ip, i, false⟩ :: l) τ (update c i (Fs.filewrite (c i) off src).2.1) s :=
  filewriteFor_steady ht ho

theorem cleari_files (hE : E .tooBig) (ht : τ i = some .T_FILE) :
    Triple E (Files (⟨ip, i, true⟩ :: l) τ c) (cleari ip) fun r s => r = (Fs.cleari (c i)).isSome ∧
      Files (⟨ip, i, true⟩ :: l) τ (update c i ((Fs.cleari (c i)).getD (c i))) s := by
  rintro s ⟨v, h, hτ, hc⟩
  have hlen : (c i).length = (v i).size := by rw [← hc, Block.length_read]
  have hdev : (v i).type ≠ some .T_DEV := by simp [hτ, ht]
  refine (cleari_content hE List.mem_cons_self s ⟨h, rfl⟩).imp (fun _ => id) fun r s' hpost => ?_
  rw [Fs.cleari, hlen]
  by_cases hm : MAXFILE * BSIZE < (v i).size
  · rw [if_pos (.inr hm)] at hpost
    rw [if_pos hm, Option.getD_none, update_eq_self]
    exact ⟨hpost.1, v, hpost.2.1, hτ, fun j => by rw [hpost.2.2, hc]⟩
  · rw [if_neg (not_or.mpr ⟨hdev, hm⟩)] at hpost
    rw [if_neg hm]
    refine ⟨hpost.1, v, hpost.2.1, hτ, fun j => ?_⟩
    rw [hpost.2.2]
    by_cases e : j = i
    · have hz : ((bytes v s.block i).write 0 (List.replicate (v i).size 0)).read 0 _ = _ :=
        Block.read_write_self
      rw [List.length_replicate] at hz
      rw [e, update_self, update_self, hz]
      rfl
    · rw [update_of_ne e, update_of_ne e, hc]

/-- The blocks that `cleari` writes to are those up to the size of the file. -/
theorem cleari_room {S : Nat} : Triple (Short sb N n (span 0 S))
    (fun s => Ready sb N n s ∧ (s.ino ip).size = S) (cleari ip)
    fun _ => Left sb N n (span 0 S) := by
  refine .reads_known (p := fun x => x.size = S) (fun _ => And.right) fun x hS =>
    .pre ?_ fun _ => And.left
  subst hS
  have hmono : ∀ s, Ready sb N n s → Left sb N n (span 0 x.size) s := fun s h => h.left
  have hlen : 0 + span 0 (List.replicate x.size (0 : UInt8)).length ≤ span 0 x.size := by
    rw [List.length_replicate, Nat.zero_add]
  exact .ite (fun _ => .pure hmono) fun _ => .ite (fun _ => .pure hmono) fun _ =>
    .bind ((writeLoop_room hlen).pre fun s h => ⟨[], h.room⟩) fun off =>
      .bind_pure iupdate_room

section Rows

attribute [local irreducible] Fs.filewrite

theorem flushRows_steady (ht : τ i = some .T_FILE) :
    Triple (Tight sb 4) (Steady sb (⟨ip, i, false⟩ :: l) τ c) (flushRows ip t n) fun b s =>
      ∃ f : Users.Flush, (f = (List.range n).foldl (Users.Flush.write t) ⟨fun _ => 0, c i, 0⟩ ∧
        f.off < 2 ^ 32 ∧ b = (f.buf, f.off)) ∧
        Steady sb (⟨ip, i, false⟩ :: l) τ (update c i f.passwd) s := by
  induction n with
  | zero =>
    refine .pure fun s h => ⟨⟨fun _ => 0, c i, 0⟩, ⟨rfl, Nat.two_pow_pos 32, rfl⟩, ?_⟩
    rwa [update_eq_self]
  | succ n ih =>
    refine .bind ih fun b => .exists fun f => .of_and fun ⟨hf, ho, hb⟩ => ?_
    subst hb
    refine .bind (filewrite_steady ht ho) fun r => .pure fun s h => ?_
    rw [update_self, update_idem] at h
    refine ⟨f.write t n, ⟨?_, h.1.1, ?_⟩, h.2⟩
    · rw [List.range_succ, List.foldl_append, ← hf]
      rfl
    · rw [h.1.2]
      rfl

end Rows

/-- The blocks of the file get the bytes that `flushUsers` gives to a list. -/
theorem flushUsers_steady (ht : τ i = some .T_FILE) (hs : (c i).length ≤ MAXFILE * BSIZE) :
    Triple (Tight sb (max 4 (span 0 (c i).length)))
      (Steady sb (⟨ip, i, false⟩ :: l) τ c) (flushUsers ip t) fun r s => r = true ∧
      ∃ passwd, Users.flushUsers true t (c i) = some passwd ∧
        Files (⟨ip, i, false⟩ :: l) τ (update c i passwd) s := by
  have hclear : Fs.cleari (c i) = some (List.replicate (c i).length 0) := if_neg (not_lt.mpr hs)
  refine .pre (P := fun s => ∃ n, Files (⟨ip, i, false⟩ :: l) τ c s ∧ Ready sb 0 n s)
    (.exists fun n => .bind (ilock_open (by simp [ht])) fun _ => ?_)
    fun s h => h.2.imp fun n hn => ⟨h.1, hn⟩
  refine .bind (Q := fun r s => r = true ∧ Files (⟨ip, i, true⟩ :: l) τ
    (update c i (List.replicate (c i).length 0)) s ∧ Left sb 0 n (span 0 (c i).length) s)
    (fun s h => ?_) fun r => .of_and fun hr => ?_
  · have hsize : (s.ino ip).size = (c i).length := by
      obtain ⟨v, hv, -, hc⟩ := h.1
      rw [← hc, Block.length_read, ← (hv.2.ino List.mem_cons_self).1]
      rfl
    refine (((cleari_files (.inr rfl) ht).and cleari_room) s ⟨h.1, h.2, hsize⟩).imp
      (fun e he => Tight.mono (le_max_right ..) e ⟨he.1, he.2.2⟩) ?_
    rintro r s' ⟨⟨hr, hf⟩, hleft⟩
    rw [hclear] at hr hf
    exact ⟨hr, hf, hleft⟩
  · subst hr
    refine .bind iunlock_open fun _ =>
      .bind ((endOp_files.and endOp_ready).post fun _ s h => ⟨h.1, _, h.2⟩) fun _ =>
        .bind ((flushRows_steady ht).weaken (Tight.mono (le_max_left ..))) fun b =>
          .pure fun s h => ?_
    obtain ⟨f, ⟨hf, -⟩, h, -⟩ := h
    rw [update_idem] at h
    rw [update_self] at hf
    refine ⟨rfl, f.passwd, ?_, h⟩
    rw [Users.flushUsers, if_pos rfl, hclear, hf]
    rfl

/-- The names and passwords of a table, as they stand in `/passwd`. -/
def text (t : Ltable) : List UInt8 :=
  t.users.flatMap fun u => u.1 ++ Users.DASH :: (u.2 ++ [Users.SLASH])

/-- `flushUsers` leaves the text of the table in `/passwd`, with zeros up to the size that the file
had, and stores nothing outside of its buffer. The disk may fill up, and the log does if the file
has too many blocks for it. -/
theorem flushUsers_text (hs : disk.Reached s) (hip : 0 < (s.icache ip).ref)
    (hi : (s.icache ip).inum = i) (ht : (s.dinode i).type = some .T_FILE)
    (hsize : (s.dinode i).size ≤ MAXFILE * BSIZE) (hcnt : t.userCnt ≤ MAX_USER)
    (hlen : ∀ u ∈ t.users, u.1.length ≤ MAX_LEN ∧ u.2.length ≤ MAX_LEN) :
    Result (fun e => e = .outOfBlocks ∨
          e = .tooBig ∧ ¬ s.sb.Fits (max 4 (span 0 (s.dinode i).size)))
        (fun r s' => r = true ∧
        (s'.dinode i).size = max (s.dinode i).size (text t).length ∧
        s'.contents i = text t ++ List.replicate ((s.dinode i).size - (text t).length) 0 ∧
        ∀ j, j ≠ i → s'.contents j = s.contents j) (flushUsers ip t s) ∧
      ∀ k < t.userCnt, ∀ buf a, MAX_LEN * 2 + 2 + 1 ≤ a → fillBuf t buf k a = buf a := by
  obtain ⟨⟨v, hb, hcache⟩, hlog⟩ := idle_invariant.of_reached hs
  obtain ⟨us, hus⟩ := Users.exists_filled hcnt hlen
  have htext : text t = Users.encode us := by
    rw [text, hus.users_eq, List.flatMap_map]
    rfl
  have hold : ∀ {s' : State} {j}, (s'.contents j).length = (s'.dinode j).size := Block.length_read
  have hpins := hcache.pins (List.nodup_singleton ip) fun _ h => List.mem_singleton.mp h ▸ hip
  rw [List.map_singleton, hi] at hpins
  refine ⟨?_, fun k hk buf a ha => ?_⟩
  · have hready : Ready s.sb 0 0 s := ⟨⟨hb.boot, Nat.zero_le _⟩, rfl, hlog⟩
    have hflush := flushUsers_steady (t := t) ht (hold.trans_le hsize) s
      ⟨Clean.files ⟨hb, hpins⟩, 0, hready⟩
    rw [hold] at hflush
    refine hflush.imp (fun e he => he.1.imp_right fun hbig => ⟨hbig, he.2 hbig⟩) fun r s' h => ?_
    obtain ⟨hr, passwd, hp, h⟩ := h
    have hp := hus.flushUsers hp
    rw [← htext, hold] at hp
    have hc := congrFun h.contents_eq i
    rw [update_self, hp] at hc
    refine ⟨hr, ?_, hc, fun j hj => ?_⟩
    · rw [← hold, hc, List.length_append, List.length_replicate]
      omega
    · rw [h.contents_eq, update_of_ne hj]
  · rw [hus.cnt] at hk
    exact hus.fillBuf_of_le (List.getElem?_eq_getElem hk) buf ha

/-- The table of the first boot, and a second account. -/
def twoUsers : Ltable :=
  Users.append (Users.append .empty Users.root Users.zeros) [97, 98] [112, 119]

/-- `"root-0000/ab-pw/"` over a file of eighteen bytes. -/
theorem flushUsers_text_two : ∃ s r s', disk.Reached s ∧
    flushUsers ⟨1, by decide⟩ twoUsers s = .ok (r, s') ∧
      s'.contents 2 = text twoUsers ++ [0, 0] := by
  obtain ⟨s, hs, h⟩ := LTS.exists_reached_of_run (M := disk) (s := emptyImage.boot)
    [.iget 1, .create emptyCaller [102] .T_FILE 0 0,
      .writei ⟨1, by decide⟩ 0 (List.replicate 18 7) (by decide)]
    (fun s => decide (0 < (s.icache ⟨1, by decide⟩).ref ∧ (s.icache ⟨1, by decide⟩).inum = 2 ∧
      (s.dinode 2).type = some .T_FILE ∧ (s.dinode 2).size = 18 ∧
      (flushUsers ⟨1, by decide⟩ twoUsers s).isOk)) ⟨_, blockOwnership_emptyImage, rfl⟩
    (by decide +kernel)
  obtain ⟨hip, hi, ht, hsize, hok⟩ := of_decide_eq_true h
  have hr := (flushUsers_text (t := twoUsers) hs hip hi ht (by rw [hsize]; decide) (by decide)
    (by decide)).1
  cases hx : flushUsers ⟨1, by decide⟩ twoUsers s with
  | error e =>
    rw [hx] at hok
    cases hok
  | ok r =>
    rw [hx] at hr
    refine ⟨s, r.1, r.2, hs, hx, ?_⟩
    rw [hr.2.2.1, hsize]
    rfl

end Xv6.Disk
