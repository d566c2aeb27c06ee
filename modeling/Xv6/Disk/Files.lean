import Xv6.Disk.Room

/-! # Files as lists of bytes

`readi` and `writei` on an inode behave as on a list of bytes, of the length that the inode has as
its size. The blocks of the disk can run out on the way; what is there before a call is enough if
there is a free block for every block that the call writes to, and one for the indirect block. The
log can run out as well; a call is not too big for it if there is room for the same blocks and for
those of the free map. -/

namespace Xv6.Disk

open Fault
open Fs (BSIZE NDIRECT NINDIRECT MAXFILE InodeType)
open Function

/-! ## Lists of bytes -/

/-- A part of a list of bytes, or -1. -/
def readBytes (c : List UInt8) (off n : Nat) : Option (List UInt8) :=
  if c.length < off ∨ 2 ^ 32 ≤ off + n then none else some ((c.drop off).take n)

/-- A list of bytes with a part replaced that may reach behind its end, or -1. -/
def writeBytes (c : List UInt8) (off : Nat) (src : List UInt8) : Option (List UInt8) :=
  if c.length < off ∨ 2 ^ 32 ≤ off + src.length ∨ MAXFILE * BSIZE < off + src.length then none
  else some (c.take off ++ src ++ c.drop (off + src.length))

/-- What a write to the inode `i` returns, and the bytes of the inodes after it. -/
def written (c : Nat → List UInt8) (i off : Nat) (src : List UInt8) :
    Option Nat × (Nat → List UInt8) :=
  match writeBytes (c i) off src with
  | some b => (some src.length, update c i b)
  | none => (none, c)

/-- The bytes of an inode up to its size. -/
def State.contents (s : State) (i : Nat) : List UInt8 :=
  (bytes s.extents s.block i).read 0 (s.extents i).size

/-! ## Calls -/

/-- `writei` in an operation of its own, as `filewrite` calls it. -/
def writeOp (ip : Ip) (off : Nat) (src : List UInt8) : Kernel (Option Nat) := do
  ilock ip
  let r ← writei ip off src
  iunlock ip
  endOp
  pure r

/-- A call on an entry of the inode cache. -/
inductive FileCall
  | readi (ip : Ip) (off n : UInt32)
  | writei (ip : Ip) (off : UInt32) (src : List UInt8) (hn : src.length < 2 ^ 32)

/-- What a call returns, with `none` for -1. -/
inductive Reply
  | bytes (r : Option (List UInt8))
  | count (r : Option Nat)
  deriving DecidableEq

namespace FileCall

def ip : FileCall → Ip
  | .readi ip .. | .writei ip .. => ip

def run : FileCall → Kernel Reply
  | .readi ip off n => do
    ilock ip
    let r ← Disk.readi ip off.toNat n.toNat
    iunlock ip
    pure (.bytes r)
  | .writei ip off src _ => do
    let r ← writeOp ip off.toNat src
    pure (.count r)

def runAll : List FileCall → Kernel (List Reply)
  | [] => pure []
  | a :: calls => do
    let r ← a.run
    let rs ← runAll calls
    pure (r :: rs)

/-- What a call does to the lists of bytes, where the entry is one of the inode `i`. -/
def spec (i : Nat) (c : Nat → List UInt8) : FileCall → Reply × (Nat → List UInt8)
  | .readi _ off n => (.bytes (readBytes (c i) off.toNat n.toNat), c)
  | .writei _ off src _ =>
    let r := written c i off.toNat src
    (.count r.1, r.2)

/-- What calls do, where `inum` gives the inodes of the entries. -/
def specAll (inum : Ip → Nat) : (Nat → List UInt8) → List FileCall →
    List Reply × (Nat → List UInt8)
  | c, [] => ([], c)
  | c, a :: calls =>
    let r := a.spec (inum a.ip) c
    let rs := specAll inum r.2 calls
    (r.1 :: rs.1, rs.2)

/-- As many free blocks are enough for a call. -/
def needed : FileCall → Nat
  | .readi .. => 0
  | .writei _ off src _ => span off.toNat src.length + 1

def neededAll (calls : List FileCall) : Nat := (calls.map needed).sum

end FileCall

/-- The blocks that a call writes to have room in the log. -/
def FileCall.Fits (sb : Superblock) : FileCall → Prop
  | .readi .. => True
  | .writei _ off src _ => sb.Fits (span off.toNat src.length)

instance {sb : Superblock} : DecidablePred (FileCall.Fits sb)
  | .readi .. => isTrue trivial
  | .writei _ off src _ => inferInstanceAs (Decidable (sb.Fits (span off.toNat src.length)))

variable {l : List Pin} {v : Nat → Extent} {s : State} {ip : Ip} {i k n off : Nat}
  {src : List UInt8} {E : Panic → Prop} {c : Nat → List UInt8}

/-! ## The bytes of an inode as a list -/

namespace Block

variable {b : Block}

@[simp] theorem length_read : (b.read off n).length = n := by simp [read]

theorem take_read (h : k ≤ n) : (b.read off n).take k = b.read off k := by
  obtain ⟨j, rfl⟩ := Nat.exists_eq_add_of_le h
  rw [read_add, List.take_left' length_read]

theorem drop_read : (b.read 0 n).drop k = b.read k (n - k) := by
  by_cases h : k ≤ n
  · obtain ⟨j, rfl⟩ := Nat.exists_eq_add_of_le h
    rw [read_add, List.drop_left' length_read, Nat.zero_add, Nat.add_sub_cancel_left]
  · have h0 : n - k = 0 := by omega
    rw [h0, List.drop_eq_nil_of_le (by simp; omega)]
    rfl

theorem read_congr {b' : Block} (h : ∀ a, off ≤ a → a < off + n → b' a = b a) :
    b'.read off n = b.read off n := by
  refine List.map_congr_left fun k hk => ?_
  have := List.mem_range.mp hk
  exact h _ (by omega) (by omega)

theorem read_write_self : (b.write off src).read off src.length = src := by
  refine List.ext_getElem length_read fun k h₁ h₂ => ?_
  simp only [read, List.getElem_map, List.getElem_range, write]
  rw [if_pos (by omega), Nat.add_sub_cancel_left, List.getD_eq_getElem?_getD,
    List.getElem?_eq_getElem h₂, Option.getD_some]

/-- A write that does not leave a gap. -/
theorem read_write (h : off ≤ n) : (b.write off src).read 0 (max n (off + src.length)) =
    (b.read 0 n).take off ++ src ++ (b.read 0 n).drop (off + src.length) := by
  have hmax : max n (off + src.length) = off + (src.length + (n - (off + src.length))) := by omega
  have h₁ : (b.write off src).read 0 off = b.read 0 off :=
    read_congr fun a _ ha => if_neg (by omega)
  have h₂ : (b.write off src).read (off + src.length) (n - (off + src.length)) =
      b.read (off + src.length) (n - (off + src.length)) :=
    read_congr fun a ha _ => if_neg (by omega)
  rw [hmax, read_add, read_add, Nat.zero_add, h₁, h₂, read_write_self, take_read h, drop_read,
    List.append_assoc]

end Block

/-- The inodes have the types `t` and the bytes `c`. -/
def Files (l : List Pin) (t : Nat → Option InodeType) (c : Nat → List UInt8) (s : State) : Prop :=
  ∃ v, Clean l v s ∧ (∀ j, (v j).type = t j) ∧
    ∀ j, (bytes v s.block j).read 0 (v j).size = c j

variable {τ : Nat → Option InodeType}

theorem Clean.extents_eq (h : Clean l v s) : s.extents = v := funext h.2.disk

theorem Clean.files (h : Clean l v s) : Files l (fun j => (s.dinode j).type) s.contents s := by
  obtain rfl := h.extents_eq
  exact ⟨_, h, fun _ => rfl, fun _ => rfl⟩

theorem Files.contents_eq (h : Files l τ c s) : s.contents = c := by
  obtain ⟨v, h, -, hc⟩ := h
  obtain rfl := h.extents_eq
  exact funext hc

theorem Files.congr (h : Files l τ c s) (hc : ∀ v, Cache l v v s → Cache l' v v s) :
    Files l' τ c s := by
  obtain ⟨v, h, h'⟩ := h
  exact ⟨v, ⟨h.1, hc v h.2⟩, h'⟩

/-! ## Locks -/

theorem Files.ref_pos (h : Files l τ c s) (hx : x ∈ l) : 0 < (s.icache x.ip).ref :=
  let ⟨_, h, _⟩ := h
  h.2.ref_pos hx

theorem ilock_files (hE : τ i = none → E .noType) :
    Triple E (Files (⟨ip, i, lk⟩ :: l) τ c) (ilock ip) fun _ => Files (⟨ip, i, true⟩ :: l) τ c := by
  refine .bind (.check fun s h hr => absurd (h.ref_pos List.mem_cons_self) hr) fun _ =>
    .reads_bind fun valid => .ite (fun hv => ?_) fun hv => .pure ?_
  · refine .bind (Q := fun _ s => ∃ v, ((s.ino ip).type = τ i ∧ Blocks v (sizes v) [] s ∧
      ((s.ino ip).type ≠ none → Cache (⟨ip, i, true⟩ :: l) v v s)) ∧ (∀ j, (v j).type = τ j) ∧
        ∀ j, (bytes v s.block j).read 0 (v j).size = c j) (.writes ?_) fun _ =>
      (Triple.check ?_).post ?_
    · rintro s ⟨⟨⟨v, h, hτ, hc⟩, -⟩, -⟩
      have hi : (s.icache ip).inum = i := (h.2.pinned _ List.mem_cons_self).1
      have hload : ((s.load ip).ino ip).type = (s.dinode i).type := by
        simp [State.load, State.ino, State.setEntry, hi]
      have htype : (s.dinode i).type = (v i).type := congrArg Extent.type (h.2.disk i)
      exact ⟨v, ⟨by rw [hload, htype, hτ], h.1.congr rfl rfl rfl, h.2.load⟩, hτ, hc⟩
    · rintro s ⟨v, ⟨ht, -⟩, -⟩ hnone
      exact hE (ht ▸ not_not.mp hnone)
    · rintro _ s ⟨⟨v, ⟨-, hb, hcache⟩, hτc⟩, ht⟩
      exact ⟨v, ⟨hb, hcache ht⟩, hτc⟩
  · rintro s ⟨⟨⟨v, h, hτ, hc⟩, -⟩, rfl⟩
    exact ⟨v, ⟨h.1, h.2.lock (by simpa using hv)⟩, hτ, hc⟩

theorem iunlock_files : Triple E (Files (⟨ip, i, true⟩ :: l) τ c) (iunlock ip)
    fun _ => Files (⟨ip, i, false⟩ :: l) τ c :=
  (Triple.check fun _ h hr => absurd (h.ref_pos List.mem_cons_self) hr).post
    fun _ _ h => h.1.congr fun _ h => h.unlock

theorem endOp_files : Triple E (Files l τ c) endOp fun _ => Files l τ c := by
  refine .writes ?_
  rintro s ⟨v, h, h'⟩
  exact ⟨v, ⟨h.1.congr rfl rfl rfl, h.2.congr rfl rfl⟩, h'⟩

/-! ## `readi` and `writei` -/

theorem readi_files (ht : τ i ≠ some .T_DEV) (ho : off < 2 ^ 32) (hn : n < 2 ^ 32)
    (hx : ⟨ip, i, true⟩ ∈ l) (h : Files l τ c s) :
    readi ip off n s = .ok (readBytes (c i) off n, s) := by
  obtain ⟨v, h, hτ, hc⟩ := h
  have hlen : (c i).length = (v i).size := by rw [← hc, Block.length_read]
  rw [readi_eq h hx]
  congr 2
  unfold readBytes
  have hiff : (v i).Refuses off n ↔ (c i).length < off ∨ 2 ^ 32 ≤ off + n := by
    rw [hlen, Extent.Refuses, hτ, or_iff_right ht]
    omega
  simp only [hiff]
  by_cases hr : (c i).length < off ∨ 2 ^ 32 ≤ off + n
  · rw [if_pos hr, if_pos hr]
  · rw [if_neg hr, if_neg hr, ← hc, Block.drop_read, ← Block.take_read (min_le_right ..)]
    simp

theorem writei_files (hE : off + src.length ≤ (c i).length ∨ E .outOfBlocks) (hlog : E .tooBig)
    (ht : τ i ≠ some .T_DEV) (ho : off < 2 ^ 32) (hn : src.length < 2 ^ 32)
    (hx : ⟨ip, i, true⟩ ∈ l) : Triple E (Files l τ c) (writei ip off src) fun r s =>
      r = (written c i off src).1 ∧ Files l τ (written c i off src).2 s := by
  rintro s ⟨v, h, hτ, hc⟩
  have hlen : (c i).length = (v i).size := by rw [← hc, Block.length_read]
  refine (writei_content (hlen ▸ hE) hlog hx s ⟨h, rfl⟩).imp (fun _ => id) fun r s' hpost => ?_
  have hiff : (v i).Refuses off src.length ∨ MAXFILE * BSIZE < off + src.length ↔
      (c i).length < off ∨ 2 ^ 32 ≤ off + src.length ∨ MAXFILE * BSIZE < off + src.length := by
    rw [hlen, Extent.Refuses, hτ, or_iff_right ht]
    omega
  by_cases hr : (c i).length < off ∨ 2 ^ 32 ≤ off + src.length ∨
      MAXFILE * BSIZE < off + src.length
  · have hw : written c i off src = (none, c) := by rw [written, writeBytes, if_pos hr]
    rw [if_pos (hiff.mpr hr)] at hpost
    rw [hw]
    exact ⟨hpost.1, v, hpost.2.1, hτ, fun j => by rw [hpost.2.2, hc]⟩
  · have hw : written c i off src = (some src.length, update c i
        ((c i).take off ++ src ++ (c i).drop (off + src.length))) := by
      rw [written, writeBytes, if_neg hr]
    rw [if_neg (mt hiff.mp hr)] at hpost
    rw [hw]
    obtain ⟨hret, y, hyt, hys, hclean, hbytes⟩ := hpost
    refine ⟨hret, _, hclean, fun j => ?_, fun j => ?_⟩
    · by_cases e : j = i
      · rw [e, update_self, hyt, hτ]
      · rw [update_of_ne e, hτ]
    · dsimp only
      rw [hbytes]
      by_cases e : j = i
      · subst e
        rw [update_self, update_self, update_self, hys,
          Block.read_write (by omega), hc]
      · rw [update_of_ne e, update_of_ne e, update_of_ne e, hc]

theorem ilock_open (hn : τ i ≠ none) :
    Triple E (fun s => Files (⟨ip, i, false⟩ :: l) τ c s ∧ Ready sb N n s) (ilock ip)
      fun _ s => Files (⟨ip, i, true⟩ :: l) τ c s ∧ Ready sb N n s := by
  have hfiles : Triple (fun _ => False) (Files (⟨ip, i, false⟩ :: l) τ c) (ilock ip)
    fun _ => Files (⟨ip, i, true⟩ :: l) τ c := ilock_files fun h => absurd h hn
  exact (hfiles.and (ilock_ready trivial trivial : Triple (fun _ => True) _ _ _)).weaken
    fun _ h => h.1.elim

theorem iunlock_open {P : State → Prop} :
    Triple E (fun s => Files (⟨ip, i, true⟩ :: l) τ c s ∧ P s) (iunlock ip)
      fun _ s => Files (⟨ip, i, false⟩ :: l) τ c s ∧ P s := by
  have hfiles : Triple (fun _ => False) (Files (⟨ip, i, true⟩ :: l) τ c) (iunlock ip)
    fun _ => Files (⟨ip, i, false⟩ :: l) τ c := iunlock_files
  exact (hfiles.and (iunlock_keeps trivial : Triple (fun _ => True) _ _ _)).weaken
    fun _ h => h.1.elim

theorem writeOp_spec (hn : τ i ≠ none) (hd : τ i ≠ some .T_DEV) (ho : off < 2 ^ 32)
    (hsrc : src.length < 2 ^ 32) :
    Triple (fun e => Full e ∧ Short sb N n (span off src.length) e)
      (fun s => Files (⟨ip, i, false⟩ :: l) τ c s ∧ Ready sb N n s) (writeOp ip off src)
      fun r s => r = (written c i off src).1 ∧
        Files (⟨ip, i, false⟩ :: l) τ (written c i off src).2 s ∧
          Ready sb N (n + (span off src.length + 1)) s := by
  refine .bind (ilock_open hn) fun _ =>
    .bind ((writei_files (.inr (.inl rfl)) (.inr rfl) hd ho hsrc List.mem_cons_self).and
      writei_spare) fun r => .pre (P := fun s => r = (written c i off src).1 ∧
        (Files (⟨ip, i, true⟩ :: l) τ (written c i off src).2 s ∧
          Left sb N n (span off src.length) s)) (.of_and fun hr => ?_)
      (fun s h => ⟨h.1.1, h.1.2, h.2⟩)
  exact .bind iunlock_open fun _ =>
    .bind (endOp_files.and endOp_ready) fun _ => .pure fun s h => ⟨hr, h⟩

namespace FileCall

/-- What a call panics with, if `n` of `N` free blocks have been taken before it. -/
def Lacks (sb : Superblock) (N n : Nat) (a : FileCall) (e : Panic) : Prop :=
  (e = .outOfBlocks → N < n + a.needed) ∧ (e = .tooBig → ¬ a.Fits sb)

theorem run_spec {a : FileCall} (hx : ⟨a.ip, i, false⟩ ∈ l) (hn : τ i ≠ none)
    (hd : τ i ≠ some .T_DEV) :
    Triple (fun e => Full e ∧ Lacks sb N n a e) (fun s => Files l τ c s ∧ Ready sb N n s)
      a.run fun r s => r = (a.spec i c).1 ∧ Files l τ (a.spec i c).2 s ∧
        Ready sb N (n + a.needed) s := by
  obtain ⟨l₁, l₂, rfl⟩ := List.append_of_mem hx
  have hperm : ∀ {c s}, Files (l₁ ++ ⟨a.ip, i, false⟩ :: l₂) τ c s ↔
      Files (⟨a.ip, i, false⟩ :: (l₁ ++ l₂)) τ c s :=
    ⟨fun h => h.congr fun _ h => h.perm List.perm_middle,
      fun h => h.congr fun _ h => h.perm List.perm_middle.symm⟩
  simp only [hperm]
  cases a with
  | readi ip off k =>
    refine .bind (ilock_open hn) fun _ =>
      .bind (Q := fun r s => r = readBytes (c i) off.toNat k.toNat ∧
        (Files (⟨ip, i, true⟩ :: (l₁ ++ l₂)) τ c s ∧ Ready sb N n s)) (fun s h => ?_) fun r =>
        .of_and fun hr => ?_
    · have hr : Disk.readi ip off.toNat k.toNat s = _ :=
        readi_files hd off.toNat_lt k.toNat_lt List.mem_cons_self h.1
      rw [hr]
      exact ⟨rfl, h⟩
    · exact .bind iunlock_open fun _ => .pure fun s h =>
        ⟨congrArg Reply.bytes hr, h⟩
  | writei ip off src hsrc =>
    exact .bind (writeOp_spec hn hd off.toNat_lt hsrc) fun r => .of_and fun hr =>
      .pure fun s h => ⟨congrArg Reply.count hr, h⟩

/-- What one of the calls panics with. -/
def LacksOne (sb : Superblock) (N n : Nat) (calls : List FileCall) (e : Panic) : Prop :=
  (e = .outOfBlocks → N < n + neededAll calls) ∧ (e = .tooBig → ∃ a ∈ calls, ¬ a.Fits sb)

theorem runAll_spec (inum : Ip → Nat) {calls : List FileCall}
    (hx : ∀ a ∈ calls, (⟨a.ip, inum a.ip, false⟩ : Pin) ∈ l)
    (ht : ∀ a ∈ calls, τ (inum a.ip) ≠ none ∧ τ (inum a.ip) ≠ some .T_DEV) :
    Triple (fun e => Full e ∧ LacksOne sb N n calls e)
      (fun s => Files l τ c s ∧ Ready sb N n s) (runAll calls)
      fun rs s => rs = (specAll inum c calls).1 ∧ Files l τ (specAll inum c calls).2 s := by
  induction calls generalizing c n with
  | nil => exact .pure fun s h => ⟨rfl, h.1⟩
  | cons a calls ih =>
    have ha := ht a List.mem_cons_self
    have hsum : n + neededAll (a :: calls) = n + a.needed + neededAll calls := by
      simp [neededAll, Nat.add_assoc]
    have hhead : ∀ e, Lacks sb N n a e → LacksOne sb N n (a :: calls) e := by
      refine fun e h => ⟨fun he => ?_, fun he => ⟨a, List.mem_cons_self, h.2 he⟩⟩
      have := h.1 he
      omega
    have htail : ∀ e, LacksOne sb N (n + a.needed) calls e →
        LacksOne sb N n (a :: calls) e := by
      refine fun e h => ⟨fun he => hsum ▸ h.1 he, fun he => ?_⟩
      obtain ⟨b, hb, hfit⟩ := h.2 he
      exact ⟨b, .tail _ hb, hfit⟩
    refine .bind ((run_spec (hx a List.mem_cons_self) ha.1 ha.2).weaken fun e h =>
      ⟨h.1, hhead e h.2⟩) fun r => .of_and fun hr => ?_
    refine .bind ((ih (fun b hb => hx b (.tail _ hb)) fun b hb => ht b (.tail _ hb)).weaken
      fun e h => ⟨h.1, htail e h.2⟩) fun rs => .pure fun s h => ?_
    rw [specAll]
    exact ⟨by rw [hr, h.1], h.2⟩

end FileCall

/-- The caller has a reference to an entry of an inode with bytes. -/
def State.Regular (s : State) (ip : Ip) : Prop :=
  0 < (s.icache ip).ref ∧ (s.dinode (s.icache ip).inum).type ≠ none ∧
    (s.dinode (s.icache ip).inum).type ≠ some .T_DEV

instance : Decidable (s.Regular ip) := inferInstanceAs (Decidable (_ ∧ _ ∧ _))

/-- Calls on inodes return what they return on lists of bytes, and leave the inodes with the bytes
that the lists have then. They panic only if there are no free blocks, of which there were fewer
than the calls need, or if one of them does not fit in the log. -/
theorem fileCalls_refine {calls : List FileCall} (h : disk.Reached s)
    (hc : ∀ a ∈ calls, s.Regular a.ip) :
    Result (fun e => e = .outOfBlocks ∧ s.free < FileCall.neededAll calls ∨
        e = .tooBig ∧ ∃ a ∈ calls, ¬ a.Fits s.sb)
      (fun rs s' => (rs, s'.contents) =
        FileCall.specAll (fun ip => (s.icache ip).inum) s.contents calls)
      (FileCall.runAll calls s) := by
  obtain ⟨⟨v, hb, hcache⟩, hlog⟩ := idle_invariant.of_reached h
  have hpins := hcache.pins (List.nodup_dedup (calls.map FileCall.ip)) fun ip hip => by
    obtain ⟨a, ha, rfl⟩ := List.mem_map.mp (List.mem_dedup.mp hip)
    exact (hc a ha).1
  have hrun := FileCall.runAll_spec (N := s.free) (n := 0) (fun ip => (s.icache ip).inum)
    (fun a ha => ?_) (fun a ha => (hc a ha).2) s
    ⟨Clean.files ⟨hb, hpins⟩, ⟨hb.boot, le_rfl⟩, rfl, hlog⟩
  · refine hrun.imp (fun e he => ?_) fun rs s' hpost => ?_
    · refine he.1.imp (fun hfull => ⟨hfull, ?_⟩) fun hbig => ⟨hbig, he.2.2 hbig⟩
      have := he.2.1 hfull
      omega
    · rw [hpost.1, hpost.2.contents_eq]
  · exact List.mem_map_of_mem (List.mem_dedup.mpr (List.mem_map_of_mem ha))

/-- Two bytes are written to a file, and the second one is read. -/
def twoCalls : List FileCall :=
  [.writei ⟨1, by decide⟩ 0 [7, 8] (by decide), .readi ⟨1, by decide⟩ 1 5]

theorem fileCalls_refine_new : ∃ s rs s', disk.Reached s ∧ (∀ a ∈ twoCalls, s.Regular a.ip) ∧
    FileCall.runAll twoCalls s = .ok (rs, s') ∧
      rs = [.count (some 2), .bytes (some [8])] ∧ s'.contents 2 = [7, 8] := by
  obtain ⟨s, hs, h⟩ := LTS.exists_reached_of_run (M := disk) (s := emptyImage.boot)
    [.iget 1, .create emptyCaller [102] .T_FILE 0 0]
    (fun s => decide ((∀ a ∈ twoCalls, s.Regular a.ip ∧ a.Fits s.sb) ∧
      (s.icache ⟨1, by decide⟩).inum = 2 ∧ s.contents 2 = [] ∧ 2 ≤ s.free))
    ⟨_, blockOwnership_emptyImage, rfl⟩ (by decide +kernel)
  obtain ⟨hreg, hi, hc, hfree⟩ := of_decide_eq_true h
  have hr := fileCalls_refine hs fun a ha => (hreg a ha).1
  have hspec : FileCall.specAll (fun ip => (s.icache ip).inum) s.contents twoCalls =
      ([.count (some 2), .bytes (some [8])], update s.contents 2 [7, 8]) := by
    simp [twoCalls, FileCall.specAll, FileCall.spec, FileCall.ip, hi, written, writeBytes,
      readBytes, hc, MAXFILE, BSIZE, NDIRECT, NINDIRECT]
  cases hx : FileCall.runAll twoCalls s with
  | error e =>
    rw [hx] at hr
    rcases hr with ⟨-, hlt⟩ | ⟨-, a, ha, hbig⟩
    · exact absurd hlt (not_lt.mpr hfree)
    · exact absurd (hreg a ha).2 hbig
  | ok r =>
    rw [hx] at hr
    obtain ⟨hrs, hcont⟩ := Prod.mk.inj (hr.trans hspec)
    refine ⟨s, r.1, r.2, hs, fun a ha => (hreg a ha).1, hx, hrs, ?_⟩
    rw [hcont, update_self]

/-- 27 blocks are written to a file. -/
def bigCall : FileCall :=
  .writei ⟨1, by decide⟩ 0 (List.replicate (27 * BSIZE) 7) (by rw [List.length_replicate]; decide)

/-- The blocks, the indirect block and the block of the free map fill the log before the last block
is written, although there are free blocks enough and the list of bytes takes them all. -/
theorem fileCalls_tooBig : ∃ s, disk.Reached s ∧ s.Regular bigCall.ip ∧
    bigCall.needed ≤ s.free ∧ (bigCall.spec (s.icache bigCall.ip).inum s.contents).1 =
      .count (some (27 * BSIZE)) ∧ Result (· = .tooBig) (fun _ _ => False) (bigCall.run s) := by
  obtain ⟨s, hs, h⟩ := LTS.exists_reached_of_run (M := disk) (s := emptyImage.boot)
    [.iget 1, .create emptyCaller [102] .T_FILE 0 0]
    (fun s => decide (s.Regular bigCall.ip ∧ bigCall.needed ≤ s.free ∧
      (bigCall.spec (s.icache bigCall.ip).inum s.contents).1 = .count (some (27 * BSIZE)) ∧
      Result (· = .tooBig) (fun _ _ => False) (bigCall.run s)))
    ⟨_, blockOwnership_emptyImage, rfl⟩ (by decide +kernel)
  exact ⟨s, hs, of_decide_eq_true h⟩

end Xv6.Disk
