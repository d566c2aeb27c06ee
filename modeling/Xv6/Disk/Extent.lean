import Xv6.Disk.Dir
import Xv6.Lib.Alloc

/-! # The blocks of inodes

The places of an inode are its addresses and the entries of its indirect block. Each lemma says how
the block numbers in the places change with an address, an entry or the contents of a block. -/

namespace Xv6.Disk

open Fs (BSIZE NDIRECT NINDIRECT InodeType)
open Function

/-- A place for a block number in an inode or in its indirect block. -/
inductive Place
  | direct (k : Nat)
  | indirect
  | entry (j : Nat)
  deriving DecidableEq

/-- What says which blocks an inode has. -/
structure Extent where
  type : Option InodeType
  size : Nat
  addrs : Nat → Nat

def Dinode.extent (x : Dinode) : Extent := ⟨x.type, x.size, x.addrs⟩

/-- A block number, unless it is zero. -/
def blockNo (b : Nat) : Option Nat := if b = 0 then none else some b

def Extent.stored (x : Extent) (block : Nat → Block) : Place → Option Nat
  | .direct k => if k < NDIRECT then blockNo (x.addrs k) else none
  | .indirect => blockNo (x.addrs NDIRECT)
  | .entry j =>
    if j < NINDIRECT ∧ x.addrs NDIRECT ≠ 0 then blockNo ((block (x.addrs NDIRECT)).word j)
    else none

/-- The place of the block with index `bn` of a file. -/
def Place.ofIndex (bn : Nat) : Place := if bn < NDIRECT then .direct bn else .entry (bn - NDIRECT)

theorem Place.ofIndex_ne : Place.ofIndex bn ≠ .indirect := by
  unfold Place.ofIndex
  split <;> nofun

theorem Place.ofIndex_inj (h : Place.ofIndex a = .ofIndex b) : a = b := by
  unfold Place.ofIndex at h
  split at h <;> split at h
  · exact Place.direct.inj h
  · cases h
  · cases h
  · have := Place.entry.inj h
    omega

/-- The blocks before the offset `off` are there. -/
def Extent.MappedTo (x : Extent) (block : Nat → Block) (off : Nat) : Prop :=
  ∀ bn, bn < (off + (BSIZE - 1)) / BSIZE → x.stored block (.ofIndex bn) ≠ none

/-- The block numbers in the places of all inodes in use. -/
def stored (v : Nat → Extent) (block : Nat → Block) (q : Nat × Place) : Option Nat :=
  if (v q.1).type = none then none else (v q.1).stored block q.2

/-- A block of the contents of an inode. One that is not there counts as zeros. -/
def data (v : Nat → Extent) (block : Nat → Block) (i bn : Nat) : Block :=
  match stored v block (i, .ofIndex bn) with
  | some b => block b
  | none => fun _ => 0

/-- The bytes of the contents of an inode, before its end and behind it. -/
def bytes (v : Nat → Extent) (block : Nat → Block) (i : Nat) : Block :=
  fun k => data v block i (k / BSIZE) (k % BSIZE)

variable {x y : Extent} {block block' : Nat → Block} {v : Nat → Extent} {i j k b c bn : Nat}
  {p : Place} {w : Block}

/-! ## Words -/

namespace Block

theorem write_nil : write w k [] = w := by
  funext a
  exact if_neg (by simp)

/-- A write in two parts. -/
theorem write_write (hj : j ≤ src.length) :
    (write w k (src.take j)).write (k + j) (src.drop j) = write w k src := by
  funext a
  have hlen : (src.take j).length = j := by simpa using hj
  simp only [write, List.length_drop, hlen]
  by_cases h₁ : k ≤ a ∧ a < k + j
  · rw [if_neg (by omega), if_pos h₁, if_pos (by omega), List.getD_eq_getElem?_getD,
      List.getElem?_take_of_lt (by omega), ← List.getD_eq_getElem?_getD]
  · by_cases h₂ : k + j ≤ a ∧ a < k + src.length
    · rw [if_pos (by omega), if_pos (by omega), List.getD_eq_getElem?_getD, List.getElem?_drop,
        ← List.getD_eq_getElem?_getD]
      congr 1
      omega
    · rw [if_neg (by omega), if_neg h₁, if_neg (by omega)]

theorem read_add : read w k (m + n) = read w k m ++ read w (k + m) n := by
  simp only [read, List.range_add, List.map_append, List.map_map]
  congr 1
  refine List.map_congr_left fun a _ => ?_
  simp [Nat.add_assoc]

theorem word_zero : word (fun _ => 0) j = 0 := rfl

theorem word_setWord_self (hc : c < 2 ^ 32) : (setWord w j c).word j = c := by
  have h₀ : (4 * j) / 4 = j ∧ (4 * j) % 4 = 0 := by omega
  have h₁ : (4 * j + 1) / 4 = j ∧ (4 * j + 1) % 4 = 1 := by omega
  have h₂ : (4 * j + 2) / 4 = j ∧ (4 * j + 2) % 4 = 2 := by omega
  have h₃ : (4 * j + 3) / 4 = j ∧ (4 * j + 3) % 4 = 3 := by omega
  simp only [word, setWord, h₀, h₁, h₂, h₃, if_true, UInt8.toNat_ofNat']
  omega

theorem word_setWord_of_ne (h : k ≠ j) : (setWord w j c).word k = w.word k := by
  have h₀ : (4 * k) / 4 ≠ j := by omega
  have h₁ : (4 * k + 1) / 4 ≠ j := by omega
  have h₂ : (4 * k + 2) / 4 ≠ j := by omega
  have h₃ : (4 * k + 3) / 4 ≠ j := by omega
  simp only [word, setWord, h₀, h₁, h₂, h₃, if_false]

end Block

@[simp] theorem blockNo_zero : blockNo 0 = none := rfl

theorem blockNo_of_ne (h : b ≠ 0) : blockNo b = some b := if_neg h

theorem blockNo_eq_some : blockNo b = some c ↔ b ≠ 0 ∧ b = c := by
  unfold blockNo
  split <;> simp_all

/-! ## The places of an inode -/

namespace Extent

/-- A direct address changes. -/
theorem stored_setDirect (hk : k < NDIRECT) : { x with addrs := update x.addrs k b }.stored block =
      update (x.stored block) (.direct k) (blockNo b) := by
  funext p
  cases p with
  | direct k' =>
    by_cases e : k' = k
    · simp [stored, e, hk]
    · simp [stored, e]
  | indirect | entry => simp [stored, hk.ne']

/-- An inode gets an empty indirect block. -/
theorem stored_setIndirect (h0 : x.addrs NDIRECT = 0) (hb : b ≠ 0) (hz : block b = fun _ => 0) :
    { x with addrs := update x.addrs NDIRECT b }.stored block =
      update (x.stored block) .indirect (some b) := by
  funext p
  cases p with
  | direct k =>
    by_cases hk : k < NDIRECT
    · simp [stored, hk, hk.ne]
    · simp [stored, hk]
  | indirect => simp [stored, blockNo_of_ne hb]
  | entry j => simp [stored, h0, hz, Block.word_zero]

/-- An inode loses its indirect block, and what that lists. -/
theorem stored_clearIndirect : { x with addrs := update x.addrs NDIRECT 0 }.stored block p =
      match p with
      | .direct k => x.stored block (.direct k)
      | _ => none := by
  cases p with
  | direct k =>
    by_cases hk : k < NDIRECT
    · simp [stored, hk, hk.ne]
    · simp [stored, hk]
  | indirect | entry => simp [stored]

/-- An entry of the indirect block changes. -/
theorem stored_setEntry (hb : x.stored block .indirect = some b) (hj : j < NINDIRECT)
    (hc : c < 2 ^ 32) : x.stored (update block b ((block b).setWord j c)) =
      update (x.stored block) (.entry j) (blockNo c) := by
  obtain ⟨h0, rfl⟩ := blockNo_eq_some.mp hb
  funext p
  cases p with
  | direct | indirect => simp [stored]
  | entry j' =>
    by_cases e : j' = j
    · simp [stored, e, hj, h0, Block.word_setWord_self hc]
    · simp [stored, e, Block.word_setWord_of_ne e]

/-- The contents of a block matter only if it is the indirect block. -/
theorem stored_setBlock (hb : x.stored block .indirect ≠ some b) :
    x.stored (update block b w) = x.stored block := by
  funext p
  cases p with
  | direct k => rfl
  | indirect => rfl
  | entry j =>
    by_cases h0 : x.addrs NDIRECT = 0
    · simp [stored, h0]
    · have hne : x.addrs NDIRECT ≠ b := fun e => hb (blockNo_eq_some.mpr ⟨h0, e⟩)
      simp [stored, update_of_ne hne]

/-- An inode without addresses has no blocks. -/
theorem stored_eq_none (h : ∀ k, k ≤ NDIRECT → x.addrs k = 0) : x.stored block p = none := by
  cases p with
  | direct k =>
    by_cases hk : k < NDIRECT
    · simp [stored, h k hk.le]
    · simp [stored, hk]
  | indirect | entry => simp [stored, h]

/-- Blocks that are there stay. -/
theorem MappedTo.update (h : x.MappedTo block off)
    (hs : y.stored block' = update (x.stored block) p (some b)) : y.MappedTo block' off := by
  intro bn hbn
  rw [hs]
  by_cases e : Place.ofIndex bn = p
  · rw [e, update_self]
    nofun
  · rw [update_of_ne e]
    exact h bn hbn

theorem MappedTo.mono (h : x.MappedTo block off) (hn : n ≤ off) : x.MappedTo block n := by
  intro bn hbn
  refine h bn (lt_of_lt_of_le hbn (Nat.div_le_div_right ?_))
  omega

theorem mappedTo_zero : x.MappedTo block 0 := fun _ hbn => absurd hbn (by simp [BSIZE])

/-- The block at the end of the part that is there is there too. -/
theorem MappedTo.extend (h : x.MappedTo block off) (hn : n ≤ (off / BSIZE + 1) * BSIZE)
    (hs : x.stored block (.ofIndex (off / BSIZE)) ≠ none) : x.MappedTo block n := by
  intro bn hbn
  by_cases e : bn = off / BSIZE
  · rwa [e]
  · refine h bn ?_
    simp only [BSIZE] at *
    omega

theorem MappedTo.max (h : x.MappedTo block off) (h' : x.MappedTo block n) :
    x.MappedTo block (max off n) := by
  rcases le_total off n with hle | hle
  · rwa [max_eq_right hle]
  · rwa [max_eq_left hle]

theorem MappedTo.congr (h : x.MappedTo block off) (hs : y.stored block' = x.stored block) :
    y.MappedTo block' off := by
  intro bn hbn
  rw [hs]
  exact h bn hbn

end Extent

/-! ## The places of all inodes -/

theorem stored_of_type (h : (v i).type ≠ none) : stored v block (i, p) = (v i).stored block p :=
  if_neg h

/-- A place of an inode changes. -/
theorem stored_update (hx : (v i).type ≠ none) (hy : y.type ≠ none)
    (hs : y.stored block = update ((v i).stored block) p r) :
    stored (update v i y) block = update (stored v block) (i, p) r := by
  funext ⟨a, q⟩
  by_cases e : a = i
  · subst e
    by_cases eq : q = p
    · simp [stored, hy, hs, eq]
    · simp [stored, hx, hy, hs, eq]
  · simp [stored, e]

/-- A place of an inode that has changed changes. -/
theorem stored_updated (hy : y.type ≠ none) (hz : z.type ≠ none)
    (hs : z.stored block = update (y.stored block) p r) :
    stored (update v i z) block =
      update (stored (update v i y) block) (i, p) r := by
  have h : stored (update (update v i y) i z) block = _ :=
    stored_update (by rwa [update_self]) hz (by rwa [update_self])
  rwa [update_idem] at h

/-- The size of an inode does not matter. -/
theorem stored_setSize : stored (update v i { y with size := n }) block =
    stored (update v i y) block := by
  funext ⟨a, q⟩
  by_cases e : a = i
  · subst e
    simp only [stored, update_self]
    rfl
  · simp [stored, e]

/-- A block changes that is not an indirect block. -/
theorem stored_setBlock (h : ∀ i, stored v block (i, .indirect) ≠ some b) :
    stored v (update block b w) = stored v block := by
  funext ⟨a, q⟩
  by_cases ht : (v a).type = none
  · simp [stored, ht]
  · have ha := h a
    rw [stored_of_type ht] at ha ⊢
    rw [stored_of_type ht, Extent.stored_setBlock ha]

/-- An entry of an indirect block changes that no other inode has. -/
theorem stored_setEntry (hx : (v i).type ≠ none) (hb : (v i).stored block .indirect = some b)
    (hi : ∀ a, a ≠ i → stored v block (a, .indirect) ≠ some b) (hj : j < NINDIRECT)
    (hc : c < 2 ^ 32) : stored v (update block b ((block b).setWord j c)) =
      update (stored v block) (i, .entry j) (blockNo c) := by
  funext ⟨a, q⟩
  by_cases e : a = i
  · subst e
    rw [stored_of_type hx, Extent.stored_setEntry hb hj hc]
    by_cases eq : q = .entry j
    · simp [eq]
    · simp [eq, stored_of_type hx]
  · have hne : (a, q) ≠ (i, .entry j) := fun h => e (congrArg Prod.fst h)
    rw [update_of_ne hne]
    by_cases ht : (v a).type = none
    · simp [stored, ht]
    · have ha := hi a e
      rw [stored_of_type ht] at ha
      rw [stored_of_type ht, stored_of_type ht, Extent.stored_setBlock ha]

/-- An inode changes that has no blocks before and after. -/
theorem stored_update_empty (hx : ∀ p, stored v block (i, p) = none)
    (hy : ∀ p, y.type = none ∨ y.stored block p = none) :
    stored (update v i y) block = stored v block := by
  funext ⟨a, q⟩
  by_cases e : a = i
  · subst e
    rw [hx q, stored, update_self]
    rcases hy q with h | h
    · rw [if_pos h]
    · rw [h, ite_self]
  · simp [stored, e]

/-! ## Contents -/

theorem data_of_stored (h : stored v block (i, .ofIndex bn) = some b) :
    data v block i bn = block b := by
  rw [data, h]

/-- The contents depend on the places and on the blocks in them. -/
theorem data_congr (hs : stored v' block' = stored v block)
    (hb : ∀ q c, q.2 ≠ .indirect → stored v block q = some c → block' c = block c) :
    data v' block' = data v block := by
  funext a n
  unfold data
  rw [hs]
  cases hq : stored v block (a, .ofIndex n) with
  | none => rfl
  | some c => exact hb _ c Place.ofIndex_ne hq

/-- A block of zeros comes to an empty place. -/
theorem data_of_update (h0 : stored v block q = none)
    (hs : stored v' block' = update (stored v block) q (some c)) (hc : block' c = fun _ => 0)
    (hb : ∀ q c, q.2 ≠ .indirect → stored v block q = some c → block' c = block c) :
    data v' block' = data v block := by
  funext a n
  unfold data
  rw [hs]
  by_cases e : (a, Place.ofIndex n) = q
  · rw [e, update_self, h0]
    exact hc
  · rw [update_of_ne e]
    cases hq : stored v block (a, .ofIndex n) with
    | none => rfl
    | some c => exact hb _ c Place.ofIndex_ne hq

/-- A part of a block of the contents is read. -/
theorem bytes_read (hq : stored v block (i, .ofIndex (off / BSIZE)) = some b)
    (hn : off % BSIZE + n ≤ BSIZE) :
    (block b).read (off % BSIZE) n = (bytes v block i).read off n := by
  refine List.map_congr_left fun k hk => ?_
  have hk := List.mem_range.mp hk
  simp only [BSIZE] at hn
  have h₁ : (off + k) / BSIZE = off / BSIZE := by simp only [BSIZE]; omega
  have h₂ : (off + k) % BSIZE = off % BSIZE + k := by simp only [BSIZE]; omega
  rw [bytes, h₁, h₂, data_of_stored hq]

/-- A part of a block of the contents is written that is in no other place. -/
theorem bytes_write (hq : stored v block (i, .ofIndex (off / BSIZE)) = some b)
    (hone : ∀ q, stored v block q = some b → q = (i, .ofIndex (off / BSIZE)))
    (hn : off % BSIZE + src.length ≤ BSIZE) :
    bytes v (update block b ((block b).write (off % BSIZE) src)) =
      update (bytes v block) i ((bytes v block i).write off src) := by
  have hs : stored v (update block b ((block b).write (off % BSIZE) src)) =
      stored v block :=
    stored_setBlock fun a ha => Place.ofIndex_ne (congrArg Prod.snd (hone _ ha)).symm
  have hother : ∀ a n, (a, Place.ofIndex n) ≠ (i, .ofIndex (off / BSIZE)) →
      data v (update block b ((block b).write (off % BSIZE) src)) a n =
        data v block a n := by
    intro a n hne
    unfold data
    rw [hs]
    cases hc : stored v block (a, .ofIndex n) with
    | none => rfl
    | some c =>
      refine update_of_ne ?_ ..
      rintro rfl
      exact hne (hone _ hc)
  funext a k
  by_cases e : a = i
  · subst e
    rw [update_self]
    by_cases hk : k / BSIZE = off / BSIZE
    · have hq' := hq
      rw [← hs] at hq'
      simp only [bytes, Block.write, hk, data_of_stored hq, data_of_stored hq',
        update_self]
      have h₁ : k = k / BSIZE * BSIZE + k % BSIZE := by simp only [BSIZE]; omega
      have h₂ : off = off / BSIZE * BSIZE + off % BSIZE := by simp only [BSIZE]; omega
      rw [hk] at h₁
      have h₃ : off ≤ k ∧ k < off + src.length ↔
          off % BSIZE ≤ k % BSIZE ∧ k % BSIZE < off % BSIZE + src.length := by omega
      have h₄ : k - off = k % BSIZE - off % BSIZE := by omega
      simp only [h₃, h₄]
    · have hout : ¬ (off ≤ k ∧ k < off + src.length) := by
        simp only [BSIZE] at hk hn
        omega
      rw [Block.write, if_neg hout, bytes, bytes, hother]
      intro h
      exact hk (Place.ofIndex_inj (congrArg Prod.snd h))
  · rw [update_of_ne e]
    exact congrFun (hother _ _ fun h => e (congrArg Prod.fst h)) _

theorem bytes_setSize : bytes (update v i { y with size := n }) block =
    bytes (update v i y) block := by
  unfold bytes data
  rw [stored_setSize]

end Xv6.Disk
