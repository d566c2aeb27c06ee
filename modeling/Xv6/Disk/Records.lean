import Mathlib.Data.List.TakeWhile
import Xv6.Disk.Files
import Xv6.Lib.Slots

/-! # The records of a directory

The bytes of a directory are records of `sizeof(struct dirent)` bytes, with names that are padded
with zeros and have no terminator if they fill the field. A record whose number is zero is free. The
records are a table of slots, in which a name counts up to `DIRSIZ` bytes. -/

namespace Xv6.Disk

open Fs (DIRSIZ Name Dirent namecmp)

variable {j k : Nat} {name : Name}

def record (b : List UInt8) (k : Nat) : Dirent := decodeDirent ((b.drop (DIRENT * k)).take DIRENT)

def recordCount (b : List UInt8) : Nat := b.length / DIRENT

/-- A record that `dirlookup` stops at. -/
def Matches (name : Name) (de : Dirent) : Prop := de.inum ≠ 0 ∧ namecmp name de.name = 0

instance : DecidablePred (Matches name) := fun _ => inferInstanceAs (Decidable (_ ∧ _))

/-- The index of the record that `dirlookup` finds. -/
def lookup (b : List UInt8) (name : Name) : Option Nat :=
  (List.range (recordCount b)).find? fun k => Matches name (record b k)

def find (b : List UInt8) (name : Name) : Option Nat :=
  (lookup b name).map fun k => (record b k).inum

/-- No two records in use have the same name. -/
structure IsMap (b : List UInt8) : Prop where
  whole : DIRENT ∣ b.length
  inj : ∀ j k, j < recordCount b → k < recordCount b → (record b j).inum ≠ 0 →
    (record b k).inum ≠ 0 → namecmp (record b j).name (record b k).name = 0 → j = k

/-! ## Records in bytes -/

/-- The bytes with a record replaced, or with one more record. -/
def patch (b : List UInt8) (k : Nat) (src : List UInt8) : List UInt8 :=
  b.take (DIRENT * k) ++ src ++ b.drop (DIRENT * k + DIRENT)

theorem length_patch (hw : DIRENT ∣ b.length) (hk : k ≤ recordCount b)
    (hsrc : src.length = DIRENT) :
    (patch b k src).length = DIRENT * max (recordCount b) (k + 1) := by
  obtain ⟨m, hm⟩ := hw
  simp only [patch, List.length_append, List.length_take, List.length_drop, recordCount, hsrc,
    hm] at *
  simp only [DIRENT, DIRSIZ] at *
  omega

theorem record_patch (hw : DIRENT ∣ b.length) (hk : k ≤ recordCount b)
    (hsrc : src.length = DIRENT) :
    record (patch b k src) j = if j = k then decodeDirent src else record b j := by
  obtain ⟨m, hm⟩ := hw
  have hb : DIRENT * k ≤ b.length := by
    simp only [recordCount, hm, DIRENT, DIRSIZ] at *
    omega
  have hlen : (b.take (DIRENT * k)).length = DIRENT * k := by simpa using hb
  by_cases e : j = k
  · subst e
    rw [if_pos rfl, record, patch, List.append_assoc, List.drop_left' hlen,
      List.take_left' hsrc]
  · rw [if_neg e, record, record]
    congr 1
    refine List.ext_getElem? fun a => ?_
    simp only [List.getElem?_take, List.getElem?_drop, patch]
    by_cases ha : a < DIRENT
    · rw [if_pos ha, if_pos ha]
      rcases Nat.lt_or_gt_of_ne e with h | h
      · -- a record before the new one
        have hle : DIRENT * (j + 1) ≤ DIRENT * k := Nat.mul_le_mul_left _ h
        rw [Nat.mul_succ] at hle
        rw [List.append_assoc, List.getElem?_append_left (by omega), List.getElem?_take,
          if_pos (by omega)]
      · -- a record behind it
        have hle : DIRENT * (k + 1) ≤ DIRENT * j := Nat.mul_le_mul_left _ h
        rw [Nat.mul_succ] at hle
        have happ : (b.take (DIRENT * k) ++ src).length = DIRENT * k + DIRENT := by
          rw [List.length_append, hlen, hsrc]
        rw [List.getElem?_append_right (by omega), happ, List.getElem?_drop]
        congr 1
        omega
    · rw [if_neg ha, if_neg ha]

/-- A name in a record has up to `DIRSIZ` bytes, and no zeros. -/
theorem record_name : (record b k).name.take DIRSIZ = (record b k).name ∧
    0 ∉ (record b k).name := by
  refine ⟨List.take_of_length_le ?_, ?_⟩
  · refine (List.takeWhile_prefix _).length_le.trans ?_
    simp
  · intro h
    simpa using List.mem_takeWhile_imp h

theorem decodeDirent_encodeDirent (hi : inum < 65536) (hn : 0 ∉ name) :
    decodeDirent (encodeDirent inum name) = ⟨inum, name.take DIRSIZ⟩ := by
  have hzero : 0 ∉ name.take DIRSIZ := fun h => hn (List.mem_of_mem_take h)
  have htake : (name.take DIRSIZ).takeWhile (· ≠ 0) = name.take DIRSIZ := by
    refine List.takeWhile_eq_self_iff.mpr fun c hc => ?_
    have : c ≠ 0 := fun e => hzero (e ▸ hc)
    simpa using this
  have hlen : (name.take DIRSIZ).length ≤ DIRSIZ := by simp
  unfold decodeDirent encodeDirent
  congr 1
  · simp only [List.getD_cons_zero, List.getD_cons_succ, UInt8.toNat_ofNat']
    omega
  · simp only [List.drop_succ_cons, List.drop_zero, strncpy, htake, List.drop_nil,
      List.append_nil]
    rw [List.take_of_length_le (by simp), List.takeWhile_append_of_pos
      (List.takeWhile_eq_self_iff.mp htake), List.takeWhile_replicate]
    simp

theorem length_encodeDirent : (encodeDirent inum name).length = DIRENT := by
  have hlen : ((name.take DIRSIZ).takeWhile (· ≠ 0)).length ≤ DIRSIZ :=
    (List.takeWhile_prefix _).length_le.trans (by simp)
  simp only [encodeDirent, strncpy, List.length_cons, List.length_append, List.length_replicate,
    List.drop_nil, List.length_nil, DIRENT]
  omega

/-! ## Records as slots -/

/-- A record as a slot with its name. -/
def slot (de : Dirent) : Option (Name × Nat) :=
  if de.inum = 0 then none else some (de.name, de.inum)

def slots (b : List UInt8) : List (Option (Name × Nat)) :=
  (List.range (recordCount b)).map fun k => slot (record b k)

theorem length_slots : (slots b).length = recordCount b := by simp [slots]

theorem getElem?_slots (hk : k < recordCount b) : (slots b)[k]? = some (slot (record b k)) := by
  simp [slots, hk]

theorem slots_patch (hw : DIRENT ∣ b.length) (hk : k ≤ recordCount b)
    (hsrc : src.length = DIRENT) :
    slots (patch b k src) = Slots.put (slots b) k (slot (decodeDirent src)) := by
  have hcount : recordCount (patch b k src) = max (recordCount b) (k + 1) := by
    rw [recordCount, length_patch hw hk hsrc, Nat.mul_div_cancel_left _ (by decide)]
  refine List.ext_getElem? fun j => ?_
  rw [Slots.getElem?_put (by rwa [length_slots])]
  simp only [slots, List.getElem?_map, hcount, record_patch hw hk hsrc]
  by_cases e : j = k
  · subst e
    simp
  · by_cases hj : j < recordCount b
    · simp [e, hj]
    · have hout : ¬ j < max (recordCount b) (k + 1) := by omega
      simp [e, hj, hout]

theorem namecmp_eq_zero_iff {n : Name} (hn : 0 ∉ name) (hn' : 0 ∉ n) :
    namecmp name n = 0 ↔ name.take DIRSIZ = n.take DIRSIZ :=
  CString.strncmp_eq_zero_iff_take hn hn'

/-- Names agree under `namecmp` if they are the same name in a record. -/
theorem namecmp_record (hn : 0 ∉ name) :
    namecmp name (record b k).name = 0 ↔ (record b k).name = name.take DIRSIZ := by
  obtain ⟨htake, hzero⟩ := record_name (b := b) (k := k)
  rw [namecmp_eq_zero_iff hn hzero, htake, eq_comm]

theorem find_eq (hn : 0 ∉ name) : find b name = Slots.find (slots b) (name.take DIRSIZ) := by
  rw [find, lookup, List.find?_eq_findSome?_guard, List.map_findSome?, Slots.find, slots,
    List.findSome?_map]
  congr 1
  funext k
  simp only [Function.comp_apply, Option.guard, Matches, namecmp_record hn, slot, Slots.valueAt]
  by_cases h0 : (record b k).inum = 0
  · simp [h0]
  · by_cases hm : (record b k).name = name.take DIRSIZ <;> simp [h0, hm]

theorem at_slots : Slots.At (slots b) k x i ↔
    k < recordCount b ∧ (record b k).inum ≠ 0 ∧ (record b k).name = x ∧ (record b k).inum = i := by
  unfold Slots.At
  by_cases hk : k < recordCount b
  · rw [getElem?_slots hk, slot]
    by_cases h0 : (record b k).inum = 0 <;> simp [h0, hk]
  · have hnone : (slots b)[k]? = none := List.getElem?_eq_none (by rw [length_slots]; omega)
    simp [hnone, hk]

theorem isMap_iff : IsMap b ↔ DIRENT ∣ b.length ∧ Slots.Distinct (slots b) := by
  have hname : ∀ j k, namecmp (record b j).name (record b k).name = 0 ↔
      (record b j).name = (record b k).name := by
    intro j k
    obtain ⟨htake, hzero⟩ := record_name (b := b) (k := j)
    rw [namecmp_record hzero, htake, eq_comm]
  constructor
  · intro h
    refine ⟨h.whole, fun j k x v w hj hk => ?_⟩
    obtain ⟨hj, hj0, hjx, -⟩ := at_slots.mp hj
    obtain ⟨hk, hk0, hkx, -⟩ := at_slots.mp hk
    exact h.inj j k hj hk hj0 hk0 ((hname j k).mpr (hjx.trans hkx.symm))
  · rintro ⟨hw, h⟩
    refine ⟨hw, fun j k hj hk hj0 hk0 he => ?_⟩
    exact h j k _ _ _ (at_slots.mpr ⟨hj, hj0, rfl, rfl⟩)
      (at_slots.mpr ⟨hk, hk0, ((hname j k).mp he).symm, rfl⟩)

/-! ## `dirlink` and `unlink` on records -/

/-- The index of the record that `dirlink` writes. -/
def freeRecord (b : List UInt8) : Nat :=
  ((List.range (recordCount b)).find? fun k => (record b k).inum = 0).getD (recordCount b)

theorem freeRecord_spec : (slots b)[freeRecord b]? = some none ∨
    freeRecord b = (slots b).length := by
  unfold freeRecord
  cases hf : (List.range (recordCount b)).find? fun k => (record b k).inum = 0 with
  | none => exact .inr length_slots.symm
  | some k =>
    have hk := List.mem_range.mp (List.mem_of_find?_eq_some hf)
    have h0 : (record b k).inum = 0 := by simpa using List.find?_some hf
    exact .inl (by rw [Option.getD_some, getElem?_slots hk, slot, if_pos h0])

theorem freeRecord_le : freeRecord b ≤ recordCount b := by
  rcases freeRecord_spec (b := b) with h | h
  · rw [← length_slots]
    exact (List.getElem?_eq_some_iff.mp h).1.le
  · exact (h.trans length_slots).le

namespace IsMap

/-- A name that is not there is entered. -/
theorem link (h : IsMap b) (hi : 0 < inum ∧ inum < 65536) (hn : 0 ∉ name)
    (hf : find b name = none) :
    IsMap (patch b (freeRecord b) (encodeDirent inum name)) ∧
      ∀ n : Name, 0 ∉ n → find (patch b (freeRecord b) (encodeDirent inum name)) n =
        if namecmp n name = 0 then some inum else find b n := by
  obtain ⟨hw, hd⟩ := isMap_iff.mp h
  have hslot : slot (decodeDirent (encodeDirent inum name)) = some (name.take DIRSIZ, inum) := by
    rw [decodeDirent_encodeDirent hi.2 hn, slot, if_neg hi.1.ne']
  have hlen : (encodeDirent inum name).length = DIRENT := length_encodeDirent
  have hput := slots_patch hw freeRecord_le hlen
  rw [hslot] at hput
  rw [find_eq hn] at hf
  refine ⟨isMap_iff.mpr ⟨?_, ?_⟩, fun n hn' => ?_⟩
  · rw [length_patch hw freeRecord_le hlen]
    exact Nat.dvd_mul_right ..
  · rw [hput]
    exact hd.put_some (by rw [length_slots]; exact freeRecord_le) hf
  · rw [find_eq hn', find_eq hn', hput, hd.find_put_some freeRecord_spec hf]
    simp only [namecmp_eq_zero_iff hn' hn]

/-- A name that is there is removed. -/
theorem unlink (h : IsMap b) (hn : 0 ∉ name) (hl : lookup b name = some k) :
    IsMap (patch b k (List.replicate DIRENT 0)) ∧
      ∀ n : Name, 0 ∉ n → find (patch b k (List.replicate DIRENT 0)) n =
        if namecmp n name = 0 then none else find b n := by
  obtain ⟨hw, hd⟩ := isMap_iff.mp h
  have hk : k < recordCount b := List.mem_range.mp (List.mem_of_find?_eq_some hl)
  obtain ⟨h0, hm⟩ : Matches name (record b k) := by simpa using List.find?_some hl
  have hat : Slots.At (slots b) k (name.take DIRSIZ) (record b k).inum :=
    at_slots.mpr ⟨hk, h0, (namecmp_record hn).mp hm, rfl⟩
  have hput := slots_patch hw hk.le (List.length_replicate (n := DIRENT) (a := (0 : UInt8)))
  have hslot : slot (decodeDirent (List.replicate DIRENT 0)) = none := by decide
  rw [hslot] at hput
  refine ⟨isMap_iff.mpr ⟨?_, ?_⟩, fun n hn' => ?_⟩
  · rw [length_patch hw hk.le List.length_replicate]
    exact Nat.dvd_mul_right ..
  · rw [hput]
    exact hd.put_none (by rw [length_slots]; exact hk.le)
  · rw [find_eq hn', find_eq hn', hput, hd.find_put_none hat]
    simp only [namecmp_eq_zero_iff hn' hn]

end IsMap

end Xv6.Disk
