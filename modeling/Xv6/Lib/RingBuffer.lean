import Mathlib.Algebra.Group.Nat.Defs
import Mathlib.Data.List.Basic
import Mathlib.Logic.Function.Basic

/-! # Ring buffers with free-running counters

`N` cells and two counters of `w` bits that are never reset: a cell is found from a counter modulo
`N`, and the counters wrap around. `Holds r q` says that `r` holds the queue `q`. When `N` divides
`2 ^ w`, pushing and popping are those of the queue; when `N` is smaller than `2 ^ w`, the tests on
the counters for an empty and for a full buffer are right. -/

/-- A ring of `N` cells with counters of `w` bits. -/
structure RingBuffer (w N : Nat) (α : Type*) where
  data : Nat → α
  nread : BitVec w
  nwrite : BitVec w

namespace RingBuffer

variable {w N : Nat} {α : Type*} {r : RingBuffer w N α}

def Empty (r : RingBuffer w N α) : Prop := r.nread = r.nwrite

def Full (r : RingBuffer w N α) : Prop := r.nwrite = r.nread + BitVec.ofNat w N

instance : Decidable r.Empty := inferInstanceAs (Decidable (_ = _))

instance : Decidable r.Full := inferInstanceAs (Decidable (_ = _))

def push (r : RingBuffer w N α) (x : α) : RingBuffer w N α :=
  { r with data := Function.update r.data (r.nwrite.toNat % N) x, nwrite := r.nwrite + 1 }

def front (r : RingBuffer w N α) : α := r.data (r.nread.toNat % N)

def pop (r : RingBuffer w N α) : RingBuffer w N α := { r with nread := r.nread + 1 }

/-- `r` holds the queue `q`. -/
structure Holds (r : RingBuffer w N α) (q : List α) : Prop where
  length_le : q.length ≤ N
  nwrite : r.nwrite = r.nread + BitVec.ofNat w q.length
  data : ∀ i (h : i < q.length), r.data ((r.nread.toNat + i) % N) = q[i]

/-- The counters differ by the length of the queue. -/
theorem Holds.sub_eq (h : r.Holds q) : r.nwrite - r.nread = BitVec.ofNat w q.length := by
  rw [h.nwrite, BitVec.add_comm, BitVec.add_sub_cancel]

section Tests
variable (hlt : N < 2 ^ w)
include hlt

theorem Holds.toNat_sub (h : r.Holds q) : (r.nwrite - r.nread).toNat = q.length := by
  rw [h.sub_eq, BitVec.toNat_ofNat, Nat.mod_eq_of_lt (Nat.lt_of_le_of_lt h.length_le hlt)]

theorem Holds.empty_iff (h : r.Holds q) : r.Empty ↔ q = [] := by
  constructor
  · intro he
    have := h.toNat_sub hlt
    rw [← he, BitVec.sub_self, BitVec.toNat_zero] at this
    exact List.length_eq_zero_iff.mp this.symm
  · rintro rfl
    simpa [Empty] using h.nwrite.symm

theorem Holds.full_iff (h : r.Holds q) : r.Full ↔ q.length = N := by
  constructor
  · intro hf
    have := h.toNat_sub hlt
    rw [hf, BitVec.add_comm, BitVec.add_sub_cancel, BitVec.toNat_ofNat,
      Nat.mod_eq_of_lt hlt] at this
    exact this.symm
  · intro hq
    rw [Full, h.nwrite, hq]

end Tests

/-- Two places of the queue are in different cells. -/
theorem cell_ne (hik : i < k) (hk : k < N) : (a + i) % N ≠ (a + k) % N := by
  intro h
  have hd := Nat.sub_mod_eq_zero_of_mod_eq h.symm
  rw [Nat.add_sub_add_left, Nat.mod_eq_of_lt (by omega)] at hd
  omega

theorem Holds.front (h : r.Holds (x :: q)) : r.front = x := h.data 0 (by simp)

section Cells
variable (hdvd : N ∣ 2 ^ w)
include hdvd

/-- Wrapping does not change the cell of a counter. -/
theorem toNat_add_mod (a : BitVec w) (i : Nat) :
    (a + BitVec.ofNat w i).toNat % N = (a.toNat + i) % N := by
  rw [BitVec.toNat_add, BitVec.toNat_ofNat, Nat.add_mod_mod, Nat.mod_mod_of_dvd _ hdvd]

theorem Holds.push (h : r.Holds q) (hq : q.length < N) (x : α) : (r.push x).Holds (q ++ [x]) where
  length_le := by
    rw [List.length_append, List.length_singleton]
    exact hq
  nwrite := by
    change r.nwrite + 1 = _
    rw [h.nwrite, List.length_append, List.length_singleton, BitVec.ofNat_add, BitVec.add_assoc]
    rfl
  data i hi := by
    have hcell : r.nwrite.toNat % N = (r.nread.toNat + q.length) % N := by
      rw [h.nwrite, toNat_add_mod hdvd]
    change Function.update r.data (r.nwrite.toNat % N) x ((r.nread.toNat + i) % N) = _
    rw [hcell]
    by_cases hiq : i < q.length
    · rw [Function.update_of_ne (cell_ne hiq hq), h.data i hiq, List.getElem_append_left hiq]
    · rw [List.length_append, List.length_singleton] at hi
      obtain rfl : i = q.length := by omega
      rw [Function.update_self, List.getElem_concat_length rfl]

theorem Holds.pop (h : r.Holds (x :: q)) : r.pop.Holds q where
  length_le := by
    have := h.length_le
    rw [List.length_cons] at this
    omega
  nwrite := by
    change r.nwrite = r.nread + 1 + _
    rw [h.nwrite, List.length_cons, Nat.add_comm, BitVec.ofNat_add, BitVec.add_assoc]
    rfl
  data i hi := by
    have hone : (r.nread + 1).toNat % N = (r.nread.toNat + 1) % N := toNat_add_mod hdvd r.nread 1
    change r.data (((r.nread + 1).toNat + i) % N) = _
    rw [Nat.add_mod, hone, ← Nat.add_mod, Nat.add_assoc, Nat.add_comm 1 i,
      h.data (i + 1) (by simpa using hi)]
    rfl

end Cells

end RingBuffer
