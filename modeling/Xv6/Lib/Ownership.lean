import Mathlib.Data.List.Nodup

/-! # Objects that are made, held and freed

Objects are numbered in the order in which they are made, so that an object is never taken for a
later one at the same address. `Safe h holds` says that no object was freed twice and that no
holder holds a freed object. It is kept when a holder drops its object or shares that of another,
when a new object is made, and when an object is freed that nobody holds any more. -/

namespace Ownership

variable {ι : Type*}

/-- The number of objects made so far, and those freed, the last one first. -/
structure Heap where
  next : Nat
  freed : List Nat
  deriving DecidableEq, Repr

namespace Heap

def alloc (h : Heap) : Heap := { h with next := h.next + 1 }

def free (h : Heap) (x : Nat) : Heap := { h with freed := x :: h.freed }

end Heap

structure Safe (h : Heap) (holds : ι → Option Nat) : Prop where
  nodup : h.freed.Nodup
  freed_lt : ∀ x ∈ h.freed, x < h.next
  held_lt : ∀ i x, holds i = some x → x < h.next
  held : ∀ i x, holds i = some x → x ∉ h.freed

/-- Holders may drop what they hold and share what others hold. -/
theorem Safe.mono (H : Safe h holds)
    (hh : ∀ i x, holds' i = some x → ∃ j, holds j = some x) : Safe h holds' where
  nodup := H.nodup
  freed_lt := H.freed_lt
  held_lt i x hx := by
    obtain ⟨j, hj⟩ := hh i x hx
    exact H.held_lt j x hj
  held i x hx := by
    obtain ⟨j, hj⟩ := hh i x hx
    exact H.held j x hj

/-- A new object may be held. -/
theorem Safe.alloc (H : Safe h holds)
    (hh : ∀ i x, holds' i = some x → x = h.next ∨ ∃ j, holds j = some x) : Safe h.alloc holds' where
  nodup := H.nodup
  freed_lt x hx := Nat.lt_succ_of_lt (H.freed_lt x hx)
  held_lt i x hx := by
    rcases hh i x hx with rfl | ⟨j, hj⟩
    · exact Nat.lt_succ_self _
    · exact Nat.lt_succ_of_lt (H.held_lt j x hj)
  held i x hx hf := by
    rcases hh i x hx with rfl | ⟨j, hj⟩
    · exact Nat.lt_irrefl _ (H.freed_lt _ hf)
    · exact H.held j x hj hf

/-- An object may be freed that was neither freed before nor is held by anyone. -/
theorem Safe.free (H : Safe h holds) (hlt : x < h.next) (hx : x ∉ h.freed)
    (hn : ∀ i, holds i ≠ some x) : Safe (h.free x) holds where
  nodup := List.nodup_cons.mpr ⟨hx, H.nodup⟩
  freed_lt y hy := by
    rcases List.mem_cons.mp hy with rfl | hy
    · exact hlt
    · exact H.freed_lt y hy
  held_lt := H.held_lt
  held i y hy hf := by
    rcases List.mem_cons.mp hf with rfl | hf
    · exact hn i hy
    · exact H.held i y hy hf

end Ownership
