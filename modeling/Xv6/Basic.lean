import Mathlib.Algebra.GroupWithZero.Nat
import Mathlib.Data.Fin.Basic
import Mathlib.Data.List.FinRange

/-! # Slots, states and channels

What the three process tables of the kernel (`proc.c`, `proc_MLFQ.c`, `proc_multiLevel.c`)
have in common: the number of slots, the states of a process and the channels it sleeps on.
A `struct proc *` is the slot it points to, and a null pointer is `none`. -/

namespace Xv6

abbrev NPROC : Nat := 64

instance : NeZero NPROC := ⟨by decide⟩

/-- A slot of `ptable.proc`. -/
abbrev Slot := Fin NPROC

instance : LawfulBEq Slot := inferInstance

/-- The slots in the order of `for(p = ptable.proc; p < &ptable.proc[NPROC]; p++)`. -/
@[irreducible] def slots : List Slot := List.finRange NPROC

theorem mem_slots (p : Slot) : p ∈ slots := by
  rw [slots]; exact List.mem_finRange p

theorem nodup_slots : slots.Nodup := by
  rw [slots]; exact List.nodup_finRange _

/-- A loop that stops at the first slot passing `P` finds the least one. -/
theorem find_slots_eq_some : slots.find? P = some p ↔ P p = true ∧ ∀ q < p, P q = false := by
  rw [slots, List.find?_eq_some_iff_getElem]
  simp only [List.getElem_finRange, List.length_finRange, Bool.not_eq_eq_eq_not, Bool.not_true]
  constructor
  · rintro ⟨hp, i, hi, rfl, hlt⟩
    exact ⟨hp, fun q hq => hlt q hq⟩
  · rintro ⟨hp, hlt⟩
    exact ⟨hp, p, p.isLt, rfl, fun j hj => hlt ⟨j, hj.trans p.isLt⟩ hj⟩

theorem find_slots_eq_none : slots.find? P = none ↔ ∀ p, P p = false := by
  simp only [List.find?_eq_none, mem_slots, forall_const, Bool.not_eq_true]

/-- `enum procstate` of `proc.h`. -/
inductive ProcState
  | UNUSED | EMBRYO | SLEEPING | RUNNABLE | RUNNING | ZOMBIE
  deriving DecidableEq, Repr

/-- A wait channel: the address of `ticks`, of a process, or of another kernel object. -/
inductive Chan
  | ticks
  | proc (p : Slot)
  | other (addr : Nat)
  deriving DecidableEq, Repr

end Xv6
