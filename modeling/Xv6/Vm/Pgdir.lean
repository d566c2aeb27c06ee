import Mathlib.Logic.Function.Basic
import Xv6.Lib.Fault

/-! # Page directories

`vm.c` and `kalloc.c`. Pages of physical memory and of an address space go by their numbers. A page
table is kept with the entry of the page directory that leads to it, so that no two entries share
one. `denied` lists for the next calls of `kalloc` whether others have taken the last page. -/

namespace Xv6.Vm

open Fault Function

def NPTENTRIES : Nat := 1024

/-- An entry of a page table: `PTE_P`, `PTE_W`, `PTE_U`, the other flags, and `PTE_ADDR`. -/
structure Pte where
  p : Bool
  w : Bool
  u : Bool
  rest : BitVec 9
  addr : Nat
  deriving DecidableEq

def Pte.zero : Pte := ⟨false, false, false, 0, 0⟩

/-- A page table and the page that it is in. -/
structure PageTable where
  frame : Nat
  pte : Nat → Pte

structure Memory where
  /-- `kmem.freelist`. -/
  free : List Nat
  denied : List Bool
  /-- The first page behind the kernel. -/
  kend : Nat
  /-- The entries with `PTE_P` of the page directory in a page. -/
  pgdir : Nat → Nat → Option PageTable
  data : Nat → Nat → UInt8

namespace Memory

/-- The entry for a page, all zero where there is no page table. -/
def pte (m : Memory) (d n : Nat) : Pte :=
  ((m.pgdir d (n / NPTENTRIES)).map fun t => t.pte (n % NPTENTRIES)).getD .zero

def setTable (m : Memory) (d i : Nat) (t : PageTable) : Memory :=
  { m with pgdir := update m.pgdir d (update (m.pgdir d) i (some t)) }

/-- Store an entry, through the page table that is there. -/
def setPte (m : Memory) (d n : Nat) (e : Pte) : Memory :=
  { m with pgdir := update m.pgdir d (update (m.pgdir d) (n / NPTENTRIES)
      ((m.pgdir d (n / NPTENTRIES)).map fun t =>
        { t with pte := update t.pte (n % NPTENTRIES) e })) }

def setData (m : Memory) (r : Nat) (c : Nat → UInt8) : Memory :=
  { m with data := update m.data r c }

/-- The page is filled with junk and put on the free list. -/
def freed (m : Memory) (r : Nat) : Memory := { m.setData r fun _ => 1 with free := r :: m.free }

/-- `PHYSTOP`, as the number of a page. -/
def PHYSTOP : Nat := 0xE000

/-- A page that `kfree` takes. -/
def Allocatable (m : Memory) (r : Nat) : Prop := m.kend ≤ r ∧ r < PHYSTOP

instance {m : Memory} {r : Nat} : Decidable (m.Allocatable r) := inferInstanceAs (Decidable (_ ∧ _))

end Memory

inductive Panic
  | kfree
  deriving DecidableEq

abbrev Kernel (α : Type) := Fault Panic Memory α

/-! ## Pages -/

def kalloc : Kernel (Option Nat) := do
  let m ← reads id
  match m.denied.headD false, m.free with
  | false, r :: rs =>
    writes fun m => { m with free := rs, denied := m.denied.tail }
    pure (some r)
  | _, _ =>
    writes fun m => { m with denied := m.denied.tail }
    pure none

def kfree (r : Nat) : Kernel Unit := do
  check (fun m => m.Allocatable r) .kfree
  writes fun m => m.freed r

/-- Whether there is an entry for the page `n`. -/
def walkpgdir (d n : Nat) (alloc : Bool) : Kernel Bool := do
  if (← reads fun m => (m.pgdir d (n / NPTENTRIES)).isSome) then pure true
  else if alloc = false then pure false
  else
    match ← kalloc with
    | none => pure false
    | some r =>
      writes fun m => m.setTable d (n / NPTENTRIES) ⟨r, fun _ => .zero⟩
      pure true

end Xv6.Vm
