import Mathlib.Data.List.Chain
import Mathlib.Data.List.Nodup
import Mathlib.Logic.Function.Basic

/-! # Circular doubly linked lists

Nodes of a type `α` with two pointers each, as the assignments to them leave them. `IsRing d h l`
says that from `h` the pointers lead through the nodes of `l` and back to `h`, in one direction and
in the other. Taking a node out and putting one in behind `h` keep this, and a loop from `h` along
the pointers visits the nodes of `l` in their order. -/

structure Dll (α : Type*) where
  next : α → α
  prev : α → α

namespace Dll

open Function

variable {α : Type*} {d d' : Dll α} {h b : α} {l l₁ l₂ : List α}

/-- The two pointers between neighbours. -/
def Links (d : Dll α) (a b : α) : Prop := d.next a = b ∧ d.prev b = a

/-- The ring with the nodes `h` and `l`. -/
structure IsRing (d : Dll α) (h : α) (l : List α) : Prop where
  nodup : (h :: l).Nodup
  chain : (h :: (l ++ [h])).IsChain d.Links

/-- A chain depends on the pointers between its nodes only. -/
theorem chain_congr (hc : l.IsChain d.Links) (hn : ∀ a ∈ l.dropLast, d'.next a = d.next a)
    (hp : ∀ b ∈ l.tail, d'.prev b = d.prev b) : l.IsChain d'.Links := by
  rw [List.isChain_iff_forall_rel_of_append_cons_cons] at hc ⊢
  intro a b l₁ l₂ e
  obtain ⟨hab, hba⟩ := hc e
  have ha : a ∈ l.dropLast := by
    rw [e, List.dropLast_append_of_ne_nil (List.cons_ne_nil _ _)]
    simp
  have hb : b ∈ l.tail := by
    rw [e]
    cases l₁ <;> simp
  exact ⟨(hn a ha).trans hab, (hp b hb).trans hba⟩

theorem IsRing.notMem (hr : d.IsRing h l) : h ∉ l := (List.nodup_cons.mp hr.nodup).1

/-- The ring in the other direction. -/
theorem IsRing.flip (hr : d.IsRing h l) : (Dll.mk d.prev d.next).IsRing h l.reverse where
  nodup := by
    have := hr.nodup
    rw [List.nodup_cons] at this ⊢
    rwa [List.mem_reverse, List.nodup_reverse]
  chain := by
    have e : h :: (l.reverse ++ [h]) = (h :: (l ++ [h])).reverse := by simp
    rw [e, List.isChain_reverse]
    exact hr.chain.imp fun _ _ => And.symm

/-- A list and the node behind it begin with some node. -/
theorem exists_cons_eq (l : List α) (h : α) : ∃ c l', l ++ [h] = c :: l' := by
  cases l with
  | nil => exact ⟨h, [], rfl⟩
  | cons c l => exact ⟨c, l ++ [h], rfl⟩

/-- The node in front of a list and the list end with some node. -/
theorem exists_concat_eq (h : α) (l : List α) : ∃ l' a, h :: l = l' ++ [a] := by
  rcases List.eq_nil_or_concat (h :: l) with e | ⟨l', a, e⟩
  · cases e
  · exact ⟨l', a, by rw [e, List.concat_eq_append]⟩

variable [DecidableEq α]

/-- `b->next->prev = b->prev; b->prev->next = b->next`. -/
def remove (d : Dll α) (b : α) : Dll α :=
  let d := { d with prev := update d.prev (d.next b) (d.prev b) }
  { d with next := update d.next (d.prev b) (d.next b) }

/-- `b->next = h->next; b->prev = h; h->next->prev = b; h->next = b`. -/
def insert (d : Dll α) (h b : α) : Dll α :=
  let d := { d with next := update d.next b (d.next h) }
  let d := { d with prev := update d.prev b h }
  let d := { d with prev := update d.prev (d.next h) b }
  { d with next := update d.next h b }

theorem IsRing.remove (hr : d.IsRing h (l₁ ++ b :: l₂)) : (d.remove b).IsRing h (l₁ ++ l₂) := by
  -- the neighbours of `b`
  obtain ⟨A, a, ha⟩ := exists_concat_eq h l₁
  obtain ⟨c, C, hc⟩ := exists_cons_eq l₂ h
  have hnd := hr.nodup
  have hch := hr.chain
  have e : h :: (l₁ ++ b :: l₂ ++ [h]) = A ++ a :: b :: c :: C := by
    rw [List.append_assoc, List.cons_append, hc, ← List.cons_append, ha, List.append_assoc]
    rfl
  rw [e, List.isChain_append_cons_cons, List.isChain_cons_cons] at hch
  obtain ⟨hA, ⟨hab, hba⟩, ⟨hbc, hcb⟩, hC⟩ := hch
  have hmem_a : a ∈ h :: l₁ := ha ▸ List.mem_append_right _ (List.mem_singleton_self a)
  have hmem_c : c ∈ l₂ ++ [h] := hc ▸ List.mem_cons_self
  rw [← List.cons_append, List.nodup_append] at hnd
  obtain ⟨hnd₁, hnd₂, hdis⟩ := hnd
  have hcb' : c ≠ b := by
    rintro rfl
    rcases List.mem_append.mp hmem_c with hm | hm
    · exact (List.nodup_cons.mp hnd₂).1 hm
    · exact hdis h List.mem_cons_self c List.mem_cons_self (List.mem_singleton.mp hm).symm
  have hnext : (d.remove b).next = update d.next a c := by
    simp only [Dll.remove, hbc, update_of_ne (Ne.symm hcb'), hba]
  have hprev : (d.remove b).prev = update d.prev c a := by
    simp only [Dll.remove, hbc, hba]
  refine ⟨?_, ?_⟩
  · rw [← List.cons_append, List.nodup_append]
    exact ⟨hnd₁, (List.nodup_cons.mp hnd₂).2,
      fun x hx y hy => hdis x hx y (List.mem_cons_of_mem _ hy)⟩
  · have e' : h :: (l₁ ++ l₂ ++ [h]) = A ++ a :: c :: C := by
      rw [List.append_assoc, hc, ← List.cons_append, ha, List.append_assoc]
      rfl
    have hndA : (A ++ [a]).Nodup := ha ▸ hnd₁
    have hne : ∀ y ∈ l₁, y ≠ c := by
      rintro y hy rfl
      rcases List.mem_append.mp hmem_c with hm | hm
      · exact hdis y (List.mem_cons_of_mem _ hy) y (List.mem_cons_of_mem _ hm) rfl
      · rw [List.mem_singleton.mp hm] at hy
        exact (List.nodup_cons.mp hnd₁).1 hy
    have hndC : (c :: C).Nodup := by
      rw [← hc, List.nodup_append]
      refine ⟨(List.nodup_cons.mp hnd₂).2, List.nodup_singleton h, fun x hx y hy e => ?_⟩
      rw [List.mem_singleton.mp hy] at e
      exact hdis h List.mem_cons_self x (List.mem_cons_of_mem _ hx) e.symm
    rw [e', List.isChain_append_cons_cons]
    refine ⟨chain_congr hA (fun x hx => ?_) (fun y hy => ?_), ⟨?_, ?_⟩,
      chain_congr hC (fun x hx => ?_) fun y hy => ?_⟩
    · rw [List.dropLast_concat] at hx
      rw [hnext, update_of_ne]
      rintro rfl
      exact (List.nodup_append.mp hndA).2.2 x hx x (List.mem_singleton_self x) rfl
    · rw [← ha, List.tail_cons] at hy
      rw [hprev, update_of_ne (hne y hy)]
    · rw [hnext, update_self]
    · rw [hprev, update_self]
    · rw [← hc, List.dropLast_concat] at hx
      rw [hnext, update_of_ne]
      rintro rfl
      exact hdis x hmem_a x (List.mem_cons_of_mem _ hx) rfl
    · rw [hprev, update_of_ne]
      rintro rfl
      exact (List.nodup_cons.mp hndC).1 hy

theorem IsRing.insert (hr : d.IsRing h l) (hb : b ∉ h :: l) : (d.insert h b).IsRing h (b :: l) := by
  obtain ⟨c, C, hc⟩ := exists_cons_eq l h
  have hch := hr.chain
  rw [hc, List.isChain_cons_cons] at hch
  obtain ⟨⟨hhc, hch'⟩, hC⟩ := hch
  have hbh : b ≠ h := fun e => hb (e ▸ List.mem_cons_self)
  have hcb : c ≠ b := by
    rintro rfl
    have : c ∈ l ++ [h] := hc ▸ List.mem_cons_self
    rcases List.mem_append.mp this with hm | hm
    · exact hb (List.mem_cons_of_mem _ hm)
    · exact hbh (List.mem_singleton.mp hm)
  have hnext : (d.insert h b).next =
      update (update d.next b c) h b := by
    simp only [Dll.insert, hhc]
  have hprev : (d.insert h b).prev =
      update (update d.prev b h) c b := by
    simp only [Dll.insert, update_of_ne (Ne.symm hbh), hhc]
  have hndC : (c :: C).Nodup := by
    rw [← hc, List.nodup_append]
    refine ⟨(List.nodup_cons.mp hr.nodup).2, List.nodup_singleton h, fun x hx y hy e => ?_⟩
    rw [List.mem_singleton.mp hy] at e
    exact hr.notMem (e ▸ hx)
  have hbC : ∀ y ∈ C, y ≠ b := by
    rintro y hy rfl
    have : y ∈ l ++ [h] := hc ▸ List.mem_cons_of_mem _ hy
    rcases List.mem_append.mp this with hm | hm
    · exact hb (List.mem_cons_of_mem _ hm)
    · exact hbh (List.mem_singleton.mp hm)
  refine ⟨?_, ?_⟩
  · rw [List.nodup_cons, List.nodup_cons, List.mem_cons, not_or]
    exact ⟨⟨Ne.symm hbh, hr.notMem⟩, fun hm => hb (List.mem_cons_of_mem _ hm),
      (List.nodup_cons.mp hr.nodup).2⟩
  · rw [List.cons_append, hc, List.isChain_cons_cons, List.isChain_cons_cons]
    refine ⟨⟨?_, ?_⟩, ⟨?_, ?_⟩, chain_congr hC (fun x hx => ?_) fun y hy => ?_⟩
    · rw [hnext, update_self]
    · rw [hprev, update_of_ne (Ne.symm hcb), update_self]
    · rw [hnext, update_of_ne hbh, update_self]
    · rw [hprev, update_self]
    · rw [← hc, List.dropLast_concat] at hx
      have hxh : x ≠ h := fun e => hr.notMem (e ▸ hx)
      have hxb : x ≠ b := fun e => hb (e ▸ List.mem_cons_of_mem _ hx)
      rw [hnext, update_of_ne hxh, update_of_ne hxb]
    · have hyc : y ≠ c := by
        rintro rfl
        exact (List.nodup_cons.mp hndC).1 hy
      rw [hprev, update_of_ne hyc, update_of_ne (hbC y hy)]

/-! ## Loops -/

/-- `for(; b != h; b = step(b)) if(P(b)) return b`, for at most as many nodes as the argument
says. -/
def find (step : α → α) (h : α) (P : α → Bool) : Nat → α → Option α
  | 0, _ => none
  | k + 1, b => if b = h then none else if P b then some b else find step h P k (step b)

theorem find_eq (hc : (b :: l).IsChain fun a b => d.next a = b) (hl : b :: l = l₁ ++ [h])
    (hh : h ∉ l₁) (hk : l₁.length < k) : find d.next h P k b = l₁.find? P := by
  induction k generalizing b l l₁ with
  | zero => exact absurd hk (Nat.not_lt_zero _)
  | succ k ih =>
    rw [find]
    cases l₁ with
    | nil =>
      obtain rfl : b = h := (List.cons.inj hl).1
      simp
    | cons c l₁ =>
      obtain ⟨rfl, rfl⟩ := List.cons.inj hl
      rw [List.mem_cons, not_or] at hh
      rw [if_neg (Ne.symm hh.1), List.find?_cons]
      cases hP : P b with
      | true => rfl
      | false =>
        obtain ⟨c, C, e⟩ := exists_cons_eq l₁ h
        change (b :: (l₁ ++ [h])).IsChain _ at hc
        rw [e, List.isChain_cons_cons] at hc
        rw [hc.1]
        exact ih hc.2 e.symm hh.2 (Nat.lt_of_succ_lt_succ hk)

/-- A loop along `next` looks through the ring. -/
theorem IsRing.find_next (hr : d.IsRing h l) (hk : l.length < k) :
    find d.next h P k (d.next h) = l.find? P := by
  obtain ⟨c, C, e⟩ := exists_cons_eq l h
  have hc := hr.chain
  rw [e, List.isChain_cons_cons] at hc
  rw [hc.1.1]
  exact find_eq (hc.2.imp fun _ _ => And.left) e.symm hr.notMem hk

/-- A loop along `prev` looks through it backwards. -/
theorem IsRing.find_prev (hr : d.IsRing h l) (hk : l.length < k) :
    find d.prev h P k (d.prev h) = l.reverse.find? P :=
  hr.flip.find_next (by rwa [List.length_reverse])

end Dll
