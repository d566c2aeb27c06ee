import Xv6.Thread.Grow
import Xv6.Vm.Pgdir

/-! # `deallocuvm`

The loop of `deallocuvm` goes over addresses. Where there is no page table, it goes on with the
first page of the next one. `deallocPages` visits every page. -/

namespace Xv6.Vm

open Fault Function
open Thread (PGSIZE KERNBASE PGROUNDUP pages)

def PDX (va : UInt32) : UInt32 := va >>> 22 &&& 0x3FF

def PTX (va : UInt32) : UInt32 := va >>> 12 &&& 0x3FF

def PGADDR (d t o : UInt32) : UInt32 := d <<< 22 ||| t <<< 12 ||| o

/-- The entry for an address, counted over all page tables. -/
def entry (va : UInt32) : Nat := (PDX va).toNat * NPTENTRIES + (PTX va).toNat

/-- The loop of `deallocuvm` from `a` on, `false` if it has not ended after as many iterations. -/
def deallocLoop (d : Nat) (oldsz : UInt32) : Nat → UInt32 → Kernel Bool
  | 0, _ => pure false
  | k + 1, a =>
    if a < oldsz then do
      if (← walkpgdir d (entry a) false) = false then
        deallocLoop d oldsz k (PGADDR (PDX a + 1) 0 0 - PGSIZE + PGSIZE)
      else
        let e ← reads fun m => m.pte d (entry a)
        if e.p then
          if e.addr = 0 then panic .kfree
          else
            kfree e.addr
            writes fun m => m.setPte d (entry a) .zero
            deallocLoop d oldsz k (a + PGSIZE)
        else deallocLoop d oldsz k (a + PGSIZE)
    else pure true

/-- `deallocuvm`, `none` if its loop has not ended after `2 ^ 20` iterations. -/
def deallocuvm (d : Nat) (oldsz newsz : UInt32) : Kernel (Option UInt32) := do
  if newsz ≥ oldsz then pure (some oldsz)
  else
    let ended ← deallocLoop d oldsz (2 ^ 20) (PGROUNDUP newsz)
    pure (if ended then some newsz else none)

variable {m m' : Memory}

/-! ## Page by page -/

/-- What `deallocuvm` does to one page. -/
def deallocPage (d n : Nat) : Kernel Unit := do
  if (← walkpgdir d n false) = false then pure ()
  else
    let e ← reads fun m => m.pte d n
    if e.p then
      if e.addr = 0 then panic .kfree
      else
        kfree e.addr
        writes fun m => m.setPte d n .zero

/-- The pages from `n` on that are below `N`, one by one. -/
def deallocPages (d N n : Nat) : Kernel Unit := (List.range' n (N - n)).forM (deallocPage d)

theorem walkpgdir_eq : walkpgdir d n false m = .ok ((m.pgdir d (n / NPTENTRIES)).isSome, m) := by
  unfold walkpgdir
  rw [reads_bind]
  cases (m.pgdir d (n / NPTENTRIES)).isSome <;> rfl

theorem deallocPage_of_none (h : m.pgdir d (n / NPTENTRIES) = none) :
    deallocPage d n m = .ok ((), m) := by
  unfold deallocPage
  rw [bind_of_ok walkpgdir_eq, h]
  rfl

theorem deallocPages_of_lt (h : n < N) :
    deallocPages d N n = deallocPage d n >>= fun _ => deallocPages d N (n + 1) := by
  obtain ⟨j, rfl⟩ := Nat.exists_eq_add_of_lt h
  unfold deallocPages
  rw [show n + j + 1 - n = j + 1 by omega, show n + j + 1 - (n + 1) = j by omega]
  rfl

theorem deallocPages_of_le (h : N ≤ n) : deallocPages d N n = pure () := by
  unfold deallocPages
  rw [Nat.sub_eq_zero_of_le h]
  rfl

theorem deallocPages_skip (j : Nat)
    (h : ∀ a, n ≤ a → a < n + j → m.pgdir d (a / NPTENTRIES) = none) :
    deallocPages d N n m = deallocPages d N (n + j) m := by
  induction j generalizing n with
  | zero => rfl
  | succ j ih =>
    rcases Nat.lt_or_ge n N with hn | hn
    · rw [deallocPages_of_lt hn, bind_of_ok (deallocPage_of_none (h n le_rfl (by omega))),
        ih fun a ha hj => h a (by omega) (by omega), Nat.add_right_comm, Nat.add_assoc]
    · rw [deallocPages_of_le hn, deallocPages_of_le (by omega)]

/-! ## Addresses -/

theorem PDX_toNat (va : UInt32) : (PDX va).toNat = va.toNat / 4194304 := by
  have := va.toNat_lt
  simp only [PDX, UInt32.toNat_and, UInt32.toNat_shiftRight, UInt32.reduceToNat, Nat.reduceMod,
    Nat.shiftRight_eq_div_pow, Nat.and_two_pow_sub_one_eq_mod _ 10]
  omega

theorem PTX_toNat (va : UInt32) : (PTX va).toNat = va.toNat / 4096 % 1024 := by
  simp only [PTX, UInt32.toNat_and, UInt32.toNat_shiftRight, UInt32.reduceToNat, Nat.reduceMod,
    Nat.shiftRight_eq_div_pow, Nat.and_two_pow_sub_one_eq_mod _ 10]

/-- The entry of an address goes by the number of its page. -/
theorem entry_eq (va : UInt32) : entry va = va.toNat / 4096 := by
  rw [entry, PDX_toNat, PTX_toNat, NPTENTRIES]
  omega

/-- The first address behind the region of a page table. -/
theorem PGADDR_toNat (h : va < KERNBASE) :
    (PGADDR (PDX va + 1) 0 0).toNat = (va.toNat / 4194304 + 1) * 4194304 := by
  have h' : va.toNat < 2147483648 := h
  simp [PGADDR, UInt32.toNat_add, UInt32.toNat_shiftLeft, PDX_toNat, Nat.shiftLeft_eq]
  omega

theorem lt_pages : n < pages sz ↔ 4096 * n < sz.toNat := by
  unfold pages
  omega

/-- The loop, which passes over the regions without a page table, does the same as one that visits
every page. -/
theorem deallocLoop_eq (hk : oldsz ≤ KERNBASE) (ha : a.toNat = 4096 * n)
    (hf : pages oldsz - n < k) :
    deallocLoop d oldsz k a = deallocPages d (pages oldsz) n >>= fun _ => pure true := by
  induction k generalizing n a with
  | zero => omega
  | succ k ih =>
    funext m
    unfold deallocLoop
    by_cases hlt : a < oldsz
    · have hn : n < pages oldsz := lt_pages.mpr (ha ▸ hlt)
      have hak : a < KERNBASE := UInt32.lt_of_lt_of_le hlt hk
      have hle : a.toNat < 2147483648 := hak
      have he : entry a = n := by rw [entry_eq, ha, Nat.mul_div_cancel_left _ (by omega)]
      have hnext : (a + PGSIZE).toNat = 4096 * (n + 1) := by
        rw [UInt32.toNat_add, Thread.PGSIZE_toNat]
        omega
      rw [if_pos hlt, he, bind_of_ok walkpgdir_eq]
      cases ht : m.pgdir d (n / NPTENTRIES) with
      | none =>
        obtain ⟨j, hj⟩ : ∃ j, (n / NPTENTRIES + 1) * NPTENTRIES = n + (j + 1) :=
          Nat.exists_eq_add_of_lt (by unfold NPTENTRIES; omega)
        have hskip : ∀ b, n ≤ b → b < n + (j + 1) → m.pgdir d (b / NPTENTRIES) = none := by
          intro b hb hb'
          rw [show b / NPTENTRIES = n / NPTENTRIES by unfold NPTENTRIES at *; omega, ht]
        have hto : (PGADDR (PDX a + 1) 0 0 - PGSIZE + PGSIZE).toNat = 4096 * (n + (j + 1)) := by
          rw [UInt32.sub_add_cancel, PGADDR_toNat hak, ← hj, NPTENTRIES]
          omega
        change deallocLoop d oldsz k _ m = (deallocPages d _ n m).bind _
        rw [deallocPages_skip (j + 1) hskip, ih hto (by omega)]
        rfl
      | some t =>
        rw [deallocPages_of_lt hn, bind_assoc, ← ih hnext (by omega)]
        change _ = (walkpgdir d n false >>= _ >>= _) m
        rw [bind_assoc, bind_of_ok walkpgdir_eq, ht]
        change (reads _ >>= _) m = (reads _ >>= _ >>= _) m
        rw [bind_assoc, reads_bind, reads_bind]
        split
        · split
          · rfl
          · rw [bind_assoc]
        · rfl
    · have hn : ¬ n < pages oldsz := fun h => hlt (by
        have := lt_pages.mp h
        rwa [← ha] at this)
      rw [if_neg hlt, deallocPages_of_le (Nat.not_lt.mp hn)]
      rfl

theorem deallocuvm_eq (hlt : newsz < oldsz) (hk : oldsz ≤ KERNBASE) :
    deallocuvm d oldsz newsz =
      deallocPages d (pages oldsz) (pages newsz) >>= fun _ => pure (some newsz) := by
  have hr := Thread.PGROUNDUP_toNat (UInt32.lt_of_lt_of_le hlt hk)
  have hk' : oldsz.toNat ≤ 2147483648 := hk
  have hf : pages oldsz - pages newsz < 2 ^ 20 := by
    unfold pages
    omega
  unfold deallocuvm
  rw [if_neg (UInt32.not_le.mpr hlt), deallocLoop_eq hk hr hf, bind_assoc]
  rfl

/-! ## What is freed -/

/-- The pages in physical memory of those from `n` on and below `N` that are present. -/
def Memory.frames (m : Memory) (d N n : Nat) : List Nat :=
  (List.range' n (N - n)).filterMap fun a => if (m.pte d a).p then some (m.pte d a).addr else none

/-- The entry is for a page that `kfree` takes. -/
def Memory.Freeable (m : Memory) (d n : Nat) : Prop :=
  (m.pte d n).addr ≠ 0 ∧ m.Allocatable (m.pte d n).addr

/-- The pages from `n` on and below `N` that were present have been freed one after the other, and
their entries are cleared. -/
structure Freed (d N n : Nat) (m m' : Memory) : Prop where
  free : m'.free = (m.frames d N n).reverse ++ m.free
  kend : m'.kend = m.kend
  inside : ∀ a, n ≤ a → a < N → m'.pte d a = if (m.pte d a).p then .zero else m.pte d a
  outside : ∀ a, ¬ (n ≤ a ∧ a < N) → m'.pte d a = m.pte d a
  tables : ∀ i, (m'.pgdir d i).map PageTable.frame = (m.pgdir d i).map PageTable.frame
  other : ∀ d', d' ≠ d → m'.pgdir d' = m.pgdir d'

namespace Memory

theorem isSome_of_p (h : (m.pte d n).p = true) : (m.pgdir d (n / NPTENTRIES)).isSome := by
  unfold pte at h
  cases ht : m.pgdir d (n / NPTENTRIES) with
  | none =>
    rw [ht] at h
    cases h
  | some t => rfl

theorem pte_setPte (h : (m.pgdir d (n / NPTENTRIES)).isSome) :
    (m.setPte d n e).pte d = update (m.pte d) n e := by
  obtain ⟨t, ht⟩ := Option.isSome_iff_exists.mp h
  funext a
  by_cases hi : a / NPTENTRIES = n / NPTENTRIES
  · by_cases ha : a = n
    · subst ha
      simp [pte, setPte, ht]
    · have hj : a % NPTENTRIES ≠ n % NPTENTRIES := fun hj =>
        ha (by rw [← Nat.div_add_mod a NPTENTRIES, hi, hj, Nat.div_add_mod])
      simp [pte, setPte, ht, hi, hj, ha]
  · have ha : a ≠ n := fun ha => hi (by rw [ha])
    simp [pte, setPte, hi, ha]

theorem frames_of_lt (h : n < N) : m.frames d N n =
    if (m.pte d n).p then (m.pte d n).addr :: m.frames d N (n + 1) else m.frames d N (n + 1) := by
  obtain ⟨j, rfl⟩ := Nat.exists_eq_add_of_lt h
  unfold frames
  rw [show n + j + 1 - n = j + 1 by omega, show n + j + 1 - (n + 1) = j by omega, List.range'_succ,
    List.filterMap_cons]
  cases (m.pte d n).p <;> rfl

theorem frames_of_le (h : N ≤ n) : m.frames d N n = [] := by
  rw [frames, Nat.sub_eq_zero_of_le h]
  rfl

theorem frames_congr (h : ∀ a, n ≤ a → m'.pte d a = m.pte d a) :
    m'.frames d N n = m.frames d N n :=
  List.filterMap_congr fun a ha => by rw [h a (List.mem_range'_1.mp ha).1]

end Memory

theorem kfree_eq (h : m.Allocatable r) : kfree r m = .ok ((), m.freed r) :=
  bind_of_ok (if_pos h)

/-- A page that is not present is passed over. -/
theorem deallocPage_of_not (h : (m.pte d n).p = false) : deallocPage d n m = .ok ((), m) := by
  cases ht : m.pgdir d (n / NPTENTRIES) with
  | none => exact deallocPage_of_none ht
  | some t =>
    unfold deallocPage
    rw [bind_of_ok walkpgdir_eq, ht]
    change (reads _ >>= _) m = _
    rw [reads_bind, h]
    rfl

theorem deallocPage_of_p (h : (m.pte d n).p = true) : deallocPage d n m =
    if (m.pte d n).addr = 0 then .error .kfree
    else (kfree (m.pte d n).addr >>= fun _ => writes fun m => m.setPte d n .zero) m := by
  obtain ⟨t, ht⟩ := Option.isSome_iff_exists.mp (Memory.isSome_of_p h)
  unfold deallocPage
  rw [bind_of_ok walkpgdir_eq, ht]
  change (reads _ >>= _) m = _
  rw [reads_bind, h, if_pos rfl, ite_apply]
  rfl

theorem Freed.refl (h : N ≤ n) : Freed d N n m m :=
  ⟨by rw [Memory.frames_of_le h]; rfl, rfl, fun a ha ha' => absurd ha' (by omega), fun _ _ => rfl,
    fun _ => rfl, fun _ _ => rfl⟩

/-- A page that was not present, and the rest. -/
theorem Freed.pass (hn : n < N) (hp : (m.pte d n).p = false) (h : Freed d N (n + 1) m m') :
    Freed d N n m m' := by
  refine ⟨?_, h.kend, fun a ha ha' => ?_, fun a ha => h.outside a (by omega), h.tables, h.other⟩
  · rw [h.free, Memory.frames_of_lt hn, hp]
    rfl
  · rcases Nat.eq_or_lt_of_le ha with rfl | ha
    · rw [h.outside _ (by omega), hp]
      rfl
    · exact h.inside a ha ha'

def Memory.drop (m : Memory) (d n : Nat) : Memory := (m.freed (m.pte d n).addr).setPte d n .zero

theorem Memory.pte_drop (hp : (m.pte d n).p = true) :
    (m.drop d n).pte d = update (m.pte d) n .zero :=
  pte_setPte (m := m.freed _) (isSome_of_p hp)

/-- A page that was present, and the rest. -/
theorem Freed.drop (hn : n < N) (hp : (m.pte d n).p = true)
    (h : Freed d N (n + 1) (m.drop d n) m') : Freed d N n m m' := by
  have hpte := Memory.pte_drop hp
  have hsame : ∀ a, a ≠ n → (m.drop d n).pte d a = m.pte d a := fun a ha => by
    rw [hpte, update_of_ne ha]
  refine ⟨?_, h.kend, fun a ha ha' => ?_, fun a ha => ?_, fun i => ?_, fun d' hd => ?_⟩
  · rw [h.free, Memory.frames_of_lt hn, hp, Memory.frames_congr fun a ha => hsame a (by omega)]
    change _ ++ (_ :: m.free) = _
    simp
  · rcases Nat.eq_or_lt_of_le ha with rfl | ha
    · rw [h.outside _ (by omega), hpte, update_self, hp]
      rfl
    · rw [h.inside a ha ha', hsame a (by omega)]
  · rw [h.outside a (by omega), hsame a (by omega)]
  · rw [h.tables]
    by_cases hi : i = n / NPTENTRIES
    · simp [Memory.drop, Memory.setPte, Memory.freed, Memory.setData, hi, Function.comp_def]
    · simp [Memory.drop, Memory.setPte, Memory.freed, Memory.setData, hi]
  · rw [h.other d' hd]
    exact update_of_ne hd ..

theorem deallocPage_of_freeable (hp : (m.pte d n).p = true) (hf : m.Freeable d n) :
    deallocPage d n m = .ok ((), m.drop d n) := by
  rw [deallocPage_of_p hp, if_neg hf.1, bind_of_ok (kfree_eq hf.2)]
  rfl

theorem deallocPage_of_not_freeable (hp : (m.pte d n).p = true) (hf : ¬ m.Freeable d n) :
    deallocPage d n m = .error .kfree := by
  rw [deallocPage_of_p hp]
  split
  · rfl
  · next h0 =>
    have hc : kfree (m.pte d n).addr m = .error .kfree := by
      change (check _ _ m).bind _ = _
      rw [Fault.check, if_neg fun ha => hf ⟨h0, ha⟩]
      rfl
    change (kfree _ m).bind _ = _
    rw [hc]
    rfl

/-- All pages that are present are freed, or there is one that `kfree` does not take. -/
theorem deallocPages_spec (d N n : Nat) (m : Memory) :
    (∃ m', deallocPages d N n m = .ok ((), m') ∧ Freed d N n m m') ∨
    deallocPages d N n m = .error .kfree ∧
      ∃ a, n ≤ a ∧ a < N ∧ (m.pte d a).p = true ∧ ¬ m.Freeable d a := by
  induction j : N - n generalizing n m with
  | zero =>
    rw [deallocPages_of_le (by omega)]
    exact .inl ⟨m, rfl, .refl (by omega)⟩
  | succ j ih =>
    have hn : n < N := by omega
    rw [deallocPages_of_lt hn]
    cases hp : (m.pte d n).p with
    | false =>
      rw [bind_of_ok (deallocPage_of_not hp)]
      obtain ⟨m', hr, h⟩ | ⟨hr, a, ha, h⟩ := ih (n + 1) m (by omega)
      · exact .inl ⟨m', hr, h.pass hn hp⟩
      · exact .inr ⟨hr, a, by omega, h⟩
    | true =>
      by_cases hfn : m.Freeable d n
      · rw [bind_of_ok (deallocPage_of_freeable hp hfn)]
        obtain ⟨m', hr, h⟩ | ⟨hr, a, ha, ha', hpa, hf⟩ := ih (n + 1) (m.drop d n) (by omega)
        · exact .inl ⟨m', hr, h.drop hn hp⟩
        · have hsame : (m.drop d n).pte d a = m.pte d a := by
            rw [Memory.pte_drop hp, update_of_ne (by omega)]
          refine .inr ⟨hr, a, by omega, ha', hsame ▸ hpa, fun h => hf ?_⟩
          rw [Memory.Freeable, hsame]
          exact h
      · refine .inr ⟨?_, n, le_rfl, hn, hp, hfn⟩
        change (deallocPage d n m).bind _ = _
        rw [deallocPage_of_not_freeable hp hfn]
        rfl

/-- `deallocuvm` does the same as the loop over all pages. It frees the pages that are present from
`PGROUNDUP(newsz)` on and below `oldsz`, each once, and clears their entries and no others, unless
there is one that `kfree` does not take. -/
theorem deallocuvm_frees (d : Nat) (oldsz newsz : UInt32) (m : Memory) (hlt : newsz < oldsz)
    (hk : oldsz ≤ KERNBASE) :
    deallocuvm d oldsz newsz m =
      (deallocPages d (pages oldsz) (pages newsz) >>= fun _ => pure (some newsz)) m ∧
    ((∃ m', deallocuvm d oldsz newsz m = .ok (some newsz, m') ∧
        Freed d (pages oldsz) (pages newsz) m m') ∨
      deallocuvm d oldsz newsz m = .error .kfree ∧
        ∃ a, pages newsz ≤ a ∧ a < pages oldsz ∧ (m.pte d a).p = true ∧ ¬ m.Freeable d a) := by
  rw [deallocuvm_eq hlt hk]
  refine ⟨rfl, ?_⟩
  obtain ⟨m', hr, h⟩ | ⟨hr, h⟩ := deallocPages_spec d (pages oldsz) (pages newsz) m
  · exact .inl ⟨m', bind_of_ok hr, h⟩
  · refine .inr ⟨?_, h⟩
    change (deallocPages d _ _ m).bind _ = _
    rw [hr]
    rfl

/-- No page table for the first 4 MB, and one page behind them. -/
def Memory.holed : Memory :=
  ⟨[], [], 1, fun _ i => if i = 1 then some ⟨5, update (fun _ => .zero) 0 ⟨true, true, true, 0, 7⟩⟩
    else none, fun _ _ => 0⟩

/-- Sizes that are no multiples of the page size, on both sides of the 4 MB. -/
theorem deallocuvm_frees_holed : ∃ m', deallocuvm 2 0x401001 0x3FE001 .holed =
    .ok (some 0x3FE001, m') ∧ m'.free = [7] ∧ m'.pte 2 1024 = .zero := by
  obtain ⟨-, ⟨m', hr, h⟩ | ⟨-, a, ha, ha', hp, hf⟩⟩ :=
    deallocuvm_frees 2 0x401001 0x3FE001 .holed (by decide) (by decide)
  · exact ⟨m', hr, h.free, h.inside 1024 (by decide) (by decide)⟩
  · change 1023 ≤ a at ha
    change a < 1026 at ha'
    interval_cases a
    · cases hp
    · exact absurd ⟨by decide, by decide⟩ hf
    · cases hp

end Xv6.Vm
