import Mathlib.Tactic.IntervalCases
import Xv6.Thread.Pages

/-! # `growproc` and the pages of a process

What `allocuvm` and `deallocuvm` do to the pages that are mapped, and `growproc` over them. Both
return the new size, and 0 for an error; `sz + n` is computed modulo `2 ^ 32`. A process that gives
back all its memory is told that the call has failed, and one that gives back more than it has is
told that it has not (`sbrk_all_or_nothing_iff`). -/

namespace Xv6.Thread

/-! ## Sizes in pages -/

/-- The number of pages of an address space of size `sz`. -/
def pages (sz : UInt32) : Nat := (sz.toNat + 4095) / 4096

theorem and_not_mask (x : BitVec 32) : x &&& ~~~(4095#32) = (x >>> 12) <<< 12 := by
  ext i hi
  simp only [BitVec.getElem_and, BitVec.getElem_not, BitVec.getElem_shiftLeft]
  interval_cases i <;> simp

theorem PGROUNDUP_toBitVec (sz : UInt32) :
    (PGROUNDUP sz).toBitVec = (sz.toBitVec + 4095#32) &&& ~~~(4095#32) := by
  have e : sz.toBitVec + 4096#32 - 1#32 = sz.toBitVec + 4095#32 := by bv_omega
  change (sz.toBitVec + 4096#32 - 1#32) &&& ~~~(4095#32) = _
  rw [e]

theorem PGROUNDUP_toNat (h : sz < KERNBASE) : (PGROUNDUP sz).toNat = 4096 * pages sz := by
  have h' : sz.toNat < 2147483648 := h
  change (PGROUNDUP sz).toBitVec.toNat = _
  rw [PGROUNDUP_toBitVec, and_not_mask]
  simp only [BitVec.toNat_shiftLeft, BitVec.toNat_ushiftRight, BitVec.toNat_add,
    BitVec.toNat_ofNat, UInt32.toNat_toBitVec, Nat.shiftLeft_eq, Nat.shiftRight_eq_div_pow, pages]
  omega

theorem PGSIZE_toNat : PGSIZE.toNat = 4096 := rfl

theorem PGROUNDUP_div (h : sz < KERNBASE) : (PGROUNDUP sz).toNat / PGSIZE.toNat = pages sz := by
  rw [PGROUNDUP_toNat h, PGSIZE_toNat, Nat.mul_div_cancel_left _ (by omega)]

theorem toUInt32_toNat (n : Int32) : (n.toUInt32.toNat : Int) = n.toInt % 4294967296 := by
  have hn := BitVec.toInt_eq_toNat_cond n.toUInt32.toBitVec
  have hlt := n.toUInt32.toNat_lt
  rw [UInt32.toNat_toBitVec] at hn
  change n.toInt = _ at hn
  rw [hn]
  split <;> omega

namespace Memory

variable {mem : Memory} {g : Pgdir} {a n r : Nat}

/-! ## What is mapped -/

/-- The pages from `lo` to `hi` of `g` are mapped after a step if `b`, and unmapped if not. No other
page is touched, and page tables are only added. -/
structure Ranged (g : Pgdir) (lo hi : Nat) (b : Bool) (mem mem' : Memory) : Prop where
  inside : ∀ a, lo ≤ a → a < hi → (mem'.user g a).isSome = b
  outside : ∀ g' a, ¬ (g' = g ∧ lo ≤ a ∧ a < hi) → mem'.user g' a = mem.user g' a
  tables : ∀ g' i, (mem.tables g' i).isSome → (mem'.tables g' i).isSome

/-- A page is mapped through a page table. -/
def Tabled (mem : Memory) : Prop :=
  ∀ g a, (mem.user g a).isSome → (mem.tables g (a / NPTENTRIES)).isSome

/-- The pages of `g` that are mapped are those of an address space of size `sz`. -/
def Maps (mem : Memory) (g : Pgdir) (sz : UInt32) : Prop :=
  ∀ a, (mem.user g a).isSome ↔ a * PGSIZE.toNat < (PGROUNDUP sz).toNat

theorem maps_iff (h : sz < KERNBASE) :
    mem.Maps g sz ↔ ∀ a, (mem.user g a).isSome ↔ a < pages sz := by
  unfold Maps
  rw [PGROUNDUP_toNat h, PGSIZE_toNat]
  refine forall_congr' fun a => ?_
  rw [Nat.mul_comm, Nat.mul_lt_mul_left (by omega)]

namespace Ranged

theorem refl (g : Pgdir) (lo : Nat) (b : Bool) (mem : Memory) : Ranged g lo lo b mem mem where
  inside _ h h' := absurd h' (by omega)
  outside _ _ _ := rfl
  tables _ _ h := h

/-- The pages of two ranges, one after the other. -/
theorem append (h : Ranged g lo mid b mem mem₁) (h' : Ranged g mid hi b mem₁ mem₂) (hlo : lo ≤ mid)
    (hhi : mid ≤ hi) : Ranged g lo hi b mem mem₂ where
  inside a ha ha' := by
    by_cases e : mid ≤ a
    · exact h'.inside a e ha'
    · rw [h'.outside g a (by omega)]
      exact h.inside a ha (by omega)
  outside g' a ha := by
    rw [h'.outside g' a fun e => ha ⟨e.1, by omega, by omega⟩,
      h.outside g' a fun e => ha ⟨e.1, by omega, by omega⟩]
  tables g' i hi := h'.tables g' i (h.tables g' i hi)

/-- The pages that are mapped before the step are the same in another memory. -/
theorem congr (h : Ranged g lo hi b mem₁ mem₂) (hu : mem₁.user = mem.user)
    (ht : mem₁.tables = mem.tables) : Ranged g lo hi b mem mem₂ :=
  ⟨h.inside, fun g' a ha => by rw [h.outside g' a ha, hu], fun g' i hi =>
    h.tables g' i (by rwa [ht])⟩

/-- Some pages are mapped and then a larger range is unmapped. -/
theorem undo (h : Ranged g lo hi true mem mem₁) (h' : Ranged g lo' hi' false mem₁ mem₂)
    (hlo : lo' ≤ lo) (hhi : hi ≤ hi') :
    Ranged g lo' hi' false mem mem₂ where
  inside := h'.inside
  outside g' a ha := by
    rw [h'.outside g' a ha, h.outside g' a fun e => ha ⟨e.1, by omega, by omega⟩]
  tables g' i hi := h'.tables g' i (h.tables g' i hi)

end Ranged

/-! ## `deallocuvm` -/

theorem deallocOne_ranged (h : mem.Tabled) :
    Ranged g a (a + 1) false mem (deallocOne g mem a) ∧ (deallocOne g mem a).Tabled := by
  unfold deallocOne
  split
  · next ht =>
    refine ⟨⟨fun b hb hb' => ?_, fun _ _ _ => rfl, fun _ _ hi => hi⟩, h⟩
    obtain rfl : b = a := by omega
    cases hu : mem.user g b with
    | none => rfl
    | some r =>
      have ht' := h g b (by rw [hu]; rfl)
      rw [Option.isNone_iff_eq_none] at ht
      rw [ht] at ht'
      cases ht'
  · cases hu : mem.user g a with
    | none =>
      refine ⟨⟨fun b hb hb' => ?_, fun _ _ _ => rfl, fun _ _ hi => hi⟩, h⟩
      obtain rfl : b = a := by omega
      simp [hu]
    | some r =>
      have hout : ∀ g' b, ¬ (g' = g ∧ b = a) → Function.update mem.user g
          (Function.update (mem.user g) a none) g' b = mem.user g' b := by
        intro g' b hb
        by_cases e : g' = g
        · subst e
          have hne : b ≠ a := fun e => hb ⟨rfl, e⟩
          simp [hne]
        · simp [Function.update_of_ne e]
      refine ⟨⟨fun b hb hb' => ?_, fun g' b hb => ?_, fun _ _ hi => hi⟩, fun g' b hb => ?_⟩
      · obtain rfl : b = a := by omega
        simp
      · exact hout g' b fun e => hb ⟨e.1, by omega, by omega⟩
      · by_cases e : g' = g ∧ b = a
        · obtain ⟨rfl, rfl⟩ := e
          simp at hb
        · exact h g' b (by rwa [← hout g' b e])

theorem deallocuvm_ranged (h : mem.Tabled) (hlo : lo ≤ hi) :
    Ranged g lo hi false mem (mem.deallocuvm g lo hi) ∧ (mem.deallocuvm g lo hi).Tabled := by
  obtain ⟨n, rfl⟩ : ∃ n, hi = lo + n := ⟨hi - lo, by omega⟩
  induction n with
  | zero =>
    simp only [deallocuvm, Nat.add_zero, Nat.sub_self, List.range'_zero, List.foldl_nil]
    exact ⟨.refl g lo false mem, h⟩
  | succ n ih =>
    have e : mem.deallocuvm g lo (lo + (n + 1)) =
        deallocOne g (mem.deallocuvm g lo (lo + n)) (lo + n) := by
      simp only [deallocuvm, Nat.add_sub_cancel_left, List.range'_concat, List.foldl_append,
        List.foldl_cons, List.foldl_nil, Nat.one_mul]
    obtain ⟨hr, ht⟩ := ih (by omega)
    obtain ⟨hr', ht'⟩ := deallocOne_ranged (g := g) (a := lo + n) ht
    rw [e]
    exact ⟨hr.append hr' (by omega) (by omega), ht'⟩

/-! ## `allocuvm` -/

theorem kalloc_eq (h : mem.kalloc = some (r, mem₁)) :
    mem₁.user = mem.user ∧ mem₁.tables = mem.tables := by
  unfold kalloc at h
  split at h
  · cases h
  · cases h
    exact ⟨rfl, rfl⟩

theorem walkpgdir_eq (h : mem.walkpgdir g a = some mem₁) : mem₁.user = mem.user ∧
    (mem₁.tables g (a / NPTENTRIES)).isSome ∧
    ∀ g' i, (mem.tables g' i).isSome → (mem₁.tables g' i).isSome := by
  unfold walkpgdir at h
  split at h
  · next ht =>
    cases h
    exact ⟨rfl, by simp [ht], fun _ _ hi => hi⟩
  · obtain ⟨⟨r, mem'⟩, hk, rfl⟩ := Option.map_eq_some_iff.mp h
    obtain ⟨hu, htab⟩ := kalloc_eq hk
    refine ⟨hu, by simp, fun g' i hi => ?_⟩
    rw [← htab] at hi
    by_cases e : g' = g
    · subst e
      by_cases ei : i = a / NPTENTRIES
      · simp [ei]
      · simpa [ei] using hi
    · simpa [Function.update_of_ne e] using hi

/-- `mappages` of a page that is not mapped maps it, or finds no page for a page table. -/
theorem mappages_ranged (hu : mem.user g a = none) : mem.mappages g a r = some (false, mem) ∨
    ∃ mem', mem.mappages g a r = some (true, mem') ∧ Ranged g a (a + 1) true mem mem' ∧
      (mem.Tabled → mem'.Tabled) := by
  unfold mappages
  cases hw : mem.walkpgdir g a with
  | none => exact .inl rfl
  | some mem₁ =>
    obtain ⟨hu₁, ht, htabs⟩ := walkpgdir_eq hw
    have hfree : ¬ (mem₁.user g a).isSome := by simp [hu₁, hu]
    refine .inr ⟨_, if_neg hfree, ⟨fun b hb hb' => ?_, fun g' b hb => ?_, htabs⟩,
      fun h g' b hb => ?_⟩
    · obtain rfl : b = a := by omega
      simp
    · by_cases e : g' = g
      · subst e
        have hne : b ≠ a := fun e => hb ⟨rfl, by omega, by omega⟩
        simp [hne, hu₁]
      · simp [Function.update_of_ne e, hu₁]
    · by_cases e : g' = g
      · subst e
        by_cases eb : b = a
        · exact eb ▸ ht
        · refine htabs g' _ (h g' b ?_)
          simpa [eb, hu₁] using hb
      · refine htabs g' _ (h g' b ?_)
        simpa [Function.update_of_ne e, hu₁] using hb

/-- The loop of `allocuvm` has mapped the pages up to `a` and goes on over unmapped ones: it maps
them all, or unmaps what it has mapped. -/
theorem allocLoop_ranged : ∀ (n a : Nat) (mem₁ : Memory), Ranged g lo a true mem mem₁ →
    mem₁.Tabled → lo ≤ a → (∀ b, lo ≤ b → b < a + n → mem.user g b = none) →
    ∃ ok mem', allocLoop g lo n a mem₁ = some (ok, mem') ∧ Ranged g lo (a + n) ok mem mem' ∧
      mem'.Tabled := by
  intro n
  induction n with
  | zero =>
    intro a mem₁ h ht _ _
    exact ⟨true, mem₁, rfl, h, ht⟩
  | succ n ih =>
    intro a mem₁ h ht hlo hfree
    rw [allocLoop]
    cases hk : mem₁.kalloc with
    | none =>
      obtain ⟨hr, ht'⟩ : Ranged g lo (a + n + 1) false mem₁ _ ∧ _ :=
        deallocuvm_ranged ht (by omega)
      exact ⟨false, _, rfl, h.undo hr le_rfl (by omega), ht'⟩
    | some x =>
      obtain ⟨r, mem₂⟩ := x
      obtain ⟨hu, htab⟩ := kalloc_eq hk
      have h₂ : Ranged g lo a true mem mem₂ :=
        ⟨by rw [hu]; exact h.inside, by rw [hu]; exact h.outside, by rw [htab]; exact h.tables⟩
      have ht₂ : mem₂.Tabled := by
        unfold Tabled
        rw [hu, htab]
        exact ht
      have hnone : mem₂.user g a = none := by
        rw [h₂.outside g a (by omega)]
        exact hfree a hlo (by omega)
      rcases mappages_ranged (r := r) hnone with e | ⟨mem₃, e, hr, hw⟩
      · simp only [e]
        obtain ⟨hd, ht'⟩ : Ranged g lo (a + n + 1) false mem₂ _ ∧ _ :=
          deallocuvm_ranged ht₂ (by omega)
        refine ⟨false, _, rfl, ?_, ht'⟩
        have hun := h₂.undo hd le_rfl (by omega)
        exact ⟨hun.inside, hun.outside, hun.tables⟩
      · simp only [e]
        obtain ⟨ok, mem', he, hr', ht'⟩ := ih (a + 1) mem₃ (h₂.append hr hlo (by omega)) (hw ht₂)
          (by omega) fun b hb hb' => hfree b hb (by omega)
        refine ⟨ok, mem', he, ?_, ht'⟩
        rwa [show a + (n + 1) = a + 1 + n by omega]

theorem user_of_mappages (h : mem.mappages g a r = some (true, mem₁)) : mem.user g a = none := by
  unfold mappages at h
  cases hw : mem.walkpgdir g a with
  | none => simp [hw] at h
  | some mem₂ =>
    rw [← (walkpgdir_eq hw).1, ← Option.not_isSome_iff_eq_none]
    intro hs
    simp [hw, hs] at h

/-- The loop of `allocuvm` succeeds only over pages that are not mapped. -/
theorem allocLoop_ok : ∀ (n a : Nat) (mem : Memory),
    allocLoop g lo n a mem = some (true, mem') →
    (∀ b, a ≤ b → b < a + n → mem.user g b = none) ∧ Ranged g a (a + n) true mem mem' := by
  intro n
  induction n with
  | zero =>
    intro a mem h
    cases h
    exact ⟨fun b hb hb' => absurd hb' (by omega), .refl g a true _⟩
  | succ n ih =>
    intro a mem h
    rw [allocLoop] at h
    cases hk : mem.kalloc with
    | none => simp [hk] at h
    | some x =>
      obtain ⟨r, mem₁⟩ := x
      obtain ⟨hu, htab⟩ := kalloc_eq hk
      simp only [hk] at h
      cases hm : mem₁.mappages g a r with
      | none => simp [hm] at h
      | some y =>
        obtain ⟨ok, mem₂⟩ := y
        cases ok with
        | false => simp [hm] at h
        | true =>
          simp only [hm] at h
          have hnone := user_of_mappages hm
          rcases mappages_ranged (r := r) hnone with e | ⟨mem₃, e, hr, -⟩
          · rw [hm] at e
            cases e
          · rw [hm] at e
            cases e
            obtain ⟨hfree, hr'⟩ := ih (a + 1) mem₂ h
            rw [show a + (n + 1) = a + 1 + n by omega]
            refine ⟨fun b hb hb' => ?_, ?_⟩
            · rw [← hu]
              by_cases e : b = a
              · exact e ▸ hnone
              · rw [← hr.outside g b (by omega)]
                exact hfree b (by omega) hb'
            · exact (hr.append hr' (by omega) (by omega)).congr hu htab

/-- `allocuvm` from an address space of size `oldsz` to a size that is not smaller: it maps the
pages between, or leaves all pages as they were. -/
theorem allocuvm_spec (ht : mem.Tabled) (hm : mem.Maps g oldsz) (hk : newsz < KERNBASE)
    (hle : oldsz ≤ newsz) : ∃ ok mem', mem.allocuvm g oldsz newsz =
      some (if ok then newsz else 0, mem') ∧
      Ranged g (pages oldsz) (pages newsz) ok mem mem' ∧ mem'.Tabled := by
  have hk' : oldsz < KERNBASE := UInt32.lt_of_le_of_lt hle hk
  have hpages : pages oldsz ≤ pages newsz := by
    have hle' : oldsz.toNat ≤ newsz.toNat := hle
    unfold pages
    omega
  rw [maps_iff hk'] at hm
  obtain ⟨ok, mem', he, hr, ht'⟩ := allocLoop_ranged (pages newsz - pages oldsz) (pages oldsz) mem
    (.refl g _ true mem) ht le_rfl fun b hb _ => by
      rw [← Option.not_isSome_iff_eq_none, hm b]
      omega
  rw [Nat.add_sub_cancel' hpages] at hr
  refine ⟨ok, mem', ?_, hr, ht'⟩
  rw [allocuvm, if_neg (UInt32.not_le.mpr hk), if_neg (UInt32.not_lt.mpr hle), PGROUNDUP_div hk,
    PGROUNDUP_div hk']
  simp only [he, Option.map_some]

/-- `deallocuvm`: the pages that it visits are those from `PGROUNDUP(newsz)` to `oldsz`. -/
def deallocuvmTo (mem : Memory) (g : Pgdir) (oldsz newsz : UInt32) : UInt32 × Memory :=
  if newsz ≥ oldsz then (oldsz, mem)
  else (newsz, mem.deallocuvm g ((PGROUNDUP newsz).toNat / PGSIZE.toNat) (pages oldsz))

theorem deallocuvmTo_spec (ht : mem.Tabled) (hk : oldsz < KERNBASE) (hlt : newsz < oldsz) :
    ∃ mem', mem.deallocuvmTo g oldsz newsz = (newsz, mem') ∧
      Ranged g (pages newsz) (pages oldsz) false mem mem' ∧ mem'.Tabled := by
  have hlt' : newsz.toNat < oldsz.toNat := hlt
  have hpages : pages newsz ≤ pages oldsz := by
    unfold pages
    omega
  rw [deallocuvmTo, if_neg (UInt32.not_le.mpr hlt), PGROUNDUP_div (UInt32.lt_trans hlt hk)]
  exact ⟨_, rfl, deallocuvm_ranged ht hpages⟩

/-- Unmapping what is not mapped changes nothing. -/
theorem Ranged.same (hk : sz < KERNBASE) (hm : mem.Maps g sz)
    (h : Ranged g (pages sz) hi false mem mem₁) (a : Nat) :
    (mem₁.user g a).isSome = (mem.user g a).isSome := by
  by_cases ha : pages sz ≤ a ∧ a < hi
  · have hn : ¬ (mem.user g a).isSome := by
      rw [(maps_iff hk).mp hm a]
      omega
    rw [h.inside a ha.1 ha.2, Bool.eq_false_of_not_eq_true hn]
  · rw [h.outside g a fun e => ha e.2]

/-- Mapping the pages above the address space makes a larger one. -/
theorem Ranged.maps_grown (hk : sz' < KERNBASE) (hle : sz ≤ sz') (hm : mem.Maps g sz)
    (h : Ranged g (pages sz) (pages sz') true mem mem₁) : mem₁.Maps g sz' := by
  have hle' : sz.toNat ≤ sz'.toNat := hle
  have hpages : pages sz ≤ pages sz' := by
    unfold pages
    omega
  rw [maps_iff (UInt32.lt_of_le_of_lt hle hk)] at hm
  rw [maps_iff hk]
  intro a
  by_cases ha : pages sz ≤ a ∧ a < pages sz'
  · simp [h.inside a ha.1 ha.2, ha.2]
  · rw [h.outside g a fun e => ha e.2, hm a]
    omega

/-- Unmapping the last pages of the address space makes a smaller one. -/
theorem Ranged.maps_shrunk (hk : sz < KERNBASE) (hlt : sz' < sz) (hm : mem.Maps g sz)
    (h : Ranged g (pages sz') (pages sz) false mem mem₁) : mem₁.Maps g sz' := by
  rw [maps_iff hk] at hm
  rw [maps_iff (UInt32.lt_trans hlt hk)]
  have hlt' : sz'.toNat < sz.toNat := hlt
  have hpages : pages sz' ≤ pages sz := by
    unfold pages
    omega
  intro a
  by_cases ha : pages sz' ≤ a ∧ a < pages sz
  · simp [h.inside a ha.1 ha.2, ha.1]
  · rw [h.outside g a fun e => ha e.2, hm a]
    omega

end Memory

/-! ## `growproc` -/

namespace Paged

/-- The size that `growproc` computes for the main thread and the memory then; `none` is a panic or
an access through a page directory that is 0. -/
def grownSize (s : Paged) (main : Slot) (n : Int32) : Option (UInt32 × Memory) :=
  let sz := (s.tab.proc main).sz
  if n > 0 then
    (s.tab.proc main).pgdir.bind fun pgdir => s.mem.allocuvm pgdir sz (sz + n.toUInt32)
  else if n < 0 then
    (s.tab.proc main).pgdir.map fun pgdir => s.mem.deallocuvmTo pgdir sz (sz + n.toUInt32)
  else some (sz, s.mem)

def growproc (s : Paged) (curproc : Slot) (n : Int32) : Option (Int × Paged) :=
  let main := if (s.tab.proc curproc).tid = 0 then some curproc else (s.tab.proc curproc).main
  main.bind fun main =>
    (s.grownSize main n).map fun (sz, mem) =>
      if n ≠ 0 ∧ sz = 0 then (-1, ⟨s.tab, mem⟩)
      else (0, ⟨s.tab.setProc main { s.tab.proc main with sz := sz }, mem⟩)

variable {s s' : Paged} {p m : Slot} {g : Pgdir} {n : Int32} {r : Int}

/-- The outcome of the loop of `allocuvm` is an argument of the operation on sizes. -/
theorem allocuvm_size {mem mem' : Memory} {oldsz newsz sz : UInt32}
    (h : mem.allocuvm g oldsz newsz = some (sz, mem')) :
    ∃ kalloc, Thread.allocuvm oldsz newsz kalloc = sz := by
  unfold Memory.allocuvm at h
  split at h
  · next hb =>
    cases h
    exact ⟨true, by rw [Thread.allocuvm, if_pos hb]⟩
  next hb =>
  split at h
  · next hl =>
    cases h
    exact ⟨true, by rw [Thread.allocuvm, if_neg hb, if_pos hl]⟩
  next hl =>
  obtain ⟨⟨ok, mem₁⟩, hloop, he⟩ := Option.map_eq_some_iff.mp h
  simp only [Prod.mk.injEq] at he
  refine ⟨ok, ?_⟩
  rw [Thread.allocuvm, if_neg hb, if_neg hl, ← he.1]
  cases ok with
  | true => simp
  | false =>
    -- the loop has failed, so it has been entered
    refine if_pos ⟨?_, rfl⟩
    rw [ge_iff_le, UInt32.not_le] at hb
    rw [UInt32.not_lt] at hl
    have hk := UInt32.lt_of_le_of_lt hl hb
    rw [PGROUNDUP_div hk, PGROUNDUP_div hb] at hloop
    have hne : pages newsz - pages oldsz ≠ 0 := by
      intro hz
      rw [hz] at hloop
      cases hloop
    rw [UInt32.lt_iff_toNat_lt, PGROUNDUP_toNat hk]
    unfold pages at hne ⊢
    omega

/-- `growproc` on the table alone. -/
theorem growproc_tab (h : s.growproc p n = some (r, s')) :
    ∃ kalloc, Thread.growproc s.tab p n kalloc = some (r, s'.tab) := by
  obtain ⟨m, hm, h⟩ := Option.bind_eq_some_iff.mp h
  obtain ⟨⟨sz, mem⟩, hs, h⟩ := Option.map_eq_some_iff.mp h
  have hsize : ∃ kalloc, Thread.grownSize (s.tab.proc m).sz n kalloc =
      if n ≠ 0 ∧ sz = 0 then none else some sz := by
    unfold grownSize at hs
    unfold Thread.grownSize
    split at hs
    · next hn =>
      obtain ⟨g, -, ha⟩ := Option.bind_eq_some_iff.mp hs
      obtain ⟨kalloc, e⟩ := allocuvm_size ha
      have hne : n ≠ 0 := by
        rintro rfl
        exact absurd hn (by decide)
      exact ⟨kalloc, by simp only [if_pos hn, e, hne, ne_eq, not_false_eq_true, true_and]⟩
    · next hn =>
      split at hs
      · next hn' =>
        obtain ⟨g, -, ha⟩ := Option.map_eq_some_iff.mp hs
        have hne : n ≠ 0 := by
          rintro rfl
          exact absurd hn' (by decide)
        have e : Thread.deallocuvm (s.tab.proc m).sz ((s.tab.proc m).sz + n.toUInt32) = sz := by
          unfold Memory.deallocuvmTo at ha
          unfold Thread.deallocuvm
          split at ha <;> simp_all
        refine ⟨true, ?_⟩
        simp only [if_neg hn, if_pos hn', e, hne, ne_eq, not_false_eq_true, true_and]
      · next hn' =>
        cases hs
        have hz : n = 0 := by
          rw [gt_iff_lt, Int32.lt_iff_toInt_lt] at hn
          rw [Int32.lt_iff_toInt_lt] at hn'
          exact Int32.toInt_inj.mp (le_antisymm (not_lt.mp hn) (not_lt.mp hn'))
        exact ⟨true, by simp [hz]⟩
  obtain ⟨kalloc, hsize⟩ := hsize
  refine ⟨kalloc, ?_⟩
  simp only [Thread.growproc, hm, Option.map_some, hsize]
  by_cases hc : n ≠ 0 ∧ sz = 0
  · simp only [if_pos hc] at h ⊢
    cases h
    rfl
  · simp only [if_neg hc] at h ⊢
    cases h
    rfl

/-- What `sbrk` promises: a call that returns -1 has changed neither the size `sz` of the main
thread `m` nor the mapped pages, and one that returns 0 has changed both by `n`. -/
structure AllOrNothing (s s' : Paged) (m : Slot) (g : Pgdir) (n : Int32) (r : Int) : Prop where
  failed : r = -1 → (s'.tab.proc m).sz = (s.tab.proc m).sz ∧
    ∀ a, (s'.mem.user g a).isSome = (s.mem.user g a).isSome
  done : r = 0 → ((s'.tab.proc m).sz.toNat : Int) = (s.tab.proc m).sz.toNat + n.toInt ∧
    s'.mem.Maps g (s'.tab.proc m).sz

section Sbrk
variable (hp : (if (s.tab.proc p).tid = 0 then some p else (s.tab.proc p).main) = some m)

include hp

theorem growproc_eq {sz : UInt32} {mem : Memory} (h : s.grownSize m n = some (sz, mem)) :
    s.growproc p n = some (if n ≠ 0 ∧ sz = 0 then (-1, ⟨s.tab, mem⟩)
      else (0, ⟨s.tab.setProc m { s.tab.proc m with sz := sz }, mem⟩)) := by
  simp only [growproc, hp, h, Option.bind_some, Option.map_some]

theorem growproc_failed {mem : Memory} (hn : n ≠ 0) (h : s.grownSize m n = some (0, mem)) :
    s.growproc p n = some (-1, ⟨s.tab, mem⟩) := by
  rw [growproc_eq hp h, if_pos ⟨hn, rfl⟩]

theorem growproc_done {sz : UInt32} {mem : Memory} (h : s.grownSize m n = some (sz, mem))
    (hsz : n = 0 ∨ sz ≠ 0) : s.growproc p n =
      some (0, ⟨s.tab.setProc m { s.tab.proc m with sz := sz }, mem⟩) := by
  rw [growproc_eq hp h, if_neg]
  rintro ⟨hn, hz⟩
  exact hsz.elim hn fun h => h hz

end Sbrk

theorem ne_zero_of_neg (hn : n.toInt < 0) : n ≠ 0 := by
  rintro rfl
  exact absurd hn (by decide)

theorem grownSize_neg (hg : (s.tab.proc m).pgdir = some g) (hn : n.toInt < 0) :
    s.grownSize m n = some
      (s.mem.deallocuvmTo g (s.tab.proc m).sz ((s.tab.proc m).sz + n.toUInt32)) := by
  have hneg : n < 0 := Int32.lt_iff_toInt_lt.mpr hn
  have hpos : ¬ n > 0 := by
    rw [gt_iff_lt, Int32.lt_iff_toInt_lt]
    exact not_lt.mpr hn.le
  simp only [grownSize, if_neg hpos, if_pos hneg, hg, Option.map_some]

theorem AllOrNothing.of_failed {mem : Memory}
    (h : ∀ a, (mem.user g a).isSome = (s.mem.user g a).isSome) :
    AllOrNothing s ⟨s.tab, mem⟩ m g n (-1) :=
  ⟨fun _ => ⟨rfl, h⟩, nofun⟩

theorem AllOrNothing.of_done {sz : UInt32} {mem : Memory}
    (hsz : (sz.toNat : Int) = (s.tab.proc m).sz.toNat + n.toInt) (h : mem.Maps g sz) :
    AllOrNothing s ⟨s.tab.setProc m { s.tab.proc m with sz := sz }, mem⟩ m g n 0 := by
  refine ⟨nofun, fun _ => ?_⟩
  simp only [Ptable.setProc_proc_self]
  exact ⟨hsz, h⟩

/-! The calls of a thread whose main thread is `m`, with the page directory `g`. -/

section Cases
variable (hp : (if (s.tab.proc p).tid = 0 then some p else (s.tab.proc p).main) = some m)
  (hg : (s.tab.proc m).pgdir = some g)

include hp hg

/-- The size is computed modulo `2 ^ 32`: giving back more than there is gives back nothing. -/
theorem growproc_wraps (hn : n.toInt < 0) (hgt : (s.tab.proc m).sz.toNat < -n.toInt) :
    ∃ r s', s.growproc p n = some (r, s') ∧
      (AllOrNothing s s' m g n r ↔ (s.tab.proc m).sz = 0) := by
  have hs : s.grownSize m n = some ((s.tab.proc m).sz, s.mem) := by
    rw [grownSize_neg hg hn, Memory.deallocuvmTo, if_pos]
    rw [ge_iff_le, UInt32.le_iff_toNat_le, UInt32.toNat_add]
    have hu := toUInt32_toNat n
    have hn' := n.le_toInt
    omega
  have hne : n ≠ 0 := ne_zero_of_neg hn
  by_cases hz : (s.tab.proc m).sz = 0
  · have hs' : s.grownSize m n = some (0, s.mem) := by rw [hs, hz]
    exact ⟨_, _, growproc_failed hp hne hs', fun _ => hz, fun _ => .of_failed fun _ => rfl⟩
  · refine ⟨_, _, growproc_done hp hs (.inr hz), fun h => ?_, fun h => absurd h hz⟩
    have hd := (h.done rfl).1
    simp only [Ptable.setProc_proc_self] at hd
    omega

variable (hk : (s.tab.proc m).sz < KERNBASE) (ht : s.mem.Tabled)
  (hm : s.mem.Maps g (s.tab.proc m).sz)

include hk ht hm

theorem growproc_pos (hn : 0 < n.toInt) :
    ∃ r s', s.growproc p n = some (r, s') ∧ AllOrNothing s s' m g n r := by
  have hpos : n > 0 := Int32.lt_iff_toInt_lt.mpr hn
  have hne : n ≠ 0 := by
    rintro rfl
    exact absurd hn (by decide)
  have hlt : (s.tab.proc m).sz.toNat < 2147483648 := hk
  have hsz : (((s.tab.proc m).sz + n.toUInt32).toNat : Int) =
      (s.tab.proc m).sz.toNat + n.toInt := by
    have hu := toUInt32_toNat n
    have hn' := n.toInt_lt
    rw [UInt32.toNat_add]
    omega
  by_cases hb : (s.tab.proc m).sz + n.toUInt32 ≥ KERNBASE
  · have hs : s.grownSize m n = some (0, s.mem) := by
      simp only [grownSize, if_pos hpos, hg, Option.bind_some, Memory.allocuvm, if_pos hb]
    exact ⟨_, _, growproc_failed hp hne hs, .of_failed fun _ => rfl⟩
  · rw [ge_iff_le, UInt32.not_le] at hb
    have hle : (s.tab.proc m).sz ≤ (s.tab.proc m).sz + n.toUInt32 := by
      rw [UInt32.le_iff_toNat_le]
      omega
    obtain ⟨ok, mem', ha, hr, -⟩ := Memory.allocuvm_spec ht hm hb hle
    have hs : s.grownSize m n =
        some (if ok then (s.tab.proc m).sz + n.toUInt32 else 0, mem') := by
      simp only [grownSize, if_pos hpos, hg, Option.bind_some, ha]
    cases ok with
    | false => exact ⟨_, _, growproc_failed hp hne hs, .of_failed (hr.same hk hm)⟩
    | true =>
      refine ⟨_, _, growproc_done hp hs (.inr ?_), .of_done hsz (hr.maps_grown hb hle hm)⟩
      intro hz
      rw [if_pos rfl] at hz
      rw [hz] at hsz
      simp at hsz
      omega

/-- The new size 0 is taken for an error after the pages have gone. -/
theorem growproc_all (hn : n.toInt < 0) (he : -n.toInt = (s.tab.proc m).sz.toNat) :
    ∃ s', s.growproc p n = some (-1, s') ∧ ¬ AllOrNothing s s' m g n (-1) := by
  have hz : (s.tab.proc m).sz + n.toUInt32 = 0 := by
    rw [← UInt32.toNat_inj, UInt32.toNat_add]
    have hu := toUInt32_toNat n
    have hlt := (s.tab.proc m).sz.toNat_lt
    simp only [UInt32.toNat_zero]
    omega
  have hpos : (0 : UInt32) < (s.tab.proc m).sz := by
    rw [UInt32.lt_iff_toNat_lt, UInt32.toNat_zero]
    omega
  obtain ⟨mem', hd, hr, -⟩ := Memory.deallocuvmTo_spec (g := g) ht hk hpos
  have hs : s.grownSize m n = some (0, mem') := by
    rw [grownSize_neg hg hn, hz, hd]
  refine ⟨_, growproc_failed hp (ne_zero_of_neg hn) hs, fun h => ?_⟩
  have hpages : 0 < pages (s.tab.proc m).sz := by
    unfold pages
    omega
  have hzero := (h.failed rfl).2 0
  rw [hr.inside 0 (by decide) hpages, ((Memory.maps_iff hk).mp hm 0).mpr hpages] at hzero
  cases hzero

theorem growproc_less (hn : n.toInt < 0) (hlt : -n.toInt < (s.tab.proc m).sz.toNat) :
    ∃ s', s.growproc p n = some (0, s') ∧ AllOrNothing s s' m g n 0 := by
  have hsz : (((s.tab.proc m).sz + n.toUInt32).toNat : Int) =
      (s.tab.proc m).sz.toNat + n.toInt := by
    have hu := toUInt32_toNat n
    have hlt := (s.tab.proc m).sz.toNat_lt
    rw [UInt32.toNat_add]
    omega
  have hless : (s.tab.proc m).sz + n.toUInt32 < (s.tab.proc m).sz := by
    rw [UInt32.lt_iff_toNat_lt]
    omega
  obtain ⟨mem', hd, hr, -⟩ := Memory.deallocuvmTo_spec (g := g) ht hk hless
  have hs : s.grownSize m n = some ((s.tab.proc m).sz + n.toUInt32, mem') := by
    rw [grownSize_neg hg hn, hd]
  refine ⟨_, growproc_done hp hs (.inr ?_), .of_done hsz (hr.maps_shrunk hk hless hm)⟩
  intro hz
  rw [hz, UInt32.toNat_zero] at hsz
  omega

/-- `sbrk` is all or nothing just in case the process does not give back all its memory or more, or
has none. -/
theorem sbrk_all_or_nothing_iff : ∃ r s', s.growproc p n = some (r, s') ∧
    (AllOrNothing s s' m g n r ↔
      0 ≤ n.toInt ∨ (s.tab.proc m).sz = 0 ∨ -n.toInt < (s.tab.proc m).sz.toNat) := by
  rcases lt_trichotomy n.toInt 0 with hn | hn | hn
  · have hz : (s.tab.proc m).sz = 0 ↔ (s.tab.proc m).sz.toNat = 0 := by
      rw [← UInt32.toNat_inj, UInt32.toNat_zero]
    rcases lt_trichotomy (-n.toInt) (s.tab.proc m).sz.toNat with h | h | h
    · obtain ⟨s', hs, ha⟩ := growproc_less hp hg hk ht hm hn h
      exact ⟨_, s', hs, fun _ => .inr (.inr h), fun _ => ha⟩
    · obtain ⟨s', hs, ha⟩ := growproc_all hp hg hk ht hm hn h
      refine ⟨_, s', hs, fun h => absurd h ha, fun hc => ?_⟩
      rw [hz] at hc
      omega
    · obtain ⟨r, s', hs, ha⟩ := growproc_wraps hp hg hn h
      refine ⟨r, s', hs, fun h => .inr (.inl (ha.mp h)), fun hc => ha.mpr ?_⟩
      rcases hc with hc | hc | hc
      · omega
      · exact hc
      · omega
  · have hz : n = 0 := Int32.toInt_inj.mp (hn.trans Int32.toInt_zero.symm)
    have hs : s.grownSize m n = some ((s.tab.proc m).sz, s.mem) := by
      rw [hz]
      rfl
    refine ⟨_, _, growproc_done hp hs (.inl hz), fun _ => .inl hn.ge, fun _ => .of_done ?_ hm⟩
    omega
  · obtain ⟨r, s', hs, ha⟩ := growproc_pos hp hg hk ht hm hn
    exact ⟨r, s', hs, fun _ => .inl hn.le, fun _ => ha⟩

end Cases

/-- Memory with some free pages, where the first `k` pages of every page directory are mapped. -/
def filled (k : Nat) (free : List Nat) : Memory where
  free := free
  kstack _ := none
  user _ a := if a < k then some a else none
  tables _ _ := some 0

theorem filled_tabled (k : Nat) (free : List Nat) : (filled k free).Tabled := fun _ _ _ => rfl

theorem filled_maps (h : sz < KERNBASE) (hk : pages sz = k) : (filled k free).Maps g sz := by
  rw [Memory.maps_iff h]
  intro a
  rw [hk]
  simp only [filled]
  split <;> simp_all

/-- init grows by a page. -/
theorem sbrk_all_or_nothing_init : ∃ t r s', calls.Reached t ∧ (t.proc 0).state = .RUNNING ∧
    growproc ⟨t, filled 1 [7, 8]⟩ 0 4096 = some (r, s') ∧
    AllOrNothing ⟨t, filled 1 [7, 8]⟩ s' 0 0 4096 r := by
  obtain ⟨t, hr, h⟩ := calls.exists_reached_of_run [.dispatch 0]
    (fun t => decide ((t.proc 0).state = .RUNNING ∧ (t.proc 0).tid = 0 ∧
      (t.proc 0).pgdir = some 0 ∧ (t.proc 0).sz = 4096)) calls_init (by decide +kernel)
  obtain ⟨hrun, htid, hg, hsz⟩ := of_decide_eq_true h
  have hk : (t.proc 0).sz < KERNBASE := by
    rw [hsz]
    decide
  have hm : (filled 1 [7, 8]).Maps 0 (t.proc 0).sz := by
    refine filled_maps hk ?_
    rw [hsz]
    rfl
  obtain ⟨r, s', hs, ha⟩ := sbrk_all_or_nothing_iff (s := ⟨t, filled 1 [7, 8]⟩) (p := 0) (n := 4096)
    (if_pos htid) hg hk (filled_tabled _ _) hm
  exact ⟨t, r, s', hr, hrun, hs, ha.mpr (.inl (by decide))⟩

theorem growproc_tab_init : ∃ (t : Ptable) (r : Int) (s' : Paged),
    growproc ⟨t, filled 1 [7]⟩ 0 8192 = some (r, s') ∧
    ∃ kalloc, Thread.growproc t 0 8192 kalloc = some (r, s'.tab) := by
  obtain ⟨t, -, h⟩ := calls.exists_reached_of_run [.dispatch 0]
    (fun t => (growproc ⟨t, filled 1 [7]⟩ 0 8192).isSome) calls_init (by decide +kernel)
  obtain ⟨⟨r, s'⟩, hs⟩ := Option.isSome_iff_exists.mp h
  have htab := growproc_tab hs
  exact ⟨t, r, s', hs, htab⟩

/-- init has one page. It gives back the page, and is told that the call has failed; it gives back
two pages, and is told that it has not. -/
theorem sbrk_not_all_or_nothing : ∃ t, calls.Reached t ∧ (t.proc 0).state = .RUNNING ∧
    (t.proc 0).sz = 4096 ∧ (filled 1 []).Maps 0 4096 ∧
    (∃ s', growproc ⟨t, filled 1 []⟩ 0 (-4096) = some (-1, s') ∧ s'.mem.user 0 0 = none) ∧
    ∃ s', growproc ⟨t, filled 1 []⟩ 0 (-8192) = some (0, s') ∧ (s'.tab.proc 0).sz = 4096 := by
  obtain ⟨t, hr, h⟩ := calls.exists_reached_of_run [.dispatch 0]
    (fun t => decide ((t.proc 0).state = .RUNNING ∧ (t.proc 0).sz = 4096) &&
      (growproc ⟨t, filled 1 []⟩ 0 (-4096)).any (fun x => x.1 = -1 ∧ x.2.mem.user 0 0 = none) &&
      (growproc ⟨t, filled 1 []⟩ 0 (-8192)).any (fun x => x.1 = 0 ∧ (x.2.tab.proc 0).sz = 4096))
    calls_init (by decide +kernel)
  simp only [Bool.and_eq_true, decide_eq_true_eq, Option.any_eq_true] at h
  obtain ⟨⟨⟨hrun, hsz⟩, ⟨r, s⟩, hs, rfl, hu⟩, ⟨r', s'⟩, hs', rfl, hsz'⟩ := h
  exact ⟨t, hr, hrun, hsz, filled_maps (by decide) rfl, ⟨s, hs, hu⟩, s', hs', hsz'⟩

end Paged

end Xv6.Thread
