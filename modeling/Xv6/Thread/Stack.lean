import Xv6.Thread.Grow

/-! # The stacks of threads

`thread_create` takes two pages for the stack of the new thread at the end of the address space and
makes the first one inaccessible. `allocuvm` maps the pages from `PGROUNDUP(main->sz)` on, while the
page that loses `PTE_U` and the stack pointer are computed from `main->sz` itself. -/

namespace Xv6.Thread

open Function

/-- The table and the memory, with the user bits of the pages and the stacks of the threads. -/
structure Stacked extends Paged where
  /-- `PTE_U` of a page that is mapped. -/
  ubit : Pgdir → Nat → Bool
  sbase : Slot → UInt32
  /-- `tf->esp` of a new thread. -/
  esp : Slot → UInt32

namespace Stacked

/-- The user bits after pages have been mapped with `PTE_W|PTE_U`. -/
def mapped (mem mem' : Memory) (ubit : Pgdir → Nat → Bool) (g : Pgdir) (a : Nat) : Bool :=
  (mem.user g a).isNone && (mem'.user g a).isSome || ubit g a

/-- `clearpteu` of the page number `a`, `none` for its panic. -/
def clearpteu (mem : Memory) (ubit : Pgdir → Nat → Bool) (g : Pgdir) (a : Nat) :
    Option (Pgdir → Nat → Bool) :=
  if (mem.tables g (a / Memory.NPTENTRIES)).isSome then
    some (update ubit g (update (ubit g) a false))
  else none

/-- Whether `copyout` of `len` bytes to `va` finds all its pages with `uva2ka`. -/
def copyout (mem : Memory) (ubit : Pgdir → Nat → Bool) (g : Pgdir) (va len : Nat) : Bool :=
  (List.range' (va / 4096) ((va + len - 1) / 4096 + 1 - va / 4096)).all fun a =>
    (mem.user g a).isSome && ubit g a

/-- `thread_create`, `none` for a panic or an access through a page directory that is 0. -/
def threadCreate (s : Stacked) (curproc : Slot) : Option (Int × Stacked) :=
  let main := mainOf s.tab curproc
  match s.allocproc with
  | (none, s') => some (-1, { s with toPaged := s' })
  | (some np, s') =>
    (s'.tab.proc main).pgdir.bind fun pgdir =>
      let sbase := (s'.tab.proc main).sz
      (s'.mem.allocuvm pgdir sbase (sbase + 2 * PGSIZE)).bind fun (sz, mem) =>
        let r := threadInit s'.tab main np (sz ≠ 0)
        let ubit := mapped s'.mem mem s.ubit
        if sz = 0 then some (r.ret, ⟨⟨r.tab, mem⟩, ubit, s.sbase, s.esp⟩)
        else
          (clearpteu mem ubit pgdir ((sz - 2 * PGSIZE).toNat / 4096)).bind fun ubit =>
            let sp := sz - 8
            if copyout mem ubit pgdir sp.toNat 8 then
              some (r.ret, ⟨⟨r.tab, mem⟩, ubit, update s.sbase np sbase,
                update s.esp np sp⟩)
            else none

variable {s s' : Stacked} {p q m np : Slot} {g : Pgdir} {r : Int}

/-! ## Fresh stacks -/

/-- A page that the process may use. -/
def Accessible (s : Stacked) (g : Pgdir) (a : Nat) : Prop :=
  (s.mem.user g a).isSome ∧ s.ubit g a = true

/-- A live thread of the process of `m`, other than its main thread. -/
def Subthread (s : Stacked) (m q : Slot) : Prop :=
  Live (s.tab.proc q).state ∧ (s.tab.proc q).main = some m

instance : Decidable (s.Subthread m q) := inferInstanceAs (Decidable (_ ∧ _))

/-- The stacks at `x` and `y`, each of two pages, do not meet. -/
def Clear (x y : UInt32) : Prop := x.toNat + 8192 ≤ y.toNat ∨ y.toNat + 8192 ≤ x.toNat

instance (x y : UInt32) : Decidable (Clear x y) := inferInstanceAs (Decidable (_ ∨ _))

theorem Clear.symm (h : Clear x y) : Clear y x := Or.symm h

/-- The stacks of the live threads of a process are pairwise disjoint. -/
def Disjoint (s : Stacked) (m : Slot) : Prop :=
  ∀ q r, q ≠ r → s.Subthread m q → s.Subthread m r → Clear (s.sbase q) (s.sbase r)

/-- The new thread `np` has a stack of its own: its stack pointer is in a page that the call has
mapped, above one that the call has mapped and made inaccessible; the pages that were accessible
still are; and the stacks of the process are disjoint. -/
structure FreshStack (s s' : Stacked) (m np : Slot) (g : Pgdir) : Prop where
  guard : ∃ c, s.mem.user g c = none ∧ (s'.mem.user g c).isSome ∧ s'.ubit g c = false ∧
    s.mem.user g (c + 1) = none ∧ s'.Accessible g (c + 1) ∧
    (s'.esp np).toNat / PGSIZE.toNat = c + 1
  kept : ∀ a, s.Accessible g a → s'.Accessible g a
  disjoint : s'.Disjoint m

/-- What a `thread_create` that succeeds does, where `m` has the size `sz`. -/
structure Made (s s' : Stacked) (m np : Slot) (g : Pgdir) (sz : UInt32) : Prop where
  bound : sz.toNat + 8192 < 2147483648
  free : ¬ s.tab.InUse np
  thread : s'.Subthread m np
  others : ∀ q, q ≠ np → (s'.Subthread m q ↔ s.Subthread m q)
  sbase : s'.sbase = update s.sbase np sz
  esp : s'.esp np = sz + 2 * PGSIZE - 8
  fresh : ∀ a, pages sz ≤ a → a < pages sz + 2 → s.mem.user g a = none
  ranged : Memory.Ranged g (pages sz) (pages sz + 2) true s.mem s'.mem
  ubit : ∀ a, s'.ubit g a = (a ≠ sz.toNat / 4096 ∧
    ((pages sz ≤ a ∧ a < pages sz + 2) ∨ s.ubit g a = true) : Bool)

theorem pages_add_two (h : sz.toNat + 8192 < 2147483648) :
    pages (sz + 2 * PGSIZE) = pages sz + 2 := by
  have e : (sz + 2 * PGSIZE).toNat = sz.toNat + 8192 := by
    rw [UInt32.toNat_add, show (2 * PGSIZE).toNat = 8192 from rfl]
    omega
  rw [pages, pages, e]
  omega

theorem toNat_add_two (hk : sz < KERNBASE) : (sz + 2 * PGSIZE).toNat = sz.toNat + 8192 := by
  have h : sz.toNat < 2147483648 := hk
  rw [UInt32.toNat_add, show (2 * PGSIZE).toNat = 8192 from rfl]
  omega

/-- A successful `allocuvm` of two pages. -/
theorem allocuvm_two (hk : sz < KERNBASE)
    (h : mem.allocuvm g sz (sz + 2 * PGSIZE) = some (new, mem')) (hz : new ≠ 0) :
    sz.toNat + 8192 < 2147483648 ∧ new = sz + 2 * PGSIZE ∧
      (∀ a, pages sz ≤ a → a < pages sz + 2 → mem.user g a = none) ∧
      Memory.Ranged g (pages sz) (pages sz + 2) true mem mem' := by
  have e := toNat_add_two hk
  unfold Memory.allocuvm at h
  split at h
  · cases h
    exact absurd rfl hz
  next hb =>
  rw [ge_iff_le, UInt32.not_le] at hb
  have hlt : sz.toNat + 8192 < 2147483648 := by
    rw [← e]
    exact hb
  split at h
  · next hl =>
    rw [UInt32.lt_iff_toNat_lt, e] at hl
    omega
  obtain ⟨⟨ok, mem₁⟩, hloop, he⟩ := Option.map_eq_some_iff.mp h
  simp only [Prod.mk.injEq] at he
  obtain ⟨rfl, rfl⟩ := he
  cases ok with
  | false => exact absurd rfl hz
  | true =>
    rw [PGROUNDUP_div hk, PGROUNDUP_div hb, pages_add_two hlt, Nat.add_sub_cancel_left] at hloop
    obtain ⟨hfree, hr⟩ := Memory.allocLoop_ok _ _ _ hloop
    exact ⟨hlt, rfl, hfree, hr⟩

theorem allocproc_some {x y : Paged} (h : x.allocproc = (some np, y)) :
    Thread.allocproc x.tab true = (some np, y.tab) ∧ y.mem.user = x.mem.user ∧
      y.mem.tables = x.mem.tables := by
  unfold Paged.allocproc at h
  split at h
  · cases h
  · next q hq =>
    split at h
    · cases h
    · next r mem hk =>
      cases h
      obtain ⟨hu, ht⟩ := Memory.kalloc_eq hk
      refine ⟨?_, hu, ht⟩
      simp [Thread.allocproc, hq]

/-- The user bits after the two pages have been mapped and one bit has been cleared. -/
theorem clearpteu_mapped {mem mem' : Memory} {ubit ubit' : Pgdir → Nat → Bool} {lo c : Nat}
    (hfree : ∀ a, lo ≤ a → a < lo + 2 → mem.user g a = none)
    (hr : Memory.Ranged g lo (lo + 2) true mem mem')
    (h : clearpteu mem' (mapped mem mem' ubit) g c = some ubit') (a : Nat) :
    ubit' g a = (a ≠ c ∧ ((lo ≤ a ∧ a < lo + 2) ∨ ubit g a = true) : Bool) := by
  obtain ⟨-, ⟨⟩⟩ := Option.ite_none_right_eq_some.mp h
  by_cases e : a = c
  · simp [e]
  · rw [update_self, update_of_ne e, mapped]
    by_cases ha : lo ≤ a ∧ a < lo + 2
    · simp [hfree a ha.1 ha.2, hr.inside a ha.1 ha.2, e, ha]
    · rw [hr.outside g a fun h => ha h.2]
      cases mem.user g a <;> simp [e, ha]

theorem threadCreate_made (hm : s.tab.InUse (mainOf s.tab p))
    (hk : (s.tab.proc (mainOf s.tab p)).sz < KERNBASE) (h : s.threadCreate p = some (0, s')) :
    ∃ np g, s.allocproc.1 = some np ∧ (s.tab.proc (mainOf s.tab p)).pgdir = some g ∧
      Made s s' (mainOf s.tab p) np g (s.tab.proc (mainOf s.tab p)).sz := by
  generalize hmain : mainOf s.tab p = m at *
  unfold threadCreate at h
  rw [hmain] at h
  split at h
  · cases h
  next np x hx =>
  obtain ⟨htab, hu, htabs⟩ := allocproc_some hx
  have ha := Thread.allocproc_some htab
  have hne : m ≠ np := fun e => ha.free (e ▸ hm)
  simp only [ha.others m hne] at h
  obtain ⟨g, hg, h⟩ := Option.bind_eq_some_iff.mp h
  obtain ⟨⟨sz, mem⟩, hall, h⟩ := Option.bind_eq_some_iff.mp h
  refine ⟨np, g, by rw [hx], hg, ?_⟩
  by_cases hz : sz = 0
  · simp only [if_pos hz] at h
    simp [threadInit, hz] at h
  simp only [if_neg hz] at h
  obtain ⟨hbound, rfl, hfree, hr⟩ := allocuvm_two hk hall hz
  obtain ⟨ubit, hclear, h⟩ := Option.bind_eq_some_iff.mp h
  obtain ⟨-, h⟩ := Option.ite_none_right_eq_some.mp h
  have hbits := clearpteu_mapped hfree hr hclear
  rw [decide_eq_true hz] at h
  cases h
  have hpage : ((s.tab.proc m).sz + 2 * PGSIZE - 2 * PGSIZE).toNat / 4096 =
      (s.tab.proc m).sz.toNat / 4096 := by
    rw [UInt32.add_sub_cancel]
  rw [hpage] at hbits
  rw [hu] at hfree
  exact {
    bound := hbound
    free := ha.free
    thread := by
      obtain ⟨sz, e⟩ := threadInit_true (t := x.tab) hne
      simp only [Subthread, e]
      exact ⟨.inr (.inl rfl), trivial⟩
    others := fun q hq => by
      obtain ⟨hids, hstate⟩ :
          SameIds (x.tab.proc q) ((threadInit x.tab m np true).tab.proc q) ∧ _ :=
        threadInit_other hq
      simp only [Subthread, hstate, hids.main, ha.others q hq]
    sbase := rfl
    esp := update_self ..
    fresh := hfree
    ranged := hr.congr hu htabs
    ubit := hbits }

namespace Made

variable (h : Made s s' m np g sz)
include h

theorem not_subthread : ¬ s.Subthread m np := fun ht => not_inUse_not_live h.free ht.1

theorem sbase_of_ne (hq : q ≠ np) : s'.sbase q = s.sbase q := by
  rw [h.sbase, update_of_ne hq]

theorem sbase_self : s'.sbase np = sz := by
  rw [h.sbase, update_self]

theorem disjoint_iff : s'.Disjoint m ↔
    s.Disjoint m ∧ ∀ q, s.Subthread m q → Clear (s.sbase q) sz := by
  have hne : ∀ q, s.Subthread m q → q ≠ np := fun q hq e => h.not_subthread (e ▸ hq)
  constructor
  · intro hd
    refine ⟨fun q r hqr hq hr => ?_, fun q hq => ?_⟩
    · have hc := hd q r hqr ((h.others q (hne q hq)).mpr hq) ((h.others r (hne r hr)).mpr hr)
      rwa [h.sbase_of_ne (hne q hq), h.sbase_of_ne (hne r hr)] at hc
    · have hc := hd q np (hne q hq) ((h.others q (hne q hq)).mpr hq) h.thread
      rwa [h.sbase_of_ne (hne q hq), h.sbase_self] at hc
  · rintro ⟨hd, hc⟩ q r hqr hq hr
    by_cases eq : q = np
    · have er : r ≠ np := fun e => hqr (eq.trans e.symm)
      rw [eq, h.sbase_self, h.sbase_of_ne er]
      exact (hc r ((h.others r er).mp hr)).symm
    · rw [h.sbase_of_ne eq]
      by_cases er : r = np
      · rw [er, h.sbase_self]
        exact hc q ((h.others q eq).mp hq)
      · rw [h.sbase_of_ne er]
        exact hd q r hqr ((h.others q eq).mp hq) ((h.others r er).mp hr)

theorem esp_toNat : (s'.esp np).toNat = sz.toNat + 8184 := by
  have hb := h.bound
  rw [h.esp, UInt32.toNat_sub, UInt32.toNat_add, show (2 * PGSIZE).toNat = 8192 from rfl,
    show (8 : UInt32).toNat = 8 from rfl]
  omega

/-- A page that the call has mapped is one of the two above `PGROUNDUP(sz)`. -/
theorem mem_range (hn : s.mem.user g a = none) (hs : (s'.mem.user g a).isSome) :
    pages sz ≤ a ∧ a < pages sz + 2 := by
  by_contra hc
  rw [h.ranged.outside g a fun e => hc e.2, hn] at hs
  cases hs

/-- If the size is not a multiple of the size of a page, the page that loses `PTE_U` is not new. -/
theorem aligned (hf : FreshStack s s' m np g) : sz.toNat % 4096 = 0 := by
  obtain ⟨c, hn, hs, hbit, -⟩ := hf.guard
  have hc := h.mem_range hn hs
  rw [h.ubit c] at hbit
  unfold pages at hc hbit
  by_contra hmod
  have hne : c ≠ sz.toNat / 4096 := by omega
  simp [hne] at hbit
  omega

theorem freshStack (ha : sz.toNat % 4096 = 0) (hd : s'.Disjoint m) : FreshStack s s' m np g where
  guard := by
    have hp : pages sz = sz.toNat / 4096 := by
      unfold pages
      omega
    have h0 := h.ranged.inside (pages sz) le_rfl (by omega)
    have h1 := h.ranged.inside (pages sz + 1) (by omega) (by omega)
    refine ⟨pages sz, h.fresh _ le_rfl (by omega), h0, ?_, h.fresh _ (by omega) (by omega),
      ⟨h1, ?_⟩, ?_⟩
    · simp [h.ubit, hp]
    · simp [h.ubit, hp]
    · rw [h.esp_toNat, PGSIZE_toNat, hp]
      omega
  kept a hacc := by
    have hp : pages sz = sz.toNat / 4096 := by
      unfold pages
      omega
    have hout : ¬ (pages sz ≤ a ∧ a < pages sz + 2) := by
      intro hin
      rw [Accessible, h.fresh a hin.1 hin.2] at hacc
      cases hacc.1
    have hne : a ≠ sz.toNat / 4096 := by omega
    refine ⟨?_, ?_⟩
    · rw [h.ranged.outside g a fun e => hout e.2]
      exact hacc.1
    · simp [h.ubit, hne, hacc.2]
  disjoint := hd

end Made

/-- A `thread_create` that succeeds gives the new thread a stack of its own just in case the size of
the process is a multiple of the size of a page and the stacks of its live threads are disjoint and
do not meet the two pages above that size. -/
theorem thread_stack_fresh_iff (hm : s.tab.InUse (mainOf s.tab p))
    (hk : (s.tab.proc (mainOf s.tab p)).sz < KERNBASE) (h : s.threadCreate p = some (0, s')) :
    ∃ np g, s.allocproc.1 = some np ∧ (s.tab.proc (mainOf s.tab p)).pgdir = some g ∧
      (FreshStack s s' (mainOf s.tab p) np g ↔
        (s.tab.proc (mainOf s.tab p)).sz.toNat % PGSIZE.toNat = 0 ∧
        s.Disjoint (mainOf s.tab p) ∧ ∀ q, s.Subthread (mainOf s.tab p) q →
          Clear (s.sbase q) (s.tab.proc (mainOf s.tab p)).sz) := by
  obtain ⟨np, g, hnp, hg, hmade⟩ := threadCreate_made hm hk h
  refine ⟨np, g, hnp, hg, fun hf => ⟨hmade.aligned hf, hmade.disjoint_iff.mp hf.disjoint⟩, ?_⟩
  rintro ⟨ha, hd⟩
  exact hmade.freshStack ha (hmade.disjoint_iff.mpr hd)

/-- A state in which the first `k` pages of every page directory are mapped and accessible, three
pages are free and the stack of slot 1 is at 4096. -/
def plain (t : Ptable) (k : Nat) : Stacked where
  tab := t
  mem := Paged.filled k [7, 8, 9]
  ubit _ _ := true
  sbase q := if q = 1 then 4096 else 0
  esp _ := 0

/-- init, which has a thread, makes another one. -/
theorem thread_stack_fresh_second : ∃ t s', calls.Reached t ∧ (t.proc 0).state = .RUNNING ∧
    (plain t 3).Subthread 0 1 ∧ (plain t 3).threadCreate 0 = some (0, s') ∧
    FreshStack (plain t 3) s' 0 2 0 := by
  obtain ⟨t, ht, h⟩ := calls.exists_reached_of_run
    [.dispatch 0, .call 0 (.threadCreate true true)]
    (fun t => decide ((t.proc 0).state = .RUNNING ∧ mainOf t 0 = 0 ∧ (t.proc 0).pgdir = some 0 ∧
        (t.proc 0).sz = 12288 ∧ (plain t 3).allocproc.1 = some 2 ∧
        ∀ q, (plain t 3).Subthread 0 q ↔ q = 1) &&
      ((plain t 3).threadCreate 0).any (fun x => x.1 = 0)) calls_init (by decide +kernel)
  simp only [Bool.and_eq_true, decide_eq_true_eq, Option.any_eq_true] at h
  obtain ⟨⟨hrun, hmain, hg, hsz, hnp, hone⟩, ⟨r, s'⟩, hs, rfl⟩ := h
  have hmain' : mainOf (plain t 3).tab 0 = 0 := hmain
  have hsz' : ((plain t 3).tab.proc 0).sz = 12288 := hsz
  obtain ⟨np, g, hnp', hg', hiff⟩ := thread_stack_fresh_iff (s := plain t 3) (p := 0)
    (by rw [hmain']; exact inUse_of_running hrun) (by rw [hmain', hsz']; decide) hs
  rw [hmain', hsz'] at hiff
  rw [hmain'] at hg'
  obtain rfl : np = 2 := Option.some.inj (hnp'.symm.trans hnp)
  obtain rfl : g = 0 := Option.some.inj (hg'.symm.trans hg)
  refine ⟨t, s', ht, hrun, (hone 1).mpr rfl, hs, hiff.mpr ⟨by decide, fun q r hqr hq hr => ?_,
    fun q hq => ?_⟩⟩
  · exact absurd (((hone q).mp hq).trans ((hone r).mp hr).symm) hqr
  · rw [(hone q).mp hq]
    exact show Clear 4096 12288 by decide

/-- init has grown to 6144 bytes and makes a thread: its second page is no longer accessible. And
init has made a thread and given back two pages when it makes another: the stacks are the same. -/
theorem thread_stack_not_fresh :
    (∃ t s', calls.Reached t ∧ (t.proc 0).state = .RUNNING ∧ (t.proc 0).sz = 6144 ∧
      (plain t 2).threadCreate 0 = some (0, s') ∧ (plain t 2).Accessible 0 1 ∧
      ¬ s'.Accessible 0 1) ∧
    ∃ t s', calls.Reached t ∧ (t.proc 0).state = .RUNNING ∧ (t.proc 0).sz = 4096 ∧
      (plain t 1).threadCreate 0 = some (0, s') ∧ (plain t 1).Subthread 0 1 ∧
      s'.Subthread 0 1 ∧ s'.Subthread 0 2 ∧ s'.sbase 1 = s'.sbase 2 := by
  refine ⟨?_, ?_⟩
  · obtain ⟨t, ht, h⟩ := calls.exists_reached_of_run [.dispatch 0, .call 0 (.sbrk 2048 true)]
      (fun t => decide ((t.proc 0).state = .RUNNING ∧ (t.proc 0).sz = 6144) &&
        ((plain t 2).threadCreate 0).any (fun x => x.1 = 0 ∧ x.2.ubit 0 1 = false))
      calls_init (by decide +kernel)
    simp only [Bool.and_eq_true, decide_eq_true_eq, Option.any_eq_true] at h
    obtain ⟨⟨hrun, hsz⟩, ⟨r, s'⟩, hs, rfl, hbit⟩ := h
    have hno : ¬ s'.Accessible 0 1 := by
      rintro ⟨-, hb⟩
      rw [hbit] at hb
      cases hb
    exact ⟨t, s', ht, hrun, hsz, hs, ⟨rfl, rfl⟩, hno⟩
  · obtain ⟨t, ht, h⟩ := calls.exists_reached_of_run
      [.dispatch 0, .call 0 (.threadCreate true true), .call 0 (.sbrk (-8192) true)]
      (fun t => decide ((t.proc 0).state = .RUNNING ∧ (t.proc 0).sz = 4096 ∧
          (plain t 1).Subthread 0 1) &&
        ((plain t 1).threadCreate 0).any (fun x => x.1 = 0 ∧ x.2.Subthread 0 1 ∧
          x.2.Subthread 0 2 ∧ x.2.sbase 1 = x.2.sbase 2)) calls_init (by decide +kernel)
    simp only [Bool.and_eq_true, decide_eq_true_eq, Option.any_eq_true] at h
    obtain ⟨⟨hrun, hsz, hth⟩, ⟨r, s'⟩, hs, rfl, h1, h2, he⟩ := h
    exact ⟨t, s', ht, hrun, hsz, hs, hth, h1, h2, he⟩

end Stacked

end Xv6.Thread
