import Xv6.Thread.Sizes

/-! # `thread_create` without memory

`thread_create` with the pages that it takes from the free list: the kernel stack, which `allocproc`
allocates, and the two pages of the user stack, which `allocuvm` allocates and maps. A call that
fails leaves everything as it was only if it has found no slot (`create_failed_iff`): otherwise
`nextpid` or the size of the process has changed, and a slot is left with the pid of the process. -/

namespace Xv6.Thread

open Function

/-! ## Pages -/

/-- The free pages, and those that kernel stacks and page directories have. -/
structure Memory where
  /-- `kmem.freelist`. -/
  free : List Nat
  kstack : Slot → Option Nat
  /-- The pages that are mapped in a page directory, by page number. -/
  user : Pgdir → Nat → Option Nat
  /-- The page tables of a page directory. -/
  tables : Pgdir → Nat → Option Nat

namespace Memory

def kalloc (mem : Memory) : Option (Nat × Memory) :=
  match mem.free with
  | [] => none
  | r :: rs => some (r, { mem with free := rs })

def kfree (mem : Memory) (r : Nat) : Memory := { mem with free := r :: mem.free }

def NPTENTRIES : Nat := 1024

/-- `walkpgdir` with `alloc`, for the page number `a`. -/
def walkpgdir (mem : Memory) (g : Pgdir) (a : Nat) : Option Memory :=
  match mem.tables g (a / NPTENTRIES) with
  | some _ => some mem
  | none => mem.kalloc.map fun (r, mem) => { mem with
      tables := update mem.tables g
        (update (mem.tables g) (a / NPTENTRIES) (some r)) }

/-- `mappages` of one page, `none` for `panic("remap")`. -/
def mappages (mem : Memory) (g : Pgdir) (a r : Nat) : Option (Bool × Memory) :=
  match mem.walkpgdir g a with
  | none => some (false, mem)
  | some mem =>
    if (mem.user g a).isSome then none
    else some (true, { mem with
      user := update mem.user g (update (mem.user g) a (some r)) })

/-- One iteration of `deallocuvm`. -/
def deallocOne (g : Pgdir) (mem : Memory) (a : Nat) : Memory :=
  if (mem.tables g (a / NPTENTRIES)).isNone then mem
  else
    match mem.user g a with
    | none => mem
    | some r => { mem.kfree r with
        user := update mem.user g (update (mem.user g) a none) }

/-- `deallocuvm` from the page `lo` to the page `hi`. -/
def deallocuvm (mem : Memory) (g : Pgdir) (lo hi : Nat) : Memory :=
  (List.range' lo (hi - lo)).foldl (deallocOne g) mem

/-- The loop of `allocuvm` with `n` pages to go from the page `a` on, which began at the page
`lo`. -/
def allocLoop (g : Pgdir) (lo : Nat) : Nat → Nat → Memory → Option (Bool × Memory)
  | 0, _, mem => some (true, mem)
  | n + 1, a, mem =>
    match mem.kalloc with
    | none => some (false, mem.deallocuvm g lo (a + n + 1))
    | some (r, mem) =>
      match mem.mappages g a r with
      | none => none
      | some (false, mem) => some (false, (mem.deallocuvm g lo (a + n + 1)).kfree r)
      | some (true, mem) => allocLoop g lo n (a + 1) mem

/-- `allocuvm`, `none` for a panic. -/
def allocuvm (mem : Memory) (g : Pgdir) (oldsz newsz : UInt32) : Option (UInt32 × Memory) :=
  if newsz ≥ KERNBASE then some (0, mem)
  else if newsz < oldsz then some (oldsz, mem)
  else
    let lo := (PGROUNDUP oldsz).toNat / PGSIZE.toNat
    let hi := (PGROUNDUP newsz).toNat / PGSIZE.toNat
    (allocLoop g lo (hi - lo) lo mem).map fun (ok, mem) => (if ok then newsz else 0, mem)

end Memory

/-! ## `thread_create` -/

/-- The table and the memory. -/
structure Paged where
  tab : Ptable
  mem : Memory

namespace Paged

def allocproc (s : Paged) : Option Slot × Paged :=
  match slots.find? fun p => (s.tab.proc p).state = .UNUSED with
  | none => (none, s)
  | some p =>
    match s.mem.kalloc with
    | none => (none, ⟨(Thread.allocproc s.tab false).2,
        { s.mem with kstack := update s.mem.kstack p none }⟩)
    | some (r, mem) => (some p, ⟨(Thread.allocproc s.tab true).2,
        { mem with kstack := update mem.kstack p (some r) }⟩)

/-- `thread_create`, `none` for a panic or an access through a page directory that is 0. What
follows a successful `allocuvm` takes no pages. -/
def threadCreate (s : Paged) (curproc : Slot) : Option (Int × Paged) :=
  let main := mainOf s.tab curproc
  match s.allocproc with
  | (none, s) => some (-1, s)
  | (some np, s) =>
    (s.tab.proc main).pgdir.bind fun pgdir =>
      let sz := (s.tab.proc main).sz
      (s.mem.allocuvm pgdir sz (sz + 2 * PGSIZE)).map fun (sz, mem) =>
        let r := threadInit s.tab main np (sz ≠ 0)
        (r.ret, ⟨r.tab, mem⟩)

variable {s s' : Paged} {p q : Slot} {r : Int}

/-- The outcomes of `kalloc` and `allocuvm` are arguments of the operation on the table. -/
theorem threadCreate_tab (h : s.threadCreate p = some (r, s')) : ∃ kalloc allocuvm,
    (Thread.threadCreate s.tab p kalloc allocuvm).ret = r ∧
      (Thread.threadCreate s.tab p kalloc allocuvm).tab = s'.tab := by
  unfold threadCreate allocproc at h
  cases hf : slots.find? fun p => (s.tab.proc p).state = .UNUSED with
  | none =>
    rw [hf] at h
    cases h
    refine ⟨false, false, ?_⟩
    simp only [Thread.threadCreate, Thread.allocproc, hf]
    exact ⟨trivial, trivial⟩
  | some np =>
    have ha : ∀ ok, Thread.allocproc s.tab ok =
        (if ok then some np else none, (Thread.allocproc s.tab ok).2) := by
      intro ok
      cases ok <;> simp [Thread.allocproc, hf]
    rw [hf] at h
    cases hk : s.mem.kalloc with
    | none =>
      simp only [hk, Option.some.injEq, Prod.mk.injEq] at h
      obtain ⟨rfl, rfl⟩ := h
      refine ⟨false, false, ?_⟩
      rw [Thread.threadCreate, ha false]
      exact ⟨rfl, rfl⟩
    | some x =>
      simp only [hk, Option.bind_eq_some_iff, Option.map_eq_some_iff, Prod.mk.injEq] at h
      obtain ⟨g, -, y, -, rfl, rfl⟩ := h
      refine ⟨true, y.1 ≠ 0, ?_⟩
      rw [Thread.threadCreate, ha true]
      exact ⟨rfl, rfl⟩

/-- Nothing has changed: the size of the caller's process, the free pages, but for page tables that
a page directory has been given, `nextpid`, and the pid and the state of every slot. -/
structure Unchanged (s s' : Paged) (p : Slot) : Prop where
  sz : (s'.tab.proc (mainOf s.tab p)).sz = (s.tab.proc (mainOf s.tab p)).sz
  free : ∀ r, r ∈ s.mem.free ↔
    r ∈ s'.mem.free ∨ ∃ g i, s'.mem.tables g i = some r ∧ s.mem.tables g i ≠ some r
  nextpid : s'.tab.nextpid = s.tab.nextpid
  pid : ∀ q, (s'.tab.proc q).pid = (s.tab.proc q).pid
  state : ∀ q, (s'.tab.proc q).state = (s.tab.proc q).state

theorem Unchanged.refl : Unchanged s s p where
  sz := rfl
  free r := by simp
  nextpid := rfl
  pid _ := rfl
  state _ := rfl

theorem threadCreate_full (h : ∀ q, s.tab.InUse q) : s.threadCreate p = some (-1, s) := by
  have hf : (slots.find? fun p => (s.tab.proc p).state = .UNUSED) = none := by
    rw [find_slots_eq_none]
    intro q
    simpa [Ptable.InUse] using h q
  simp only [threadCreate, allocproc, hf]

theorem threadInit_sz : ((threadInit t m np false).tab.proc m).sz = (t.proc m).sz + 2 * PGSIZE := by
  by_cases e : m = np
  · subst e
    simp [threadInit, Ptable.setState]
  · simp [threadInit, Ptable.setState, Ptable.setProc, e]

theorem add_pages_ne (sz : UInt32) : sz + 2 * PGSIZE ≠ sz := by
  intro h
  have h := congrArg UInt32.toNat h
  have hp : (2 * PGSIZE).toNat = 8192 := by decide +kernel
  have hlt := sz.toNat_lt
  rw [UInt32.toNat_add, hp] at h
  omega

/-- A call that has found a slot and fails changes `nextpid` or the size of the process. -/
theorem threadCreate_changes {t : Ptable} {kalloc allocuvm : Bool} (hq : ¬ t.InUse q)
    (hr : (Thread.threadCreate t p kalloc allocuvm).ret = -1) :
    (Thread.threadCreate t p kalloc allocuvm).tab.nextpid ≠ t.nextpid ∨
      ((Thread.threadCreate t p kalloc allocuvm).tab.proc (mainOf t p)).sz ≠
        (t.proc (mainOf t p)).sz := by
  obtain ⟨np, hf⟩ : ∃ np, (slots.find? fun p => (t.proc p).state = .UNUSED) = some np := by
    by_contra hn
    have hf := find_slots_eq_none.mp (Option.eq_none_iff_forall_ne_some.mpr (not_exists.mp hn)) q
    rw [decide_eq_false_iff_not] at hf
    exact hq hf
  cases kalloc with
  | false =>
    left
    simp [Thread.threadCreate, Thread.allocproc, hf, Ptable.setState]
  | true =>
    right
    obtain ⟨u, hu⟩ : ∃ u, Thread.allocproc t true = (some np, u) := by
      simp [Thread.allocproc, hf]
    rw [Thread.threadCreate, hu] at hr ⊢
    cases allocuvm with
    | true => simp [threadInit] at hr
    | false =>
      intro e
      have hsz : ((threadInit u (mainOf t p) np false).tab.proc (mainOf t p)).sz =
        (u.proc (mainOf t p)).sz + 2 * PGSIZE := threadInit_sz
      rw [(Stays.allocproc hu).sz] at hsz
      exact add_pages_ne _ (hsz.symm.trans e)

/-- A `thread_create` that fails leaves everything as it was exactly if it has found no slot. -/
theorem create_failed_iff (h : s.threadCreate p = some (-1, s')) :
    Unchanged s s' p ↔ ∀ q, s.tab.InUse q := by
  constructor
  · intro hu q
    by_contra hq
    obtain ⟨kalloc, allocuvm, hr, ht⟩ := threadCreate_tab h
    rcases threadCreate_changes hq hr with hne | hne
    · exact hne (ht ▸ hu.nextpid)
    · exact hne (ht ▸ hu.sz)
  · intro hall
    rw [threadCreate_full hall] at h
    cases h
    exact .refl

/-- Memory with some free pages, where every page directory has its first page table. -/
def someFree (free : List Nat) : Memory where
  free := free
  kstack _ := none
  user _ _ := none
  tables _ i := if i = 0 then some 0 else none

/-- init forks until the table is full. -/
theorem create_failed_iff_full : ∃ s s' : Paged, calls.Reached s.tab ∧
    s.threadCreate 0 = some (-1, s') ∧ (∀ q, s.tab.InUse q) ∧ Unchanged s s' 0 := by
  obtain ⟨t, ht, h⟩ := calls.exists_reached_of_run
    (.dispatch 0 :: List.replicate 63 (.call 0 (.fork true true)))
    (fun t => decide (∀ q, t.InUse q)) calls_init (by decide +kernel)
  have hall := of_decide_eq_true h
  have hc : threadCreate ⟨t, someFree [1, 2, 3]⟩ 0 = some (-1, ⟨t, someFree [1, 2, 3]⟩) :=
    threadCreate_full hall
  exact ⟨_, _, ht, hc, hall, (create_failed_iff hc).mpr hall⟩

/-- A child of init makes a thread when two pages are free. The process has grown by two pages, the
kernel stack is lost, and a free slot has the pid of the process: `exit` waits for it for ever. -/
theorem create_failed_changes : ∃ s s' : Paged, calls.Reached s.tab ∧
    (s.tab.proc 1).state = .RUNNING ∧ s.threadCreate 1 = some (-1, s') ∧
    (s.tab.proc 1).sz = 4096 ∧ (s'.tab.proc 1).sz = 12288 ∧
    s.mem.free = [1, 2] ∧ s'.mem.free = [2] ∧ s'.mem.kstack 2 = some 1 ∧
    (s.tab.proc 2).pid = 0 ∧ (s'.tab.proc 2).pid = (s.tab.proc 1).pid ∧ ¬ s'.tab.InUse 2 ∧
      (clearSubthreads s.tab 1).1 = 0 ∧ (clearSubthreads s'.tab 1).1 = 1 := by
  obtain ⟨t, ht, h⟩ := calls.exists_reached_of_run
    [.dispatch 0, .call 0 (.fork true true), .dispatch 1]
    (fun t => decide ((t.proc 1).state = .RUNNING ∧
      ∃ r ∈ threadCreate ⟨t, someFree [1, 2]⟩ 1, r.1 = -1 ∧
        (t.proc 1).sz = 4096 ∧ (r.2.tab.proc 1).sz = 12288 ∧
        r.2.mem.free = [2] ∧ r.2.mem.kstack 2 = some 1 ∧
        (t.proc 2).pid = 0 ∧ (r.2.tab.proc 2).pid = (t.proc 1).pid ∧ ¬ r.2.tab.InUse 2 ∧
        (clearSubthreads t 1).1 = 0 ∧ (clearSubthreads r.2.tab 1).1 = 1)) calls_init
    (by decide +kernel)
  obtain ⟨hp, ⟨r, s'⟩, hc, rfl, hsz, hsz', hfree, hk, hpid, hpid', hu, he, he'⟩ :=
    of_decide_eq_true h
  exact ⟨⟨t, someFree [1, 2]⟩, s', ht, hp, hc, hsz, hsz', rfl, hfree, hk, hpid, hpid', hu, he, he'⟩

end Paged

end Xv6.Thread
