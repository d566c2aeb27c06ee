import Xv6.Syscall.Calls

/-! # Where the kernel stores results

`read`, `fstat` and `pipe` check their pointer with `argptr`, whose sum does not overflow for a
process below `KERNBASE`. `thread_create` and `thread_join` fetch theirs with `argint`, and store
through it unless they return before. -/

namespace Xv6.Syscall

open Thread Fs

variable {c : Caller} {p n : UInt32} {len : Nat}

/-- The `len` bytes at `p` lie in the memory of the caller. -/
def Inside (c : Caller) (p : UInt32) (len : Nat) : Prop := p.toNat + len ≤ c.sz.toNat

instance : Decidable (Inside c p len) := inferInstanceAs (Decidable (_ ≤ _))

/-- The pointer argument of a call, with the number of bytes that the call may store there. -/
def Call.ptr (c : Caller) : Call → Option (UInt32 × Nat)
  | .read .. => do
    let n ← argint c 2
    let p ← argint c 1
    if Neg n then none else pure (p, n.toNat)
  | .fstat => (argint c 1).map (·, statSize.toNat)
  | .pipe _ => (argint c 0).map (·, 8)
  | .threadCreate .. => (argint c 0).map (·, 4)
  | .threadJoin .. => (argint c 1).map (·, 4)

/-- The call stores in the memory of the caller only, and fails without a store when its pointer
argument does not lie there. -/
structure Validated (c : Caller) (call : Call) : Prop where
  stores : ∀ s ∈ (call.run c).stores, s.1 < c.sz
  fails : (∀ a ∈ call.ptr c, ¬ Inside c a.1 a.2) →
    (call.run c).stores = [] ∧ ∀ r ∈ (call.run c).ret, r = -1

/-! ## Stores in a range -/

/-- The stores go to the `len` bytes at `p`. -/
def Span (p : UInt32) (len : Nat) (l : Stores) : Prop := ∀ s ∈ l, ∃ i < len, s.1 = p + .ofNat i

theorem Span.nil : Span p len [] := nofun

theorem Span.lt (h : Span p len l) (hi : Inside c p len) : ∀ s ∈ l, s.1 < c.sz := by
  intro s hs
  obtain ⟨i, hlt, e⟩ := h s hs
  have := c.sz.toNat_lt
  simp only [Inside] at hi
  rw [e, UInt32.lt_iff_toNat_lt, UInt32.toNat_add, UInt32.toNat_ofNat']
  omega

theorem Span.mono (h : Span p len l) (hk : len ≤ k) : Span p k l := fun s hs =>
  let ⟨i, hi, e⟩ := h s hs
  ⟨i, by omega, e⟩

theorem Span.append (h : Span p len l) (h' : Span p len l') : Span p len (l ++ l') := fun s hs =>
  (List.mem_append.mp hs).elim (h s) (h' s)

theorem Span.shift (h : Span (p + .ofNat k) len l) : Span p (k + len) l := fun s hs =>
  let ⟨i, hi, e⟩ := h s hs
  ⟨k + i, by omega, by rw [e, UInt32.ofNat_add, UInt32.add_assoc]⟩

theorem Span.cons (h : Span (p + 1) len l) : Span p (len + 1) ((p, b) :: l) := by
  intro s hs
  rcases List.mem_cons.mp hs with rfl | hs
  · exact ⟨0, by omega, by simp⟩
  · exact (Nat.add_comm 1 len ▸ Span.shift (k := 1) h) s hs

theorem span_store (bs : List UInt8) : Span p bs.length (store p bs) := by
  induction bs generalizing p with
  | nil => exact .nil
  | cons b bs ih => exact ih.cons

/-! ## The functions that store -/

theorem span_pipeCopy (q : Pipe) (k : Nat) : Span p k (pipeCopy q p k) := by
  induction k generalizing q p with
  | zero => exact .nil
  | succ k ih =>
    unfold pipeCopy
    split
    · exact .nil
    · exact (ih _).cons

theorem span_consoleCopy (stored k : Nat) (input : List (Option UInt8)) :
    Span p k (consoleCopy stored p k input).stores := by
  induction k generalizing stored p input with
  | zero => exact .nil
  | succ k ih =>
    match input with
    | [] => exact .nil
    | none :: _ => exact .nil
    | some ch :: input =>
      unfold consoleCopy
      split
      · exact .nil
      · split
        · exact Span.nil.cons
        · exact (ih _ _).cons

theorem span_readi (input : List (Option UInt8)) (ip : Inode) (off : UInt32) :
    Span p n.toNat (readi input ip p off n).stores := by
  unfold readi
  split
  · split
    · exact span_consoleCopy _ _ _
    · exact .nil
  · split
    · exact .nil
    · next hoff =>
      refine (span_store _).mono ?_
      rw [List.length_map, List.length_range]
      split
      · next hgt =>
        -- the file ends before the `n` bytes do
        simp only [UInt32.lt_iff_toNat_lt, UInt32.toNat_add, not_or] at hoff hgt
        rw [UInt32.toNat_sub_of_le _ _ (UInt32.le_iff_toNat_le.mpr (by omega))]
        omega
      · exact Nat.le_refl _

theorem span_fileread (wait : Wait Pipe) (input : List (Option UInt8)) (f : File) :
    Span p n.toNat (fileread wait input f p n).stores := by
  unfold fileread
  split
  · exact .nil
  · split
    · cases wait with
      | sleeps | killed => exact .nil
      | ready q => exact span_pipeCopy q _
    · exact span_readi _ _ _
    · exact .nil

theorem length_ownerBytes (ip : Inode) : (ownerBytes ip).length = 16 := by
  have : (CString.str ip.owner 16 0).length ≤ 16 := CString.length_str_le
  simp only [ownerBytes, List.length_append, List.length_replicate]
  omega

/-- Bytes stored at an offset from `p`. -/
theorem span_store_add (off : UInt32) (h : off.toNat + bs.length ≤ len) :
    Span p len (store (p + off) bs) := by
  have hs := span_store (p := p + off) bs
  rw [← UInt32.ofNat_toNat (x := off)] at hs ⊢
  exact hs.shift.mono h

theorem length_wordBytes (w : UInt32) : (wordBytes w).length = 4 := rfl

theorem length_halfBytes (w : UInt16) : (halfBytes w).length = 2 := rfl

theorem span_stati (ip : Inode) : Span p statSize.toNat (stati ip p) := by
  have ho := length_ownerBytes ip
  unfold stati
  refine .append (.append (.append (.append (.append (.append ?_ ?_) ?_) ?_) ?_) ?_) ?_
  · exact span_store_add 4 (by rw [length_wordBytes]; decide)
  · exact span_store_add 8 (by rw [length_wordBytes]; decide)
  · exact (span_store _).mono (by rw [length_halfBytes]; decide)
  · exact span_store_add 12 (by rw [length_halfBytes]; decide)
  · exact span_store_add 16 (by rw [length_wordBytes]; decide)
  · exact span_store_add 20 (by rw [length_wordBytes]; decide)
  · exact span_store_add 24 (by rw [ho]; decide)

/-! ## `argptr` -/

/-- A process below `KERNBASE` cannot make the sum of `argptr` wrap. -/
theorem argptr_eq_some (hsz : c.sz < KERNBASE) (h : argptr c k n = some p) :
    argint c k = some p ∧ ¬ Neg n ∧ Inside c p n.toNat := by
  simp only [argptr, Option.bind_eq_bind, Option.bind_eq_some_iff] at h
  obtain ⟨i, hi, h⟩ := h
  obtain ⟨hn, ⟨⟩⟩ := Option.ite_none_left_eq_some.mp h
  refine ⟨hi, fun hneg => hn (.inl hneg), ?_⟩
  simp only [Neg, KERNBASE, not_or, ge_iff_le, gt_iff_lt, UInt32.le_iff_toNat_le,
    UInt32.lt_iff_toNat_lt, UInt32.toNat_add, UInt32.reduceToNat, Inside] at hn hsz ⊢
  omega

/-! ## Calls -/

/-- `thread_create` reaches its store: the arguments are there, and a slot with a stack. -/
def Creates (c : Caller) (t : Ptable) (kalloc : Bool) : Prop :=
  (argint c 1).isSome ∧ (argint c 2).isSome ∧ (∃ q, (t.proc q).state = .UNUSED) ∧ kalloc = true

/-- `thread_join` reaches its store: in one of the tables there is an exited thread, and in those
before it `thread_join` has gone to sleep. -/
def Joins (curproc : Slot) (thread : Int) : List Ptable → Prop
  | [] => False
  | t :: ts => (∃ q, (t.proc q).tid = thread ∧ (t.proc q).state = .ZOMBIE) ∨
    (∃ q, (t.proc q).tid = thread) ∧ (t.proc curproc).killed = false ∧ Joins curproc thread ts

/-- The pointer argument of `thread_create` and of `thread_join` lies in the memory of the caller,
or the call ends, or waits, before it stores. -/
def Checked (c : Caller) : Call → Prop
  | .read .. | .fstat | .pipe _ => True
  | .threadCreate t _ kalloc _ => ∀ thread, argint c 0 = some thread → Creates c t kalloc →
    Inside c thread 4
  | .threadJoin curproc tables => ∀ thread retval, argint c 0 = some thread →
    argint c 1 = some retval → Joins curproc thread.toNat tables → Inside c retval 4

/-- A call that stores in the range of its pointer argument once this has been checked. -/
theorem Validated.of_span (h : call.run c = .fail ∨ ∃ p len,
    call.ptr c = some (p, len) ∧ Inside c p len ∧ Span p len (call.run c).stores) :
    Validated c call := by
  rcases h with h | ⟨p, len, hp, hi, hs⟩
  · refine ⟨?_, fun _ => ?_⟩
    · rw [h]; nofun
    · rw [h]; exact ⟨rfl, fun r hr => by cases hr; rfl⟩
  · exact ⟨hs.lt hi, fun hn => absurd hi (hn _ hp)⟩

theorem validated_read (hsz : c.sz < KERNBASE) (wait : Wait Pipe) (input : List (Option UInt8)) :
    Validated c (.read wait input) := by
  refine .of_span ?_
  simp only [Call.run, sysRead]
  split
  · exact .inl rfl
  · next f p n hargs =>
    simp only [Option.bind_eq_bind, Option.bind_eq_some_iff, Option.pure_def, Option.some.injEq,
      Prod.mk.injEq] at hargs
    obtain ⟨f, -, n, hn, p, hp, rfl, rfl, rfl⟩ := hargs
    obtain ⟨hi, hneg, hin⟩ := argptr_eq_some hsz hp
    refine .inr ⟨p, n.toNat, ?_, hin, span_fileread _ _ _⟩
    simp [Call.ptr, hn, hi, hneg]

theorem validated_fstat (hsz : c.sz < KERNBASE) : Validated c .fstat := by
  refine .of_span ?_
  simp only [Call.run, sysFstat]
  split
  · exact .inl rfl
  · next f st hargs =>
    simp only [Option.bind_eq_bind, Option.bind_eq_some_iff, Option.pure_def, Option.some.injEq,
      Prod.mk.injEq] at hargs
    obtain ⟨f, -, st, hst, rfl, rfl⟩ := hargs
    obtain ⟨hi, -, hin⟩ := argptr_eq_some hsz hst
    refine .inr ⟨st, statSize.toNat, by simp [Call.ptr, hi], hin, ?_⟩
    unfold filestat
    split
    · exact span_stati _
    · exact .nil

theorem validated_pipe (hsz : c.sz < KERNBASE) (pipealloc : Bool) :
    Validated c (.pipe pipealloc) := by
  refine .of_span ?_
  simp only [Call.run, sysPipe]
  split
  · exact .inl rfl
  · next fd hfd =>
    obtain ⟨hi, -, hin⟩ := argptr_eq_some hsz hfd
    refine .inr ⟨fd, 8, by simp [Call.ptr, hi], hin, ?_⟩
    split
    · exact .nil
    · split
      · exact .nil
      · exact .append ((span_store _).mono (by rw [length_wordBytes]; omega))
          (span_store_add 4 (by rw [length_wordBytes]; decide))

/-- A call that may store the bytes of a word through a pointer that it does not check. -/
theorem validated_word_iff (hp : call.ptr c = some (p, 4))
    (hs : (call.run c).stores = store p (wordBytes w)) : Validated c call ↔ Inside c p 4 := by
  constructor
  · intro h
    by_contra hi
    have := (h.fails fun a ha => by rw [hp] at ha; cases ha; exact hi).1
    rw [hs] at this
    cases this
  · exact fun hi => .of_span (.inr ⟨p, 4, hp, hi, hs ▸ span_store _⟩)

/-- A call that fails. -/
theorem validated_of_fail (hs : (call.run c).stores = []) (hr : ∀ r ∈ (call.run c).ret, r = -1) :
    Validated c call :=
  ⟨by rw [hs]; nofun, fun _ => ⟨hs, hr⟩⟩

theorem threadCreate_thread (t : Ptable) (curproc : Slot) (kalloc allocuvm : Bool) :
    (∃ q, (t.proc q).state = .UNUSED) ∧ kalloc = true ∧
      (∃ tid, (Thread.threadCreate t curproc kalloc allocuvm).thread = some tid) ∨
    ¬ ((∃ q, (t.proc q).state = .UNUSED) ∧ kalloc = true) ∧
      (Thread.threadCreate t curproc kalloc allocuvm).thread = none ∧
      (Thread.threadCreate t curproc kalloc allocuvm).ret = -1 := by
  unfold Thread.threadCreate allocproc
  cases hf : slots.find? fun p => decide ((t.proc p).state = .UNUSED) with
  | none =>
    have := find_slots_eq_none.mp hf
    simp only [decide_eq_false_iff_not] at this
    exact .inr ⟨fun ⟨⟨q, hq⟩, _⟩ => this q hq, rfl, rfl⟩
  | some p =>
    have hp := of_decide_eq_true (find_slots_eq_some.mp hf).1
    cases kalloc with
    | false => exact .inr ⟨fun h => Bool.false_ne_true h.2, rfl, rfl⟩
    | true =>
      refine .inl ⟨⟨p, hp⟩, rfl, t.nexttid, ?_⟩
      simp only [if_true, threadInit]
      cases allocuvm <;> rfl

theorem validated_threadCreate (t : Ptable) (curproc : Slot) (kalloc allocuvm : Bool) :
    Validated c (.threadCreate t curproc kalloc allocuvm) ↔
      Checked c (.threadCreate t curproc kalloc allocuvm) := by
  -- a missing argument
  by_cases hargs : (∃ thread, argint c 0 = some thread) ∧ (argint c 1).isSome ∧ (argint c 2).isSome
  swap
  · have hrun : sysThreadCreate c t curproc kalloc allocuvm = .fail := by
      unfold sysThreadCreate
      cases h0 : argint c 0 <;> cases h1 : argint c 1 <;> cases h2 : argint c 2 <;>
        simp_all
    refine iff_of_true (validated_of_fail (congrArg Effect.stores hrun) ?_)
      fun thread h hcreates => absurd ⟨⟨thread, h⟩, hcreates.1, hcreates.2.1⟩ hargs
    simp [Call.run, hrun, Effect.fail]
  obtain ⟨⟨thread, h0⟩, h1, h2⟩ := hargs
  obtain ⟨start, e1⟩ := Option.isSome_iff_exists.mp h1
  obtain ⟨arg, e2⟩ := Option.isSome_iff_exists.mp h2
  have hp : (Call.threadCreate t curproc kalloc allocuvm).ptr c = some (thread, 4) := by
    simp [Call.ptr, h0]
  rcases threadCreate_thread t curproc kalloc allocuvm with ⟨hu, hk, tid, htid⟩ | ⟨hn, hno, hret⟩
  · rw [validated_word_iff (w := .ofInt tid) hp (by
      simp [Call.run, sysThreadCreate, h0, e1, e2, htid])]
    refine ⟨fun hi th hth _ => ?_, fun h => h thread h0 ⟨h1, h2, hu, hk⟩⟩
    cases h0.symm.trans hth
    exact hi
  · refine iff_of_true (validated_of_fail ?_ ?_) fun th _ hcreates => absurd hcreates.2.2 hn
    · simp [Call.run, sysThreadCreate, h0, e1, e2, hno]
    · simp [Call.run, sysThreadCreate, h0, e1, e2, hret]

/-- The passes of `thread_join` store a value, or they fail or sleep. -/
theorem threadJoinPasses_cases (curproc : Slot) (thread : Int) (ts : List Ptable) :
    Joins curproc thread ts ∧ (∃ v, (threadJoinPasses curproc thread ts).1 = some v) ∨
    ¬ Joins curproc thread ts ∧ (threadJoinPasses curproc thread ts).1 = none ∧
      ∀ r ∈ (threadJoinPasses curproc thread ts).2, r = -1 := by
  induction ts with
  | nil => exact .inr ⟨id, rfl, nofun⟩
  | cons t ts ih =>
    simp only [threadJoinPasses, Joins, Thread.threadJoin]
    cases hf : slots.find? fun p =>
        decide ((t.proc p).tid = thread ∧ (t.proc p).state = .ZOMBIE) with
    | some p =>
      exact .inl ⟨.inl ⟨p, of_decide_eq_true (find_slots_eq_some.mp hf).1⟩, _, rfl⟩
    | none =>
      have hz := find_slots_eq_none.mp hf
      simp only [decide_eq_false_iff_not] at hz
      have hz : ¬ ∃ q, (t.proc q).tid = thread ∧ (t.proc q).state = .ZOMBIE :=
        fun ⟨q, hq⟩ => hz q hq
      simp only [hz, false_or, mem_slots, true_and]
      by_cases hret : (¬ ∃ q, (t.proc q).tid = thread) ∨ (t.proc curproc).killed = true
      · simp only [if_pos hret]
        refine .inr ⟨fun ⟨hq, hk, _⟩ => ?_, trivial, fun r hr => by cases hr; rfl⟩
        rcases hret with hret | hret
        · exact hret hq
        · simp [hk] at hret
      · simp only [if_neg hret]
        simp only [not_or, not_not, Bool.not_eq_true] at hret
        simpa only [hret, true_and] using ih

theorem validated_threadJoin (curproc : Slot) (tables : List Ptable) :
    Validated c (.threadJoin curproc tables) ↔ Checked c (.threadJoin curproc tables) := by
  by_cases hargs : (∃ thread, argint c 0 = some thread) ∧ ∃ retval, argint c 1 = some retval
  swap
  · have hrun : sysThreadJoin c curproc tables = .fail := by
      unfold sysThreadJoin
      cases h0 : argint c 0 <;> cases h1 : argint c 1 <;> simp_all
    refine iff_of_true (validated_of_fail (congrArg Effect.stores hrun) ?_)
      fun thread retval h0 h1 _ => absurd ⟨⟨thread, h0⟩, retval, h1⟩ hargs
    simp [Call.run, hrun, Effect.fail]
  obtain ⟨⟨thread, h0⟩, retval, h1⟩ := hargs
  have hp : (Call.threadJoin curproc tables).ptr c = some (retval, 4) := by simp [Call.ptr, h1]
  rcases threadJoinPasses_cases curproc thread.toNat tables with ⟨hj, v, hv⟩ | ⟨hn, hno, hret⟩
  · rw [validated_word_iff (w := v) hp (by simp [Call.run, sysThreadJoin, h0, h1, hv])]
    refine ⟨fun hi th rv hth hrv _ => ?_, fun h => h thread retval h0 h1 hj⟩
    cases h1.symm.trans hrv
    exact hi
  · refine iff_of_true (validated_of_fail ?_ ?_) fun th rv hth _ hj => ?_
    · simp [Call.run, sysThreadJoin, h0, h1, hno]
    · simpa [Call.run, sysThreadJoin, h0, h1] using hret
    · cases h0.symm.trans hth
      exact absurd hj hn

/-- Every call by a process below `KERNBASE` stores in the memory of its caller, and fails when its
pointer does not lie there, exactly if the pointers of the two thread calls do. -/
theorem validated_iff (hsz : c.sz < KERNBASE) (call : Call) :
    Validated c call ↔ Checked c call := by
  cases call with
  | read wait input => exact iff_of_true (validated_read hsz wait input) trivial
  | fstat => exact iff_of_true (validated_fstat hsz) trivial
  | pipe pipealloc => exact iff_of_true (validated_pipe hsz pipealloc) trivial
  | threadCreate t curproc kalloc allocuvm => exact validated_threadCreate t curproc kalloc allocuvm
  | threadJoin curproc tables => exact validated_threadJoin curproc tables

/-- A process of one page, with `w` as the first word of its arguments. -/
def onePage (w : UInt32) : Caller where
  sz := 4096
  esp := 4080
  mem a := ((wordBytes w)[(a - 4084).toNat]?).getD 0
  ofile _ := none

/-- `thread_create` by the first process. -/
def firstCreate : Call := .threadCreate ((userinit pinit).getD pinit) 0 true true

theorem validated_iff_onePage : (onePage 4092).sz < KERNBASE ∧
    Validated (onePage 4092) firstCreate := by
  have hsz : (onePage 4092).sz < KERNBASE := by decide
  refine ⟨hsz, (validated_iff hsz firstCreate).mpr fun thread h _ => ?_⟩
  have : argint (onePage 4092) 0 = some 4092 := by decide +kernel
  cases this.symm.trans h
  decide

/-- `thread_create` writes the id of the thread to an address of the kernel. -/
theorem threadCreate_stores_kernel : (onePage 0x80500000).sz < KERNBASE ∧
    firstCreate.ptr (onePage 0x80500000) = some (0x80500000, 4) ∧
    firstCreate.run (onePage 0x80500000) =
      ⟨some 0, [(0x80500000, 1), (0x80500001, 0), (0x80500002, 0), (0x80500003, 0)]⟩ ∧
    ¬ Validated (onePage 0x80500000) firstCreate := by
  have hrun : firstCreate.run (onePage 0x80500000) =
      ⟨some 0, [(0x80500000, 1), (0x80500001, 0), (0x80500002, 0), (0x80500003, 0)]⟩ := by
    decide +kernel
  refine ⟨by decide, by decide +kernel, hrun, fun h => ?_⟩
  have := h.stores (0x80500000, 1) (by rw [hrun]; exact .head _)
  exact absurd this (by decide)

end Xv6.Syscall
