import Xv6.Lib.Transition
import Xv6.Thread.Live
import Xv6.Thread.PgdirInv

/-! # The sizes of threads

Each slot has a field `sz` of its own, although the threads of a process share one address space.
`thread_create` and `growproc` change the size of the main thread, and `thread_create` that of the
new thread: a thread that is there already keeps the old size (`size_stale`). The calls are atomic
here, and any number of threads may be running. -/

namespace Xv6.Thread

variable {t : Ptable} {p q m : Slot}

/-! ## `growproc` -/

def KERNBASE : UInt32 := 0x80000000

def PGROUNDUP (sz : UInt32) : UInt32 := (sz + PGSIZE - 1) &&& ~~~(PGSIZE - 1)

/-- What `allocuvm` returns; `kalloc` tells whether there are pages enough. -/
def allocuvm (oldsz newsz : UInt32) (kalloc : Bool) : UInt32 :=
  if newsz ≥ KERNBASE then 0
  else if newsz < oldsz then oldsz
  else if PGROUNDUP oldsz < newsz ∧ kalloc = false then 0
  else newsz

def deallocuvm (oldsz newsz : UInt32) : UInt32 := if newsz ≥ oldsz then oldsz else newsz

/-- The size that `growproc` computes, `none` where it returns -1. -/
def grownSize (sz : UInt32) (n : Int32) (kalloc : Bool) : Option UInt32 :=
  if n > 0 then
    let sz := allocuvm sz (sz + n.toUInt32) kalloc
    if sz = 0 then none else some sz
  else if n < 0 then
    let sz := deallocuvm sz (sz + n.toUInt32)
    if sz = 0 then none else some sz
  else some sz

/-- `growproc`; `none` is an access through `curproc->main` when it is 0. -/
def growproc (t : Ptable) (curproc : Slot) (n : Int32) (kalloc : Bool) : Option (Int × Ptable) :=
  let main := if (t.proc curproc).tid = 0 then some curproc else (t.proc curproc).main
  main.map fun main =>
    match grownSize (t.proc main).sz n kalloc with
    | none => (-1, t)
    | some sz => (0, t.setProc main { t.proc main with sz := sz })

/-! ## Runs -/

/-- The calls, with what they find of free memory. -/
inductive Request
  | threadCreate (kalloc allocuvm : Bool)
  | sbrk (n : Int32) (kalloc : Bool)
  | fork (kalloc copyuvm : Bool)
  | exec (e : ExecEnd)
  /-- `exit`. A main thread that waits for its threads calls it again when it is woken. -/
  | exit
  deriving DecidableEq, Repr

/-- The table after a call of `p`, `none` after a panic. -/
def Request.serve (t : Ptable) (p : Slot) : Request → Option Ptable
  | .threadCreate kalloc allocuvm => some (Thread.threadCreate t p kalloc allocuvm).tab
  | .sbrk n kalloc => (growproc t p n kalloc).map (·.2)
  | .fork kalloc copyuvm => some (Thread.fork t p kalloc copyuvm).2
  | .exec e => (Thread.exec t p e).map (·.2)
  | .exit => if t.initproc = some p then none else some (Thread.exit t p)

inductive SizeAct
  | dispatch (p : Slot)
  | yield (p : Slot)
  | call (p : Slot) (r : Request)
  deriving DecidableEq, Repr

def sizeNext (t : Ptable) : SizeAct → Option Ptable
  | .dispatch p => if (t.proc p).state = .RUNNABLE then some (dispatch t p) else none
  | .yield p => if (t.proc p).state = .RUNNING then some (yield t p) else none
  | .call p r => if (t.proc p).state = .RUNNING then r.serve t p else none

/-- Atomic calls of running threads, from the end of `userinit`. -/
def calls : LTS Ptable SizeAct where
  init t := userinit pinit = some t
  next := sizeNext

/-! ## Tables that keep their sizes -/

theorem not_live_unused : ¬ Live .UNUSED := by decide

theorem not_live_embryo : ¬ Live .EMBRYO := by decide

theorem not_live_zombie : ¬ Live .ZOMBIE := by decide

/-- Every live thread has the size of its main thread. -/
def Agree (t : Ptable) : Prop :=
  ∀ p m, Live (t.proc p).state → (t.proc p).main = some m → (t.proc p).sz = (t.proc m).sz

/-- From `t` to `u` no size changes, and no slot becomes live or gets another main thread. -/
structure Stays (t u : Ptable) : Prop where
  sz : ∀ q, (u.proc q).sz = (t.proc q).sz
  live : ∀ q, Live (u.proc q).state → Live (t.proc q).state
  main : ∀ q m, (u.proc q).main = some m → Live (u.proc q).state → (t.proc q).main = some m

namespace Stays

theorem refl : Stays t t := ⟨fun _ => rfl, fun _ => id, fun _ _ h _ => h⟩

theorem trans (h : Stays t u) (h' : Stays u t') : Stays t t' where
  sz q := (h'.sz q).trans (h.sz q)
  live q hq := h.live q (h'.live q hq)
  main q m hm hq := h.main q m (h'.main q m hm hq) (h'.live q hq)

theorem agree (h : Stays t u) (ha : Agree t) : Agree u := by
  intro p m hp hm
  rw [h.sz p, h.sz m]
  exact ha p m (h.live p hp) (h.main p m hm hp)

/-- A slot that is written without its size is live only if it was, with the main thread it had. -/
theorem setProc (hsz : v.sz = (t.proc p).sz) (hl : Live v.state → Live (t.proc p).state)
    (hm : Live v.state → v.main = (t.proc p).main ∨ v.main = none) : Stays t (t.setProc p v) where
  sz q := Ptable.forall_setProc (P := fun q v => v.sz = (t.proc q).sz) hsz (fun _ _ => rfl) q
  live q := Ptable.forall_setProc (P := fun q v => Live v.state → Live (t.proc q).state) hl
    (fun _ _ => id) q
  main q m := by
    refine Ptable.forall_setProc
      (P := fun q v => v.main = some m → Live v.state → (t.proc q).main = some m) ?_
      (fun _ _ h _ => h) q
    intro hv hlive
    rcases hm hlive with e | e
    · exact e ▸ hv
    · rw [e] at hv
      cases hv

/-- A slot that is not live is written. -/
theorem setProc_idle (hsz : v.sz = (t.proc p).sz) (hv : ¬ Live v.state) : Stays t (t.setProc p v) :=
  setProc hsz (fun h => absurd h hv) (fun h => absurd h hv)

/-- A slot is written but for its size and its main thread. -/
theorem setProc_same (hsz : v.sz = (t.proc p).sz) (hm : v.main = (t.proc p).main)
    (hl : Live v.state → Live (t.proc p).state) : Stays t (t.setProc p v) :=
  setProc hsz hl fun _ => .inl hm

theorem of_proc (h : u.proc = t.proc) : Stays t u :=
  ⟨fun _ => by rw [h], fun _ => by rw [h]; exact id, fun _ _ => by rw [h]; exact fun e _ => e⟩

theorem of_calm (h : Calm t u) : Stays t u where
  sz := h.sz
  live q hq := by
    rcases h.quiet.woken q id with e | ⟨e, -⟩
    · rwa [e] at hq
    · exact .inl e
  main q m hm _ := (h.quiet.ids q id).main ▸ hm

theorem threadClear : Stays t (threadClear t p) := setProc_idle rfl not_live_unused

theorem clearSubthreads : Stays t (clearSubthreads t p).2 :=
  clearSubthreads_induction refl (fun _ _ hs _ => hs.trans threadClear) fun _ q hs =>
    hs.trans (of_calm (.killed q))

theorem exitRest : Stays t (exitRest t p) := by
  obtain ⟨u, hu, e⟩ := exitRest_calm t p
  rw [e]
  exact (of_calm hu).trans (setProc_idle rfl not_live_zombie)

/-- The caller of `exit` is live as long as it waits for its threads. -/
theorem exit (hp : (t.proc p).state = .RUNNING) : Stays t (exit t p) := by
  unfold Thread.exit
  split
  · have hc : Stays t (Thread.clearSubthreads t p).2 := clearSubthreads
    have hr : Live ((Thread.clearSubthreads t p).2.proc p).state :=
      clearSubthreads_live (.inr (.inr hp))
    split
    · next w hw =>
      rw [hw] at hc
      exact hc.trans exitRest
    · next w hw =>
      rw [hw] at hc hr
      exact hc.trans (setProc_same rfl rfl fun _ => hr)
  · exact exitRest

theorem detach : Stays t (detach t p) := by
  unfold Thread.detach
  split
  · exact setProc rfl id fun _ => .inr rfl
  · exact refl

theorem killThreadsExcept : Stays t (killThreadsExcept t pid p) := by
  refine Table.foldl_inv slots (fun u q hu => hu.trans ?_) refl
  unfold killOne
  split
  · exact refl
  · exact (of_calm .reparent).trans threadClear

theorem allocproc (h : allocproc t kalloc = (o, u)) : Stays t u := by
  unfold Thread.allocproc at h
  split at h
  · cases h
    exact refl
  · next p hp =>
    have he : Stays t (t.setProc p { t.proc p with
        state := .EMBRYO, pid := t.nextpid, tid := 0, main := none, context := .user }) :=
      setProc_idle rfl not_live_embryo
    split at h
    · cases h
      exact he.trans (of_proc rfl)
    · cases h
      apply (he.trans (of_proc (u := { t.setProc p _ with nextpid := t.nextpid + 1 }) rfl)).trans
      exact setProc_idle rfl not_live_unused

end Stays

/-! ## Calls that change a size -/

/-- No live thread has the main thread `m`. -/
def NoThreads (t : Ptable) (m : Slot) : Prop :=
  ∀ q, Live (t.proc q).state → (t.proc q).main ≠ some m

instance (t : Ptable) (m : Slot) : Decidable (NoThreads t m) :=
  inferInstanceAs (Decidable (∀ q, Live (t.proc q).state → (t.proc q).main ≠ some m))

theorem Stays.noThreads (h : Stays t u) (hn : NoThreads t m) : NoThreads u m :=
  fun q hq hm => hn q (h.live q hq) (h.main q m hm hq)

/-- A slot without threads gets another size. -/
theorem Agree.resize (h : Agree t) (hn : NoThreads t m) (hv : v.main = none) :
    Agree (t.setProc m v) := by
  intro p m' hp hm
  have hpm : p ≠ m := by
    rintro rfl
    rw [Ptable.setProc_proc_self, hv] at hm
    cases hm
  rw [Ptable.setProc_proc_of_ne hpm] at hp hm ⊢
  have hmm : m' ≠ m := by
    rintro rfl
    exact hn p hp hm
  rw [Ptable.setProc_proc_of_ne hmm]
  exact h p m' hp hm

/-- A slot that no thread has for its main thread becomes a thread of `m`. -/
theorem Agree.attach (h : Agree t) (hn : NoThreads t np) (hne : m ≠ np) (hm : v.main = some m)
    (hsz : v.sz = (t.proc m).sz) : Agree (t.setProc np v) := by
  intro p m' hp hpm
  by_cases e : p = np
  · subst e
    rw [Ptable.setProc_proc_self, hm] at hpm
    cases hpm
    rw [Ptable.setProc_proc_self, Ptable.setProc_proc_of_ne hne]
    exact hsz
  · rw [Ptable.setProc_proc_of_ne e] at hp hpm ⊢
    have hmm : m' ≠ np := by
      rintro rfl
      exact hn p hp hpm
    rw [Ptable.setProc_proc_of_ne hmm]
    exact h p m' hp hpm

/-- A free slot is nobody's main thread. -/
theorem PgdirInv.noThreads (h : PgdirInv t) (hnp : ¬ t.InUse np) : NoThreads t np := by
  intro q hq hm
  have hu : t.InUse q := by_contra fun hn => not_inUse_not_live hn hq
  exact hnp (h.main q np hu hm).1

theorem Agree.fork (h : Agree t) (hi : PgdirInv t) : Agree (fork t p kalloc copyuvm).2 := by
  unfold Thread.fork
  split
  · next u hu => exact (Stays.allocproc hu).agree h
  · next np u hu =>
    have hs := Stays.allocproc hu
    have ha := allocproc_some hu
    split
    · exact (hs.agree h).resize (hs.noThreads (hi.noThreads ha.free)) ha.main
    · have hf : Stays u (u.setProc np { u.proc np with pgdir := none, state := .UNUSED }) :=
        .setProc_idle rfl not_live_unused
      exact (hs.trans hf).agree h

theorem NoThreads.setProc (h : NoThreads t np) (hv : v.main ≠ some np) :
    NoThreads (t.setProc m v) np :=
  Ptable.forall_setProc (P := fun _ v => Live v.state → v.main ≠ some np) (fun _ => hv)
    fun q _ => h q

/-- A main thread without threads makes one. -/
theorem Agree.threadInit {allocuvm : Bool} (h : Agree t) (hm : NoThreads t m)
    (hnp : NoThreads t np) (hne : m ≠ np) (hmm : (t.proc m).main = none)
    (hl : ¬ Live (t.proc np).state) : Agree (threadInit t m np allocuvm).tab := by
  simp only [Thread.threadInit]
  generalize hv : { t with nextpid := t.nextpid - 1, nexttid := t.nexttid + 1 } = v
  have hv : v.proc = t.proc := hv ▸ rfl
  generalize hw : v.setProc np _ = w
  have hs : Stays t w := by
    refine (Stays.of_proc hv).trans (hw ▸ ?_)
    apply Stays.setProc_idle
    · exact hv ▸ rfl
    · exact hv ▸ hl
  have hwm : w.proc m = t.proc m := by
    rw [← hw, Ptable.setProc_proc_of_ne hne, hv]
  have hwn : (w.proc np).main = some m := by
    rw [← hw, Ptable.setProc_proc_self]
  have hgrow : ∀ sz, Agree (w.setProc m { w.proc m with sz := sz }) := fun sz =>
    (hs.agree h).resize (hs.noThreads hm) (by rw [hwm]; exact hmm)
  have hnone : ∀ sz, NoThreads (w.setProc m { w.proc m with sz := sz }) np := fun sz =>
    (hs.noThreads hnp).setProc (by simp [hwm, hmm])
  cases allocuvm with
  | true =>
    rw [if_pos rfl]
    apply (hgrow ((w.proc m).sz + 2 * PGSIZE)).attach (hnone _) hne
    · rw [Ptable.setProc_proc_of_ne hne.symm]
      exact hwn
    · rfl
  | false =>
    have hidle : ∀ w : Ptable, Stays w (w.setState np .UNUSED) :=
      fun w => .setProc_idle rfl not_live_unused
    exact (hidle _).agree (hgrow _)

/-- The thread that `thread_create` and `growproc` take for the main thread of `p`. -/
def mainOf (t : Ptable) (p : Slot) : Slot := (t.proc p).main.getD p

theorem Agree.threadCreate {kalloc allocuvm : Bool} (h : Agree t) (hi : PgdirInv t)
    (hp : t.InUse p) (hn : kalloc = false ∨ (∀ q, t.InUse q) ∨ NoThreads t (mainOf t p)) :
    Agree (threadCreate t p kalloc allocuvm).tab := by
  unfold Thread.threadCreate
  split
  · next u hu => exact (Stays.allocproc hu).agree h
  · next np u hu =>
    have hs := Stays.allocproc hu
    have ha := allocproc_some hu
    obtain ⟨hm, hmm⟩ := hi.main_getD hp
    have hne : mainOf t p ≠ np := fun e => ha.free (e ▸ hm)
    have hn : NoThreads t (mainOf t p) := by
      rcases hn with rfl | hall | hn
      · exact absurd (congrArg Prod.fst hu) (by simp only [Thread.allocproc]; split <;> nofun)
      · exact absurd (hall np) ha.free
      · exact hn
    apply (hs.agree h).threadInit (hs.noThreads hn) (hs.noThreads (hi.noThreads ha.free)) hne
    · rw [ha.others _ hne]
      exact hmm
    · exact fun hl => not_inUse_not_live ha.free (hs.live np hl)

theorem growproc_main (hi : PgdirInv t) (hp : t.InUse p) :
    (if (t.proc p).tid = 0 then some p else (t.proc p).main) = some (mainOf t p) := by
  unfold mainOf
  have htid := hi.tid p hp
  split
  · next h => rw [htid.mp h, Option.getD_none]
  · next h =>
    cases hm : (t.proc p).main with
    | none => exact absurd (htid.mpr hm) h
    | some m => rfl

theorem growproc_cases (hi : PgdirInv t) (hp : t.InUse p) (h : growproc t p n kalloc = some (r, u))
    :
    u = t ∨ ∃ sz, u = t.setProc (mainOf t p) { t.proc (mainOf t p) with sz := sz } ∧
      (n = 0 → sz = (t.proc (mainOf t p)).sz) := by
  simp only [growproc, growproc_main hi hp, Option.map_some, Option.some.injEq] at h
  split at h
  · cases h
    exact .inl rfl
  · next sz hsz =>
    cases h
    refine .inr ⟨sz, rfl, ?_⟩
    rintro rfl
    exact (Option.some.inj hsz).symm

theorem Agree.growproc (h : Agree t) (hi : PgdirInv t) (hp : t.InUse p)
    (hn : n = 0 ∨ NoThreads t (mainOf t p)) (hg : growproc t p n kalloc = some (r, u)) :
    Agree u := by
  rcases growproc_cases hi hp hg with rfl | ⟨sz, rfl, hsz⟩
  · exact h
  · rcases hn with hz | hn
    · rw [hsz hz]
      exact (Stays.setProc_same rfl rfl id).agree h
    · exact h.resize hn (hi.main_getD hp).2

theorem PgdirInv.growproc (hi : PgdirInv t) (hp : t.InUse p)
    (hg : growproc t p n kalloc = some (r, u)) : PgdirInv u := by
  rcases growproc_cases hi hp hg with rfl | ⟨sz, rfl, -⟩
  · exact hi
  · have hq : Quiet t (t.setProc (mainOf t p) { t.proc (mainOf t p) with sz := sz }) :=
      .setProc ⟨rfl, rfl, rfl, rfl⟩ (.inl rfl)
    exact (Keeps.quiet hi hq).inv

/-- `exec` gives a size to a process that has no other threads. -/
theorem Agree.exec (h : Agree t) (hi : PgdirInv t) (hp : t.InUse p)
    (he : exec t p e = some (r, u)) : Agree u := by
  have hs : Stays t (execKilled t p) := Stays.detach.trans .killThreadsExcept
  have ha : Agree (execKilled t p) := hs.agree h
  change execLoad (execKilled t p) p e = some (r, u) at he
  cases e with
  | early | bad =>
    cases he
    exact ha
  | ok sz =>
    obtain ⟨w, hw, ⟨⟩⟩ := Option.map_eq_some_iff.mp he
    have hpp : (execKilled t p).InUse p := (execKilled_state hi hp (.inl rfl)).unused_iff.mpr hp
    have hmain : ((execKilled t p).proc p).main = none := by
      rcases execKilled_cases hi hp hpp with ⟨-, -, hmain, -⟩ | ⟨hne, -⟩
      · exact hmain
      · exact absurd rfl hne
    have hn : NoThreads (execKilled t p) p := by
      intro q hq hm
      have hiu := hi.shrinks (.execKilled hi hp)
      have hqu : (execKilled t p).InUse q := by_contra fun hn => not_inUse_not_live hn hq
      have hqp : q ≠ p := by
        rintro rfl
        rw [hmain] at hm
        cases hm
      exact execKilled_alone hi hp q hqp hqu (hiu.main q p hqu hm).2.2.symm
    exact (Stays.of_proc (freevm_proc hw)).agree (ha.resize hn hmain)

/-! ## Whole runs -/

/-- The process has no live threads when its size changes: `thread_create` and `sbrk` are made by a
main thread without live threads, but for a `thread_create` that finds no slot or no kernel stack,
and `sbrk(0)`. -/
def SizeKnown (t : Ptable) : SizeAct → Prop
  | .call p (.threadCreate kalloc _) =>
    kalloc = false ∨ (∀ q, t.InUse q) ∨ NoThreads t (mainOf t p)
  | .call p (.sbrk n _) => n = 0 ∨ NoThreads t (mainOf t p)
  | _ => True

structure Sized (t : Ptable) : Prop where
  inv : PgdirInv t
  agree : Agree t

theorem Sized.serve (h : Sized t) (hp : (t.proc p).state = .RUNNING) (hc : SizeKnown t (.call p r))
    (hs : r.serve t p = some u) : Sized u := by
  have hu := inUse_of_running hp
  cases r with
  | threadCreate kalloc allocuvm =>
    cases hs
    exact ⟨(Keeps.threadCreate h.inv hu).inv, h.agree.threadCreate h.inv hu hc⟩
  | sbrk n kalloc =>
    obtain ⟨⟨r, w⟩, hg, rfl⟩ := Option.map_eq_some_iff.mp hs
    exact ⟨h.inv.growproc hu hg, h.agree.growproc h.inv hu hc hg⟩
  | fork kalloc copyuvm =>
    cases hs
    exact ⟨(Keeps.fork h.inv).inv, h.agree.fork h.inv⟩
  | exec e =>
    obtain ⟨⟨r, w⟩, he, rfl⟩ := Option.map_eq_some_iff.mp hs
    exact ⟨(exec_inv h.inv hu he).1, h.agree.exec h.inv hu he⟩
  | exit =>
    simp only [Request.serve, Option.ite_none_left_eq_some, Option.some.injEq] at hs
    obtain ⟨-, rfl⟩ := hs
    exact ⟨(Leaves.exit h.inv hp).inv, (Stays.exit hp).agree h.agree⟩

theorem sized : calls.Invariant SizeKnown Sized where
  init {t} h := by
    refine ⟨PgdirInv.pinit.userinit h, ?_⟩
    unfold calls userinit at h
    split at h
    · cases h
    · next p w hw =>
      cases h
      have ha := allocproc_some hw
      have hn : ∀ np, NoThreads pinit np := fun np q hq => absurd hq not_live_unused
      have hs := Stays.allocproc hw
      have hbase : Agree pinit := fun q m hq => absurd hq not_live_unused
      exact (hs.agree hbase).resize (hs.noThreads (hn p)) ha.main
  step {t a u} h hc hs := by
    cases a with
    | dispatch p =>
      simp only [calls, sizeNext, Option.ite_none_right_eq_some, Option.some.injEq] at hs
      obtain ⟨hp, rfl⟩ := hs
      have hl : Leaves p t (dispatch t p) :=
        .setProc h.inv (by simp [Ptable.InUse, hp]) ⟨rfl, rfl, rfl, rfl⟩ nofun
      have hst : Stays t (dispatch t p) := .setProc_same rfl rfl fun _ => .inr (.inl hp)
      exact ⟨hl.inv, hst.agree h.agree⟩
    | yield p =>
      simp only [calls, sizeNext, Option.ite_none_right_eq_some, Option.some.injEq] at hs
      obtain ⟨hp, rfl⟩ := hs
      have hst : Stays t (yield t p) := .setProc_same rfl rfl fun _ => .inr (.inr hp)
      exact ⟨(Leaves.yield h.inv (inUse_of_running hp)).inv, hst.agree h.agree⟩
    | call p r =>
      simp only [calls, sizeNext, Option.ite_none_right_eq_some] at hs
      exact h.serve hs.1 hc hs.2

/-- In every run in which no process with live threads changes its size, every live thread has the
size of its main thread. -/
theorem sizes_agree (h : calls.ReachedVia SizeKnown t) (hp : Live (t.proc p).state)
    (hm : (t.proc p).main = some m) : (t.proc p).sz = (t.proc m).sz :=
  (sized.of_reached h).agree p m hp hm

instance decidableSizeKnown (t : Ptable) : ∀ a, Decidable (SizeKnown t a)
  | .dispatch _ | .yield _ | .call _ (.fork ..) | .call _ (.exec _) | .call _ .exit =>
    isTrue trivial
  | .call p (.threadCreate kalloc _) => inferInstanceAs
    (Decidable (kalloc = false ∨ (∀ q, t.InUse q) ∨ NoThreads t (mainOf t p)))
  | .call p (.sbrk n _) => inferInstanceAs (Decidable (n = 0 ∨ NoThreads t (mainOf t p)))

def initTable : Ptable := (userinit pinit).get (by decide +kernel)

theorem calls_init : calls.init initTable := (Option.some_get _).symm

/-- init grows, makes a thread, and the thread forks. -/
theorem sizes_agree_grown : ∃ t, calls.ReachedVia SizeKnown t ∧ Live (t.proc 1).state ∧
    (t.proc 1).main = some 0 ∧ (t.proc 0).sz = 16384 ∧ (t.proc 2).sz = 16384 ∧
      (t.proc 1).sz = (t.proc 0).sz := by
  obtain ⟨t, ht, h⟩ := calls.exists_reachedVia_of_run (C := SizeKnown)
    [.dispatch 0, .call 0 (.sbrk 4096 true), .call 0 (.threadCreate true true), .dispatch 1,
      .call 1 (.fork true true)]
    (fun t => decide (Live (t.proc 1).state ∧ (t.proc 1).main = some 0 ∧ (t.proc 0).sz = 16384 ∧
      (t.proc 2).sz = 16384)) calls_init (by decide +kernel) (by decide +kernel)
  obtain ⟨hl, hm, h0, h2⟩ := of_decide_eq_true h
  exact ⟨t, ht, hl, hm, h0, h2, sizes_agree ht hl hm⟩

/-- init makes two threads: the first one does not know of the stack of the second. -/
theorem size_stale : ∃ t, calls.Reached t ∧ Live (t.proc 1).state ∧ (t.proc 1).main = some 0 ∧
    (t.proc 1).sz = 12288 ∧ (t.proc 0).sz = 20480 := by
  obtain ⟨t, ht, h⟩ := calls.exists_reached_of_run
    [.dispatch 0, .call 0 (.threadCreate true true), .call 0 (.threadCreate true true)]
    (fun t => decide (Live (t.proc 1).state ∧ (t.proc 1).main = some 0 ∧ (t.proc 1).sz = 12288 ∧
      (t.proc 0).sz = 20480)) calls_init (by decide +kernel)
  exact ⟨t, ht, of_decide_eq_true h⟩

end Xv6.Thread
