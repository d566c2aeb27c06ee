import Xv6.Bio.Bio
import Xv6.Lib.Table

/-! # The list of buffers and their users

Every buffer stays in the list of `bcache` once, and its `refcnt` is the number of processes that
hold its lock, wait for it or are about to give it back. -/

namespace Xv6.Bio

open Function Table

variable {ι β : Type} {s s' : State ι β} {b b' : Bp} {blockno : Nat}

/-- Every buffer is in the list of `bcache` once. -/
def Listed (d : Dll (Option Bp)) : Prop :=
  ∃ l : List Bp, d.IsRing none (l.map some) ∧ l.Perm (List.finRange NBUF)

namespace Listed

variable {P : Option Bp → Bool}

theorem binit : Listed binit := by
  -- the loop has put in the buffers of `l`, the last one first
  have h : ∀ (l l' : List Bp) (d : Dll (Option Bp)), d.IsRing none (l'.map some) →
      (l.reverse ++ l').Nodup →
      (l.foldl (fun d b => d.insert none (some b)) d).IsRing none ((l.reverse ++ l').map some) := by
    intro l
    induction l with
    | nil => exact fun _ _ hr _ => hr
    | cons b l ih =>
      intro l' d hr hn
      rw [List.reverse_cons, List.append_assoc, List.singleton_append] at hn ⊢
      refine ih (b :: l') _ (hr.insert ?_) hn
      have hb := (List.nodup_cons.mp (List.nodup_append.mp hn).2.1).1
      simpa using hb
  refine ⟨(List.finRange NBUF).reverse, ?_, List.reverse_perm _⟩
  have hr := h (List.finRange NBUF) [] ⟨fun _ => none, fun _ => none⟩
    ⟨by simp, by simp [Dll.Links]⟩ (by simpa using List.nodup_finRange NBUF)
  simpa [Bio.binit] using hr

/-- A buffer moves to the front of the list. -/
theorem move (h : Listed d) (b : Bp) : Listed ((d.remove (some b)).insert none (some b)) := by
  obtain ⟨l, hr, hp⟩ := h
  obtain ⟨l₁, l₂, rfl⟩ := List.append_of_mem (hp.mem_iff.mpr (List.mem_finRange b))
  have hn : (l₁ ++ b :: l₂).Nodup := hp.nodup_iff.mpr (List.nodup_finRange NBUF)
  have hb : b ∉ l₁ ++ l₂ := (List.nodup_middle.mp hn |> List.nodup_cons.mp).1
  rw [List.map_append, List.map_cons] at hr
  have hr := hr.remove
  rw [← List.map_append] at hr
  exact ⟨b :: (l₁ ++ l₂), hr.insert (by simpa using hb), List.perm_middle.symm.trans hp⟩

theorem length_lt {l : List Bp} (hp : l.Perm (List.finRange NBUF)) :
    (l.map some).length < NBUF + 1 := by
  rw [List.length_map, hp.length_eq, List.length_finRange]
  exact Nat.lt_succ_self _

/-- A loop has found a buffer, if there is one. -/
def Finds (P : Option Bp → Bool) : Option Bp → Prop
  | some b => P (some b) = true
  | none => ∀ b, P (some b) = false

theorem finds_of_mem {l : List Bp} (hl : ∀ b, b ∈ l) : Finds P ((l.map some).find? P).join := by
  rw [List.find?_map]
  cases hf : l.find? (P ∘ some) with
  | some b =>
    have hb := List.find?_some hf
    exact hb
  | none =>
    intro b
    simpa using List.find?_eq_none.mp hf b (hl b)

theorem find_next (h : Listed d) :
    Finds P (Dll.find d.next none P (NBUF + 1) (d.next none)).join := by
  obtain ⟨l, hr, hp⟩ := h
  rw [hr.find_next (length_lt hp)]
  exact finds_of_mem fun b => hp.mem_iff.mpr (List.mem_finRange b)

theorem find_prev (h : Listed d) :
    Finds P (Dll.find d.prev none P (NBUF + 1) (d.prev none)).join := by
  obtain ⟨l, hr, hp⟩ := h
  rw [hr.find_prev (length_lt hp), ← List.map_reverse]
  exact finds_of_mem fun b => List.mem_reverse.mpr (hp.mem_iff.mpr (List.mem_finRange b))

theorem cached (h : Listed s.link) : Finds (holdsBlock s.buf blockno) (s.cached blockno) :=
  h.find_next

theorem unused (h : Listed s.link) : Finds (unusedBuf s.buf) s.unused := h.find_prev

end Listed

theorem cached_eq_some (h : Listed s.link) (hb : s.cached blockno = some b) :
    (s.buf b).dev = ROOTDEV ∧ (s.buf b).blockno = blockno := by
  have hf := hb ▸ h.cached
  simpa [Listed.Finds, holdsBlock] using hf

theorem cached_eq_none (h : Listed s.link) (hb : s.cached blockno = none) (b : Bp)
    (hd : (s.buf b).dev = ROOTDEV) : (s.buf b).blockno ≠ blockno := by
  have hf := hb ▸ h.cached
  simpa [holdsBlock, hd] using hf b

theorem unused_eq_some (h : Listed s.link) (hb : s.unused = some b) :
    (s.buf b).refcnt = 0 ∧ (s.buf b).dirty = false := by
  have hf := hb ▸ h.unused
  simpa [Listed.Finds, unusedBuf] using hf

/-! ## The invariant -/

/-- The process is counted in `b->refcnt` though it does not hold the lock of `b`. -/
def Pc.counts (b : Bp) : Pc → Bool
  | .waiting b' _ | .releasing b' => b' = b
  | .idle | .reading _ _ => false

/-- Who uses the buffers. -/
structure UserInv [Fintype ι] (s : State ι β) : Prop where
  listed : Listed s.link
  refcnt : ∀ b, ((s.buf b).refcnt : Int) = ind (s.lock b).isSome + count (Pc.counts b) s.proc
  reading : ∀ p b n, s.proc p = .reading b n → s.lock b = some p

namespace UserInv

variable [Fintype ι]

theorem congr (h : UserInv s) (hlink : s'.link = s.link)
    (hbuf : ∀ b, (s'.buf b).refcnt = (s.buf b).refcnt) (hlock : s'.lock = s.lock)
    (hproc : s'.proc = s.proc) : UserInv s' where
  listed := hlink ▸ h.listed
  refcnt b := by rw [hbuf, hlock, hproc, h.refcnt b]
  reading p b n hp := by
    rw [hproc] at hp
    rw [hlock]
    exact h.reading p b n hp

/-- A buffer changes, but not the number of its users. -/
theorem setBuf (h : UserInv s) (hbuf : s'.buf = update s.buf b v) (hv : v.refcnt = (s.buf b).refcnt)
    (hlink : s'.link = s.link) (hlock : s'.lock = s.lock) (hproc : s'.proc = s.proc) :
    UserInv s' := by
  refine h.congr hlink (fun b' => ?_) hlock hproc
  rw [hbuf]
  by_cases e : b' = b
  · rw [e, update_self, hv]
  · rw [update_of_ne e]

theorem iderw (h : UserInv s) : UserInv (s.iderw b) := by
  unfold State.iderw
  split <;> exact h.setBuf rfl rfl rfl rfl rfl

/-- A buffer without users. -/
theorem free (h : UserInv s) (hb : (s.buf b).refcnt = 0) :
    s.lock b = none ∧ ∀ p, (s.proc p).counts b = false := by
  have hr := h.refcnt b
  have hl := ind_nonneg (s.lock b).isSome
  have hc := count_nonneg (Pc.counts b) s.proc
  rw [hb] at hr
  constructor
  · cases hs : s.lock b with
    | none => rfl
    | some p =>
      rw [hs, Option.isSome_some, ind_true] at hr
      omega
  · intro p
    by_contra hp
    have := count_pos (t := s.proc) (i := p) (by simpa using hp)
    omega

variable [DecidableEq ι] {p : ι}

omit [Fintype ι] in
/-- A process that goes on to a point outside of `bread`. -/
theorem reading_goto (h : ∀ p b n, s.proc p = .reading b n → s.lock b = some p)
    (hpc : ∀ b n, pc ≠ .reading b n) (q : ι) (b : Bp) (n : Nat)
    (hq : (s.goto p pc).proc q = .reading b n) : s.lock b = some q := by
  change update s.proc p _ q = _ at hq
  by_cases e : q = p
  · rw [e, update_self] at hq
    exact absurd hq (hpc b n)
  · rw [update_of_ne e] at hq
    exact h q b n hq

/-- A process enters `bget` for the buffer. -/
theorem enter (h : UserInv s) (hp : s.proc p = .idle) (hv : v.refcnt = (s.buf b).refcnt + 1) :
    UserInv ((s.setBuf b v).goto p (.waiting b n)) where
  listed := h.listed
  refcnt b' := by
    change ((update s.buf b v b').refcnt : Int) =
      ind (s.lock b').isSome + count (Pc.counts b') (update s.proc p (.waiting b n))
    rw [count_update, hp]
    by_cases e : b' = b
    · subst e
      rw [update_self, hv]
      have := h.refcnt b'
      simp only [Pc.counts, decide_true, ind_true, ind_false]
      omega
    · rw [update_of_ne e, h.refcnt b']
      simp [Pc.counts, Ne.symm e]
  reading := reading_goto h.reading nofun

/-- A process takes or gives up a lock, and counts for the buffer otherwise than before. -/
theorem relock (h : UserInv s) (hc : ∀ b', b' ≠ b → pc.counts b' = (s.proc p).counts b')
    (hb : ind v.isSome + ind (pc.counts b) = ind (s.lock b).isSome + ind ((s.proc p).counts b))
    (hpc : ∀ b' n, pc = .reading b' n → b' = b ∧ v = some p) (hl : ∀ q ≠ p, s.lock b ≠ some q) :
    UserInv ((s.setLock b v).goto p pc) where
  listed := h.listed
  refcnt b' := by
    change ((s.buf b').refcnt : Int) = ind (update s.lock b v b').isSome +
      count (Pc.counts b') (update s.proc p pc)
    rw [count_update, h.refcnt b']
    by_cases e : b' = b
    · subst e
      rw [update_self]
      omega
    · rw [update_of_ne e, hc b' e]
      omega
  reading q b' n' hq := by
    change update s.proc p _ q = _ at hq
    change update s.lock b _ b' = _
    by_cases e : q = p
    · rw [e, update_self] at hq
      obtain ⟨rfl, rfl⟩ := hpc b' n' hq
      rw [e, update_self]
    · rw [update_of_ne e] at hq
      have hq := h.reading q b' n' hq
      have hne : b' ≠ b := by
        rintro rfl
        exact hl q e hq
      rw [update_of_ne hne, hq]

theorem acquiresleep (h : UserInv s) (hp : s.proc p = .waiting b n) (hl : s.lock b = none) :
    UserInv ((s.setLock b (some p)).goto p (.reading b n)) := by
  refine h.relock (fun b' e => ?_) (by simp [hp, hl, Pc.counts]) ?_ (by simp [hl])
  · simp [hp, Pc.counts, e.symm]
  · rintro b' n' ⟨⟩
    exact ⟨rfl, rfl⟩

/-- A process that holds the buffer it wanted leaves `bread`. -/
theorem leave (h : UserInv s) (hp : s.proc p = .reading b n) : UserInv (s.goto p .idle) where
  listed := h.listed
  refcnt b' := by
    change ((s.buf b').refcnt : Int) =
      ind (s.lock b').isSome + count (Pc.counts b') (update s.proc p .idle)
    rw [count_update, hp, h.refcnt b']
    simp [Pc.counts]
  reading := reading_goto h.reading nofun

theorem brelse (h : UserInv s) (hp : s.Has p b) :
    UserInv ((s.setLock b none).goto p (.releasing b)) := by
  refine h.relock (fun b' e => ?_) (by simp [hp.1, hp.2, Pc.counts]) nofun fun q e => ?_
  · simp [hp.1, Pc.counts, e.symm]
  · rw [hp.2]
    exact fun hq => e (Option.some.inj hq).symm

theorem release (h : UserInv s) (hp : s.proc p = .releasing b) :
    UserInv ((s.unref b).goto p .idle) := by
  refine ⟨?_, fun b' => ?_, reading_goto (s := s.unref b) (by simpa using h.reading) nofun⟩
  · change Listed (s.unref b).link
    simp only [State.unref]
    split
    · exact h.listed.move b
    · exact h.listed
  · change (((s.unref b).buf b').refcnt : Int) = ind ((s.unref b).lock b').isSome +
      count (Pc.counts b') (update (s.unref b).proc p .idle)
    have hr := h.refcnt b'
    rw [s.unref_lock, s.unref_proc, s.unref_buf, count_update, hp]
    by_cases e : b' = b
    · subst e
      have hpos := count_pos (p := Pc.counts b') (t := s.proc) (i := p) (by simp [hp, Pc.counts])
      have hl := ind_nonneg (s.lock b').isSome
      rw [update_self]
      simp only [Pc.counts, decide_true, ind_true, ind_false]
      omega
    · rw [update_of_ne e, hr]
      simp [Pc.counts, Ne.symm e]

end UserInv

end Xv6.Bio
