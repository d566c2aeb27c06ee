import Xv6.Bio.Users

/-! # The cache and the disk are one array of blocks

A block is in one buffer at most, and what the buffers and the disk hold of it is what was last
written to it: a buffer is recycled only when it has no users and its data is on the disk. -/

namespace Xv6.Bio

open Table

variable {ι β : Type} {s s' : State ι β} {b b' : Bp}

/-- The process is in `bread` for the block, with the buffer `b`. -/
def Pc.wants : Pc → Option (Bp × Nat)
  | .waiting b blockno | .reading b blockno => some (b, blockno)
  | .idle | .releasing _ => none

/-- The data of the buffer is not on the disk yet. -/
def State.Pinned (s : State ι β) (b : Bp) : Prop := (s.buf b).dirty = true ∨ s.touched b = true

/-- The block is in the buffer, or about to be read into it. -/
def State.Caches (s : State ι β) (b : Bp) (blockno : Nat) : Prop :=
  (s.buf b).dev = ROOTDEV ∧ (s.buf b).blockno = blockno

/-- What the buffers hold. -/
structure DataInv (s : State ι β) : Prop where
  unique : ∀ b b' n, s.Caches b n → s.Caches b' n → b = b'
  wants : ∀ p b n, (s.proc p).wants = some (b, n) → s.Caches b n
  held : ∀ p b, s.lock b = some p → (s.buf b).valid = true ∨ ∃ n, s.proc p = .reading b n
  dev : ∀ b, (s.buf b).valid = true → (s.buf b).dev = ROOTDEV
  pinned : ∀ b, s.Pinned b → (s.buf b).valid = true
  touched : ∀ b, s.touched b = true → s.lock b ≠ none
  data : ∀ b, (s.buf b).valid = true → (s.buf b).data = s.recent (s.buf b).blockno
  disk : ∀ n, (∀ b, s.Caches b n → ¬ s.Pinned b) → s.disk n = s.recent n

/-! ## Contents -/

namespace DataInv

/-- A buffer that changes its users at most. -/
def Same (v w : Buf β) : Prop := w = { v with refcnt := w.refcnt }

theorem congr (h : DataInv s) (hbuf : ∀ b, Same (s.buf b) (s'.buf b)) (hdisk : s'.disk = s.disk)
    (hrecent : s'.recent = s.recent) (htouched : s'.touched = s.touched)
    (hwants : ∀ p b n, (s'.proc p).wants = some (b, n) → s.Caches b n)
    (hheld : ∀ p b, s'.lock b = some p → (s.buf b).valid = true ∨ ∃ n, s'.proc p = .reading b n)
    (hlock : ∀ b, s.touched b = true → s'.lock b ≠ none) : DataInv s' := by
  have hc : ∀ b n, s'.Caches b n ↔ s.Caches b n := fun b n => by
    rw [State.Caches, hbuf b]
    rfl
  have hp : ∀ b, s'.Pinned b ↔ s.Pinned b := fun b => by
    rw [State.Pinned, hbuf b, htouched]
    rfl
  have hv : ∀ b, (s'.buf b).valid = (s.buf b).valid := fun b => by rw [hbuf b]
  refine ⟨fun b b' n hb hb' => ?_, fun p b n hp => (hc b n).mpr (hwants p b n hp),
    fun p b hl => ?_, fun b hb => ?_, fun b hb => ?_, fun b hb => ?_, fun b hb => ?_,
    fun n hn => ?_⟩
  · exact h.unique b b' n ((hc b n).mp hb) ((hc b' n).mp hb')
  · rw [hv b]
    exact hheld p b hl
  · rw [hbuf b]
    exact h.dev b (hv b ▸ hb)
  · rw [hv b]
    exact h.pinned b ((hp b).mp hb)
  · exact hlock b (htouched ▸ hb)
  · rw [hbuf b, hrecent]
    exact h.data b (hv b ▸ hb)
  · rw [hdisk, hrecent]
    exact h.disk n fun b hb hpin => hn b ((hc b n).mpr hb) ((hp b).mpr hpin)

/-- A block that no other buffer holds is on the disk as it was last written. -/
theorem disk_eq (h : DataInv s) (hb : s.Caches b n) (hp : ¬ s.Pinned b) : s.disk n = s.recent n :=
  h.disk n fun b' hb' => h.unique b b' n hb hb' ▸ hp

/-- A buffer that holds a block gets the data `v.data`, whose recent contents these become. -/
theorem update (h : DataInv s) (hbuf : s'.buf = Function.update s.buf b v)
    (hdev : (s.buf b).dev = ROOTDEV) (hvalid : v.valid = true) (hvdev : v.dev = ROOTDEV)
    (hblock : v.blockno = (s.buf b).blockno) (hlock : s'.lock = s.lock) (hproc : s'.proc = s.proc)
    (htouched : s'.touched = Function.update s.touched b t)
    (hrecent : s'.recent = Function.update s.recent v.blockno v.data)
    (hdisk : ∀ n, n ≠ v.blockno → s'.disk n = s.disk n)
    (hclean : v.dirty = false → t = false → s'.disk v.blockno = v.data)
    (ht : t = true → s.lock b ≠ none) : DataInv s' := by
  have hself : s'.buf b = v := by rw [hbuf, Function.update_self]
  have hother : ∀ b', b' ≠ b → s'.buf b' = s.buf b' := fun b' e => by
    rw [hbuf, Function.update_of_ne e]
  have hc : ∀ b' n, s'.Caches b' n ↔ s.Caches b' n := fun b' n => by
    by_cases e : b' = b
    · rw [e, State.Caches, hself, hvdev, hblock, State.Caches, hdev]
    · rw [State.Caches, hother b' e]
      rfl
  have hp : ∀ b', b' ≠ b → (s'.Pinned b' ↔ s.Pinned b') := fun b' e => by
    rw [State.Pinned, hother b' e, htouched, Function.update_of_ne e]
    rfl
  have hcb : s.Caches b v.blockno := ⟨hdev, hblock.symm⟩
  constructor
  case unique =>
    exact fun b₁ b₂ n h₁ h₂ => h.unique b₁ b₂ n ((hc _ _).mp h₁) ((hc _ _).mp h₂)
  case wants =>
    intro q b' n hq
    rw [hproc] at hq
    exact (hc b' n).mpr (h.wants q b' n hq)
  case held =>
    intro q b' hl
    rw [hlock] at hl
    rw [hproc]
    by_cases e : b' = b
    · exact .inl (by rw [e, hself, hvalid])
    · rw [hother b' e]
      exact h.held q b' hl
  case dev =>
    intro b' hv
    by_cases e : b' = b
    · rw [e, hself, hvdev]
    · rw [hother b' e] at hv ⊢
      exact h.dev b' hv
  case pinned =>
    intro b' hb'
    by_cases e : b' = b
    · rw [e, hself, hvalid]
    · rw [hother b' e]
      exact h.pinned b' ((hp b' e).mp hb')
  case touched =>
    intro b' hb'
    rw [htouched] at hb'
    rw [hlock]
    by_cases e : b' = b
    · subst e
      rw [Function.update_self] at hb'
      exact ht hb'
    · rw [Function.update_of_ne e] at hb'
      exact h.touched b' hb'
  case data =>
    intro b' hv
    by_cases e : b' = b
    · rw [e, hself, hrecent, Function.update_self]
    · rw [hother b' e] at hv ⊢
      -- two buffers do not hold one block
      have hne : (s.buf b').blockno ≠ v.blockno := fun hn =>
        e (h.unique b' b v.blockno ⟨h.dev b' hv, hn⟩ hcb)
      rw [hrecent, Function.update_of_ne hne]
      exact h.data b' hv
  case disk =>
    intro n hn
    by_cases e : n = v.blockno
    · subst e
      have hb := hn b ((hc b _).mpr hcb)
      rw [State.Pinned, hself, htouched, Function.update_self, not_or] at hb
      rw [hrecent, Function.update_self]
      exact hclean (by simpa using hb.1) (by simpa using hb.2)
    · rw [hrecent, Function.update_of_ne e, hdisk n e]
      refine h.disk n fun b' hb' => ?_
      have hne : b' ≠ b := fun hb => e (by rw [← hb'.2, hb, hblock])
      exact fun hpin => hn b' ((hc b' n).mpr hb') ((hp b' hne).mpr hpin)

section
variable {p : ι}

theorem valid_of_has (h : DataInv s) (hp : s.Has p b) : (s.buf b).valid = true := by
  obtain hv | ⟨n, hn⟩ := h.held p b hp.2
  · exact hv
  · rw [hp.1] at hn
    cases hn

/-- `iderw` reads a block that no buffer holds. -/
theorem read (h : DataInv s) (hb : s.Caches b n) (hv : (s.buf b).valid = false) :
    DataInv (s.iderw b) ∧ ((s.iderw b).buf b).valid = true := by
  have hpin : ¬ s.Pinned b := fun hp => by simp [h.pinned b hp] at hv
  have hclean := not_or.mp hpin
  have hdirty : (s.buf b).dirty = false := by simpa using hclean.1
  have htouched : s.touched b = false := by simpa using hclean.2
  have hdisk : s.disk (s.buf b).blockno = s.recent (s.buf b).blockno := by
    rw [hb.2]
    exact h.disk_eq hb hpin
  rw [State.iderw, if_neg (by simp [hdirty])]
  refine ⟨h.update (t := false) rfl hb.1 rfl hb.1 rfl rfl rfl ?_ ?_ (fun _ _ => rfl)
    (fun _ _ => rfl) nofun, ?_⟩
  · rw [← htouched, Function.update_eq_self]
    rfl
  · change s.recent = Function.update s.recent (s.buf b).blockno (s.disk (s.buf b).blockno)
    rw [hdisk, Function.update_eq_self]
  · change (Function.update s.buf b _ b).valid = true
    rw [Function.update_self]

theorem modify (h : DataInv s) (hp : s.Has p b) (data : β) :
    DataInv { (s.setBuf b { s.buf b with data := data }).setTouched b true with
      recent := Function.update s.recent (s.buf b).blockno data } :=
  have hv := h.valid_of_has hp
  h.update rfl (h.dev b hv) hv (h.dev b hv) rfl rfl rfl rfl rfl (fun _ _ => rfl)
    (fun _ ht => nomatch ht) fun _ => by simp [hp.2]

theorem logWrite (h : DataInv s) (hp : s.Has p b) :
    DataInv ((s.setBuf b { s.buf b with dirty := true }).setTouched b false) := by
  have hv := h.valid_of_has hp
  refine h.update rfl (h.dev b hv) hv (h.dev b hv) rfl rfl rfl rfl ?_ (fun _ _ => rfl)
    (fun hd => nomatch hd) nofun
  change s.recent = Function.update s.recent (s.buf b).blockno (s.buf b).data
  rw [h.data b hv, Function.update_eq_self]

theorem bwrite (h : DataInv s) (hp : s.Has p b) :
    DataInv (((s.setBuf b { s.buf b with dirty := true }).iderw b).setTouched b false) := by
  have hv := h.valid_of_has hp
  have hbuf : ((s.setBuf b { s.buf b with dirty := true }).iderw b) =
      { s.setBuf b { s.buf b with dirty := false, valid := true } with
        disk := Function.update s.disk (s.buf b).blockno (s.buf b).data } := by
    simp [State.iderw, State.setBuf]
  rw [hbuf]
  refine h.update rfl (h.dev b hv) rfl (h.dev b hv) rfl rfl rfl rfl ?_
    (fun n e => Function.update_of_ne e ..) (fun _ _ => Function.update_self ..) (by simp)
  change s.recent = Function.update s.recent (s.buf b).blockno (s.buf b).data
  rw [h.data b hv, Function.update_eq_self]

variable [DecidableEq ι]

theorem wants_goto {P : Bp → Nat → Prop} (h : ∀ q b n, (s.proc q).wants = some (b, n) → P b n)
    (hpc : ∀ b n, pc.wants = some (b, n) → P b n) (q : ι) (b : Bp) (n : Nat)
    (hq : ((s.goto p pc).proc q).wants = some (b, n)) : P b n := by
  change (Function.update s.proc p pc q).wants = _ at hq
  by_cases e : q = p
  · rw [e, Function.update_self] at hq
    exact hpc b n hq
  · rw [Function.update_of_ne e] at hq
    exact h q b n hq

/-- A process leaves a point at which it read no buffer, or one that is valid now. -/
theorem held_goto (h : DataInv s) (hp : ∀ b n, s.proc p = .reading b n → (s.buf b).valid = true)
    (q : ι) (b : Bp) (hl : s.lock b = some q) :
    (s.buf b).valid = true ∨ ∃ n, (s.goto p pc).proc q = .reading b n := by
  change _ ∨ ∃ n, Function.update s.proc p pc q = _
  obtain hv | ⟨n, hn⟩ := h.held q b hl
  · exact .inl hv
  · by_cases e : q = p
    · exact .inl (hp b n (e ▸ hn))
    · exact .inr ⟨n, by rw [Function.update_of_ne e, hn]⟩

/-- A process finds its block in the cache. -/
theorem found (h : DataInv s) (hp : s.proc p = .idle) (hb : s.Caches b n) :
    DataInv ((s.setBuf b { s.buf b with refcnt := r }).goto p (.waiting b n)) := by
  refine h.congr (fun b' => ?_) rfl rfl rfl (wants_goto h.wants ?_)
    (h.held_goto fun _ _ hr => by simp [hp] at hr) h.touched
  · change DataInv.Same _ (Function.update s.buf b _ b')
    by_cases e : b' = b
    · rw [e, Function.update_self]
      rfl
    · rw [Function.update_of_ne e]
      rfl
  · rintro b' n' ⟨⟩
    exact hb

/-- A process takes a buffer that nobody uses for a block that is not in the cache. -/
theorem recycle (h : DataInv s) {n : Nat} (hp : s.proc p = .idle) (hb : s.lock b = none)
    (hfree : ∀ q n, (s.proc q).wants ≠ some (b, n)) (hdirty : (s.buf b).dirty = false)
    (hnone : ∀ b', ¬ s.Caches b' n) :
    DataInv ((s.setBuf b { s.buf b with
      dev := ROOTDEV, blockno := n, valid := false, dirty := false, refcnt := 1 }).goto p
      (.waiting b n)) := by
  have htouched : s.touched b = false := by
    by_contra ht
    exact h.touched b (by simpa using ht) hb
  have hpin : ¬ s.Pinned b := by simp [State.Pinned, hdirty, htouched]
  generalize hs : (s.setBuf b _).goto p _ = s'
  have hself : s'.buf b = { s.buf b with
      dev := ROOTDEV, blockno := n, valid := false, dirty := false, refcnt := 1 } := by
    rw [← hs]
    exact Function.update_self ..
  have hother : ∀ b', b' ≠ b → s'.buf b' = s.buf b' := fun b' e => by
    rw [← hs]
    exact Function.update_of_ne e ..
  have hcb : ∀ n', s'.Caches b n' ↔ n = n' := fun n' => by simp [State.Caches, hself]
  have hc : ∀ b' n', b' ≠ b → (s'.Caches b' n' ↔ s.Caches b' n') := fun b' n' e => by
    rw [State.Caches, hother b' e]
    rfl
  have hp' : ∀ b', s'.Pinned b' → b' ≠ b ∧ s.Pinned b' := fun b' hb' => by
    by_cases e : b' = b
    · subst e
      rw [State.Pinned, hself, ← hs] at hb'
      have ht : s.touched b' = true := hb'.resolve_left nofun
      rw [htouched] at ht
      cases ht
    · rw [State.Pinned, hother b' e, ← hs] at hb'
      exact ⟨e, hb'⟩
  constructor
  case unique =>
    intro b₁ b₂ n' h₁ h₂
    by_cases e₁ : b₁ = b <;> by_cases e₂ : b₂ = b
    · rw [e₁, e₂]
    · subst e₁
      rw [(hcb n').mp h₁ |>.symm, hc b₂ n e₂] at h₂
      exact absurd h₂ (hnone b₂)
    · subst e₂
      rw [(hcb n').mp h₂ |>.symm, hc b₁ n e₁] at h₁
      exact absurd h₁ (hnone b₁)
    · exact h.unique b₁ b₂ n' ((hc b₁ n' e₁).mp h₁) ((hc b₂ n' e₂).mp h₂)
  case wants =>
    rw [← hs]
    refine wants_goto (P := fun b' n' => State.Caches _ b' n') (fun q b' n' hq => ?_) ?_
    · have e : b' ≠ b := by
        rintro rfl
        exact hfree q n' hq
      rw [hs]
      exact (hc b' n' e).mpr (h.wants q b' n' hq)
    · rintro b' n' ⟨⟩
      rw [hs]
      exact (hcb n).mpr rfl
  case held =>
    intro q b' hl
    have hl : s.lock b' = some q := by rw [← hl, ← hs]; rfl
    have e : b' ≠ b := by
      rintro rfl
      rw [hb] at hl
      cases hl
    rw [hother b' e, ← hs]
    exact h.held_goto (fun _ _ hr => by simp [hp] at hr) q b' hl
  case dev =>
    intro b' hv
    by_cases e : b' = b
    · rw [e, hself]
    · rw [hother b' e] at hv ⊢
      exact h.dev b' hv
  case pinned =>
    intro b' hb'
    rw [hother b' (hp' b' hb').1]
    exact h.pinned b' (hp' b' hb').2
  case touched =>
    rw [← hs]
    exact h.touched
  case data =>
    intro b' hv
    by_cases e : b' = b
    · rw [e, hself] at hv
      cases hv
    · rw [hother b' e] at hv ⊢
      rw [h.data b' hv, ← hs]
      rfl
  case disk =>
    intro n' hn'
    rw [← hs]
    refine h.disk n' fun b' hb' hpin' => ?_
    by_cases e : b' = b
    · exact hpin (e ▸ hpin')
    · refine hn' b' ((hc b' n' e).mpr hb') ?_
      rw [State.Pinned, hother b' e, ← hs]
      exact hpin'

theorem acquiresleep (h : DataInv s) (hp : s.proc p = .waiting b n) :
    DataInv ((s.setLock b (some p)).goto p (.reading b n)) := by
  refine h.congr (fun _ => rfl) rfl rfl rfl (wants_goto h.wants ?_) (fun q b' hl => ?_)
    fun b' ht => ?_
  · rintro b' n' ⟨⟩
    exact h.wants p b n (by rw [hp]; rfl)
  · change Function.update s.lock b _ b' = _ at hl
    by_cases e : b' = b
    · rw [e, Function.update_self] at hl
      cases hl
      exact .inr ⟨n, by rw [e]; exact Function.update_self ..⟩
    · rw [Function.update_of_ne e] at hl
      exact h.held_goto (fun _ _ hr => by simp [hp] at hr) q b' hl
  · change Function.update s.lock b _ b' ≠ _
    by_cases e : b' = b
    · rw [e, Function.update_self]
      exact Option.some_ne_none p
    · rw [Function.update_of_ne e]
      exact h.touched b' ht

/-- A process leaves `bread` with a valid buffer. -/
theorem leave (h : DataInv s) {n : Nat} (hp : s.proc p = .reading b n)
    (hv : (s.buf b).valid = true) : DataInv (s.goto p .idle) := by
  refine h.congr (fun _ => rfl) rfl rfl rfl (wants_goto h.wants nofun)
    (h.held_goto fun b' n' hr => ?_) h.touched
  rw [hp] at hr
  cases hr
  exact hv

theorem brelse (h : DataInv s) (hp : s.Has p b) (ht : s.touched b = false) :
    DataInv ((s.setLock b none).goto p (.releasing b)) := by
  refine h.congr (fun _ => rfl) rfl rfl rfl (wants_goto h.wants nofun) (fun q b' hl => ?_)
    fun b' ht' => ?_
  · change Function.update s.lock b _ b' = _ at hl
    by_cases e : b' = b
    · rw [e, Function.update_self] at hl
      cases hl
    · rw [Function.update_of_ne e] at hl
      exact h.held_goto (fun _ _ hr => by simp [hp.1] at hr) q b' hl
  · change Function.update s.lock b _ b' ≠ _
    have e : b' ≠ b := by
      rintro rfl
      rw [ht] at ht'
      cases ht'
    rw [Function.update_of_ne e]
    exact h.touched b' ht'

theorem release (h : DataInv s) (hp : s.proc p = .releasing b) :
    DataInv ((s.unref b).goto p .idle) := by
  refine h.congr (fun b' => ?_) (s.unref_disk b) (s.unref_recent b) (s.unref_touched b)
    (wants_goto (s := s.unref b) (by simpa using h.wants) nofun) (fun q b' hl => ?_)
    fun b' ht => ?_
  · change DataInv.Same _ ((s.unref b).buf b')
    rw [s.unref_buf]
    by_cases e : b' = b
    · rw [e, Function.update_self]
      rfl
    · rw [Function.update_of_ne e]
      rfl
  · change (s.unref b).lock b' = some q at hl
    rw [s.unref_lock] at hl
    have hr : (s.buf b').valid = true ∨ ∃ n, (s.goto p .idle).proc q = .reading b' n :=
      h.held_goto (fun _ _ hr => by simp [hp] at hr) q b' hl
    simpa [State.goto] using hr
  · change (s.unref b).lock b' ≠ none
    rw [s.unref_lock]
    exact h.touched b' ht

end

end DataInv

/-! ## Runs -/

structure Coherent [Fintype ι] (s : State ι β) : Prop where
  user : UserInv s
  data : DataInv s

theorem coherent_boot [Fintype ι] (data : Bp → β) (disk : Nat → β) :
    Coherent (State.boot data disk : State ι β) where
  user := ⟨.binit, fun _ => by simp [State.boot, Pc.counts, count], nofun⟩
  data := {
    unique := fun _ _ _ h => nomatch h.1
    wants := nofun
    held := nofun
    dev := nofun
    pinned := fun _ h => h.elim nofun nofun
    touched := nofun
    data := nofun
    disk := fun _ _ => rfl }

section
variable [Fintype ι] [DecidableEq ι] {p : ι}

theorem Coherent.bget (h : Coherent s) (hp : s.proc p = .idle) (hr : s.bget n = some r) :
    Coherent (r.2.goto p (.waiting r.1 n)) := by
  unfold State.bget at hr
  split at hr
  next b hb =>
    cases hr
    exact ⟨h.user.enter hp rfl, h.data.found hp (cached_eq_some h.user.listed hb)⟩
  next hnone =>
    split at hr
    next b hb =>
      cases hr
      obtain ⟨hzero, hdirty⟩ := unused_eq_some h.user.listed hb
      obtain ⟨hlock, hcounts⟩ := h.user.free hzero
      refine ⟨h.user.enter hp (by rw [hzero]), h.data.recycle hp hlock (fun q n' hq => ?_) hdirty
        fun b' hb' => cached_eq_none h.user.listed hnone b' hb'.1 hb'.2⟩
      -- nobody waits for the buffer, and nobody holds its lock
      cases hpc : s.proc q with
      | idle | releasing _ =>
        rw [hpc] at hq
        cases hq
      | waiting b' n =>
        rw [hpc] at hq
        cases hq
        simpa [hpc, Pc.counts] using hcounts q
      | reading b' n =>
        rw [hpc] at hq
        cases hq
        have hl := h.user.reading q b _ hpc
        rw [hlock] at hl
        cases hl
    next => cases hr

/-- The end of `bread`: the buffer is valid, and the process holds it. -/
theorem Coherent.fill (h : Coherent s) (hp : s.proc p = .reading b n) :
    Coherent ((if (s.buf b).valid then s else s.iderw b).goto p .idle) := by
  cases hv : (s.buf b).valid with
  | true =>
    rw [if_pos rfl]
    exact ⟨h.user.leave hp, h.data.leave hp hv⟩
  | false =>
    rw [if_neg Bool.false_ne_true]
    have hb : s.Caches b n := h.data.wants p b n (by rw [hp]; rfl)
    obtain ⟨hd, hv'⟩ := h.data.read hb hv
    have hu : UserInv (s.iderw b) := h.user.iderw
    have hp' : (s.iderw b).proc p = .reading b n := by rw [s.iderw_proc, hp]
    exact ⟨hu.leave hp', hd.leave hp' hv'⟩

theorem coherent : (cache ι β).Invariant (fun _ _ => True) Coherent where
  init := by
    rintro s ⟨data, disk, rfl⟩
    exact coherent_boot data disk
  step := by
    intro s a s' h _ hn
    cases a with
    | bread p n =>
      simp only [cache, State.next] at hn
      split at hn
      next hp =>
        obtain ⟨r, hr, rfl⟩ := Option.map_eq_some_iff.mp hn
        exact h.bget hp hr
      next => cases hn
    | acquiresleep p =>
      simp only [cache, State.next] at hn
      split at hn
      next b n hp =>
        obtain ⟨hl, ⟨⟩⟩ := Option.ite_none_right_eq_some.mp hn
        exact ⟨h.user.acquiresleep hp hl, h.data.acquiresleep hp⟩
      next => cases hn
    | fill p =>
      simp only [cache, State.next] at hn
      split at hn
      next b n hp =>
        cases hn
        exact h.fill hp
      next => cases hn
    | modify p b data =>
      obtain ⟨hp, ⟨⟩⟩ := Option.ite_none_right_eq_some.mp hn
      exact ⟨h.user.setBuf rfl rfl rfl rfl rfl, h.data.modify hp data⟩
    | logWrite p b =>
      obtain ⟨hp, ⟨⟩⟩ := Option.ite_none_right_eq_some.mp hn
      exact ⟨h.user.setBuf rfl rfl rfl rfl rfl, h.data.logWrite hp⟩
    | bwrite p b =>
      obtain ⟨hp, ⟨⟩⟩ := Option.ite_none_right_eq_some.mp hn
      have hu : UserInv (s.setBuf b { s.buf b with dirty := true }) :=
        h.user.setBuf rfl rfl rfl rfl rfl
      exact ⟨(hu.iderw (b := b)).congr rfl (fun _ => rfl) rfl rfl, h.data.bwrite hp⟩
    | brelse p b =>
      obtain ⟨⟨hp, ht⟩, ⟨⟩⟩ := Option.ite_none_right_eq_some.mp hn
      exact ⟨h.user.brelse hp, h.data.brelse hp ht⟩
    | release p =>
      simp only [cache, State.next] at hn
      split at hn
      next b hp =>
        cases hn
        exact ⟨h.user.release hp, h.data.release hp⟩
      next => cases hn

/-! ## Cache plus disk -/

/-- The contents of a block: those of the buffer that holds it, or those on the disk. -/
def State.contents (s : State ι β) (n : Nat) : β :=
  match (List.finRange NBUF).find? fun b =>
      (s.buf b).valid ∧ (s.buf b).dev = ROOTDEV ∧ (s.buf b).blockno = n with
  | some b => (s.buf b).data
  | none => s.disk n

omit [Fintype ι] [DecidableEq ι] in
theorem DataInv.contents_eq (h : DataInv s) (n : Nat) : s.contents n = s.recent n := by
  unfold State.contents
  split
  next b hb =>
    have hb := List.find?_some hb
    simp only [decide_eq_true_eq] at hb
    rw [h.data b hb.1, hb.2.2]
  next hnone =>
    -- a buffer that is about to be read into is not pinned either
    refine h.disk n fun b hb hpin => ?_
    have := List.find?_eq_none.mp hnone b (List.mem_finRange b)
    exact this (decide_eq_true ⟨h.pinned b hpin, hb.1, hb.2⟩)

/-- In every run of `bread`, changes of buffers, `log_write`, `bwrite` and `brelse`, each buffer is
in the list once, a block is in one buffer at most, cache and disk together hold what was last
written to each block, and that is what `bread` returns. -/
theorem bread_eq_recent (hs : (cache ι β).Reached s) :
    Listed s.link ∧ (∀ b b' n, s.Caches b n → s.Caches b' n → b = b') ∧
    (∀ n, s.contents n = s.recent n) ∧
    ∀ p b n, s.proc p = .reading b n → ∃ s', s.next (.fill p) = some s' ∧ s'.Has p b ∧
      s'.Caches b n ∧ (s'.buf b).data = s.recent n := by
  have h := coherent.of_reached hs
  refine ⟨h.user.listed, h.data.unique, h.data.contents_eq, fun p b n hp => ?_⟩
  have hnext : s.next (.fill p) =
      some ((if (s.buf b).valid then s else s.iderw b).goto p .idle) := by
    simp only [State.next, hp]
  refine ⟨_, hnext, ?_⟩
  have h' := h.fill hp
  have hb : s.Caches b n := h.data.wants p b n (by rw [hp]; rfl)
  have hl := h.user.reading p b n hp
  generalize hs' : (if (s.buf b).valid then s else s.iderw b) = t at h' ⊢
  have ht : t.lock = s.lock ∧ t.recent = s.recent ∧ t.Caches b n := by
    rw [← hs']
    split
    · exact ⟨rfl, rfl, hb⟩
    · refine ⟨s.iderw_lock b, s.iderw_recent b, ?_⟩
      rw [State.Caches, (s.iderw_block b).1, (s.iderw_block b).2]
      exact hb
  have hhas : (t.goto p .idle).Has p b := by
    refine ⟨Function.update_self .., ?_⟩
    change t.lock b = some p
    rw [ht.1, hl]
  refine ⟨hhas, ht.2.2, ?_⟩
  rw [h'.data.data b (h'.data.valid_of_has hhas)]
  change t.recent (t.buf b).blockno = _
  rw [ht.2.1, ht.2.2.2]

/-- `bget` panics if and only if the block is in no buffer and every buffer is dirty, locked, waited
for or about to be released. -/
theorem bget_eq_none_iff (hs : (cache ι β).Reached s) : s.bget n = none ↔ (∀ b, ¬ s.Caches b n) ∧
    ∀ b, (s.buf b).dirty = true ∨ s.lock b ≠ none ∨ ∃ p, (s.proc p).counts b = true := by
  have h := (coherent.of_reached hs).user
  unfold State.bget
  constructor
  · intro hn
    split at hn
    · cases hn
    next hc =>
    split at hn
    · cases hn
    next hu =>
    refine ⟨fun b hb => cached_eq_none h.listed hc b hb.1 hb.2, fun b => ?_⟩
    by_contra hb
    push Not at hb
    have hcount : count (Pc.counts b) s.proc = 0 :=
      count_eq_zero fun p => Bool.not_eq_true _ ▸ hb.2.2 p
    have hr := h.refcnt b
    rw [hb.2.1, hcount] at hr
    have hu := (hu ▸ h.listed.unused) b
    have hz : (s.buf b).refcnt = 0 := by simpa using hr
    simp [unusedBuf, hz, hb.1] at hu
  · rintro ⟨hc, hu⟩
    split
    next b hb => exact absurd (cached_eq_some h.listed hb) (hc b)
    split
    · next b hb =>
      obtain ⟨hz, hd⟩ := unused_eq_some h.listed hb
      obtain ⟨hl, hp⟩ := h.free hz
      simpa [hd, hl, hp] using hu b
    · rfl

end

/-- One process writes 7 to block 5, and another reads it back from the cache. -/
theorem bread_eq_recent_seven : ∃ (s s' : State Bool Nat) (b : Bp), (cache Bool Nat).Reached s ∧
    s.recent 5 = 7 ∧ s.disk 5 = 0 ∧ s.next (.fill false) = some s' ∧ (s'.buf b).data = 7 := by
  obtain ⟨s, hs, hp⟩ := LTS.exists_reached_of_run (M := cache Bool Nat)
    [.bread true 5, .acquiresleep true, .fill true, .modify true 0 7, .logWrite true 0,
      .brelse true 0, .release true, .bread false 5, .acquiresleep false]
    (fun s => s.proc false = .reading 0 5 ∧ s.recent 5 = 7 ∧ s.disk 5 = 0)
    ⟨fun _ => 0, fun _ => 0, rfl⟩ (by decide +kernel)
  simp only [decide_eq_true_eq] at hp
  obtain ⟨s', hs', -, -, hd⟩ := (bread_eq_recent hs).2.2.2 false 0 5 hp.1
  exact ⟨s, s', 0, hs, hp.2.1, hp.2.2, hs', hd.trans hp.2.1⟩

/-- A process writes to the first `k` blocks in a transaction. -/
def logRun (k : Nat) : List (Act Bool Nat) :=
  ((List.finRange NBUF).take k).flatMap fun b : Bp => [.bread true b.val,
    .acquiresleep true, .fill true, .modify true b 7, .logWrite true b, .brelse true b,
    .release true]

/-- With 29 buffers in the log and one that is locked, another block finds no buffer. -/
theorem bget_eq_none_iff_full : ∃ s : State Bool Nat, (cache Bool Nat).Reached s ∧
    s.bget 3 ≠ none ∧ s.bget 40 = none := by
  obtain ⟨s, hs, hp⟩ := LTS.exists_reached_of_run (M := cache Bool Nat)
    (logRun 29 ++ [.bread true 29, .acquiresleep true])
    (fun s => decide (((s.buf 3).dev = ROOTDEV ∧ (s.buf 3).blockno = 3) ∧
      (∀ b, (s.buf b).blockno ≠ 40) ∧ ∀ b, (s.buf b).dirty = true ∨ s.lock b ≠ none))
    ⟨fun _ => 0, fun _ => 0, rfl⟩ (by decide +kernel)
  obtain ⟨hc, hno, hu⟩ := of_decide_eq_true hp
  exact ⟨s, hs, fun h => ((bget_eq_none_iff hs).mp h).1 3 hc,
    (bget_eq_none_iff hs).mpr ⟨fun b hb => hno b hb.2, fun b => (hu b).imp_right .inl⟩⟩

end Xv6.Bio
