import Xv6.Log.Commit

/-! # Crash atomicity of the log

After a crash at any point and a completed recovery, the blocks outside of the log hold what the
operations of the committed groups wrote, and nothing of later groups, if the operations modify
blocks outside of the log. `log_write` compares `log.lh.n` with the size of the log before it
acquires `log.lock`, so two calls at the same time may add one block too many. On a disk made by
`mkfs` such a group is not committed: all buffers are dirty, and the first `bread` of `commit`
panics. -/

namespace Xv6.Log

open Redo (apply)
open Function

variable {L : Layout} {image : Disk} {k : Nat} {s : Store k} {b : Nat}

/-! ## Steps of the operations -/

section Operations
variable {p : Fin k}

/-- A process changes what it does, and remains active if it is not idle. -/
theorem Ready.setProc (h : Ready L image s) (ho : o ≠ .idle)
    (hl : ∀ b, o = .logging b → ∃ buf ∈ s.cache b, buf.writer = some p) :
    Ready L image { s with
      outstanding := s.outstanding + (if s.proc p = .idle then 1 else 0)
      proc := update s.proc p o } where
  clean := h.clean
  view := ⟨h.view.data, h.view.disk⟩
  settled := ⟨h.settled.empty, h.settled.home⟩
  pins := ⟨h.pins.home, h.pins.inj, h.pins.dirty, h.pins.room⟩
  has := h.has
  holder b q buf hbuf hw := by
    refine ⟨?_, (h.holder b q buf hbuf hw).2⟩
    by_cases e : q = p
    · simpa [e] using ho
    · simpa [e] using (h.holder b q buf hbuf hw).1
  logging q b hq := by
    by_cases e : q = p
    · subst e
      exact hl b (by simpa using hq)
    · exact h.logging q b (by simpa [e] using hq)
  count := by
    rw [Table.count_update, ← h.count]
    by_cases e : s.proc p = .idle <;> simp [e, ho]

theorem Ready.beginOp (h : Ready L image s) (hp : s.proc p = .idle) : Ready L image { s with
      outstanding := s.outstanding + 1, proc := update s.proc p .active } := by
  simpa [hp] using h.setProc (p := p) (o := .active) nofun nofun

theorem Ready.logCheck (h : Ready L image s) (hp : s.proc p = .active)
    (hb : ∃ buf ∈ s.cache b, buf.writer = some p) :
    Ready L image { s with proc := update s.proc p (.logging b) } := by
  have := h.setProc (p := p) (o := .logging b) nofun fun b' e => by cases e; exact hb
  simpa [hp] using this

section Set
variable {t : Store k} {v : Buf k} (hb : (s.cache b).isSome) (hc : t.cache = s.cache.set b v)
  (hd : t.disk = s.disk)
include hc hd

/-- The buffer of a block that is not in `P` changes. -/
theorem Clean.set (h : Clean P s) (hP : ¬ P b) : Clean P t := by
  intro a ha buf hbuf
  rw [hc] at hbuf
  rcases Cache.mem_set.mp hbuf with ⟨rfl, -⟩ | ⟨-, hbuf⟩
  · exact absurd ha hP
  · rw [hd]
    exact h a ha buf hbuf

include hb in
/-- A buffer that is dirty or held has what has been written last. -/
theorem View.set (h : View L image s) (hv : v.dirty = true ∨ v.writer ≠ none)
    (hp : t.pending image = update (s.pending image) b v.data) : View L image t := by
  refine ⟨fun a ha buf hbuf => ?_, fun a ha => ?_⟩ <;> rw [hp]
  · rw [hc] at hbuf
    rcases Cache.mem_set.mp hbuf with ⟨rfl, -, rfl⟩ | ⟨hne, hbuf⟩
    · rw [update_self]
    · rw [update_of_ne hne]
      exact h.data a ha buf hbuf
  · rw [hc]
    by_cases e : a = b
    · subst e
      exact .inr ⟨v, Cache.set_isSome hb, hv⟩
    · rw [update_of_ne e, hd]
      exact (h.disk a ha).imp_right fun ⟨buf, hbuf, hd⟩ =>
        ⟨buf, Cache.mem_set.mpr (.inr ⟨e, hbuf⟩), hd⟩

end Set

/-- A process in `log_write` holds its buffer while that of another process changes. -/
theorem Ready.logging_set {v : Buf k} (h : Ready L image s) (hq : s.proc q = .logging a)
    (hbuf : buf ∈ s.cache b) (hw : buf.writer ≠ some q) :
    ∃ buf ∈ s.cache.set b v a, buf.writer = some q := by
  obtain ⟨buf', hbuf', hwq⟩ := h.logging q a hq
  refine ⟨buf', Cache.mem_set.mpr (.inr ⟨?_, hbuf'⟩), hwq⟩
  rintro rfl
  cases hbuf'.symm.trans hbuf
  exact hw hwq

theorem Ready.modify (h : Ready L image s) (hp : s.proc p = .active) (hb : L.Home b)
    (hbuf₀ : buf₀ ∈ s.cache b) (hw : buf₀.writer = none ∨ buf₀.writer = some p) :
    Ready L image { s with
      cache := s.cache.set b ⟨data, buf₀.dirty, some p⟩
      current := s.current ++ [(b, data)] } := by
  have hpend : apply image (s.committed ++ (s.current ++ [(b, data)])) =
      update (s.pending image) b data := by
    rw [← List.append_assoc, Redo.apply_concat]; rfl
  have hsome : (s.cache b).isSome := by rw [Option.mem_def.mp hbuf₀]; rfl
  have hnew : (⟨data, buf₀.dirty, some p⟩ : Buf k) ∈
      (s.cache.set b ⟨data, buf₀.dirty, some p⟩) b := Cache.set_isSome hsome
  refine ⟨h.clean.set (by rfl) (by rfl) (not_not.mpr hb),
    h.view.set hsome rfl rfl (.inr (Option.some_ne_none p)) hpend,
    ⟨h.settled.empty, h.settled.home⟩, ⟨h.pins.home, h.pins.inj, ?_, h.pins.room⟩, ?_, ?_,
    fun q c hq => h.logging_set hq hbuf₀ ?_, h.count⟩
  · intro i hi
    obtain ⟨buf, hbuf, hd⟩ := h.pins.dirty i hi
    by_cases e : s.lh.block i = b
    · rw [e] at hbuf ⊢
      cases hbuf.symm.trans hbuf₀
      exact ⟨_, hnew, hd⟩
    · exact ⟨buf, Cache.mem_set.mpr (.inr ⟨e, hbuf⟩), hd⟩
  · intro c hc
    rw [Store.pending, hpend]
    by_cases e : c = b
    · subst e
      refine .inr (.inr fun hf => ?_)
      cases hf _ hnew
    · rw [update_of_ne e]
      refine (h.has c hc).imp_right (Or.imp_right fun hf hf' => hf fun buf hbuf => ?_)
      exact hf' buf (Cache.mem_set.mpr (.inr ⟨e, hbuf⟩))
  · intro c q buf hbuf hq
    rcases Cache.mem_set.mp hbuf with ⟨rfl, -, rfl⟩ | ⟨-, hbuf⟩
    · cases hq
      exact ⟨by simp [hp], _, List.mem_append_right _ (.head _), rfl⟩
    · obtain ⟨hi, w, hwm, e⟩ := h.holder c q buf hbuf hq
      exact ⟨hi, w, List.mem_append_left _ hwm, e⟩
  · -- the process is not in `log_write`
    intro hwq
    rcases hw with e | e <;> cases hwq.symm.trans e
    rw [hp] at hq
    cases hq

namespace Header

variable {h : Header}

theorem block_find (hb : h.find b < h.n) : h.block (h.find b) = b := by
  unfold find at hb ⊢
  cases hf : (List.range h.n).find? fun i => h.block i = b with
  | none => simp [hf] at hb
  | some i => simpa using List.find?_some hf

theorem add_has_self : (h.add b).Has b := by
  refine ⟨h.find b, ?_, update_self ..⟩
  have := h.find_le b
  simp only [add]
  split <;> omega

theorem Has.add (hc : h.Has c) : (h.add b).Has c := by
  obtain ⟨i, hi, e⟩ := hc
  by_cases hif : i = h.find b
  · subst hif
    rw [← e, block_find hi]
    exact add_has_self
  · refine ⟨i, ?_, ?_⟩
    · simp only [Header.add]
      split <;> omega
    · simpa only [Header.add, update_of_ne hif] using e

/-- The entries after a block has been added: those there were, and the block. -/
theorem add_block (hi : i < (h.add b).n) : i = h.find b ∧ (h.add b).block i = b ∨
    i ≠ h.find b ∧ i < h.n ∧ (h.add b).block i = h.block i := by
  by_cases e : i = h.find b
  · exact .inl ⟨e, by simp [add, e]⟩
  · refine .inr ⟨e, ?_, by simp [add, e]⟩
    have := h.find_le b
    simp only [add] at hi
    split at hi <;> omega

/-- A block is added to the header once. -/
theorem add_inj (hinj : ∀ i < h.n, ∀ j < h.n, h.block i = h.block j → i = j) :
    ∀ i < (h.add b).n, ∀ j < (h.add b).n, (h.add b).block i = (h.add b).block j → i = j := by
  have hfind : ∀ i, i < h.n → h.block i = b → i = h.find b := fun i hi e => by
    have hlt := find_eq_of_has ⟨i, hi, e⟩
    exact hinj i hi _ hlt (e.trans (block_find hlt).symm)
  intro i hi j hj e
  rcases add_block hi with ⟨ei, hbi⟩ | ⟨-, hin, hbi⟩ <;>
    rcases add_block hj with ⟨ej, hbj⟩ | ⟨-, hjn, hbj⟩ <;> rw [hbi, hbj] at e
  · exact ei.trans ej.symm
  · exact ei.trans (hfind j hjn e.symm).symm
  · exact (hfind i hin e).trans ej.symm
  · exact hinj i hin j hjn e

theorem add_n_le_of_room (hr : h.Has b ∨ h.n < m) (hn : h.n ≤ m) : (h.add b).n ≤ m := by
  simp only [add]
  split
  · next e =>
    rcases hr with hr | hr
    · exact absurd (find_eq_of_has hr) (by omega)
    · omega
  · exact hn

end Header

theorem Ready.logAppend (h : Ready L image s) (hp : s.proc p = .logging b)
    (hr : LOGSIZE ≤ L.size ∨ s.lh.Has b ∨ s.lh.n < L.size - 1) :
    Ready L image (s.logAppend p b) := by
  obtain ⟨buf₀, hbuf₀, hw₀⟩ := h.logging p b hp
  have hb : L.Home b := by
    by_contra hn
    rw [(h.clean b hn buf₀ hbuf₀).2] at hw₀; cases hw₀
  have hdata : s.data b = s.pending image b := h.view.data_eq hb
  have hsome : (s.cache b).isSome := by rw [Option.mem_def.mp hbuf₀]; rfl
  have hnew : (⟨s.data b, true, none⟩ : Buf k) ∈ (s.cache.set b ⟨s.data b, true, none⟩) b :=
    Cache.set_isSome hsome
  unfold Store.logAppend
  refine ⟨h.clean.set (by rfl) (by rfl) (not_not.mpr hb), h.view.set hsome rfl rfl (.inl rfl) ?_,
    ⟨h.settled.empty, h.settled.home⟩, ⟨fun i hi => ?_, Header.add_inj h.pins.inj,
      fun i hi => ?_, ?_⟩, ?_, ?_, ?_, ?_⟩
  · exact hdata ▸ (update_eq_self ..).symm
  · rcases Header.add_block hi with ⟨-, e⟩ | ⟨-, hi, e⟩ <;> rw [e]
    · exact hb
    · exact h.pins.home i hi
  · rcases Header.add_block hi with ⟨-, e⟩ | ⟨-, hi, e⟩ <;> rw [e]
    · exact ⟨_, hnew, rfl⟩
    · by_cases e' : s.lh.block i = b
      · rw [e']
        exact ⟨_, hnew, rfl⟩
      · obtain ⟨buf, hbuf, hd⟩ := h.pins.dirty i hi
        exact ⟨buf, Cache.mem_set.mpr (.inr ⟨e', hbuf⟩), hd⟩
  · rcases hr with hL | hr
    · exact .inl hL
    · exact h.pins.room.imp_right (Header.add_n_le_of_room hr)
  · intro c hc
    by_cases e : c = b
    · subst e
      exact .inr (.inl Header.add_has_self)
    · refine (h.has c hc).imp_right (Or.imp Header.Has.add fun hf hf' => hf fun buf hbuf => ?_)
      exact hf' buf (Cache.mem_set.mpr (.inr ⟨e, hbuf⟩))
  · intro c q buf hbuf hq
    rcases Cache.mem_set.mp hbuf with ⟨-, -, rfl⟩ | ⟨-, hbuf⟩
    · cases hq
    · refine ⟨?_, (h.holder c q buf hbuf hq).2⟩
      by_cases e : q = p
      · simp [e]
      · simpa [e] using (h.holder c q buf hbuf hq).1
  · intro q c hq
    have hqp : q ≠ p := by
      rintro rfl
      simp at hq
    simp only [update_of_ne hqp] at hq
    exact h.logging_set hq hbuf₀ fun hwq => hqp (Option.some.inj (hwq.symm.trans hw₀))
  · rw [Table.count_update, ← h.count]
    simp [hp]

/-- The last operation of a group leaves no operation active and no buffer held. -/
theorem Ready.idle (h : Ready L image s) (hn : s.outstanding = 0) : Idle s := by
  have hidle : ∀ p, s.proc p = .idle := by
    intro p
    by_contra hp
    have hpos := Table.count_pos (p := fun o => decide (o ≠ Op.idle)) (decide_eq_true hp)
    have := h.count
    omega
  refine ⟨hidle, hn, fun b buf hbuf => ?_⟩
  cases hw : buf.writer with
  | none => rfl
  | some p => exact absurd (hidle p) (h.holder b p buf hbuf hw).1

theorem Ready.logged (h : Ready L image s) (hi : Idle s) : Logged L image s where
  settled := h.settled
  home := h.pins.home
  has b hb := (h.has b hb).imp_right fun h => h.resolve_right fun hf => hf (hi.unheld b)

theorem Ready.endOp (h : Ready L image s) (hp : s.proc p = .active)
    (hu : ∀ w ∈ s.current, ∀ buf ∈ s.cache w.1, buf.writer ≠ some p) :
    Ready L image { s with
      outstanding := s.outstanding - 1, proc := update s.proc p .idle } where
  clean := h.clean
  view := ⟨h.view.data, h.view.disk⟩
  settled := ⟨h.settled.empty, h.settled.home⟩
  pins := ⟨h.pins.home, h.pins.inj, h.pins.dirty, h.pins.room⟩
  has := h.has
  holder b q buf hbuf hw := by
    obtain ⟨hq, w, hwm, rfl⟩ := h.holder b q buf hbuf hw
    have hqp : q ≠ p := fun e => hu w hwm buf hbuf (e ▸ hw)
    exact ⟨by simpa [hqp] using hq, w, hwm, rfl⟩
  logging q b hq := by
    by_cases e : q = p
    · simp [e] at hq
    · exact h.logging q b (by simpa [e] using hq)
  count := by
    have hpos := Table.count_pos (p := fun o => decide (o ≠ Op.idle)) (t := s.proc) (i := p)
      (by simp [hp])
    rw [Table.count_update]
    simp only [hp]
    have := h.count
    simp at this hpos ⊢
    omega

theorem LogInv.of_ready (h : Ready L image s) : LogInv L image ⟨s, .ready⟩ :=
  ⟨h.settled.durable, h⟩

theorem LogInv.endOp (h : Ready L image s) (hp : s.proc p = .active)
    (hu : ∀ w ∈ s.current, ∀ buf ∈ s.cache w.1, buf.writer ≠ some p) :
    LogInv L image (State.endOp ⟨s, .ready⟩ p) := by
  have hr := h.endOp hp hu
  have hd := hr.settled.durable
  simp only [State.endOp]
  split
  · next hn =>
    have hi := hr.idle hn
    have hl := hr.logged hi
    have hcom : Committing L image _ := ⟨⟨hi.idle, hi.outstanding, hi.unheld⟩, hr.clean, hr.view⟩
    split
    · exact ⟨⟨hd.fits, hd.recovers⟩,
        ⟨⟨hcom.idle, hcom.outstanding, hcom.unheld⟩, hcom.clean, ⟨hcom.view.data, hcom.view.disk⟩⟩,
        ⟨⟨hl.settled.empty, hl.settled.home⟩, hl.home, hl.has⟩,
        fun _ => ⟨hr.pins.home, hr.pins.inj, hr.pins.dirty, hr.pins.room⟩, absurd rfl, nofun⟩
    · next hz =>
      exact ⟨⟨hd.fits, hd.recovers⟩,
        ⟨⟨hcom.idle, hcom.outstanding, hcom.unheld⟩, hcom.clean, ⟨hcom.view.data, hcom.view.disk⟩⟩,
        ⟨⟨hl.settled.empty, hl.settled.home⟩, hl.home, hl.has⟩, Nat.eq_zero_of_not_pos hz⟩
  · exact ⟨hd, hr⟩

end Operations

/-! ## Runs -/

/-- The operations modify blocks outside of the log only. -/
def OutsideLog (L : Layout) (_ : State k) : Act k → Prop
  | .modify _ b _ => L.Home b
  | _ => True

/-- The operations modify blocks outside of the log only. If the log is smaller than that of `mkfs`,
the bounds that `log_write` has compared with still hold when it adds a block to the header in its
locked section. -/
def Guarded (L : Layout) (s : State k) : Act k → Prop
  | .modify _ b _ => L.Home b
  | .logAppend p => LOGSIZE ≤ L.size ∨ ∀ b, s.proc p = .logging b →
    s.lh.Has b ∨ (s.lh.n < LOGSIZE ∧ s.lh.n < L.size - 1)
  | _ => True

theorem OutsideLog.guarded {s : State k} {a : Act k} (hL : LOGSIZE ≤ L.size)
    (h : OutsideLog L s a) : Guarded L s a := by
  cases a with
  | modify p b data => exact h
  | logAppend p => exact .inl hL
  | _ => trivial

/-- Outside of `ready` no process is in an operation. -/
theorem LogInv.ready {s : State k} {p : Fin k} {o : Op} (h : LogInv L image s) (ho : s.proc p = o)
    (hne : o ≠ .idle) : s.ctl = .ready := by
  obtain ⟨s, ctl⟩ := s
  have hp : s.proc p ≠ .idle := ne_of_eq_of_ne ho hne
  have hph := h.phase
  cases ctl with
  | ready => rfl
  | readHead => exact absurd (hph.idle p) hp
  | recover | recoverErase | writeLog | writeHead | install | erase | finish =>
    exact absurd (hph.1.idle p) hp

theorem LogInv.advance {s r : State k} (h : LogInv L image s) (ha : s.advance L = some r) :
    LogInv L image r := by
  obtain ⟨s, ctl⟩ := s
  cases ctl with
  | readHead => exact h.readHead ha
  | recover tail => exact h.recover ha
  | recoverErase => exact h.recoverErase ha
  | ready => cases ha
  | writeLog tail => exact h.writeLog ha
  | writeHead => exact h.writeHead ha
  | install tail => exact h.install ha
  | erase => exact h.erase ha
  | finish => exact h.finish ha

theorem LogInv.next {s r : State k} {a : Act k} (hf : Flagged s) (h : LogInv L image s)
    (hg : Guarded L s a) (hn : s.next L a = some r) : LogInv L image r := by
  cases a with
  | crash =>
    cases hn
    exact h.durable.crash
  | advance => exact h.advance hn
  | load b =>
    obtain ⟨t, ht, rfl⟩ := Option.map_eq_some_iff.mp hn
    exact h.recaches (Recaches.bread ht).1
  | evict b =>
    obtain ⟨hc, ⟨⟩⟩ := Option.ite_none_right_eq_some.mp hn
    exact h.recaches (.evict hc)
  | beginOp p =>
    obtain ⟨⟨hr, hp, hc, -⟩, e⟩ := Option.ite_none_right_eq_some.mp hn
    have hr := hf.ready hr hc
    obtain ⟨s, ctl⟩ := s
    cases hr; cases e
    exact .of_ready (h.phase.beginOp hp)
  | modify p b data =>
    obtain ⟨⟨hp, hw⟩, e⟩ := Option.ite_none_right_eq_some.mp hn
    obtain ⟨s, ctl⟩ := s
    cases h.ready hp (by simp)
    obtain ⟨u, hu, rfl⟩ := Option.map_eq_some_iff.mp e
    obtain ⟨t, ht, rfl⟩ := Option.map_eq_some_iff.mp hu
    obtain ⟨hr, hs⟩ := Recaches.bread ht
    obtain ⟨c, rfl⟩ := hr.exists_eq
    obtain ⟨buf₀, hbuf₀⟩ := Option.isSome_iff_exists.mp hs
    have hw₀ : buf₀.writer = none ∨ buf₀.writer = some p := by
      rcases hr.old hbuf₀ with hbuf | ⟨-, rfl⟩
      · exact hw buf₀ hbuf
      · exact .inl rfl
    have hbuf₀ : c b = some buf₀ := hbuf₀
    have hready : Ready L image { s with cache := c } := (h.recaches hr).phase
    simp only [hbuf₀, Option.map_some, Option.getD_some]
    exact .of_ready (hready.modify hp hg hbuf₀ hw₀)
  | logCheck p b =>
    obtain ⟨⟨hp, hb, -⟩, e⟩ := Option.ite_none_right_eq_some.mp hn
    obtain ⟨s, ctl⟩ := s
    cases h.ready hp (by simp); cases e
    exact .of_ready (h.phase.logCheck hp hb)
  | logAppend p =>
    simp only [State.next] at hn
    split at hn
    · next b hp =>
      obtain ⟨s, ctl⟩ := s
      cases h.ready hp (by simp); cases hn
      refine .of_ready (h.phase.logAppend hp ?_)
      exact Or.imp_right (fun hg => (hg b hp).imp_right And.right) hg
    · cases hn
  | endOp p =>
    obtain ⟨⟨hp, hu⟩, e⟩ := Option.ite_none_right_eq_some.mp hn
    obtain ⟨s, ctl⟩ := s
    cases h.ready hp (by simp); cases e
    exact .endOp h.phase hp hu

/-- The invariant holds in every run from a disk whose log is empty. -/
theorem logInv_invariant (hd : image L.start 0 = 0) :
    (system L image k).Invariant (Guarded L) fun s => Flagged s ∧ LogInv L image s where
  init h := by
    cases h
    have hs : Settled L image (.boot image [] : Store k) := ⟨hd, fun _ _ => rfl⟩
    exact ⟨rfl, hs.durable.crash⟩
  step h hg hn := ⟨h.1.next hn, h.2.next h.1 hg hn⟩

/-- On a disk made by `mkfs`, after recovery and between any two commits, a block outside of the log
holds what the groups whose header has been written made of it. -/
theorem disk_eq_committed {s : State k} (hL : L.size = LOGSIZE) (hd : image L.start 0 = 0)
    (hs : (system L image k).ReachedVia (OutsideLog L) s) (hr : s.ctl = .ready) :
    ∀ b, L.Home b → s.disk b = apply image s.committed b := by
  have h := ((logInv_invariant hd).of_reached (hs.mono fun _ _ => OutsideLog.guarded hL.ge)).2
  obtain ⟨s, ctl⟩ := s
  cases hr
  exact h.phase.settled.home

instance (s : State k) : ∀ a, Decidable (OutsideLog L s a)
  | .modify _ b _ => inferInstanceAs (Decidable (L.Home b))
  | .crash | .advance | .load _ | .evict _ | .beginOp _ | .logCheck .. | .logAppend _ | .endOp _ =>
    isTrue trivial

def zeros : Disk := fun _ _ => 0

def word (v : Nat) : Block := fun i => if i = 0 then v else 0

/-- The log of a disk made by `mkfs`. -/
def mkfs : Layout := ⟨2, LOGSIZE, by decide⟩

def write (p : Fin k) (b : Nat) : List (Act k) :=
  [.modify p b (word b), .logCheck p b, .logAppend p]

def recoverEmpty : List (Act k) := [.advance, .advance, .advance]

/-- Two operations share a group; the machine stops after the header has been written. -/
def commitRun : List (Act 2) :=
  recoverEmpty ++ ([.beginOp 0, .beginOp 1] : List (Act 2)) ++ write 0 100 ++ write 1 101 ++
    write 1 100 ++
    ([.endOp 0, .endOp 1, .advance, .advance, .advance, .advance, .crash] : List (Act 2)) ++
    List.replicate 5 (Act.advance : Act 2)

theorem disk_eq_committed_crash : ∃ s, (system mkfs zeros 2).ReachedVia (OutsideLog mkfs) s ∧
    s.ctl = .ready ∧ s.committed.length = 3 ∧ s.disk 101 = apply zeros s.committed 101 := by
  obtain ⟨s, hs, hp⟩ := LTS.exists_reachedVia_of_run (M := system mkfs zeros 2)
    (C := OutsideLog mkfs) commitRun (fun s => decide (s.ctl = .ready ∧ s.committed.length = 3)) rfl
    (by decide +kernel) (by decide +kernel)
  obtain ⟨hr, hc⟩ := of_decide_eq_true hp
  exact ⟨s, hs, hr, hc, disk_eq_committed rfl rfl hs hr 101 (by decide)⟩

/-! ## Commit and recovery -/

/-- Recovery and commit have the disk for themselves. -/
theorem LogInv.idle {s : State k} (h : LogInv L image s) (hc : s.ctl ≠ .ready) :
    Idle s.toStore := by
  obtain ⟨s, ctl⟩ := s
  have hp := h.phase
  cases ctl with
  | readHead => exact hp.toIdle
  | recover | recoverErase => exact hp.1.toIdle
  | ready => exact absurd rfl hc
  | writeLog | writeHead | install | erase | finish => exact hp.1.toIdle

/-- During recovery `bread` finds a buffer. -/
theorem Recovering.bread (h : Recovering s) (held : List Nat) (b : Nat) (hh : held.length < NBUF) :
    ∃ c, s.bread held b = some { s with cache := c } := by
  obtain ⟨c, hc⟩ := Cache.bget_isSome (b := b) (v := ⟨s.disk b, false, none⟩) h.unused hh
  exact ⟨c, by rw [Store.bread, hc]; rfl⟩

theorem Recovering.exists_readHead (h : Recovering s) : ∃ u,
    State.advance L ⟨s, .readHead⟩ = some ⟨u, .recover 0⟩ ∧ u.committed = s.committed := by
  obtain ⟨c, hc⟩ := h.bread [] L.start (by decide)
  exact ⟨_, (if_pos (h.unheld L.start)).trans (Option.map_eq_some_iff.mpr ⟨_, hc, rfl⟩), rfl⟩

theorem Recovering.exists_toHome (h : Recovering s) (slot b : Nat) :
    ∃ t, s.toHome slot b = some t ∧ t.lh = s.lh ∧ t.committed = s.committed := by
  obtain ⟨c, hc⟩ := h.bread [] slot (by decide)
  obtain ⟨c', hc'⟩ := (h.recaches (Recaches.bread hc).1).bread [slot] b
    (by simp [NBUF, MAXOPBLOCKS])
  have hb : s.breads slot b = some { s with cache := c' } := by
    rw [Store.breads, if_pos ⟨h.unheld _, h.unheld _⟩, hc]
    exact hc'
  exact ⟨_, Option.map_eq_some_iff.mpr ⟨_, hb, rfl⟩, rfl, rfl⟩

theorem LogInv.recovers {tail : Nat} (h : LogInv L image (⟨s, .recover tail⟩ : State k)) :
    ∃ i t, (system L image k).run ⟨s, .recover tail⟩ (List.replicate i .advance) = some t ∧
      t.ctl = .ready ∧ t.committed = s.committed ∧ LogInv L image t := by
  have hi : Recovering s := h.phase.1
  -- the number of blocks that are still to be copied
  induction hm : s.lh.n - tail generalizing s tail with
  | zero =>
    have hn : ¬ tail < s.lh.n := by omega
    have ha : State.advance L ⟨s, .recover tail⟩ = some ⟨s.clear, .recoverErase⟩ := if_neg hn
    obtain ⟨c, hc⟩ := (show Recovering s.clear from (h.advance ha).phase.1).bread []
      L.start (by decide)
    obtain ⟨t, ht, hc⟩ : ∃ t, s.clear.writeHead L = some t ∧ t.committed = s.committed :=
      ⟨_, (if_pos (hi.unheld L.start)).trans (Option.map_eq_some_iff.mpr ⟨_, hc, rfl⟩), rfl⟩
    have hb : State.advance L ⟨s.clear, .recoverErase⟩ = some ⟨t, .ready⟩ := by
      simp only [State.advance, ht, Option.map_some]
    refine ⟨2, _, ?_, rfl, hc, (h.advance ha).advance hb⟩
    simp only [List.replicate, LTS.run, system, State.next, ha, hb, Option.bind_some]
  | succ m ih =>
    have hn : tail < s.lh.n := by omega
    obtain ⟨u, hu, hl, hc⟩ := hi.exists_toHome (L.slot tail) (s.lh.block tail)
    have ha : State.advance L ⟨s, .recover tail⟩ = some ⟨u, .recover (tail + 1)⟩ := by
      simp only [State.advance, if_pos hn, hu, Option.map_some]
    have h' := h.advance ha
    obtain ⟨i, t, hr, ht, hc', hinv⟩ := ih h' h'.phase.1 (by rw [hl]; omega)
    refine ⟨i + 1, t, ?_, ht, hc'.trans hc, hinv⟩
    simp only [List.replicate, LTS.run, system, State.next, ha, Option.bind_some]
    exact hr

/-- After a crash at any point recovery comes to its end, with what the committed groups have
written and nothing else. -/
theorem recovery_completes {s : State k} (hd : image L.start 0 = 0)
    (hs : (system L image k).ReachedVia (Guarded L) s) : ∃ i t,
      (system L image k).run s (.crash :: List.replicate i .advance) = some t ∧ t.ctl = .ready ∧
        t.committed = s.committed ∧ ∀ b, L.Home b → t.disk b = apply image s.committed b := by
  have h := ((logInv_invariant hd).of_reached hs).2.durable.crash
  obtain ⟨u, ha, hu⟩ := Recovering.exists_readHead (L := L) h.phase
  obtain ⟨i, ⟨t, _⟩, hr, rfl, hc, hinv⟩ := (h.advance ha).recovers
  have hc : t.committed = s.committed := hc.trans hu
  refine ⟨i + 1, ⟨t, .ready⟩, ?_, rfl, hc, fun b hb => ?_⟩
  · simp only [List.replicate, LTS.run, system, State.next, ha, Option.bind_some]
    exact hr
  · rw [← hc]
    exact hinv.phase.settled.home b hb

/-- While the log is written, installed or recovered no process is in an operation or has a buffer
that it has changed; otherwise `log.outstanding` counts those in one. -/
theorem commit_alone {s : State k} (hd : image L.start 0 = 0)
    (hs : (system L image k).ReachedVia (Guarded L) s) :
    (s.ctl ≠ .ready → s.outstanding = 0 ∧ (∀ p, s.proc p = .idle) ∧ ∀ b, s.Free b) ∧
    (s.ctl = .ready → s.outstanding = (Finset.univ.filter fun p => s.proc p ≠ .idle).card) := by
  have h := ((logInv_invariant hd).of_reached hs).2
  refine ⟨fun hc => ?_, fun hc => ?_⟩
  · have hi := h.idle hc
    exact ⟨hi.outstanding, hi.idle, hi.unheld⟩
  · obtain ⟨s, ctl⟩ := s
    cases hc
    have := h.phase.count
    rw [Table.count_eq_card] at this
    simpa using this

/-- The run up to the crash, after the header has been written. -/
theorem exists_installing : ∃ s, (system mkfs zeros 2).ReachedVia (Guarded mkfs) s ∧
    s.ctl = .install 0 := by
  obtain ⟨s, hs, hp⟩ := LTS.exists_reachedVia_of_run (M := system mkfs zeros 2)
    (C := OutsideLog mkfs) (commitRun.take 20) (fun s => decide (s.ctl = .install 0)) rfl
    (by decide +kernel) (by decide +kernel)
  exact ⟨s, hs.mono fun _ _ => OutsideLog.guarded le_rfl, of_decide_eq_true hp⟩

theorem recovery_completes_installing : ∃ s t i, (system mkfs zeros 2).run s
      (.crash :: List.replicate i .advance) = some t ∧ s.ctl = .install 0 ∧ t.ctl = .ready ∧
    t.disk 101 = apply zeros s.committed 101 := by
  obtain ⟨s, hs, hc⟩ := exists_installing
  obtain ⟨i, t, hi, ht, -, hdisk⟩ := recovery_completes rfl hs
  exact ⟨s, t, i, hi, hc, ht, hdisk 101 (by decide)⟩

theorem commit_alone_installing : ∃ s, (system mkfs zeros 2).ReachedVia (Guarded mkfs) s ∧
    s.ctl = .install 0 ∧ s.outstanding = 0 ∧ ∀ p, s.proc p = .idle := by
  obtain ⟨s, hs, hc⟩ := exists_installing
  obtain ⟨ho, hi, -⟩ := (commit_alone rfl hs).1 (by rw [hc]; decide)
  exact ⟨s, hs, hc, ho, hi⟩

end Xv6.Log
