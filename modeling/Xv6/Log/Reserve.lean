import Xv6.Log.Crash

/-! # The reservation of log space

`begin_op` admits an operation if the log has room for it and for all operations that are active, at
`MAXOPBLOCKS` blocks each. It compares with `LOGSIZE`; `log_write` compares with `log.size - 1`,
which is less on a disk made by `mkfs`, and refuses also a block that is in the header already. The
reservation is sound when `begin_op` leaves two more blocks free. -/

namespace Xv6.Log

open Function

variable {L : Layout} {image : Disk} {k : Nat} {p : Fin k} {b : Nat} {a : Act k}

/-! ## The blocks of an operation -/

/-- The log, with the blocks that the last operation of each process has logged. -/
structure Tally (k : Nat) where
  state : State k
  blocks : Fin k → Finset Nat

namespace Tally

/-- What a step adds to the blocks of the operations. -/
def record (t : Tally k) : Act k → Fin k → Finset Nat
  | .beginOp p => update t.blocks p ∅
  | .logAppend p =>
    match t.state.proc p with
    | .logging b => update t.blocks p (insert b (t.blocks p))
    | _ => t.blocks
  | _ => t.blocks

def next (L : Layout) (t : Tally k) (a : Act k) : Option (Tally k) :=
  (t.state.next L a).map fun s => ⟨s, t.record a⟩

/-- The process is about to call `log_write` on block `b`. -/
def Writes (t : Tally k) (p : Fin k) (b : Nat) : Prop :=
  t.state.proc p = .active ∧ ∃ buf ∈ t.state.cache b, buf.writer = some p

/-- The operation of `p` has logged at most `MAXOPBLOCKS` blocks when it logs `b`. -/
def Within (t : Tally k) (p : Fin k) (b : Nat) : Prop :=
  (insert b (t.blocks p)).card ≤ MAXOPBLOCKS

/-- `log_write` panics with "too big a transaction". -/
def TooBig (L : Layout) (t : Tally k) : Prop :=
  t.state.lh.n ≥ LOGSIZE ∨ t.state.lh.n ≥ L.size - 1

end Tally

/-- The file system from a disk image on, with the blocks of the operations. -/
def tallied (L : Layout) (image : Disk) (k : Nat) : LTS (Tally k) (Act k) where
  init t := t = ⟨⟨.boot image [], .readHead⟩, fun _ => ∅⟩
  next := Tally.next L

/-- An operation logs at most `MAXOPBLOCKS` distinct blocks. -/
def Bounded (t : Tally k) : Act k → Prop
  | .logCheck p b => t.Within p b
  | _ => True

/-- An operation begins only if the log has room for two blocks more than are reserved. -/
def Spare (L : Layout) (t : Tally k) : Act k → Prop
  | .beginOp _ =>
    t.state.lh.n + (t.state.outstanding + 1) * MAXOPBLOCKS + 2 ≤ L.size
  | _ => True

variable {t : Tally k}

/-! ## What is left of a reservation -/

/-- The blocks that an operation may still add to the header when it has logged `B`. -/
def left : Op → Finset Nat → Nat
  | .idle, _ => 0
  | .active, B | .logging _, B => MAXOPBLOCKS - B.card

@[simp] theorem left_idle : left .idle B = 0 := rfl

@[simp] theorem left_active : left .active B = MAXOPBLOCKS - B.card := rfl

@[simp] theorem left_logging : left (.logging b) B = MAXOPBLOCKS - B.card := rfl

theorem left_le : left o B ≤ MAXOPBLOCKS := by
  cases o with
  | idle => exact Nat.zero_le _
  | active | logging b => exact Nat.sub_le ..

def leftover (proc : Fin k → Op) (blocks : Fin k → Finset Nat) : Nat :=
  ∑ p, left (proc p) (blocks p)

theorem leftover_update (proc : Fin k → Op) (blocks : Fin k → Finset Nat) (p : Fin k) (o : Op)
    (B : Finset Nat) :
    leftover (update proc p o) (update blocks p B) + left (proc p) (blocks p) =
      leftover proc blocks + left o B := by
  have h := Table.sum_of_eq (f := fun q => left (proc q) (blocks q))
    (g := fun q => left (update proc p o q) (update blocks p B q)) p
    fun q hq => by simp only [update_of_ne hq]
  simpa only [update_self, leftover] using h

/-- The header is empty when recovery and commit end. -/
def Ctl.Erased (c : Ctl) : Prop := c = .recoverErase ∨ c = .erase ∨ c = .finish

/-- What holds between the steps of the operations. -/
structure Reserved (L : Layout) (t : Tally k) : Prop where
  count : (t.state.outstanding : Int) = Table.count (fun o => o ≠ .idle) t.state.proc
  /-- No operation is active during recovery and commit. -/
  calm : t.state.ctl ≠ .ready → ∀ p, t.state.proc p = .idle
  empty : t.state.ctl.Erased → t.state.lh.n = 0
  has : ∀ p, t.state.proc p ≠ .idle → ∀ b ∈ t.blocks p, t.state.lh.Has b
  logging : ∀ p b, t.state.proc p = .logging b → t.Within p b
  room : t.state.ctl = .ready → t.state.lh.n + leftover t.state.proc t.blocks + 2 ≤ L.size

/-- Without an active operation nothing is reserved. -/
theorem Reserved.of_idle (hsize : 2 ≤ L.size) (hidle : ∀ p, t.state.proc p = .idle)
    (ho : t.state.outstanding = 0)
    (he : t.state.ctl.Erased ∨ t.state.ctl = .ready → t.state.lh.n = 0) : Reserved L t where
  count := by
    rw [ho, Table.count_eq_zero fun p => by simp [hidle p]]
    rfl
  calm _ := hidle
  empty h := he (.inl h)
  has p hp := absurd (hidle p) hp
  logging p b hp := by
    rw [hidle p] at hp
    cases hp
  room h := by
    have hleft : leftover t.state.proc t.blocks = 0 :=
      Finset.sum_eq_zero fun p _ => by rw [hidle p, left_idle]
    rw [he (.inr h), hleft]
    exact hsize

theorem Reserved.outstanding (h : Reserved L t) (hidle : ∀ p, t.state.proc p = .idle) :
    t.state.outstanding = 0 := by
  have := h.count
  rw [Table.count_eq_zero fun p => by simp [hidle p]] at this
  exact_mod_cast this

/-- What is left is at most what `begin_op` counts for the active operations. -/
theorem Reserved.leftover_le (h : Reserved L t) :
    leftover t.state.proc t.blocks ≤ t.state.outstanding * MAXOPBLOCKS := by
  have hle : ∀ p, (left (t.state.proc p) (t.blocks p) : Int) ≤
      Table.ind (t.state.proc p ≠ .idle) * MAXOPBLOCKS := by
    intro p
    by_cases hp : t.state.proc p = .idle
    · simp [hp]
    · simpa [hp] using left_le
  have hsum : (leftover t.state.proc t.blocks : Int) ≤ t.state.outstanding * MAXOPBLOCKS := by
    rw [h.count, Table.count, Finset.sum_mul, leftover]
    push_cast
    exact Finset.sum_le_sum fun p _ => hle p
  exact_mod_cast hsum

/-! ## Steps of the operations -/

theorem Reserved.ready (h : Reserved L t) (hp : t.state.proc p ≠ .idle) : t.state.ctl = .ready :=
  of_not_not fun hc => hp (h.calm hc p)

/-- One process goes on with its operation, and the header loses no block. -/
theorem Reserved.setOp {s : State k} (h : Reserved L t) (hr : s.ctl = .ready)
    (hproc : s.proc = update t.state.proc p o)
    (hcount : (s.outstanding : Int) = Table.count (fun o => o ≠ .idle) (update t.state.proc p o))
    (hhas : ∀ c, t.state.lh.Has c → s.lh.Has c) (hown : o ≠ .idle → ∀ c ∈ B, s.lh.Has c)
    (hlog : ∀ c, o = .logging c → (insert c B).card ≤ MAXOPBLOCKS)
    (hroom : s.lh.n + leftover (update t.state.proc p o) (update t.blocks p B) + 2 ≤ L.size) :
    Reserved L ⟨s, update t.blocks p B⟩ := by
  refine ⟨hproc ▸ hcount, fun hc => absurd hr hc, fun he => ?_, fun q hq c hc => ?_,
    fun q c hq => ?_, fun _ => hproc ▸ hroom⟩
  · simp [hr, Ctl.Erased] at he
  · rw [hproc] at hq
    by_cases e : q = p
    · subst e
      simp only [update_self] at hq hc
      exact hown hq c hc
    · simp only [update_of_ne e] at hq hc
      exact hhas c (h.has q hq c hc)
  · rw [hproc] at hq
    by_cases e : q = p
    · subst e
      simp only [Tally.Within, update_self] at hq ⊢
      exact hlog c hq
    · simp only [Tally.Within, update_of_ne e] at hq ⊢
      exact h.logging q c hq

theorem Reserved.beginOp (h : Reserved L t) (hr : t.state.ctl = .ready)
    (hp : t.state.proc p = .idle)
    (hs : t.state.lh.n + (t.state.outstanding + 1) * MAXOPBLOCKS + 2 ≤ L.size) :
    Reserved L ⟨{ t.state with
      outstanding := t.state.outstanding + 1
      proc := update t.state.proc p .active }, update t.blocks p ∅⟩ := by
  refine h.setOp hr rfl ?_ (fun _ hc => hc) (by simp) nofun ?_
  · rw [Table.count_update, ← h.count]
    simp [hp]
  · have hsum := leftover_update t.state.proc t.blocks p .active ∅
    rw [hp, left_idle, left_active, Finset.card_empty] at hsum
    have hle := h.leftover_le
    rw [Nat.add_one_mul] at hs
    dsimp only
    omega

theorem Reserved.logCheck (h : Reserved L t) (hp : t.state.proc p = .active) (hw : t.Within p b) :
    Reserved L
      ⟨{ t.state with proc := update t.state.proc p (.logging b) }, t.blocks⟩ := by
  have hne : t.state.proc p ≠ .idle := by simp [hp]
  have hr := h.ready hne
  rw [← update_eq_self p t.blocks]
  refine h.setOp hr rfl ?_ (fun _ hc => hc) (fun _ => h.has p hne) (fun c hc => ?_) ?_
  · rw [Table.count_update, ← h.count]
    simp [hp]
  · cases hc
    exact hw
  · have hsum := leftover_update t.state.proc t.blocks p (.logging b) (t.blocks p)
    rw [hp, left_active, left_logging] at hsum
    have hroom := h.room hr
    dsimp only
    omega

theorem Header.add_n_le (h : Header) : (h.add b).n ≤ h.n + 1 := by
  simp only [Header.add]
  split <;> omega

theorem Header.add_n_of_has {h : Header} (hb : h.Has b) : (h.add b).n = h.n :=
  if_neg (Header.find_eq_of_has hb).ne

theorem Reserved.logAppend (h : Reserved L t) (hp : t.state.proc p = .logging b) :
    Reserved L ⟨⟨t.state.toStore.logAppend p b, t.state.ctl⟩,
      update t.blocks p (insert b (t.blocks p))⟩ := by
  have hne : t.state.proc p ≠ .idle := by simp [hp]
  have hr := h.ready hne
  refine h.setOp hr rfl ?_ (fun _ hc => hc.add) (fun _ c hc => ?_) nofun ?_
  · rw [Table.count_update, ← h.count]
    simp [hp, Store.logAppend]
  · rcases Finset.mem_insert.mp hc with rfl | hc
    · exact Header.add_has_self
    · exact (h.has p hne c hc).add
  · have hroom := h.room hr
    have hw := h.logging p b hp
    have hsum := leftover_update t.state.proc t.blocks p .active (insert b (t.blocks p))
    rw [hp, left_active, left_logging] at hsum
    simp only [Store.logAppend]
    unfold Tally.Within at hw
    -- a block that the operation has logged is in the header; another one is in its reservation
    by_cases hb : b ∈ t.blocks p
    · rw [Header.add_n_of_has (h.has p hne b hb)]
      rw [Finset.insert_eq_of_mem hb] at hsum ⊢
      omega
    · have := t.state.lh.add_n_le (b := b)
      rw [Finset.card_insert_of_notMem hb] at hsum hw
      omega

theorem Reserved.endOp (hsize : 2 ≤ L.size) (h : Reserved L t) (hp : t.state.proc p = .active) :
    Reserved L ⟨t.state.endOp p, t.blocks⟩ := by
  have hcount : ((t.state.outstanding - 1 : Nat) : Int) =
      Table.count (fun o => o ≠ .idle) (update t.state.proc p .idle) := by
    have hpos := Table.count_pos (p := fun o => decide (o ≠ Op.idle)) (t := t.state.proc) (i := p)
      (by simp [hp])
    have hc := h.count
    rw [Table.count_update]
    simp [hp] at hpos hc ⊢
    omega
  have hr := h.ready (p := p) (by simp [hp])
  unfold State.endOp
  dsimp only
  split
  · next h0 =>
    have hidle : ∀ q, update t.state.proc p .idle q = .idle := by
      intro q
      by_contra hq
      have := Table.count_pos (p := fun o => decide (o ≠ Op.idle)) (decide_eq_true hq)
      omega
    refine .of_idle hsize hidle h0 fun he => ?_
    by_cases hn : t.state.lh.n > 0
    · simp [hn, Ctl.Erased] at he
    · exact Nat.eq_zero_of_not_pos hn
  · rw [← update_eq_self p t.blocks]
    refine h.setOp hr rfl hcount (fun _ hc => hc) (absurd rfl) nofun ?_
    have hsum := leftover_update t.state.proc t.blocks p .idle (t.blocks p)
    have hroom := h.room hr
    rw [left_idle] at hsum
    dsimp only
    omega

/-! ## Steps of recovery and of commit -/

theorem Reserved.sameOps (h : Reserved L t) (hr : SameOps t.state.toStore r) :
    Reserved L ⟨⟨r, t.state.ctl⟩, t.blocks⟩ := by
  obtain ⟨disk, cache, lh, outstanding, committing, proc, committed, current⟩ := r
  obtain ⟨rfl, rfl, rfl, rfl⟩ := hr
  exact ⟨h.count, h.calm, h.empty, h.has, h.logging, h.room⟩

/-- The header is empty when recovery or commit comes to its end. -/
theorem advance_spec {s r : State k} (h : s.advance L = some r)
    (he : s.ctl.Erased → s.lh.n = 0) : r.proc = s.proc ∧ r.outstanding = s.outstanding ∧
      s.ctl ≠ .ready ∧ (r.ctl.Erased ∨ r.ctl = .ready → r.lh.n = 0) := by
  obtain ⟨s, ctl⟩ := s
  cases ctl with
  | readHead =>
    obtain ⟨-, h⟩ := Option.ite_none_right_eq_some.mp h
    obtain ⟨t, ht, rfl⟩ := Option.map_eq_some_iff.mp h
    have hs := SameOps.of_recaches (Recaches.bread ht).1
    exact ⟨hs.proc, hs.outstanding, by simp, by simp [Ctl.Erased]⟩
  | recover tail | install tail =>
    simp only [State.advance] at h
    split at h
    · obtain ⟨u, hu, rfl⟩ := Option.map_eq_some_iff.mp h
      have hs := SameOps.toHome hu
      exact ⟨hs.proc, hs.outstanding, by simp, by simp [Ctl.Erased]⟩
    · cases h
      exact ⟨rfl, rfl, by simp, by simp [Ctl.Erased, Store.clear]⟩
  | writeLog tail =>
    simp only [State.advance] at h
    split at h
    · obtain ⟨u, hu, rfl⟩ := Option.map_eq_some_iff.mp h
      have hs := SameOps.toLog hu
      exact ⟨hs.proc, hs.outstanding, by simp, by simp [Ctl.Erased]⟩
    · cases h
      exact ⟨rfl, rfl, by simp, by simp [Ctl.Erased]⟩
  | recoverErase | erase =>
    obtain ⟨u, hu, rfl⟩ := Option.map_eq_some_iff.mp h
    obtain ⟨hl, ho, -, hp⟩ := SameOps.writeHead hu
    exact ⟨hp, ho, by simp, fun _ => (congrArg Header.n hl).trans (he (by simp [Ctl.Erased]))⟩
  | ready => cases h
  | writeHead =>
    obtain ⟨u, hu, rfl⟩ := Option.map_eq_some_iff.mp h
    have hs := SameOps.writeHead hu
    exact ⟨hs.proc, hs.outstanding, by simp, by simp [Ctl.Erased]⟩
  | finish =>
    cases h
    exact ⟨rfl, rfl, by simp, fun _ => he (by simp [Ctl.Erased])⟩

theorem Reserved.advance {r : State k} (hsize : 2 ≤ L.size) (h : Reserved L t)
    (ha : t.state.advance L = some r) : Reserved L ⟨r, t.blocks⟩ := by
  obtain ⟨hp, ho, hne, he⟩ := advance_spec ha h.empty
  have hidle := h.calm hne
  exact .of_idle hsize (fun p => (congrFun hp p).trans (hidle p))
    (ho.trans (h.outstanding hidle)) he

/-! ## Runs -/

theorem Reserved.next (hsize : 2 ≤ L.size) (hf : Flagged t.state) (h : Reserved L t)
    (hb : Bounded t a) (hs : Spare L t a) (hn : t.next L a = some t') : Reserved L t' := by
  obtain ⟨r, hr, rfl⟩ := Option.map_eq_some_iff.mp hn
  cases a with
  | crash =>
    cases hr
    exact .of_idle hsize (fun _ => rfl) rfl (by simp [Ctl.Erased])
  | advance => exact h.advance hsize hr
  | load b =>
    obtain ⟨u, hu, rfl⟩ := Option.map_eq_some_iff.mp hr
    exact h.sameOps (.of_recaches (Recaches.bread hu).1)
  | evict =>
    obtain ⟨-, ⟨⟩⟩ := Option.ite_none_right_eq_some.mp hr
    exact h.sameOps ⟨rfl, rfl, rfl, rfl⟩
  | modify p b data =>
    obtain ⟨-, hr⟩ := Option.ite_none_right_eq_some.mp hr
    obtain ⟨u, hu, rfl⟩ := Option.map_eq_some_iff.mp hr
    exact h.sameOps (.modify hu)
  | beginOp p =>
    obtain ⟨⟨hrec, hp, hc, -⟩, ⟨⟩⟩ := Option.ite_none_right_eq_some.mp hr
    exact h.beginOp (hf.ready hrec hc) hp hs
  | logCheck p b =>
    obtain ⟨⟨hp, -⟩, ⟨⟩⟩ := Option.ite_none_right_eq_some.mp hr
    exact h.logCheck hp hb
  | logAppend p =>
    simp only [State.next] at hr
    split at hr
    · next b hp =>
      cases hr
      simp only [Tally.record, hp]
      exact h.logAppend hp
    · cases hr
  | endOp p =>
    obtain ⟨⟨hp, -⟩, ⟨⟩⟩ := Option.ite_none_right_eq_some.mp hr
    exact h.endOp hsize hp

theorem reserved_invariant (hsize : 2 ≤ L.size) :
    (tallied L image k).Invariant (fun t a => Bounded t a ∧ Spare L t a)
      fun t => Flagged t.state ∧ Reserved L t where
  init h := by
    cases h
    exact ⟨rfl, .of_idle hsize (fun _ => rfl) rfl (by simp [Ctl.Erased])⟩
  step h hc hn := by
    obtain ⟨r, hr, e⟩ := Option.map_eq_some_iff.mp hn
    exact ⟨e ▸ h.1.next hr, h.2.next hsize h.1 hc.1 hc.2 hn⟩

/-- On a disk with a log of `LOGSIZE` blocks, `log_write` does not panic in the runs in which each
operation logs at most `MAXOPBLOCKS` blocks and begins only while two more blocks than are reserved
are free. -/
theorem not_tooBig (hL : L.size = LOGSIZE)
    (ht : (tallied L image k).ReachedVia (fun t a => Bounded t a ∧ Spare L t a) t)
    (hw : t.Writes p b) : ¬ t.TooBig L := by
  have h := ((reserved_invariant (hL ▸ (by decide : 2 ≤ LOGSIZE))).of_reached ht).2
  have := h.room (h.ready (p := p) (by simp [hw.1]))
  unfold Tally.TooBig
  omega

instance (t : Tally k) : ∀ a, Decidable (Bounded t a)
  | .logCheck p b => inferInstanceAs (Decidable ((insert b (t.blocks p)).card ≤ MAXOPBLOCKS))
  | .crash | .advance | .load _ | .evict _ | .beginOp _ | .modify .. | .logAppend _ | .endOp _ =>
    isTrue trivial

instance (t : Tally k) : ∀ a, Decidable (Spare L t a)
  | .beginOp _ => inferInstanceAs (Decidable (_ ≤ L.size))
  | .crash | .advance | .load _ | .evict _ | .modify .. | .logCheck .. | .logAppend _ | .endOp _ =>
    isTrue trivial

local instance neZero_two : NeZero 2 := ⟨by decide⟩

local instance neZero_three : NeZero 3 := ⟨by decide⟩

/-- Two operations log ten blocks each, and one of them writes a block that it has logged. -/
def fullRun : List (Act 2) := .flatten
  [recoverEmpty, [.beginOp 0, .beginOp 1], (List.range 10).flatMap fun i => write 0 (100 + i),
    (List.range 10).flatMap fun i => write 1 (110 + i), [.modify 1 110 (word 0)]]

theorem not_tooBig_full : ∃ t, (tallied mkfs zeros 2).ReachedVia
    (fun t a => Bounded t a ∧ Spare mkfs t a) t ∧ t.Writes 1 110 ∧ t.state.lh.n = 20 ∧
      ¬ t.TooBig mkfs := by
  obtain ⟨t, ht, hp⟩ := LTS.exists_reachedVia_of_run (M := tallied mkfs zeros 2)
    (C := fun t a => Bounded t a ∧ Spare mkfs t a) fullRun
    (fun t => decide ((t.state.proc 1 = .active ∧ ∃ buf ∈ t.state.cache 110, buf.writer = some 1) ∧
      t.state.lh.n = 20)) rfl (by decide +kernel) (by decide +kernel)
  obtain ⟨hw, hn⟩ := of_decide_eq_true hp
  exact ⟨t, ht, hw, hn, not_tooBig rfl ht hw⟩

/-- Three operations of at most ten blocks each have been admitted, and the 30th block does not fit:
the header takes one of the 30 blocks of the log. -/
def thirtyRun : List (Act 3) := .flatten
  [recoverEmpty, [.beginOp 0, .beginOp 1, .beginOp 2],
    (List.range 10).flatMap fun i => write 0 (100 + i),
    (List.range 10).flatMap fun i => write 1 (110 + i),
    (List.range 9).flatMap fun i => write 2 (120 + i), [.modify 2 129 (word 0)]]

theorem thirtieth_tooBig : ∃ t, (tallied mkfs zeros 3).ReachedVia Bounded t ∧ t.Writes 2 129 ∧
    t.Within 2 129 ∧ t.TooBig mkfs := by
  obtain ⟨t, ht, hp⟩ := LTS.exists_reachedVia_of_run (M := tallied mkfs zeros 3)
    (C := Bounded) thirtyRun
    (fun t => decide ((t.state.proc 2 = .active ∧ ∃ buf ∈ t.state.cache 129, buf.writer = some 2) ∧
      (insert 129 (t.blocks 2)).card ≤ MAXOPBLOCKS ∧ t.state.lh.n ≥ mkfs.size - 1)) rfl
    (by decide +kernel) (by decide +kernel)
  obtain ⟨hw, hc, hn⟩ := of_decide_eq_true hp
  exact ⟨t, ht, hw, hc, .inr hn⟩

end Xv6.Log
