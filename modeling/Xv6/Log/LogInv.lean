import Xv6.Lib.Table
import Xv6.Log.Log

/-! # The invariant of the log

What is on the disk and in the buffers at each point of an operation, of a commit and of recovery,
in terms of the writes of the operations in the order in which they were made. -/

namespace Xv6.Log

open Redo (apply Recovers)
open Function

variable {L : Layout} {image : Disk} {k : Nat} {s : Store k} {b : Nat} {P : Nat → Prop}

/-- What the committed groups have written. -/
def Store.stable (s : Store k) (image : Disk) : Disk := apply image s.committed

/-- What all operations have written. -/
def Store.pending (s : Store k) (image : Disk) : Disk := apply image (s.committed ++ s.current)

theorem pending_eq_stable (h : s.current = []) : s.pending image = s.stable image := by
  rw [Store.pending, h, List.append_nil]; rfl

/-! ## Headers -/

namespace Header

variable {h : Header}

/-- The log has room for the header, and its blocks are outside of the log. -/
structure Fits (h : Header) (L : Layout) : Prop where
  room : h.n ≤ L.size - 1
  home : ∀ i < h.n, L.Home (h.block i)

/-- The header that is on the disk. -/
def onDisk (L : Layout) (d : Disk) : Header := decode ⟨0, fun _ => 0⟩ (d L.start)

/-- Two headers with the same entries. -/
structure Same (h h' : Header) : Prop where
  n : h.n = h'.n
  block : ∀ i < h.n, h.block i = h'.block i

/-- The writes that a header stands for. -/
def entries (h : Header) (L : Layout) (d : Disk) : List (Nat × Block) :=
  (List.range h.n).map fun i => (h.block i, d (L.slot i))

theorem Fits.slot_not_home (h : Fits h' L) (hi : i < h'.n) : ¬ L.Home (L.slot i) := by
  have := h.room
  simp only [Layout.Home, Layout.slot]
  omega

theorem start_not_home (L : Layout) : ¬ L.Home L.start := by
  have := L.size_pos
  simp only [Layout.Home]
  omega

theorem Same.entries (h : Same h' h'') (d : Disk) : h'.entries L d = h''.entries L d := by
  simp only [Header.entries, ← h.n]
  refine List.map_congr_left fun i hi => ?_
  rw [h.block i (List.mem_range.mp hi)]

theorem Same.symm (h : Same h' h'') : Same h'' h' :=
  ⟨h.n.symm, fun i hi => (h.block i (h.n ▸ hi)).symm⟩

theorem Same.fits (h : Same h' h'') (hf : Fits h'' L) : Fits h' L :=
  ⟨h.n ▸ hf.room, fun i hi => h.block i hi ▸ hf.home i (h.n ▸ hi)⟩

/-- `read_head` reads what `write_head` wrote. -/
theorem same_decode_encode (h h' : Header) (data : Block) : Same (decode h' (h.encode data)) h where
  n := rfl
  block i hi := by
    have hi : i < h.n := hi
    simp [decode, encode, hi]

theorem same_decode (h h' : Header) (data : Block) : Same (decode h data) (decode h' data) where
  n := rfl
  block i hi := by
    have hi : i < data 0 := hi
    simp [decode, hi]

theorem mem_entries : w ∈ h.entries L d ↔ ∃ i < h.n, w = (h.block i, d (L.slot i)) := by
  simp only [entries, List.mem_map, List.mem_range, eq_comm (a := w)]

/-- The entries that are left at `tail`, one by one. -/
theorem drop_entries (ht : tail < h.n) : (h.entries L d).drop tail =
      (h.block tail, d (L.slot tail)) :: (h.entries L d).drop (tail + 1) := by
  rw [List.drop_eq_getElem_cons (by simpa [entries] using ht)]
  simp [entries]

theorem drop_entries_eq_nil (ht : ¬ tail < h.n) : (h.entries L d).drop tail = [] :=
  List.drop_eq_nil_of_le (by simpa [entries] using ht)

/-- Adding a block to the header. -/
theorem find_le (h : Header) (b : Nat) : h.find b ≤ h.n := by
  unfold find
  cases hf : (List.range h.n).find? fun i => h.block i = b with
  | none => exact le_rfl
  | some i => exact (List.mem_range.mp (List.mem_of_find?_eq_some hf)).le

theorem find_eq_of_has (hb : h.Has b) : h.find b < h.n := by
  obtain ⟨i, hi, e⟩ := hb
  unfold find
  cases hf : (List.range h.n).find? fun i => h.block i = b with
  | none => simpa [e] using List.find?_eq_none.mp hf i (List.mem_range.mpr hi)
  | some j => exact List.mem_range.mp (List.mem_of_find?_eq_some hf)

end Header

/-! ## The buffers -/

/-- The buffers of the blocks in `P` are copies of the disk that nobody holds. -/
def Clean (P : Nat → Prop) (s : Store k) : Prop :=
  ∀ b, P b → ∀ buf ∈ s.cache b, buf.data = s.disk b ∧ buf.writer = none

/-- The buffers of other blocks hold what has been written last, and are not lost before the disk
holds it too. -/
structure View (L : Layout) (image : Disk) (s : Store k) : Prop where
  data : ∀ b, L.Home b → ∀ buf ∈ s.cache b, buf.data = s.pending image b
  disk : ∀ b, L.Home b → s.disk b = s.pending image b ∨
    ∃ buf ∈ s.cache b, buf.dirty = true ∨ buf.writer ≠ none

def Unheld (s : Store k) : Prop := ∀ b, s.Free b

theorem data_eq_disk (h : ∀ buf ∈ s.cache b, buf.data = s.disk b) : s.data b = s.disk b := by
  unfold Store.data
  cases hb : s.cache b with
  | none => rfl
  | some buf => exact h buf (by simp [hb])

theorem View.data_eq (h : View L image s) (hb : L.Home b) : s.data b = s.pending image b := by
  unfold Store.data
  cases hc : s.cache b with
  | none =>
    refine (h.disk b hb).resolve_right fun ⟨buf, hbuf, _⟩ => ?_
    simp [hc] at hbuf
  | some buf => exact h.data b hb buf (by simp [hc])

theorem Clean.data_eq (h : Clean P s) (hb : P b) : s.data b = s.disk b :=
  data_eq_disk fun buf hbuf => (h b hb buf hbuf).1

namespace Cache

variable {c c' : Cache k} {v buf : Buf k} {a : Nat} {held : List Nat}

theorem mem_set : buf ∈ c.set b v a ↔ a = b ∧ (c b).isSome ∧ buf = v ∨ a ≠ b ∧ buf ∈ c a := by
  unfold set
  split
  · next h =>
    by_cases e : a = b
    · simp [e, h, eq_comm]
    · simp [e]
  · next h =>
    by_cases e : a = b
    · simp [e, Option.not_isSome_iff_eq_none.mp h]
    · simp [e]

theorem set_isSome (h : (c b).isSome) : (c.set b v) b = some v := by
  simp [set, h]

theorem insert_apply (hb : c b = none) (hl : c.blocks.length < NBUF) :
    (c.insert b v) a = if a = b then some v else c a := by
  rw [insert, dif_pos ⟨hb, hl⟩]
  exact update_apply ..

/-- When a buffer has been given up there is room for another one. -/
theorem length_drop_lt (h : a ∈ c.blocks) : (c.drop a).blocks.length < NBUF := by
  have := List.length_pos_of_mem h
  have := c.length_le
  simp only [drop, List.length_erase_of_mem h]
  omega

/-- A buffer that is kept is as before, one that is recycled was unused. -/
theorem bget_some (h : c.bget held b v = some c') : (c' b).isSome ∧ ∀ a, c' a = c a ∨
    c.Unused a ∧ ∀ buf ∈ c' a, a = b ∧ buf = v := by
  unfold bget at h
  split at h
  · next hb =>
    cases h
    exact ⟨hb, fun a => .inl rfl⟩
  next hb =>
  have hb : c b = none := Option.not_isSome_iff_eq_none.mp hb
  have hnew : c.Unused b := by simp [Unused, hb]
  split at h
  · next hl =>
    cases h
    refine ⟨by simp [insert_apply hb hl], fun a => ?_⟩
    rw [insert_apply hb hl]
    by_cases e : a = b
    · subst e
      exact .inr ⟨hnew, by simp⟩
    · simp [e]
  · obtain ⟨x, hx, rfl⟩ := Option.map_eq_some_iff.mp h
    have hmem := List.mem_of_find?_eq_some hx
    have hu : c.Unused x := by
      have := List.find?_some hx
      exact (of_decide_eq_true this).2
    have hd : (c.drop x) b = none := by
      have e : b ≠ x := by
        rintro rfl
        simp [c.mem, hb] at hmem
      simp [drop, e, hb]
    have hl := length_drop_lt hmem
    refine ⟨by simp [insert_apply hd hl], fun a => ?_⟩
    rw [insert_apply hd hl]
    by_cases e : a = b
    · subst e
      exact .inr ⟨hnew, by simp⟩
    · by_cases ex : a = x
      · subst ex
        exact .inr ⟨hu, by simp [e, drop]⟩
      · exact .inl (by simp [e, ex, drop])

/-- `bget` finds a buffer if the caller has some of them and the others are unused. -/
theorem bget_isSome (hu : ∀ a, c.Unused a) (hh : held.length < NBUF) :
    ∃ c', c.bget held b v = some c' := by
  unfold bget
  split
  · exact ⟨_, rfl⟩
  split
  · exact ⟨_, rfl⟩
  next hl =>
  obtain ⟨a, ha, hn⟩ : ∃ a ∈ c.blocks, a ∉ held := by
    by_contra! hsub
    have := (c.nodup.subperm hsub).length_le
    omega
  have hfind : (c.blocks.find? fun a => a ∉ held ∧ c.Unused a).isSome :=
    List.find?_isSome.mpr ⟨a, ha, decide_eq_true ⟨hn, hu a⟩⟩
  obtain ⟨x, hx⟩ := Option.isSome_iff_exists.mp hfind
  exact ⟨_, by rw [hx]; rfl⟩

/-- It finds none if `NBUF` other blocks are in buffers that are not unused. -/
theorem bget_none {l : List Nat} (hn : l.Nodup) (hlen : NBUF ≤ l.length)
    (hl : ∀ a ∈ l, ∃ buf ∈ c a, buf.dirty = true) (hb : b ∉ l) : c.bget held b v = none := by
  have hsub : l ⊆ c.blocks := by
    intro a ha
    obtain ⟨buf, hbuf, -⟩ := hl a ha
    simp [c.mem, Option.mem_def.mp hbuf]
  have hperm := (hn.subperm hsub).perm_of_length_le (c.length_le.trans hlen)
  have hnone : ¬ (c b).isSome := fun h => hb (hperm.mem_iff.mpr ((c.mem b).mpr h))
  have hfull : ¬ c.blocks.length < NBUF := by
    rw [← hperm.length_eq]
    omega
  rw [bget, if_neg hnone, if_neg hfull, Option.map_eq_none_iff, List.find?_eq_none]
  intro a ha hu
  obtain ⟨buf, hbuf, hd⟩ := hl a (hperm.mem_iff.mpr ha)
  rw [((of_decide_eq_true hu).2 buf hbuf).1] at hd
  cases hd

end Cache

/-- The cache reads blocks and gives up buffers that are neither dirty nor held. -/
structure Recaches (s s' : Store k) : Prop where
  eq : s' = { s with cache := s'.cache }
  same : ∀ b, s'.cache b = s.cache b ∨
    s.cache.Unused b ∧ ∀ buf ∈ s'.cache b, buf = ⟨s.disk b, false, none⟩

theorem Recaches.exists_eq (h : Recaches s s') : ∃ c, s' = { s with cache := c } := ⟨_, h.eq⟩

theorem Recaches.old (h : Recaches s s') (hb : buf ∈ s'.cache b) :
    buf ∈ s.cache b ∨ s.cache.Unused b ∧ buf = ⟨s.disk b, false, none⟩ := by
  rcases h.same b with e | ⟨hu, hf⟩
  · exact .inl (e ▸ hb)
  · exact .inr ⟨hu, hf buf hb⟩

theorem Recaches.kept (h : Recaches s s') (hb : buf ∈ s.cache b)
    (hd : buf.dirty = true ∨ buf.writer ≠ none) : buf ∈ s'.cache b := by
  rcases h.same b with e | ⟨hu, -⟩
  · exact e ▸ hb
  · simp [hu buf hb] at hd

theorem Recaches.trans (h : Recaches s t) (h' : Recaches t u) : Recaches s u := by
  refine ⟨by rw [h'.eq, h.eq], fun b => ?_⟩
  have hd : t.disk = s.disk := by rw [h.eq]
  rcases h'.same b with e' | ⟨hu', hf'⟩
  · rw [e']
    exact h.same b
  · rw [hd] at hf'
    rcases h.same b with e | ⟨hu, -⟩
    · refine .inr ⟨?_, hf'⟩
      rwa [Cache.Unused, e] at hu'
    · exact .inr ⟨hu, hf'⟩

theorem Recaches.bread (h : s.bread held b = some s') : Recaches s s' ∧ (s'.cache b).isSome := by
  obtain ⟨c, hc, rfl⟩ := Option.map_eq_some_iff.mp h
  obtain ⟨hb, hsame⟩ := Cache.bget_some hc
  refine ⟨⟨rfl, fun a => (hsame a).imp_right fun ⟨hu, hf⟩ => ⟨hu, fun buf hbuf => ?_⟩⟩, hb⟩
  obtain ⟨rfl, rfl⟩ := hf buf hbuf
  rfl

theorem Recaches.evict (h : s.cache.Unused a) :
    Recaches s { s with cache := s.cache.drop a } := by
  refine ⟨rfl, fun b => ?_⟩
  by_cases e : b = a
  · subst e
    exact .inr ⟨h, by simp [Cache.drop]⟩
  · exact .inl (by simp [Cache.drop, e])

theorem Recaches.breads (h : s.breads slot b = some s') : Recaches s s' := by
  obtain ⟨-, h⟩ := Option.ite_none_right_eq_some.mp h
  obtain ⟨t, ht, h⟩ := Option.bind_eq_some_iff.mp h
  exact (bread ht).1.trans (bread h).1

theorem Clean.recaches (h : Clean P s) (hr : Recaches s s') : Clean P s' := by
  intro b hb buf hbuf
  have hd : s'.disk = s.disk := by rw [hr.eq]
  rcases hr.old hbuf with hbuf | ⟨-, rfl⟩
  · exact hd ▸ h b hb buf hbuf
  · exact ⟨congrFun hd.symm b, rfl⟩

theorem View.recaches (h : View L image s) (hr : Recaches s s') : View L image s' := by
  have hd : s'.disk = s.disk := by rw [hr.eq]
  have hp : s'.pending image = s.pending image := by rw [hr.eq]; rfl
  refine ⟨fun b hb buf hbuf => ?_, fun b hb => ?_⟩
  · rw [hp]
    rcases hr.old hbuf with hbuf | ⟨hu, rfl⟩
    · exact h.data b hb buf hbuf
    · refine (h.disk b hb).resolve_right fun ⟨buf, hbuf, hd⟩ => ?_
      simp [hu buf hbuf] at hd
  · rw [hp, hd]
    exact (h.disk b hb).imp_right fun ⟨buf, hbuf, hd⟩ => ⟨buf, hr.kept hbuf hd, hd⟩

theorem Unheld.recaches (h : Unheld s) (hr : Recaches s s') : Unheld s' := by
  intro b buf hbuf
  rcases hr.old hbuf with hbuf | ⟨-, rfl⟩
  · exact h b buf hbuf
  · rfl

/-- The store has changed without a change of the header or of the operations. -/
structure SameOps (s r : Store k) : Prop where
  lh : r.lh = s.lh
  outstanding : r.outstanding = s.outstanding
  committing : r.committing = s.committing
  proc : r.proc = s.proc

namespace SameOps

theorem of_recaches (h : Recaches s r) : SameOps s r := by
  rw [h.eq]
  exact ⟨rfl, rfl, rfl, rfl⟩

theorem bwrite (h : SameOps s r) : SameOps s (r.bwrite b data) :=
  ⟨h.lh, h.outstanding, h.committing, h.proc⟩

theorem toLog (h : s.toLog slot b = some r) : SameOps s r := by
  obtain ⟨t, ht, rfl⟩ := Option.map_eq_some_iff.mp h
  exact (of_recaches (.breads ht)).bwrite

theorem toHome (h : s.toHome slot b = some r) : SameOps s r := by
  obtain ⟨t, ht, rfl⟩ := Option.map_eq_some_iff.mp h
  exact (of_recaches (.breads ht)).bwrite

theorem writeHead (h : s.writeHead L = some r) : SameOps s r := by
  obtain ⟨-, h⟩ := Option.ite_none_right_eq_some.mp h
  obtain ⟨t, ht, rfl⟩ := Option.map_eq_some_iff.mp h
  exact (of_recaches (Recaches.bread ht).1).bwrite

theorem modify (h : s.modify p b data = some r) : SameOps s r := by
  obtain ⟨t, ht, rfl⟩ := Option.map_eq_some_iff.mp h
  obtain ⟨hl, ho, hc, hp⟩ := of_recaches (Recaches.bread ht).1
  exact ⟨hl, ho, hc, hp⟩

end SameOps

/-! ## The flag of a commit -/

/-- `log.committing` is set while `commit` runs. -/
def Flagged (s : State k) : Prop := s.committing = s.ctl.commits

theorem Flagged.advance {s r : State k} (h : Flagged s) (ha : s.advance L = some r) :
    Flagged r := by
  obtain ⟨s, ctl⟩ := s
  have h : s.committing = ctl.commits := h
  cases ctl with
  | ready => cases ha
  | readHead =>
    obtain ⟨-, ha⟩ := Option.ite_none_right_eq_some.mp ha
    obtain ⟨t, ht, rfl⟩ := Option.map_eq_some_iff.mp ha
    exact (SameOps.of_recaches (Recaches.bread ht).1).committing.trans h
  | recover | install =>
    simp only [State.advance] at ha
    split at ha
    · obtain ⟨t, ht, rfl⟩ := Option.map_eq_some_iff.mp ha
      exact (SameOps.toHome ht).committing.trans h
    · cases ha
      exact h
  | writeLog =>
    simp only [State.advance] at ha
    split at ha
    · obtain ⟨t, ht, rfl⟩ := Option.map_eq_some_iff.mp ha
      exact (SameOps.toLog ht).committing.trans h
    · cases ha
      exact h
  | recoverErase | writeHead | erase =>
    obtain ⟨t, ht, rfl⟩ := Option.map_eq_some_iff.mp ha
    exact (SameOps.writeHead ht).committing.trans h
  | finish =>
    cases ha
    rfl

theorem Flagged.next {s r : State k} (h : Flagged s) (hn : s.next L a = some r) : Flagged r := by
  cases a with
  | crash =>
    cases hn
    rfl
  | advance => exact h.advance hn
  | load b =>
    obtain ⟨t, ht, rfl⟩ := Option.map_eq_some_iff.mp hn
    exact (SameOps.of_recaches (Recaches.bread ht).1).committing.trans h
  | modify p b data =>
    obtain ⟨-, hn⟩ := Option.ite_none_right_eq_some.mp hn
    obtain ⟨t, ht, rfl⟩ := Option.map_eq_some_iff.mp hn
    exact (SameOps.modify ht).committing.trans h
  | evict | beginOp | logCheck =>
    obtain ⟨-, ⟨⟩⟩ := Option.ite_none_right_eq_some.mp hn
    exact h
  | logAppend p =>
    simp only [State.next] at hn
    split at hn <;> cases hn
    exact h
  | endOp p =>
    obtain ⟨-, ⟨⟩⟩ := Option.ite_none_right_eq_some.mp hn
    unfold State.endOp
    dsimp only
    split
    · split <;> rfl
    · exact h

/-- Where `begin_op` finds the flag clear after recovery, no commit is going on. -/
theorem Flagged.ready {s : State k} (h : Flagged s) (hr : s.ctl.recovers = false)
    (hc : s.committing = false) : s.ctl = .ready := by
  rw [Flagged, hc] at h
  cases hs : s.ctl with
  | ready => rfl
  | readHead | recover | recoverErase =>
    rw [hs] at hr
    cases hr
  | writeLog | writeHead | install | erase | finish =>
    rw [hs] at h
    cases h

/-! ## Writes to the disk -/

section Bwrite
variable {a : Nat} {data : Block}

theorem mem_bwrite (h : buf ∈ (s.bwrite a data).cache b) :
    b = a ∧ buf = ⟨data, false, none⟩ ∨ b ≠ a ∧ buf ∈ s.cache b :=
  (Cache.mem_set.mp h).imp_left fun h => ⟨h.1, h.2.2⟩

theorem bwrite_disk_self : (s.bwrite a data).disk a = data := update_self ..

theorem bwrite_disk_of_ne (h : b ≠ a) : (s.bwrite a data).disk b = s.disk b :=
  update_of_ne h ..

theorem Clean.bwrite (h : Clean P s) : Clean P (s.bwrite a data) := by
  intro b hb buf hbuf
  rcases mem_bwrite hbuf with ⟨rfl, rfl⟩ | ⟨hne, hbuf⟩
  · exact ⟨bwrite_disk_self.symm, rfl⟩
  · rw [bwrite_disk_of_ne hne]
    exact h b hb buf hbuf

/-- A write to the log, or of what is to be written to another block. -/
theorem View.bwrite (h : View L image s) (ha : L.Home a → data = s.pending image a) :
    View L image (s.bwrite a data) := by
  refine ⟨fun b hb buf hbuf => ?_, fun b hb => ?_⟩
  · rcases mem_bwrite hbuf with ⟨rfl, rfl⟩ | ⟨-, hbuf⟩
    · exact ha hb
    · exact h.data b hb buf hbuf
  · by_cases e : b = a
    · subst e
      exact .inl (bwrite_disk_self.trans (ha hb))
    · rw [bwrite_disk_of_ne e]
      exact (h.disk b hb).imp_right fun ⟨buf, hbuf, hd⟩ =>
        ⟨buf, Cache.mem_set.mpr (.inr ⟨e, hbuf⟩), hd⟩

theorem Unheld.bwrite (h : Unheld s) : Unheld (s.bwrite a data) := by
  intro b buf hbuf
  rcases mem_bwrite hbuf with ⟨-, rfl⟩ | ⟨-, hbuf⟩
  · rfl
  · exact h b buf hbuf

end Bwrite

/-! ## The invariant -/

/-- Recovery from the disk as it is would restore what the committed groups have written. -/
structure Durable (L : Layout) (image : Disk) (s : Store k) : Prop where
  fits : (Header.onDisk L s.disk).Fits L
  recovers : Recovers L.Home s.disk ((Header.onDisk L s.disk).entries L s.disk) (s.stable image)

/-- The disk is as the committed groups have left it, and its header is empty. -/
structure Settled (L : Layout) (image : Disk) (s : Store k) : Prop where
  empty : s.disk L.start 0 = 0
  home : ∀ b, L.Home b → s.disk b = s.stable image b

structure Idle (s : Store k) : Prop where
  idle : ∀ p, s.proc p = .idle
  outstanding : s.outstanding = 0
  unheld : Unheld s

structure Recovering (s : Store k) : Prop extends Idle s where
  clean : Clean (fun _ => True) s
  unused : ∀ b, s.cache.Unused b
  current : s.current = []

structure Committing (L : Layout) (image : Disk) (s : Store k) : Prop extends Idle s where
  clean : Clean (fun b => ¬ L.Home b) s
  view : View L image s

/-- What has been modified since the last commit is in the header. -/
structure Logged (L : Layout) (image : Disk) (s : Store k) : Prop where
  settled : Settled L image s
  home : ∀ i < s.lh.n, L.Home (s.lh.block i)
  has : ∀ b, L.Home b → s.pending image b = s.stable image b ∨ s.lh.Has b

/-- The header is on the disk, and its entries from `tail` on are still to be installed. -/
structure Installing (L : Layout) (image : Disk) (s : Store k) (tail : Nat) : Prop where
  same : s.lh.Same (Header.onDisk L s.disk)
  recovers : Recovers L.Home s.disk ((s.lh.entries L s.disk).drop tail) (s.stable image)

structure Installed (L : Layout) (image : Disk) (s : Store k) : Prop where
  n : s.lh.n = 0
  home : ∀ b, L.Home b → s.disk b = s.stable image b

/-- The blocks of the header are distinct blocks outside of the log, and dirty. If the log is too
small for all buffers it has room for them. -/
structure Pins (L : Layout) (s : Store k) : Prop where
  home : ∀ i < s.lh.n, L.Home (s.lh.block i)
  inj : ∀ i < s.lh.n, ∀ j < s.lh.n, s.lh.block i = s.lh.block j → i = j
  dirty : ∀ i < s.lh.n, ∃ buf ∈ s.cache (s.lh.block i), buf.dirty = true
  room : LOGSIZE ≤ L.size ∨ s.lh.n ≤ L.size - 1

/-- The state between commits. -/
structure Ready (L : Layout) (image : Disk) (s : Store k) : Prop where
  clean : Clean (fun b => ¬ L.Home b) s
  view : View L image s
  settled : Settled L image s
  pins : Pins L s
  has : ∀ b, L.Home b → s.pending image b = s.stable image b ∨ s.lh.Has b ∨ ¬ s.Free b
  holder : ∀ b p, ∀ buf ∈ s.cache b, buf.writer = some p →
    s.proc p ≠ .idle ∧ ∃ w ∈ s.current, w.1 = b
  logging : ∀ p b, s.proc p = .logging b → ∃ buf ∈ s.cache b, buf.writer = some p
  count : (s.outstanding : Int) = Table.count (fun o => o ≠ .idle) s.proc

/-- The invariant at each point of recovery and of commit. -/
def Phase (L : Layout) (image : Disk) (s : Store k) : Ctl → Prop
  | .readHead => Recovering s
  | .recover tail => Recovering s ∧ Installing L image s tail
  | .recoverErase => Recovering s ∧ Installed L image s
  | .ready => Ready L image s
  | .writeLog tail => Committing L image s ∧ Logged L image s ∧
      (tail = 0 → Pins L s) ∧ (tail ≠ 0 → s.lh.n ≤ L.size - 1) ∧
      ∀ i < tail, i < s.lh.n → s.disk (L.slot i) = s.pending image (s.lh.block i)
  | .writeHead => Committing L image s ∧ Logged L image s ∧ s.lh.n ≤ L.size - 1 ∧
      ∀ i < s.lh.n, s.disk (L.slot i) = s.pending image (s.lh.block i)
  | .install tail => Committing L image s ∧ s.current = [] ∧ Installing L image s tail
  | .erase => Committing L image s ∧ s.current = [] ∧ Installed L image s
  | .finish => Committing L image s ∧ Logged L image s ∧ s.lh.n = 0

structure LogInv (L : Layout) (image : Disk) (s : State k) : Prop where
  durable : Durable L image s.toStore
  phase : Phase L image s.toStore s.ctl

theorem Durable.crash (h : Durable L image s) :
    LogInv L image (⟨.boot s.disk s.committed, .readHead⟩ : State k) :=
  ⟨⟨h.fits, h.recovers⟩, ⟨⟨fun _ => rfl, rfl, nofun⟩, nofun, nofun, rfl⟩⟩

/-! ## Steps of the cache -/

section Recaches
theorem Idle.recaches (h : Idle s) (hr : Recaches s { s with cache := c }) :
    Idle { s with cache := c } := ⟨h.idle, h.outstanding, h.unheld.recaches hr⟩

theorem Recovering.recaches (h : Recovering s) (hr : Recaches s { s with cache := c }) :
    Recovering { s with cache := c } :=
  ⟨h.toIdle.recaches hr, h.clean.recaches hr, fun b buf hbuf => by
    rcases hr.old hbuf with hbuf | ⟨-, rfl⟩
    · exact h.unused b buf hbuf
    · exact ⟨rfl, rfl⟩, h.current⟩

theorem Committing.recaches (h : Committing L image s) (hr : Recaches s { s with cache := c }) :
    Committing L image { s with cache := c } :=
  ⟨h.toIdle.recaches hr, h.clean.recaches hr, h.view.recaches hr⟩

theorem Pins.recaches (h : Pins L s) (hr : Recaches s { s with cache := c }) :
    Pins L { s with cache := c } where
  home := h.home
  inj := h.inj
  dirty i hi := by
    obtain ⟨buf, hbuf, hd⟩ := h.dirty i hi
    exact ⟨buf, hr.kept hbuf (.inl hd), hd⟩
  room := h.room

theorem Ready.recaches (h : Ready L image s) (hr : Recaches s { s with cache := c }) :
    Ready L image { s with cache := c } where
  clean := h.clean.recaches hr
  view := h.view.recaches hr
  settled := ⟨h.settled.empty, h.settled.home⟩
  pins := h.pins.recaches hr
  has b hb := by
    refine (h.has b hb).imp_right (Or.imp_right fun hf hf' => hf fun buf hbuf => ?_)
    by_contra hw
    exact hw (hf' buf (hr.kept hbuf (.inr hw)))
  holder b p buf hbuf hw := by
    rcases hr.old hbuf with hbuf | ⟨-, rfl⟩
    · exact h.holder b p buf hbuf hw
    · cases hw
  logging p b hp := by
    obtain ⟨buf, hbuf, hw⟩ := h.logging p b hp
    exact ⟨buf, hr.kept hbuf (.inr (by simp [hw])), hw⟩
  count := h.count

theorem Logged.recaches (h : Logged L image s) : Logged L image { s with cache := c } :=
  ⟨⟨h.settled.empty, h.settled.home⟩, h.home, h.has⟩

/-- What the cache does on its own does not matter. -/
theorem LogInv.recaches (h : LogInv L image ⟨s, ctl⟩) (hr : Recaches s s') :
    LogInv L image ⟨s', ctl⟩ := by
  obtain ⟨c, rfl⟩ := hr.exists_eq
  refine ⟨⟨h.durable.fits, h.durable.recovers⟩, ?_⟩
  have hp := h.phase
  cases ctl with
  | readHead | ready => exact hp.recaches hr
  | recover tail => exact ⟨hp.1.recaches hr, hp.2.same, hp.2.recovers⟩
  | recoverErase => exact ⟨hp.1.recaches hr, hp.2.n, hp.2.home⟩
  | writeLog tail =>
    exact ⟨hp.1.recaches hr, hp.2.1.recaches, fun h0 => (hp.2.2.1 h0).recaches hr, hp.2.2.2⟩
  | writeHead | finish => exact ⟨hp.1.recaches hr, hp.2.1.recaches, hp.2.2⟩
  | install tail => exact ⟨hp.1.recaches hr, hp.2.1, hp.2.2.same, hp.2.2.recovers⟩
  | erase => exact ⟨hp.1.recaches hr, hp.2.1, hp.2.2.n, hp.2.2.home⟩

end Recaches

end Xv6.Log
