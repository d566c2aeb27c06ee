import Mathlib.Tactic.Set
import Xv6.Log.LogInv

/-! # Recovery and commit

The steps of `recover_from_log` and of `commit` keep the invariant. Each of them writes one block:
a slot of the log, the header, or a block outside of the log that the header has. -/

namespace Xv6.Log

open Redo (Recovers)
open Function

variable {L : Layout} {image : Disk} {k : Nat} {s s' : Store k} {b : Nat}

/-! ## Steps of recovery and of commit -/

theorem home_ne_start (hb : L.Home b) : b ≠ L.start := fun e => Header.start_not_home L (e ▸ hb)

theorem slot_ne_start (i : Nat) : L.slot i ≠ L.start := by simp only [Layout.slot]; omega

/-- Nothing is to be recovered with an empty header. -/
theorem Settled.durable (h : Settled L image s) : Durable L image s := by
  have hn : (Header.onDisk L s.disk).n = 0 := h.empty
  refine ⟨⟨by omega, fun i hi => by omega⟩, ?_⟩
  rw [Header.entries, hn]
  exact Recovers.nil_iff.mpr h.home

/-- Erasing the header of a disk that is complete. -/
theorem Settled.erase (hd : ∀ b, L.Home b → s.disk b = s.stable image b) (h0 : data 0 = 0) :
    Settled L image (s.bwrite L.start data) where
  empty := by rw [bwrite_disk_self, h0]
  home b hb := by
    rw [bwrite_disk_of_ne (home_ne_start hb)]
    exact hd b hb

/-- One entry is installed. The header on the disk and the other entries stay as they are. -/
theorem Installing.step (h : Installing L image s tail) (hd : Durable L image s)
    (ht : tail < s.lh.n) (hdisk : s'.disk = update s.disk (s.lh.block tail)
      (s.disk (L.slot tail))) (hlh : s'.lh = s.lh) (hcom : s'.committed = s.committed) :
    Installing L image s' (tail + 1) ∧ Durable L image s' := by
  have hfits : s.lh.Fits L := h.same.fits hd.fits
  have hstart : s'.disk L.start = s.disk L.start := by
    rw [hdisk, update_of_ne (home_ne_start (hfits.home tail ht)).symm]
  have hon : Header.onDisk L s'.disk = Header.onDisk L s.disk := by
    rw [Header.onDisk, hstart]; rfl
  have hentries : s.lh.entries L s'.disk = s.lh.entries L s.disk := by
    refine List.map_congr_left fun i hi => ?_
    have hne : L.slot i ≠ s.lh.block tail := fun e =>
      hfits.slot_not_home (List.mem_range.mp hi) (e ▸ hfits.home tail ht)
    rw [hdisk, update_of_ne hne]
  have hstable : s'.stable image = s.stable image := by rw [Store.stable, hcom]; rfl
  have hrec : Recovers L.Home s'.disk ((s.lh.entries L s.disk).drop (tail + 1))
      (s.stable image) := by
    have := h.recovers
    rw [Header.drop_entries ht] at this
    rw [hdisk]
    exact this.install
  refine ⟨⟨by rw [hlh, hon]; exact h.same, by rw [hlh, hentries, hstable]; exact hrec⟩, ?_⟩
  refine ⟨hon ▸ hd.fits, ?_⟩
  rw [hon, hstable, ← h.same.entries, hentries]
  refine hrec.mono (List.drop_subset ..) ?_
  rw [h.same.entries]
  exact hd.recovers.entry

theorem Idle.bwrite (h : Idle s) : Idle (s.bwrite a data) :=
  ⟨h.idle, h.outstanding, h.unheld.bwrite⟩

theorem Recovering.bwrite (h : Recovering s) : Recovering (s.bwrite a data) := by
  refine ⟨h.toIdle.bwrite, h.clean.bwrite, fun b buf hbuf => ?_, h.current⟩
  rcases mem_bwrite hbuf with ⟨-, rfl⟩ | ⟨-, hbuf⟩
  · exact ⟨rfl, rfl⟩
  · exact h.unused b buf hbuf

theorem Recovering.toHome (h : Recovering s) (hc : s.toHome slot b = some s') :
    Recovering s' ∧ s'.disk = update s.disk b (s.disk slot) ∧ s'.lh = s.lh ∧
      s'.committed = s.committed := by
  obtain ⟨t, ht, rfl⟩ := Option.map_eq_some_iff.mp hc
  have hr := Recaches.breads ht
  obtain ⟨c, rfl⟩ := hr.exists_eq
  have hl := h.recaches hr
  rw [hl.clean.data_eq trivial]
  exact ⟨hl.bwrite, rfl, rfl, rfl⟩

theorem Committing.bwrite (h : Committing L image s) (hd : L.Home a → data = s.pending image a) :
    Committing L image (s.bwrite a data) :=
  ⟨h.toIdle.bwrite, h.clean.bwrite, h.view.bwrite hd⟩

theorem Committing.toHome (h : Committing L image s) (hslot : ¬ L.Home slot)
    (hd : s.disk slot = s.pending image b) (hc : s.toHome slot b = some s') :
    Committing L image s' ∧ s'.disk = update s.disk b (s.disk slot) ∧ s'.lh = s.lh ∧
      s'.committed = s.committed ∧ s'.current = s.current := by
  obtain ⟨t, ht, rfl⟩ := Option.map_eq_some_iff.mp hc
  have hr := Recaches.breads ht
  obtain ⟨c, rfl⟩ := hr.exists_eq
  have hl := h.recaches hr
  rw [hl.clean.data_eq hslot]
  exact ⟨hl.bwrite fun _ => hd, rfl, rfl, rfl, rfl⟩

theorem Committing.toLog (h : Committing L image s) (hslot : ¬ L.Home slot) (hb : L.Home b)
    (hc : s.toLog slot b = some s') :
    Committing L image s' ∧ s'.disk = update s.disk slot (s.pending image b) ∧ s'.lh = s.lh ∧
      s'.committed = s.committed ∧ s'.current = s.current := by
  obtain ⟨t, ht, rfl⟩ := Option.map_eq_some_iff.mp hc
  have hr := Recaches.breads ht
  obtain ⟨c, rfl⟩ := hr.exists_eq
  have hl := h.recaches hr
  rw [hl.view.data_eq hb]
  exact ⟨hl.bwrite fun hs => absurd hs hslot, rfl, rfl, rfl, rfl⟩

theorem writeHead_eq_some (h : s.writeHead L = some s') :
    ∃ c, Recaches s { s with cache := c } ∧ s' = Store.bwrite { s with cache := c } L.start
      (s.lh.encode (Store.data { s with cache := c } L.start)) := by
  obtain ⟨-, h⟩ := Option.ite_none_right_eq_some.mp h
  obtain ⟨t, ht, rfl⟩ := Option.map_eq_some_iff.mp h
  have hr := (Recaches.bread ht).1
  obtain ⟨c, rfl⟩ := hr.exists_eq
  exact ⟨c, hr, rfl⟩

/-- With `NBUF` dirty buffers the first `bread` of a commit panics: the log has room for the blocks
of a commit that goes on. -/
theorem Pins.fits (h : Pins L s) (hs : s.breads (L.slot 0) b = some t) :
    s.lh.n ≤ L.size - 1 := by
  rcases h.room with hL | hr
  · by_contra hn
    have hL : NBUF ≤ L.size := hL
    have hpos : 2 ≤ NBUF := by decide
    have hnone : s.bread [] (L.slot 0) = none := by
      rw [Store.bread, Option.map_eq_none_iff]
      refine Cache.bget_none (l := (List.range s.lh.n).map s.lh.block) ?_ ?_ ?_ ?_
      · refine List.nodup_range.map_on fun i hi j hj => ?_
        exact h.inj i (List.mem_range.mp hi) j (List.mem_range.mp hj)
      · rw [List.length_map, List.length_range]
        omega
      · intro a ha
        obtain ⟨i, hi, rfl⟩ := List.mem_map.mp ha
        exact h.dirty i (List.mem_range.mp hi)
      · intro hm
        obtain ⟨i, hi, e⟩ := List.mem_map.mp hm
        have := h.home i (List.mem_range.mp hi)
        rw [e] at this
        simp only [Layout.Home, Layout.slot] at this
        omega
    obtain ⟨-, hs⟩ := Option.ite_none_right_eq_some.mp hs
    simp [hnone] at hs
  · exact hr

theorem Pins.of_n_eq_zero (hn : s.lh.n = 0) : Pins L s :=
  ⟨fun i hi => by omega, fun i hi => by omega, fun i hi => by omega, .inr (by omega)⟩

/-- The counter and the buffers when no operation is active. -/
theorem Idle.ready (h : Idle s) (hc : Clean (fun b => ¬ L.Home b) s) (hv : View L image s)
    (hl : Logged L image s) (hn : s.lh.n = 0) : Ready L image s where
  clean := hc
  view := hv
  settled := hl.settled
  pins := .of_n_eq_zero hn
  has b hb := (hl.has b hb).imp_right .inl
  holder b p buf hbuf hw := by
    rw [h.unheld b buf hbuf] at hw; cases hw
  logging p b hp := by
    rw [h.idle p] at hp; cases hp
  count := by
    have : Table.count (fun o => o ≠ .idle) s.proc = 0 :=
      Finset.sum_eq_zero fun p _ => by simp [h.idle p]
    rw [this, h.outstanding]; rfl

section Advance
variable {r : State k}

theorem LogInv.readHead (h : LogInv L image (⟨s, .readHead⟩ : State k))
    (ha : State.advance L ⟨s, .readHead⟩ = some r) : LogInv L image r := by
  have hp : Recovering s := h.phase
  obtain ⟨-, ha⟩ := Option.ite_none_right_eq_some.mp ha
  obtain ⟨t, ht, rfl⟩ := Option.map_eq_some_iff.mp ha
  have hr := (Recaches.bread ht).1
  obtain ⟨c, rfl⟩ := hr.exists_eq
  have hl := hp.recaches hr
  rw [hl.clean.data_eq trivial]
  have hsame : (s.lh.decode (s.disk L.start)).Same (Header.onDisk L s.disk) :=
    Header.same_decode ..
  refine ⟨⟨h.durable.fits, h.durable.recovers⟩,
    ⟨⟨hl.idle, hl.outstanding, hl.unheld⟩, hl.clean, hl.unused, hl.current⟩, hsame, ?_⟩
  rw [List.drop_zero]
  exact (hsame.entries (L := L) s.disk) ▸ h.durable.recovers

theorem LogInv.recover (h : LogInv L image (⟨s, .recover tail⟩ : State k))
    (ha : State.advance L ⟨s, .recover tail⟩ = some r) : LogInv L image r := by
  obtain ⟨hp, hi⟩ : Recovering s ∧ Installing L image s tail := h.phase
  simp only [State.advance] at ha
  split at ha
  · next ht =>
    obtain ⟨s', hc, rfl⟩ := Option.map_eq_some_iff.mp ha
    obtain ⟨hp', hdisk, hlh, hcom⟩ := hp.toHome hc
    obtain ⟨hi', hd'⟩ := hi.step h.durable ht hdisk hlh hcom
    exact ⟨hd', hp', hi'⟩
  · next ht =>
    cases ha
    have hrec := hi.recovers
    rw [Header.drop_entries_eq_nil ht] at hrec
    exact ⟨⟨h.durable.fits, h.durable.recovers⟩, ⟨⟨hp.idle, hp.outstanding,
      hp.unheld⟩, hp.clean, hp.unused, hp.current⟩, rfl, Recovers.nil_iff.mp hrec⟩

/-- After recovery the buffers are copies of a disk that is complete. -/
theorem Recovering.view (h : Recovering s) (hd : ∀ b, L.Home b → s.disk b = s.stable image b) :
    View L image s := by
  rw [← pending_eq_stable h.current] at hd
  exact ⟨fun b hb buf hbuf => (h.clean b trivial buf hbuf).1.trans (hd b hb), fun b hb =>
    .inl (hd b hb)⟩

/-- The last `write_head`, with `n = 0`. -/
theorem Installed.logged (h : Installed L image s) (hc : s.current = []) (data : Block)
    (h0 : data 0 = 0) :
    Logged L image (s.bwrite L.start data) where
  settled := .erase h.home h0
  home i hi := by
    have : i < s.lh.n := hi
    have := h.n
    omega
  has b _ := .inl (congrFun (pending_eq_stable (s := s) hc) b)

theorem View.writeHead (h : View L image s) (data : Block) : View L image (s.bwrite L.start data) :=
  h.bwrite fun hs => absurd hs (Header.start_not_home L)

theorem LogInv.recoverErase (h : LogInv L image (⟨s, .recoverErase⟩ : State k))
    (ha : State.advance L ⟨s, .recoverErase⟩ = some r) : LogInv L image r := by
  obtain ⟨hp, hi⟩ : Recovering s ∧ Installed L image s := h.phase
  obtain ⟨s', hc, rfl⟩ := Option.map_eq_some_iff.mp ha
  obtain ⟨c, hr, rfl⟩ := writeHead_eq_some hc
  have hi : Installed L image { s with cache := c } := ⟨hi.n, hi.home⟩
  have hp := hp.recaches hr
  have hl := hi.logged hp.current (s.lh.encode (Store.data { s with cache := c } L.start)) hi.n
  have hclean : Clean (fun b => ¬ L.Home b) { s with cache := c } := fun b _ => hp.clean b trivial
  exact ⟨hl.settled.durable,
    hp.toIdle.bwrite.ready hclean.bwrite ((hp.view hi.home).writeHead _) hl hi.n⟩

theorem LogInv.writeLog (h : LogInv L image (⟨s, .writeLog tail⟩ : State k))
    (ha : State.advance L ⟨s, .writeLog tail⟩ = some r) : LogInv L image r := by
  obtain ⟨hp, hl, hpins, hroom, hw⟩ : Committing L image s ∧ Logged L image s ∧
    (tail = 0 → Pins L s) ∧ (tail ≠ 0 → s.lh.n ≤ L.size - 1) ∧
    ∀ i < tail, i < s.lh.n → s.disk (L.slot i) = s.pending image (s.lh.block i) := h.phase
  simp only [State.advance] at ha
  split at ha
  · next ht =>
    obtain ⟨s', hc, rfl⟩ := Option.map_eq_some_iff.mp ha
    have hfits : s.lh.Fits L := by
      refine ⟨?_, hl.home⟩
      by_cases h0 : tail = 0
      · obtain ⟨t, hs, -⟩ := Option.map_eq_some_iff.mp hc
        rw [h0] at hs
        exact (hpins h0).fits hs
      · exact hroom h0
    have hslot := hfits.slot_not_home ht
    obtain ⟨hp', hdisk, hlh, hcom, hcur⟩ := hp.toLog hslot (hl.home tail ht) hc
    have hpend : s'.pending image = s.pending image := by rw [Store.pending, hcom, hcur]; rfl
    have hstab : s'.stable image = s.stable image := by rw [Store.stable, hcom]; rfl
    have hset : Settled L image s' := by
      refine ⟨?_, fun b hb => ?_⟩
      · rw [hdisk, update_of_ne (slot_ne_start tail).symm]
        exact hl.settled.empty
      · have hne : b ≠ L.slot tail := fun e => hslot (e ▸ hb)
        rw [hdisk, hstab, update_of_ne hne]
        exact hl.settled.home b hb
    refine ⟨hset.durable, hp', ⟨hset, hlh ▸ hl.home, ?_⟩,
      fun h0 => absurd h0 (Nat.succ_ne_zero _), fun _ => hlh ▸ hfits.room, fun i hi hin => ?_⟩
    · rw [hpend, hstab, hlh]
      exact hl.has
    · rw [hpend, hlh, hdisk]
      rcases Nat.lt_succ_iff_lt_or_eq.mp hi with hi | rfl
      · have hne : L.slot i ≠ L.slot tail := by simp only [Layout.slot]; omega
        rw [update_of_ne hne]
        exact hw i hi (hlh ▸ hin)
      · rw [update_self]
  · next ht =>
    cases ha
    refine ⟨h.durable, hp, hl, ?_,
      fun i hi => hw i (Nat.lt_of_lt_of_le hi (not_lt.mp ht)) hi⟩
    by_cases h0 : tail = 0
    · have : s.lh.n = 0 := by omega
      exact this ▸ Nat.zero_le _
    · exact hroom h0

theorem LogInv.writeHead (h : LogInv L image (⟨s, .writeHead⟩ : State k))
    (ha : State.advance L ⟨s, .writeHead⟩ = some r) : LogInv L image r := by
  obtain ⟨hp, hl, hroom, hw⟩ : Committing L image s ∧ Logged L image s ∧ s.lh.n ≤ L.size - 1 ∧
    ∀ i < s.lh.n, s.disk (L.slot i) = s.pending image (s.lh.block i) := h.phase
  obtain ⟨s', hc, rfl⟩ := Option.map_eq_some_iff.mp ha
  obtain ⟨c, hr, rfl⟩ := writeHead_eq_some hc
  have hp := hp.recaches hr
  set data := s.lh.encode (Store.data { s with cache := c } L.start) with hdata
  -- from here on the pending modifications are committed
  set t : Store k := { Store.bwrite { s with cache := c } L.start data with
    committed := s.committed ++ s.current, current := [] } with ht
  have hpend : t.pending image = s.pending image := by
    simp only [Store.pending, ht, List.append_nil]
  have hdisk : ∀ b, b ≠ L.start → t.disk b = s.disk b := fun b hb => bwrite_disk_of_ne hb
  have hsame : s.lh.Same (Header.onDisk L t.disk) := by
    have he : t.disk L.start = data := bwrite_disk_self
    rw [Header.onDisk, he, hdata]
    exact (Header.same_decode_encode ..).symm
  have hrec : Recovers L.Home t.disk (s.lh.entries L t.disk) (s.pending image) := by
    refine ⟨fun w hwm => ?_, fun b hb => ?_⟩
    · obtain ⟨i, hi, rfl⟩ := Header.mem_entries.mp hwm
      exact (hdisk _ (slot_ne_start i)).trans (hw i hi)
    · rcases hl.has b hb with e | ⟨i, hi, e⟩
      · rw [hdisk b (home_ne_start hb), hl.settled.home b hb]
        exact .inl e.symm
      · exact .inr ⟨_, Header.mem_entries.mpr ⟨i, hi, rfl⟩, e⟩
  have hview := hp.view.writeHead data
  have hcom : Committing L image t := by
    refine ⟨⟨hp.idle, hp.outstanding, hp.unheld.bwrite⟩, hp.clean.bwrite, ?_, ?_⟩
    · rw [hpend]; exact hview.data
    · rw [hpend]; exact hview.disk
  refine ⟨⟨hsame.symm.fits ⟨hroom, hl.home⟩, ?_⟩, hcom, rfl, hsame, hrec⟩
  rw [← hsame.entries]
  exact hrec

theorem LogInv.install (h : LogInv L image (⟨s, .install tail⟩ : State k))
    (ha : State.advance L ⟨s, .install tail⟩ = some r) : LogInv L image r := by
  obtain ⟨hp, hcur, hi⟩ :
    Committing L image s ∧ s.current = [] ∧ Installing L image s tail := h.phase
  simp only [State.advance] at ha
  split at ha
  · next ht =>
    obtain ⟨s', hc, rfl⟩ := Option.map_eq_some_iff.mp ha
    have hfits := hi.same.fits h.durable.fits
    have hentry : s.disk (L.slot tail) = s.pending image (s.lh.block tail) := by
      rw [pending_eq_stable hcur]
      have := h.durable.recovers.entry
      rw [← hi.same.entries] at this
      exact this (s.lh.block tail, s.disk (L.slot tail)) (Header.mem_entries.mpr ⟨tail, ht, rfl⟩)
    obtain ⟨hp', hdisk, hlh, hcom, hcur'⟩ := hp.toHome (hfits.slot_not_home ht) hentry hc
    obtain ⟨hi', hd'⟩ := hi.step h.durable ht hdisk hlh hcom
    exact ⟨hd', hp', hcur'.trans hcur, hi'⟩
  · next ht =>
    cases ha
    have hrec := hi.recovers
    rw [Header.drop_entries_eq_nil ht] at hrec
    exact ⟨⟨h.durable.fits, h.durable.recovers⟩, ⟨⟨hp.idle, hp.outstanding,
      hp.unheld⟩, hp.clean, ⟨hp.view.data, hp.view.disk⟩⟩, hcur, rfl, Recovers.nil_iff.mp hrec⟩

theorem LogInv.erase (h : LogInv L image (⟨s, .erase⟩ : State k))
    (ha : State.advance L ⟨s, .erase⟩ = some r) : LogInv L image r := by
  obtain ⟨hp, hcur, hi⟩ : Committing L image s ∧ s.current = [] ∧ Installed L image s := h.phase
  obtain ⟨s', hc, rfl⟩ := Option.map_eq_some_iff.mp ha
  obtain ⟨c, hr, rfl⟩ := writeHead_eq_some hc
  have hi : Installed L image { s with cache := c } := ⟨hi.n, hi.home⟩
  have hl := hi.logged hcur (s.lh.encode (Store.data { s with cache := c } L.start)) hi.n
  exact ⟨hl.settled.durable,
    (hp.recaches hr).bwrite fun hs => absurd hs (Header.start_not_home L), hl, hi.n⟩

theorem LogInv.finish (h : LogInv L image (⟨s, .finish⟩ : State k))
    (ha : State.advance L ⟨s, .finish⟩ = some r) : LogInv L image r := by
  obtain ⟨hp, hl, hn⟩ : Committing L image s ∧ Logged L image s ∧ s.lh.n = 0 := h.phase
  cases ha
  have hr := hp.toIdle.ready hp.clean hp.view hl hn
  exact ⟨⟨h.durable.fits, h.durable.recovers⟩, hr.clean, ⟨hr.view.data, hr.view.disk⟩,
    ⟨hr.settled.empty, hr.settled.home⟩, .of_n_eq_zero hn, hr.has, hr.holder, hr.logging, hr.count⟩

end Advance

end Xv6.Log
