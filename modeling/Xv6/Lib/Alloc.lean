import Mathlib.Data.List.Nodup
import Mathlib.Logic.Function.Basic

/-! # Cells that are taken and given back

A map says which of a set of cells are in use, and places hold cells. In an `Owned` table the cells
in use are those in the places, each in one place, and those that are held on the way from the map
to a place or back. -/

namespace Alloc

open Function

variable {ι β : Type*}

/-- The cells of `dom` in use are those in the places `at` and those in the list `held`. -/
structure Owned (dom : β → Prop) (used : β → Bool) (cell : ι → Option β) (held : List β) :
    Prop where
  placed : ∀ p b, cell p = some b → dom b ∧ used b = true
  inj : ∀ p q b, cell p = some b → cell q = some b → p = q
  taken : ∀ b ∈ held, (dom b ∧ used b = true) ∧ ∀ p, cell p ≠ some b
  nodup : held.Nodup
  back : ∀ b, dom b → used b = true → b ∈ held ∨ ∃ p, cell p = some b

namespace Owned

variable {dom : β → Prop} {used : β → Bool} {cell cell' : ι → Option β} {held : List β} {b : β}
  {p : ι}

/-- A cell that is not in use is in no place. -/
theorem ne_of_unused (h : Owned dom used cell held) (hb : used b = false) (p : ι) :
    cell p ≠ some b := by
  intro e
  rw [(h.placed p b e).2] at hb
  cases hb

variable [DecidableEq β]

/-- A cell is taken into use. -/
theorem take (h : Owned dom used cell held) (hd : dom b) (hb : used b = false) :
    Owned dom (update used b true) cell (b :: held) := by
  have hmono : ∀ c, used c = true → update used b true c = true := by
    intro c hc
    by_cases e : c = b
    · rw [e, update_self]
    · rwa [update_of_ne e]
  have hfresh : b ∉ held := by
    intro hm
    rw [(h.taken b hm).1.2] at hb
    cases hb
  refine ⟨fun p c hc => ?_, h.inj, fun c hc => ?_, List.nodup_cons.mpr ⟨hfresh, h.nodup⟩,
    fun c hd hc => ?_⟩
  · obtain ⟨hd, hu⟩ := h.placed p c hc
    exact ⟨hd, hmono c hu⟩
  · rcases List.mem_cons.mp hc with rfl | hc
    · exact ⟨⟨hd, update_self ..⟩, h.ne_of_unused hb⟩
    · obtain ⟨⟨hd, hu⟩, hn⟩ := h.taken c hc
      exact ⟨⟨hd, hmono c hu⟩, hn⟩
  · by_cases e : c = b
    · exact .inl (e ▸ List.mem_cons_self)
    · rw [update_of_ne e] at hc
      exact (h.back c hd hc).imp_left (List.mem_cons_of_mem _)

/-- A cell that is held goes out of use. -/
theorem free (h : Owned dom used cell (b :: held)) : Owned dom (update used b false) cell held := by
  obtain ⟨⟨-, -⟩, hnone⟩ := h.taken b List.mem_cons_self
  have hkeep : ∀ c, c ≠ b → update used b false c = used c :=
    fun c e => update_of_ne e ..
  refine ⟨fun p c hc => ?_, h.inj, fun c hc => ?_, h.nodup.of_cons, fun c hd hc => ?_⟩
  · rw [hkeep c fun e => hnone p (e ▸ hc)]
    exact h.placed p c hc
  · rw [hkeep c fun e => (List.nodup_cons.mp h.nodup).1 (e ▸ hc)]
    exact h.taken c (List.mem_cons_of_mem _ hc)
  · have e : c ≠ b := by
      rintro rfl
      rw [update_self] at hc
      cases hc
    rw [hkeep c e] at hc
    exact (h.back c hd hc).imp_left fun hm => (List.mem_cons.mp hm).resolve_left e

variable [DecidableEq ι]

omit [DecidableEq β] in
/-- A cell that is held comes to an empty place. -/
theorem store (h : Owned dom used cell (b :: held)) (hp : cell p = none) :
    Owned dom used (update cell p (some b)) held := by
  obtain ⟨hb, hnone⟩ := h.taken b List.mem_cons_self
  have hcell : ∀ q c, update cell p (some b) q = some c →
      (q = p ∧ c = b) ∨ (q ≠ p ∧ cell q = some c) := by
    intro q c hc
    by_cases e : q = p
    · rw [e, update_self] at hc
      exact .inl ⟨e, (Option.some.inj hc).symm⟩
    · rw [update_of_ne e] at hc
      exact .inr ⟨e, hc⟩
  refine ⟨fun q c hc => ?_, fun q r c hq hr => ?_, fun c hc => ?_, h.nodup.of_cons,
    fun c hd hu => ?_⟩
  · rcases hcell q c hc with ⟨-, rfl⟩ | ⟨-, hc⟩
    · exact hb
    · exact h.placed q c hc
  · rcases hcell q c hq with ⟨eq, eb⟩ | ⟨-, hq'⟩ <;>
      rcases hcell r c hr with ⟨er, eb'⟩ | ⟨-, hr'⟩
    · rw [eq, er]
    · exact absurd (eb ▸ hr') (hnone r)
    · exact absurd (eb' ▸ hq') (hnone q)
    · exact h.inj q r c hq' hr'
  · obtain ⟨hc', hn⟩ := h.taken c (List.mem_cons_of_mem _ hc)
    refine ⟨hc', fun q e => ?_⟩
    rcases hcell q c e with ⟨-, rfl⟩ | ⟨-, e⟩
    · exact (List.nodup_cons.mp h.nodup).1 hc
    · exact hn q e
  · rcases h.back c hd hu with hm | ⟨q, hq⟩
    · rcases List.mem_cons.mp hm with rfl | hm
      · exact .inr ⟨p, update_self ..⟩
      · exact .inl hm
    · refine .inr ⟨q, ?_⟩
      rw [update_of_ne, hq]
      rintro rfl
      rw [hp] at hq
      cases hq

omit [DecidableEq β] in
/-- A cell is taken from its place. -/
theorem release (h : Owned dom used cell held) (hp : cell p = some b) :
    Owned dom used (update cell p none) (b :: held) := by
  have hcell : ∀ q c, update cell p none q = some c → q ≠ p ∧ cell q = some c := by
    intro q c hc
    by_cases e : q = p
    · rw [e, update_self] at hc
      cases hc
    · rw [update_of_ne e] at hc
      exact ⟨e, hc⟩
  refine ⟨fun q c hc => h.placed q c (hcell q c hc).2, fun q r c hq hr =>
    h.inj q r c (hcell q c hq).2 (hcell r c hr).2, fun c hc => ?_,
    List.nodup_cons.mpr ⟨fun hm => (h.taken b hm).2 p hp, h.nodup⟩, fun c hd hu => ?_⟩
  · rcases List.mem_cons.mp hc with rfl | hc
    · exact ⟨h.placed p c hp, fun q hq => (hcell q c hq).1 (h.inj q p c (hcell q c hq).2 hp)⟩
    · obtain ⟨hc', hn⟩ := h.taken c hc
      exact ⟨hc', fun q hq => hn q (hcell q c hq).2⟩
  · rcases h.back c hd hu with hm | ⟨q, hq⟩
    · exact .inl (List.mem_cons_of_mem _ hm)
    · by_cases e : q = p
      · subst e
        rw [hp] at hq
        exact .inl (Option.some.inj hq ▸ List.mem_cons_self)
      · exact .inr ⟨q, by rwa [update_of_ne e]⟩

omit [DecidableEq β] in
/-- The cells of a list of places are taken from them. -/
theorem releaseAll (h : Owned dom used cell held) {ps : List ι} (hps : ps.Nodup)
    (hin : ∀ p ∈ ps, cell' p = none) (hout : ∀ p, p ∉ ps → cell' p = cell p) :
    Owned dom used cell' (ps.filterMap cell ++ held) := by
  induction ps generalizing cell' with
  | nil =>
    obtain rfl : cell' = cell := funext fun p => hout p List.not_mem_nil
    exact h
  | cons p ps ih =>
    have hp : p ∉ ps := (List.nodup_cons.mp hps).1
    -- the table in which the other places have been cleared
    have ih : Owned dom used (update cell' p (cell p)) (ps.filterMap cell ++ held) := by
      refine ih hps.of_cons (fun q hq => ?_) fun q hq => ?_
      · have e : q ≠ p := fun e => hp (e ▸ hq)
        rw [update_of_ne e]
        exact hin q (List.mem_cons_of_mem _ hq)
      · by_cases e : q = p
        · rw [e, update_self]
        · rw [update_of_ne e]
          exact hout q fun hm => (List.mem_cons.mp hm).elim e hq
    have hp' : cell' p = none := hin p List.mem_cons_self
    cases hb : cell p with
    | some b =>
      rw [List.filterMap_cons_some hb]
      rw [hb] at ih
      have hr := ih.release (p := p) (update_self ..)
      rwa [update_idem, ← hp', update_eq_self] at hr
    | none =>
      rw [List.filterMap_cons_none hb]
      rwa [hb, ← hp', update_eq_self] at ih

end Owned

end Alloc
