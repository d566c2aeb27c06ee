import Mathlib.Algebra.BigOperators.Ring.Finset
import Mathlib.Algebra.Order.BigOperators.Group.Finset

/-! # Trees of directories with link counts

The nodes are free, files or directories. A directory has one entry for the directory above it and
entries for the nodes in it, and is live while its link count is positive. In a `Linked` table the
link count of every node is the number of entries that live directories have for it; each operation
on entries and counts below keeps that, if it is carried out as a whole. A count that is one ahead
of the entries is noted in `extra`. -/

namespace LinkTree

open Function

inductive Kind
  | free | file | dir
  deriving DecidableEq

@[ext]
structure Node (ι : Type*) where
  kind : Kind
  nlink : Int
  /-- The directory above. -/
  up : ι
  /-- The nodes in the directory, one for each entry. -/
  subs : Multiset ι

variable {ι : Type*}

/-- A directory that has not been removed. -/
def Node.Live (x : Node ι) : Prop := x.kind = .dir ∧ 0 < x.nlink

instance (x : Node ι) : Decidable x.Live := inferInstanceAs (Decidable (_ ∧ _))

theorem Node.not_live {x : Node ι} (h : x.kind ≠ .dir) : ¬ x.Live := fun hl => h hl.1

variable [DecidableEq ι]

/-- The number of entries that a live directory has for `i`. -/
def Node.entries (x : Node ι) (i : ι) : Int :=
  if x.Live then (if x.up = i then 1 else 0) + x.subs.count i else 0

/-- The number of entries for `i` in the live directories among `S`. -/
def links (S : Finset ι) (v : ι → Node ι) (i : ι) : Int := ∑ d ∈ S, (v d).entries i

variable {S : Finset ι} {tops : Set ι} {top d i j : ι} {e e' : Option ι} {v : ι → Node ι}
  {x : Node ι}

theorem Node.entries_live (h : x.Live) :
    x.entries i = (if x.up = i then 1 else 0) + x.subs.count i := if_pos h

theorem Node.entries_not_live (h : ¬ x.Live) : x.entries i = 0 := if_neg h

theorem Node.entries_nonneg : 0 ≤ x.entries i := by
  unfold Node.entries
  split
  · split <;> omega
  · exact le_refl _

theorem links_nonneg : 0 ≤ links S v i := Finset.sum_nonneg fun _ _ => Node.entries_nonneg

/-- One assignment changes a count by the new node and the old one. -/
theorem links_update (hd : d ∈ S) :
    links S (update v d x) i = links S v i - (v d).entries i + x.entries i := by
  have hrest : ∑ e ∈ S.erase d, (update v d x e).entries i =
      ∑ e ∈ S.erase d, (v e).entries i :=
    Finset.sum_congr rfl fun e he => by rw [update_of_ne (Finset.ne_of_mem_erase he)]
  rw [links, links, ← Finset.add_sum_erase _ _ hd, hrest, ← Finset.add_sum_erase _ _ hd,
    update_self]
  omega

/-- A node with the same entries as before changes no count. -/
theorem links_update_same (h : ∀ i, x.entries i = (v d).entries i) :
    links S (update v d x) i = links S v i := by
  refine Finset.sum_congr rfl fun e _ => ?_
  by_cases he : e = d
  · rw [he, update_self, h]
  · rw [update_of_ne he]

theorem entries_le_links (hd : d ∈ S) : (v d).entries i ≤ links S v i :=
  Finset.single_le_sum (f := fun e => (v e).entries i) (fun _ _ => Node.entries_nonneg) hd

/-- Going up from `d` leads to one of `tops`. -/
def Climbs (tops : Set ι) (v : ι → Node ι) (d : ι) : Prop := ∃ n, (fun a => (v a).up)^[n] d ∈ tops

/-- The link counts are right, and the live directories are a tree: each is the one entry of the
directory above it, which is live, and lies below one of `tops`. -/
structure Linked (S : Finset ι) (tops : Set ι) (top : ι) (e : Option ι) (v : ι → Node ι) :
    Prop where
  inside : ∀ i, (v i).kind ≠ .free → i ∈ S
  nlink : ∀ i, (v i).kind ≠ .free →
    (v i).nlink = links S v i + if e = some i then 1 else 0
  free : ∀ i, (v i).kind = .free → links S v i = 0
  root : (v top).Live ∧ (v top).up = top
  parent : ∀ d i, (v d).Live → i ∈ (v d).subs → (v i).kind = .dir → i ≠ top ∧ (v i).up = d
  once : ∀ i, (v i).Live → i ≠ top → (v (v i).up).Live ∧ (v (v i).up).subs.count i = 1
  dead : ∀ d, (v d).kind = .dir → ¬ (v d).Live → (v d).subs = 0
  climbs : ∀ d, (v d).Live → Climbs tops v d
  extra : ∀ i, e = some i → (v i).kind = .file

/-- From `v` to `w`, the nodes other than `i` keep their places in the tree. -/
structure Same (v w : ι → Node ι) (i : ι) : Prop where
  kind : ∀ j, j ≠ i → (w j).kind = (v j).kind
  up : ∀ j, j ≠ i → (w j).up = (v j).up
  live : ∀ j, j ≠ i → ((w j).Live ↔ (v j).Live)
  count : ∀ a j, a ≠ i → j ≠ i → (w a).subs.count j = (v a).subs.count j
  dead : ∀ a, a ≠ i → ¬ (v a).Live → (w a).subs = (v a).subs

theorem Same.update : Same v (update v i x) i where
  kind j hj := by rw [update_of_ne hj]
  up j hj := by rw [update_of_ne hj]
  live j hj := by rw [update_of_ne hj]
  count a j ha _ := by rw [update_of_ne ha]
  dead a ha _ := by rw [update_of_ne ha]

/-- A live directory gets or loses an entry for the node. -/
theorem Same.update_dir (hd : (v d).Live) (hy : y.Live) (hup : y.up = (v d).up)
    (hc : ∀ j, j ≠ i → y.subs.count j = (v d).subs.count j) :
    Same v (Function.update (Function.update v i x) d y) i := by
  have hself : Function.update (Function.update v i x) d y d = y := update_self ..
  have hother : ∀ j, j ≠ i → j ≠ d → Function.update (Function.update v i x) d y j = v j := by
    intro j h₁ h₂
    rw [update_of_ne h₂, update_of_ne h₁]
  refine ⟨fun j hj => ?_, fun j hj => ?_, fun j hj => ?_, fun a j ha hj => ?_, fun a ha hl => ?_⟩
  · by_cases e : j = d
    · rw [e, hself, hy.1, hd.1]
    · rw [hother j hj e]
  · by_cases e : j = d
    · rw [e, hself, hup]
    · rw [hother j hj e]
  · by_cases e : j = d
    · rw [e, hself, iff_of_true hy hd]
    · rw [hother j hj e]
  · by_cases e : a = d
    · rw [e, hself, hc j hj]
    · rw [hother a ha e]
  · rw [hother a ha fun e => hl (e ▸ hd)]

namespace Linked

theorem mem (h : Linked S tops top e v) (hd : (v d).Live) : d ∈ S :=
  h.inside d (by rw [hd.1]; decide)

/-- What a live directory has an entry for is in use. -/
theorem links_pos (h : Linked S tops top e v) (hd : (v d).Live) (hi : i ∈ (v d).subs) :
    0 < links S v i := by
  have hle := entries_le_links (i := i) (v := v) (h.mem hd)
  rw [Node.entries_live hd] at hle
  have hc := Multiset.count_pos.mpr hi
  split at hle <;> omega

theorem kind_of_mem (h : Linked S tops top e v) (hd : (v d).Live) (hi : i ∈ (v d).subs) :
    (v i).kind ≠ .free := by
  intro hf
  have := h.links_pos hd hi
  rw [h.free i hf] at this
  exact lt_irrefl _ this

theorem nlink_nonneg (h : Linked S tops top e v) (hi : (v i).kind ≠ .free) : 0 ≤ (v i).nlink := by
  rw [h.nlink i hi]
  have := links_nonneg (S := S) (v := v) (i := i)
  split <;> omega

/-- A directory whose count is not zero is live. -/
theorem live (h : Linked S tops top e v) (hd : (v d).kind = .dir) (hn : (v d).nlink ≠ 0) :
    (v d).Live :=
  ⟨hd, lt_of_le_of_ne (h.nlink_nonneg (by rw [hd]; decide)) hn.symm⟩

/-- What live directories have entries for has a positive count. -/
theorem nlink_pos (h : Linked S tops top e v) (hd : (v d).Live) (hi : i ∈ (v d).subs) :
    0 < (v i).nlink := by
  rw [h.nlink i (h.kind_of_mem hd hi)]
  have := h.links_pos hd hi
  split <;> omega

/-- The directory above a live one is live. -/
theorem live_up (h : Linked S tops top e v) (hd : (v d).Live) : (v (v d).up).Live := by
  by_cases htop : d = top
  · subst htop
    rw [h.root.2]
    exact h.root.1
  · exact (h.once d hd htop).1

/-- The way up does not lead through a node that is above none. -/
theorem climbs_of_same (h : Linked S tops top e v) (hs : Same v w i) (htop : top ≠ i)
    (hup : ∀ j, (v j).Live → j ≠ top → (v j).up ≠ i) (hj : (v j).Live) (hji : j ≠ i) :
    Climbs tops w j := by
  obtain ⟨n, hn⟩ := h.climbs j hj
  refine ⟨n, ?_⟩
  induction n generalizing j with
  | zero => exact hn
  | succ n ih =>
    rw [iterate_succ_apply] at hn ⊢
    rw [hs.up j hji]
    refine ih (h.live_up hj) ?_ hn
    by_cases e' : j = top
    · subst e'
      rwa [h.root.2]
    · exact hup j hj e'

/-- A tree stays one if it does so at the node that changes, and the counts of the other nodes
change with their entries. -/
theorem of_same (h : Linked S tops top e v) (hs : Same v w i) (hS : (w i).kind ≠ .free → i ∈ S)
    (htop : top ≠ i) (hup : ∀ j, (v j).Live → j ≠ top → (v j).up ≠ i)
    (hlinks : ∀ j, j ≠ i → (w j).nlink - links S w j = (v j).nlink - links S v j ∧
      ((v j).kind = .free → links S w j = links S v j))
    (hn : (w i).kind ≠ .free → (w i).nlink = links S w i + if e' = some i then 1 else 0)
    (hfree : (w i).kind = .free → links S w i = 0)
    (hparent : ∀ a, (w a).Live → i ∈ (w a).subs → (w i).kind = .dir → (w i).up = a)
    (honce : (w i).Live → (w (w i).up).Live ∧ (w (w i).up).subs.count i = 1)
    (hsubs : (w i).kind = .dir → (w i).subs = 0)
    (he : ∀ j, j ≠ i → (e' = some j ↔ e = some j)) (hextra : e' = some i → (w i).kind = .file) :
    Linked S tops top e' w := by
  refine ⟨fun j hj => ?_, fun j hj => ?_, fun j hj => ?_, ?_, fun a j ha hj hk => ?_,
    fun j hj hr => ?_, fun a ha hl => ?_, fun j hj => ?_, fun j hj => ?_⟩
  · by_cases e : j = i
    · exact e ▸ hS (e ▸ hj)
    · exact h.inside j (hs.kind j e ▸ hj)
  · by_cases e : j = i
    · subst e
      exact hn hj
    · have h₁ := (hlinks j e).1
      have h₂ := h.nlink j (hs.kind j e ▸ hj)
      rw [if_congr (he j e) rfl rfl]
      omega
  · by_cases e : j = i
    · subst e
      exact hfree hj
    · rw [hs.kind j e] at hj
      rw [(hlinks j e).2 hj, h.free j hj]
  · rw [hs.live top htop, hs.up top htop]
    exact h.root
  · have ea : a ≠ i := by
      rintro rfl
      simp [hsubs ha.1] at hj
    by_cases e : j = i
    · subst e
      exact ⟨htop.symm, hparent a ha hj hk⟩
    · rw [← Multiset.count_pos, hs.count a j ea e, Multiset.count_pos] at hj
      rw [hs.kind j e] at hk
      rw [hs.up j e]
      exact h.parent a j ((hs.live a ea).mp ha) hj hk
  · by_cases e : j = i
    · subst e
      exact honce hj
    · rw [hs.live j e] at hj
      have e' := hup j hj hr
      rw [hs.up j e, hs.live _ e', hs.count _ _ e' e]
      exact h.once j hj hr
  · by_cases e : a = i
    · subst e
      exact hsubs ha
    · rw [hs.live a e] at hl
      rw [hs.dead a e hl]
      exact h.dead a (hs.kind a e ▸ ha) hl
  · by_cases e : j = i
    · subst e
      obtain ⟨hl, hc⟩ := honce hj
      have hne : (w j).up ≠ j := by
        intro e'
        rw [e', hsubs hj.1] at hc
        simp at hc
      obtain ⟨n, hn⟩ := h.climbs_of_same hs htop hup ((hs.live _ hne).mp hl) hne
      exact ⟨n + 1, hn⟩
    · exact h.climbs_of_same hs htop hup ((hs.live j e).mp hj) e
  · by_cases e : j = i
    · subst e
      exact hextra hj
    · rw [hs.kind j e]
      exact h.extra j ((he j e).mp hj)

/-- A node that is no directory, before and after. -/
theorem setNode (h : Linked S tops top e v) (hi : ¬ (v i).Live) (hx : x.kind ≠ .dir)
    (hS : x.kind ≠ .free → i ∈ S)
    (hn : x.kind ≠ .free → x.nlink = links S v i + if e' = some i then 1 else 0)
    (hfree : x.kind = .free → links S v i = 0) (he : ∀ j, j ≠ i → (e' = some j ↔ e = some j))
    (hextra : e' = some i → x.kind = .file) : Linked S tops top e' (update v i x) := by
  have hlinks : ∀ j, links S (update v i x) j = links S v j := fun j =>
    links_update_same fun j => by
      rw [Node.entries_not_live hi, Node.entries_not_live (Node.not_live hx)]
  refine h.of_same .update ?_ (fun e => hi (e ▸ h.root.1))
    (fun j hj hr e => hi (e ▸ (h.once j hj hr).1))
    (fun j e => by rw [hlinks, update_of_ne e]; exact ⟨rfl, fun _ => rfl⟩) ?_ ?_ ?_ ?_ ?_ he ?_
  all_goals rw [update_self]
  · exact hS
  · rw [hlinks]
    exact hn
  · rw [hlinks]
    exact hfree
  · exact fun _ _ _ hk => absurd hk hx
  · exact fun hl => absurd hl.1 hx
  · exact fun hk => absurd hk hx
  · exact hextra

/-- A node that nobody refers to becomes free. -/
theorem release (h : Linked S tops top e v) (hd : (v d).nlink = 0) (hx : x.kind = .free) :
    Linked S tops top e (update v d x) := by
  have hnonneg := links_nonneg (S := S) (v := v) (i := d)
  refine h.setNode (fun hl => absurd hd hl.2.ne') (by rw [hx]; decide) (absurd hx) (absurd hx)
    (fun _ => ?_) (fun _ _ => .rfl) fun hi => ?_
  · by_cases hf : (v d).kind = .free
    · exact h.free d hf
    · have hn := h.nlink d hf
      split at hn <;> omega
  · have hn := h.nlink d (by rw [h.extra d hi]; decide)
    rw [if_pos hi] at hn
    omega

/-- The count of a file changes, or a free node becomes a file. -/
theorem setFile (h : Linked S tops top e v) (hS : i ∈ S) (hi : (v i).kind ≠ .dir)
    (hx : x.kind = .file) (hn : x.nlink = links S v i + if e' = some i then 1 else 0)
    (he : ∀ j, j ≠ i → (e' = some j ↔ e = some j)) : Linked S tops top e' (update v i x) :=
  h.setNode (Node.not_live hi) (by rw [hx]; decide) (fun _ => hS) (fun _ => hn)
    (fun hf => by rw [hx] at hf; cases hf) he fun _ => hx

/-- A field that does not change at the node changes nowhere. -/
theorem field_update {g : Node ι → β} (hg : g x = g (v d)) (j : ι) :
    g (update v d x j) = g (v j) := by
  by_cases e : j = d
  · rw [e, update_self, hg]
  · rw [update_of_ne e]

/-- The entries of a live directory for files change, and what they lack is noted. -/
theorem setSubs (h : Linked S tops top e v) (hd : (v d).Live)
    (hf : ∀ j, e' = some j → (v j).kind = .file)
    (hc : ∀ j, (subs.count j : Int) + (if e' = some j then 1 else 0) =
      (v d).subs.count j + if e = some j then 1 else 0) :
    Linked S tops top e' (update v d { v d with subs := subs }) := by
  have hself : update v d { v d with subs := subs } d = { v d with subs := subs } :=
    update_self ..
  have hother : ∀ j, j ≠ d → update v d { v d with subs := subs } j = v j := fun j hj =>
    update_of_ne hj ..
  have hlinks : ∀ j, links S (update v d { v d with subs := subs }) j +
      (if e' = some j then 1 else 0) = links S v j + if e = some j then 1 else 0 := by
    intro j
    have hl : Node.Live { v d with subs := subs } := hd
    rw [links_update (h.mem hd), Node.entries_live hd, Node.entries_live hl]
    have := hc j
    dsimp only
    omega
  -- the entries for directories stay
  have hcount : ∀ j, (v j).kind ≠ .file → subs.count j = (v d).subs.count j := by
    intro j hj
    have h₁ := hc j
    rw [if_neg fun he => hj (hf j he), if_neg fun he => hj (h.extra j he)] at h₁
    omega
  have hkind : ∀ j, (update v d { v d with subs := subs } j).kind = (v j).kind :=
    field_update (g := Node.kind) rfl
  have hnlink : ∀ j, (update v d { v d with subs := subs } j).nlink = (v j).nlink :=
    field_update (g := Node.nlink) rfl
  have hup : ∀ j, (update v d { v d with subs := subs } j).up = (v j).up :=
    field_update (g := Node.up) rfl
  have hlive : ∀ j, (update v d { v d with subs := subs } j).Live ↔ (v j).Live := by
    intro j
    rw [Node.Live, Node.Live, hkind, hnlink]
  have hsub : ∀ a j, (v j).kind ≠ .file →
      (update v d { v d with subs := subs } a).subs.count j = (v a).subs.count j := by
    intro a j hj
    by_cases e : a = d
    · rw [e, hself]
      exact hcount j hj
    · rw [hother a e]
  refine ⟨fun j hj => h.inside j (hkind j ▸ hj), fun j hj => ?_, fun j hj => ?_, ?_,
    fun a j ha hj hk => ?_, fun j hj hr => ?_, fun a ha hn => ?_, fun j hj => ?_, fun j hj => ?_⟩
  · rw [hnlink, hlinks]
    exact h.nlink j (hkind j ▸ hj)
  · rw [hkind] at hj
    have hl := hlinks j
    have hj' : (v j).kind ≠ .file := by rw [hj]; decide
    rw [if_neg fun he => hj' (hf j he), if_neg fun he => hj' (h.extra j he), h.free j hj] at hl
    omega
  · rw [hlive, hup]
    exact h.root
  · rw [hkind] at hk
    rw [hup]
    have hj' : (v j).kind ≠ .file := by rw [hk]; decide
    rw [← Multiset.count_pos, hsub a j hj', Multiset.count_pos] at hj
    exact h.parent a j ((hlive a).mp ha) hj hk
  · rw [hlive] at hj
    rw [hup, hlive, hsub _ _ (by rw [hj.1]; decide)]
    exact h.once j hj hr
  · rw [hlive] at hn
    rw [hkind] at ha
    have e : a ≠ d := by
      rintro rfl
      exact hn hd
    rw [hother a e]
    exact h.dead a ha hn
  · rw [Climbs, funext hup]
    exact h.climbs j ((hlive j).mp hj)
  · rw [hkind]
    exact hf j hj

/-- A free node becomes a directory in `d`. -/
theorem mkdir (h : Linked S tops top none v) (hd : (v d).Live) (hS : i ∈ S)
    (hi : (v i).kind = .free) (hx : x.kind = .dir ∧ x.nlink = 1 ∧ x.up = d ∧ x.subs = 0)
    (hy : y.kind = .dir ∧ y.nlink = (v d).nlink + 1 ∧ y.up = (v d).up ∧ y.subs = i ::ₘ (v d).subs) :
    Linked S tops top none (update (update v i x) d y) := by
  obtain ⟨hxk, hxn, hxu, hxs⟩ := hx
  obtain ⟨hyk, hyn, hyu, hys⟩ := hy
  have hne : i ≠ d := by
    rintro rfl
    rw [hd.1] at hi
    cases hi
  set w := update (update v i x) d y with hw
  have hwd : w d = y := update_self ..
  have hwi : w i = x := by rw [hw, update_of_ne hne, update_self]
  have hother : ∀ j, j ≠ i → j ≠ d → w j = v j := fun j h₁ h₂ => by
    rw [hw, update_of_ne h₂, update_of_ne h₁]
  have hxl : x.Live := ⟨hxk, by omega⟩
  have hyl : y.Live := ⟨hyk, by have := hd.2; omega⟩
  have hvi : ¬ (v i).Live := Node.not_live (by rw [hi]; decide)
  have hlinks : ∀ j, links S w j = links S v j + (if d = j then 1 else 0) +
      if i = j then 1 else 0 := by
    intro j
    rw [hw, links_update (h.mem hd), links_update hS, update_of_ne hne.symm,
      Node.entries_not_live hvi, Node.entries_live hxl, Node.entries_live hyl,
      Node.entries_live hd, hxu, hxs, hyu, hys, Multiset.count_cons]
    by_cases e : i = j
    · simp [e]
      omega
    · have e' : ¬ j = i := fun e' => e e'.symm
      simp [e, e']
  have hnotin : ∀ a, (v a).Live → i ∉ (v a).subs := fun a ha hm => h.kind_of_mem ha hm hi
  refine h.of_same (i := i) (.update_dir hd hyl hyu fun j hj => ?_) (fun _ => hS)
    (fun e => hvi (e ▸ h.root.1)) (fun j hj hr e => hvi (e ▸ (h.once j hj hr).1)) (fun j e => ?_)
    (fun _ => ?_) (fun hf => ?_) (fun a ha hj _ => ?_) (fun _ => ?_) (fun _ => by rw [hwi, hxs])
    (fun _ _ => .rfl) nofun
  · rw [hys, Multiset.count_cons_of_ne hj]
  · rw [hlinks, if_neg e.symm]
    by_cases e' : j = d
    · rw [e', hwd, if_pos rfl, hd.1]
      exact ⟨by omega, nofun⟩
    · rw [hother j e e', if_neg (Ne.symm e')]
      exact ⟨by omega, fun _ => by omega⟩
  · rw [hlinks, hwi, hxn, h.free i hi]
    simp [hne.symm]
  · rw [hwi, hxk] at hf
    cases hf
  · by_cases e' : a = d
    · rw [hwi, hxu, e']
    · have ea : a ≠ i := by
        rintro rfl
        simp [hwi, hxs] at hj
      rw [hother a ea e'] at ha hj
      exact absurd hj (hnotin a ha)
  · rw [hwi, hxu, hwd, hys, Multiset.count_cons_self,
      Multiset.count_eq_zero_of_notMem (hnotin d hd)]
    exact ⟨hyl, rfl⟩

/-- An empty directory has one entry. -/
theorem links_empty (h : Linked S tops top e v) (hd : (v d).Live) (hi : i ∈ (v d).subs)
    (hk : (v i).kind = .dir) (he : (v i).subs = 0) : links S v i = 1 := by
  obtain ⟨hr, hup⟩ := h.parent d i hd hi hk
  have hl : (v i).Live := ⟨hk, h.nlink_pos hd hi⟩
  have hentries : ∀ a ∈ S, (v a).entries i = if a = d then 1 else 0 := by
    intro a _
    by_cases ha : (v a).Live
    · -- the directory above `a` is not `i`, which has no entry for `a`
      have hupa : (v a).up ≠ i := by
        intro e'
        by_cases hroot : a = top
        · subst hroot
          exact hr (e'.symm.trans h.root.2)
        · have hc := (h.once a ha hroot).2
          rw [e', he] at hc
          simp at hc
      rw [Node.entries_live ha, if_neg hupa]
      by_cases e' : a = d
      · have hc := (h.once i hl hr).2
        rw [hup] at hc
        simp [e', hc]
      · have hn : i ∉ (v a).subs := fun hm => e' ((h.parent a i ha hm hk).2.symm.trans hup)
        simp [e', Multiset.count_eq_zero_of_notMem hn]
    · have e' : a ≠ d := by
        rintro rfl
        exact ha hd
      rw [Node.entries_not_live ha, if_neg e']
  rw [links, Finset.sum_congr rfl hentries, Finset.sum_ite_eq' S d, if_pos (h.mem hd)]

/-- A directory with a directory `i` in it has another entry than that of `i`. -/
theorem two_le_links (h : Linked S tops top e v) (hd : (v d).Live) (hi : (v i).Live)
    (hup : (v i).up = d) (he : (v i).subs = 0) (hne : i ≠ d) :
    2 ≤ links S v d := by
  have hother : ∃ a ∈ S, a ≠ i ∧ 1 ≤ (v a).entries d := by
    by_cases hroot : d = top
    · refine ⟨d, h.mem hd, hne.symm, ?_⟩
      rw [Node.entries_live hd, if_pos (by rw [hroot]; exact h.root.2)]
      omega
    · obtain ⟨hl, hc⟩ := h.once d hd hroot
      refine ⟨_, h.mem hl, ?_, ?_⟩
      · intro e'
        rw [e', he] at hc
        simp at hc
      · rw [Node.entries_live hl, hc]
        split <;> omega
  obtain ⟨a, ha, hai, hle⟩ := hother
  have hone : 1 ≤ (v i).entries d := by
    rw [Node.entries_live hi, if_pos hup]
    omega
  have hrest : (v a).entries d ≤ ∑ b ∈ S.erase i, (v b).entries d :=
    Finset.single_le_sum (f := fun b => (v b).entries d) (fun _ _ => Node.entries_nonneg)
      (Finset.mem_erase.mpr ⟨hai, ha⟩)
  rw [links, ← Finset.add_sum_erase _ _ (h.mem hi)]
  omega

/-- An empty directory is removed from `d`. -/
theorem rmdir (h : Linked S tops top none v) (hd : (v d).Live) (hk : (v i).kind = .dir)
    (he : (v i).subs = 0)
    (hy : y.kind = .dir ∧ y.nlink = (v d).nlink - 1 ∧ y.up = (v d).up ∧
      (v d).subs = i ::ₘ y.subs)
    (hx : x.kind = .dir ∧ x.nlink = (v i).nlink - 1 ∧ x.subs = 0) :
    Linked S tops top none (update (update v d y) i x) ∧ 0 < y.nlink := by
  obtain ⟨hyk, hyn, hyu, hys⟩ := hy
  obtain ⟨hxk, hxn, hxs⟩ := hx
  have hi : i ∈ (v d).subs := by simp [hys]
  obtain ⟨hr, hup⟩ := h.parent d i hd hi hk
  have hl : (v i).Live := ⟨hk, h.nlink_pos hd hi⟩
  have hone := h.links_empty hd hi hk he
  have hne : i ≠ d := by
    rintro rfl
    rw [he] at hi
    simp at hi
  have hni : (v i).nlink = 1 := by
    rw [h.nlink i (by rw [hk]; decide), hone]
    simp
  have htwo := h.two_le_links hd hl hup he hne
  have hnd : (v d).nlink = links S v d := by
    rw [h.nlink d (by rw [hd.1]; decide)]
    simp
  refine ⟨?_, by omega⟩
  rw [update_comm hne.symm]
  set w := update (update v i x) d y with hw
  have hwd : w d = y := update_self ..
  have hwi : w i = x := by rw [hw, update_of_ne hne, update_self]
  have hother : ∀ j, j ≠ i → j ≠ d → w j = v j := fun j h₁ h₂ => by
    rw [hw, update_of_ne h₂, update_of_ne h₁]
  have hxl : ¬ x.Live := fun hx => by have := hx.2; omega
  have hyl : y.Live := ⟨hyk, by omega⟩
  have hlinks : ∀ j, links S w j = links S v j - (if d = j then 1 else 0) -
      if i = j then 1 else 0 := by
    intro j
    rw [hw, links_update (h.mem hd), links_update (h.mem hl), update_of_ne hne.symm,
      Node.entries_not_live hxl, Node.entries_live hl, Node.entries_live hyl,
      Node.entries_live hd, hup, he, hyu, hys]
    by_cases e' : i = j
    · simp [e']
      omega
    · simp [e', Multiset.count_cons_of_ne (Ne.symm e')]
  refine h.of_same (i := i) (.update_dir hd hyl hyu fun j hj => ?_) (fun _ => h.mem hl) hr.symm
    (fun j hj hrj e' => ?_) (fun j e => ?_) (fun _ => ?_) (fun hf => ?_) (fun a ha hj _ => ?_)
    (fun hw => absurd (hwi ▸ hw) hxl) (fun _ => by rw [hwi, hxs]) (fun _ _ => .rfl) nofun
  · rw [hys, Multiset.count_cons_of_ne hj]
  · have hc := (h.once j hj hrj).2
    simp [e', he] at hc
  · rw [hlinks, if_neg e.symm]
    by_cases e' : j = d
    · rw [e', hwd, if_pos rfl, hd.1]
      exact ⟨by omega, nofun⟩
    · rw [hother j e e', if_neg (Ne.symm e')]
      exact ⟨by omega, fun _ => by omega⟩
  · rw [hlinks, hwi, hone]
    simp [hne.symm]
    omega
  · rw [hwi, hxk] at hf
    cases hf
  · -- the entry of `i` was the only one
    have ea : a ≠ i := by
      rintro rfl
      exact hxl (hwi ▸ ha)
    by_cases e' : a = d
    · have hc := (h.once i hl hr).2
      rw [hup, hys, Multiset.count_cons_self, Nat.add_eq_right] at hc
      rw [e', hwd] at hj
      exact absurd hj (Multiset.count_eq_zero.mp hc)
    · rw [hother a ea e'] at ha hj
      exact absurd ((h.parent a i ha hj hk).2.symm.trans hup) e'

end Linked

end LinkTree
