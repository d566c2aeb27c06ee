import Mathlib.Order.Interval.Finset.Nat
import Xv6.Fs.Sysfile
import Xv6.Lib.LinkTree

/-! # Link counts

The inodes as the nodes of a tree of directories: the entries of a directory are those for itself
and for the directory above it, and those for the nodes in it. Each lemma is about one change that
a system call makes to inodes and entries. -/

namespace Xv6.Fs

open Function LinkTree

/-- The numbers of inodes that can be allocated. -/
def inums : Finset Nat := Finset.Ico 1 NINODES

/-- What the entries of a directory refer to, beside the first two. -/
def Inode.subs (x : Inode) : List Nat := ((x.entries.drop 2).map Dirent.inum).filter (· ≠ 0)

/-- An inode as a node of the tree. -/
def Inode.node (x : Inode) : Node Nat where
  kind := match x.type with
    | none => .free
    | some .T_DIR => .dir
    | some _ => .file
  nlink := x.nlink.toInt
  up := x.entries[1]?.elim 0 Dirent.inum
  subs := x.subs

/-- A directory starts with entries for itself and for the directory above it. -/
def Dots (d : Nat) (x : Inode) : Prop :=
  ∃ up rest, x.entries = ⟨d, dot⟩ :: ⟨up, dotdot⟩ :: rest ∧ up ≠ 0 ∧
    ∀ de ∈ rest, de.inum ≠ 0 → de.name ≠ dot

/-- The link counts of the inodes are right, but that of `extra` may be one too many, and every
directory with links is below one of `tops`. -/
structure Tree (tops : Set Nat) (extra : Option Nat) (inode : Nat → Inode) : Prop where
  linked : Linked inums tops ROOTINO extra (Inode.node ∘ inode)
  dots : ∀ d, (inode d).type = some .T_DIR → Dots d (inode d)

def entryCount (inode : Nat → Inode) : Nat := ∑ d ∈ inums, (inode d).entries.length

variable {tops : Set Nat} {extra : Option Nat} {i d : Nat} {x y : Inode} {inode : Nat → Inode}
  {name : Name}

/-! ## Nodes -/

theorem Inode.node_kind_eq_free : x.node.kind = .free ↔ x.type = none := by
  cases h : x.type with
  | none => simp [Inode.node, h]
  | some t => cases t <;> simp [Inode.node, h]

theorem Inode.node_kind_eq_dir : x.node.kind = .dir ↔ x.type = some .T_DIR := by
  cases h : x.type with
  | none => simp [Inode.node, h]
  | some t => cases t <;> simp [Inode.node, h]

theorem Inode.node_kind_eq_file : x.node.kind = .file ↔ x.type ≠ none ∧ x.type ≠ some .T_DIR := by
  cases h : x.type with
  | none => simp [Inode.node, h]
  | some t => cases t <;> simp [Inode.node, h]

/-- The first two entries stay when one is added. -/
theorem addEntry_cons_cons (h₀ : e₀.inum ≠ 0) (h₁ : e₁.inum ≠ 0) :
    addEntry (e₀ :: e₁ :: rest) de = e₀ :: e₁ :: addEntry rest de := by
  simp only [addEntry, List.findIdx?_cons, h₀, h₁, decide_false, Bool.false_eq_true, if_false,
    Option.map_map]
  cases rest.findIdx? fun de => de.inum = 0 with
  | none | some => rfl

theorem mem_addEntry (h : e ∈ addEntry l de) : e = de ∨ e ∈ l := by
  unfold addEntry at h
  split at h
  · exact (List.mem_or_eq_of_mem_set h).symm
  · simpa [or_comm] using h

/-- A free entry is taken, or one is appended. -/
theorem filter_addEntry (l : List Dirent) (h : de.inum ≠ 0) :
    ((((addEntry l de).map Dirent.inum).filter (· ≠ 0) : List Nat) : Multiset Nat) =
      de.inum ::ₘ (((l.map Dirent.inum).filter (· ≠ 0) : List Nat) : Multiset Nat) := by
  induction l with
  | nil => simp [addEntry, h]
  | cons e l ih =>
    by_cases he : e.inum = 0
    · simp [addEntry, List.findIdx?_cons, he, h]
    · have hcons : addEntry (e :: l) de = e :: addEntry l de := by
        simp only [addEntry, List.findIdx?_cons, he, decide_false, Bool.false_eq_true, if_false]
        cases l.findIdx? fun de => de.inum = 0 with
        | none | some => rfl
      rw [hcons]
      simp only [List.map_cons, List.filter_cons, he, ne_eq, not_false_eq_true, decide_true,
        if_true, ← Multiset.cons_coe, ih]
      exact Multiset.cons_swap ..

/-- An entry is cleared. -/
theorem filter_set_zero (l : List Dirent) (hd : l[off]? = some de) (h : de.inum ≠ 0) :
    (((l.map Dirent.inum).filter (· ≠ 0) : List Nat) : Multiset Nat) =
      de.inum ::ₘ ((((l.set off ⟨0, []⟩).map Dirent.inum).filter (· ≠ 0) : List Nat)) := by
  induction l generalizing off with
  | nil => simp at hd
  | cons e l ih =>
    cases off with
    | zero =>
      simp only [List.getElem?_cons_zero, Option.some.injEq] at hd
      subst hd
      simp [h]
    | succ off =>
      simp only [List.getElem?_cons_succ] at hd
      by_cases he : e.inum = 0
      · simpa [he] using ih hd
      · simp only [List.map_cons, List.set_cons_succ, List.filter_cons, he, ne_eq,
          not_false_eq_true, decide_true, if_true, ← Multiset.cons_coe]
        rw [ih hd]
        exact Multiset.cons_swap ..

namespace Dots

theorem node_up (h : x.entries = ⟨d, dot⟩ :: ⟨up, dotdot⟩ :: rest) : x.node.up = up := by
  simp [Inode.node, h]

theorem subs_eq (h : x.entries = e₀ :: e₁ :: rest) :
    x.subs = (rest.map Dirent.inum).filter (· ≠ 0) := by
  simp [Inode.subs, h]

/-- An entry with a new name is added. -/
theorem add (h : Dots d x) (hd : d ≠ 0) (hi : i ≠ 0) (hn : n ≠ dot)
    (he : y.entries = addEntry x.entries ⟨i, n⟩) :
    Dots d y ∧ y.node.up = x.node.up ∧ y.node.subs = i ::ₘ x.node.subs := by
  obtain ⟨up, rest, hx, hup, hrest⟩ := h
  have hy : y.entries = ⟨d, dot⟩ :: ⟨up, dotdot⟩ :: addEntry rest ⟨i, n⟩ := by
    rw [he, hx, addEntry_cons_cons hd hup]
  refine ⟨⟨up, _, hy, hup, fun de hde h0 => ?_⟩, (node_up hy).trans (node_up hx).symm, ?_⟩
  · rcases mem_addEntry hde with rfl | hde
    · exact hn
    · exact hrest de hde h0
  · change (y.subs : Multiset Nat) = i ::ₘ (x.subs : Multiset Nat)
    rw [subs_eq hy, subs_eq hx]
    exact filter_addEntry rest hi

/-- An entry after the first two is cleared. -/
theorem clear (h : Dots d x) (ho : 2 ≤ off) (hde : x.entries[off]? = some de) (hi : de.inum ≠ 0)
    (he : y.entries = x.entries.set off ⟨0, []⟩) :
    Dots d y ∧ y.node.up = x.node.up ∧ x.node.subs = de.inum ::ₘ y.node.subs := by
  obtain ⟨up, rest, hx, hup, hrest⟩ := h
  obtain ⟨off, rfl⟩ := Nat.exists_eq_add_of_le' ho
  rw [hx] at hde
  have hy : y.entries = ⟨d, dot⟩ :: ⟨up, dotdot⟩ :: rest.set off ⟨0, []⟩ := by rw [he, hx]; rfl
  refine ⟨⟨up, _, hy, hup, fun de hde h0 => ?_⟩, (node_up hy).trans (node_up hx).symm, ?_⟩
  · rcases List.mem_or_eq_of_mem_set hde with hde | rfl
    · exact hrest de hde h0
    · exact absurd rfl h0
  · change (x.subs : Multiset Nat) = de.inum ::ₘ (y.subs : Multiset Nat)
    rw [subs_eq hy, subs_eq hx]
    exact filter_set_zero rest (by simpa using hde) hi

/-- A directory is found under its own name. -/
theorem lookup_dot (h : Dots d x) (hd : d ≠ 0) : x.lookup dot = some 0 := by
  obtain ⟨up, rest, hx, -⟩ := h
  have hn : namecmp dot dot = 0 := by decide
  simp [Inode.lookup, hx, List.findIdx?_cons, hd, hn]

/-- What is found under another name stands after the first two entries. -/
theorem lookup_ge (h : Dots d x) (hl : x.lookup name = some off) (h₀ : namecmp name dot ≠ 0)
    (h₁ : namecmp name dotdot ≠ 0) : 2 ≤ off := by
  obtain ⟨up, rest, hx, -⟩ := h
  obtain ⟨hlt, hp, -⟩ := List.findIdx?_eq_some_iff_getElem.mp hl
  rcases off with _ | _ | off
  · simp [hx, h₀] at hp
  · simp [hx, h₁] at hp
  · omega

theorem entries_le (h : Dots d x) : x.node.entries i ≤ x.entries.length := by
  obtain ⟨up, rest, hx, -⟩ := h
  have hc : x.node.subs.count i ≤ rest.length := by
    change (x.subs : Multiset Nat).count i ≤ _
    rw [subs_eq hx]
    refine (Multiset.count_le_card ..).trans ?_
    exact (List.length_filter_le ..).trans (by simp)
  have hlen : x.entries.length = rest.length + 2 := by simp [hx]
  unfold Node.entries
  split
  · split <;> omega
  · omega

end Dots

theorem toInt_add_one {n : Int16} (h : n.toInt < 2 ^ 15 - 1) : (n + 1).toInt = n.toInt + 1 := by
  rw [Int16.toInt_add]
  have := n.le_toInt
  exact Int.bmod_eq_of_le (by simp; omega) (by simp; omega)

theorem toInt_sub_one {n : Int16} (h : 0 < n.toInt) : (n + -1).toInt = n.toInt - 1 := by
  rw [Int16.toInt_add]
  have := n.toInt_lt
  exact Int.bmod_eq_of_le (by simp; omega) (by simp; omega)

/-- The directories get no larger. -/
theorem entryCount_update_le (h : x.entries.length ≤ (inode d).entries.length) :
    entryCount (update inode d x) ≤ entryCount inode := by
  refine Finset.sum_le_sum fun a _ => ?_
  by_cases e : a = d
  · rwa [e, update_self]
  · rw [update_of_ne e]

namespace Tree

theorem comp_update : Inode.node ∘ update inode d x =
    update (Inode.node ∘ inode) d x.node := Function.comp_update ..

theorem inside (h : Tree tops extra inode) (hi : (inode i).type ≠ none) : 1 ≤ i ∧ i < NINODES := by
  have := h.linked.inside i fun e => hi (Inode.node_kind_eq_free.mp e)
  simpa [inums] using this

theorem dots_update (h : Tree tops extra inode) (hx : x.type = some .T_DIR → Dots d x) (a : Nat)
    (ha : (update inode d x a).type = some .T_DIR) :
    Dots a (update inode d x a) := by
  by_cases e : a = d
  · subst e
    rw [update_self] at ha ⊢
    exact hx ha
  · rw [update_of_ne e] at ha ⊢
    exact h.dots a ha

theorem release (h : Tree tops extra inode) (hn : (inode d).nlink = 0) (hx : x.type = none) :
    Tree tops extra (update inode d x) := by
  refine ⟨?_, h.dots_update fun hd => ?_⟩
  · rw [comp_update]
    refine h.linked.release ?_ (Inode.node_kind_eq_free.mpr hx)
    simp [Inode.node, hn]
  · rw [hx] at hd
    cases hd

theorem live (h : Tree tops extra inode) (hd : (inode d).type = some .T_DIR)
    (hn : (inode d).nlink ≠ 0) : (inode d).node.Live := by
  refine h.linked.live (Inode.node_kind_eq_dir.mpr hd) fun e => hn ?_
  exact Int16.toInt_inj.mp e

/-- A directory that has been removed is empty. -/
theorem live_of_subs (h : Tree tops extra inode) (hd : (inode d).type = some .T_DIR)
    (hs : (inode d).node.subs ≠ 0) : (inode d).node.Live := by
  by_contra hn
  exact hs (h.linked.dead d (Inode.node_kind_eq_dir.mpr hd) hn)

/-- A name that is not there is not that of the directory itself. -/
theorem take_ne_dot (h : Tree tops extra inode) (hd : (inode d).type = some .T_DIR)
    (hl : (inode d).lookup name = none) : name.take DIRSIZ ≠ dot := by
  intro e
  have hlen : name.length = 1 := by
    have := congrArg List.length e
    simp only [List.length_take, dot, List.length_cons, List.length_nil, DIRSIZ] at this
    omega
  rw [List.take_of_length_le (by rw [hlen]; decide)] at e
  have h0 : d ≠ 0 := by
    have := (h.inside (i := d) (by rw [hd]; nofun)).1
    omega
  rw [e, (h.dots d hd).lookup_dot h0] at hl
  cases hl

theorem ne_zero (h : Tree tops extra inode) (hi : (inode i).type ≠ none) : i ≠ 0 := by
  have := (h.inside hi).1
  omega

/-- An entry for `i` is made. -/
theorem enter (h : Tree tops (some i) inode) (hd : (inode d).type = some .T_DIR)
    (hn : (inode d).nlink ≠ 0) (hl : (inode d).lookup name = none) (ht : x.type = some .T_DIR)
    (hx : x.nlink = (inode d).nlink)
    (he : x.entries = addEntry (inode d).entries ⟨i, name.take DIRSIZ⟩) :
    Tree tops none (update inode d x) := by
  have hk := Inode.node_kind_eq_file.mp (h.linked.extra i rfl)
  obtain ⟨hdots, hup, hsubs⟩ := (h.dots d hd).add (h.ne_zero (by rw [hd]; nofun)) (h.ne_zero hk.1)
    (h.take_ne_dot hd hl) he
  refine ⟨?_, h.dots_update fun _ => hdots⟩
  have hnode : x.node = { (inode d).node with subs := i ::ₘ (inode d).node.subs } :=
    Node.ext (by simp [Inode.node, ht, hd]) (by simp [Inode.node, hx]) hup hsubs
  rw [comp_update, hnode]
  refine h.linked.setSubs (h.live hd hn) nofun fun j => ?_
  rw [Multiset.count_cons]
  by_cases e : i = j
  · simp [e]
  · simp [e, Ne.symm e]

/-- The entry for a file is cleared. -/
theorem leave (h : Tree tops none inode) (hd : (inode d).type = some .T_DIR) (ho : 2 ≤ off)
    (hde : (inode d).entries[off]? = some de) (hi : de.inum ≠ 0)
    (hk : (inode de.inum).type ≠ some .T_DIR) (ht : x.type = some .T_DIR)
    (hx : x.nlink = (inode d).nlink) (he : x.entries = (inode d).entries.set off ⟨0, []⟩) :
    Tree tops (some de.inum) (update inode d x) := by
  obtain ⟨hdots, hup, hsubs⟩ := (h.dots d hd).clear ho hde hi he
  have hlive : (inode d).node.Live := h.live_of_subs hd (by simp [hsubs])
  refine ⟨?_, h.dots_update fun _ => hdots⟩
  have hnode : x.node = { (inode d).node with subs := x.node.subs } :=
    Node.ext (by simp [Inode.node, ht, hd]) (by simp [Inode.node, hx]) hup rfl
  rw [comp_update, hnode]
  refine h.linked.setSubs hlive ?_ fun j => ?_
  · rintro j ⟨⟩
    have hmem : de.inum ∈ (inode d).node.subs := by simp [hsubs]
    refine Inode.node_kind_eq_file.mpr ⟨fun e => ?_, hk⟩
    exact h.linked.kind_of_mem hlive hmem (Inode.node_kind_eq_free.mpr e)
  · change _ = ((inode d).node.subs.count j : Int) + _
    rw [hsubs, Multiset.count_cons]
    by_cases e : de.inum = j
    · simp [e]
    · simp [e, Ne.symm e]

/-- The count of a file changes by one, or a file is made. -/
theorem setFile (h : Tree tops extra inode) (hi : i ∈ inums) (hk : (inode i).type ≠ some .T_DIR)
    (ht : x.type ≠ none ∧ x.type ≠ some .T_DIR)
    (hn : x.nlink.toInt = links inums (Inode.node ∘ inode) i + if extra' = some i then 1 else 0)
    (he : ∀ j, j ≠ i → (extra' = some j ↔ extra = some j)) :
    Tree tops extra' (update inode i x) := by
  refine ⟨?_, h.dots_update fun hd => absurd hd ht.2⟩
  rw [comp_update]
  exact h.linked.setFile hi (fun e => hk (Inode.node_kind_eq_dir.mp e))
    (Inode.node_kind_eq_file.mpr ht) hn he

theorem links_le (h : Tree tops extra inode) :
    links inums (Inode.node ∘ inode) i ≤ entryCount inode := by
  rw [links, entryCount, Nat.cast_sum]
  refine Finset.sum_le_sum fun d _ => ?_
  by_cases hd : (inode d).type = some .T_DIR
  · exact (h.dots d hd).entries_le
  · have hn : ¬ ((Inode.node ∘ inode) d).Live :=
      Node.not_live fun e => hd (Inode.node_kind_eq_dir.mp e)
    rw [Node.entries_not_live hn]
    omega

theorem nlink_eq (h : Tree tops extra inode) (hi : (inode i).type ≠ none) :
    (inode i).nlink.toInt = links inums (Inode.node ∘ inode) i +
      if extra = some i then 1 else 0 :=
  h.linked.nlink i fun e => hi (Inode.node_kind_eq_free.mp e)

/-- A directory is made. -/
theorem mkdir (h : Tree tops none inode) (hd : (inode d).type = some .T_DIR)
    (hn : (inode d).nlink ≠ 0) (hmax : (inode d).nlink.toInt < 2 ^ 15 - 1)
    (hl : (inode d).lookup name = none) (hi : i ∈ inums) (hf : (inode i).type = none)
    (hx : x.type = some .T_DIR ∧ x.nlink = 1 ∧ x.entries = [⟨i, dot⟩, ⟨d, dotdot⟩])
    (hy : y.type = some .T_DIR ∧ y.nlink = (inode d).nlink + 1 ∧
      y.entries = addEntry (inode d).entries ⟨i, name.take DIRSIZ⟩) :
    Tree tops none (update (update inode i x) d y) := by
  obtain ⟨hxt, hxn, hxe⟩ := hx
  obtain ⟨hyt, hyn, hye⟩ := hy
  have hi0 : i ≠ 0 := by
    rintro rfl
    simp [inums] at hi
  have hd0 : d ≠ 0 := h.ne_zero (by rw [hd]; nofun)
  obtain ⟨hdots, hup, hsubs⟩ := (h.dots d hd).add hd0 hi0 (h.take_ne_dot hd hl) hye
  have hxdots : Dots i x := ⟨d, [], hxe, hd0, by simp⟩
  refine ⟨?_, fun a ha => ?_⟩
  · rw [comp_update, comp_update]
    refine h.linked.mkdir (h.live hd hn) hi (Inode.node_kind_eq_free.mpr hf)
      ⟨Inode.node_kind_eq_dir.mpr hxt, ?_, ?_, ?_⟩
      ⟨Inode.node_kind_eq_dir.mpr hyt, ?_, hup, hsubs⟩
    · simp [Inode.node, hxn]
    · simp [Inode.node, hxe]
    · simp [Inode.node, Inode.subs, hxe]
    · change y.nlink.toInt = (inode d).nlink.toInt + 1
      rw [hyn, toInt_add_one hmax]
  · by_cases e : a = d
    · rw [e, update_self]
      exact hdots
    · rw [update_of_ne e] at ha ⊢
      exact h.dots_update (fun _ => hxdots) a ha

/-- An empty directory is removed. -/
theorem rmdir (h : Tree tops none inode) (hd : (inode d).type = some .T_DIR) (ho : 2 ≤ off)
    (hde : (inode d).entries[off]? = some de) (hi : de.inum ≠ 0)
    (hk : (inode de.inum).type = some .T_DIR) (hempty : (inode de.inum).isdirempty = true)
    (hy : y.type = some .T_DIR ∧ y.nlink = (inode d).nlink + -1 ∧
      y.entries = (inode d).entries.set off ⟨0, []⟩)
    (hx : x.type = some .T_DIR ∧ x.nlink = (inode de.inum).nlink + -1 ∧
      x.entries = (inode de.inum).entries) :
    Tree tops none (update (update inode d y) de.inum x) ∧ y.nlink ≠ 0 := by
  obtain ⟨hyt, hyn, hye⟩ := hy
  obtain ⟨hxt, hxn, hxe⟩ := hx
  obtain ⟨hdots, hup, hsubs⟩ := (h.dots d hd).clear ho hde hi hye
  have hlive : (inode d).node.Live := h.live_of_subs hd (by simp [hsubs])
  have hmem : de.inum ∈ (inode d).node.subs := by simp [hsubs]
  have hpos : 0 < (inode de.inum).nlink.toInt := h.linked.nlink_pos hlive hmem
  have hzero : (inode de.inum).subs = [] := by
    simp only [Inode.isdirempty, List.all_eq_true, decide_eq_true_eq] at hempty
    simp only [Inode.subs, List.filter_eq_nil_iff, List.mem_map, forall_exists_index, and_imp]
    rintro _ e he rfl
    simp [hempty e he]
  have hlinked := h.linked.rmdir (i := de.inum) (x := x.node) (y := y.node) hlive
    (Inode.node_kind_eq_dir.mpr hk) (congrArg Multiset.ofList hzero)
    ⟨Inode.node_kind_eq_dir.mpr hyt, ?_, hup, hsubs⟩ ⟨Inode.node_kind_eq_dir.mpr hxt, ?_, ?_⟩
  · refine ⟨⟨by rw [comp_update, comp_update]; exact hlinked.1, fun a ha => ?_⟩, fun e => ?_⟩
    · by_cases e : a = de.inum
      · rw [e, update_self]
        obtain ⟨up, rest, hdots'⟩ := h.dots de.inum hk
        exact ⟨up, rest, by rwa [hxe]⟩
      · rw [update_of_ne e] at ha ⊢
        exact h.dots_update (fun _ => hdots) a ha
    · have := hlinked.2
      change 0 < y.nlink.toInt at this
      rw [e] at this
      exact absurd this (by decide)
  · change y.nlink.toInt = (inode d).nlink.toInt - 1
    rw [hyn, toInt_sub_one hlive.2]
  · change x.nlink.toInt = (inode de.inum).nlink.toInt - 1
    rw [hxn, toInt_sub_one hpos]
  · change (x.subs : Multiset Nat) = 0
    rw [show x.subs = (inode de.inum).subs by rw [Inode.subs, hxe, Inode.subs], hzero]
    rfl

end Tree

end Xv6.Fs
