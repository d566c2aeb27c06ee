import Mathlib.Data.List.TakeWhile
import Xv6.Sys.Walk

/-! # Path resolution

What `namex` returns is said in the terms of the directories: the elements of a path are what stands
between its slashes, and they are looked up one after another. The references to an inode are
counted over the whole cache, since an inode may move to another entry while a path is resolved. -/

namespace Xv6.Sys

open Fault
open Fs (Inode Entry Ip Name DIRSIZ ROOTINO elems skipelem X_OK NINODE)
open Thread (pinit)
open Users (SLASH)
open Function

/-! ## The elements of a path -/

/-- What stands between the slashes of a path, each cut to `DIRSIZ` bytes. -/
def elements (path : Name) : List Name :=
  ((path.splitOn SLASH).filter (· ≠ [])).map (·.take DIRSIZ)

theorem elements_nil : elements [] = [] := rfl

theorem elements_slash (path : Name) : elements (SLASH :: path) = elements path := by
  have h : (SLASH :: path).splitOn SLASH = [] :: path.splitOn SLASH :=
    List.splitOn_append_cons_self_of_not_mem List.not_mem_nil path
  rw [elements, elements, h, List.filter_cons_of_neg (by simp)]

/-- Slashes before a path do not matter. -/
theorem elements_dropWhile (path : Name) :
    elements (path.dropWhile (· = SLASH)) = elements path := by
  induction path with
  | nil => rfl
  | cons c path ih =>
    by_cases hc : c = SLASH
    · rw [List.dropWhile_cons_of_pos (by simp [hc]), ih, hc, elements_slash]
    · rw [List.dropWhile_cons_of_neg (by simp [hc])]

/-- The first element of a path ends at the first slash. -/
theorem elements_append (hw : w ≠ []) (hs : SLASH ∉ w)
    (hr : rest = [] ∨ ∃ path, rest = SLASH :: path) :
    elements (w ++ rest) = w.take DIRSIZ :: elements rest := by
  rcases hr with rfl | ⟨path, rfl⟩
  · rw [List.append_nil, elements, List.splitOn_eq_singleton hs,
      List.filter_cons_of_pos (by simpa using hw)]
    rfl
  · rw [elements_slash, elements, List.splitOn_append_cons_self_of_not_mem hs,
      List.filter_cons_of_pos (by simpa using hw)]
    rfl

/-- What follows an element is empty or starts with a slash. -/
theorem rest_cases (path : Name) : path.dropWhile (· ≠ SLASH) = [] ∨
    ∃ rest, path.dropWhile (· ≠ SLASH) = SLASH :: rest := by
  cases h : path.dropWhile (· ≠ SLASH) with
  | nil => exact .inl rfl
  | cons c rest =>
    have hc := List.head?_dropWhile_not (· ≠ SLASH) path
    simp only [h, List.head?_cons] at hc
    exact .inr ⟨rest, by simpa using hc⟩

theorem elements_of_skipelem (h : skipelem path = some (name, rest)) :
    elements path = name :: elements rest := by
  simp only [skipelem] at h
  split at h
  · cases h
  next hne =>
  cases h
  set q := path.dropWhile (· = SLASH) with hq
  have hw : q.takeWhile (· ≠ SLASH) ≠ [] := by
    cases hd : q with
    | nil => exact absurd hd hne
    | cons c cs =>
      have hc := List.head?_dropWhile_not (· = SLASH) path
      rw [← hq, hd] at hc
      rw [List.takeWhile_cons_of_pos (by simpa using hc)]
      exact List.cons_ne_nil _ _
  have hs : SLASH ∉ q.takeWhile (· ≠ SLASH) := by
    intro hm
    have := List.mem_takeWhile_imp hm
    simp at this
  calc elements path = elements q := (elements_dropWhile path).symm
    _ = elements (q.takeWhile (· ≠ SLASH) ++ q.dropWhile (· ≠ SLASH)) := by
      rw [List.takeWhile_append_dropWhile]
    _ = _ := by rw [elements_append hw hs (rest_cases q), elements_dropWhile]

/-- The calls of `skipelem` give the elements of a path. -/
theorem elems_eq_elements (path : Name) : elems path = elements path := by
  induction hn : path.length using Nat.strong_induction_on generalizing path with
  | _ n ih =>
    rw [Fs.elems_eq]
    cases h : skipelem path with
    | none =>
      simp only [skipelem] at h
      split at h
      · next he => rw [← elements_dropWhile, he, elements_nil]
      · cases h
    | some r =>
      obtain ⟨name, rest⟩ := r
      rw [elements_of_skipelem h, ← ih _ (hn ▸ Fs.length_skipelem h) rest rfl]

/-! ## The references to an inode -/

/-- The references to an inode, in the whole cache. -/
def State.refs (s : State) (j : Nat) : Int :=
  ∑ ip, if (s.icache ip).inum = j then (s.icache ip).ref else 0

def State.freeEntries (s : State) : Nat :=
  (Finset.univ.filter fun ip => (s.icache ip).ref = 0).card

/-- The entries in use stand for different inodes in use. -/
structure Cached (s : State) : Prop where
  nonneg : ∀ ip, 0 ≤ (s.icache ip).ref
  unique : ∀ ip ip', 0 < (s.icache ip).ref → 0 < (s.icache ip').ref →
    (s.icache ip).inum = (s.icache ip').inum → ip = ip'
  inUse : ∀ ip, 0 < (s.icache ip).ref → (s.ino ip).type ≠ none

/-- The inode is in use, and `iput` does not free it as long as no reference of now is dropped. -/
def State.Stays (s : State) (j : Nat) : Prop :=
  (s.inode j).type ≠ none ∧ ((s.inode j).nlink ≠ 0 ∨ 0 < s.refs j)

/-- The directories form a tree: there is a root, and the entries name inodes that stay. -/
structure Tree (s : State) : Prop where
  cached : Cached s
  cwd : ∀ p ip, s.cwd p = some ip → 0 < (s.icache ip).ref
  root : s.Stays ROOTINO
  entry : ∀ i, (s.inode i).type = some .T_DIR → ∀ de ∈ (s.inode i).entries, de.inum ≠ 0 →
    s.Stays de.inum

variable {p : Slot} {s : State} {ip : Ip} {e : Entry} {i j : Nat}

theorem State.refs_setEntry (s : State) (ip : Ip) (e : Entry) (j : Nat) :
    (s.setEntry ip e).refs j + (if (s.icache ip).inum = j then (s.icache ip).ref else 0) =
      s.refs j + if e.inum = j then e.ref else 0 := by
  have h := Table.sum_of_eq ip
    (f := fun ip => if (s.icache ip).inum = j then (s.icache ip).ref else 0)
    (g := fun ip' => if ((s.setEntry ip e).icache ip').inum = j then
      ((s.setEntry ip e).icache ip').ref else 0)
    fun ip' hne => by simp [State.setEntry, hne]
  simpa [State.refs, State.setEntry] using h

namespace Cached

theorem refs_nonneg (h : Cached s) (j : Nat) : 0 ≤ s.refs j := by
  refine Finset.sum_nonneg fun ip _ => ?_
  split
  · exact h.nonneg ip
  · exact le_rfl

/-- The references to an inode are at one entry. -/
theorem refs_eq (h : Cached s) (hr : 0 < (s.icache ip).ref) :
    s.refs (s.icache ip).inum = (s.icache ip).ref := by
  refine (Finset.sum_eq_single ip (fun ip' _ hne => ?_)
    fun hn => absurd (Finset.mem_univ ip) hn).trans (if_pos rfl)
  refine ite_eq_right_iff.mpr fun hi => ?_
  by_contra hr'
  exact hne (h.unique ip' ip (lt_of_le_of_ne (h.nonneg ip') (Ne.symm hr')) hr hi)

theorem exists_of_refs_pos (h : 0 < s.refs j) :
    ∃ ip, 0 < (s.icache ip).ref ∧ (s.icache ip).inum = j := by
  by_contra hn
  push Not at hn
  refine absurd h (not_lt.mpr (Finset.sum_nonpos fun ip _ => ?_))
  split
  · next hi => exact not_lt.mp fun hr => hn ip hr hi
  · exact le_rfl

theorem setEntry (h : Cached s) (h0 : 0 ≤ e.ref)
    (hu : ∀ ip', 0 < e.ref → 0 < (s.icache ip').ref → (s.icache ip').inum = e.inum → ip' = ip)
    (ht : 0 < e.ref → (s.inode e.inum).type ≠ none) : Cached (s.setEntry ip e) where
  nonneg ip' := by
    by_cases hne : ip' = ip
    · simpa [State.setEntry, hne] using h0
    · simpa [State.setEntry, hne] using h.nonneg ip'
  unique a b ha hb hab := by
    by_cases hae : a = ip <;> by_cases hbe : b = ip
    · rw [hae, hbe]
    · subst hae
      simp only [State.setEntry, update_self, update_of_ne hbe] at ha hb hab
      exact (hu b ha hb hab.symm).symm
    · subst hbe
      simp only [State.setEntry, update_self, update_of_ne hae] at ha hb hab
      exact hu a hb ha hab
    · simp only [State.setEntry, update_of_ne hae, update_of_ne hbe] at ha hb hab
      exact h.unique a b ha hb hab
  inUse ip' hr := by
    by_cases hne : ip' = ip
    · subst hne
      simp only [State.setEntry, update_self, Fs.State.ino] at hr ⊢
      exact ht hr
    · simp only [State.setEntry, update_of_ne hne, Fs.State.ino] at hr ⊢
      exact h.inUse ip' hr

end Cached

/-! ## On the way -/

/-- Since `s₀`, only the cache has changed, and the references in `held` have been taken. -/
structure Walking (s₀ : State) (lk : Ip → Option Int) (held : List Nat) (s : State) : Prop where
  eq : s = { s₀ with icache := s.icache, lock := lk }
  cached : Cached s
  refs : ∀ j, s.refs j = s₀.refs j + held.count j
  kept : ∀ ip, 0 < (s₀.icache ip).ref →
    0 < (s.icache ip).ref ∧ (s.icache ip).inum = (s₀.icache ip).inum

namespace Walking

theorem refl (h : Cached s) : Walking s s.lock [] s :=
  ⟨rfl, h, fun _ => by simp, fun _ hr => ⟨hr, rfl⟩⟩

theorem inode (h : Walking s₀ lk held s) : s.inode = s₀.inode := by rw [h.eq]

theorem pid (h : Walking s₀ lk held s) : s.pid p = s₀.pid p := by rw [h.eq]; rfl

theorem lock (h : Walking s₀ lk held s) : s.lock = lk := by rw [h.eq]

theorem grants (h : Walking s₀ lk held s) : s.Grants v ok ↔ s₀.Grants v ok := by rw [h.eq]; rfl

theorem setEntry (h : Walking s₀ lk held s) (hc : Cached (s.setEntry ip e))
    (hr : ∀ j, held'.count j + (if (s.icache ip).inum = j then (s.icache ip).ref else 0) =
      held.count j + if e.inum = j then e.ref else 0)
    (hk : 0 < (s₀.icache ip).ref → 0 < e.ref ∧ e.inum = (s₀.icache ip).inum) :
    Walking s₀ lk held' (s.setEntry ip e) := by
  refine ⟨?_, hc, fun j => ?_, fun ip' hr' => ?_⟩
  · rw [h.eq]
    rfl
  · have h₁ := s.refs_setEntry ip e j
    have h₂ := h.refs j
    have h₃ := hr j
    omega
  · by_cases he : ip' = ip
    · subst he
      simpa [State.setEntry] using hk hr'
    · simpa [State.setEntry, he] using h.kept ip' hr'

/-- One reference more at an entry in use. -/
theorem get (h : Walking s₀ lk held s) (hr : 0 < (s.icache ip).ref) :
    Walking s₀ lk ((s.icache ip).inum :: held)
      (s.setEntry ip { s.icache ip with ref := (s.icache ip).ref + 1 }) := by
  refine h.setEntry (h.cached.setEntry (by simp only; omega)
    (fun ip' _ hr' => h.cached.unique ip' ip hr' hr) fun _ => h.cached.inUse ip hr) (fun j => ?_)
    fun h0 => ⟨by simp only; omega, (h.kept ip h0).2⟩
  rw [List.count_cons]
  simp only [beq_iff_eq]
  split <;> omega

/-- The first reference to an inode in use. -/
theorem load (h : Walking s₀ lk held s) (h0 : (s.icache ip).ref = 0)
    (hno : ∀ ip', 0 < (s.icache ip').ref → (s.icache ip').inum ≠ j)
    (ht : (s₀.inode j).type ≠ none) :
    Walking s₀ lk (j :: held) (s.setEntry ip ⟨j, 1, false⟩) := by
  refine h.setEntry (h.cached.setEntry zero_le_one
    (fun ip' _ hr' he => absurd he (hno ip' hr')) fun _ => h.inode ▸ ht) (fun j' => ?_) fun hr => ?_
  · rw [List.count_cons, h0, ite_self]
    simp only [beq_iff_eq]
    split <;> omega
  · have := (h.kept ip hr).1
    omega

theorem setLock (h : Walking s₀ lk held s) (ip : Ip) (v : Option Int) :
    Walking s₀ (update lk ip v) held (s.setLock ip v) := by
  refine ⟨?_, ⟨h.cached.nonneg, h.cached.unique, h.cached.inUse⟩, h.refs, h.kept⟩
  rw [h.eq]
  rfl

theorem locked (h : Walking s₀ lk held s) (hr : 0 < (s.icache ip).ref) :
    Walking s₀ (update lk ip (some (s.pid p))) held (s.locked p ip) := by
  have hl := h.setLock ip (some (s.pid p))
  exact hl.setEntry (hl.cached.setEntry (hl.cached.nonneg ip)
    (fun ip' _ hr' => hl.cached.unique ip' ip hr' hr) fun _ => hl.cached.inUse ip hr) (fun j => rfl)
    (h.kept ip)

theorem ref_eq (h : Walking s₀ lk held s) (hr : 0 < (s.icache ip).ref) :
    (s.icache ip).ref = s₀.refs (s.icache ip).inum + held.count (s.icache ip).inum := by
  rw [← h.refs, h.cached.refs_eq hr]

/-- Dropping a reference that was taken on the way frees no inode. -/
theorem put (h : Walking s₀ lk (i :: held) s) (hi : (s.icache ip).inum = i)
    (hr : 0 < (s.icache ip).ref) (hc : Cached s₀) (hs : s₀.Stays i) :
    Walking s₀ lk held (s.put ip) ∧
      ∀ next, (s.icache next).inum ∈ held → 0 < (s.icache next).ref →
        0 < ((s.put ip).icache next).ref := by
  have href := h.ref_eq hr
  rw [hi, List.count_cons_self, Nat.cast_succ] at href
  have hnf : ¬ s.Frees ip := by
    rintro ⟨-, hn, h1⟩
    rw [Fs.State.ino, h.inode, hi] at hn
    have := hs.2.resolve_left (fun hne => hne hn)
    omega
  have hput : s.put ip = s.setEntry ip { s.icache ip with ref := (s.icache ip).ref - 1 } := by
    rw [State.put, if_neg hnf]
  rw [hput]
  constructor
  · refine h.setEntry (h.cached.setEntry (by simp only; omega)
      (fun ip' _ hr' => h.cached.unique ip' ip hr' hr) fun _ => h.cached.inUse ip hr) (fun j => ?_)
      fun h0 => ⟨?_, (h.kept ip h0).2⟩
    · rw [List.count_cons, hi]
      simp only [beq_iff_eq]
      split <;> omega
    · have href₀ := hc.refs_eq h0
      rw [← (h.kept ip h0).2, hi] at href₀
      simp only
      omega
  · intro next hm hn
    by_cases he : next = ip
    · subst he
      rw [hi] at hm
      have h1 := List.count_pos_iff.mpr hm
      have h0 := hc.refs_nonneg i
      simp only [State.setEntry, update_self]
      omega
    · simpa [State.setEntry, he] using hn

/-- Each reference that is taken uses at most one entry of the cache. -/
theorem freeEntries_le (h : Walking s₀ lk held s) (hc : Cached s₀) :
    s₀.freeEntries ≤ s.freeEntries + held.length := by
  -- the inodes in the cache are those of the start and those in `held`
  have hused : ∀ t : State, Cached t → (Finset.univ.filter fun ip => 0 < (t.icache ip).ref).card +
      t.freeEntries = NINODE := by
    intro t ht
    have := Finset.card_filter_add_card_filter_not (s := (Finset.univ : Finset Ip))
      fun ip => 0 < (t.icache ip).ref
    rw [Finset.card_univ, Fintype.card_fin] at this
    refine Eq.trans ?_ this
    rw [State.freeEntries]
    congr 2
    ext ip
    have := ht.nonneg ip
    simp only [Finset.mem_filter, Finset.mem_univ, true_and]
    omega
  have hsub : (Finset.univ.filter fun ip => 0 < (s.icache ip).ref).image
      (fun ip => (s.icache ip).inum) ⊆ (Finset.univ.filter fun ip => 0 < (s₀.icache ip).ref).image
        (fun ip => (s₀.icache ip).inum) ∪ held.toFinset := by
    intro j hj
    obtain ⟨ip, hip, rfl⟩ := Finset.mem_image.mp hj
    have hr := (Finset.mem_filter.mp hip).2
    have href := h.ref_eq hr
    by_cases hm : (s.icache ip).inum ∈ held
    · exact Finset.mem_union_right _ (List.mem_toFinset.mpr hm)
    · rw [List.count_eq_zero_of_not_mem hm] at href
      obtain ⟨ip', hr', hi'⟩ := Cached.exists_of_refs_pos (s := s₀) (j := (s.icache ip).inum)
        (by omega)
      exact Finset.mem_union_left _ (Finset.mem_image.mpr ⟨ip', by simpa using hr', hi'⟩)
  have hinj : ((Finset.univ.filter fun ip => 0 < (s.icache ip).ref).image
      fun ip => (s.icache ip).inum).card =
        (Finset.univ.filter fun ip => 0 < (s.icache ip).ref).card :=
    Finset.card_image_of_injOn fun a ha b hb => h.cached.unique a b
      (Finset.mem_filter.mp ha).2 (Finset.mem_filter.mp hb).2
  have h₁ := (Finset.card_le_card hsub).trans (Finset.card_union_le _ _)
  have h₂ := Finset.card_image_le (s := Finset.univ.filter fun ip => 0 < (s₀.icache ip).ref)
    (f := fun ip => (s₀.icache ip).inum)
  have h₃ := List.toFinset_card_le held
  have h₄ := hused s h.cached
  have h₅ := hused s₀ hc
  omega

theorem perm (h : Walking s₀ lk held s) (hp : held.Perm held') : Walking s₀ lk held' s :=
  { h with refs := fun j => by rw [h.refs, hp.count_eq] }

end Walking

/-- The entry is in use, for the inode `i`. -/
def State.Refers (s : State) (ip : Ip) (i : Nat) : Prop :=
  (s.icache ip).inum = i ∧ 0 < (s.icache ip).ref

/-- Why a path is not resolved to the end: a lock is not free, or the cache is full. -/
def Stuck (s : State) (e : Stop) : Prop :=
  e = .blocked ∧ (∃ ip, s.lock ip ≠ none) ∨ e = .iget ∧ s.freeEntries < 2

theorem iget_walking (old : Option Ip) (hc : Cached s₀) (hlen : held.length < 2)
    (ht : (s₀.inode j).type ≠ none) :
    Triple (Stuck s₀) (fun s => Walking s₀ lk held s ∧ ∀ x ∈ old, s.Refers x i) (iget j)
      fun ip s => Walking s₀ lk (j :: held) s ∧ s.Refers ip j ∧ ∀ x ∈ old, s.Refers x i := by
  apply iget_rule
  · rintro s ⟨h, -⟩ hfull
    have h0 : s.freeEntries = 0 := by
      rw [State.freeEntries, Finset.card_eq_zero, Finset.filter_eq_empty_iff]
      exact fun ip _ => hfull ip
    have := h.freeEntries_le hc
    exact .inr ⟨rfl, by omega⟩
  · rintro s ip ⟨h, hold⟩ hr rfl
    refine ⟨h.get hr, ⟨by simp [State.setEntry], ?_⟩, fun x hx => ?_⟩
    · simp only [State.setEntry, update_self]
      omega
    · obtain ⟨hi, hx⟩ := hold x hx
      by_cases he : x = ip
      · subst he
        refine ⟨by simpa [State.setEntry] using hi, ?_⟩
        simp only [State.setEntry, update_self]
        omega
      · exact ⟨by simpa [State.setEntry, he] using hi, by simpa [State.setEntry, he] using hx⟩
  · rintro s ip ⟨h, hold⟩ h0 hno
    refine ⟨h.load h0 hno ht, ⟨by simp [State.setEntry], by simp [State.setEntry]⟩, fun x hx => ?_⟩
    obtain ⟨hi, hx⟩ := hold x hx
    have he : x ≠ ip := by
      rintro rfl
      omega
    exact ⟨by simpa [State.setEntry, he] using hi, by simpa [State.setEntry, he] using hx⟩

/-- The locks while the entry `ip` is locked by the process in slot `p`. -/
def State.lockOf (s : State) (p : Slot) (ip : Ip) : Ip → Option Int :=
  update s.lock ip (some (s.pid p))

theorem ilock_walking :
    Triple (Stuck s₀) (fun s => Walking s₀ s₀.lock held s ∧ s.Refers ip i) (ilock p ip)
      fun _ s => s₀.lock ip = none ∧ Walking s₀ (s₀.lockOf p ip) held s ∧ s.Refers ip i := by
  apply ilock_rule
  · rintro s ⟨h, -⟩ hl
    exact .inl ⟨rfl, ip, h.lock ▸ hl⟩
  · rintro s ⟨-, -, hr⟩ hr'
    omega
  · rintro s ⟨h, -, hr⟩ - - ht
    exact absurd ht (h.cached.inUse ip hr)
  · rintro s ⟨h, hi, hr⟩ - hl -
    refine ⟨h.lock ▸ hl, ?_, by simpa [State.locked, State.setEntry, State.setLock] using hi, ?_⟩
    · have := h.locked (p := p) hr
      rwa [h.pid] at this
    · simpa [State.locked, State.setEntry, State.setLock] using hr

theorem iunlock_walking {C : (Ip → Entry) → Prop} {E : Stop → Prop} (hl : s₀.lock ip = none)
    (hC : ∀ icache, C icache → 0 < (icache ip).ref) :
    Triple E (fun s => Walking s₀ (s₀.lockOf p ip) held s ∧ C s.icache) (iunlock p ip)
      fun _ s => Walking s₀ s₀.lock held s ∧ C s.icache := by
  apply iunlock_rule
  · rintro s ⟨h, hr⟩ hn
    refine absurd ⟨?_, hC _ hr⟩ hn
    rw [h.lock, h.pid, State.lockOf, update_self]
  · rintro s ⟨h, hr⟩ - -
    have := h.setLock ip none
    rw [State.lockOf, update_idem, ← hl, update_eq_self] at this
    exact ⟨by rw [← hl]; exact this, hr⟩

/-- A step to the next directory gives back the last one. -/
theorem iunlockput_walking (next : Option Ip) {E : Stop → Prop} (hc : Cached s₀)
    (hs : s₀.Stays i) (hl : s₀.lock ip = none) :
    Triple E (fun s => Walking s₀ (s₀.lockOf p ip) (i :: (next.map fun _ => j).toList) s ∧
      s.Refers ip i ∧ ∀ x ∈ next, s.Refers x j) (iunlockput p ip)
      fun _ s => Walking s₀ s₀.lock (next.map fun _ => j).toList s ∧ ∀ x ∈ next, s.Refers x j := by
  refine .bind (iunlock_walking (C := fun icache => ((icache ip).inum = i ∧ 0 < (icache ip).ref) ∧
    ∀ x ∈ next, (icache x).inum = j ∧ 0 < (icache x).ref) hl fun _ h => h.1.2) fun _ => ?_
  apply iput_rule
  · rintro s ⟨h, -⟩ hn
    rw [h.lock] at hn
    exact absurd hl hn
  · rintro s ⟨h, ⟨hi, hr⟩, hnext⟩ -
    obtain ⟨hput, hkeep⟩ := h.put hi hr hc hs
    refine ⟨hput, fun x hx => ⟨State.put_inum.trans (hnext x hx).1, ?_⟩⟩
    refine hkeep x ?_ (hnext x hx).2
    rw [(hnext x hx).1, Option.mem_def.mp hx]
    exact List.mem_singleton_self _

/-- The only reference is given back. -/
theorem iunlockput_walking_last (hc : Cached s₀) (hs : s₀.Stays i) (hl : s₀.lock ip = none) :
    Triple E (fun s => Walking s₀ (s₀.lockOf p ip) [i] s ∧ s.Refers ip i) (iunlockput p ip)
      fun _ s => Walking s₀ s₀.lock [] s :=
  (iunlockput_walking none (j := 0) hc hs hl).mono (fun _ h => ⟨h.1, h.2, nofun⟩) fun _ _ h => h.1

/-- One of two references is given back. -/
theorem iunlockput_walking_next (hc : Cached s₀) (hs : s₀.Stays i) (hl : s₀.lock ip = none) :
    Triple E (fun s => Walking s₀ (s₀.lockOf p ip) [i, j] s ∧ s.Refers ip i ∧ s.Refers ip' j)
      (iunlockput p ip) fun _ s => Walking s₀ s₀.lock [j] s ∧ s.Refers ip' j :=
  (iunlockput_walking (some ip') hc hs hl).mono
    (fun _ h => ⟨h.1, h.2.1, fun _ hx => Option.some.inj hx ▸ h.2.2⟩)
    fun _ _ h => ⟨h.1, h.2 ip' rfl⟩

theorem Tree.stays_of_cwd (hT : Tree s) (hip : s.cwd p = some ip) : s.Stays (s.icache ip).inum := by
  have hr := hT.cwd p ip hip
  refine ⟨hT.cached.inUse ip hr, .inr ?_⟩
  rw [hT.cached.refs_eq hr]
  exact hr

theorem Tree.stays_of_lookup (hT : Tree s) (ht : (s.inode i).type = some .T_DIR)
    (hoff : (s.inode i).lookup name = some off) : s.Stays (entryInum (s.inode i) off) := by
  rw [Inode.lookup, List.findIdx?_eq_some_iff_getElem] at hoff
  obtain ⟨hlt, hde, -⟩ := hoff
  rw [entryInum, List.getElem?_eq_getElem hlt]
  exact hT.entry i ht _ (List.getElem_mem hlt) (of_decide_eq_true hde).1

theorem dirlookup_walking (hT : Tree s₀) (ht : (s₀.inode i).type = some .T_DIR) :
    Triple (Stuck s₀) (fun s => Walking s₀ lk [i] s ∧ s.Refers ip i) (dirlookup ip name)
      fun r s => match r with
        | none => (s₀.inode i).lookup name = none ∧ Walking s₀ lk [i] s ∧ s.Refers ip i
        | some r => (s₀.inode i).lookup name = some r.2 ∧
          Walking s₀ lk [i, entryInum (s₀.inode i) r.2] s ∧ s.Refers ip i ∧
            s.Refers r.1 (entryInum (s₀.inode i) r.2) := by
  have hino : ∀ s, Walking s₀ lk [i] s ∧ s.Refers ip i → s.ino ip = s₀.inode i := by
    rintro s ⟨h, hi, -⟩
    rw [Fs.State.ino, h.inode, hi]
  refine .bind (.check fun s h hn => absurd (hino s h ▸ ht) hn) fun _ => .reads_bind fun d => ?_
  split
  · next off hoff =>
    rintro s ⟨⟨h, -⟩, rfl⟩
    rw [hino s h] at hoff ⊢
    have hget : Triple (Stuck s₀) (fun s => Walking s₀ lk [i] s ∧ ∀ x ∈ some ip, s.Refers x i)
        (iget (entryInum (s₀.inode i) off)) _ :=
      iget_walking (some ip) hT.cached Nat.one_lt_two (hT.stays_of_lookup ht hoff).1
    refine (hget.bind fun ip' => .pure fun s' h' => ?_ : Triple _ _ _ _) s
      ⟨h.1, fun x hx => Option.some.inj hx ▸ h.2⟩
    exact ⟨hoff, h'.1.perm (.swap ..), h'.2.2 ip rfl, h'.2.1⟩
  · next hoff =>
    refine .pure ?_
    rintro s ⟨⟨h, -⟩, rfl⟩
    exact ⟨hino s h ▸ hoff, h⟩

/-- What is left when the elements `names` have been looked up from `i`. -/
structure Led (s₀ : State) (parent : Bool) (names : List Name) (j : Option Nat)
    (r : Option (Ip × Name)) (s : State) : Prop where
  inum : r.map (fun x => (s.icache x.1).inum) = j
  ref : ∀ x ∈ r, 0 < (s.icache x.1).ref
  last : ∀ x ∈ r, x.2 = if parent then names.getLast?.getD [] else []
  walking : Walking s₀ s₀.lock j.toList s

theorem namexLoop_led {parent : Bool} {names : List Name} (hT : Tree s₀) (hs : s₀.Stays i) :
    Triple (Stuck s₀) (fun s => Walking s₀ s₀.lock [i] s ∧ s.Refers ip i)
      (namexLoop p parent ip names) (Led s₀ parent names (s₀.find p parent i names)) := by
  induction names generalizing ip i with
  | nil =>
    refine .ite (fun hp => ?_) fun hp => .pure ?_
    · refine .bind (Q := fun _ => Walking s₀ s₀.lock []) (iput_rule ?_ ?_) fun _ => .pure ?_
      · rintro s ⟨h, -⟩ hl
        exact .inl ⟨rfl, ip, h.lock ▸ hl⟩
      · rintro s ⟨h, hi, hr⟩ -
        exact (h.put hi hr hT.cached hs).1
      · intro s h
        rw [State.find, if_pos hp]
        exact ⟨rfl, by simp, by simp, h⟩
    · rintro s ⟨h, hi, hr⟩
      rw [State.find, if_neg hp]
      exact ⟨congrArg some hi, fun x hx => Option.some.inj hx ▸ hr,
        fun x hx => by rw [← Option.some.inj hx, if_neg hp], h⟩
  | cons name names ih =>
    have hbad : s₀.find p parent i (name :: names) = none → s₀.lock ip = none →
        Triple (Stuck s₀) (fun s => Walking s₀ (s₀.lockOf p ip) [i] s ∧ s.Refers ip i)
          (do iunlockput p ip; pure none)
          (Led s₀ parent (name :: names) (s₀.find p parent i (name :: names))) := by
      intro hnone hl
      rw [hnone]
      exact .bind (iunlockput_walking_last hT.cached hs hl) fun _ =>
        .pure fun s h => ⟨rfl, by simp, by simp, h⟩
    refine .bind ilock_walking fun _ => .of_and fun hl => ?_
    refine .reads_bind fun d => .reads_bind fun pid => .reads_bind fun ok => ?_
    have hino : ∀ s, Walking s₀ (s₀.lockOf p ip) [i] s ∧ s.Refers ip i → s.ino ip = s₀.inode i := by
      rintro s ⟨h, hi, -⟩
      rw [Fs.State.ino, h.inode, hi]
    refine .ite (fun ht => ?_) fun ht => .ite (fun hx => ?_) fun hx => ?_
    · rintro s ⟨⟨⟨h, rfl⟩, -⟩, -⟩
      exact hbad (if_neg fun hpass => ht (hino s h ▸ hpass.1)) hl s h
    · rintro s ⟨⟨⟨h, rfl⟩, rfl⟩, rfl⟩
      refine hbad (if_neg fun hpass => ?_) hl s h
      rw [hino s h, h.1.pid] at hx
      exact of_decide_eq_false hx.2 (h.1.grants.mpr (hpass.2 hx.1))
    · rintro s ⟨⟨⟨h, rfl⟩, rfl⟩, rfl⟩
      have hd : (s₀.inode i).type = some .T_DIR := by rwa [not_not, hino s h] at ht
      have hpass : s₀.MayPass p i := by
        refine ⟨hd, fun hpid => ?_⟩
        rw [hino s h, h.1.pid, not_and, Bool.not_eq_false, decide_eq_true_eq] at hx
        exact h.1.grants.mp (hx hpid)
      rw [State.find, if_pos hpass] at hbad ⊢
      refine Triple.ite (P := fun s => Walking s₀ (s₀.lockOf p ip) [i] s ∧ s.Refers ip i)
        (fun hlast => ?_) (fun hlast => ?_) s h
      · -- the last element is left to the caller
        rw [if_pos hlast]
        refine .bind (iunlock_walking (C := fun icache => (icache ip).inum = i ∧
          0 < (icache ip).ref) hl fun _ h => h.2) fun _ => .pure fun s h => ?_
        refine ⟨congrArg some h.2.1, fun x hx => Option.some.inj hx ▸ h.2.2, fun x hx => ?_, h.1⟩
        rw [← Option.some.inj hx, if_pos hlast.1, hlast.2]
        rfl
      · rw [if_neg hlast] at hbad ⊢
        refine .bind (dirlookup_walking hT hd) fun r => ?_
        cases r with
        | none =>
          refine .of_and fun hoff => ?_
          rw [hoff] at hbad ⊢
          exact hbad rfl hl
        | some r =>
          refine .of_and fun hoff => ?_
          rw [hoff]
          refine .bind (iunlockput_walking_next hT.cached hs hl) fun _ => ?_
          refine (ih (hT.stays_of_lookup hd hoff)).post fun x s h => ?_
          refine ⟨h.inum, h.ref, fun x hx => ?_, h.walking⟩
          rw [h.last x hx]
          cases parent with
          | false => rfl
          | true =>
            have hne : names ≠ [] := fun e => hlast ⟨rfl, e⟩
            rw [List.getLast?_cons_of_ne_nil hne]

theorem namex_led (hT : Tree s) (hcwd : (s.cwd p).isSome) :
    Result (Stuck s) (Led s parent (elems path) (s.finds p path parent))
      (namex p path parent s) := by
  have h : Triple (Stuck s) (fun t => Walking s s.lock [] t ∧ t = s) (namex p path parent)
      (Led s parent (elems path) (s.finds p path parent)) := by
    refine .ite (fun hs => ?_) fun hs => .reads_bind fun cwd => ?_
    · have hi : s.finds p path parent = s.find p parent ROOTINO (elems path) := by
        rw [State.finds, State.start, if_pos hs]
        rfl
      rw [hi]
      have hget : Triple (Stuck s) (fun t => Walking s s.lock [] t ∧ ∀ x ∈ none, t.Refers x 0)
          (iget ROOTINO) _ := iget_walking none hT.cached Nat.two_pos hT.root.1
      exact (hget.mono (fun t h => ⟨h.1, by simp⟩) fun _ t h => ⟨h.1, h.2.1⟩).bind fun ip =>
        namexLoop_led hT hT.root
    · cases cwd with
      | none =>
        rintro t ⟨⟨-, rfl⟩, hnone⟩
        rw [hnone] at hcwd
        cases hcwd
      | some ip =>
        rintro t ⟨⟨hw, rfl⟩, hip⟩
        have hi : t.finds p path parent = t.find p parent (t.icache ip).inum (elems path) := by
          rw [State.finds, State.start, if_neg hs, hip]
          rfl
        rw [hi]
        have hr := hT.cwd p ip hip
        have hs := hT.stays_of_cwd hip
        refine Triple.bind (P := (· = t)) (Q := fun x u => x = ip ∧
          Walking t t.lock [(t.icache ip).inum] u ∧ u.Refers ip (t.icache ip).inum)
          (idup_rule ?_) (fun x => .of_and ?_) t rfl
        · rintro u rfl
          refine ⟨rfl, hw.get hr, by simp [State.setEntry], ?_⟩
          simp only [State.setEntry, update_self]
          omega
        · rintro rfl
          exact namexLoop_led hT hs
  exact h s ⟨.refl hT.cached, rfl⟩

/-! ## What a path names -/

/-- The current user may look up names in the directory `i`. -/
def State.Searchable (s : State) (i : Nat) : Prop :=
  (s.inode i).type = some .T_DIR ∧ s.Grants (s.inode i) X_OK

instance (s : State) (i : Nat) : Decidable (s.Searchable i) := inferInstanceAs (Decidable (_ ∧ _))

/-- The inode that is found by looking up names one after another. -/
def State.lookUp (s : State) : Nat → List Name → Option Nat
  | i, [] => some i
  | i, name :: names =>
    if s.Searchable i then
      ((s.inode i).lookup name).bind fun off => s.lookUp (entryInum (s.inode i) off) names
    else none

def State.target (s : State) (p : Slot) (path : Name) : Option Nat :=
  (s.start p path).bind fun i => s.lookUp i (elements path)

/-- The inode that all but the last element of a path name, with the last element. -/
def State.parent (s : State) (p : Slot) (path : Name) : Option (Nat × Name) :=
  (elements path).getLast?.bind fun name =>
    ((s.start p path).bind fun i => s.lookUp i (elements path).dropLast).map (·, name)

theorem State.mayPass_iff (hpid : s.pid p > 2) : s.MayPass p i ↔ s.Searchable i := by
  rw [State.MayPass, State.Searchable, imp_iff_right hpid]

theorem State.find_false (hpid : s.pid p > 2) : s.find p false i names = s.lookUp i names := by
  induction names generalizing i with
  | nil => rfl
  | cons name names ih =>
    simp only [State.find, State.lookUp, State.mayPass_iff hpid, Bool.false_eq_true, false_and,
      if_false, ih]

theorem State.find_true (hpid : s.pid p > 2) (hne : names ≠ []) :
    s.find p true i names = (s.lookUp i names.dropLast).filter fun j => s.Searchable j := by
  induction names generalizing i with
  | nil => exact absurd rfl hne
  | cons name names ih =>
    simp only [State.find, State.mayPass_iff hpid, true_and]
    by_cases hlast : names = []
    · subst hlast
      simp only [if_true, List.dropLast_singleton, State.lookUp, Option.filter_some,
        decide_eq_true_eq]
    · rw [if_neg hlast, List.dropLast_cons_of_ne_nil hlast, State.lookUp]
      split
      · cases (s.inode i).lookup name with
        | none => rfl
        | some off => exact ih hlast
      · rfl

/-- The result of `namex`, as the number of the inode and the name. -/
def State.result (s : State) (r : Option (Ip × Name)) : Option (Nat × Name) :=
  r.map fun x => ((s.icache x.1).inum, x.2)

theorem Led.result {parent : Bool} {names : List Name} {r : Option (Ip × Name)} {j : Option Nat}
    (h : Led s₀ parent names j r s) :
    s.result r = j.map (·, if parent then names.getLast?.getD [] else []) := by
  rw [← h.inum]
  cases r with
  | none => rfl
  | some x => exact congrArg (fun name => some ((s.icache x.1).inum, name)) (h.last x rfl)

theorem finds_false (hpid : s.pid p > 2) : s.finds p path false = s.target p path := by
  simp only [State.finds, State.target, State.find_false hpid, elems_eq_elements]

theorem finds_true (hpid : s.pid p > 2) :
    (s.finds p path true).map (·, (elems path).getLast?.getD []) =
      (s.parent p path).filter fun r => s.Searchable r.1 := by
  rw [State.finds, State.parent, elems_eq_elements]
  cases hlast : (elements path).getLast? with
  | none =>
    rw [List.getLast?_eq_none_iff] at hlast
    rw [hlast]
    cases s.start p path <;> rfl
  | some name =>
    have hne : elements path ≠ [] := by
      intro e
      rw [e] at hlast
      cases hlast
    cases s.start p path with
    | none => rfl
    | some i =>
      simp only [Option.bind_some, State.find_true hpid hne]
      cases s.lookUp i (elements path).dropLast with
      | none => rfl
      | some j =>
        simp only [Option.map_some, Option.filter_some, Option.getD_some]
        split <;> rfl

/-- A disk with the files `"f"` and `"d/g"`. -/
def Image.withF : Image where
  inode
    | 1 => ⟨some .T_DIR, 2, Fs.newPerm .T_DIR, Users.root.1,
        [⟨1, Fs.dot⟩, ⟨1, Fs.dotdot⟩, ⟨2, [102]⟩, ⟨3, [100]⟩]⟩
    | 2 => ⟨some .T_FILE, 1, Fs.newPerm .T_FILE, Users.root.1, []⟩
    | 3 => ⟨some .T_DIR, 1, Fs.newPerm .T_DIR, Users.root.1,
        [⟨3, Fs.dot⟩, ⟨1, Fs.dotdot⟩, ⟨4, [103]⟩]⟩
    | 4 => ⟨some .T_FILE, 1, Fs.newPerm .T_FILE, Users.root.1, []⟩
    | _ => ⟨none, 0, 0, [], []⟩
  data _ := []

/-- A process with the pid 3 in the root directory of a disk. -/
def Image.third (image : Image) : State :=
  image.boot (pinit.setProc 0 { pinit.proc 0 with state := .RUNNING, pid := 3 })

theorem tree_withF : Tree Image.withF.third where
  cached := ⟨by decide +kernel, by decide +kernel, by decide +kernel⟩
  cwd := by decide +kernel
  root := by unfold State.Stays; decide +kernel
  entry i hi := by
    match i with
    | 1 | 3 => unfold State.Stays; decide +kernel
    | 0 | 2 | 4 => cases hi
    | _ + 5 => cases hi

end Xv6.Sys
