import Xv6.Icache.Held

/-! # Safety of the inode cache

An inode is alive as long as it may be used through a pointer: it is allocated, and not only since a
moment ago by an `ialloc` that has no pointer to it yet. `iput` has found out in its last stages
that it is the only one who still refers to the inode, and nobody can have a second reference then:
no directory entry names the inode, and there is no other pointer that `idup` could be called
for. -/

namespace Xv6.Icache

open Fs (Ip)

variable {ι ω : Type} {s s' : State ι ω} {x y : ω} {ip : Ip} {id : Id} {p q : ι} {k : Stage}

/-- The inode is allocated, and no `ialloc` has taken it for a pointer that is not there yet. -/
def State.Alive (s : State ι ω) (id : Id) : Prop :=
  (s.disk id).type ≠ none ∧ ∀ y q, s.ptr y ≠ .iget q id

def Stage.Uses (k : Stage) : Prop := k ≠ .releasesleep ∧ k ≠ .unref

def Stage.Frees (k : Stage) : Prop := k = .itrunc ∨ k = .free

/-- What `iput` has found out about an entry. -/
structure Inode.Tested (v : Inode) (k : Stage) : Prop where
  unlinked : k = .read ∨ k.Frees → v.valid = true ∧ v.copy.nlink = 0
  last : k.Frees → v.ref = 1

/-- What the value of the pointer `x` says. -/
def State.Good (s : State ι ω) (x : ω) : Ptr ι → Prop
  | .null | .ialloc .. => True
  | .iget _ id => (s.disk id).type ≠ none ∧ (s.disk id).nlink = 0 ∧
    ∀ y q, s.ptr y = .iget q id → y = x
  | .ref ip => s.Alive (s.icache ip).id
  | .iput _ ip k => (k.Uses → s.Alive (s.icache ip).id) ∧ (s.icache ip).Tested k

structure Safe (s : State ι ω) : Prop where
  unique : ∀ ip ip', 0 < (s.icache ip).ref → 0 < (s.icache ip').ref →
    (s.icache ip).id = (s.icache ip').id → ip = ip'
  copy : ∀ ip, 0 < (s.icache ip).ref → (s.icache ip).valid = true →
    (s.icache ip).copy = s.disk (s.icache ip).id ∧ s.Alive (s.icache ip).id
  linked : Linked s
  blocks : Blocks s
  locked : ∀ p x ip, s.ptr x = .ref ip → s.use p x = .locked → (s.icache ip).valid = true
  ptr : ∀ x, s.Good x (s.ptr x)

theorem Stage.not_frees (h : k ≠ .itrunc) (h' : k ≠ .free) : ¬ k.Frees := not_or.mpr ⟨h, h'⟩

theorem Stage.Frees.uses (h : k.Frees) : k.Uses := by
  rcases h with rfl | rfl <;> exact ⟨nofun, nofun⟩

/-- In the other stages nothing has been found out. -/
theorem Inode.Tested.of_not {v : Inode} (hr : k ≠ .read) (hf : ¬ k.Frees) : v.Tested k :=
  ⟨fun h => absurd h (not_or.mpr ⟨hr, hf⟩), fun h => absurd h hf⟩

theorem Safe.alive_of_ref (h : Safe s) (hx : s.ptr x = .ref ip) : s.Alive (s.icache ip).id := by
  have := h.ptr x
  rwa [hx] at this

theorem Safe.of_iput (h : Safe s) (hx : s.ptr x = .iput p ip k) :
    (k.Uses → s.Alive (s.icache ip).id) ∧ (s.icache ip).Tested k := by
  have := h.ptr x
  rwa [hx] at this

theorem Safe.of_iget (h : Safe s) (hx : s.ptr x = .iget p id) :
    (s.disk id).type ≠ none ∧ (s.disk id).nlink = 0 ∧ ∀ y q, s.ptr y = .iget q id → y = x := by
  have := h.ptr x
  rwa [hx] at this

/-- The other entries in use stand for other inodes. -/
theorem Safe.fresh (h : Safe s) (hr : 0 < (s.icache ip).ref) (ip' : Ip) (hne : ip' ≠ ip)
    (hr' : 0 < (s.icache ip').ref) : (s.icache ip').id ≠ (s.icache ip).id :=
  fun e => hne (h.unique ip' ip hr' hr e)

/-- The pointers refer to entries in use. -/
def State.Positive (s : State ι ω) : Prop :=
  ∀ x ip, (s.ptr x).entry = some ip → 0 < (s.icache ip).ref

theorem Counted.positive [Fintype ω] (h : Counted s) : s.Positive := fun _ _ => h.ref_pos

/-- While `iput` frees an inode, it has no links, and the pointer is the only one. -/
theorem Safe.of_frees (h : Safe s) (hpos : s.Positive) (hx : s.ptr x = .iput p ip k)
    (hk : k.Frees) : s.Alive (s.icache ip).id ∧ (s.icache ip).copy = s.disk (s.icache ip).id ∧
      (s.disk (s.icache ip).id).nlink = 0 ∧ (s.icache ip).ref = 1 := by
  obtain ⟨halive, htest⟩ := h.of_iput hx
  obtain ⟨hv, hn⟩ := htest.unlinked (.inr hk)
  have hcopy := (h.copy ip (hpos x ip (by rw [hx]; rfl)) hv).1
  exact ⟨halive hk.uses, hcopy, hcopy ▸ hn, htest.last hk⟩

/-- A pointer other than the one that `iput` frees an inode with does not refer to its entry. -/
theorem Safe.only_of_frees [Fintype ω] (h : Safe s) (hc : Counted s) (hx : s.ptr x = .iput p ip k)
    (hk : k.Frees) (hy : (s.ptr y).entry = some ip) : y = x := by
  by_contra hne
  have h1 := (h.of_frees hc.positive hx hk).2.2.2
  have h2 := hc.two_le_ref hne hy (by rw [hx]; rfl)
  omega

/-- Where a reference may be added, the inode is allocated, for nobody else than the new pointer,
and no process frees it. -/
theorem Reason.spec [Fintype ω] (h : Safe s) (hc : Counted s) (hr : Reason s x id) :
    (s.disk id).type ≠ none ∧ (∀ y q, y ≠ x → s.ptr y ≠ .iget q id) ∧
      ∀ y q ip k, s.ptr y = .iput q ip k → (s.icache ip).id = id → ¬ k.Frees := by
  cases hr with
  | entry hx he =>
    obtain ⟨ht, hn⟩ := h.linked id he
    refine ⟨ht, fun y q _ hy => hn.ne' (h.of_iget hy).2.1, ?_⟩
    rintro y q ip k hy rfl hk
    exact hn.ne' (h.of_frees hc.positive hy hk).2.2.1
  | @pointer z ip' hx hz he =>
    subst he
    have halive := h.alive_of_ref hz
    refine ⟨halive.1, fun y q _ => halive.2 y q, fun y q ip k hy hid hk => ?_⟩
    have hip : ip' = ip := h.unique ip' ip (hc.pos_of_ref hz) (hc.pos_of_iput hy) hid.symm
    have hzy : z = y := h.only_of_frees hc hy hk (by rw [hz, hip]; rfl)
    rw [hzy, hy] at hz
    cases hz
  | @allocated q' hx =>
    obtain ⟨ht, -, hu⟩ := h.of_iget hx
    refine ⟨ht, fun y q hne hy => hne (hu y q hy), ?_⟩
    rintro y q ip k hy rfl hk
    exact (h.of_frees hc.positive hy hk).1.2 x q' hx

/-- What a pointer says stays true if it does so for what it points to. -/
theorem State.Good.mono (h : s.Good y v)
    (hm : ∀ q i, v = .iget q i → s'.disk i = s.disk i ∧
      ∀ z q', s'.ptr z = .iget q' i → s.ptr z = .iget q' i)
    (ha : ∀ a, v.entry = some a → s.Alive (s.icache a).id → s'.Alive (s'.icache a).id)
    (ht : ∀ q a k, v = .iput q a k → (s.icache a).Tested k → (s'.icache a).Tested k) :
    s'.Good y v := by
  cases v with
  | null | ialloc => trivial
  | iget q i =>
    obtain ⟨hd, hp⟩ := hm q i rfl
    exact ⟨hd ▸ h.1, hd ▸ h.2.1, fun z q' hz => h.2.2 z q' (hp z q' hz)⟩
  | ref a => exact ha a rfl h
  | iput q a k => exact ⟨fun hu => ha a rfl (h.1 hu), ht q a k rfl h.2⟩

theorem Blocks.mono (h : Blocks s) (hu : ∀ b, s.used b = true → s'.used b = true)
    (ha : ∀ i b, b ∈ (s'.disk i).addrs → b ∈ (s.disk i).addrs) : Blocks s' :=
  ⟨fun dev i b hb => hu _ (h.used dev i b (ha _ b hb)),
    fun dev i j b hi hj => h.disjoint dev i j b (ha _ b hi) (ha _ b hj)⟩

theorem Linked.setDisk (h : Linked s) (he : s'.entries = s.entries)
    (hd : s'.disk = Function.update s.disk id d)
    (hid : 0 < s.entries id → d.type ≠ none ∧ 0 < d.nlink) : Linked s' := by
  intro i hi
  rw [he] at hi
  rw [hd]
  by_cases e : i = id
  · subst e
    rw [Function.update_self]
    exact hid hi
  · rw [Function.update_of_ne e]
    exact h i hi

theorem Blocks.setDisk (h : Blocks s) (hu : s'.used = s.used)
    (hd : s'.disk = Function.update s.disk id d) (hid : ∀ b ∈ d.addrs, b ∈ (s.disk id).addrs) :
    Blocks s' := by
  refine h.mono (fun b hb => hu ▸ hb) fun i b hb => ?_
  rw [hd] at hb
  by_cases e : i = id
  · subst e
    rw [Function.update_self] at hb
    exact hid b hb
  · rwa [Function.update_of_ne e] at hb

/-! ## Small changes -/

theorem Linked.link (h : Linked s) (ht : (s.disk id).type ≠ none) (hn : 0 < (s.disk id).nlink) :
    Linked { s with entries := Function.update s.entries id (s.entries id + 1) } := by
  intro i hi
  by_cases e : i = id
  · subst e
    exact ⟨ht, hn⟩
  · exact h i (by simpa [e] using hi)

theorem Linked.unlink (h : Linked s) :
    Linked { s with entries := Function.update s.entries id (s.entries id - 1) } := by
  intro i hi
  refine h i ?_
  by_cases e : i = id
  · subst e
    simp only [Function.update_self] at hi
    exact lt_of_lt_of_le hi (Nat.sub_le ..)
  · simpa [e] using hi

theorem Safe.setEntries (h : Safe s) (hl : Linked { s with entries }) : Safe { s with entries } :=
  ⟨h.unique, h.copy, hl, ⟨h.blocks.used, h.blocks.disjoint⟩, h.locked, h.ptr⟩

theorem Safe.setLock (h : Safe s) : Safe (s.setLock ip v) :=
  ⟨h.unique, h.copy, h.linked, ⟨h.blocks.used, h.blocks.disjoint⟩, h.locked, h.ptr⟩

/-- One reference less. -/
theorem Safe.decRef (h : Safe s) (hf : ∀ y q k, s.ptr y = .iput q ip k → ¬ k.Frees) :
    Safe (s.setInode ip { s.icache ip with ref := (s.icache ip).ref - 1 }) := by
  set t := s.setInode ip { s.icache ip with ref := (s.icache ip).ref - 1 }
  have hic : ∀ a, ∃ r ≤ (s.icache a).ref, t.icache a = { s.icache a with ref := r } ∧
      (a ≠ ip → r = (s.icache a).ref) := by
    intro a
    by_cases e : a = ip
    · subst e
      exact ⟨_, Int.sub_le_self _ zero_le_one, by simp [t, State.setInode], fun hn => absurd rfl hn⟩
    · exact ⟨_, le_rfl, by simp [t, State.setInode, e], fun _ => rfl⟩
  have hid : ∀ a, (t.icache a).id = (s.icache a).id := by
    intro a
    obtain ⟨r, -, hr, -⟩ := hic a
    rw [hr]
    rfl
  have hpos : ∀ a, 0 < (t.icache a).ref → 0 < (s.icache a).ref := by
    intro a ha
    obtain ⟨r, hle, hr, -⟩ := hic a
    rw [hr] at ha
    exact lt_of_lt_of_le ha hle
  refine ⟨fun a b ha hb hab => h.unique a b (hpos a ha) (hpos b hb) (by rwa [hid, hid] at hab),
    fun a ha hv => ?_, h.linked, ⟨h.blocks.used, h.blocks.disjoint⟩, fun p z a hz hl => ?_,
    fun y => ?_⟩
  · obtain ⟨r, -, hr, -⟩ := hic a
    rw [hr] at hv ⊢
    exact h.copy a (hpos a ha) hv
  · obtain ⟨r, -, hr, -⟩ := hic a
    rw [hr]
    exact h.locked p z a hz hl
  · change t.Good y (s.ptr y)
    refine (h.ptr y).mono (fun _ _ _ => ⟨rfl, fun _ _ => id⟩) (fun a _ ha => by rw [hid]; exact ha)
      fun q a k hy htest => ?_
    obtain ⟨r, -, hr, hne⟩ := hic a
    rw [hr]
    refine ⟨htest.unlinked, fun hk => (hne ?_).trans (htest.last hk)⟩
    rintro rfl
    exact hf y q k hy hk

/-! ## Local changes -/

variable [DecidableEq ω] {e : Inode} {d : Dinode} {w : Ptr ι}

/-- The entry `ip` becomes `e`, its inode becomes `d` on the disk, and the pointer `x` becomes
`w`. -/
structure Local (s s' : State ι ω) (ip : Ip) (e : Inode) (d : Dinode) (x : ω) (w : Ptr ι) :
    Prop where
  icache : s'.icache = Function.update s.icache ip e
  disk : s'.disk = Function.update s.disk e.id d
  ptr : s'.ptr = Function.update s.ptr x w
  fresh : ∀ ip', ip' ≠ ip → 0 < (s.icache ip').ref → (s.icache ip').id ≠ e.id
  notMark : ∀ q i, w ≠ .iget q i
  /-- No other pointer is one of an `ialloc` of this inode. -/
  unmarked : ∀ y q, y ≠ x → s.ptr y ≠ .iget q e.id

namespace Local

theorem icache_self (hl : Local s s' ip e d x w) : s'.icache ip = e := by
  rw [hl.icache, Function.update_self]

theorem icache_of_ne (hl : Local s s' ip e d x w) (h : ip' ≠ ip) :
    s'.icache ip' = s.icache ip' := by
  rw [hl.icache, Function.update_of_ne h]

theorem disk_self (hl : Local s s' ip e d x w) : s'.disk e.id = d := by
  rw [hl.disk, Function.update_self]

theorem disk_of_ne (hl : Local s s' ip e d x w) (h : i ≠ e.id) : s'.disk i = s.disk i := by
  rw [hl.disk, Function.update_of_ne h]

theorem ptr_self (hl : Local s s' ip e d x w) : s'.ptr x = w := by
  rw [hl.ptr, Function.update_self]

theorem ptr_of_ne (hl : Local s s' ip e d x w) (h : y ≠ x) : s'.ptr y = s.ptr y := by
  rw [hl.ptr, Function.update_of_ne h]

theorem ptr_of_mark (hl : Local s s' ip e d x w) (h : s'.ptr y = .iget q i) :
    y ≠ x ∧ s.ptr y = .iget q i := by
  have hne : y ≠ x := by
    rintro rfl
    rw [hl.ptr_self] at h
    exact hl.notMark q i h
  exact ⟨hne, hl.ptr_of_ne hne ▸ h⟩

theorem alive (hl : Local s s' ip e d x w) (hi : i ≠ e.id) (h : s.Alive i) : s'.Alive i :=
  ⟨hl.disk_of_ne hi ▸ h.1, fun y q hy => h.2 y q (hl.ptr_of_mark hy).2⟩

theorem alive_self (hl : Local s s' ip e d x w) (ht : d.type ≠ none) : s'.Alive e.id :=
  ⟨hl.disk_self.symm ▸ ht, fun y q hy =>
    hl.unmarked y q (hl.ptr_of_mark hy).1 (hl.ptr_of_mark hy).2⟩

theorem good_ref (hl : Local s s' ip e d x w) (ht : d.type ≠ none) : s'.Good y (.ref ip) := by
  rw [State.Good, hl.icache_self]
  exact hl.alive_self ht

theorem good_iput (hl : Local s s' ip e d x w) (ht : k.Uses → d.type ≠ none) (hk : e.Tested k) :
    s'.Good y (.iput q ip k) := by
  rw [State.Good, hl.icache_self]
  exact ⟨fun hu => hl.alive_self (ht hu), hk⟩

end Local

/-- A local change keeps safety if it does so at the entry, the inode and the pointers to them. -/
theorem Safe.local (h : Safe s) (hpos : s.Positive) (hl : Local s s' ip e d x w)
    (hcopy : 0 < e.ref → e.valid = true → e.copy = d ∧ d.type ≠ none) (hx : s'.Good x w)
    (hy : ∀ y, y ≠ x → (s.ptr y).entry = some ip → s'.Good y (s.ptr y))
    (hu : ∀ p z, z ≠ x → s'.use p z = s.use p z) (hw : w.entry = some ip)
    (hlock : ∀ p, w = .ref ip → s'.use p x = .locked → e.valid = true)
    (hlocked : ∀ p z, z ≠ x → s.ptr z = .ref ip → s.use p z = .locked → e.valid = true)
    (he : s'.entries = s.entries) (hlinked : 0 < s.entries e.id → d.type ≠ none ∧ 0 < d.nlink)
    (hblocks : Blocks s') : Safe s' where
  unique a b ha hb hab := by
    by_cases ea : a = ip <;> by_cases eb : b = ip
    · rw [ea, eb]
    · rw [hl.icache_of_ne eb] at hb hab
      rw [ea, hl.icache_self] at hab
      exact absurd hab.symm (hl.fresh b eb hb)
    · rw [hl.icache_of_ne ea] at ha hab
      rw [eb, hl.icache_self] at hab
      exact absurd hab (hl.fresh a ea ha)
    · rw [hl.icache_of_ne ea] at ha hab
      rw [hl.icache_of_ne eb] at hb hab
      exact h.unique a b ha hb hab
  copy a ha hv := by
    by_cases ea : a = ip
    · rw [ea, hl.icache_self] at ha hv ⊢
      obtain ⟨hc, ht⟩ := hcopy ha hv
      exact ⟨hc.trans hl.disk_self.symm, hl.alive_self ht⟩
    · rw [hl.icache_of_ne ea] at ha hv ⊢
      have hne := hl.fresh a ea ha
      obtain ⟨hc, halive⟩ := h.copy a ha hv
      exact ⟨hc.trans (hl.disk_of_ne hne).symm, hl.alive hne halive⟩
  linked := h.linked.setDisk he hl.disk hlinked
  blocks := hblocks
  locked p z a hz huse := by
    by_cases ez : z = x
    · subst ez
      rw [hl.ptr_self] at hz
      obtain rfl : ip = a := Option.some.inj (hw.symm.trans (by rw [hz]; rfl))
      rw [hl.icache_self]
      exact hlock p hz huse
    rw [hl.ptr_of_ne ez] at hz
    rw [hu p z ez] at huse
    by_cases ea : a = ip
    · rw [ea, hl.icache_self]
      exact hlocked p z ez (ea ▸ hz) huse
    · rw [hl.icache_of_ne ea]
      exact h.locked p z a hz huse
  ptr y := by
    by_cases ey : y = x
    · rw [ey, hl.ptr_self]
      exact hx
    rw [hl.ptr_of_ne ey]
    by_cases hip : (s.ptr y).entry = some ip
    · exact hy y ey hip
    have hne : ∀ a, (s.ptr y).entry = some a → a ≠ ip := fun a ha e => hip (e ▸ ha)
    refine (h.ptr y).mono (fun q i hv => ?_) (fun a ha halive => ?_) fun q a k hv htest => ?_
    · have hi : i ≠ e.id := fun hi => hl.unmarked y q ey (hi ▸ hv)
      exact ⟨hl.disk_of_ne hi, fun z q' hz => (hl.ptr_of_mark hz).2⟩
    · rw [hl.icache_of_ne (hne a ha)]
      exact hl.alive (hl.fresh a (hne a ha) (hpos y a ha)) halive
    · rw [hl.icache_of_ne (hne a (by rw [hv]; rfl))]
      exact htest

/-- The other pointers to the entry stay good if what `iput` has found out stays true. -/
theorem Safe.good_of_entry (h : Safe s) (hl : Local s s' ip e d x w)
    (ht : s.Alive (s.icache ip).id → d.type ≠ none)
    (hk : ∀ q k, s.ptr y = .iput q ip k → (s.icache ip).Tested k → e.Tested k)
    (hy : (s.ptr y).entry = some ip) : s'.Good y (s.ptr y) := by
  refine (h.ptr y).mono (fun q i hv => ?_) (fun a ha halive => ?_) fun q a k hv htest => ?_
  · rw [hv] at hy
    cases hy
  · obtain rfl : ip = a := Option.some.inj (hy.symm.trans ha)
    rw [hl.icache_self]
    exact hl.alive_self (ht halive)
  · obtain rfl : ip = a := Option.some.inj (hy.symm.trans (by rw [hv]; rfl))
    rw [hl.icache_self]
    exact hk q k hv htest

/-! ## Steps -/

theorem Safe.get [Fintype ω] (h : Safe s) (hc : Counted s) (hr : Reason s x (s.icache ip).id)
    (hpos : 0 < (s.icache ip).ref) : Safe (s.get x ip) := by
  obtain ⟨ht, hm, hf⟩ := hr.spec h hc
  have hl : Local s (s.get x ip) ip { s.icache ip with ref := (s.icache ip).ref + 1 }
      (s.disk (s.icache ip).id) x (.ref ip) :=
    ⟨rfl, (Function.update_eq_self ..).symm, rfl, h.fresh hpos, nofun, hm⟩
  refine h.local hc.positive hl (fun _ hv => ⟨(h.copy ip hpos hv).1, ht⟩) (hl.good_ref ht)
    (fun y _ hy => ?_) (fun _ _ _ => rfl) rfl (fun p _ hu => ?_) (fun p z _ => h.locked p z ip) rfl
    (h.linked _) (h.blocks.mono (fun _ => id) fun _ _ => id)
  · refine h.good_of_entry hl (fun _ => ht) (fun q k hk htest => ?_) hy
    have hnf := hf y q ip k hk rfl
    exact ⟨htest.unlinked, fun hk => absurd hk hnf⟩
  · cases hu.symm.trans (hr.unused hc p)

theorem Safe.load [Fintype ω] (h : Safe s) (hc : Counted s) (hr : Reason s x id)
    (h0 : (s.icache ip).ref = 0) (hno : ∀ ip', 0 < (s.icache ip').ref → (s.icache ip').id ≠ id) :
    Safe (s.load x ip id) := by
  obtain ⟨ht, hm, -⟩ := hr.spec h hc
  have hnone : ∀ y, (s.ptr y).entry ≠ some ip := fun y hy => by
    have := hc.ref_pos hy
    omega
  have hl : Local s (s.load x ip id) ip
      { s.icache ip with dev := id.1, inum := id.2, ref := 1, valid := false } (s.disk id) x
      (.ref ip) :=
    ⟨rfl, (Function.update_eq_self ..).symm, rfl, fun ip' _ => hno ip', nofun, hm⟩
  refine h.local hc.positive hl nofun (hl.good_ref ht) (fun y _ hy => absurd hy (hnone y))
    (fun _ _ _ => rfl) rfl (fun p _ hu => ?_)
    (fun p z _ hz => absurd (by rw [hz]; rfl) (hnone z)) rfl (h.linked _)
    (h.blocks.mono (fun _ hb => hb) fun _ _ hb => hb)
  cases hu.symm.trans (hr.unused hc p)

/-- A pointer that stays as it is. -/
theorem State.ptr_eq_update (s : State ι ω) (hx : s.ptr x = v) :
    s.ptr = Function.update s.ptr x v := by
  rw [← hx, Function.update_eq_self]

theorem Safe.fill [Fintype ω] [DecidableEq ι] (h : Safe s) (hc : Counted s) (hx : s.ptr x = .ref ip)
    (hv : (s.icache ip).valid ≠ true) :
    Safe ((s.setInode ip { s.icache ip with
      valid := true, copy := s.disk (s.icache ip).id }).setUse p x .locked) := by
  have hpos := hc.pos_of_ref hx
  have halive := h.alive_of_ref hx
  have hl : Local s ((s.setInode ip { s.icache ip with
      valid := true, copy := s.disk (s.icache ip).id }).setUse p x .locked) ip
      { s.icache ip with valid := true, copy := s.disk (s.icache ip).id } (s.disk (s.icache ip).id)
      x (.ref ip) :=
    ⟨rfl, (Function.update_eq_self ..).symm, s.ptr_eq_update hx, h.fresh hpos, nofun,
      fun y q _ => halive.2 y q⟩
  refine h.local hc.positive hl (fun _ _ => ⟨rfl, halive.1⟩) (hl.good_ref halive.1)
    (fun y _ hy => ?_) (fun q z hz => State.setUse_of_ne _ fun e => hz e.2) rfl (fun _ _ _ => rfl)
    (fun _ _ _ _ _ => rfl) rfl (h.linked _) (h.blocks.mono (fun _ => id) fun _ _ => id)
  -- the entry is not valid, so that `iput` has found out nothing about it
  refine h.good_of_entry hl (fun _ => halive.1) (fun q k _ htest => ?_) hy
  have hk : ¬ (k = .read ∨ k.Frees) := fun hk => hv (htest.unlinked hk).1
  exact .of_not (fun e => hk (.inl e)) fun e => hk (.inr e)

/-- The holder of the lock changes the copy of the inode, and the inode on the disk. -/
theorem Safe.update [Fintype ω] (h : Safe s) (hc : Counted s) (hk : Locks s)
    (hx : s.ptr x = .ref ip) (hu : s.use p x = .locked)
    (hs : s'.icache = (s.setCopy ip v).icache ∧ s'.disk = (s.setCopy ip v).disk ∧
      s'.ptr = s.ptr ∧ s'.use = s.use ∧ s'.entries = s.entries)
    (ht : v.type = (s.icache ip).copy.type) (hn : 0 < s.entries (s.icache ip).id → 0 < v.nlink)
    (hblocks : Blocks s') : Safe s' := by
  have hpos := hc.pos_of_ref hx
  obtain ⟨hcopy, halive⟩ := h.copy ip hpos (h.locked p x ip hx hu)
  have htype : v.type ≠ none := by
    rw [ht, hcopy]
    exact halive.1
  have hl : Local s s' ip { s.icache ip with copy := v } v x (.ref ip) :=
    ⟨hs.1, hs.2.1, hs.2.2.1.trans (s.ptr_eq_update hx), h.fresh hpos, nofun,
      fun y q _ => halive.2 y q⟩
  refine h.local hc.positive hl (fun _ _ => ⟨rfl, htype⟩) (hl.good_ref htype) (fun y hne hy => ?_)
    (fun q z _ => by rw [hs.2.2.2.1]) rfl (fun q _ hu => ?_) (fun p z _ => h.locked p z ip)
    hs.2.2.2.2 (fun hi => ⟨htype, hn hi⟩) hblocks
  · -- nobody else holds the lock
    refine h.good_of_entry hl (fun _ => htype) (fun q k hy htest => ?_) hy
    have hnot : k.holds = false := by
      by_contra hh
      rw [Bool.not_eq_false] at hh
      exact hne (hk.eq (.inr ⟨k, hy, hh⟩) (.inl ⟨hx, .inr hu⟩)).2
    refine .of_not ?_ ?_
    · rintro rfl
      cases hnot
    · rintro (rfl | rfl) <;> cases hnot
  · rw [hs.2.2.2.1] at hu
    exact h.locked q x ip hx hu

/-- `iput` changes the entry and the inode that it frees. -/
theorem Safe.freeing [Fintype ω] (h : Safe s) (hc : Counted s) (k' : Stage)
    (hx : s.ptr x = .iput p ip k) (hk : k.Frees) (hid : e.id = (s.icache ip).id)
    (hs : s'.icache = Function.update s.icache ip e ∧ s'.disk = Function.update s.disk e.id d ∧
      s'.ptr = Function.update s.ptr x (.iput p ip k') ∧ s'.use = s.use ∧ s'.entries = s.entries)
    (hcopy : e.valid = true → e.copy = d ∧ d.type ≠ none)
    (ht : k'.Uses → d.type ≠ none) (htest : e.Tested k') (hblocks : Blocks s') : Safe s' := by
  have hpos := hc.pos_of_iput hx
  obtain ⟨halive, -, hn, -⟩ := h.of_frees hc.positive hx hk
  have hl : Local s s' ip e d x (.iput p ip k') :=
    ⟨hs.1, hs.2.1, hs.2.2.1, hid ▸ h.fresh hpos, nofun, fun y q _ => hid ▸ halive.2 y q⟩
  refine h.local hc.positive hl (fun _ => hcopy) (hl.good_iput ht htest)
    (fun y hne hy => absurd (h.only_of_frees hc hx hk hy) hne) (fun q z _ => by rw [hs.2.2.2.1]) rfl
    nofun (fun q z hne hz _ => absurd (h.only_of_frees hc hx hk (by rw [hz]; rfl)) hne) hs.2.2.2.2
    (fun hi => absurd hn (h.linked _ (hid ▸ hi)).2.ne') hblocks

theorem Safe.itrunc [Fintype ω] (h : Safe s) (hc : Counted s) (hx : s.ptr x = .iput p ip .itrunc) :
    Safe ((s.itrunc ip).setPtr x (.iput p ip .free)) := by
  have hk : Stage.itrunc.Frees := .inl rfl
  obtain ⟨halive, hcopy, hn, hr⟩ := h.of_frees hc.positive hx hk
  have hv := ((h.of_iput hx).2.unlinked (.inr hk)).1
  have htype : (s.icache ip).copy.type ≠ none := hcopy ▸ halive.1
  refine h.freeing hc .free
    (e := { s.icache ip with copy := { (s.icache ip).copy with addrs := [] } })
    (d := { (s.icache ip).copy with addrs := [] }) hx hk rfl ⟨rfl, rfl, rfl, rfl, rfl⟩
    (fun _ => ⟨rfl, htype⟩) (fun _ => htype) ⟨fun _ => ⟨hv, hcopy ▸ hn⟩, fun _ => hr⟩ ?_
  -- the blocks of the other inodes are other blocks
  have haddrs : ∀ i b, b ∈ (((s.itrunc ip).setPtr x (.iput p ip .free)).disk i).addrs →
      i ≠ (s.icache ip).id ∧ b ∈ (s.disk i).addrs := by
    intro i b hb
    by_cases e : i = (s.icache ip).id
    · simp [State.itrunc, State.setCopy, State.setPtr, e] at hb
    · simpa [State.itrunc, State.setCopy, State.setPtr, e] using hb
  refine ⟨fun dev i b hb => ?_, fun dev i j b hi hj =>
    h.blocks.disjoint dev i j b (haddrs _ b hi).2 (haddrs _ b hj).2⟩
  obtain ⟨hne, hb⟩ := haddrs _ b hb
  have hu := h.blocks.used dev i b hb
  have hnot : ¬ (dev = (s.icache ip).dev ∧ b ∈ (s.icache ip).copy.addrs) := by
    rintro ⟨rfl, hb'⟩
    rw [hcopy] at hb'
    exact hne (by rw [h.blocks.disjoint _ _ _ b hb hb']; rfl)
  rw [not_and_or] at hnot
  simpa [State.itrunc, State.setPtr, hu] using hnot

theorem Safe.free [Fintype ω] (h : Safe s) (hc : Counted s) (hx : s.ptr x = .iput p ip .free) :
    Safe ((s.free ip).setPtr x (.iput p ip .releasesleep)) := by
  have hk : Stage.free.Frees := .inr rfl
  have hcopy := (h.of_frees hc.positive hx hk).2.1
  refine h.freeing hc .releasesleep (e := { s.icache ip with
    valid := false, copy := { (s.icache ip).copy with type := none } })
    (d := { (s.icache ip).copy with type := none }) hx hk rfl ⟨?_, rfl, rfl, rfl, rfl⟩
    (by simp) (fun hu => absurd rfl hu.1) (.of_not (by simp) (by simp [Stage.Frees])) ?_
  · simp [State.free, State.setInode, State.setCopy, State.setPtr]
  · exact h.blocks.setDisk rfl rfl fun b hb => hcopy ▸ hb

/-- What a pointer says does not change with another one, unless that is one of `ialloc`. -/
theorem State.Good.setPtr (h : s.Good y v) (hw : ∀ q i, w ≠ .iget q i) :
    (s.setPtr x w).Good y v := by
  have hmark : ∀ z q i, (s.setPtr x w).ptr z = .iget q i → s.ptr z = .iget q i := by
    intro z q i hz
    by_cases e : z = x
    · rw [e, State.setPtr_self] at hz
      exact absurd hz (hw q i)
    · rwa [State.setPtr_of_ne _ e] at hz
  exact h.mono (fun _ i _ => ⟨rfl, fun z q => hmark z q i⟩)
    (fun a _ ha => ⟨ha.1, fun z q hz => ha.2 z q (hmark z q _ hz)⟩) fun _ _ _ _ => id

theorem Safe.setPtr (h : Safe s) (hw : ∀ q i, w ≠ .iget q i) (hgood : s.Good x w)
    (hu : ∀ p ip, w = .ref ip → s.use p x ≠ .locked) : Safe (s.setPtr x w) where
  unique := h.unique
  copy ip hr hval := by
    obtain ⟨hcopy, halive⟩ := h.copy ip hr hval
    exact ⟨hcopy, State.Good.setPtr (y := x) (v := .ref ip) halive hw⟩
  linked := h.linked
  blocks := ⟨h.blocks.used, h.blocks.disjoint⟩
  locked p z ip hz hl := by
    by_cases e : z = x
    · subst e
      rw [State.setPtr_self] at hz
      exact absurd hl (hu p ip hz)
    · rw [State.setPtr_of_ne _ e] at hz
      exact h.locked p z ip hz hl
  ptr z := by
    by_cases e : z = x
    · rw [e, State.setPtr_self]
      exact hgood.setPtr hw
    · rw [State.setPtr_of_ne _ e]
      exact (h.ptr z).setPtr hw

theorem Safe.unref [Fintype ω] (h : Safe s) (hc : Counted s) (hx : s.ptr x = .iput p ip .unref) :
    Safe ((s.setInode ip { s.icache ip with ref := (s.icache ip).ref - 1 }).setPtr x .null) := by
  refine (h.decRef fun y q k hy hk => ?_).setPtr nofun trivial nofun
  have hyx := h.only_of_frees hc hy hk (y := x) (by rw [hx]; rfl)
  rw [← hyx, hx] at hy
  cases hy
  rcases hk with h | h <;> cases h

/-- `ialloc` takes a free inode. -/
theorem Safe.mark (h : Safe s) (ht : (s.disk (dev, inum)).type = none) :
    Safe (s.mark x p (dev, inum) type) := by
  set t := s.mark x p (dev, inum) type
  have hdisk : ∀ i, i ≠ (dev, inum) → t.disk i = s.disk i := by
    intro i e
    simp [t, State.mark, State.setPtr, e]
  have hself : t.disk (dev, inum) = ⟨some type, 0, []⟩ := by simp [t, State.mark, State.setPtr]
  have hptr : ∀ z, z ≠ x → t.ptr z = s.ptr z := by
    intro z e
    simp [t, State.mark, State.setPtr, e]
  have hptrx : t.ptr x = .iget p (dev, inum) := by simp [t, State.mark, State.setPtr]
  -- the inode was not alive, and no other `ialloc` has taken it
  have hne : ∀ i, s.Alive i → i ≠ (dev, inum) := fun i ha e => (e ▸ ha).1 ht
  have hmark : ∀ z q i, t.ptr z = .iget q i → z = x ∧ i = (dev, inum) ∨ s.ptr z = .iget q i := by
    intro z q i hz
    by_cases e : z = x
    · rw [e, hptrx] at hz
      cases hz
      exact .inl ⟨e, rfl⟩
    · exact .inr (hptr z e ▸ hz)
  have halive : ∀ i, s.Alive i → t.Alive i := by
    intro i ha
    refine ⟨hdisk i (hne i ha) ▸ ha.1, fun z q hz => ?_⟩
    rcases hmark z q i hz with ⟨-, e⟩ | hz
    · exact hne i ha e
    · exact ha.2 z q hz
  refine ⟨h.unique, fun a ha hv => ?_,
    h.linked.setDisk rfl rfl fun hi => absurd ht (h.linked _ hi).1,
    h.blocks.setDisk rfl rfl (by simp), fun q z a hz hl => ?_, fun y => ?_⟩
  · obtain ⟨hcopy, ha⟩ := h.copy a ha hv
    exact ⟨hcopy.trans (hdisk _ (hne _ ha)).symm, halive _ ha⟩
  · have e : z ≠ x := by
      rintro rfl
      rw [hptrx] at hz
      cases hz
    exact h.locked q z a (hptr z e ▸ hz) hl
  · by_cases ey : y = x
    · rw [ey, hptrx]
      refine ⟨by simp [hself], by rw [hself], fun z q hz => ?_⟩
      rcases hmark z q _ hz with ⟨e, -⟩ | hz
      · exact e
      · exact absurd ht (h.of_iget hz).1
    · rw [hptr y ey]
      refine (h.ptr y).mono (fun q i hy => ?_) (fun _ _ => halive _) fun _ _ _ _ => id
      have e : i ≠ (dev, inum) := fun e => (e ▸ (h.of_iget hy).1) ht
      exact ⟨hdisk i e, fun z q' hz => (hmark z q' i hz).resolve_left fun h => e h.2⟩

theorem Safe.setUse [DecidableEq ι] (h : Safe s)
    (hu : u = .locked → ∀ ip, s.ptr x = .ref ip → (s.icache ip).valid = true) :
    Safe (s.setUse p x u) := by
  refine ⟨h.unique, h.copy, h.linked, ⟨h.blocks.used, h.blocks.disjoint⟩, fun q z a hz hl => ?_,
    h.ptr⟩
  by_cases e : q = p ∧ z = x
  · obtain ⟨rfl, rfl⟩ := e
    rw [State.setUse_self] at hl
    exact hu hl a hz
  · rw [State.setUse_of_ne _ e] at hl
    exact h.locked q z a hz hl

/-- `iput` goes on to another stage. -/
theorem Safe.setStage (h : Safe s) (hx : s.ptr x = .iput p ip k) (hu : k'.Uses → k.Uses)
    (ht : (s.icache ip).Tested k') : Safe (s.setPtr x (.iput p ip k')) :=
  h.setPtr nofun ⟨fun hk => (h.of_iput hx).1 (hu hk), ht⟩ nofun

theorem Safe.nlink [Fintype ω] (h : Safe s) (hc : Counted s) (hk : Locks s) (hx : s.ptr x = .ref ip)
    (hu : s.use p x = .locked) (hn : 0 < n ∨ s.entries (s.icache ip).id = 0) :
    Safe (s.setCopy ip { (s.icache ip).copy with nlink := n }) := by
  have hcopy := (h.copy ip (hc.pos_of_ref hx) (h.locked p x ip hx hu)).1
  exact h.update hc hk hx hu ⟨rfl, rfl, rfl, rfl, rfl⟩ rfl
    (fun hi => hn.resolve_right (Nat.ne_of_gt hi))
    (h.blocks.setDisk rfl rfl fun b hb => hcopy ▸ hb)

theorem Safe.append [Fintype ω] (h : Safe s) (hc : Counted s) (hk : Locks s)
    (hx : s.ptr x = .ref ip) (hu : s.use p x = .locked)
    (hb : s.used ((s.icache ip).dev, b) = false) : Safe (s.append ip b) := by
  have hcopy := (h.copy ip (hc.pos_of_ref hx) (h.locked p x ip hx hu)).1
  have haddrs : ∀ i c, c ∈ ((s.append ip b).disk i).addrs → c ∈ (s.disk i).addrs ∨
      i = (s.icache ip).id ∧ c = b := by
    intro i c hc
    by_cases e : i = (s.icache ip).id
    · subst e
      simpa [State.append, State.setCopy, hcopy] using hc
    · exact .inl (by simpa [State.append, State.setCopy, e] using hc)
  -- the new block has been no block of an inode
  have hnew : ∀ i, b ∉ (s.disk ((s.icache ip).dev, i)).addrs := fun i hi => by
    rw [h.blocks.used _ i b hi] at hb
    cases hb
  refine h.update hc hk hx hu ⟨rfl, rfl, rfl, rfl, rfl⟩ rfl (fun hi => hcopy ▸ (h.linked _ hi).2)
    ⟨fun dev i c hc => ?_, fun dev i j c hi hj => ?_⟩
  · rcases haddrs _ c hc with hc | ⟨hi, rfl⟩
    · have hused := h.blocks.used dev i c hc
      by_cases e : (dev, c) = ((s.icache ip).dev, b)
      · simp [State.append, e]
      · simpa [State.append, e] using hused
    · cases hi
      simp [State.append]
  · rcases haddrs _ c hi with hci | ⟨ei, rfl⟩
    · rcases haddrs _ c hj with hcj | ⟨ej, rfl⟩
      · exact h.blocks.disjoint dev i j c hci hcj
      · cases ej
        exact absurd hci (hnew i)
    · rcases haddrs _ c hj with hcj | ⟨ej, -⟩
      · cases ei
        exact absurd hcj (hnew j)
      · exact congrArg Prod.snd (ei.trans ej.symm)

theorem Safe.step [Fintype ω] [DecidableEq ι] (h : Safe s) (hc : Counted s) (hk : Locks s)
    (hs : Step s s') : Safe s' := by
  cases hs with
  | get hx hr =>
    refine h.get hc hx ?_
    obtain hr | ⟨y, hy⟩ := hr
    · exact hr
    · exact hc.pos_of_ref hy
  | load hx h0 hno => exact h.load hc hx h0 hno
  | @assign x y ip hx hu hy =>
    have hnull := h.setPtr (x := x) (w := .null) nofun trivial nofun
    refine hnull.setPtr nofun ?_ fun p _ _ hl => ?_
    · exact State.Good.setPtr (v := .ref _) (h.alive_of_ref hx) nofun
    · cases hl.symm.trans (hc.unused (by simp [hy]) p)
  | wait hx hu => exact h.setUse nofun
  | acquire | unlock => exact h.setLock.setUse nofun
  | filled hx hu hv => exact h.setUse fun _ a ha => Ptr.ref.inj (hx.symm.trans ha) ▸ hv
  | fill hx hu hv => exact h.fill hc hx hv
  | nlink hx hu hn => exact h.nlink hc hk hx hu hn
  | append hx hu hb => exact h.append hc hk hx hu hb
  | put hx hu =>
    exact h.setPtr nofun
      ⟨fun _ => h.alive_of_ref hx, .of_not nofun (Stage.not_frees nofun nofun)⟩ nofun
  | putAcquire hx hl =>
    exact h.setLock.setStage hx (fun _ => ⟨nofun, nofun⟩)
      (.of_not nofun (Stage.not_frees nofun nofun))
  | test hx hv hn =>
    exact h.setStage hx (fun _ => ⟨nofun, nofun⟩)
      ⟨fun _ => ⟨hv, hn⟩, fun hk => absurd hk (Stage.not_frees nofun nofun)⟩
  | read hx hr =>
    exact h.setStage hx (fun _ => ⟨nofun, nofun⟩)
      ⟨fun _ => (h.of_iput hx).2.unlinked (.inl rfl), fun _ => hr⟩
  | keep hx hk =>
    exact h.setStage hx (fun hu => absurd rfl hu.1) (.of_not nofun (Stage.not_frees nofun nofun))
  | itrunc hx => exact h.itrunc hc hx
  | free hx => exact h.free hc hx
  | release hx =>
    exact h.setLock.setStage hx (fun hu => absurd rfl hu.2)
      (.of_not nofun (Stage.not_frees nofun nofun))
  | unref hx => exact h.unref hc hx
  | ialloc hx => exact h.setPtr nofun trivial nofun
  | mark hx ht => exact h.mark ht
  | link ht hn => exact h.setEntries (h.linked.link ht hn)
  | unlink => exact h.setEntries h.linked.unlink

end Xv6.Icache
