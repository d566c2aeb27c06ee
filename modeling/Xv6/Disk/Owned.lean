import Xv6.Disk.Extent

/-! # Which blocks are in use

`Blocks` says that the blocks marked in use are those of the inodes, each in one place, and that
every inode has the blocks of its size. `Cache` says what the inodes in the cache and on the disk
are; between the operations they agree. The functions of the inode layer keep both, and never free a
block that is free. -/

namespace Xv6.Disk

open Fault
open Fs (NDIRECT NINDIRECT MAXFILE)
open Function

/-- Any panic but `"freeing free block"`. -/
def Safe (e : Panic) : Prop := e ≠ .freeingFreeBlock

/-- There is no room, in the free map or in the log. -/
def Full (e : Panic) : Prop := e = .outOfBlocks ∨ e = .tooBig

theorem logWrite_spec {f : State → State} {Q : Unit → State → Prop} (hE : E .tooBig)
    (h : ∀ s, P s → Q () (f s)) : Triple E P (logWrite f) Q :=
  .bind (.check fun _ _ _ => hE) fun _ => .writes fun s hs => h s hs.1

theorem logWrite_bind {f : State → State} {k : Unit → Kernel α} (hE : E .tooBig)
    (h : Result E Q (k () (f s))) : Result E Q ((logWrite f >>= k) s) := by
  have hw : Triple E (· = s) (logWrite f) fun _ t => t = f s :=
    logWrite_spec hE fun _ e => congrArg f e
  exact hw.bind (fun _ t e => e ▸ h) s rfl

/-- The blocks in use are those of the inodes `v` and those in the list `held`, and the blocks of
an inode before the offset that `m` gives are there. -/
structure Blocks (v : Nat → Extent) (m : Nat → Nat) (held : List Nat) (s : State) : Prop where
  owned : Alloc.Owned s.sb.IsData s.bitmap (stored v s.block) held
  reserved : ∀ b, b < s.sb.datastart → s.bitmap b = true
  mapped : ∀ i, (v i).type ≠ none → (v i).MappedTo s.block (m i)

/-- A reference to an entry of the cache, with the number of its inode and whether it has been
locked. -/
structure Pin where
  ip : Ip
  inum : Nat
  locked : Bool

/-- The inodes on the disk are `u`, and those in the cache are `v`. The references in `l` are
held. -/
structure Cache (l : List Pin) (u v : Nat → Extent) (s : State) : Prop where
  disk : ∀ i, (s.dinode i).extent = u i
  cached : ∀ ip, 0 < (s.icache ip).ref → (s.icache ip).valid = true →
    (s.ino ip).extent = v (s.icache ip).inum ∧ (v (s.icache ip).inum).type ≠ none
  uniq : ∀ x y, 0 < (s.icache x).ref → 0 < (s.icache y).ref →
    (s.icache x).inum = (s.icache y).inum → x = y
  pinned : ∀ x ∈ l, (s.icache x.ip).inum = x.inum ∧
    (x.locked = true → (s.icache x.ip).valid = true)
  refs : ∀ ip, ((l.map Pin.ip).count ip : Int) ≤ (s.icache ip).ref

variable {y : Extent}

/-! ## Blocks -/

namespace Blocks

theorem congr (h : Blocks v m held s) (hsb : s'.sb = s.sb) (hbit : s'.bitmap = s.bitmap)
    (hblock : s'.block = s.block) : Blocks v m held s' := by
  refine ⟨?_, ?_, ?_⟩
  · rw [hsb, hbit, hblock]
    exact h.owned
  · rw [hsb, hbit]
    exact h.reserved
  · rw [hblock]
    exact h.mapped

/-- A block is taken into use and zeroed. -/
theorem take (h : Blocks v m held s) (hb : s.bitmap b = false) (hs : b < s.sb.size) :
    Blocks v m (b :: held) ((s.setBit b true).setBlock b fun _ => 0) := by
  have hd : s.sb.IsData b := by
    refine ⟨?_, hs⟩
    by_contra hlt
    rw [h.reserved b (by omega)] at hb
    cases hb
  have hne : ∀ i, stored v s.block (i, .indirect) ≠ some b := fun i => h.owned.ne_of_unused hb _
  refine ⟨?_, fun c hc => ?_, fun i hi => ?_⟩
  · change Alloc.Owned s.sb.IsData (update s.bitmap b true)
      (stored v (update s.block b _)) (b :: held)
    rw [stored_setBlock hne]
    exact h.owned.take hd hb
  · change update s.bitmap b true c = true
    by_cases e : c = b
    · rw [e, update_self]
    · rw [update_of_ne e]
      exact h.reserved c hc
  · refine (h.mapped i hi).congr (Extent.stored_setBlock ?_)
    rw [← stored_of_type hi]
    exact hne i

theorem free (h : Blocks v m (b :: held) s) : Blocks v m held (s.setBit b false) := by
  refine ⟨h.owned.free, fun c hc => ?_, h.mapped⟩
  change c < s.sb.datastart at hc
  change update s.bitmap b false c = true
  have hb := (h.owned.taken b List.mem_cons_self).1.1.1
  rw [update_of_ne (by omega)]
  exact h.reserved c hc

/-- A block with contents is not an indirect block. -/
theorem ne_indirect (h : Blocks v m held s) (hq : stored v s.block (i, p) = some b)
    (hp : p ≠ .indirect) (a : Nat) : stored v s.block (a, .indirect) ≠ some b := by
  intro ha
  have := congrArg Prod.snd (h.owned.inj _ _ b ha hq)
  exact hp this.symm

/-- A block is in one place, so that another block of the contents is another one. -/
theorem ne_of_stored (h : Blocks v m held s) (hq : stored v s.block (i, p) = some b)
    (hne : q ≠ (i, p)) (hc : stored v s.block q = some c) : c ≠ b := by
  rintro rfl
  exact hne (h.owned.inj _ _ c hc hq)

/-- A block with contents is written. -/
theorem setData (h : Blocks v m held s) (hq : stored v s.block (i, p) = some b)
    (hp : p ≠ .indirect) : Blocks v m held (s.setBlock b c) := by
  have hne := h.ne_indirect hq hp
  refine ⟨?_, h.reserved, fun a ha => ?_⟩
  · change Alloc.Owned s.sb.IsData s.bitmap (stored v (update s.block b c)) held
    rw [stored_setBlock hne]
    exact h.owned
  · refine (h.mapped a ha).congr (Extent.stored_setBlock ?_)
    rw [← stored_of_type ha]
    exact hne a

/-- A block that is held comes to an empty place of an inode. -/
theorem store (h : Blocks v m (b :: held) s) (hx : (v i).type ≠ none) (hy : y.type ≠ none)
    (hp : (v i).stored s.block p = none)
    (hs : y.stored s.block = update ((v i).stored s.block) p (some b)) :
    Blocks (update v i y) m held s := by
  refine ⟨?_, h.reserved, fun a ha => ?_⟩
  · rw [stored_update hx hy hs]
    exact h.owned.store (by rw [stored_of_type hx, hp])
  · by_cases e : a = i
    · rw [e, update_self]
      exact (h.mapped i hx).update hs
    · rw [update_of_ne e] at ha ⊢
      exact h.mapped a ha

/-- A block that is held is not zero and fits in a word. -/
theorem held_bounds (h : Blocks v m (b :: held) s) : b ≠ 0 ∧ b < 2 ^ 32 := by
  obtain ⟨h1, h2⟩ := (h.owned.taken b List.mem_cons_self).1.1
  have := s.sb.nblocks_lt
  have := s.sb.size_le
  unfold Superblock.datastart at h1
  omega

/-- A block that is held comes to an empty entry of an indirect block. -/
theorem storeEntry (h : Blocks v m (c :: held) s) (hx : (v i).type ≠ none)
    (hb : (v i).stored s.block .indirect = some b) (hj : j < NINDIRECT)
    (h0 : (v i).stored s.block (.entry j) = none) :
    Blocks v m held (s.setBlock b ((s.block b).setWord j c)) := by
  obtain ⟨hc0, hc⟩ := h.held_bounds
  have hi : ∀ a, a ≠ i → stored v s.block (a, .indirect) ≠ some b := by
    intro a ha e
    exact ha (congrArg Prod.fst (h.owned.inj _ (i, .indirect) b e (by rw [stored_of_type hx, hb])))
  refine ⟨?_, h.reserved, fun a ha => ?_⟩
  · change Alloc.Owned s.sb.IsData s.bitmap (stored v (update s.block b _)) held
    rw [stored_setEntry hx hb hi hj hc, blockNo_of_ne hc0]
    exact h.owned.store (by rw [stored_of_type hx, h0])
  · by_cases e : a = i
    · subst e
      refine (h.mapped a ha).update (p := .entry j) (b := c) ?_
      rw [← blockNo_of_ne hc0]
      exact Extent.stored_setEntry hb hj hc
    · refine (h.mapped a ha).congr (Extent.stored_setBlock ?_)
      rw [← stored_of_type ha]
      exact hi a e

/-- More blocks of an inode are there. -/
theorem raise (h : Blocks v m held s) (hm : (v i).type ≠ none → (v i).MappedTo s.block b) :
    Blocks v (update m i b) held s := by
  refine ⟨h.owned, h.reserved, fun a ha => ?_⟩
  by_cases e : a = i
  · subst e
    rw [update_self]
    exact hm ha
  · rw [update_of_ne e]
    exact h.mapped a ha

/-- An inode changes, and not its blocks. -/
theorem setSame (h : Blocks v m held s) (hs : stored (update v i y) s.block = stored v s.block)
    (hm : y.type ≠ none → y.MappedTo s.block n) : Blocks (update v i y) (update m i n) held s := by
  refine ⟨by rw [hs]; exact h.owned, h.reserved, fun a ha => ?_⟩
  by_cases e : a = i
  · subst e
    rw [update_self] at ha ⊢
    rw [update_self]
    exact hm ha
  · rw [update_of_ne e] at ha ⊢
    rw [update_of_ne e]
    exact h.mapped a ha

theorem lower (h : Blocks v m held s) (hm : ∀ i, m' i ≤ m i) : Blocks v m' held s :=
  ⟨h.owned, h.reserved, fun i hi => (h.mapped i hi).mono (hm i)⟩

/-- An inode of which no block must be there gives up blocks. -/
theorem of_owned (h : Blocks v m held s) (hm : m i = 0)
    (ho : Alloc.Owned s.sb.IsData s.bitmap (stored (update v i y) s.block) held') :
    Blocks (update v i y) m held' s := by
  refine ⟨ho, h.reserved, fun a ha => ?_⟩
  by_cases e : a = i
  · rw [e, hm]
    exact Extent.mappedTo_zero
  · rw [update_of_ne e] at ha ⊢
    exact h.mapped a ha

/-- A direct address is given up. -/
theorem releaseDirect (h : Blocks v m held s) (hx : (v i).type ≠ none) (hm : m i = 0)
    (hk : k < NDIRECT) (hb : (v i).addrs k = b) (h0 : b ≠ 0) :
    Blocks (update v i { v i with addrs := update (v i).addrs k 0 }) m
      (b :: held) s := by
  have hs : stored (update v i
      { v i with addrs := update (v i).addrs k 0 }) s.block =
      update (stored v s.block) (i, .direct k) none :=
    stored_update hx hx (Extent.stored_setDirect hk)
  refine h.of_owned hm (hs ▸ h.owned.release ?_)
  rw [stored_of_type hx, Extent.stored, if_pos hk, hb, blockNo_of_ne h0]

/-- The indirect block is given up, with the blocks it lists. -/
theorem releaseIndirect (h : Blocks v m held s) (hx : (v i).type ≠ none) (hm : m i = 0)
    (hb : (v i).addrs NDIRECT = b) (h0 : b ≠ 0) :
    Blocks (update v i { v i with addrs := update (v i).addrs NDIRECT 0 }) m
      ((List.range NINDIRECT).filterMap (fun j => blockNo ((s.block b).word j)) ++ b :: held)
      s := by
  -- the places in the order in which `itrunc` frees them
  have hps : ((List.range NINDIRECT).map (fun j => (i, Place.entry j)) ++
      [(i, Place.indirect)]).Nodup := by
    refine List.nodup_append.mpr ⟨List.nodup_range.map fun j j' e => ?_, by simp, by simp⟩
    simpa using e
  have hheld : ((List.range NINDIRECT).map (fun j => (i, Place.entry j)) ++
      [(i, Place.indirect)]).filterMap (stored v s.block) ++ held =
      (List.range NINDIRECT).filterMap (fun j => blockNo ((s.block b).word j)) ++ b :: held := by
    have hind : stored v s.block (i, .indirect) = some b := by
      rw [stored_of_type hx, Extent.stored, hb, blockNo_of_ne h0]
    rw [List.filterMap_append, List.filterMap_map, List.filterMap_cons_some hind,
      List.filterMap_nil, List.append_assoc, List.singleton_append]
    congr 1
    refine List.filterMap_congr fun j hj => ?_
    rw [Function.comp_apply, stored_of_type hx, Extent.stored, hb,
      if_pos ⟨List.mem_range.mp hj, h0⟩]
  refine h.of_owned hm (hheld ▸ h.owned.releaseAll hps ?_ ?_)
  · intro q hq
    have hcases : (∃ j < NINDIRECT, (i, Place.entry j) = q) ∨ q = (i, .indirect) := by
      simpa using hq
    rcases hcases with ⟨j, -, rfl⟩ | rfl <;>
      simp [stored, Extent.stored_clearIndirect]
  · rintro ⟨a, q⟩ hq
    by_cases e : a = i
    · subst e
      rw [stored, update_self, if_neg hx, Extent.stored_clearIndirect]
      cases q with
      | direct k => simp [stored_of_type hx]
      | indirect => simp at hq
      | entry j =>
        have hj : ¬ j < NINDIRECT := by simpa using hq
        simp [hj, stored_of_type hx, Extent.stored]
    · simp [stored, e]

end Blocks

/-! ## The inode cache -/

namespace Cache

theorem congr (h : Cache l u v s) (hd : s'.dinode = s.dinode) (hc : s'.icache = s.icache) :
    Cache l u v s' := by
  have hino : s'.ino = s.ino := by
    funext x
    rw [State.ino, hc]
    rfl
  exact ⟨hd ▸ h.disk, by rw [hc, hino]; exact h.cached, hc ▸ h.uniq, hc ▸ h.pinned, hc ▸ h.refs⟩

theorem perm (h : Cache l u v s) (hl : l.Perm l') : Cache l' u v s :=
  ⟨h.disk, h.cached, h.uniq, fun x hx => h.pinned x (hl.mem_iff.mpr hx), fun ip => by
    rw [← (hl.map Pin.ip).count_eq]; exact h.refs ip⟩

/-- A reference is kept for good. -/
theorem forget {x : Pin} (h : Cache (x :: l) u v s) : Cache l u v s := by
  refine ⟨h.disk, h.cached, h.uniq, fun y hy => h.pinned y (.tail _ hy), fun ip => ?_⟩
  have hle : (l.map Pin.ip).count ip ≤ ((x :: l).map Pin.ip).count ip :=
    (List.sublist_cons_self x l).map Pin.ip |>.count_le ip
  have := h.refs ip
  omega

theorem ref_pos {x : Pin} (h : Cache l u v s) (hx : x ∈ l) : 0 < (s.icache x.ip).ref := by
  have hc : 0 < (l.map Pin.ip).count x.ip := List.count_pos_iff.mpr (List.mem_map_of_mem hx)
  have := h.refs x.ip
  omega

/-- A locked inode is the one that counts. -/
theorem ino (h : Cache l u v s) (hx : ⟨ip, i, true⟩ ∈ l) :
    (s.ino ip).extent = v i ∧ (v i).type ≠ none := by
  have hp := h.pinned _ hx
  have hc := h.cached ip (h.ref_pos hx) (hp.2 rfl)
  rwa [hp.1] at hc

theorem ino_update (h : Cache l u (update v i y) s) (hx : ⟨ip, i, true⟩ ∈ l) :
    (s.ino ip).extent = y ∧ y.type ≠ none := by
  have h := h.ino hx
  rwa [update_self] at h

/-- The inode in an entry changes. -/
theorem setIno (h : Cache l u v s) (hx : ⟨ip, i, true⟩ ∈ l) (ht : x.type ≠ none) :
    Cache l u (update v i x.extent) (s.setIno ip x) := by
  have hi := (h.pinned _ hx).1
  have hself : (s.setIno ip x).icache ip = { s.icache ip with ino := x } := update_self ..
  have hother : ∀ z, z ≠ ip → (s.setIno ip x).icache z = s.icache z :=
    fun z e => update_of_ne e ..
  have hinum : ∀ z, ((s.setIno ip x).icache z).inum = (s.icache z).inum ∧
      ((s.setIno ip x).icache z).ref = (s.icache z).ref ∧
      ((s.setIno ip x).icache z).valid = (s.icache z).valid := by
    intro z
    by_cases e : z = ip
    · rw [e, hself]
      exact ⟨rfl, rfl, rfl⟩
    · rw [hother z e]
      exact ⟨rfl, rfl, rfl⟩
  refine ⟨h.disk, fun z hz hv => ?_, fun a c ha hc hac => ?_, fun y hy => ?_, fun z => ?_⟩
  · rw [(hinum z).2.1] at hz
    rw [(hinum z).2.2] at hv
    rw [(hinum z).1]
    by_cases e : z = ip
    · subst e
      rw [hi, update_self]
      refine ⟨?_, ht⟩
      rw [State.ino, hself]
    · have hne : (s.icache z).inum ≠ i := by
        intro e'
        exact e (h.uniq z ip hz (h.ref_pos hx) (e'.trans hi.symm))
      rw [update_of_ne hne, State.ino, hother z e]
      exact h.cached z hz hv
  · rw [(hinum a).2.1] at ha
    rw [(hinum c).2.1] at hc
    rw [(hinum a).1, (hinum c).1] at hac
    exact h.uniq a c ha hc hac
  · rw [(hinum y.ip).1, (hinum y.ip).2.2]
    exact h.pinned y hy
  · rw [(hinum z).2.1]
    exact h.refs z

/-- An address of the inode in an entry changes. -/
theorem setAddr (h : Cache l u (update v i y) s) (hx : ⟨ip, i, true⟩ ∈ l) :
    Cache l u (update v i { y with addrs := update y.addrs k b })
      (s.setAddr ip k b) := by
  obtain ⟨rfl, ht⟩ := h.ino_update hx
  have h := h.setIno (x := { s.ino ip with addrs := update (s.ino ip).addrs k b }) hx ht
  rwa [update_idem] at h

/-- An entry changes that stays one of its inode or becomes one of an inode that is not in the
cache. -/
theorem setEntry (h : Cache l u v s)
    (hinum : 0 < e.ref → ∀ z, z ≠ ip → 0 < (s.icache z).ref → (s.icache z).inum ≠ e.inum)
    (hvalid : 0 < e.ref → e.valid = true → e.ino.extent = v e.inum ∧ (v e.inum).type ≠ none)
    (hpin : ∀ x ∈ l', x ∈ l ∧ x.ip ≠ ip ∨
      x.ip = ip ∧ e.inum = x.inum ∧ (x.locked = true → e.valid = true))
    (hself : ((l'.map Pin.ip).count ip : Int) ≤ e.ref)
    (hother : ∀ z, z ≠ ip → (l'.map Pin.ip).count z ≤ (l.map Pin.ip).count z) :
    Cache l' u v (s.setEntry ip e) := by
  have he : (s.setEntry ip e).icache ip = e := update_self ..
  have hne : ∀ z, z ≠ ip → (s.setEntry ip e).icache z = s.icache z :=
    fun z hz => update_of_ne hz ..
  refine ⟨h.disk, fun z hz hv => ?_, fun a c ha hc hac => ?_, fun x hx => ?_, fun z => ?_⟩
  · by_cases hz' : z = ip
    · subst hz'
      rw [State.ino, he]
      rw [he] at hz hv
      exact hvalid hz hv
    · rw [State.ino, hne z hz']
      rw [hne z hz'] at hz hv
      exact h.cached z hz hv
  · by_cases ha' : a = ip <;> by_cases hc' : c = ip
    · rw [ha', hc']
    · subst ha'
      rw [he] at ha hac
      rw [hne c hc'] at hc hac
      exact absurd hac.symm (hinum ha c hc' hc)
    · subst hc'
      rw [he] at hc hac
      rw [hne a ha'] at ha hac
      exact absurd hac (hinum hc a ha' ha)
    · rw [hne a ha'] at ha hac
      rw [hne c hc'] at hc hac
      exact h.uniq a c ha hc hac
  · rcases hpin x hx with ⟨hl, hx'⟩ | ⟨rfl, hx'⟩
    · rw [hne _ hx']
      exact h.pinned x hl
    · rw [he]
      exact hx'
  · by_cases hz : z = ip
    · rw [hz, he]
      exact hself
    · rw [hne z hz]
      have h₁ := hother z hz
      have h₂ := h.refs z
      omega

/-- An inode that the cache does not hold changes. -/
theorem setAbsent (h : Cache l u v s) (hi : ∀ z, 0 < (s.icache z).ref →
    (s.icache z).valid = true → (s.icache z).inum ≠ i) : Cache l u (update v i y) s := by
  refine ⟨h.disk, fun z hz hv => ?_, h.uniq, h.pinned, h.refs⟩
  rw [update_of_ne (hi z hz hv)]
  exact h.cached z hz hv

/-- An inode is written to the disk. -/
theorem setDinode (h : Cache l u v s) (hx : x.extent = y) :
    Cache l (update u i y) v (s.setDinode i x) := by
  refine ⟨fun j => ?_, h.cached, h.uniq, h.pinned, h.refs⟩
  change (update s.dinode i x j).extent = _
  by_cases e : j = i
  · rw [e, update_self, update_self, hx]
  · rw [update_of_ne e, update_of_ne e]
    exact h.disk j

end Cache

/-! ## `balloc` and `bfree` -/

/-- `balloc` gives an empty block, and changes nothing in the places and in the contents. -/
theorem balloc_spec : Triple Full (fun s => (Blocks v m held s ∧ Cache l u w s) ∧
      stored v s.block = f ∧ data v s.block = d) balloc
      fun b s => ((Blocks v m (b :: held) s ∧ Cache l u w s) ∧
        stored v s.block = f ∧ data v s.block = d) ∧ s.block b = fun _ => 0 := by
  refine .reads_bind fun r => ?_
  cases hf : (List.range r.sb.size).find? fun b => r.bitmap b = false with
  | none => exact .panic (.inl rfl)
  | some b =>
    refine .bind (Q := fun _ s => ((Blocks v m held r ∧ Cache l u w s) ∧
      stored v r.block = f ∧ data v r.block = d) ∧ s = r.setBit b true)
      (logWrite_spec (.inr rfl) ?_)
      fun _ => .bind (logWrite_spec (.inr rfl) ?_) fun _ => .pure fun _ => id
    · rintro s ⟨⟨⟨hb, hc⟩, hs⟩, rfl⟩
      exact ⟨⟨⟨hb, hc.congr rfl rfl⟩, hs⟩, rfl⟩
    · rintro s ⟨⟨⟨hb, hc⟩, hs, hd⟩, rfl⟩
      have hbit : r.bitmap b = false := by simpa using List.find?_some hf
      have hsize := List.mem_range.mp (List.mem_of_find?_eq_some hf)
      have hfree : ∀ q, stored v r.block q ≠ some b := hb.owned.ne_of_unused hbit
      have hs' := stored_setBlock (w := fun _ => 0) fun i => hfree (i, .indirect)
      refine ⟨⟨⟨hb.take hbit hsize, hc.congr rfl rfl⟩, hs'.trans hs, Eq.trans ?_ hd⟩,
        update_self ..⟩
      refine data_congr hs' fun q c _ hq => update_of_ne ?_ ..
      rintro rfl
      exact hfree q hq

/-- A block that is held is in use. -/
theorem bfree_spec : Triple Safe (fun s => Blocks v m (b :: held) s ∧ Cache l u w s) (bfree b)
    fun _ s => Blocks v m held s ∧ Cache l u w s := by
  refine .bind (.check fun s h hc => ?_) fun _ => logWrite_spec nofun ?_
  · exact absurd (h.1.owned.taken b List.mem_cons_self).1.2 hc
  · rintro s ⟨⟨hb, hc⟩, -⟩
    exact ⟨hb.free, hc.congr rfl rfl⟩

theorem iupdate_spec (hE : E .tooBig) (hx : ⟨ip, i, true⟩ ∈ l) :
    Triple E (fun s => Blocks w m held s ∧ Cache l u v s) (iupdate ip)
      fun _ s => Blocks w m held s ∧ Cache l (update u i (v i)) v s := by
  refine logWrite_spec hE ?_
  rintro s ⟨hb, hc⟩
  rw [(hc.pinned _ hx).1]
  exact ⟨hb.congr rfl rfl rfl, hc.setDinode (hc.ino hx).1⟩

/-! ## `bmap` -/

/-- The place of an address. -/
def Place.ofAddr (k : Nat) : Place := if k < NDIRECT then .direct k else .indirect

theorem Extent.stored_ofAddr (hk : k ≤ NDIRECT) :
    y.stored block (.ofAddr k) = blockNo (y.addrs k) := by
  unfold Place.ofAddr
  split
  · next h => simp [Extent.stored, h]
  · next h =>
    obtain rfl : k = NDIRECT := by omega
    rfl

/-- A new block is entered in an address. -/
theorem Extent.stored_setAddr (hk : k ≤ NDIRECT) (h0 : y.addrs k = 0) (hb : b ≠ 0)
    (hz : block b = fun _ => 0) :
    { y with addrs := update y.addrs k b }.stored block =
      update (y.stored block) (.ofAddr k) (some b) := by
  unfold Place.ofAddr
  split
  · next h => rw [Extent.stored_setDirect h, blockNo_of_ne hb]
  · next h =>
    obtain rfl : k = NDIRECT := by omega
    exact Extent.stored_setIndirect h0 hb hz

/-- The inode `i` has changed from `u` and not been written to the disk; its type and size are as
before, and it satisfies `K`. -/
def Grown (l : List Pin) (u : Nat → Extent) (m : Nat → Nat) (i : Nat)
    (K : Extent → (Nat → Block) → Prop) (s : State) : Prop :=
  ∃ y, (y.type = (u i).type ∧ y.size = (u i).size) ∧ K y s.block ∧
    Blocks (update u i y) m [] s ∧ Cache l u (update u i y) s

/-- The contents of the inodes are `d`, where `i` has become `y`. -/
def Same (u : Nat → Extent) (i : Nat) (d : Nat → Nat → Block) (y : Extent)
    (block : Nat → Block) : Prop :=
  data (update u i y) block = d

theorem loadAddr_spec (hx : ⟨ip, i, true⟩ ∈ l) (hk : k ≤ NDIRECT) :
    Triple Full (Grown l u m i (Same u i d)) (loadAddr ip k) fun b => Grown l u m i
      fun y block => Same u i d y block ∧ y.stored block (.ofAddr k) = some b := by
  refine .exists fun y => .of_and fun hy => ?_
  refine .reads_bind fun addr => .ite (fun h0 => ?_) fun h0 => .pure ?_
  · subst h0
    refine .pre (P := fun s => ∃ f, (y.addrs k = 0 ∧ (u i).type ≠ none) ∧
      (Blocks (update u i y) m [] s ∧ Cache l u (update u i y) s) ∧
        stored (update u i y) s.block = f ∧ Same u i d y s.block)
      (.exists fun f => .of_and ?_) ?_
    · rintro ⟨h0, ht⟩
      refine .bind balloc_spec fun b => .bind (Q := fun _ => Grown l u m i fun y block =>
        Same u i d y block ∧ y.stored block (.ofAddr k) = some b) (.writes ?_) fun _ =>
        .pure fun _ => id
      rintro s ⟨⟨⟨hb, hc⟩, -, hd⟩, hz⟩
      have hyt : y.type ≠ none := hy.1 ▸ ht
      have hstored := Extent.stored_setAddr hk h0 hb.held_bounds.1 hz
      have hnone : y.stored s.block (.ofAddr k) = none := by
        rw [Extent.stored_ofAddr hk, h0, blockNo_zero]
      refine ⟨{ y with addrs := update y.addrs k b }, hy, ⟨Eq.trans ?_ hd, ?_⟩, ?_,
        hc.setAddr hx⟩
      · refine data_of_update ?_ (stored_updated hyt hyt hstored) hz fun _ _ _ _ => rfl
        rwa [stored_of_type (by rwa [update_self]), update_self]
      · exact (congrFun hstored _).trans (update_self ..)
      · have hb := hb.store (i := i) (y := { y with addrs := update y.addrs k b })
          (p := .ofAddr k)
        rw [update_self, update_idem] at hb
        exact (hb hyt hyt hnone hstored).congr rfl rfl rfl
    · rintro s ⟨⟨hd, hb, hc⟩, h0⟩
      obtain ⟨hino, ht⟩ := hc.ino_update hx
      exact ⟨_, ⟨by rw [← hino]; exact h0, hy.1 ▸ ht⟩, ⟨hb, hc⟩, rfl, hd⟩
  · rintro s ⟨⟨hd, hb, hc⟩, rfl⟩
    have hino := (hc.ino_update hx).1
    refine ⟨y, hy, ⟨hd, ?_⟩, hb, hc⟩
    rw [Extent.stored_ofAddr hk, ← hino]
    exact blockNo_of_ne h0

/-- `bmap` gives the block with an index, and changes no contents. -/
theorem bmap_spec (hx : ⟨ip, i, true⟩ ∈ l) (hbn : bn < MAXFILE) :
    Triple Full (Grown l u m i (Same u i d)) (bmap ip bn) fun b => Grown l u m i
      fun y block => Same u i d y block ∧ y.stored block (.ofIndex bn) = some b := by
  refine .ite (fun hbn => ?_) fun hdir => .ite (fun hj => ?_) fun h => absurd hbn ?_
  · have hplace : Place.ofIndex bn = .ofAddr bn := by simp [Place.ofIndex, Place.ofAddr, hbn]
    rw [hplace]
    exact loadAddr_spec hx hbn.le
  have hplace : Place.ofIndex bn = .entry (bn - NDIRECT) := if_neg hdir
  rw [hplace]
  refine .bind (loadAddr_spec hx le_rfl) fun b => .exists fun y => .of_and fun hy => ?_
  refine .reads_bind fun addr => .ite (fun h0 => ?_) fun h0 => .pure ?_
  · subst h0
    refine .pre (P := fun s => ∃ f : Nat × Place → Option Nat,
      (y.type ≠ none ∧ (y.addrs NDIRECT ≠ 0 ∧ y.addrs NDIRECT = b) ∧
        f (i, .entry (bn - NDIRECT)) = none) ∧ (Blocks (update u i y) m [] s ∧
          Cache l u (update u i y) s) ∧ stored (update u i y) s.block = f ∧
            Same u i d y s.block)
      (.exists fun f => .of_and ?_) ?_
    · rintro ⟨ht, ⟨hb0, rfl⟩, hnone⟩
      refine .bind balloc_spec fun c => .bind (Q := fun _ => Grown l u m i fun y block =>
        Same u i d y block ∧ y.stored block (.entry (bn - NDIRECT)) = some c)
        (logWrite_spec (.inr rfl) ?_) fun _ => .pure fun _ => id
      rintro s ⟨⟨⟨hb, hc⟩, rfl, hd⟩, hz⟩
      have hself : update u i y i = y := update_self ..
      have ht' : (update u i y i).type ≠ none := by rwa [hself]
      have hind : y.stored s.block .indirect = some (y.addrs NDIRECT) := blockNo_of_ne hb0
      have hind' : stored (update u i y) s.block (i, .indirect) =
          some (y.addrs NDIRECT) := by
        rw [stored_of_type ht', hself, hind]
      refine ⟨y, hy, ⟨Eq.trans ?_ hd, ?_⟩, hb.storeEntry ht' (by rwa [hself]) hj ?_,
        hc.congr rfl rfl⟩
      · have hs := stored_setEntry ht' (by rwa [hself])
          (fun a ha e => ha (congrArg Prod.fst (hb.owned.inj _ _ _ e hind'))) hj hb.held_bounds.2
        rw [blockNo_of_ne hb.held_bounds.1] at hs
        refine data_of_update hnone hs ?_ fun q a hq ha => update_of_ne ?_ ..
        · refine (update_of_ne ?_ ..).trans hz
          rintro rfl
          exact (hb.owned.taken _ List.mem_cons_self).2 _ hind'
        · exact hb.ne_of_stored hind' (fun e => hq (congrArg Prod.snd e)) ha
      · refine (congrFun (Extent.stored_setEntry hind hj hb.held_bounds.2) _).trans ?_
        rw [update_self, blockNo_of_ne hb.held_bounds.1]
      · rwa [stored_of_type ht'] at hnone
    · rintro s ⟨⟨⟨hd, hind⟩, hb, hc⟩, h0⟩
      obtain ⟨hb0, rfl⟩ := blockNo_eq_some.mp ((Extent.stored_ofAddr le_rfl).symm.trans hind)
      have ht := (hc.ino_update hx).2
      refine ⟨_, ⟨ht, ⟨hb0, rfl⟩, ?_⟩, ⟨hb, hc⟩, rfl, hd⟩
      rw [stored_of_type (by rwa [update_self]), update_self, Extent.stored,
        if_pos ⟨hj, hb0⟩, h0, blockNo_zero]
  · rintro s ⟨⟨⟨hd, hind⟩, hb, hc⟩, rfl⟩
    obtain ⟨hb0, hb'⟩ := blockNo_eq_some.mp ((Extent.stored_ofAddr le_rfl).symm.trans hind)
    refine ⟨y, hy, ⟨hd, ?_⟩, hb, hc⟩
    rw [Extent.stored, if_pos ⟨hj, hb0⟩, hb', blockNo_of_ne h0]
  · simp only [MAXFILE]
    omega

end Xv6.Disk
