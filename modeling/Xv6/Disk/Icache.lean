import Xv6.Disk.Contents

/-! # References to inodes

`itrunc` frees each block of an inode once. `iput` calls it for the last reference to an inode
without links; then no other entry of the cache has the inode. -/

namespace Xv6.Disk

open Fault
open Fs (NDIRECT NINDIRECT NINODE)
open Function

variable {k : Nat} {y : Extent}

/-! ## `itrunc` -/

/-- `itrunc` has cleared the direct addresses of the inode `i` that are not in `rest`. -/
def Clearing (l : List Pin) (u : Nat → Extent) (i : Nat) (rest : List Nat) : State → Prop :=
  Grown l u (update (sizes u) i 0) i fun y _ =>
    (∀ k ∈ rest, k < NDIRECT) ∧ ∀ k, k < NDIRECT → k ∉ rest → y.addrs k = 0

theorem freeDirect_spec (hx : ⟨ip, i, true⟩ ∈ l) :
    Triple Safe (Clearing l u i (k :: rest)) (freeDirect ip k) fun _ => Clearing l u i rest := by
  refine .exists fun y => .of_and fun hy => .of_and fun hK => ?_
  have hrest : ∀ k ∈ rest, k < NDIRECT := fun j hj => hK.1 j (.tail _ hj)
  refine .reads_bind fun b => .ite (fun h0 => ?_) fun h0 => .pure ?_
  · refine .bind (Q := fun _ s => Blocks (update u i
      { y with addrs := update y.addrs k 0 }) (update (sizes u) i 0) [] s ∧
      Cache l u (update u i y) s) (bfree_spec.pre ?_) fun _ => .writes ?_
    · rintro s ⟨⟨hb, hc⟩, rfl⟩
      have hb := hb.releaseDirect (b := (s.ino ip).addrs k) (hc.ino hx).2
        (update_self ..) (hK.1 k List.mem_cons_self)
      rw [update_idem, update_self] at hb
      exact ⟨hb (by rw [← (hc.ino_update hx).1]; rfl) h0, hc⟩
    · rintro s ⟨hb, hc⟩
      refine ⟨{ y with addrs := update y.addrs k 0 }, hy, ⟨hrest, fun j hj hm => ?_⟩,
        hb.congr rfl rfl rfl, hc.setAddr hx⟩
      by_cases e : j = k
      · simp [e]
      · rw [← hK.2 j hj (by simp [e, hm])]
        simp [e]
  · rintro s ⟨⟨hb, hc⟩, rfl⟩
    refine ⟨y, hy, ⟨hrest, fun j hj hm => ?_⟩, hb, hc⟩
    by_cases e : j = k
    · rw [e, ← (hc.ino_update hx).1]
      exact not_not.mp h0
    · exact hK.2 j hj (by simp [e, hm])

theorem Clean.clearing (h : Clean l u s) : Clearing l u i (List.range NDIRECT) s := by
  refine ⟨u i, ⟨rfl, rfl⟩, ⟨by simp, fun k hk hm => absurd (List.mem_range.mpr hk) hm⟩, ?_, ?_⟩
  · rw [update_eq_self]
    refine h.1.lower fun j => ?_
    by_cases e : j = i <;> simp [e]
  · rw [update_eq_self]
    exact h.2

theorem freeEntry_spec {w : Nat → Extent} {m : Nat → Nat} {a : Block} {held rest : List Nat}
    {j : Nat} : Triple Safe
      (fun s => Blocks v m ((j :: rest).filterMap (fun j => blockNo (a.word j)) ++ held) s ∧
        Cache l u w s) (freeEntry (a.word j))
      fun _ s => Blocks v m (rest.filterMap (fun j => blockNo (a.word j)) ++ held) s ∧
        Cache l u w s := by
  refine .ite (fun h0 => ?_) fun h0 => .pure ?_
  · rw [List.filterMap_cons_some (f := fun j => blockNo (a.word j)) (blockNo_of_ne h0)]
    exact bfree_spec
  · rw [List.filterMap_cons_none (f := fun j => blockNo (a.word j))
      (by rw [not_not.mp h0, blockNo_zero])]
    exact fun _ => id

theorem itrunc_spec (hx : ⟨ip, i, true⟩ ∈ l) : Triple Safe (Clean l u) (itrunc ip)
    fun _ s => ∃ y, (∀ k, k ≤ NDIRECT → y.addrs k = 0) ∧ Clean l (update u i y) s := by
  -- the end of `itrunc`, after the branch on the indirect block
  have hend : Triple Safe (Grown l u (update (sizes u) i 0) i fun y _ =>
      ∀ k, k ≤ NDIRECT → y.addrs k = 0)
      (do
        writes fun s => s.setIno ip { s.ino ip with size := 0 }
        iupdate ip)
      fun _ s => ∃ y, (∀ k, k ≤ NDIRECT → y.addrs k = 0) ∧ Clean l (update u i y) s := by
    refine .bind (Q := fun _ s => ∃ y, (∀ k, k ≤ NDIRECT → y.addrs k = 0) ∧ Unsaved l u i y s)
      (.writes fun s h => ?_) fun _ => .exists fun y => .of_and fun hy => ?_
    · obtain ⟨y, -, hy, h⟩ := h.setSize hx
      exact ⟨{ y with size := 0 }, hy, h⟩
    · exact (iupdate_unsaved nofun hx).post fun _ s h => ⟨y, hy, h⟩
  refine .bind ((Triple.forM (P := Clearing l u i) fun k rest => freeDirect_spec hx).pre
    (fun _ h => h.clearing)) fun _ => ?_
  refine .exists fun y => .of_and fun hy => .of_and fun hK => ?_
  have hzero : ∀ {k}, k ≤ NDIRECT → k ≠ NDIRECT → y.addrs k = 0 :=
    fun hk hne => hK.2 _ (by omega) List.not_mem_nil
  refine .reads_bind fun b => .ite (fun h0 => ?_) fun h0 => ?_
  · refine .reads_bind fun a => .pre (P := fun s => Blocks (update u i
      { y with addrs := update y.addrs NDIRECT 0 }) (update (sizes u) i 0)
      ((List.range NINDIRECT).filterMap (fun j => blockNo (a.word j)) ++ [b]) s ∧
      Cache l u (update u i y) s) ?_ ?_
    · refine .bind (Triple.forM (P := fun rest s => Blocks (update u i
        { y with addrs := update y.addrs NDIRECT 0 }) (update (sizes u) i 0)
        (rest.filterMap (fun j => blockNo (a.word j)) ++ [b]) s ∧
        Cache l u (update u i y) s) fun j rest => freeEntry_spec) fun _ =>
        .bind bfree_spec fun _ => .bind (.writes ?_) fun _ => hend
      rintro s ⟨hb, hc⟩
      refine ⟨{ y with addrs := update y.addrs NDIRECT 0 }, hy, fun k hk => ?_,
        hb.congr rfl rfl rfl, hc.setAddr hx⟩
      by_cases e : k = NDIRECT
      · simp [e]
      · simpa [e] using hzero hk e
    · rintro s ⟨⟨⟨hb, hc⟩, rfl⟩, rfl⟩
      have hb := hb.releaseIndirect (b := (s.ino ip).addrs NDIRECT) (hc.ino hx).2
        (update_self ..)
      rw [update_idem, update_self] at hb
      exact ⟨hb (by rw [← (hc.ino_update hx).1]; rfl) h0, hc⟩
  · refine hend.pre ?_
    rintro s ⟨⟨hb, hc⟩, rfl⟩
    refine ⟨y, hy, fun k hk => ?_, hb, hc⟩
    by_cases e : k = NDIRECT
    · rw [e, ← (hc.ino_update hx).1]
      exact not_not.mp h0
    · exact hzero hk e

/-! ## References -/

theorem Calm.perm (h : Calm l s) (hl : l.Perm l') : Calm l' s :=
  let ⟨v, hb, hc⟩ := h
  ⟨v, hb, hc.perm hl⟩

theorem Calm.forget (h : Calm (x :: l) s) : Calm l s :=
  let ⟨v, hb, hc⟩ := h
  ⟨v, hb, hc.forget⟩

/-- Nothing is held yet of entries in use. -/
theorem Cache.pins {ips : List Ip} (h : Cache [] u v s) (hn : ips.Nodup)
    (hr : ∀ ip ∈ ips, 0 < (s.icache ip).ref) :
    Cache (ips.map fun ip => ⟨ip, (s.icache ip).inum, false⟩) u v s := by
  refine ⟨h.disk, h.cached, h.uniq, fun x hx => ?_, fun z => ?_⟩
  · obtain ⟨ip, -, rfl⟩ := List.mem_map.mp hx
    exact ⟨rfl, nofun⟩
  · have hmap : (ips.map fun ip => (⟨ip, (s.icache ip).inum, false⟩ : Pin)).map Pin.ip = ips := by
      rw [List.map_map]
      exact List.map_id ips
    rw [hmap]
    by_cases hz : z ∈ ips
    · have h₁ := List.nodup_iff_count_le_one.mp hn z
      have h₂ := hr z hz
      omega
    · rw [List.count_eq_zero.mpr hz]
      exact h.refs z

theorem Calm.pin (h : Calm [] s) (hr : 0 < (s.icache ip).ref) :
    Calm [⟨ip, (s.icache ip).inum, false⟩] s := by
  obtain ⟨v, hb, hc⟩ := h
  have hpins := hc.pins (List.nodup_singleton ip) fun z hz => by rwa [List.mem_singleton.mp hz]
  exact ⟨v, hb, hpins⟩

/-- One more reference to an entry. -/
theorem Cache.ref (h : Cache l u v s) (hr : 0 < (s.icache ip).ref)
    (hp : lk = true → (s.icache ip).valid = true) :
    Cache (⟨ip, (s.icache ip).inum, lk⟩ :: l) u v
      (s.setEntry ip { s.icache ip with ref := (s.icache ip).ref + 1 }) := by
  refine h.setEntry (fun _ z hz hz' e => hz (h.uniq z ip hz' hr e)) (fun _ hv => h.cached ip hr hv)
    (fun x hx => ?_) ?_ fun z hz => ?_
  · rcases List.mem_cons.mp hx with rfl | hx
    · exact .inr ⟨rfl, rfl, hp⟩
    · by_cases e : x.ip = ip
      · exact .inr ⟨e, e ▸ h.pinned x hx⟩
      · exact .inl ⟨hx, e⟩
  · have := h.refs ip
    simp
    omega
  · simp [Ne.symm hz]

theorem iget_spec : Triple Safe (Calm l) (iget inum) fun ip => Calm (⟨ip, inum, false⟩ :: l) := by
  refine .reads_bind fun icache => ?_
  cases hf : (List.finRange NINODE).find?
    fun ip => (icache ip).ref > 0 ∧ (icache ip).inum = inum with
  | some ip =>
    refine .bind_pure (.writes ?_)
    rintro s ⟨⟨v, hb, hc⟩, rfl⟩
    obtain ⟨hr, rfl⟩ : (s.icache ip).ref > 0 ∧ (s.icache ip).inum = inum := by
      simpa using List.find?_some hf
    exact ⟨v, hb.congr rfl rfl rfl, hc.ref hr nofun⟩
  | none =>
    dsimp only
    cases hf' : (List.finRange NINODE).find? fun ip => (icache ip).ref = 0 with
    | none => exact .panic nofun
    | some ip =>
      refine .bind_pure (.writes ?_)
      rintro s ⟨⟨v, hb, hc⟩, rfl⟩
      have h0 : (s.icache ip).ref = 0 := by simpa using List.find?_some hf'
      have hlive : ∀ z, 0 < (s.icache z).ref → (s.icache z).inum ≠ inum := by
        simpa using hf
      have hcount : (l.map Pin.ip).count ip = 0 := by
        have := hc.refs ip
        omega
      refine ⟨v, hb.congr rfl rfl rfl, hc.setEntry (fun _ z _ => hlive z) nofun (fun x hx => ?_) ?_
        fun z hz => ?_⟩
      · rcases List.mem_cons.mp hx with rfl | hx
        · exact .inr ⟨rfl, rfl, nofun⟩
        · refine .inl ⟨hx, fun e => ?_⟩
          exact List.count_eq_zero.mp hcount (e ▸ List.mem_map_of_mem hx)
      · simp [hcount]
      · simp [Ne.symm hz]

theorem idup_spec (hx : ⟨ip, i, false⟩ ∈ l) :
    Triple Safe (Calm l) (idup ip) fun ip' => Calm (⟨ip', i, false⟩ :: l) := by
  refine .bind_pure (.writes ?_)
  rintro s ⟨v, hb, hc⟩
  obtain rfl : (s.icache ip).inum = i := (hc.pinned _ hx).1
  exact ⟨v, hb.congr rfl rfl rfl, hc.ref (hc.ref_pos hx) nofun⟩

/-- An entry is valid, so a reference to it counts as locked. -/
theorem Cache.lock (h : Cache (⟨ip, i, lk⟩ :: l) u v s) (hv : (s.icache ip).valid = true) :
    Cache (⟨ip, i, true⟩ :: l) u v s := by
  refine ⟨h.disk, h.cached, h.uniq, fun x hx => ?_, h.refs⟩
  rcases List.mem_cons.mp hx with rfl | hx
  · exact ⟨(h.pinned _ List.mem_cons_self).1, fun _ => hv⟩
  · exact h.pinned x (.tail _ hx)

theorem Cache.unlock (h : Cache (⟨ip, i, true⟩ :: l) u v s) :
    Cache (⟨ip, i, false⟩ :: l) u v s := by
  refine ⟨h.disk, h.cached, h.uniq, fun x hx => ?_, h.refs⟩
  rcases List.mem_cons.mp hx with rfl | hx
  · exact ⟨(h.pinned _ List.mem_cons_self).1, nofun⟩
  · exact h.pinned x (.tail _ hx)

theorem Calm.unlock (h : Calm (⟨ip, i, true⟩ :: l) s) : Calm (⟨ip, i, false⟩ :: l) s :=
  let ⟨v, hb, hc⟩ := h
  ⟨v, hb, hc.unlock⟩

/-- An inode is read from the disk. -/
theorem Cache.load (h : Cache (⟨ip, i, lk⟩ :: l) v v s)
    (ht : ((s.load ip).ino ip).type ≠ none) :
    Cache (⟨ip, i, true⟩ :: l) v v (s.load ip) := by
  have hr : 0 < (s.icache ip).ref := h.ref_pos List.mem_cons_self
  have hi := (h.pinned _ List.mem_cons_self).1
  have hd := h.disk (s.icache ip).inum
  refine h.setEntry (fun _ z hz hz' e => hz (h.uniq z ip hz' hr e)) (fun _ _ => ⟨hd, ?_⟩)
    (fun x hx => ?_) (h.refs ip) fun z _ => le_rfl
  · have hino : ((s.load ip).ino ip).type = (s.dinode (s.icache ip).inum).type := by
      simp [State.load, State.ino, State.setEntry]
    rw [hino] at ht
    rwa [← hd]
  · rcases List.mem_cons.mp hx with rfl | hx
    · exact .inr ⟨rfl, hi, fun _ => rfl⟩
    · by_cases e : x.ip = ip
      · exact .inr ⟨e, e ▸ (h.pinned x (.tail _ hx)).1, fun _ => rfl⟩
      · exact .inl ⟨.tail _ hx, e⟩

theorem ilock_spec : Triple Safe (Calm (⟨ip, i, lk⟩ :: l)) (ilock ip)
    fun _ => Calm (⟨ip, i, true⟩ :: l) := by
  refine .bind (.check fun _ _ _ => nofun) fun _ => .reads_bind fun valid =>
    .ite (fun hv => ?_) fun hv => .pure ?_
  · refine .bind (Q := fun _ s => ∃ v, Blocks v (sizes v) [] s ∧
      ((s.ino ip).type ≠ none → Cache (⟨ip, i, true⟩ :: l) v v s)) (.writes ?_) fun _ =>
      (Triple.check fun _ _ _ => nofun).post ?_
    · rintro s ⟨⟨⟨v, hb, hc⟩, -⟩, -⟩
      exact ⟨v, hb.congr rfl rfl rfl, hc.load⟩
    · rintro _ s ⟨⟨v, hb, hc⟩, ht⟩
      exact ⟨v, hb, hc ht⟩
  · rintro s ⟨⟨⟨v, hb, hc⟩, -⟩, rfl⟩
    exact ⟨v, hb, hc.lock (by simpa using hv)⟩

theorem iunlock_spec : Triple Safe (Calm l) (iunlock ip) fun _ => Calm l :=
  .check_keeps nofun

/-! ## `iput` and `ialloc` -/

/-- A reference is given up. -/
theorem Cache.unref (h : Cache (⟨ip, i, lk⟩ :: l) u v s) :
    Cache l u v (s.setEntry ip { s.icache ip with ref := (s.icache ip).ref - 1 }) := by
  have hr : 0 < (s.icache ip).ref := h.ref_pos List.mem_cons_self
  refine h.setEntry (fun _ z hz hz' e => hz (h.uniq z ip hz' hr e)) (fun _ hv => h.cached ip hr hv)
    (fun x hx => ?_) ?_ fun z hz => ?_
  · by_cases e : x.ip = ip
    · exact .inr ⟨e, e ▸ h.pinned x (.tail _ hx)⟩
    · exact .inl ⟨.tail _ hx, e⟩
  · have := h.refs ip
    rw [List.map_cons, List.count_cons_self] at this
    change _ ≤ (s.icache ip).ref - 1
    omega
  · exact (List.sublist_cons_self ..).count_le z

/-- The last reference to an entry is given up. -/
theorem Cache.unrefLast (h : Cache (⟨ip, i, lk⟩ :: l) u v s) (hr : (s.icache ip).ref = 1)
    (he : e.ref = 0) : Cache l u v (s.setEntry ip e) := by
  have hcount : (l.map Pin.ip).count ip = 0 := by
    have := h.refs ip
    rw [List.map_cons, List.count_cons_self] at this
    omega
  refine h.setEntry (fun h' => ?_) (fun h' => ?_) (fun x hx => ?_) ?_ fun z hz => ?_
  · omega
  · omega
  · refine .inl ⟨.tail _ hx, fun e => ?_⟩
    exact List.count_eq_zero.mp hcount (e ▸ List.mem_map_of_mem hx)
  · rw [hcount, he]
    exact le_rfl
  · exact (List.sublist_cons_self ..).count_le z

/-- An inode becomes free that has no blocks, or is taken into use. -/
theorem Clean.setDinode (h : Clean l v s) (hi : ∀ z, 0 < (s.icache z).ref →
    (s.icache z).valid = true → (s.icache z).inum ≠ i) (hv : ∀ p, stored v s.block (i, p) = none)
    (hx : ∀ p, x.type = none ∨ x.extent.stored s.block p = none) (h0 : x.type = none ∨ x.size = 0) :
    Clean l (update v i x.extent) (s.setDinode i x) := by
  constructor
  · rw [sizes_update]
    refine (h.1.setSame (stored_update_empty hv hx) fun ht => ?_).congr rfl rfl rfl
    rw [show x.extent.size = 0 from h0.resolve_left ht]
    exact Extent.mappedTo_zero
  · exact (h.2.setAbsent hi).setDinode rfl

def Refs (ip : Ip) (r : Int) (s : State) : Prop := (s.icache ip).ref = r

/-- `itrunc` changes the free map and the inode, in the cache and on the disk. -/
theorem itrunc_keeps (hE : E .freeingFreeBlock) (hlog : E .tooBig)
    (hbit : ∀ s b v, P s → P (s.setBit b v)) (hino : ∀ s x, P s → P (s.setIno ip x))
    (hdisk : Triple E P (iupdate ip) fun _ => P) :
    Triple E P (itrunc ip) fun _ => P := by
  have hset : ∀ {f : State → Dinode}, Triple E P (writes fun s => s.setIno ip (f s)) fun _ => P :=
    .writes fun s => hino s _
  have hfree : ∀ {b}, Triple E P (bfree b) fun _ => P :=
    .bind (.check fun _ _ _ => hE) fun _ => logWrite_spec hlog fun s h => hbit s _ _ h.1
  have hend := Triple.bind (hset (f := fun s => { s.ino ip with size := 0 })) fun _ => hdisk
  refine .bind (Triple.forM (P := fun _ => P) fun k _ => ?_) fun _ =>
    .read fun b => .ite (fun _ => ?_) fun _ => hend
  · exact .read fun b => .ite (fun _ => .bind hfree fun _ => hset) fun _ => .pure fun _ => id
  · refine .read fun a => .bind (Triple.forM (P := fun _ => P) fun j _ => ?_)
      fun _ => .bind hfree fun _ => .bind hset fun _ => hend
    exact .ite (fun _ => hfree) fun _ => .pure fun _ => id

theorem itrunc_refs : Triple (fun _ => True) (Refs ip r) (itrunc ip) fun _ => Refs ip r :=
  itrunc_keeps trivial trivial (fun _ _ _ => id)
    (fun s x h => by simpa [Refs, State.setIno, State.setEntry] using h)
    (logWrite_spec trivial fun _ => id)

/-- The last reference to an inode without blocks is given up, and the inode becomes free. -/
theorem Clean.free (h : Clean (⟨ip, i, true⟩ :: l) v s) (hr : (s.icache ip).ref = 1)
    (hv : ∀ k, k ≤ NDIRECT → (v i).addrs k = 0) (hx : x.type = none) (he : e.ref = 0) :
    Clean l (update v i x.extent) ((s.setEntry ip e).setDinode i x) := by
  refine Clean.setDinode ⟨h.1.congr rfl rfl rfl, h.2.unrefLast hr he⟩ (fun z hz _ => ?_)
    (fun p => ?_) (fun _ => .inl hx) (.inl hx)
  · by_cases hz' : z = ip
    · subst hz'
      simp [State.setEntry, he] at hz
    · have hz : 0 < (s.icache z).ref := by simpa [State.setEntry, hz'] using hz
      have hi := (h.2.pinned _ List.mem_cons_self).1
      have hne : (s.icache z).inum ≠ i := fun hzi =>
        hz' (h.2.uniq z ip hz (h.2.ref_pos List.mem_cons_self) (hzi.trans hi.symm))
      simpa [State.setEntry, hz'] using hne
  · unfold stored
    split
    · rfl
    · exact Extent.stored_eq_none hv

theorem iput_spec : Triple Safe (Calm (⟨ip, i, lk⟩ :: l)) (iput ip) fun _ => Calm l := by
  refine .reads_bind fun e => .ite (fun he => ?_) fun _ => .writes ?_
  · refine .pre (P := fun s => ∃ u, Clean (⟨ip, i, true⟩ :: l) u s ∧ Refs ip 1 s)
      (.exists fun u => .bind (((itrunc_spec List.mem_cons_self).and itrunc_refs).weaken
        fun _ => And.left) fun _ => ?_) ?_
    · rintro s ⟨⟨y, hy, h⟩, hr⟩
      have hi : (s.icache ip).inum = i := (h.2.pinned _ List.mem_cons_self).1
      have hf := h.free (x := { s.ino ip with
        type := none, owner := strncpy (s.dinode i).owner (s.ino ip).owner Users.MAX_LEN })
        (e := ⟨i, (s.icache ip).ref - 1, false, { s.ino ip with type := none }⟩) hr ?_ rfl ?_
      · rw [writes_bind]
        refine logWrite_bind nofun ⟨_, hf.1.congr rfl rfl rfl, hf.2.congr ?_ ?_⟩
        · simp [State.setIno, State.setEntry, State.setDinode, State.ino, hi]
        · simp [State.setIno, State.setEntry, State.setDinode, State.ino, hi]
      · rwa [update_self]
      · exact Int.sub_eq_zero.mpr hr
    · rintro s ⟨⟨u, hb, hc⟩, rfl⟩
      exact ⟨u, ⟨hb, hc.lock he.1⟩, he.2.2⟩
  · rintro s ⟨⟨v, hb, hc⟩, -⟩
    exact ⟨v, hb.congr rfl rfl rfl, hc.unref⟩

theorem iunlockput_spec : Triple Safe (Calm (⟨ip, i, lk⟩ :: l)) (iunlockput ip) fun _ => Calm l :=
  .bind iunlock_spec fun _ => iput_spec

theorem ialloc_spec :
    Triple Safe (Calm l) (ialloc type) fun ip s => ∃ i, Calm (⟨ip, i, false⟩ :: l) s := by
  refine .reads_bind fun r => ?_
  cases hf : (List.range' 1 (r.sb.ninodes - 1)).find? fun i => (r.dinode i).type = none with
  | none => exact .panic nofun
  | some i =>
    have h0 : (r.dinode i).type = none := by simpa using List.find?_some hf
    refine .bind (logWrite_spec nofun ?_) fun _ => iget_spec.post fun ip s h => ⟨i, h⟩
    rintro s ⟨⟨v, h⟩, rfl⟩
    have ht : (v i).type = none := by
      rw [← h.2.disk i]
      exact h0
    refine ⟨_, h.setDinode (fun z hz hv e => ?_) (fun p => if_pos ht) (fun p => .inr ?_) (.inr rfl)⟩
    · exact (h.2.cached z hz hv).2 (e ▸ ht)
    · exact Extent.stored_eq_none fun _ _ => rfl

end Xv6.Disk
