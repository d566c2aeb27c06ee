import Xv6.Disk.Owned

/-! # Reading, writing and freeing inodes

`readi` and `cleari` come to no block that is not there, and `writei` gets new blocks only behind
the end of the file, so that it writes the inode to the disk if an address has changed. A file is a
list of bytes, of which `readi` gives a part and `writei` replaces one. -/

namespace Xv6.Disk

open Fault
open Fs (BSIZE NDIRECT MAXFILE)
open Function

variable {v : Nat → Extent} {l : List Pin} {i : Nat} {y : Extent} {α : Type}

def sizes (v : Nat → Extent) (i : Nat) : Nat := (v i).size

theorem sizes_update : sizes (update v i y) = update (sizes v) i y.size := by
  funext a
  by_cases e : a = i
  · subst e
    simp [sizes]
  · simp [sizes, e]

theorem sizes_self : update (sizes v) i (v i).size = sizes v := update_eq_self ..

/-- The inodes are `v`, in the cache and on the disk. -/
def Clean (l : List Pin) (v : Nat → Extent) (s : State) : Prop :=
  Blocks v (sizes v) [] s ∧ Cache l v v s

/-- What holds between the functions of the inode layer. -/
def Calm (l : List Pin) (s : State) : Prop := ∃ v, Clean l v s

/-- The inodes are `v`, and their bytes are `g`. -/
def Content (l : List Pin) (v : Nat → Extent) (g : Nat → Block) (s : State) : Prop :=
  Clean l v s ∧ bytes v s.block = g

/-- What is read from a locked inode. -/
theorem Content.ino_bind (hx : ⟨ip, i, true⟩ ∈ l)
    (h : ∀ x : Dinode, x.type = (v i).type ∧ x.size = (v i).size →
      Triple E (Content l v g) (f x) R) :
    Triple E (Content l v g) (reads (fun s => s.ino ip) >>= f) R := by
  refine .reads_known (fun s hs => ?_) h
  rw [← (hs.1.2.ino hx).1]
  exact ⟨rfl, rfl⟩

/-- The bytes are known before. -/
theorem Calm.triple {x : Kernel α} {R : α → State → Prop}
    (h : ∀ v g, Triple E (Content l v g) x R) : Triple E (Calm l) x R :=
  .exists fun v s hs => h v _ s ⟨hs, rfl⟩

/-! ## `readi` -/

/-- `bmap` finds a block that is there. -/
theorem bmap_eq (h : (s.ino ip).extent.stored s.block (.ofIndex bn) = some b) :
    bmap ip bn s = .ok (b, s) := by
  have hload : ∀ {k c}, (s.ino ip).addrs k ≠ 0 → (s.ino ip).addrs k = c →
      loadAddr ip k s = .ok (c, s) := by
    intro k c h0 hc
    rw [loadAddr, reads_bind, if_neg h0, hc]
    rfl
  unfold bmap
  by_cases hbn : bn < NDIRECT
  · rw [Place.ofIndex, if_pos hbn, Extent.stored, if_pos hbn] at h
    obtain ⟨h0, hc⟩ := blockNo_eq_some.mp h
    rw [if_pos hbn]
    exact hload h0 hc
  · rw [Place.ofIndex, if_neg hbn, Extent.stored] at h
    split at h
    · next hj =>
      have hw : (s.block ((s.ino ip).addrs NDIRECT)).word (bn - NDIRECT) ≠ 0 ∧
        (s.block ((s.ino ip).addrs NDIRECT)).word (bn - NDIRECT) = b := blockNo_eq_some.mp h
      rw [if_neg hbn, if_pos hj.1, bind_of_ok (hload hj.2 rfl), reads_bind, if_neg hw.1, hw.2]
      rfl
    · cases h

theorem bmap_mapped (h : Clean l v s) (hx : ⟨ip, i, true⟩ ∈ l)
    (hbn : bn < ((v i).size + (BSIZE - 1)) / BSIZE) :
    ∃ b, stored v s.block (i, .ofIndex bn) = some b ∧ bmap ip bn s = .ok (b, s) := by
  obtain ⟨hino, ht⟩ := h.2.ino hx
  obtain ⟨b, hb⟩ := Option.ne_none_iff_exists'.mp (h.1.mapped i ht bn hbn)
  exact ⟨b, by rw [stored_of_type ht, hb], bmap_eq (by rw [hino, hb])⟩

theorem readLoop_eq (h : Clean l v s) (hx : ⟨ip, i, true⟩ ∈ l) (hk : n ≤ k)
    (hn : off + n ≤ (v i).size) :
    readLoop ip k off n s = .ok ((bytes v s.block i).read off n, s) := by
  induction k generalizing off n with
  | zero =>
    obtain rfl : n = 0 := by omega
    rfl
  | succ k ih =>
    by_cases h0 : n = 0
    · subst h0
      rfl
    have hm : 0 < min n (BSIZE - off % BSIZE) ∧ min n (BSIZE - off % BSIZE) ≤ n ∧
        off % BSIZE + min n (BSIZE - off % BSIZE) ≤ BSIZE := by
      simp only [BSIZE]
      omega
    obtain ⟨hpos, hle, hfit⟩ := hm
    have hbn : off / BSIZE < ((v i).size + (BSIZE - 1)) / BSIZE := by
      simp only [BSIZE]
      omega
    obtain ⟨b, hq, hmap⟩ := bmap_mapped h hx hbn
    rw [readLoop, if_neg h0, bind_of_ok hmap, reads_bind,
      bind_of_ok (ih (by omega) (by omega)), bytes_read hq hfit]
    change Except.ok (_ ++ _, s) = _
    rw [← Block.read_add, Nat.add_sub_cancel' hle]

/-- `readi` and `writei` return -1. A driver is taken to refuse. -/
def Extent.Refuses (x : Extent) (off n : Nat) : Prop :=
  x.type = some .T_DEV ∨ x.size < off ∨ (off + n) % 2 ^ 32 < off

instance {off n : Nat} : Decidable (y.Refuses off n) :=
  inferInstanceAs (Decidable (_ ∨ _ ∨ _))

/-- `readi` gives a part of the bytes, and changes nothing. -/
theorem readi_eq (h : Clean l v s) (hx : ⟨ip, i, true⟩ ∈ l) :
    readi ip off n s = .ok (if (v i).Refuses off n then none
      else some ((bytes v s.block i).read off (min n ((v i).size - off))), s) := by
  have hino := (h.2.ino hx).1
  have htype : (s.ino ip).type = (v i).type := congrArg Extent.type hino
  have hsize : (s.ino ip).size = (v i).size := congrArg Extent.size hino
  rw [readi, reads_bind, htype, hsize]
  by_cases hdev : (v i).type = some .T_DEV
  · rw [if_pos hdev, if_pos (.inl hdev)]
    rfl
  by_cases ho : off > (v i).size ∨ (off + n) % 2 ^ 32 < off
  · rw [if_neg hdev, if_pos ho, if_pos (.inr ho)]
    rfl
  have hn : (if off + n > (v i).size then (v i).size - off else n) = min n ((v i).size - off) := by
    split <;> omega
  have hok : ¬ (v i).Refuses off n := not_or.mpr ⟨hdev, ho⟩
  rw [if_neg hdev, if_neg ho, if_neg hok, hn, bind_of_ok (readLoop_eq h hx le_rfl (by omega))]
  rfl

/-- The entry is locked, and the inodes in the cache and on the disk agree. -/
def Locked (ip : Ip) (s : State) : Prop := ∃ l v i, Clean l v s ∧ ⟨ip, i, true⟩ ∈ l

theorem readi_keeps (hP : ∀ s, P s → Locked ip s) : Triple E P (readi ip off n) fun _ => P := by
  intro s h
  obtain ⟨l, v, i, hv, hx⟩ := hP s h
  rw [readi_eq hv hx]
  exact h

theorem Calm.locked (hx : ⟨ip, i, true⟩ ∈ l) (h : Calm l s) : Locked ip s :=
  let ⟨v, h⟩ := h
  ⟨l, v, i, h, hx⟩

theorem readi_spec (hx : ⟨ip, i, true⟩ ∈ l) :
    Triple Safe (Calm l) (readi ip off n) fun _ => Calm l :=
  readi_keeps fun _ => Calm.locked hx

/-! ## `writei` and `cleari` -/

/-- `writei` has come to the offset `off` of the inode `i`, which has been changed only if the file
gets longer. -/
def Writing (l : List Pin) (u : Nat → Extent) (i off : Nat) : State → Prop :=
  Grown l u (update (sizes u) i (max (u i).size off)) i
    fun y _ => y = u i ∨ (u i).size < off

theorem Clean.writing (h : Clean l u s) (ho : off ≤ (u i).size) : Writing l u i off s := by
  refine ⟨u i, ⟨rfl, rfl⟩, .inl rfl, ?_, ?_⟩
  · rw [max_eq_left ho, update_eq_self, sizes_self]
    exact h.1
  · rw [update_eq_self]
    exact h.2

/-- `writei` has come to the offset `off` of the inode `i`, and the bytes of the inodes are `g`. -/
def Written (l : List Pin) (u : Nat → Extent) (i off : Nat) (g : Nat → Block) : State → Prop :=
  Grown l u (update (sizes u) i (max (u i).size off)) i
    fun y block => (y = u i ∨ (u i).size < off) ∧ bytes (update u i y) block = g

theorem Content.written (h : Content l u g s) (ho : off ≤ (u i).size) : Written l u i off g s := by
  obtain ⟨y, hy, hK, hb, hc⟩ := h.1.writing (i := i) ho
  have e : y = u i := hK.resolve_right (by omega)
  refine ⟨y, hy, ⟨hK, ?_⟩, hb, hc⟩
  rw [e, update_eq_self, h.2]

theorem Written.content (h : Written l u i off g s) (ho : off ≤ (u i).size) : Content l u g s := by
  obtain ⟨y, -, ⟨hK, hg⟩, hb, hc⟩ := h
  obtain rfl : y = u i := hK.resolve_right (by omega)
  rw [max_eq_left ho, sizes_self, update_eq_self] at hb
  rw [update_eq_self] at hg hc
  exact ⟨⟨hb, hc⟩, hg⟩

theorem bmap_written (hE : off + n ≤ (u i).size ∨ E .outOfBlocks) (hlog : E .tooBig)
    (hx : ⟨ip, i, true⟩ ∈ l) (hn : 0 < n) (hmax : off < MAXFILE * BSIZE) :
    Triple E (Written l u i off g) (bmap ip (off / BSIZE)) fun b =>
      Grown l u (update (sizes u) i (max (u i).size off)) i fun y block =>
        ((y = u i ∨ (u i).size < off + n) ∧ bytes (update u i y) block = g) ∧
          y.stored block (.ofIndex (off / BSIZE)) = some b := by
  rintro s ⟨y, hy, ⟨hK, hg⟩, hb, hc⟩
  by_cases hbn : off / BSIZE < ((u i).size + (BSIZE - 1)) / BSIZE
  · have hino := (hc.ino_update hx).1
    have hmap := hb.mapped i (hc.ino hx).2
    rw [update_self, update_self] at hmap
    obtain ⟨b, hs⟩ := Option.ne_none_iff_exists'.mp (hmap.mono (le_max_left ..) _ hbn)
    rw [bmap_eq (b := b) (by rw [hino, hs])]
    exact ⟨y, hy, ⟨⟨hK.imp_right (by omega), hg⟩, hs⟩, hb, hc⟩
  · have hlt : off / BSIZE < MAXFILE := Nat.div_lt_of_lt_mul (by rwa [Nat.mul_comm])
    have hspec := bmap_spec (d := data (update u i y) s.block) hx hlt s
      ⟨y, hy, rfl, hb, hc⟩
    have hout : ¬ off + n ≤ (u i).size := by
      simp only [BSIZE] at hbn
      omega
    refine hspec.imp ?_ ?_
    · rintro e (rfl | rfl)
      · exact hE.resolve_left hout
      · exact hlog
    rintro b s' ⟨z, hz, ⟨hd, hs⟩, hb, hc⟩
    refine ⟨z, hz, ⟨⟨.inr (not_le.mp hout), ?_⟩, hs⟩, hb, hc⟩
    rw [← hg]
    unfold bytes
    rw [hd]

/-- The block at the offset has been written. -/
theorem Grown.write (h : Grown l u (update (sizes u) i (max (u i).size off)) i
      (fun y block => ((y = u i ∨ (u i).size < off + src.length) ∧
        bytes (update u i y) block = g) ∧
          y.stored block (.ofIndex (off / BSIZE)) = some b) s)
    (hx : ⟨ip, i, true⟩ ∈ l) (hfit : off % BSIZE + src.length ≤ BSIZE) :
    Written l u i (off + src.length) (update g i ((g i).write off src))
      (s.setBlock b ((s.block b).write (off % BSIZE) src)) := by
  obtain ⟨y, hy, ⟨⟨hK, rfl⟩, hs⟩, hb, hc⟩ := h
  have ht := (hc.ino hx).2
  have hself : update u i y i = y := update_self ..
  have hq : stored (update u i y) s.block (i, .ofIndex (off / BSIZE)) = some b := by
    rw [stored_of_type ht, hself, hs]
  have hne := hb.ne_indirect hq Place.ofIndex_ne
  have hb' := hb.setData (c := (s.block b).write (off % BSIZE) src) hq Place.ofIndex_ne
  refine ⟨y, hy, ⟨hK, bytes_write hq (fun q e => hb.owned.inj _ _ b e hq) hfit⟩, ?_,
    hc.congr rfl rfl⟩
  have hraise := hb'.raise (i := i) (b := max (u i).size (off + src.length))
  rw [update_idem, hself] at hraise
  have hmap := hb'.mapped i ht
  rw [hself, update_self] at hmap
  refine hraise fun _ =>
    (hmap.mono (le_max_left ..)).max ((hmap.mono (le_max_right ..)).extend ?_ ?_)
  · simp only [BSIZE] at hfit ⊢
    omega
  · have hi := hne i
    rw [stored_of_type ht, hself] at hi
    change y.stored (update s.block b _) _ ≠ none
    simp [Extent.stored_setBlock hi, hs]

theorem writeLoop_spec (hE : off + src.length ≤ (u i).size ∨ E .outOfBlocks) (hlog : E .tooBig)
    (hx : ⟨ip, i, true⟩ ∈ l) (hk : src.length ≤ k) (hmax : off + src.length ≤ MAXFILE * BSIZE) :
    Triple E (Written l u i off g) (writeLoop ip k off src) fun off' s =>
      off' = off + src.length ∧
        Written l u i off' (update g i ((g i).write off src)) s := by
  have hnil : ∀ s, Written l u i off g s →
      off = off + ([] : List UInt8).length ∧
        Written l u i off (update g i ((g i).write off [])) s := by
    intro s h
    rw [Block.write_nil, update_eq_self]
    exact ⟨rfl, h⟩
  induction k generalizing off g src with
  | zero =>
    obtain rfl := List.length_eq_zero_iff.mp (Nat.le_zero.mp hk)
    exact .pure hnil
  | succ k ih =>
    refine .ite (fun h0 => ?_) fun h0 => ?_
    · subst h0
      exact .pure hnil
    have hpos := List.length_pos_of_ne_nil h0
    have hm : 0 < min src.length (BSIZE - off % BSIZE) ∧
        min src.length (BSIZE - off % BSIZE) ≤ src.length ∧
        off % BSIZE + min src.length (BSIZE - off % BSIZE) ≤ BSIZE := by
      simp only [BSIZE]
      omega
    obtain ⟨hm0, hle, hfit⟩ := hm
    refine .bind (bmap_written (hE.imp_left (by omega)) hlog hx hm0 (by omega)) fun b =>
      .bind (Q := fun _ =>
      Written l u i (off + min src.length (BSIZE - off % BSIZE))
        (update g i ((g i).write off (src.take (min src.length (BSIZE - off % BSIZE))))))
      (logWrite_spec hlog fun s h => ?_) fun _ => (ih (hE.imp_left ?_) ?_ ?_ ?_).post ?_
    · have hlen : (src.take (min src.length (BSIZE - off % BSIZE))).length =
          min src.length (BSIZE - off % BSIZE) := by simp
      rw [← hlen] at h hfit
      have := h.write hx hfit
      rwa [hlen] at this
    · simp only [List.length_drop]
      omega
    · simp only [List.length_drop]
      omega
    · simp only [List.length_drop]
      omega
    · intro s h
      rw [Block.write_nil, update_eq_self]
      exact ⟨rfl, h⟩
    · rintro off' s ⟨rfl, h⟩
      rw [update_self, update_idem, Block.write_write hle] at h
      refine ⟨?_, h⟩
      simp only [List.length_drop]
      omega

/-- The inode `i` has become `y` in the cache and not on the disk. -/
def Unsaved (l : List Pin) (u : Nat → Extent) (i : Nat) (y : Extent) (s : State) : Prop :=
  Blocks (update u i y) (sizes (update u i y)) [] s ∧
    Cache l u (update u i y) s

theorem iupdate_unsaved (hE : E .tooBig) (hx : ⟨ip, i, true⟩ ∈ l) :
    Triple E (Unsaved l u i y) (iupdate ip) fun _ => Clean l (update u i y) := by
  have h : Triple E (Unsaved l u i y) (iupdate ip) _ := iupdate_spec hE hx
  rwa [update_self] at h

theorem iupdate_grown (hE : E .tooBig) (hx : ⟨ip, i, true⟩ ∈ l) :
    Triple E (fun s => Unsaved l u i y s ∧ bytes (update u i y) s.block = g) (iupdate ip)
      fun _ => Content l (update u i y) g := by
  have hblock : Triple E (fun s => bytes (update u i y) s.block = g) (iupdate ip)
      fun _ s => bytes (update u i y) s.block = g := logWrite_spec hE fun _ => id
  exact ((iupdate_unsaved hE hx).and hblock).weaken fun _ => And.left

theorem iupdate_content (hE : E .tooBig) (hx : ⟨ip, i, true⟩ ∈ l) :
    Triple E (Content l v g) (iupdate ip) fun _ => Content l v g := by
  have h := iupdate_grown (u := v) (y := v i) (g := g) hE hx
  simp only [Unsaved, update_eq_self] at h
  exact h

/-- The size changes to that of what is there. -/
theorem Grown.setSize (h : Grown l u (update (sizes u) i n) i K s) (hx : ⟨ip, i, true⟩ ∈ l) :
    ∃ y, y.type = (u i).type ∧ K y s.block ∧
      Unsaved l u i { y with size := n } (s.setIno ip { s.ino ip with size := n }) := by
  obtain ⟨y, hy, hK, hb, hc⟩ := h
  obtain ⟨hino, ht⟩ := hc.ino_update hx
  refine ⟨y, hy.1, hK, ?_, ?_⟩
  · have hmap := hb.mapped i
    rw [update_self, update_self] at hmap
    have hb' := hb.setSame (i := i) (y := { y with size := n }) (n := n)
    rw [update_idem, update_idem] at hb'
    rw [sizes_update]
    exact (hb' stored_setSize hmap).congr rfl rfl rfl
  · have hc := hc.setIno (x := { s.ino ip with size := n }) hx
      (by rw [show (s.ino ip).type = y.type from congrArg Extent.type hino]; exact ht)
    rw [update_idem] at hc
    rwa [← hino]

theorem writei_content (hE : off + src.length ≤ (u i).size ∨ E .outOfBlocks) (hlog : E .tooBig)
    (hx : ⟨ip, i, true⟩ ∈ l) : Triple E (Content l u g) (writei ip off src) fun r s =>
      if (u i).Refuses off src.length ∨ MAXFILE * BSIZE < off + src.length then
        r = none ∧ Content l u g s
      else r = some src.length ∧ ∃ y, y.type = (u i).type ∧
        y.size = max (u i).size (off + src.length) ∧
          Content l (update u i y) (update g i ((g i).write off src)) s := by
  refine Content.ino_bind hx fun x hxv => ?_
  rw [hxv.1, hxv.2]
  refine .ite (fun h => .pure fun s hs => ?_) fun hdev => .ite (fun h => .pure fun s hs => ?_)
    fun ho => .ite (fun h => .pure fun s hs => ?_) fun hmax => ?_
  · rw [if_pos (.inl (.inl h))]
    exact ⟨rfl, hs⟩
  · rw [if_pos (.inl (.inr h))]
    exact ⟨rfl, hs⟩
  · rw [if_pos (.inr h)]
    exact ⟨rfl, hs⟩
  have hok : ¬ ((u i).Refuses off src.length ∨ MAXFILE * BSIZE < off + src.length) :=
    not_or.mpr ⟨not_or.mpr ⟨hdev, ho⟩, hmax⟩
  simp only [if_neg hok]
  refine .bind ((writeLoop_spec hE hlog hx le_rfl (by omega)).pre fun s h => h.written (by omega))
    fun off' => .of_and fun hoff => ?_
  subst hoff
  refine .ite (fun hn => ?_) fun hn => .pure ?_
  · refine .bind (Q := fun _ s => ∃ y, (y.type = (u i).type ∧
      y.size = max (u i).size (off + src.length)) ∧ Unsaved l u i y s ∧
        bytes (update u i y) s.block = update g i ((g i).write off src))
      (.writes ?_) fun _ => .exists fun y => .of_and fun hy => .bind (iupdate_grown hlog hx)
        fun _ => .pure fun s h => ⟨rfl, y, hy.1, hy.2, h⟩
    intro s h
    rw [Written, max_eq_right hn.2.le] at h
    obtain ⟨y, ht, ⟨-, hg⟩, h⟩ := h.setSize hx
    exact ⟨{ y with size := off + src.length }, ⟨ht, (max_eq_right hn.2.le).symm⟩, h,
      bytes_setSize.trans hg⟩
  · intro s h
    have hle : off + src.length ≤ (u i).size := by omega
    refine ⟨rfl, u i, rfl, (max_eq_left hle).symm, ?_⟩
    rw [update_eq_self]
    exact h.content hle

theorem writei_spec (hx : ⟨ip, i, true⟩ ∈ l) :
    Triple Safe (Calm l) (writei ip off src) fun _ => Calm l := by
  refine Calm.triple fun v _ => (writei_content (.inr nofun) nofun hx).post
    fun _ _ h => ?_
  split at h
  · exact ⟨v, h.2.1⟩
  · obtain ⟨-, y, -, -, h⟩ := h
    exact ⟨_, h.1⟩

theorem cleari_content (hE : E .tooBig) (hx : ⟨ip, i, true⟩ ∈ l) :
    Triple E (Content l u g) (cleari ip) fun r s =>
      if (u i).type = some .T_DEV ∨ MAXFILE * BSIZE < (u i).size then r = false ∧ Content l u g s
      else r = true ∧ Content l u
        (update g i ((g i).write 0 (List.replicate (u i).size 0))) s := by
  refine Content.ino_bind hx fun x hxv => ?_
  rw [hxv.1, hxv.2]
  refine .ite (fun h => .pure fun s hs => ?_) fun hdev => .ite (fun h => .pure fun s hs => ?_)
    fun hmax => ?_
  · rw [if_pos (.inl h)]
    exact ⟨rfl, hs⟩
  · rw [if_pos (.inr h)]
    exact ⟨rfl, hs⟩
  have hlen : (List.replicate (u i).size (0 : UInt8)).length = (u i).size := List.length_replicate
  simp only [if_neg (not_or.mpr ⟨hdev, hmax⟩)]
  refine .bind ((writeLoop_spec (.inl (by omega)) hE hx hlen.le (by omega)).pre
    (fun s h => h.written (Nat.zero_le _))) fun off => .of_and fun hoff =>
      .bind ((iupdate_content hE hx).pre fun s h => h.content (by omega)) fun _ =>
        .pure fun _ h => ⟨rfl, h⟩

theorem cleari_spec (hx : ⟨ip, i, true⟩ ∈ l) :
    Triple Safe (Calm l) (cleari ip) fun _ => Calm l := by
  refine Calm.triple fun v _ => (cleari_content nofun hx).post fun _ _ h => ?_
  split at h
  · exact ⟨v, h.2.1⟩
  · exact ⟨v, h.2.1⟩

end Xv6.Disk
