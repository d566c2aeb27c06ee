import Xv6.Fs.Counted
import Xv6.Sys.Effect

/-! # The inode cache

Every file, every current directory and every reference that the call under way holds is counted in
the inode cache, so that an entry in use is not given to another inode and an inode in use is not
freed. What a call has learnt of an inode therefore stays true while it holds a reference. -/

namespace Xv6.Sys

open Fault Holding Thread
open Fs (Inode Ip File FileType NFILE W_OK WantsWrite openFile)
open Function

def Res.refers (ip : Ip) : Res → Bool
  | .ref _ ip' => ip' = ip
  | _ => false

/-- The number of references to an entry that are held. -/
def refs (R : Multiset Res) (ip : Ip) : Nat := R.countP fun r => r.refers ip = true

/-- The inode is in use, and not a directory. -/
def NotDir (v : Inode) : Prop := v.type ≠ none ∧ v.type ≠ some .T_DIR

structure Sound (c : Config) : Prop where
  backed : ∀ ip, c.2.files ip + c.2.cwds ip + refs c.1 ip ≤ (c.2.icache ip).ref
  closed : ∀ f, (c.2.file f).ref ≤ 0 → (c.2.file f).type = .FD_NONE
  unique : ∀ ip ip', 0 < (c.2.icache ip).ref → 0 < (c.2.icache ip').ref →
    (c.2.icache ip).inum = (c.2.icache ip').inum → ip = ip'
  valid : ∀ ip, 0 < (c.2.icache ip).ref → (c.2.icache ip).valid = true → (c.2.ino ip).type ≠ none
  writable : ∀ f ip, (c.2.file f).type = .FD_INODE ip → (c.2.file f).writable = true →
    NotDir (c.2.ino ip)
  notDir : ∀ ip, .ref .file ip ∈ c.1 → NotDir (c.2.ino ip)
  granted : ∀ ip, .ref .write ip ∈ c.1 → c.2.Grants (c.2.ino ip) W_OK

variable {ip : Ip} {k : Know}

section Refs

@[simp] theorem refers_ref : (Res.ref k ip').refers ip = decide (ip' = ip) := rfl
@[simp] theorem refers_lock : (Res.lock ip').refers ip = false := rfl
@[simp] theorem refers_file : (Res.file f).refers ip = false := rfl
@[simp] theorem refers_op : Res.op.refers ip = false := rfl

theorem refs_add : refs (R + R') ip = refs R ip + refs R' ip := Multiset.countP_add ..

@[simp] theorem refs_cons {r : Res} :
    refs (r ::ₘ R) ip = refs R ip + if r.refers ip = true then 1 else 0 := Multiset.countP_cons ..

@[simp] theorem refs_singleton {r : Res} :
    refs {r} ip = if r.refers ip = true then 1 else 0 := by
  rw [← Multiset.cons_zero, refs_cons]
  exact Nat.zero_add _

theorem refs_ref : refs {.ref k ip'} ip = if ip' = ip then 1 else 0 := by simp

theorem refs_cwdHeld {v : Option Ip} : (refs (cwdHeld v) ip : Int) = Table.ind (v = some ip) := by
  cases v with
  | none => rfl
  | some ip' =>
    by_cases h : ip' = ip
    · simp [cwdHeld, h]
    · simp [cwdHeld, h]

theorem refs_held {t : FileType} :
    (refs (FileType.held t) ip : Int) = Table.ind (t = .FD_INODE ip) := by
  cases t with
  | FD_INODE ip' =>
    by_cases h : ip' = ip
    · simp [FileType.held, h]
    · simp [FileType.held, h]
  | FD_NONE | FD_PIPE => rfl

/-- A reference that is held counts. -/
theorem refs_pos (h : .ref k ip ∈ R) : 0 < refs R ip :=
  Multiset.countP_pos.mpr ⟨_, h, by simp [Res.refers]⟩

/-- Knowledge comes with what is added, or was there. -/
theorem not_mem_cwdHeld {v : Option Ip} (hk : k ≠ .plain) : Res.ref k ip ∉ cwdHeld v := by
  cases v with
  | none => simp [cwdHeld]
  | some ip' =>
    intro h
    simp only [cwdHeld, Option.elim_some, Multiset.mem_singleton, Res.ref.injEq] at h
    exact hk h.1

theorem not_mem_held {t : FileType} (hk : k ≠ .plain) : Res.ref k ip ∉ FileType.held t := by
  cases t with
  | FD_INODE ip' =>
    intro h
    simp only [FileType.held, Multiset.mem_singleton, Res.ref.injEq] at h
    exact hk h.1
  | FD_NONE | FD_PIPE => simp [FileType.held]

end Refs

namespace Sound

/-! ## What has a reference is in use -/

theorem ref_pos_of_mem (h : Sound (R, s)) (hm : .ref k ip ∈ R) : 0 < (s.icache ip).ref := by
  have hb := h.backed ip
  have hf : 0 ≤ s.files ip := Table.count_nonneg ..
  have hc : 0 ≤ s.cwds ip := Table.count_nonneg ..
  have hr := refs_pos hm
  simp only at hb
  omega

theorem ref_pos_of_cwd (h : Sound (R, s)) (hq : s.cwd q = some ip) : 0 < (s.icache ip).ref := by
  have hb := h.backed ip
  have hf : 0 ≤ s.files ip := Table.count_nonneg ..
  have hc : 0 < s.cwds ip := Table.count_pos (i := q) (by simpa using hq)
  simp only at hb
  omega

/-- A current directory to which another reference is held. -/
theorem two_le_of_cwd (h : Sound ({.ref k ip} + R, s)) (hq : s.cwd q = some ip) :
    2 ≤ (s.icache ip).ref := by
  have hb := h.backed ip
  have hf : 0 ≤ s.files ip := Table.count_nonneg ..
  have hc : 0 < s.cwds ip := Table.count_pos (i := q) (by simpa using hq)
  have hr : 0 < refs ({.ref k ip} + R) ip := refs_pos (k := k) (by simp)
  simp only at hb
  omega

theorem file_pos (h : Sound (R, s)) (hf : (s.file f).type = .FD_INODE ip) : 0 < (s.file f).ref := by
  by_contra hn
  have := h.closed f (not_lt.mp hn)
  simp only [hf] at this
  cases this

theorem files_pos (h : Sound (R, s)) (hf : (s.file f).type = .FD_INODE ip) : 0 < s.files ip :=
  Table.count_pos (i := f) (by simp [File.uses, h.file_pos hf, hf])

theorem ref_pos_of_file (h : Sound (R, s)) (hf : (s.file f).type = .FD_INODE ip) :
    0 < (s.icache ip).ref := by
  have hb := h.backed ip
  have hp := h.files_pos hf
  have hc : 0 ≤ s.cwds ip := Table.count_nonneg ..
  simp only at hb
  omega

/-! ## Changes that do not matter -/

/-- The cache, the inodes, the files and the current directories are the same, and so are the
references that are held. -/
structure Same (c c' : Config) : Prop where
  icache : c'.2.icache = c.2.icache
  inode : c'.2.inode = c.2.inode
  file : c'.2.file = c.2.file
  cwd : c'.2.cwd = c.2.cwd
  ltable : c'.2.ltable = c.2.ltable
  ltableFd : c'.2.ltableFd = c.2.ltableFd
  held : ∀ k ip, .ref k ip ∈ c'.1 ↔ .ref k ip ∈ c.1
  refs : ∀ ip, refs c'.1 ip = refs c.1 ip

theorem congr (h : Sound c) (hs : Same c c') : Sound c' := by
  obtain ⟨R, s⟩ := c
  obtain ⟨R', s'⟩ := c'
  obtain ⟨h1, h2, h3, h4, h5, h6, h7, h8⟩ := hs
  simp only at h1 h2 h3 h4 h5 h6 h7 h8
  refine ⟨fun ip => ?_, fun f => ?_, fun ip ip' => ?_, fun ip => ?_, fun f ip => ?_, fun ip => ?_,
    fun ip => ?_⟩
  · have := h.backed ip
    simpa only [Fs.State.files, Fs.State.cwds, h1, h3, h4, h8] using this
  · simpa only [h3] using h.closed f
  · simpa only [h1] using h.unique ip ip'
  · simpa only [Fs.State.ino, h1, h2] using h.valid ip
  · simpa only [Fs.State.ino, h1, h2, h3] using h.writable f ip
  · simpa only [Fs.State.ino, h1, h2, h7] using h.notDir ip
  · simpa only [Fs.State.ino, Fs.State.Grants, Fs.State.whoami, h1, h2, h5, h6, h7] using
      h.granted ip

theorem lock (h : Sound c) (hs : LockStep c c') : Sound c' := by
  refine h.congr ?_
  cases hs with
  | lock | unlock | beginOp | endOp => exact ⟨rfl, rfl, rfl, rfl, rfl, rfl, by simp, by simp⟩

theorem table (h : Sound c) (hs : TableStep p m c c') : Sound c' := by
  cases hs with
  | tab ht => exact h.congr ⟨rfl, rfl, rfl, rfl, rfl, rfl, fun _ _ => .rfl, fun _ => rfl⟩
  | ltable _ _ hR | ltableFd _ _ hR =>
    exact ⟨h.backed, h.closed, h.unique, h.valid, h.writable, h.notDir,
      fun ip hm => absurd hm (hR ip)⟩

/-! ## The inode cache -/

/-- A change of what is held. -/
theorem setHeld (h : Sound (R, s)) (hr : ∀ ip, refs R' ip ≤ refs R ip)
    (hn : ∀ ip, .ref .file ip ∈ R' → NotDir (s.ino ip))
    (hg : ∀ ip, .ref .write ip ∈ R' → s.Grants (s.ino ip) W_OK) : Sound (R', s) where
  backed ip := by
    have := h.backed ip
    have := hr ip
    simp only at *
    omega
  closed := h.closed
  unique := h.unique
  valid := h.valid
  writable := h.writable
  notDir := hn
  granted := hg

/-- A change of an entry that stands for the same inode. -/
theorem setEntry (h : Sound (R, s)) (he : e.inum = (s.icache ip).inum)
    (hpos : 0 < e.ref → 0 < (s.icache ip).ref)
    (hv : 0 < e.ref → e.valid = true → (s.ino ip).type ≠ none)
    (hr : ∀ ip', (refs R' ip' : Int) - refs R ip' ≤
      if ip' = ip then e.ref - (s.icache ip).ref else 0)
    (hm : ∀ k ip, k ≠ .plain → .ref k ip ∈ R' → .ref k ip ∈ R) :
    Sound (R', s.setEntry ip e) := by
  have hinum : ∀ ip', ((s.setEntry ip e).icache ip').inum = (s.icache ip').inum := by
    intro ip'
    by_cases hip : ip' = ip
    · simp [State.setEntry, hip, he]
    · simp [State.setEntry, hip]
  have hino : ∀ ip', (s.setEntry ip e).ino ip' = s.ino ip' := by
    intro ip'
    rw [Fs.State.ino, hinum]
    rfl
  have hup : ∀ ip', 0 < ((s.setEntry ip e).icache ip').ref → 0 < (s.icache ip').ref := by
    intro ip' hip'
    by_cases hip : ip' = ip
    · subst hip
      simp only [State.setEntry, update_self] at hip'
      exact hpos hip'
    · simpa [State.setEntry, hip] using hip'
  refine ⟨fun ip' => ?_, h.closed, fun a b ha hb hab => ?_, fun ip' hp hv' => ?_,
    fun f ip' hf hw => hino ip' ▸ h.writable f ip' hf hw,
    fun ip' hm' => hino ip' ▸ h.notDir ip' (hm _ _ (by simp) hm'), fun ip' hm' => ?_⟩
  · have hb := h.backed ip'
    have hr := hr ip'
    change s.files ip' + s.cwds ip' + refs R' ip' ≤ (update s.icache ip e ip').ref
    by_cases hip : ip' = ip
    · subst hip
      simp only [if_true, update_self] at *
      omega
    · simp only [if_neg hip, update_of_ne hip] at *
      omega
  · rw [hinum, hinum] at hab
    exact h.unique a b (hup a ha) (hup b hb) hab
  · rw [hino]
    by_cases hip : ip' = ip
    · subst hip
      simp only [State.setEntry, update_self] at hp hv'
      exact hv hp hv'
    · simp only [State.setEntry, update_of_ne hip] at hp hv'
      exact h.valid ip' hp hv'
  · have := h.granted ip' (hm _ _ (by simp) hm')
    rw [hino]
    exact this

/-- An entry that is not in use comes to stand for another inode. -/
theorem load {inum : Nat} (h : Sound (R, s)) (h0 : (s.icache ip).ref = 0)
    (hno : ∀ ip', 0 < (s.icache ip').ref → (s.icache ip').inum ≠ inum) :
    Sound ({.ref .plain ip} + R, s.setEntry ip ⟨inum, 1, false⟩) := by
  have hino : ∀ ip', 0 < (s.icache ip').ref → (s.setEntry ip ⟨inum, 1, false⟩).ino ip' = s.ino ip' ∧
      ip' ≠ ip := by
    intro ip' hip'
    have hne : ip' ≠ ip := by
      rintro rfl
      omega
    exact ⟨by simp [Fs.State.ino, State.setEntry, hne], hne⟩
  have hmem : ∀ k ip', k ≠ .plain → .ref k ip' ∈ ({.ref .plain ip} : Multiset Res) + R →
      .ref k ip' ∈ R := by
    intro k ip' hk hm
    rcases Multiset.mem_add.mp hm with hm | hm
    · simp [hk] at hm
    · exact hm
  refine ⟨fun ip' => ?_, h.closed, fun a b ha hb hab => ?_, fun ip' hp hv' => ?_,
    fun f ip' hf hw => ?_, fun ip' hm => ?_, fun ip' hm => ?_⟩
  · have hb := h.backed ip'
    change s.files ip' + s.cwds ip' + refs ({.ref .plain ip} + R) ip' ≤
      (update s.icache ip ⟨inum, 1, false⟩ ip').ref
    simp only [refs_add, refs_ref] at *
    by_cases hip : ip' = ip
    · subst hip
      simp only [if_true, update_self]
      omega
    · simp only [if_neg (Ne.symm hip), update_of_ne hip]
      omega
  · simp only [State.setEntry] at ha hb hab
    by_cases hea : a = ip
    · by_cases heb : b = ip
      · rw [hea, heb]
      · subst hea
        simp only [update_self, update_of_ne heb] at hb hab
        exact absurd hab.symm (hno b hb)
    · by_cases heb : b = ip
      · subst heb
        simp only [update_self, update_of_ne hea] at ha hab
        exact absurd hab (hno a ha)
      · simp only [update_of_ne hea, update_of_ne heb] at ha hb hab
        exact h.unique a b ha hb hab
  · by_cases hip : ip' = ip
    · subst hip
      simp [State.setEntry] at hv'
    · simp only [State.setEntry, update_of_ne hip] at hp hv'
      rw [(hino ip' hp).1]
      exact h.valid ip' hp hv'
  · rw [(hino ip' (h.ref_pos_of_file hf)).1]
    exact h.writable f ip' hf hw
  · have hm := hmem .file ip' (by simp) hm
    rw [(hino ip' (h.ref_pos_of_mem hm)).1]
    exact h.notDir ip' hm
  · have hm := hmem .write ip' (by simp) hm
    rw [(hino ip' (h.ref_pos_of_mem hm)).1]
    exact h.granted ip' hm

/-! ## Inodes -/

/-- An inode changes in a way that keeps what is known of it. -/
theorem setInode {inum : Nat} (h : Sound (R, s)) (ht : (s.inode inum).type ≠ none → v.type ≠ none)
    (hn : NotDir (s.inode inum) → NotDir v)
    (hg : ∀ ip, .ref .write ip ∈ R → (s.icache ip).inum = inum → s.Grants (s.inode inum) W_OK →
      s.Grants v W_OK) : Sound (R, s.setInode inum v) := by
  have hino : ∀ {P : Inode → Prop} ip, ((s.icache ip).inum = inum → P (s.inode inum) → P v) →
      P (s.ino ip) → P ((s.setInode inum v).ino ip) := by
    intro P ip hP h
    change P (update s.inode inum v (s.icache ip).inum)
    by_cases e : (s.icache ip).inum = inum
    · rw [e, update_self]
      rw [Fs.State.ino, e] at h
      exact hP e h
    · rwa [update_of_ne e]
  exact ⟨h.backed, h.closed, h.unique,
    fun ip hp hv => hino (P := fun v => v.type ≠ none) ip (fun _ => ht) (h.valid ip hp hv),
    fun f ip hf hw => hino ip (fun _ => hn) (h.writable f ip hf hw),
    fun ip hm => hino ip (fun _ => hn) (h.notDir ip hm),
    fun ip hm => hino (P := fun v => s.Grants v W_OK) ip (hg ip hm) (h.granted ip hm)⟩

/-- A change of an inode in use that `checkmod` does not see. -/
theorem setIno (h : Sound (R, s)) (ht : v.type = (s.ino ip).type) (hp : v.perm = (s.ino ip).perm)
    (ho : v.owner = (s.ino ip).owner) : Sound (R, s.setIno ip v) := by
  refine h.setInode (fun hn => ht ▸ hn) (fun hn => ⟨ht ▸ hn.1, ht ▸ hn.2⟩) fun _ _ _ hg => ?_
  change s.Grants (s.ino ip) W_OK at hg
  simpa only [Fs.State.Grants, Fs.checkmod, ht, hp, ho] using hg

/-- A reference is dropped for the last time, and the inode is freed. -/
theorem free (h : Sound ({.ref k ip} + R, s)) (hf : s.Frees ip) : Sound (R, (s.free ip).setEntry ip
      { (s.free ip).icache ip with ref := ((s.free ip).icache ip).ref - 1 }) := by
  obtain ⟨-, -, hone⟩ := hf
  have hb := h.backed ip
  have hfiles : 0 ≤ s.files ip := Table.count_nonneg ..
  have hcwds : 0 ≤ s.cwds ip := Table.count_nonneg ..
  simp only [refs_add, refs_ref, if_true, Nat.cast_add, Nat.cast_one] at hb
  have hentry : ∀ ip', ip' ≠ ip → ((s.free ip).setEntry ip
      { (s.free ip).icache ip with ref := ((s.free ip).icache ip).ref - 1 }).icache ip' =
        s.icache ip' := by
    intro ip' hip
    simp [State.free, State.setEntry, State.setData, State.setIno, State.setInode, hip]
  have hself : (((s.free ip).setEntry ip
      { (s.free ip).icache ip with ref := ((s.free ip).icache ip).ref - 1 }).icache ip).ref = 0 :=
      by
    simp [State.free, State.setEntry, State.setData, State.setIno, State.setInode, hone]
  -- the other entries in use stand for other inodes
  have hino : ∀ ip', ip' ≠ ip → 0 < (s.icache ip').ref → ((s.free ip).setEntry ip
      { (s.free ip).icache ip with ref := ((s.free ip).icache ip).ref - 1 }).ino ip' =
        s.ino ip' := by
    intro ip' hip hp
    have hne : (s.icache ip').inum ≠ (s.icache ip).inum :=
      fun e => hip (h.unique ip' ip hp (by rw [hone]; exact one_pos) e)
    simp only [Fs.State.ino]
    rw [hentry ip' hip]
    simp [State.free, State.setEntry, State.setData, State.setIno, State.setInode, hne]
  have hmem : ∀ {k' ip'}, .ref k' ip' ∈ R → ip' ≠ ip := by
    rintro k' ip' hm rfl
    have := refs_pos hm
    omega
  have hused : ∀ {g ip'}, (s.file g).type = .FD_INODE ip' → ip' ≠ ip := by
    rintro g ip' hg rfl
    have := h.files_pos hg
    omega
  refine ⟨fun ip' => ?_, h.closed, fun a b ha hb hab => ?_, fun ip' hp hv => ?_,
    fun g ip' hg hw => ?_, fun ip' hm => ?_, fun ip' hm => ?_⟩
  · have hb' := h.backed ip'
    change s.files ip' + s.cwds ip' + refs R ip' ≤ _
    by_cases hip : ip' = ip
    · subst hip
      rw [hself]
      omega
    · rw [hentry ip' hip]
      simp only [refs_add, refs_ref, if_neg (Ne.symm hip), zero_add] at hb'
      exact hb'
  · have hane : a ≠ ip := by
      rintro rfl
      rw [hself] at ha
      exact absurd ha (lt_irrefl _)
    have hbne : b ≠ ip := by
      rintro rfl
      rw [hself] at hb
      exact absurd hb (lt_irrefl _)
    rw [hentry a hane] at ha hab
    rw [hentry b hbne] at hb hab
    exact h.unique a b ha hb hab
  · have hne : ip' ≠ ip := by
      rintro rfl
      rw [hself] at hp
      exact absurd hp (lt_irrefl _)
    rw [hentry ip' hne] at hp hv
    rw [hino ip' hne hp]
    exact h.valid ip' hp hv
  · rw [hino ip' (hused hg) (h.ref_pos_of_file hg)]
    exact h.writable g ip' hg hw
  · have hm' : .ref .file ip' ∈ ({.ref k ip} : Multiset Res) + R := Multiset.mem_add.mpr (.inr hm)
    rw [hino ip' (hmem hm) (h.ref_pos_of_mem hm')]
    exact h.notDir ip' hm'
  · have hm' : .ref .write ip' ∈ ({.ref k ip} : Multiset Res) + R := Multiset.mem_add.mpr (.inr hm)
    rw [hino ip' (hmem hm) (h.ref_pos_of_mem hm')]
    exact h.granted ip' hm'

theorem get (h : Sound (R, s)) (hp : 0 < (s.icache ip).ref) : Sound
    ({.ref .plain ip} + R, s.setEntry ip { s.icache ip with ref := (s.icache ip).ref + 1 }) := by
  refine h.setEntry rfl (fun _ => hp) (fun _ => h.valid ip hp) (fun ip' => ?_) fun k ip' hk hm => ?_
  · by_cases hip : ip' = ip
    · simp [hip]
    · simp [hip, Ne.symm hip]
  · simpa [hk] using hm

/-- A reference is dropped, but not for the last time. -/
theorem drop (h : Sound ({.ref k ip} + R, s)) :
    Sound (R, s.setEntry ip { s.icache ip with ref := (s.icache ip).ref - 1 }) := by
  have hp : 0 < (s.icache ip).ref := h.ref_pos_of_mem (k := k) (by simp)
  refine h.setEntry rfl (fun _ => hp) (fun _ => h.valid ip hp) (fun ip' => ?_) fun k ip' hk hm => ?_
  · by_cases hip : ip' = ip
    · simp [hip]
    · simp [hip, Ne.symm hip]
  · exact Multiset.mem_add.mpr (.inr hm)

/-- Knowledge of other inodes, when what is held changes for one. -/
theorem of_mem_add {r r' : Res} (hm : r ∈ ({r'} : Multiset Res) + R) (hr : r ≠ r')
    (d : Res) : r ∈ ({d} : Multiset Res) + R :=
  Multiset.mem_add.mpr (.inr ((Multiset.mem_add.mp hm).resolve_left fun h =>
    hr (Multiset.mem_singleton.mp h)))

theorem made {inum : Nat} (h : Sound (R, s)) (hn : (s.inode inum).type = none)
    (hg : s.Grants (s.made type) W_OK) : Sound (R, s.make inum type) := by
  have := h.setInode (v := s.made type) (fun hne => absurd hn hne) (fun hd => absurd hn hd.1)
    fun _ _ _ _ => hg
  exact ⟨this.backed, this.closed, this.unique, this.valid, this.writable, this.notDir,
    this.granted⟩

/-- A current directory changes, and its reference with it. -/
theorem setCwd {v : Option Ip} (h : Sound (R, s))
    (hr : ∀ ip, (refs R' ip : Int) + Table.ind (v = some ip) ≤
      refs R ip + Table.ind (s.cwd q = some ip))
    (hm : ∀ k ip, k ≠ .plain → .ref k ip ∈ R' → .ref k ip ∈ R) : Sound (R', s.setCwd q v) where
  backed ip := by
    have hb := h.backed ip
    have hr := hr ip
    change s.files ip + Table.count _ (update s.cwd q v) + refs R' ip ≤ (s.icache ip).ref
    simp only [Fs.State.cwds] at hb
    rw [Table.count_update]
    omega
  closed := h.closed
  unique := h.unique
  valid := h.valid
  writable := h.writable
  notDir ip hip := h.notDir ip (hm .file ip nofun hip)
  granted ip hip := h.granted ip (hm .write ip nofun hip)

theorem cache (h : Sound c) (hs : CacheStep m c c') : Sound c' := by
  cases hs with
  | get hp => exact h.get (hp.elim id fun ⟨q, hq⟩ => h.ref_pos_of_cwd hq)
  | load h0 hno => exact h.load h0 hno
  | @valid R s ip hv =>
    refine h.setEntry rfl id (fun hp _ => ?_) (fun ip' => by simp) fun _ _ _ => id
    exact hv.elim (h.valid ip hp) id
  | put => exact State.put_cases (P := fun t => Sound (_, t)) h.drop h.free
  | @leak R s k ip =>
    refine h.setHeld (fun ip' => by simp) (fun ip' hm => h.notDir ip' ?_) fun ip' hm =>
      h.granted ip' ?_
    · exact Multiset.mem_add.mpr (.inr hm)
    · exact Multiset.mem_add.mpr (.inr hm)
  | @grant R s ip hg =>
    refine h.setHeld (fun ip' => by simp) (fun ip' hm => ?_) fun ip' hm => ?_
    · exact h.notDir ip' (of_mem_add hm (by simp) _)
    · by_cases hip : ip' = ip
      · exact hip ▸ hg
      · exact h.granted ip' (of_mem_add hm (by simp [hip]) _)
  | @notDir R s ip hv hd =>
    refine h.setHeld (fun ip' => by simp) (fun ip' hm => ?_) fun ip' hm => ?_
    · by_cases hip : ip' = ip
      · subst hip
        exact ⟨h.valid ip' (h.ref_pos_of_mem (k := .plain) (by simp)) hv, hd⟩
      · exact h.notDir ip' (of_mem_add hm (by simp [hip]) _)
    · exact h.granted ip' (of_mem_add hm (by simp) _)
  | @forget R s k ip =>
    refine h.setHeld (fun ip' => by simp) (fun ip' hm => ?_) fun ip' hm => ?_
    · exact h.notDir ip' (of_mem_add hm (by simp) _)
    · exact h.granted ip' (of_mem_add hm (by simp) _)
  | make type hn => exact h.made hn State.grants_made
  | links n => exact h.setIno rfl rfl rfl
  | @entries R s k dp es hk =>
    have : Sound ({.ref k dp} + R, s.setIno dp { s.ino dp with entries := es }) :=
      h.setIno rfl rfl rfl
    exact ⟨this.backed, this.closed, this.unique, this.valid, this.writable, this.notDir,
      this.granted⟩
  | @writeDir R s f ip es =>
    have : Sound (R, s.setIno ip { s.ino ip with entries := es }) := h.setIno rfl rfl rfl
    exact ⟨this.backed, this.closed, this.unique, this.valid, this.writable, this.notDir,
      this.granted⟩
  | writeData bytes =>
    exact h.congr ⟨rfl, rfl, rfl, rfl, rfl, rfl, fun _ _ => .rfl, fun _ => rfl⟩
  | @perm _ _ _ _ _ hR | @owner _ _ _ _ _ hR =>
    exact h.setInode id id fun ip' hm _ _ => absurd hm (hR ip')
  | @cwdSet R s k ip q =>
    refine h.setCwd (fun ip' => ?_) fun k' ip' hk hm => ?_
    · rw [refs_add, refs_add, Nat.cast_add, Nat.cast_add, refs_cwdHeld, refs_ref]
      by_cases hip : ip = ip'
      · simp [hip]; omega
      · simp [hip]; omega
    · have := (Multiset.mem_add.mp hm).resolve_left (not_mem_cwdHeld hk)
      exact Multiset.mem_add.mpr (.inr this)
  | @cwdClear R s q =>
    refine h.setCwd (fun ip' => ?_) fun k' ip' hk hm => ?_
    · rw [refs_add, Nat.cast_add, refs_cwdHeld]
      simp
      omega
    · exact (Multiset.mem_add.mp hm).resolve_left (not_mem_cwdHeld hk)

/-! ## Files -/

/-- A file changes, and its reference with it. -/
theorem setFile {v : File} (h : Sound (R, s)) (hv : v.ref ≤ 0 → v.type = .FD_NONE)
    (hr : ∀ ip, (refs R' ip : Int) + Table.ind (v.uses ip) ≤
      refs R ip + Table.ind ((s.file f).uses ip))
    (hw : ∀ ip, v.type = .FD_INODE ip → v.writable = true → NotDir (s.ino ip))
    (hm : ∀ k ip, k ≠ .plain → .ref k ip ∈ R' → .ref k ip ∈ R) : Sound (R', s.setFile f v) where
  backed ip := by
    have hb := h.backed ip
    have hr := hr ip
    change Table.count _ (update s.file f v) + s.cwds ip + refs R' ip ≤ (s.icache ip).ref
    simp only [Fs.State.files] at hb
    rw [Table.count_update]
    omega
  closed g := by
    change (update s.file f v g).ref ≤ 0 → (update s.file f v g).type = _
    by_cases hg : g = f
    · rwa [hg, update_self]
    · rw [update_of_ne hg]
      exact h.closed g
  unique := h.unique
  valid := h.valid
  writable g ip := by
    change (update s.file f v g).type = _ → (update s.file f v g).writable = _ →
      NotDir (s.ino ip)
    by_cases hg : g = f
    · rw [hg, update_self]
      exact hw ip
    · rw [update_of_ne hg]
      exact h.writable g ip
  notDir ip hip := h.notDir ip (hm .file ip nofun hip)
  granted ip hip := h.granted ip (hm .write ip nofun hip)

theorem file (h : Sound c) (hs : FileStep p c c') : Sound c' := by
  have hadd : ∀ {R : Multiset Res} {f : Fin NFILE} (k : Know) (ip : Ip), k ≠ .plain →
      Res.ref k ip ∈ ({.file f} : Multiset Res) + R → .ref k ip ∈ R :=
    fun k ip _ hm => by simpa using hm
  cases hs with
  | @new R s f h0 =>
    have ht : (s.file f).type = .FD_NONE := h.closed f h0.le
    refine h.setFile (fun hn => absurd hn (by simp)) (fun ip => ?_) (fun ip hf => ?_) hadd
    · simp [File.uses, ht]
    · simp [ht] at hf
  | @pipe R s f w h0 =>
    have ht : (s.file f).type = .FD_NONE := h.closed f h0.le
    refine h.setFile (fun hn => absurd hn (by simp [pipeFile])) (fun ip => ?_) (fun ip hf => ?_)
      hadd
    · simp [File.uses, ht, pipeFile]
    · simp [pipeFile] at hf
  | @dup R s f h1 =>
    refine h.setFile (fun hn => ?_) (fun ip => ?_) (fun ip => h.writable f ip) hadd
    · simp only at hn
      omega
    · have h2 : 0 < (s.file f).ref + 1 := by omega
      have h3 : 0 < (s.file f).ref := by omega
      simp [File.uses, h2, h3]
  | @drop R s f h1 =>
    refine h.setFile (fun hn => ?_) (fun ip => ?_) (fun ip => h.writable f ip) fun k ip _ hm =>
      Multiset.mem_add.mpr (.inr hm)
    · simp only at hn
      omega
    · have h3 : 0 < (s.file f).ref := by omega
      simp [File.uses, h1, h3]
  | @last R s f h1 =>
    refine h.setFile (fun _ => rfl) (fun ip => ?_) (fun ip hf => by cases hf) fun k ip hk hm => ?_
    · rw [refs_add, refs_add, Nat.cast_add, Nat.cast_add, refs_held]
      simp [File.uses, h1]
      omega
    · have := (Multiset.mem_add.mp hm).resolve_left (not_mem_held hk)
      exact Multiset.mem_add.mpr (.inr this)
  | @opened R s fd f k ip omode h0 hfd hw =>
    have ht : (s.file f).type = .FD_NONE := h.closed f h0.le
    have hnew : Sound (R, s.setFile f (openFile ip omode 1)) := by
      refine h.setFile (fun hn => absurd hn (by simp [openFile])) (fun ip' => ?_)
        (fun ip' hf hwr => ?_) fun k ip _ hm => Multiset.mem_add.mpr (.inr hm)
      · by_cases hip : ip = ip'
        · simp [File.uses, ht, openFile, hip]
        · simp [File.uses, ht, openFile, hip]
      · obtain rfl : ip = ip' := by simpa [openFile] using hf
        obtain ⟨-, rfl⟩ := hw (by simpa [openFile, WantsWrite] using hwr)
        exact h.notDir ip (by simp)
    exact ⟨hnew.backed, hnew.closed, hnew.unique, hnew.valid, hnew.writable, hnew.notDir,
      hnew.granted⟩
  | fdSet | fdClear =>
    exact h.congr ⟨rfl, rfl, rfl, rfl, rfl, rfl, by simp, by simp⟩
  | off n => exact h.congr ⟨rfl, rfl, rfl, rfl, rfl, rfl, fun _ _ => .rfl, fun _ => rfl⟩

theorem micro (hs : Micro p m c c') (h : Sound c) : Sound c' := by
  cases hs with
  | lock hs => exact h.lock hs
  | cache hs => exact h.cache hs
  | file hs => exact h.file hs
  | table hs => exact h.table hs

end Sound

end Xv6.Sys
