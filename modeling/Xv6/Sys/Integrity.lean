import Xv6.Sys.Kernel

/-! # Files of other users

A user who may not write a regular file cannot change it by any calls, as long as no file is open
for writing to it, the user stays the current one, and the pointers given to `thread_create` and
`thread_join` are such as they should be. Every other step that could change the file needs a
permission that the user does not have, or a file for writing, and no call gets either. -/

namespace Xv6.Sys

open Fault Holding Thread
open Fs (Ip W_OK MODE_WOTH WantsWrite O_RDWR)

variable {s s' t : State} {i : Nat} {ip : Ip} {call : Call}

/-- No file for writing to the inode is open. -/
def State.NoWriter (s : State) (i : Nat) : Prop :=
  ∀ f ip, (s.file f).type = .FD_INODE ip → (s.file f).writable = true → (s.icache ip).inum ≠ i

/-- The inode is a regular file as it was in the state `s₀`, and no file for writing to it is
open. -/
structure Foreign (s₀ : State) (i : Nat) (s : State) : Prop where
  type : (s.inode i).type = some .T_FILE
  owner : (s.inode i).owner = (s₀.inode i).owner
  perm : (s.inode i).perm = (s₀.inode i).perm
  data : s.data i = s₀.data i
  closed : s.NoWriter i

/-- The current user is that of the state `s₀`, and the inode is as it was unless it has been
freed. -/
structure Intact (s₀ : State) (i : Nat) (s : State) : Prop where
  ltable : s.ltable = s₀.ltable
  ltableFd : s.ltableFd = s₀.ltableFd
  allocs : s₀.allocs i ≤ s.allocs i
  file : s₀.allocs i < s.allocs i ∨ (s.inode i).type = none ∨ Foreign s₀ i s

/-- The user may not write the file. -/
structure Denied (s : State) (i : Nat) : Prop where
  root : Users.equals Users.root s.whoami = false
  owner : Users.equals (s.inode i).owner s.whoami = false
  perm : (s.inode i).perm &&& MODE_WOTH = 0

theorem Intact.whoami (h : Intact s₀ i s) : s.whoami = s₀.whoami := by
  rw [Fs.State.whoami, Fs.State.whoami, h.ltable, h.ltableFd]

/-- `checkmod` does not grant `W_OK`. -/
theorem Foreign.not_grants (h : Foreign s₀ i s) (hd : Denied s₀ i) (hw : s.whoami = s₀.whoami) :
    ¬ s.Grants (s.inode i) W_OK := by
  have hown : ¬ (Users.equals (s.inode i).owner s.whoami = true ∨
      Users.equals Users.root s.whoami = true) := by
    rw [h.owner, hw, hd.owner, hd.root]
    simp
  rw [Fs.State.Grants, Fs.checkmod, if_neg (by simp [h.type]), if_neg hown, h.perm, hd.perm,
    if_neg (not_not.mpr rfl), not_not]
  split <;> split <;> decide

namespace Intact

theorem refl (ht : (s.inode i).type = some .T_FILE) (hw : s.NoWriter i) : Intact s i s :=
  ⟨rfl, rfl, le_rfl, .inr (.inr ⟨ht, rfl, rfl, rfl, hw⟩)⟩

/-- Steps that leave the tables and the inode alone. -/
theorem congr (h : Intact s₀ i t) (hl : s.ltable = t.ltable) (hfd : s.ltableFd = t.ltableFd)
    (ha : s.allocs = t.allocs)
    (hi : (s.inode i).type = (t.inode i).type ∧ (s.inode i).owner = (t.inode i).owner ∧
      (s.inode i).perm = (t.inode i).perm) (hdata : s.data i = t.data i)
    (hc : Foreign s₀ i t → t.NoWriter i → s.NoWriter i) : Intact s₀ i s := by
  refine ⟨hl.trans h.ltable, hfd.trans h.ltableFd, ha ▸ h.allocs, ?_⟩
  rw [ha, hi.1]
  refine h.file.imp id (.imp id fun hf => ?_)
  exact ⟨hi.1.trans hf.type, hi.2.1.trans hf.owner, hi.2.2.trans hf.perm, hdata.trans hf.data,
    hc hf hf.closed⟩

/-- Steps on files and references only. -/
theorem frame (h : Intact s₀ i t) (hl : s.ltable = t.ltable) (hfd : s.ltableFd = t.ltableFd)
    (ha : s.allocs = t.allocs) (hi : s.inode = t.inode) (hdata : s.data = t.data)
    (hc : Foreign s₀ i t → t.NoWriter i → s.NoWriter i) : Intact s₀ i s :=
  h.congr hl hfd ha (by rw [hi]; exact ⟨rfl, rfl, rfl⟩) (by rw [hdata]) hc

theorem setEntry (h : Intact s₀ i t) (he : e.inum = (t.icache ip).inum) :
    Intact s₀ i (t.setEntry ip e) := by
  refine h.frame rfl rfl rfl rfl rfl fun _ hw f ip' hf hwr => ?_
  by_cases hip : ip' = ip
  · subst hip
    simpa [State.setEntry, he] using hw f ip' hf hwr
  · simpa [State.setEntry, hip] using hw f ip' hf hwr

/-- An inode that is freed is gone. -/
theorem put (h : Intact s₀ i t) : Intact s₀ i (t.put ip) := by
  refine State.put_cases (P := Intact s₀ i) (h.setEntry rfl) fun _ => setEntry ?_ rfl
  by_cases e : i = (t.icache ip).inum
  · refine ⟨h.ltable, h.ltableFd, h.allocs, .inr (.inl ?_)⟩
    simp [State.free, State.setEntry, State.setIno, State.setInode, State.setData, e]
  · refine Intact.congr (t := t.setEntry ip { t.icache ip with valid := false })
      (h.setEntry rfl) rfl rfl rfl ?_ ?_ fun _ => id
    · simp [State.free, State.setEntry, State.setIno, State.setInode, State.setData, e]
    · simp [State.free, State.setEntry, State.setIno, State.setInode, State.setData, e]

/-- A change of an inode that keeps its type, owner and permission. -/
theorem setIno (h : Intact s₀ i t) (ht : v.type = (t.ino ip).type) (ho : v.owner = (t.ino ip).owner)
    (hp : (t.icache ip).inum = i → v.perm = (t.ino ip).perm) : Intact s₀ i (t.setIno ip v) := by
  refine h.congr rfl rfl rfl ?_ rfl fun _ => id
  by_cases e : i = (t.icache ip).inum
  · subst e
    simpa [State.setIno, State.setInode] using ⟨ht, ho, hp rfl⟩
  · simp [State.setIno, State.setInode, e]

theorem make (h : Intact s₀ i t) (hn : (t.inode inum).type = none) :
    Intact s₀ i (t.make inum type) := by
  have ha := h.allocs
  by_cases e : i = inum
  · subst e
    have hlt : s₀.allocs i < (t.make i type).allocs i := by
      simp only [State.make, Function.update_self]
      omega
    exact ⟨h.ltable, h.ltableFd, hlt.le, .inl hlt⟩
  · have hall : (t.make inum type).allocs i = t.allocs i := by simp [State.make, e]
    have hi : (t.make inum type).inode i = t.inode i := by
      simp [State.make, State.setInode, State.setData, e]
    have hdata : (t.make inum type).data i = t.data i := by
      simp [State.make, State.setData, State.setInode, e]
    refine ⟨h.ltable, h.ltableFd, hall ▸ ha, ?_⟩
    rw [hall, hi]
    refine h.file.imp id (.imp id fun hf => ?_)
    exact ⟨hi ▸ hf.type, hi ▸ hf.owner, hi ▸ hf.perm, hdata.trans hf.data, hf.closed⟩

/-- A file that is not one for writing to the inode may be put in the place of another. -/
theorem setFile (h : Intact s₀ i t)
    (hv : Foreign s₀ i t → ∀ ip, v.type = .FD_INODE ip → v.writable = true →
      (t.icache ip).inum ≠ i) : Intact s₀ i (t.setFile f v) := by
  refine h.frame rfl rfl rfl rfl rfl fun hfor hw g ip hg hwr => ?_
  by_cases e : g = f
  · subst e
    exact hv hfor ip (by simpa [State.setFile] using hg) (by simpa [State.setFile] using hwr)
  · exact hw g ip (by simpa [State.setFile, e] using hg) (by simpa [State.setFile, e] using hwr)

section Denied
variable (hd : Denied s₀ i)
include hd

theorem cache (hm : m ≠ .account) (h : Intact s₀ i c.2) (hS : Sound c) (hs : CacheStep m c c') :
    Intact s₀ i c'.2 := by
  cases hs with
  | put => exact h.put
  | make type hn => exact h.make hn
  | links n => exact h.setIno rfl rfl fun _ => rfl
  | @entries _ s _ dp es | @writeDir _ s _ dp es =>
    have hset : Intact s₀ i (s.setIno dp { s.ino dp with entries := es }) :=
      h.setIno rfl rfl fun _ => rfl
    exact hset.frame rfl rfl rfl rfl rfl fun _ => id
  | @writeData R s f ip bytes hf hw =>
    by_cases e : (s.icache ip).inum = i
    · -- then the file is gone
      refine ⟨h.ltable, h.ltableFd, h.allocs, ?_⟩
      exact h.file.imp id (.imp id fun hfor => absurd e (hfor.closed f ip hf hw))
    · refine h.congr rfl rfl rfl ⟨rfl, rfl, rfl⟩ ?_ fun _ => id
      simp [State.setData, Ne.symm e]
  | @perm R s ip mode hu =>
    by_cases e : (s.icache ip).inum = i
    · refine ⟨h.ltable, h.ltableFd, h.allocs, ?_⟩
      have htype : ((s.setIno ip { s.ino ip with perm := mode }).inode i).type =
          (s.inode i).type := by
        simp [State.setIno, State.setInode, Fs.State.ino, e]
      rw [htype]
      refine h.file.imp id (.imp id fun hfor => ?_)
      -- neither root nor the owner is logged in
      rw [h.whoami, Fs.State.ino, e, hfor.owner, hd.root, hd.owner] at hu
      simp at hu
    · exact h.setIno rfl rfl fun e' => absurd e' e
  | owner name ha => exact absurd ha hm
  | @load R s ip inum h0 =>
    refine h.frame rfl rfl rfl rfl rfl fun _ hw f ip' hf hwr => ?_
    have hne : ip' ≠ ip := by
      rintro rfl
      have := hS.ref_pos_of_file hf
      omega
    simpa [State.setEntry, hne] using hw f ip' hf hwr
  | get | valid => exact h.setEntry rfl
  | _ => exact h.frame rfl rfl rfl rfl rfl fun _ => id

theorem fileStep (h : Intact s₀ i c.2) (hs : FileStep p c c') : Intact s₀ i c'.2 := by
  cases hs with
  | @new _ _ f | @dup _ _ f | @drop _ _ f => exact h.setFile fun hfor ip => hfor.closed f ip
  | pipe | last => exact h.setFile nofun
  | @opened R s fd f k ip omode h0 hfd hw =>
    have hopen : Intact s₀ i (s.setFile f (Fs.openFile ip omode 1)) := by
      refine h.setFile fun hfor ip' hip hwr => ?_
      obtain rfl : ip = ip' := by simpa [Fs.openFile] using hip
      rintro rfl
      have hwant : WantsWrite omode := by simpa [Fs.openFile, WantsWrite] using hwr
      exact hfor.not_grants hd h.whoami (hw hwant).1
    exact hopen.frame rfl rfl rfl rfl rfl fun _ => id
  | fdSet | fdClear | off => exact h.frame rfl rfl rfl rfl rfl fun _ => id

theorem micro (hm : m ≠ .account) (hs : Micro p m c c') (h : Sound c ∧ Intact s₀ i c.2) :
    Sound c' ∧ Intact s₀ i c'.2 := by
  refine ⟨h.1.micro hs, ?_⟩
  cases hs with
  | cache hs => exact h.2.cache hd hm h.1 hs
  | file hs => exact h.2.fileStep hd hs
  | lock hs => cases hs <;> exact h.2.frame rfl rfl rfl rfl rfl fun _ => id
  | table hs =>
    cases hs with
    | tab => exact h.2.frame rfl rfl rfl rfl rfl fun _ => id
    | ltable _ hm' | ltableFd _ hm' => exact absurd hm' hm

theorem ended (hm : m ≠ .account) (h : Intact s₀ i s) (hS : Sound (0, s)) (he : Ended p m s s') :
    Intact s₀ i s' := by
  have hrun : ∀ {R t}, At p m (0, s) R t → Intact s₀ i t := fun hA =>
    (hA.invariant (fun _ _ => Intact.micro hd hm) ⟨hS, h⟩).2
  obtain ⟨R, -, he | ⟨s₁, t, he, -, -, rfl⟩⟩ := he
  · exact hrun he
  · exact (hrun he).frame rfl rfl rfl rfl rfl fun _ => id

end Denied

end Intact

/-! ## Accounts -/

/-- A login that leaves the index leaves the table. -/
theorem sysLogin_snd {username password : Users.Str} {t : Users.Ltable}
    (h : (Users.sysLogin username password t).2.userIdx = t.userIdx) :
    (Users.sysLogin username password t).2 = t := by
  unfold Users.sysLogin at h ⊢
  split
  · rfl
  · next found hfound =>
    rw [hfound] at h
    by_cases he : Users.equals (t.password found) password = true
    · simp only [if_pos he] at h ⊢
      rw [h]
    · simp only [if_neg he]

theorem sysLbegin_userIdx :
    Triple (fun _ => True) (fun _ => True) (sysLbegin p) fun _ s => s.ltable.userIdx = -1 := by
  have hend : Triple (fun _ : Stop => True) (fun _ => True)
      (do writes fun s : State => s.setLtable { s.ltable with userIdx := -1 }; pure (0 : Int))
      fun _ s => s.ltable.userIdx = -1 :=
    .bind (.writes (Q := fun _ (s : State) => s.ltable.userIdx = -1) fun _ _ => rfl) fun _ =>
      .pure fun _ => id
  exact .bind .of_true fun _ => .read fun _ => .ite (fun _ => .bind .of_true fun _ => hend)
    fun _ => hend

/-- A call on accounts of a user who is not root changes nothing, as long as the index stays. -/
theorem State.after_account (hm : call.mode = .account) (hu : 0 < s.ltable.userIdx)
    (h : s.after p call = some s') (hi : s'.ltable.userIdx = s.ltable.userIdx) : s' = s := by
  obtain ⟨r, hrun⟩ := State.run_of_after h
  cases call with
  | sysLbegin =>
    have hr := sysLbegin_userIdx (p := p) s trivial
    rw [show sysLbegin p s = .ok (r, s') from hrun] at hr
    rw [hr] at hi
    omega
  | sysAddUser username password =>
    have hr : Call.run p (.sysAddUser username password) s = .ok (-1, s) := by
      simp only [Call.run, sysAddUser, Fault.reads_bind, if_pos hu]
      rfl
    rw [hr] at hrun
    cases hrun
    rfl
  | sysDeleteUser username =>
    have hr : Call.run p (.sysDeleteUser username) s = .ok (-1, s) := by
      simp only [Call.run, sysDeleteUser, Fault.reads_bind, if_pos hu]
      rfl
    rw [hr] at hrun
    cases hrun
    rfl
  | sysLogin username password =>
    cases hrun
    change (Users.sysLogin username password s.ltable).2.userIdx = s.ltable.userIdx at hi
    change s.setLtable (Users.sysLogin username password s.ltable).2 = s
    rw [sysLogin_snd hi]
    rfl
  | _ => cases hm

/-! ## Runs -/

/-- The step does not change the index of the current user. -/
def SameUser (s : State) (a : Step) : Prop :=
  ∀ t ∈ kernel.next s a, t.ltable.userIdx = s.ltable.userIdx

/-- The pointer through which the call stores leads to the memory of the process. -/
def Call.UserPtr : Call → Prop
  | .sysThreadCreate thread .. => thread = .user
  | .sysThreadJoin _ retval => retval = .user
  | _ => True

def Step.UserPtr : Step → Prop
  | .call _ call => call.UserPtr
  | .table _ => True

theorem Call.stored_user (h : call.UserPtr) : call.stored s p = s := by
  cases call with
  | sysThreadCreate thread kalloc allocuvm =>
    obtain rfl : thread = .user := h
    rw [Call.stored, Call.word]
    cases (threadCreate s.tab p kalloc allocuvm).thread with
    | none | some tid => rfl
  | sysThreadJoin thread retval =>
    obtain rfl : retval = .user := h
    rw [Call.stored, Call.word]
    rcases threadJoin s.tab p thread with ⟨⟨_ | v, r⟩, t⟩ | t
    · rfl
    · rfl
    · rfl
  | _ => rfl

theorem Intact.next (hd : Denied s₀ i) (hu : 0 < s₀.ltable.userIdx) (h : kernel.Reached s)
    (hi : Intact s₀ i s) (ha : SameUser s a) (hp : a.UserPtr) (hs : kernel.next s a = some s') :
    Intact s₀ i s' := by
  obtain ⟨hc, hS⟩ := sound.of_reached h
  have hidx := ha s' hs
  cases a with
  | call p call =>
    simp only [kernel, State.next] at hs
    split at hs
    · next hcan =>
      by_cases hm : call.mode = .account
      · rw [State.after_account hm (hi.ltable ▸ hu) hs hidx]
        exact hi
      · have hended := State.after_ended (hc.files hcan.live) hs
        rw [Call.stored_user hp] at hended
        exact hi.ended hd hm hS hended
    · cases hs
  | table t =>
    simp only [kernel, State.next] at hs
    split at hs
    · cases hs
      exact hi.frame rfl rfl rfl rfl rfl fun _ => id
    · cases hs

theorem Intact.run (hd : Denied s₀ i) (hu : 0 < s₀.ltable.userIdx) (h : kernel.Reached s)
    (hi : Intact s₀ i s) (ha : kernel.Along SameUser s as) (hp : ∀ a ∈ as, a.UserPtr)
    (hs : kernel.run s as = some s') : Intact s₀ i s' := by
  induction as generalizing s with
  | nil =>
    cases hs
    exact hi
  | cons a as ih =>
    obtain ⟨t, ht, hs⟩ := Option.bind_eq_some_iff.mp hs
    exact ih (.step h trivial ht) (hi.next hd hu h ha.1 (hp a (.head _)) ht) (ha.2 t ht)
      (fun b hb => hp b (.tail _ hb)) hs

instance {a : Step} : Decidable (SameUser s a) := Option.decidableForallMem _

instance : Decidable (Denied s i) :=
  decidable_of_iff (Users.equals Users.root s.whoami = false ∧
    Users.equals (s.inode i).owner s.whoami = false ∧ (s.inode i).perm &&& MODE_WOTH = 0)
    ⟨fun h => ⟨h.1, h.2.1, h.2.2⟩, fun h => ⟨h.root, h.owner, h.perm⟩⟩

end Xv6.Sys
