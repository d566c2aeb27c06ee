import Xv6.Sys.FileSpec
import Xv6.Sys.Walk

/-! # The steps of the calls on accounts

`flushUsers` opens `/passwd`, clears it and writes the rows of the user table to it. What it opens
is the inode to which the path leads at the start, so that it can be said in advance whether
`cleari` fails. -/

namespace Xv6.Sys

open Fault Holding
open Fs (Ip Name NFILE NOFILE BSIZE MAXFILE R_OK W_OK O_RDONLY O_WRONLY O_CREATE WantsRead
  WantsWrite openFile passwdPath)

variable {p : Slot} {s t : State} {ip : Ip} {f : Fin NFILE} {fd : Fin NOFILE} {N : Prop}

/-! ## Opening a file that is there -/

/-- What is known of an inode that has been opened, where `t` is the state after it was locked. -/
structure Found (c : Config) (p : Slot) (path : Name) (omode : UInt32) (ip : Ip) (s t : State) :
    Prop where
  similar : Similar c t
  icache : s.icache = t.icache
  inode : s.inode = t.inode
  data : s.data = t.data
  finds : c.2.finds p path false = some (t.icache ip).inum
  opens : t.Opens p (t.icache ip).inum omode
  used : Sound c → (t.ino ip).type ≠ none

/-- An inode that has not been freed can be opened if it could be at the start. -/
theorem Similar.opens_iff (h : Similar c s) (hi : ¬ ((s.inode i).type = none ∧ s.data i = [])) :
    s.Opens p i omode ↔ c.2.Opens p i omode := by
  obtain ⟨h1, h2, h3, -⟩ := (h.inode i).resolve_left hi
  simp only [State.Opens, State.CanOpen, Fs.State.Grants, Fs.checkmod, h.whoami, h.file, h.ofile,
    h1, h2, h3]

theorem sysOpen_walked (ho : omode &&& O_CREATE = 0)
    (hS : path.head? = some Users.SLASH ∨ Sound c) :
    Triple (Blame p c) (fun s => At p m c R s ∧ Similar c s) (sysOpen p path omode)
      (AtOpened p m c R omode (Sound c → ∀ i ∈ c.2.finds p path false, ¬ c.2.Opens p i omode)
        fun ip s => ∃ t, Found c p path omode ip s t) := by
  refine .bind (.writes (Q := fun _ s => At p m c ({.op} + R) s ∧ Similar c s) fun s h =>
    ⟨h.1.lock .beginOp, h.2.setOutstanding⟩) fun _ => .ite (fun hc => absurd ho hc) fun _ => ?_
  refine .bind (namei_walked hS) fun r => ?_
  cases r with
  | none =>
    rintro s ⟨h, -, -, hn⟩
    have hN : Sound c → ∀ i ∈ c.2.finds p path false, ¬ c.2.Opens p i omode := by
      intro hS i hi
      rw [hn rfl hS] at hi
      cases hi
    exact (perm (zero_add _) (.bind endOp_at fun _ => pure_opened_of_neg hN)) s h
  | some ip =>
    refine Triple.pre (P := fun s => ∃ i, c.2.finds p path false = some i ∧
      At p m c ({.ref .plain ip} + ({.op} + R)) s ∧ Similar c s ∧ (s.icache ip).inum = i)
      (.exists fun i => .of_and fun hi => .bind ilock_walked fun _ => Triple.pre
        (openFound_at (L := fun s => Similar c s ∧ (s.icache ip).inum = i ∧
          (Sound c → (s.ino ip).type ≠ none)) ?_ ?_)
        fun s h => ⟨h.1, h.2.2.2.1, h.2.1, h.2.2.1, h.2.2.2.2⟩)
      fun s h => ⟨_, h.2.2.1 ip rfl, h.1, h.2.1, rfl⟩
    · rintro s ⟨hs, rfl, ht⟩ hn hS j hj hopens
      rw [hi] at hj
      obtain rfl := Option.some.inj hj
      exact hn ((hs.opens_iff fun h => ht hS h.1).mpr hopens)
    · rintro s fd f ⟨hs, rfl, ht⟩ hopens
      exact ⟨s, hs, rfl, rfl, rfl, hi, hopens, ht⟩

/-! ## `flushUsers` -/

/-- `cleari` succeeds for the inode. -/
def State.Clearable (s : State) (i : Nat) : Prop :=
  (s.inode i).type ≠ some .T_DEV ∧ s.length i ≤ MAXFILE * BSIZE

/-- `flushUsers` can open `/passwd`, and `cleari` fails for it. -/
def State.KeepsLock (s : State) (p : Slot) : Prop :=
  ∃ i ∈ s.finds p passwdPath false, s.Opens p i O_WRONLY ∧ ¬ s.Clearable i

theorem Similar.clearable_iff (h : Similar c s)
    (hi : ¬ ((s.inode i).type = none ∧ s.data i = [])) : s.Clearable i ↔ c.2.Clearable i := by
  obtain ⟨h1, -, -, h4, h5⟩ := (h.inode i).resolve_left hi
  rw [State.Clearable, State.Clearable, State.length, State.length, h1, h4, h5]

theorem Found.clearable_iff (h : Found c p path omode ip s t) :
    s.Clearable (s.icache ip).inum ↔ t.Clearable (t.icache ip).inum := by
  rw [State.Clearable, State.Clearable, State.length, State.length, h.icache, h.inode, h.data]

theorem Found.keepsLock (h : Found c p passwdPath O_WRONLY ip s t)
    (hn : ¬ s.Clearable (s.icache ip).inum) : c.2.KeepsLock p := by
  rw [h.clearable_iff] at hn
  -- an inode that has been freed could be cleared
  have hi : ¬ ((t.inode (t.icache ip).inum).type = none ∧ t.data (t.icache ip).inum = []) := by
    rintro ⟨ht, hd⟩
    exact hn ⟨by simp [ht], by simp [State.length, ht, hd]⟩
  exact ⟨_, h.finds, (h.similar.opens_iff hi).mp h.opens, fun hc =>
    hn ((h.similar.clearable_iff hi).mpr hc)⟩

theorem Found.not_clearable (hS : Sound c) (h : Found c p passwdPath O_WRONLY ip s t)
    (hk : c.2.KeepsLock p) : ¬ s.Clearable (s.icache ip).inum := by
  obtain ⟨i, hi, -, hn⟩ := hk
  rw [h.finds] at hi
  obtain rfl := Option.some.inj hi
  rw [h.clearable_iff]
  exact fun hc => hn ((h.similar.clearable_iff fun h' => h.used hS h'.1).mp hc)

theorem cleari_at {B : Prop} : Triple (Blame p c)
    (fun s => At p m c R s ∧ s.Writes o f ip ∧ (¬ s.Clearable (s.icache ip).inum ↔ B)) (cleari ip)
    fun r s => (r = false ↔ B) ∧ At p m c R s ∧ s.Writes o f ip := by
  refine .reads_bind fun type => .reads_bind fun size => .ite (fun hc => .pure ?_) fun hc => ?_
  · rintro s ⟨⟨⟨h, hw, hB⟩, rfl⟩, rfl⟩
    exact ⟨iff_of_true rfl (hB.mp fun hn => hc.elim hn.1 (not_lt.mpr hn.2)), h, hw⟩
  refine Triple.pre (P := fun s => ¬ B ∧ (s.ino ip).type = type ∧ At p m c R s ∧ s.Writes o f ip)
    (.of_and fun hB => ?_) ?_
  · have hend : Triple (Blame p c) (fun s => At p m c R s ∧ s.Writes o f ip) (pure true)
        fun r s => (r = false ↔ B) ∧ At p m c R s ∧ s.Writes o f ip :=
      .pure fun _ h => ⟨iff_of_false nofun hB, h⟩
    refine .ite (fun hd => .bind (.writes ?_) fun _ => hend) fun _ => .bind (.writes ?_) fun _ =>
      hend
    · rintro s ⟨rfl, h, hw⟩
      exact ⟨h.cache (.writeDir _ hw.1 hw.2.1 hd), hw⟩
    · rintro s ⟨rfl, h, hw⟩
      exact ⟨h.cache (.writeData _ hw.1 hw.2.1), hw⟩
  · rintro s ⟨⟨⟨h, hw, hB⟩, rfl⟩, rfl⟩
    rw [not_or, not_lt] at hc
    exact ⟨fun hb => hB.mpr hb hc, rfl, h, hw⟩

theorem writeRows_at {texts : List (List UInt8)} :
    Triple (Blame p c) (fun s => At p m c R s ∧ s.ofile = o) (writeRows p f texts) fun _ s =>
      At p m c R s ∧ s.ofile = o := by
  induction texts with
  | nil => exact .pure fun _ => id
  | cons text texts ih => exact .bind filewrite_at fun _ => ih

/-- `X` is a reason for `N` and, provided that `S` holds, the only one. -/
def Decides (S N X : Prop) : Prop := (X → N) ∧ (S → N → X)

theorem decides_true {X : Prop} : Decides False True X := ⟨fun _ => trivial, False.elim⟩

/-- What `flushUsers` leaves. If `cleari` fails, with the reason `N`, it keeps the lock and the
transaction. -/
def AtFlushed (p : Slot) (m : Mode) (c : Config) (R : Multiset Res) (S N : Prop) (r : Bool)
    (s : State) : Prop :=
  At p m c R s ∧ (S → ¬ N) ∨ r = false ∧ N ∧ ∃ ip, At p m c ({.lock ip} + ({.op} + R)) s

/-- A descriptor is cleared and its file closed. -/
theorem clearClose_at {α : Type} {x : Kernel α} {Q : α → State → Prop}
    (hx : Triple (Blame p c) (At p m c R) x Q) :
    Triple (Blame p c) (fun s => At p m c R s ∧ s.ofile p fd = some f)
      (do writes fun s => s.setOfile p fd none; fileclose p f; x) Q :=
  .bind (.writes (Q := fun _ => At p m c ({.file f} + R)) fun _ h => h.1.file (.fdClear h.2))
    fun _ => .bind fileclose_at fun _ => hx

variable (hR : NoWrite R)
include hR

theorem flushFile_at {B : Prop} : Triple (Blame p c)
    (fun s => At p .account c R s ∧ s.ofile p fd = some f ∧ s.file f = openFile ip O_WRONLY 1 ∧
      (¬ s.Clearable (s.icache ip).inum ↔ B)) (flushFile p fd f)
    (AtFlushed p .account c R True B) := by
  refine .reads_bind fun type => ?_
  have htype : ∀ s : State, s.file f = openFile ip O_WRONLY 1 → (s.file f).type = .FD_INODE ip ∧
      (s.file f).writable = true := by
    intro s hs
    rw [hs]
    exact ⟨rfl, rfl⟩
  -- the type is that of the file which `open` has made
  by_cases ht : type = .FD_INODE ip
  swap
  · rintro s ⟨⟨-, -, hs, -⟩, rfl⟩
    exact absurd (htype s hs).1 ht
  subst ht
  refine Triple.pre (P := fun s => ∃ o, o p fd = some f ∧ At p .account c R s ∧ s.Writes o f ip ∧
    (¬ s.Clearable (s.icache ip).inum ↔ B)) (.exists fun o => .of_and fun hfd => ?_) ?_
  · refine .bind (.writes (Q := fun _ s => At p .account c ({.op} + R) s ∧ s.Writes o f ip ∧
      (¬ s.Clearable (s.icache ip).inum ↔ B)) fun s h => ⟨h.1.lock .beginOp, h.2⟩) fun _ => ?_
    refine .bind (ilock_rule (Q := fun _ s => At p .account c ({.lock ip} + ({.op} + R)) s ∧
      s.Writes o f ip ∧ (¬ s.Clearable (s.icache ip).inum ↔ B)) (fun _ _ _ => blame_of rfl)
      (fun _ _ _ => blame_of rfl) (fun _ _ _ _ _ => blame_of rfl) ?_) fun _ =>
      .bind cleari_at fun ok => ?_
    · rintro s ⟨h, hw, hB⟩ - hl hv
      have hi : ((s.locked p ip).icache ip).inum = (s.icache ip).inum := by
        simp [State.locked, State.setEntry]
      exact ⟨h.locked hl hv, hw, hi ▸ hB⟩
    · cases ok with
      | false => exact .pure fun s h => .inr ⟨rfl, h.1.mp rfl, ip, h.2.1⟩
      | true =>
        refine .of_and fun hB => ?_
        have hB : ¬ B := fun hb => absurd (hB.mpr hb) (by decide)
        refine .bind (iunlock_rule (Q := fun _ s => At p .account c ({.op} + R) s ∧ s.ofile = o)
          (fun _ _ _ => blame_of rfl) fun s h _ _ => ⟨h.1.lock .unlock, h.2.2.2⟩) fun _ => ?_
        refine .bind (.writes (Q := fun _ s => At p .account c R s ∧ s.ofile = o) fun s h =>
          ⟨h.1.lock .endOp, h.2⟩) fun _ => ?_
        refine .bind (.writes (Q := fun _ s => At p .account c R s ∧ s.ofile = o) fun s h =>
          ⟨h.1.file (.off _), h.2⟩) fun _ => .read fun t => .bind writeRows_at fun _ => ?_
        refine (clearClose_at (.bind (.writes fun s h => h.table (.ltableFd _ rfl hR)) fun _ =>
          .pure fun _ h => .inl ⟨h, fun _ => hB⟩)).pre fun s h => ⟨h.1, ?_⟩
        rw [h.2]
        exact hfd
  · rintro s ⟨⟨h, hfd, hs, hB⟩, -⟩
    exact ⟨s.ofile, hfd, h, ⟨(htype s hs).1, (htype s hs).2, rfl⟩, hB⟩

/-- After `open` it is known whether `/passwd` can be cleared. -/
theorem flushUsers_at : Triple (Blame p c) (fun s => At p .account c R s ∧ Similar c s)
    (flushUsers p) (AtFlushed p .account c R (Sound c) (c.2.KeepsLock p)) := by
  refine .bind (sysOpen_walked (by decide) (.inl rfl)) fun fd => ?_
  refine .bind (.writes (Q := fun _ s => At p .account c R s ∧
    (fd = -1 ∧ (Sound c → ¬ c.2.KeepsLock p) ∨ ∃ ip, s.Opened p O_WRONLY ip fd ∧
      ∃ t, Found c p passwdPath O_WRONLY ip s t)) ?_) fun _ => ?_
  · rintro s ⟨h, ho⟩
    refine ⟨h.table (.ltableFd _ rfl hR), ho.imp (And.imp_right fun hn hS => ?_) ?_⟩
    · rintro ⟨i, hi, ho, -⟩
      exact hn hS i hi ho
    · rintro ⟨ip, ho, t, hf⟩
      exact ⟨ip, ho, t, hf.similar, hf.icache, hf.inode, hf.data, hf.finds, hf.opens, hf.used⟩
  · refine .ite (fun hneg => .pure ?_) fun hfd => ?_
    · rintro s ⟨h, ⟨-, hn⟩ | ⟨ip, ⟨fd', f, rfl, -⟩, -⟩⟩
      · exact .inl ⟨h, hn⟩
      · exact absurd hneg (by simp)
    rintro s ⟨h, ⟨rfl, -⟩ | ⟨ip, ⟨fd', f, rfl, hfd', hf⟩, t, hfound⟩⟩
    · exact absurd (by decide) hfd
    · have hget : getfilebyfd p (fd'.val : Int).toNat s = .ok (some (fd', f), s) := by
        change Except.ok _ = _
        simp [hfd']
      rw [Fault.bind_of_ok hget]
      refine (flushFile_at hR s ⟨h, hfd', hf, Iff.rfl⟩).imp (fun _ => id) fun r u hu => ?_
      refine hu.imp (And.imp_right fun hc hS hk => hc trivial (hfound.not_clearable hS hk)) ?_
      exact fun hu => ⟨hu.1, hfound.keepsLock hu.2.1, hu.2.2⟩

variable {S : Prop} (hS : S → Sound c)
include hS

/-- `flushUsers` in the course of a call. -/
theorem flushUsers_from : Triple (Blame p c)
    (fun s => At p .account c R s ∧ Decides S N (s.KeepsLock p)) (flushUsers p)
    (AtFlushed p .account c R S N) := by
  rintro s ⟨h, hN⟩
  refine (flushUsers_at (c := (R, s)) hR s ⟨.refl, .refl⟩).imp (fun e he hb hc => ?_)
    fun r t ht => ?_
  · exact he hb (h.filesCounted hc)
  · refine ht.imp (fun ht => ⟨h.trans ht.1, fun hs hn => ?_⟩) ?_
    · exact ht.2 (h.invariant (fun _ _ => Sound.micro) (hS hs)) (hN.2 hs hn)
    · rintro ⟨hr, hk, ip, ht⟩
      exact ⟨hr, hN.1 hk, ip, h.trans ht⟩

/-! ## Adding and deleting -/

/-- What a call that may run `flushUsers` leaves. -/
def AtUpdated (p : Slot) (m : Mode) (c : Config) (R : Multiset Res) (S N : Prop) (s : State) :
    Prop := At p m c R s ∧ (S → ¬ N) ∨ N ∧ ∃ ip, At p m c ({.lock ip} + ({.op} + R)) s

omit hS in
theorem setOwner_at : Triple (Blame p c) (At p .account c R) (setOwner p username) fun _ =>
    At p .account c R := by
  refine .bind namei_at fun r => ?_
  cases r with
  | none => exact perm (zero_add _) (.pure fun _ => id)
  | some ip =>
    refine .bind beginOp_at fun _ => .bind ilock_at fun _ => ?_
    refine .bind (.writes (Q := fun _ => At p .account c
      ({.lock ip} + ({.op} + ({.ref .plain ip} + R)))) fun s h => h.cache (.owner _ rfl ?_))
      fun _ => .bind iunlock_at fun _ => .bind endOp_at fun _ => .pure fun s h => h.cache .leak
    intro ip'
    simpa [cwdHeld] using hR ip'

/-- `addUser` passes its tests and keeps the lock of `/passwd`. -/
def State.AddKeeps (s : State) (p : Slot) (username password : Users.Str) : Prop :=
  Accepts s.ltable username password ∧
    (s.setLtable (Users.append s.ltable username password)).KeepsLock p

theorem addUser_at : Triple (Blame p c)
    (fun s => At p .account c R s ∧ Decides S N (s.AddKeeps p username password))
    (addUser p username password) fun _ => AtUpdated p .account c R S N := by
  refine .reads_bind fun t => .ite (fun ht => .pure ?_) fun ht => ?_
  · rintro s ⟨⟨h, hN⟩, rfl⟩
    exact .inl ⟨h, fun hs hn => ht (hN.2 hs hn).1⟩
  refine .bind (.writes (Q := fun _ s => At p .account c R s ∧ Decides S N (s.KeepsLock p)) ?_)
    fun _ => .bind (flushUsers_from hR hS) fun r => ?_
  · rintro s ⟨⟨h, hN⟩, rfl⟩
    exact ⟨h.table (.ltable _ rfl hR), fun hk => hN.1 ⟨not_not.mp ht, hk⟩, fun hs hn =>
      (hN.2 hs hn).2⟩
  refine .ite (fun hr => ?_) fun _ => .pure fun s h => h.imp id And.right
  refine Triple.pre (P := fun s => (S → ¬ N) ∧ At p .account c R s) (.of_and fun hn => ?_)
    fun s h => ?_
  · have hown : Triple (Blame p c) (At p .account c R) (setOwner p username) fun _ =>
        AtUpdated p .account c R S N := (setOwner_at hR).post fun _ _ h => .inl ⟨h, hn⟩
    exact .ite (fun _ => .bind make_at fun _ => hown) fun _ => hown
  · refine (h.resolve_right fun hf => ?_).symm
    rw [hr] at hf
    cases hf.1

/-- `deleteUser` passes its tests and keeps the lock of `/passwd`. -/
def State.DeleteKeeps (s : State) (p : Slot) (username : Users.Str) : Prop :=
  ∃ found ∈ deletes s.ltable username, (s.setLtable (Users.remove s.ltable found)).KeepsLock p

theorem deleteUser_at : Triple (Blame p c)
    (fun s => At p .account c R s ∧ Decides S N (s.DeleteKeeps p username))
    (deleteUser p username) fun _ => AtUpdated p .account c R S N := by
  refine .reads_bind fun t => ?_
  cases hd : deletes t username with
  | none =>
    refine .pure ?_
    rintro s ⟨⟨h, hN⟩, rfl⟩
    refine .inl ⟨h, fun hs hn => ?_⟩
    obtain ⟨found, hf, -⟩ := hN.2 hs hn
    rw [hd] at hf
    cases hf
  | some found =>
    refine .bind (.writes (Q := fun _ s => At p .account c R s ∧ Decides S N (s.KeepsLock p)) ?_)
      fun _ => .bind (flushUsers_from hR hS) fun r => ?_
    · rintro s ⟨⟨h, hN⟩, rfl⟩
      refine ⟨h.table (.ltable _ rfl hR), fun hk => hN.1 ⟨found, hd, hk⟩, fun hs hn => ?_⟩
      obtain ⟨found', hf, hk⟩ := hN.2 hs hn
      rw [hd] at hf
      cases hf
      exact hk
    · exact .ite (fun _ => .pure fun s h => h.imp id And.right) fun _ =>
        .pure fun s h => h.imp id And.right

theorem sysAddUser_at : Triple (Blame p c) (fun s => At p .account c R s ∧
      Decides S N (s.ltable.userIdx ≤ 0 ∧ s.AddKeeps p username password))
    (sysAddUser p username password) fun _ => AtUpdated p .account c R S N := by
  refine .reads_bind fun idx => .ite (fun hi => .pure ?_) fun hi => (addUser_at hR hS).pre ?_
  · rintro s ⟨⟨h, hN⟩, rfl⟩
    exact .inl ⟨h, fun hs hn => absurd (hN.2 hs hn).1 (not_le.mpr hi)⟩
  · rintro s ⟨⟨h, hN⟩, rfl⟩
    exact ⟨h, fun hk => hN.1 ⟨not_lt.mp hi, hk⟩, fun hs hn => (hN.2 hs hn).2⟩

theorem sysDeleteUser_at : Triple (Blame p c) (fun s => At p .account c R s ∧
      Decides S N (s.ltable.userIdx ≤ 0 ∧ s.DeleteKeeps p username))
    (sysDeleteUser p username) fun _ => AtUpdated p .account c R S N := by
  refine .reads_bind fun idx => .ite (fun hi => .pure ?_) fun hi => (deleteUser_at hR hS).pre ?_
  · rintro s ⟨⟨h, hN⟩, rfl⟩
    exact .inl ⟨h, fun hs hn => absurd (hN.2 hs hn).1 (not_le.mpr hi)⟩
  · rintro s ⟨⟨h, hN⟩, rfl⟩
    exact ⟨h, fun hk => hN.1 ⟨not_lt.mp hi, hk⟩, fun hs hn => (hN.2 hs hn).2⟩

omit hS in
theorem loadUsers_at : Triple (Blame p c) (At p .account c R) (loadUsers p) fun _ =>
    At p .account c R := by
  refine .bind sysOpen_at fun fd => ?_
  refine .bind (.writes (Q := fun _ => At p .account c R) fun s h =>
    h.1.table (.ltableFd _ rfl hR)) fun _ => .ite (fun _ => .panic (blame_of rfl))
    fun _ => ?_
  refine getfilebyfd_bind (.panic (blame_of rfl)) fun r => .read fun passwd => ?_
  refine Triple.pre (P := fun s => ∃ o, o p r.1 = some r.2 ∧ At p .account c R s ∧ s.ofile = o)
    (.exists fun o => .of_and fun hfd => .bind fileread_at fun n => ?_)
    (fun s h => ⟨_, h.2.1, h.1, rfl⟩)
  refine .bind (.writes (Q := fun _ s => At p .account c R s ∧ s.ofile = o) fun s h =>
    ⟨h.1.table (.ltable _ rfl hR), h.2⟩) fun _ => .ite (fun _ => .panic (blame_of rfl))
    fun _ => ?_
  refine (clearClose_at (.writes fun _ h => h.table (.ltableFd _ rfl hR))).pre
    (fun s h => ⟨h.1, ?_⟩)
  rw [h.2]
  exact hfd

omit hS in
theorem sysLbegin_at : Triple (Blame p c) (At p .account c R) (sysLbegin p) fun _ =>
    AtUpdated p .account c R False True := by
  have hend : Triple (Blame p c) (AtUpdated p .account c R False True)
      (do writes fun s => s.setLtable { s.ltable with userIdx := -1 }; pure (0 : Int)) fun _ =>
        AtUpdated p .account c R False True := by
    refine .bind_pure (.writes fun s h => ?_)
    refine h.imp (fun h => ⟨h.1.table (.ltable _ rfl hR), False.elim⟩) ?_
    rintro ⟨-, ip, h⟩
    refine ⟨trivial, ip, h.table (.ltable _ rfl fun ip' => ?_)⟩
    simpa using hR ip'
  refine .bind (loadUsers_at hR) fun _ => .read fun userCnt => .ite (fun _ => ?_) fun _ => ?_
  · exact .bind ((addUser_at hR False.elim).pre fun _ h => ⟨h, decides_true⟩) fun _ => hend
  · exact hend.pre fun _ h => .inl ⟨h, False.elim⟩

omit hS in
theorem sysLogin_at : Triple (Blame p c) (At p .account c R) (sysLogin username password) fun _ =>
    At p .account c R :=
  .read fun _ => .bind_pure (.writes fun _ h => h.table (.ltable _ rfl hR))

omit hR hS in
theorem sysWhoami_at : Triple (Blame p c) (At p m c R) sysWhoami fun _ => At p m c R :=
  .read fun _ => .pure fun _ => id

end Xv6.Sys
