import Xv6.Sys.Sound
import Xv6.Sys.Spec

/-! # Where a path leads

A path is resolved in steps that take and drop references, and dropping one may free an inode. Still
the directories on the way are those of the start, so that the inode a path leads to can be said in
advance. -/

namespace Xv6.Sys

open Fault Holding
open Fs (Inode Ip Name ROOTINO elems X_OK)

/-- The inode from which a process resolves a path. -/
def State.start (s : State) (p : Slot) (path : Name) : Option Nat :=
  if path.head? = some Users.SLASH then some ROOTINO
  else (s.cwd p).map fun ip => (s.icache ip).inum

/-- The process in slot `p` may look up names in the directory `i`. -/
def State.MayPass (s : State) (p : Slot) (i : Nat) : Prop :=
  (s.inode i).type = some .T_DIR ∧ (s.pid p > 2 → s.Grants (s.inode i) X_OK)

instance (s : State) (p : Slot) (i : Nat) : Decidable (s.MayPass p i) :=
  inferInstanceAs (Decidable (_ ∧ _))

/-- The inode that the loop of `namex` gives. -/
def State.find (s : State) (p : Slot) (parent : Bool) : Nat → List Name → Option Nat
  | i, [] => if parent then none else some i
  | i, name :: names =>
    if s.MayPass p i then
      if parent ∧ names = [] then some i
      else ((s.inode i).lookup name).bind fun off =>
        s.find p parent (entryInum (s.inode i) off) names
    else none

/-- Nothing that matters for paths and permissions has changed, but inodes may have been freed. -/
structure Similar (c : Config) (s : State) : Prop where
  inode : ∀ i, (s.inode i).type = none ∧ s.data i = [] ∨
    (s.inode i).type = (c.2.inode i).type ∧ (s.inode i).perm = (c.2.inode i).perm ∧
      (s.inode i).owner = (c.2.inode i).owner ∧ (s.inode i).entries = (c.2.inode i).entries ∧
      s.data i = c.2.data i
  cwd : s.cwd = c.2.cwd
  ltable : s.ltable = c.2.ltable
  ltableFd : s.ltableFd = c.2.ltableFd
  file : s.file = c.2.file
  ofile : s.ofile = c.2.ofile
  tab : s.tab = c.2.tab
  dirWrites : s.dirWrites = c.2.dirWrites
  /-- In a sound state the current directories stay. -/
  cwdInum : Sound c → ∀ q ip, s.cwd q = some ip → (s.icache ip).inum = (c.2.icache ip).inum ∧
    (s.ino ip).type = (c.2.ino ip).type

variable {ip : Ip} {i : Nat}

namespace Similar

theorem refl : Similar (R, s) s :=
  ⟨fun _ => .inr ⟨rfl, rfl, rfl, rfl, rfl⟩, rfl, rfl, rfl, rfl, rfl, rfl, rfl,
    fun _ _ _ _ => ⟨rfl, rfl⟩⟩

theorem setEntry (h : Similar c s)
    (he : Sound c → ∀ q, s.cwd q = some ip → e.inum = (s.icache ip).inum) :
    Similar c (s.setEntry ip e) := by
  refine ⟨h.inode, h.cwd, h.ltable, h.ltableFd, h.file, h.ofile, h.tab, h.dirWrites,
    fun hS q ip' hq => ?_⟩
  have hold := h.cwdInum hS q ip' hq
  by_cases hip : ip' = ip
  · subst hip
    simpa only [State.setEntry, Function.update_self, Fs.State.ino, he hS q hq] using hold
  · simpa [State.setEntry, Fs.State.ino, hip] using hold

theorem get (h : Similar c s) :
    Similar c (s.setEntry ip { s.icache ip with ref := (s.icache ip).ref + 1 }) :=
  h.setEntry fun _ _ _ => rfl

/-- An entry that is not in use is not a current directory. -/
theorem load (h : Similar c s) (hAt : At p m c R s) (h0 : (s.icache ip).ref = 0) :
    Similar c (s.setEntry ip ⟨inum, 1, false⟩) := by
  refine h.setEntry fun hS q hq => ?_
  have hpos := (hAt.invariant (fun _ _ => Sound.micro) hS).ref_pos_of_cwd hq
  omega

theorem setLock (h : Similar c s) : Similar c (s.setLock ip v) :=
  ⟨h.inode, h.cwd, h.ltable, h.ltableFd, h.file, h.ofile, h.tab, h.dirWrites,
    h.cwdInum⟩

theorem locked (h : Similar c s) : Similar c (s.locked p ip) := h.setLock.setEntry fun _ _ _ => rfl

/-- The inode of a current directory is not freed. -/
theorem put (h : Similar c s) (hAt : At p m c ({.ref k ip} + R) s) : Similar c (s.put ip) := by
  refine State.put_cases (P := Similar c) (h.setEntry fun _ _ _ => rfl) fun hf => ?_
  have hfree : Similar c (s.free ip) := by
    refine Similar.setEntry (s := (s.setIno ip _).setData (s.icache ip).inum [])
      ⟨fun i => ?_, h.cwd, h.ltable, h.ltableFd, h.file, h.ofile, h.tab, h.dirWrites,
    fun hS q ip' hq => ?_⟩
      fun _ _ _ => rfl
    · by_cases e : i = (s.icache ip).inum
      · simp [State.setIno, State.setInode, State.setData, e]
      · simpa [State.setIno, State.setInode, State.setData, e] using h.inode i
    · have hold := h.cwdInum hS q ip' hq
      have hsound := hAt.invariant (fun _ _ => Sound.micro) hS
      have hne : (s.icache ip').inum ≠ (s.icache ip).inum := by
        intro e
        have hip : ip' = ip := hsound.unique _ _ (hsound.ref_pos_of_cwd hq)
          (hsound.ref_pos_of_mem (k := k) (by simp)) e
        have h2 := hsound.two_le_of_cwd (hip ▸ hq)
        have h1 : (s.icache ip).ref = 1 := hf.2.2
        omega
      simpa [State.setIno, State.setInode, State.setData, Fs.State.ino, hne] using hold
  exact hfree.setEntry fun _ _ _ => rfl

theorem setOutstanding (h : Similar c s) : Similar c { s with outstanding := n } :=
  ⟨h.inode, h.cwd, h.ltable, h.ltableFd, h.file, h.ofile, h.tab, h.dirWrites,
    h.cwdInum⟩

theorem links (h : Similar c s) : Similar c (s.setIno ip { s.ino ip with nlink := n }) := by
  refine ⟨fun i => ?_, h.cwd, h.ltable, h.ltableFd, h.file, h.ofile, h.tab, h.dirWrites,
    fun hS q ip' hq => ?_⟩
  · by_cases e : i = (s.icache ip).inum
    · simpa [State.setIno, State.setInode, Fs.State.ino, e] using h.inode (s.icache ip).inum
    · simpa [State.setIno, State.setInode, e] using h.inode i
  · have hold := h.cwdInum hS q ip' hq
    by_cases e : (s.icache ip').inum = (s.icache ip).inum
    · simpa [State.setIno, State.setInode, Fs.State.ino, e] using hold
    · simpa [State.setIno, State.setInode, Fs.State.ino, e] using hold

/-- A directory is the one of the start. -/
theorem dir (h : Similar c s) (ht : (s.inode i).type = some .T_DIR) :
    (c.2.inode i).type = some .T_DIR ∧ (s.inode i).perm = (c.2.inode i).perm ∧
      (s.inode i).owner = (c.2.inode i).owner ∧ (s.inode i).entries = (c.2.inode i).entries := by
  rcases h.inode i with ⟨hn, -⟩ | ⟨h1, h2, h3, h4, -⟩
  · rw [hn] at ht
    cases ht
  · exact ⟨h1 ▸ ht, h2, h3, h4⟩

theorem whoami (h : Similar c s) : s.whoami = c.2.whoami := by
  rw [Fs.State.whoami, Fs.State.whoami, h.ltable, h.ltableFd]

theorem grants_dir (h : Similar c s) (ht : (s.inode i).type = some .T_DIR) :
    s.Grants (s.inode i) ok ↔ c.2.Grants (c.2.inode i) ok := by
  obtain ⟨h1, h2, h3, -⟩ := h.dir ht
  simp only [Fs.State.Grants, Fs.checkmod, h.whoami, ht, h1, h2, h3]

theorem mayPass (h : Similar c s) (ht : (s.inode i).type = some .T_DIR) :
    c.2.MayPass p i ↔ (s.pid p > 2 → s.Grants (s.inode i) X_OK) := by
  rw [State.MayPass, h.grants_dir ht, State.pid, State.pid, h.tab]
  exact and_iff_right (h.dir ht).1

end Similar

/-- What `namex` leaves, where `j` is the inode that the names should give. In a sound state it only
fails if there is none. -/
def AtWalked (p : Slot) (m : Mode) (c : Config) (R : Multiset Res) (parent : Bool)
    (names : List Name) (j : Option Nat) (r : Option (Ip × Name)) (s : State) : Prop :=
  At p m c (cwdHeld (r.map Prod.fst) + R) s ∧ Similar c s ∧
    (∀ x ∈ r, j = some (s.icache x.1).inum ∧ (parent = true →
      (s.ino x.1).type = some .T_DIR ∧ names.getLast? = some x.2)) ∧ (r = none → Sound c → j = none)

/-- `dirlookup` has searched the directory `i`, which is locked. -/
abbrev AtFound (p : Slot) (m : Mode) (c : Config) (R : Multiset Res) (i : Nat) (ip : Ip)
    (name : Name) : Option (Ip × Nat) → State → Prop
  | none, s => (c.2.inode i).lookup name = none ∧ (s.ino ip).type = some .T_DIR ∧
    At p m c ({.lock ip} + ({.ref .plain ip} + R)) s ∧ Similar c s ∧ (s.icache ip).inum = i
  | some r, s => (c.2.inode i).lookup name = some r.2 ∧
    At p m c ({.ref .plain r.1} + ({.lock ip} + ({.ref .plain ip} + R))) s ∧ Similar c s ∧
      (s.icache r.1).inum = entryInum (c.2.inode i) r.2

theorem dirlookup_walked : Triple (Blame p c) (fun s => (s.ino ip).type = some .T_DIR ∧
      At p m c ({.lock ip} + ({.ref .plain ip} + R)) s ∧ Similar c s ∧ (s.icache ip).inum = i)
    (dirlookup ip name) (AtFound p m c R i ip name) := by
  refine dirlookup_rule (fun _ _ _ => blame_of rfl) (fun _ _ _ => blame_of rfl) ?_ ?_ ?_
  · rintro s ⟨ht, h, hs, rfl⟩ - hoff
    rw [Inode.lookup, Fs.State.ino, (hs.dir ht).2.2.2] at hoff
    exact ⟨hoff, ht, h, hs, rfl⟩
  · rintro s off next ⟨ht, h, hs, rfl⟩ - hoff hr he
    obtain ⟨-, -, -, h4⟩ := hs.dir ht
    rw [Inode.lookup, Fs.State.ino, h4] at hoff
    rw [entryInum, Fs.State.ino, h4] at he
    refine ⟨hoff, h.cache (.get (.inl hr)), hs.get, ?_⟩
    simpa [State.setEntry, entryInum] using he
  · rintro s off next ⟨ht, h, hs, rfl⟩ - hoff h0 hno
    obtain ⟨-, -, -, h4⟩ := hs.dir ht
    rw [Inode.lookup, Fs.State.ino, h4] at hoff
    refine ⟨hoff, h.cache (.load h0 hno), hs.load h h0, ?_⟩
    simp [State.setEntry, entryInum, Fs.State.ino, h4]

/-- The entry of an inode stays where it is while it is locked. -/
theorem ilock_walked : Triple (Blame p c)
    (fun s => At p m c R s ∧ Similar c s ∧ (s.icache ip').inum = i) (ilock p ip) fun _ s =>
      At p m c ({.lock ip} + R) s ∧ Similar c s ∧ (s.icache ip').inum = i ∧
        (s.icache ip).valid = true ∧ (Sound c → (s.ino ip).type ≠ none) := by
  refine ilock_rule (fun _ _ _ => blame_of rfl) (fun _ _ _ => blame_of rfl)
    (fun _ _ _ _ _ => blame_of rfl) fun s h h1 hl hv => ?_
  have hAt := h.1.locked hl hv
  have hpos : 0 < ((s.locked p ip).icache ip).ref := by
    simp only [State.locked, State.setEntry, Function.update_self]
    exact h1
  have hvalid : ((s.locked p ip).icache ip).valid = true := by simp [State.locked, State.setEntry]
  refine ⟨hAt, h.2.1.locked, ?_, hvalid, fun hS =>
    (hAt.invariant (fun _ _ => Sound.micro) hS).valid ip hpos hvalid⟩
  by_cases e : ip' = ip
  · subst e
    simpa [State.locked, State.setEntry] using h.2.2
  · simpa [State.locked, State.setEntry, State.setLock, e] using h.2.2

theorem iput_walked : Triple (Blame p c)
    (fun s => At p m c ({.ref k ip} + R) s ∧ Similar c s ∧ (s.icache ip').inum = i) (iput p ip)
    fun _ s => At p m c R s ∧ Similar c s ∧ (s.icache ip').inum = i :=
  iput_rule (fun _ _ _ => blame_of rfl) fun _ h _ =>
    ⟨h.1.cache .put, h.2.1.put h.1, State.put_inum.trans h.2.2⟩

theorem iunlockput_walked : Triple (Blame p c) (fun s =>
      At p m c ({.lock ip} + ({.ref k ip} + R)) s ∧ Similar c s ∧ (s.icache ip').inum = i)
    (iunlockput p ip) fun _ s => At p m c R s ∧ Similar c s ∧ (s.icache ip').inum = i :=
  .bind (iunlock_rule (fun _ _ _ => blame_of rfl) fun _ h _ _ =>
    ⟨h.1.lock .unlock, h.2.1.setLock, h.2.2⟩) fun _ => iput_walked

/-- What follows a step is looked at from the state after the step. -/
theorem restart_walked {x : Kernel α} {K : State → State → Prop} (hP : ∀ s, P s → At p m c R s)
    (hx : ∀ s, P s → Triple (Blame p (R, s)) (fun t => At p m (R, s) R t ∧ Similar (R, s) t) x
      fun _ t => At p m (R, s) T t ∧ K s t) :
    Triple (Blame p c) P x fun _ t => ∃ s, P s ∧ At p m c T t ∧ K s t := by
  intro s hs
  refine (hx s hs s ⟨.refl, .refl⟩).imp (fun e he hb hc => ?_) fun a t ht => ?_
  · exact he hb ((hP s hs).filesCounted hc)
  · exact ⟨s, hs, (hP s hs).trans ht.1, ht.2⟩

theorem namexLoop_walked :
    Triple (Blame p c) (fun s => At p m c ({.ref .plain ip} + R) s ∧ Similar c s ∧
      (s.icache ip).inum = i) (namexLoop p parent ip names)
      (AtWalked p m c R parent names (c.2.find p parent i names)) := by
  induction names generalizing ip i with
  | nil =>
    refine .ite (fun hp => .bind iput_walked fun _ => .pure fun s h => ?_)
      fun hp => .pure fun s h => ?_
    · exact ⟨by simpa [cwdHeld] using h.1, h.2.1, by simp, fun _ _ => if_pos hp⟩
    · refine ⟨h.1, h.2.1, ?_, by simp⟩
      simp [hp, State.find, h.2.2]
  | cons name names ih =>
    have hbad : ∀ {j : Option Nat}, (Sound c → j = none) → Triple (Blame p c)
        (fun s => At p m c ({.lock ip} + ({.ref .plain ip} + R)) s ∧
          Similar c s ∧ (s.icache ip).inum = i) (do iunlockput p ip; pure none)
        (AtWalked p m c R parent (name :: names) j) := fun hj =>
      .bind iunlockput_walked fun _ => .pure fun s h =>
        ⟨by simpa [cwdHeld] using h.1, h.2.1, by simp, fun _ => hj⟩
    refine .bind ilock_walked fun _ => .reads_bind fun d => .reads_bind fun pid =>
      .reads_bind fun ok => ?_
    refine .ite (fun ht => ?_) fun ht => ?_
    · rintro s ⟨⟨⟨⟨h, hs, rfl, -, hn⟩, rfl⟩, -⟩, -⟩
      refine hbad (fun hS => if_neg fun hpass => ht ?_) s ⟨h, hs, rfl⟩
      rw [← hpass.1]
      exact ((hs.inode _).resolve_left fun h => hn hS h.1).1
    rw [not_not] at ht
    refine .ite (fun hx => ?_) fun hx => ?_
    · rintro s ⟨⟨⟨⟨h, hs, rfl, -⟩, rfl⟩, rfl⟩, rfl⟩
      refine hbad (fun _ => if_neg fun hpass => ?_) s ⟨h, hs, rfl⟩
      exact absurd ((hs.mayPass ht).mp hpass hx.1) (of_decide_eq_false hx.2)
    -- the process may look up names here
    refine Triple.pre (P := fun s => c.2.MayPass p i ∧ (s.ino ip).type = some .T_DIR ∧
      At p m c ({.lock ip} + ({.ref .plain ip} + R)) s ∧ Similar c s ∧ (s.icache ip).inum = i)
      (.of_and fun hpass => .ite (fun hlast => ?_) fun hlast => ?_) ?_
    · -- the last element is left to the caller
      obtain ⟨rfl, rfl⟩ := hlast
      refine .bind (iunlock_rule (Q := fun _ s => At p m c ({.ref .plain ip} + R) s ∧
        Similar c s ∧ (s.icache ip).inum = i ∧ (s.ino ip).type = some .T_DIR)
        (fun _ _ _ => blame_of rfl) ?_) fun _ => .pure fun s h => ?_
      · rintro s ⟨ht, h, hs, hi⟩ - -
        exact ⟨h.lock .unlock, hs.setLock, hi, ht⟩
      · refine ⟨h.1, h.2.1, ?_, by simp⟩
        simp [State.find, hpass, h.2.2.1, h.2.2.2]
    · have hfind : c.2.find p parent i (name :: names) = ((c.2.inode i).lookup name).bind fun off =>
          c.2.find p parent (entryInum (c.2.inode i) off) names := by
        rw [State.find, if_pos hpass, if_neg hlast]
      refine .bind dirlookup_walked fun r => ?_
      cases r with
      | none =>
        refine .of_and fun hoff => (hbad fun _ => ?_).pre fun _ => And.right
        rw [hfind, hoff, Option.bind_none]
      | some r =>
        refine .of_and fun hoff => ?_
        have e : ({.ref .plain r.1} : Multiset Res) + ({.lock ip} + ({.ref .plain ip} + R)) =
            {.lock ip} + ({.ref .plain ip} + ({.ref .plain r.1} + R)) := by ac_rfl
        rw [hfind, hoff, Option.bind_some, e]
        refine .bind iunlockput_walked fun _ => ih.post fun x s h => ?_
        refine ⟨h.1, h.2.1, fun x hx => ?_, h.2.2.2⟩
        obtain ⟨hj, hdir⟩ := h.2.2.1 x hx
        refine ⟨hj, fun hp => ⟨(hdir hp).1, ?_⟩⟩
        rw [List.getLast?_cons, (hdir hp).2]
        rfl
    · rintro s ⟨⟨⟨⟨h, hs, rfl, -⟩, rfl⟩, rfl⟩, rfl⟩
      refine ⟨(hs.mayPass ht).mpr fun hp => ?_, ht, h, hs, rfl⟩
      by_contra hg
      exact hx ⟨hp, decide_eq_false hg⟩

/-- The inode that `namex` gives. -/
def State.finds (s : State) (p : Slot) (path : Name) (parent : Bool) : Option Nat :=
  (s.start p path).bind fun i => s.find p parent i (elems path)

theorem namex_walked (hS : path.head? = some Users.SLASH ∨ Sound c) :
    Triple (Blame p c) (fun s => At p m c R s ∧ Similar c s) (namex p path parent)
      (AtWalked p m c R parent (elems path) (c.2.finds p path parent)) := by
  have hfinds : ∀ i, c.2.start p path = some i →
      c.2.finds p path parent = c.2.find p parent i (elems path) := by
    intro i hi
    rw [State.finds, hi]
    rfl
  refine .ite (fun hs => ?_) fun hs => ?_
  · have hi : c.2.start p path = some ROOTINO := if_pos hs
    rw [hfinds _ hi]
    refine .bind (iget_rule (Q := fun ip s => At p m c ({.ref .plain ip} + R) s ∧ Similar c s ∧
      (s.icache ip).inum = ROOTINO) (fun _ _ _ => blame_of rfl) ?_ ?_) fun ip =>
      namexLoop_walked
    · rintro s ip ⟨h, hs⟩ hr he
      exact ⟨h.cache (.get (.inl hr)), hs.get, by simpa [State.setEntry] using he⟩
    · rintro s ip ⟨h, hs⟩ h0 hno
      exact ⟨h.cache (.load h0 hno), hs.load h h0, by simp [State.setEntry]⟩
  · have hS : Sound c := hS.resolve_left hs
    refine .reads_bind fun cwd => ?_
    cases cwd with
    | none =>
      refine .ite (fun _ => .pure fun s h => ?_) fun _ => .panic (blame_of rfl)
      refine ⟨by simpa [cwdHeld] using h.1.1, h.1.2, by simp, fun _ _ => ?_⟩
      rw [State.finds, State.start, if_neg hs, ← h.1.2.cwd, h.2]
      rfl
    | some ip =>
      refine .bind (Q := fun r s => (r = ip ∧ c.2.start p path = some (c.2.icache ip).inum) ∧
        At p m c ({.ref .plain ip} + R) s ∧ Similar c s ∧
          (s.icache ip).inum = (c.2.icache ip).inum) (idup_rule ?_) fun r => .of_and ?_
      · rintro s ⟨⟨h, hsim⟩, hcwd⟩
        have hstart : c.2.start p path = some (c.2.icache ip).inum := by
          rw [State.start, if_neg hs, ← hsim.cwd, hcwd]
          rfl
        refine ⟨⟨rfl, hstart⟩, h.cache (.get (.inr ⟨p, hcwd⟩)), hsim.get, ?_⟩
        rw [← (hsim.cwdInum hS p ip hcwd).1]
        simp [State.setEntry]
      · rintro ⟨rfl, hstart⟩
        rw [hfinds _ hstart]
        exact namexLoop_walked

theorem namei_walked (hS : path.head? = some Users.SLASH ∨ Sound c) :
    Triple (Blame p c) (fun s => At p m c R s ∧ Similar c s) (namei p path) fun r s =>
      At p m c (cwdHeld r + R) s ∧ Similar c s ∧
        (∀ ip ∈ r, c.2.finds p path false = some (s.icache ip).inum) ∧
        (r = none → Sound c → c.2.finds p path false = none) := by
  refine .bind (namex_walked hS) fun r => .pure fun s h => ?_
  refine ⟨h.1, h.2.1, fun ip hip => ?_, fun hr => h.2.2.2 (by simpa using hr)⟩
  obtain ⟨x, hx, rfl⟩ := Option.map_eq_some_iff.mp hip
  exact (h.2.2.1 x hx).1

end Xv6.Sys
