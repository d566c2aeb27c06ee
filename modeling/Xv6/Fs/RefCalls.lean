import Xv6.Fs.Counted
import Xv6.Fs.Open

/-! # The calls on files and the references to inodes

Several permission tests of `sysfile.c` give up with `iunlock` where they should call `iunlockput`,
`sys_chmod` and `addUser` never put the inode they have looked up, and the reference then stays
counted for good. `Guarded` is the condition under which a call does not come to such a place. -/

namespace Xv6.Fs

open Prog Thread

variable {t : Ptable} {s : State} {p : Slot} {ip : Ip} {path : Name} {omode : UInt32}

/-! ## The condition -/

/-- `create` may write to the directory in which it makes a file. -/
def ParentWritable (p : Slot) (path : Name) : State → Prop :=
  wlp (nameiparent p path) fun r s =>
    ∀ x ∈ r, (s.ino x.1).lookup x.2 = none → s.Grants (s.ino x.1) W_OK

instance : Decidable (ParentWritable p path s) := inferInstanceAs (Decidable (wlp _ _ s))

/-- The inodes for which `open` comes to its permission tests. -/
def Tested (omode : UInt32) (st : Inode) : Prop :=
  if omode &&& O_CREATE ≠ 0 then st.type = some .T_FILE
  else st.type = some .T_DIR → omode = O_RDONLY

instance {st : Inode} : Decidable (Tested omode st) :=
  inferInstanceAs (Decidable (if omode &&& O_CREATE ≠ 0 then st.type = some .T_FILE
    else st.type = some .T_DIR → omode = O_RDONLY))

/-- The permissions that `open` asks for are granted. -/
def OpenGranted (p : Slot) (path : Name) (omode : UInt32) (s : State) : Prop :=
  (omode &&& O_CREATE ≠ 0 → ParentWritable p path s) ∧
    wlp (target p path omode) (fun r t => ∀ ip ∈ r, Tested omode (t.ino ip) →
      (omode &&& O_CREATE ≠ 0 → 0 < t.ltable.userCnt → t.Grants (t.ino ip) W_OK) ∧
      (WantsRead omode → t.Grants (t.ino ip) R_OK) ∧
      (WantsWrite omode → t.Grants (t.ino ip) W_OK)) s

instance : Decidable (OpenGranted p path omode s) := inferInstanceAs (Decidable (_ ∧ _))

def UnlinkGranted (p : Slot) (path : Name) : State → Prop :=
  wlp (nameiparent p path) fun r s => ∀ x ∈ r, s.Grants (s.ino x.1) W_OK

instance : Decidable (UnlinkGranted p path s) := inferInstanceAs (Decidable (wlp _ _ s))

def ChdirGranted (p : Slot) (path : Name) : State → Prop :=
  wlp (namei p path) fun r s =>
    ∀ ip ∈ r, (s.ino ip).type = some .T_DIR → s.Grants (s.ino ip) X_OK

instance : Decidable (ChdirGranted p path s) := inferInstanceAs (Decidable (wlp _ _ s))

def Unfound (p : Slot) (path : Name) : State → Prop := wlp (namei p path) fun r _ => r = none

instance : Decidable (Unfound p path s) := inferInstanceAs (Decidable (wlp _ _ s))

/-- `addUser` refuses, or it may write `/passwd` and does not come to the inode of the home
directory. -/
def AddUserGranted (p : Slot) (username password : Users.Str) (s : State) : Prop :=
  Accepts s.ltable username password →
    OpenGranted p passwdPath O_WRONLY
      { s with ltable := Users.append s.ltable username password } ∧
    wlp (flushUsers p) (fun ok t => ok = true →
      if s.ltable.userCnt + 1 > 1 then
        ParentWritable p username t ∧ wlp (mkdir p username) (fun _ => Unfound p username) t
      else Unfound p username t) { s with ltable := Users.append s.ltable username password }

instance {username password : Users.Str} : Decidable (AddUserGranted p username password s) :=
  inferInstanceAs (Decidable (_ → _))

/-- The call comes to no permission test that fails and keeps the inode, and to no other place that
does so. -/
def Guarded (s : State) : Slot × Call → Prop
  | (p, .sysOpen path omode) => OpenGranted p path omode s
  | (p, .sysMkdir path) => ParentWritable p path s
  | (p, .sysMknod path) => ParentWritable p path s
  | (p, .sysUnlink path) => UnlinkGranted p path s
  | (p, .sysChdir path) => ChdirGranted p path s
  | (p, .sysChmod path _) => Unfound p path s
  | (p, .sysAddUser username password) => AddUserGranted p username password s
  | (p, .sysDeleteUser username) => ∀ found ∈ deletes s.ltable username,
    OpenGranted p passwdPath O_WRONLY { s with ltable := Users.remove s.ltable found }
  | _ => True

instance : ∀ a, Decidable (Guarded s a)
  | (p, .sysOpen path omode) => inferInstanceAs (Decidable (OpenGranted p path omode s))
  | (p, .sysMkdir path) => inferInstanceAs (Decidable (ParentWritable p path s))
  | (p, .sysMknod path) => inferInstanceAs (Decidable (ParentWritable p path s))
  | (p, .sysUnlink path) => inferInstanceAs (Decidable (UnlinkGranted p path s))
  | (p, .sysChdir path) => inferInstanceAs (Decidable (ChdirGranted p path s))
  | (p, .sysChmod path _) => inferInstanceAs (Decidable (Unfound p path s))
  | (p, .sysAddUser username password) =>
    inferInstanceAs (Decidable (AddUserGranted p username password s))
  | (_, .sysDeleteUser username) =>
    inferInstanceAs (Decidable (∀ found ∈ deletes s.ltable username, _))
  | (_, .sysClose _) | (_, .sysDup _) | (_, .sysLink ..) | (_, .sysFork ..)
  | (_, .sysThreadCreate ..) | (_, .sysThreadExit _) | (_, .sysExec ..) | (_, .sysExit) =>
    isTrue trivial

/-! ## Descriptors and current directories -/

theorem iput_setCwd (hrun : iput ip s = some (u, s')) :
    iput ip (s.setCwd p v) = some (u, s'.setCwd p v) := by
  simp only [iput, bind_eq_some, writes_eq_some] at hrun ⊢
  obtain ⟨_, _, rfl, rfl⟩ := hrun
  refine ⟨(), _, (apply_ite (State.setCwd · p v) _ (s.free ip) s).symm, rfl⟩

section

variable {K : Ptable → List Ip → State → Prop} (hK : Ledger K)

include hK

theorem sysDup_ledger {fd : Nat} : Triple (K t l) (sysDup p fd) fun _ => K t l := by
  refine .read fun r => ?_
  rcases r with _ | ⟨_, f⟩
  · exact .pure fun _ => id
  refine .bind (fdalloc_keeps fun _ _ h => hK.setOfile h) fun r => ?_
  cases r with
  | none => exact .pure fun _ => id
  | some fd => exact .bind_pure (filedup_ledger hK)

theorem sysClose_ledger {fd : Nat} : Triple (K t l) (sysClose p fd) fun _ => K t l := by
  refine .read fun r => ?_
  rcases r with _ | ⟨fd, f⟩
  · exact .pure fun _ => id
  refine .bind (Q := fun _ => K t l) (.writes fun _ h => hK.setOfile h) fun _ => ?_
  exact .bind_pure (fileclose_ledger hK)

theorem openAlloc_ledger : Triple (K t (ip :: l)) (openAlloc p ip omode) fun _ => K t l := by
  refine .bind (filealloc_ledger hK) fun r => ?_
  cases r with
  | none =>
    refine .bind (hK.iunlockput.pre (fun s h => h.1)) fun _ => ?_
    exact .pure fun _ => id
  | some f =>
    refine .bind (fdalloc_keeps fun s fd h => ⟨hK.setOfile h.1, h.2⟩) fun r => ?_
    cases r with
    | none =>
      refine .bind ((fileclose_ledger hK).pre (fun s h => h.1)) fun _ => ?_
      exact .bind_pure hK.iunlockput
    | some fd =>
      refine .bind iunlock_keeps fun _ => .bind_pure (.writes ?_)
      exact fun s h => hK.congr h.1 (fun _ hc => hc.openFile (h.2 f rfl)) rfl rfl

/-- The current directory is dropped for another one or for none. -/
theorem putCwd_ledger {v : Option Ip} (hl : v ≠ none → Live (t.proc p).state) :
    Triple (K t (v.elim l (· :: l))) (putCwd p) fun _ s => K t l (s.setCwd p v) := by
  intro s u s' h hrun
  simp only [putCwd, bind_eq_some, reads_eq_some] at hrun
  obtain ⟨_, _, ⟨rfl, rfl⟩, hrun⟩ := hrun
  have hv : ∀ m x, ((v.elim l (· :: l) ++ m).count x : Int) =
      (l ++ m).count x + Table.ind (v = some x) := by
    intro m x
    cases v with
    | none => simp
    | some y => simp [Counted.count_cons_eq]
  cases hc : s.cwd p with
  | none =>
    simp only [hc, pure_eq_some, true_and] at hrun
    subst hrun
    refine hK.congr h (fun m h => h.setCwd hl fun x => ?_) rfl rfl
    rw [hv, hc]
    simp
  | some c =>
    simp only [hc] at hrun
    refine hK.iput _ _ _ (hK.congr h (fun m h => h.setCwd hl fun x => ?_) rfl rfl)
      (iput_setCwd hrun)
    rw [hv, hc, List.cons_append, Counted.count_cons_eq]
    simp only [Option.some.injEq]
    omega

end

/-! ## Links -/

theorem linkBad_counted : Triple (Counted t (ip :: l)) (linkBad ip) fun _ => Counted t l :=
  .bind ilock_counted fun _ => .bind setIno_counted fun _ => .bind_pure iunlockput_counted

theorem sysLink_counted {old new : Name} :
    Triple (Counted t l) (sysLink p old new) fun _ => Counted t l := by
  refine .bind (namei_ledger .refs) fun r => ?_
  cases r with
  | none => exact .pure fun _ => id
  | some ip =>
    refine .bind ilock_counted fun _ => .read fun st => .ite (fun _ => ?_) fun _ => ?_
    · exact .bind_pure iunlockput_counted
    refine .bind setIno_counted fun _ => .bind iunlock_keeps fun _ => ?_
    refine .bind (nameiparent_ledger .refs) fun r => ?_
    rcases r with _ | ⟨dp, name⟩
    · exact linkBad_counted
    refine .bind ilock_counted fun _ => .read fun inum => .bind dirlink_counted fun ok => ?_
    refine .ite (fun _ => ?_) fun _ => ?_
    · exact .bind iunlockput_counted fun _ => .bind_pure iput_counted
    · exact .bind iunlockput_counted fun _ => linkBad_counted

/-- A test that is passed. -/
theorem Granted.bind {α : Type} {ok : UInt32} {P : State → Prop} {k : Bool → Kernel α}
    {R : α → State → Prop} (h : Triple P (k true) R) :
    Triple (fun s => P s ∧ s.Grants (s.ino ip) ok) (grants ip ok >>= k) R := by
  refine .reads_bind fun b => ?_
  rintro s a s' ⟨⟨hP, hg⟩, rfl⟩ hrun
  rw [decide_eq_true hg] at hrun
  exact h s a s' hP hrun

theorem sysUnlink_counted : Triple (fun s => Counted t l s ∧ UnlinkGranted p path s)
    (sysUnlink p path) fun _ => Counted t l := by
  refine .bind ((nameiparent_ledger .refs).and .of_wlp) fun r => ?_
  rcases r with _ | ⟨dp, name⟩
  · exact .pure fun _ => And.left
  refine .bind (Q := fun _ s => Counted t (dp :: l) s ∧ s.Grants (s.ino dp) W_OK)
    ((ilock_counted.and (ilock_ino fun user st => checkmod user st &&& W_OK ≠ 0)).pre
      (fun s h => ⟨h.1, h.2 _ rfl⟩)) fun _ => ?_
  refine Granted.bind (.ite nofun fun _ => ?_)
  have hput : Triple (Counted t (dp :: l)) (do iunlockput dp; pure (-1) : Kernel Int)
      fun _ => Counted t l := .bind_pure iunlockput_counted
  refine .ite (fun _ => hput) fun _ => .bind (dirlookup_ledger .refs) fun r => ?_
  rcases r with _ | ⟨ip, off⟩
  · exact hput
  refine .bind ilock_counted fun _ => .read fun st => .ite (fun _ => .stop) fun _ => ?_
  refine .ite (fun _ => .bind iunlockput_counted fun _ => hput) fun _ => ?_
  refine .bind setIno_counted fun _ => ?_
  have hrest : Triple (Counted t (ip :: dp :: l)) (do
      iunlockput dp
      addLinks ip (-1)
      iunlockput ip
      pure 0 : Kernel Int) fun _ => Counted t l :=
    .bind Ledger.refs.iunlockput_second fun _ => .bind setIno_counted fun _ =>
      .bind_pure iunlockput_counted
  exact .ite (fun _ => .bind setIno_counted fun _ => hrest) fun _ => hrest

/-! ## Creation -/

theorem mustLink_counted {inum : Nat} :
    Triple (Counted t l) (mustLink dp name inum) fun _ => Counted t l :=
  .bind dirlink_counted fun _ => .ite (fun _ => .pure fun _ => id) fun _ => .stop

theorem createNew_counted : Triple (fun s => Counted t (dp :: l) s ∧ s.Grants (s.ino dp) W_OK)
    (createNew dp name type) fun r => Counted t (r.elim l (· :: l)) := by
  refine Granted.bind (.ite nofun fun _ => ?_)
  refine .bind ialloc_counted fun ip => .bind ilock_counted fun _ => ?_
  refine .bind setIno_counted fun _ => ?_
  refine .read fun inum => .read fun dinum => ?_
  have hrest : Triple (Counted t (ip :: dp :: l)) (do
      mustLink dp name inum
      iunlockput dp
      pure (some ip) : Kernel (Option Ip)) fun r => Counted t (r.elim l (· :: l)) :=
    .bind mustLink_counted fun _ => .bind_pure Ledger.refs.iunlockput_second
  refine .ite (fun _ => ?_) fun _ => hrest
  exact .bind setIno_counted fun _ => .bind mustLink_counted fun _ =>
    .bind mustLink_counted fun _ => hrest

/-- If the name stands for a regular file, `create` may write to it. -/
def OldWritable (type : InodeType) (ip : Ip) (s : State) : Prop :=
  type = .T_FILE → (s.ino ip).type = some .T_FILE → 0 < s.ltable.userCnt →
    s.Grants (s.ino ip) W_OK

theorem createOld_counted : Triple (fun s => Counted t (ip :: l) s ∧
    wlp (ilock ip) (fun _ => OldWritable type ip) s)
    (createOld ip type) fun r => Counted t (r.elim l (· :: l)) := by
  refine .bind (ilock_counted.and .of_wlp) fun _ => .reads_bind fun st => .reads_bind fun cnt => ?_
  refine .ite (fun hf => .reads_bind fun b => .ite (fun hb => ?_) fun _ => ?_) fun _ => ?_
  · rintro s a s' ⟨⟨⟨⟨-, hw⟩, rfl⟩, rfl⟩, rfl⟩ -
    exact absurd (hw hf.1 hf.2 hb.1) (of_decide_eq_false hb.2)
  · exact .pure fun s h => h.1.1.1.1
  · refine .bind (iunlockput_counted.pre (fun s h => h.1.1.1)) fun _ => ?_
    exact .pure fun _ => id

/-- A reference is held for the inode that `create` returns. -/
theorem create_counted {r : Option Ip} (hc : omode &&& O_CREATE ≠ 0) (h : Counted t l s)
    (hp : ParentWritable p path s) (ho : wlp (target p path omode)
      (fun r t => ∀ ip ∈ r, OldWritable type ip t) s)
    (hrun : create p path type s = some (r, s')) : Counted t (r.elim l (· :: l)) s' := by
  simp only [create, bind_eq_some] at hrun
  obtain ⟨r₁, s₁, hn, hrun⟩ := hrun
  have h₁ := nameiparent_ledger .refs _ _ _ h hn
  rcases r₁ with _ | ⟨dp, name⟩
  · obtain ⟨rfl, rfl⟩ := pure_eq_some.mp hrun
    exact h₁
  simp only [bind_eq_some] at hrun
  obtain ⟨_, s₂, hl, r₂, s₃, hd, hrun⟩ := hrun
  have h₂ := ilock_counted _ _ _ h₁ hl
  have h₃ := dirlookup_ledger .refs _ _ _ h₂ hd
  rcases r₂ with _ | ⟨ip, off⟩
  · obtain ⟨-, rfl, hnone⟩ := dirlookup_eq_some hd
    have hl := ilock_eq_some hl
    rw [hl.ino] at hnone
    have hg := hp _ hn (dp, name) rfl hnone
    refine createNew_counted _ _ _ ⟨h₃, ?_⟩ hrun
    rwa [State.Grants, hl.ino, hl.whoami]
  · simp only [bind_eq_some] at hrun
    obtain ⟨_, s₄, hu, hrun⟩ := hrun
    refine createOld_counted _ _ _ ⟨Ledger.refs.iunlockput_second _ _ _ h₃ hu, fun t hl' => ?_⟩ hrun
    exact ho _ ((target_create hc).mpr ⟨_, _, _, _, _, _, _, hn, hl, hd, hu, hl'⟩) _ rfl

/-- `mkdir` and `sys_mknod`. -/
theorem create_put_counted (ht : type ≠ .T_FILE) :
    Triple (fun s => Counted t l s ∧ ParentWritable p path s) (do
      match ← create p path type with
      | none => pure (-1)
      | some ip =>
        iunlockput ip
        pure 0 : Kernel Int) fun _ => Counted t l := by
  refine .bind (Q := fun r => Counted t (r.elim l (· :: l))) (fun s r s' h hrun => ?_) fun r => ?_
  · exact create_counted (show O_CREATE &&& O_CREATE ≠ 0 by decide) h.1 h.2
      (fun _ _ _ _ hf => absurd hf ht) hrun
  · cases r with
    | none => exact .pure fun _ => id
    | some ip => exact .bind_pure iunlockput_counted

theorem mkdir_counted : Triple (fun s => Counted t l s ∧ ParentWritable p path s) (mkdir p path)
    fun _ => Counted t l := create_put_counted nofun

theorem sysMknod_counted : Triple (fun s => Counted t l s ∧ ParentWritable p path s)
    (sysMknod p path) fun _ => Counted t l := create_put_counted nofun

/-! ## `open` -/

theorem openChecked_counted : Triple (fun s => Counted t (ip :: l) s ∧
    (WantsRead omode → s.Grants (s.ino ip) R_OK) ∧ (WantsWrite omode → s.Grants (s.ino ip) W_OK))
    (openChecked p ip omode) fun _ => Counted t l := by
  refine .reads_bind fun r => .reads_bind fun w => .ite (fun hc => ?_) fun _ =>
    .ite (fun hc => ?_) fun _ => (openAlloc_ledger .refs).pre fun s h => h.1.1.1
  · rintro s a s' ⟨⟨⟨-, hr, -⟩, rfl⟩, -⟩ -
    exact absurd (hr hc.1) (of_decide_eq_false hc.2)
  · rintro s a s' ⟨⟨⟨-, -, hw⟩, -⟩, rfl⟩ -
    exact absurd (hw hc.1) (of_decide_eq_false hc.2)

theorem sysOpen_counted : Triple (fun s => Counted t l s ∧ OpenGranted p path omode s)
    (sysOpen p path omode) fun _ => Counted t l := by
  intro s fd s' ⟨h, hp, ho⟩ hrun
  by_cases hc : omode &&& O_CREATE ≠ 0
  · simp only [sysOpen, if_pos hc, bind_eq_some] at hrun
    obtain ⟨r, t, hcreate, hrun⟩ := hrun
    have ht := create_counted hc h (hp hc) (fun x hx ip hip hf hfile hcnt => by
      exact (ho x hx ip hip (by rwa [Tested, if_pos hc])).1 hc hcnt) hcreate
    cases r with
    | none =>
      obtain ⟨-, rfl⟩ := pure_eq_some.mp hrun
      exact ht
    | some ip =>
      refine openChecked_counted _ _ _ ⟨ht, ?_⟩ hrun
      obtain ⟨dp, name, s₁, s₂, s₃, hn, hl, hcase⟩ := create_eq_some hcreate
      rcases hcase with ⟨ip', off, s₄, hd, hu, hold⟩ | ⟨-, hnew⟩
      · obtain ⟨rfl, hl', -, hfile, -⟩ := createOld_eq_some.mp hold
        have htarget := (target_create hc).mpr ⟨_, _, _, _, _, _, _, hn, hl, hd, hu, hl'⟩
        exact (ho _ htarget _ rfl (by rwa [Tested, if_pos hc])).2
      · simp only [State.Grants, createNew_grants hnew]
        exact ⟨fun _ => by decide, fun _ => by decide⟩
  · simp only [sysOpen, if_neg hc, bind_eq_some] at hrun
    obtain ⟨r, s₁, hn, hrun⟩ := hrun
    have h₁ := namei_ledger .refs _ _ _ h hn
    cases r with
    | none =>
      obtain ⟨-, rfl⟩ := pure_eq_some.mp hrun
      exact h₁
    | some ip =>
      simp only [bind_eq_some, reads_eq_some] at hrun
      obtain ⟨_, t, hl, _, _, ⟨rfl, rfl⟩, hrun⟩ := hrun
      have ht := ilock_counted _ _ _ h₁ hl
      split at hrun
      · simp only [bind_eq_some, pure_eq_some] at hrun
        obtain ⟨_, _, hu, -, rfl⟩ := hrun
        exact iunlockput_counted _ _ _ ht hu
      · next hdir =>
        refine openChecked_counted _ _ _ ⟨ht, ?_⟩ hrun
        refine (ho _ ((target_namei hc).mpr ⟨s₁, hn, hl⟩) _ rfl ?_).2
        rw [Tested, if_neg hc]
        exact fun hd => by_contra fun hne => hdir ⟨hd, hne⟩

/-! ## `chdir` and `chmod` -/

theorem sysChdir_counted (hl : Live (t.proc p).state) :
    Triple (fun s => Counted t l s ∧ ChdirGranted p path s) (sysChdir p path)
      fun _ => Counted t l := by
  refine .bind ((namei_ledger .refs).and .of_wlp) fun r => ?_
  cases r with
  | none => exact .pure fun _ => And.left
  | some ip =>
    refine .bind ((ilock_counted.and (ilock_ino fun user st => st.type = some .T_DIR →
      checkmod user st &&& X_OK ≠ 0)).pre (fun s h => ⟨h.1, h.2 ip rfl⟩)) fun _ => ?_
    refine .reads_bind fun st => .ite (fun _ => ?_) fun hdir => ?_
    · refine .bind (iunlockput_counted.pre (fun s h => h.1.1)) fun _ => ?_
      exact .pure fun _ => id
    refine (Granted.bind (P := Counted t (ip :: l)) (.ite nofun fun _ => ?_)).pre
      (fun s h => ⟨h.1.1, h.1.2 (h.2 ▸ not_not.mp hdir)⟩)
    refine .bind iunlock_keeps fun _ => ?_
    refine .bind (putCwd_ledger .refs (v := some ip) fun _ => hl) fun _ => ?_
    exact .bind_pure (.writes fun _ => id)

/-- What follows a `namei` that finds nothing does not matter. -/
theorem Unfound.bind {α : Type} {k : Option Ip → Kernel α} {R : α → State → Prop}
    (h : Triple (Counted t l) (k none) R) :
    Triple (fun s => Counted t l s ∧ Unfound p path s) (namei p path >>= k) R := by
  refine .bind ((namei_ledger .refs).and .of_wlp) fun r => ?_
  cases r with
  | none => exact h.pre fun _ => And.left
  | some ip => exact fun _ _ _ h => nomatch h.2

theorem sysChmod_counted {mode : UInt32} : Triple (fun s => Counted t l s ∧ Unfound p path s)
    (sysChmod p path mode) fun _ => Counted t l := Unfound.bind (.pure fun _ => id)

/-! ## Accounts -/

theorem flushUsers_counted :
    Triple (fun s => Counted t l s ∧ OpenGranted p passwdPath O_WRONLY s) (flushUsers p)
      fun _ => Counted t l := by
  refine .bind sysOpen_counted fun fd => ?_
  refine .bind (Q := fun _ => Counted t l) (.writes fun _ h => ⟨h.1, h.2, h.3, h.4⟩) fun _ => ?_
  refine .ite (fun _ => .pure fun _ => id) fun _ => .read fun r => ?_
  rcases r with _ | ⟨fd, f⟩
  · exact .pure fun _ => id
  refine .read fun dev => .ite (fun _ => .pure fun _ => id) fun _ => ?_
  refine .bind (Q := fun _ => Counted t l) (.writes fun _ h => h.setOfile) fun _ => ?_
  refine .bind (fileclose_ledger .refs) fun _ => ?_
  exact .bind_pure (.writes fun _ h => ⟨h.1, h.2, h.3, h.4⟩)

theorem sysAddUser_counted {username password : Users.Str} :
    Triple (fun s => Counted t l s ∧ AddUserGranted p username password s)
      (sysAddUser p username password) fun _ => Counted t l := by
  refine .reads_bind fun lt => .ite (fun _ => .pure fun s h => h.1.1) fun hacc => ?_
  refine .bind (Q := fun _ s => (Counted t l s ∧ OpenGranted p passwdPath O_WRONLY s) ∧
    wlp (flushUsers p) (fun ok s => ok = true → if lt.userCnt + 1 > 1 then
      ParentWritable p username s ∧ wlp (mkdir p username) (fun _ => Unfound p username) s
      else Unfound p username s) s) (.writes ?_) fun _ => ?_
  · rintro s ⟨⟨h, hg⟩, rfl⟩
    obtain ⟨hopen, hflush⟩ := hg (not_not.mp hacc)
    exact ⟨⟨⟨h.1, h.2, h.3, h.4⟩, hopen⟩, hflush⟩
  refine .bind (flushUsers_counted.and .of_wlp) fun ok => ?_
  refine .ite (fun _ => .pure fun _ => And.left) fun hok => .ite (fun hcnt => ?_) fun hcnt => ?_
  · refine .bind ((mkdir_counted.and .of_wlp).pre (fun s h => ?_)) fun _ =>
      Unfound.bind (.pure fun _ => id)
    have := h.2 (by simpa using hok)
    rw [if_pos hcnt] at this
    exact ⟨⟨h.1, this.1⟩, this.2⟩
  · refine .pre (Unfound.bind (t := t) (l := l) (R := fun _ => Counted t l) (.pure fun _ => id))
      (fun s h => ?_)
    have := h.2 (by simpa using hok)
    rw [if_neg hcnt] at this
    exact ⟨h.1, this⟩

theorem sysDeleteUser_counted {username : Users.Str} : Triple (fun s => Counted t l s ∧
    ∀ found ∈ deletes s.ltable username, OpenGranted p passwdPath O_WRONLY
      { s with ltable := Users.remove s.ltable found })
    (sysDeleteUser p username) fun _ => Counted t l := by
  refine .reads_bind fun lt => ?_
  cases hd : deletes lt username with
  | none => exact .pure fun s h => h.1.1
  | some found =>
    refine .bind (Q := fun _ s => Counted t l s ∧ OpenGranted p passwdPath O_WRONLY s)
      (.writes ?_) fun _ => ?_
    · rintro s ⟨⟨h, hg⟩, rfl⟩
      exact ⟨⟨h.1, h.2, h.3, h.4⟩, hg found hd⟩
    · exact .bind flushUsers_counted fun _ => .ite (fun _ => .pure fun _ => id) fun _ =>
        .pure fun _ => id

end Xv6.Fs
