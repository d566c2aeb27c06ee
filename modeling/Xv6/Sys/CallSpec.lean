import Xv6.Sys.FileSpec
import Xv6.Sys.Walk

/-! # The steps of the other calls -/

namespace Xv6.Sys

open Fault Holding Thread
open Fs (Ip Name NFILE NOFILE W_OK elems)

variable {p q : Slot} {m : Mode} {c : Config} {R : Multiset Res} {s : State} {ip : Ip} {path : Name}

/-! ## Links -/

theorem linkBad_at : Triple (Blame p c) (At p m c ({.ref .plain ip} + ({.op} + R))) (linkBad p ip)
    fun _ => At p m c R :=
  .bind ilock_at fun _ => .bind addLinks_at fun _ => putReturn_at

theorem linkEntry_at (hk : k.Allows m) :
    Triple (Blame p c) (At p m c ({.ref k dp} + ({.ref .plain ip} + ({.op} + R))))
      (linkEntry p ip dp name) fun _ => At p m c R := by
  refine .bind ilock_at fun _ => .read fun inum => ?_
  refine .bind (perm (add_left_comm ..) (dirlink_at hk)) fun r => ?_
  refine .ite (fun _ => ?_) fun _ => ?_
  · exact .bind (perm (add_left_comm ..) iunlockput_at) fun _ => .bind iput_at fun _ => return_at
  · exact .bind (perm (add_left_comm ..) iunlockput_at) fun _ => linkBad_at

theorem sysLink_at : Triple (Blame p c) (At p .link c R) (sysLink p old new) fun _ =>
    At p .link c R := by
  refine .bind beginOp_at fun _ => .bind namei_at fun r => ?_
  cases r with
  | none => exact perm (zero_add _) return_at
  | some ip =>
    refine .bind ilock_at fun _ => .read fun st => .ite (fun _ => ?_) fun _ => ?_
    · exact putReturn_at
    · refine .bind addLinks_at fun _ => .bind iunlock_at fun _ => .bind nameiparent_at fun r => ?_
      cases r with
      | none => exact perm (zero_add _) linkBad_at
      | some r => exact linkEntry_at (.inr rfl)

/-! ### The directory that `link` changes -/

/-- The directory in which `link` makes an entry. -/
def State.linksIn (s : State) (p : Slot) (old new : Name) : Option Nat :=
  if ∃ i ∈ s.finds p old false, (s.inode i).type ≠ some .T_DIR then
    (s.finds p new true).filter fun d =>
      (s.inode d).lookup ((elems new).getLast?.getD []) = none
  else none

/-- The change of an entry of a directory, as it is recorded. -/
def State.dirWrite (s : State) (d : Nat) : DirWrite := ⟨d, decide (s.Grants (s.inode d) W_OK)⟩

/-- A call has changed an entry of each of the directories. -/
def AtLinked (p : Slot) (c : Config) (R : Multiset Res) (ds : Option Nat) (s : State) : Prop :=
  At p .link c R s ∧ s.dirWrites = c.2.dirWrites ++ ds.toList.map c.2.dirWrite

theorem Similar.linked (hs : Similar c s) (h : At p .link c R s) : AtLinked p c R none s :=
  ⟨h, by simp [hs.dirWrites]⟩

theorem endOp_linked {r : Int} : Triple (Blame p c)
    (fun s => At p .link c ({.op} + R) s ∧ Similar c s) (do endOp; pure r) fun _ =>
      AtLinked p c R none :=
  .bind_pure (.writes fun _ h => h.2.setOutstanding.linked (h.1.lock .endOp))

theorem iput_similar : Triple (Blame p c) (fun s => At p m c ({.ref k ip} + R) s ∧ Similar c s)
    (iput p ip) fun _ s => At p m c R s ∧ Similar c s :=
  iput_rule (fun _ _ _ => blame_of rfl) fun _ h _ => ⟨h.1.cache .put, h.2.put h.1⟩

theorem iunlockput_similar : Triple (Blame p c)
    (fun s => At p m c ({.lock ip} + ({.ref k ip} + R)) s ∧ Similar c s) (iunlockput p ip)
    fun _ s => At p m c R s ∧ Similar c s :=
  .bind (iunlock_rule (fun _ _ _ => blame_of rfl) fun _ h _ _ =>
    ⟨h.1.lock .unlock, h.2.setLock⟩) fun _ => iput_similar

theorem linkBad_linked : Triple (Blame p c)
    (fun s => At p .link c ({.ref .plain ip} + ({.op} + R)) s ∧ Similar c s) (linkBad p ip)
    fun _ => AtLinked p c R none := by
  refine Triple.pre (P := fun s => ∃ i, At p .link c ({.ref .plain ip} + ({.op} + R)) s ∧
    Similar c s ∧ (s.icache ip).inum = i) (.exists fun i => .bind ilock_walked fun _ => ?_)
    fun s h => ⟨_, h.1, h.2, rfl⟩
  refine .bind (.writes fun s h => ?_) fun _ => .bind (iunlockput_similar (k := .plain)) fun _ =>
    endOp_linked
  exact ⟨h.1.cache (.links _), h.2.1.links⟩

/-- What `dirlink` has done in the directory `d` in the course of `link`. -/
def AtDirlinked (p : Slot) (c : Config) (R : Multiset Res) (d : Nat) (name : Name) :
    Bool → State → Prop
  | true, s => (c.2.inode d).lookup name = none ∧ At p .link c R s ∧
    s.dirWrites = c.2.dirWrites ++ [c.2.dirWrite d]
  | false, s => (c.2.inode d).lookup name ≠ none ∧ At p .link c R s ∧ Similar c s

theorem dirlink_linked : Triple (Blame p c) (fun s => (s.ino dp).type = some .T_DIR ∧
      At p .link c ({.lock dp} + ({.ref .plain dp} + R)) s ∧ Similar c s ∧ (s.icache dp).inum = d)
    (dirlink p dp name inum) (AtDirlinked p c ({.lock dp} + ({.ref .plain dp} + R)) d name) := by
  refine .bind dirlookup_walked fun r => ?_
  cases r with
  | some x =>
    refine .of_and fun hoff => .bind (iput_similar.pre fun s h => ⟨h.1, h.2.1⟩) fun _ =>
      .pure fun s h => ⟨?_, h⟩
    simp [hoff]
  | none =>
    refine .of_and fun hoff => .read fun es => .ite (fun _ => ?_) fun _ => .panic (blame_of rfl)
    refine .bind (.writes (Q := fun _ s => At p .link c ({.lock dp} + ({.ref .plain dp} + R)) s ∧
      s.dirWrites = c.2.dirWrites ++ [c.2.dirWrite d]) ?_) fun _ => .pure fun s h => ⟨hoff, h⟩
    rintro s ⟨ht, h, hs, rfl⟩
    rw [add_left_comm] at h ⊢
    refine ⟨h.cache (.entries es (.inr rfl)), ?_⟩
    simp [State.setEntries, State.setDir, State.dirWrite, hs.dirWrites, hs.grants_dir ht]

theorem linkEntry_linked (hS : Sound c) (hd : (c.2.inode d).type = some .T_DIR) :
    Triple (Blame p c) (fun s => At p .link c ({.ref .plain dp} + ({.ref .plain ip} +
      ({.op} + R))) s ∧ Similar c s ∧ (s.icache dp).inum = d) (linkEntry p ip dp name) fun _ =>
        AtLinked p c R (if (c.2.inode d).lookup name = none then some d else none) := by
  refine .bind ilock_walked fun _ => .read fun inum => .bind
    ((dirlink_linked (R := {.ref .plain ip} + ({.op} + R)) (d := d)).pre ?_) fun r => ?_
  · rintro s ⟨h, hs, rfl, -, ht⟩
    exact ⟨((hs.inode _).resolve_left fun h => ht hS h.1).1.trans hd, h, hs, rfl⟩
  cases r with
  | false =>
    refine .of_and fun hoff => .bind iunlockput_similar fun _ => ?_
    rw [if_neg hoff]
    exact linkBad_linked
  | true =>
    refine .of_and fun hoff => ?_
    rw [if_pos hoff]
    -- nothing is recorded after the entry has been made
    refine (restart_walked (T := R) (K := fun s t => t.dirWrites = s.dirWrites) (fun s h => h.1)
      fun s _ => ?_).post ?_
    · exact .bind iunlockput_similar fun _ => .bind iput_similar fun _ =>
        endOp_linked.post fun _ t h => ⟨h.1, by simpa using h.2⟩
    · rintro _ t ⟨s, h, ht, hs⟩
      exact ⟨ht, hs.trans h.2⟩

theorem sysLink_linked (hS : Sound c) :
    Triple (Blame p c) (fun s => At p .link c R s ∧ Similar c s) (sysLink p old new) fun _ =>
      AtLinked p c R (c.2.linksIn p old new) := by
  refine .bind (.writes (Q := fun _ s => At p .link c ({.op} + R) s ∧ Similar c s) ?_) fun _ =>
    .bind (namei_walked (.inr hS)) fun r => ?_
  · exact fun s h => ⟨h.1.lock .beginOp, h.2.setOutstanding⟩
  cases r with
  | none =>
    refine Triple.pre (P := fun s => c.2.finds p old false = none ∧
      At p .link c ({.op} + R) s ∧ Similar c s) (.of_and fun hi => ?_) ?_
    · have hnone : c.2.linksIn p old new = none := by simp [State.linksIn, hi]
      rw [hnone]
      exact endOp_linked
    · rintro s ⟨h, hs, -, hn⟩
      exact ⟨hn rfl hS, by simpa [cwdHeld] using h, hs⟩
  | some ip =>
    refine Triple.pre (P := fun s => ∃ i, c.2.finds p old false = some i ∧
      At p .link c ({.ref .plain ip} + ({.op} + R)) s ∧ Similar c s ∧ (s.icache ip).inum = i)
      (.exists fun i => .of_and fun hi => .bind ilock_walked fun _ => .reads_bind fun st => ?_)
      fun s h => ⟨_, h.2.2.1 ip rfl, h.1, h.2.1, rfl⟩
    refine Triple.pre (P := fun s => (c.2.inode i).type = st.type ∧
      At p .link c ({.lock ip} + ({.ref .plain ip} + ({.op} + R))) s ∧ Similar c s)
      (.of_and fun ht => .ite (fun hd => ?_) fun hd => ?_) ?_
    · have hnone : c.2.linksIn p old new = none := by simp [State.linksIn, hi, ht, hd]
      rw [hnone]
      exact .bind iunlockput_similar fun _ => endOp_linked
    · have hsome : c.2.linksIn p old new = (c.2.finds p new true).filter fun d =>
          (c.2.inode d).lookup ((elems new).getLast?.getD []) = none := by
        simp [State.linksIn, hi, ht, hd]
      rw [hsome]
      refine .bind (.writes (Q := fun _ s =>
        At p .link c ({.lock ip} + ({.ref .plain ip} + ({.op} + R))) s ∧ Similar c s) fun s h =>
        ⟨h.1.cache (.links _), h.2.links⟩) fun _ => ?_
      refine .bind (iunlock_rule (Q := fun _ s =>
        At p .link c ({.ref .plain ip} + ({.op} + R)) s ∧ Similar c s)
        (fun _ _ _ => blame_of rfl) fun s h _ _ => ⟨h.1.lock .unlock, h.2.setLock⟩)
        fun _ => .bind (namex_walked (.inr hS)) fun r => ?_
      cases r with
      | none =>
        refine Triple.pre (P := fun s => c.2.finds p new true = none ∧
          At p .link c ({.ref .plain ip} + ({.op} + R)) s ∧ Similar c s) (.of_and fun hj => ?_) ?_
        · rw [hj]
          exact linkBad_linked
        · rintro s ⟨h, hs, -, hn⟩
          exact ⟨hn rfl hS, by simpa [cwdHeld] using h, hs⟩
      | some r =>
        refine Triple.pre (P := fun s => ∃ d, (c.2.finds p new true = some d ∧
          (elems new).getLast? = some r.2 ∧ (c.2.inode d).type = some .T_DIR) ∧
          At p .link c ({.ref .plain r.1} + ({.ref .plain ip} + ({.op} + R))) s ∧ Similar c s ∧
            (s.icache r.1).inum = d) (.exists fun d => .of_and ?_) ?_
        · rintro ⟨hj, hname, hdir⟩
          rw [hj, hname]
          exact (linkEntry_linked hS hdir).post fun _ s h => by simpa [Option.filter] using h
        · rintro s ⟨h, hs, hr, -⟩
          obtain ⟨hj, hdir⟩ := hr r rfl
          exact ⟨_, ⟨hj, (hdir rfl).2, (hs.dir (hdir rfl).1).1⟩, h, hs, rfl⟩
    · rintro s ⟨⟨h, hs, rfl, -, ht⟩, rfl⟩
      exact ⟨((hs.inode _).resolve_left fun h => ht hS h.1).1.symm, h, hs⟩

theorem unlinkEntry_at :
    Triple (Blame p c) (At p m c ({.lock dp} + ({.ref .write dp} + ({.op} + R))))
      (unlinkEntry p dp name) fun _ => At p m c R := by
  refine .bind dirlookup_at fun r => ?_
  cases r with
  | none => exact perm (zero_add _) putReturn_at
  | some r =>
    refine .bind ilock_at fun _ => .read fun st => .ite (fun _ => .panic (blame_of rfl))
      fun _ => .ite (fun _ => .bind iunlockput_at fun _ => putReturn_at) fun _ => ?_
    have e : ({.lock r.1} : Multiset Res) + ({.ref .plain r.1} + ({.lock dp} +
        ({.ref .write dp} + ({.op} + R)))) = {.ref .write dp} + ({.lock dp} +
        ({.lock r.1} + ({.ref .plain r.1} + ({.op} + R)))) := by ac_rfl
    have hend : Triple (Blame p c) (At p m c ({.ref .write dp} + ({.lock dp} +
        ({.lock r.1} + ({.ref .plain r.1} + ({.op} + R))))))
        (do iunlockput p dp; addLinks r.1 (-1); iunlockput p r.1; endOp; pure (0 : Int))
        fun _ => At p m c R :=
      .bind (perm (add_left_comm ..) iunlockput_at) fun _ => .bind addLinks_at fun _ =>
        putReturn_at
    refine perm e (.bind (.writes (Q := fun _ => At p m c ({.ref .write dp} + ({.lock dp} +
      ({.lock r.1} + ({.ref .plain r.1} + ({.op} + R)))))) fun s h =>
      At.cache h (.entries _ (.inl rfl))) fun _ => ?_)
    exact .ite (fun _ => .bind addLinks_at fun _ => hend) fun _ => hend

theorem sysUnlink_at : Triple (Blame p c) (At p m c R) (sysUnlink p path) fun _ => At p m c R := by
  refine .bind beginOp_at fun _ => .bind nameiparent_at fun r => ?_
  cases r with
  | none => exact perm (zero_add _) return_at
  | some r =>
    refine .bind ilock_at fun _ => .reads_bind fun ok => .ite (fun _ => ?_) fun hok =>
      .ite (fun _ => ?_) fun _ => ?_
    · exact leakReturn_at.pre fun _ => And.left
    · exact putReturn_at.pre fun _ => And.left
    · refine unlinkEntry_at.pre ?_
      rintro s ⟨h, rfl⟩
      rw [add_left_comm]
      change At p m c ({.lock r.1} + ({.ref .plain r.1} + ({.op} + R))) s at h
      rw [add_left_comm] at h
      exact h.cache (.grant (by simpa using hok))

/-! ## `chdir` and `chmod` -/

/-- A current directory can be dropped after it has been replaced. -/
theorem State.put_setCwd : (s.put ip).setCwd q v = (s.setCwd q v).put ip := by
  by_cases hf : s.Frees ip
  · have hf' : (s.setCwd q v).Frees ip := hf
    simp only [State.put, if_pos hf, if_pos hf']
    rfl
  · have hf' : ¬ (s.setCwd q v).Frees ip := hf
    simp only [State.put, if_neg hf, if_neg hf']
    rfl

/-- The directory is dropped before the pointer is set. -/
theorem putCwd_at {C : (Slot → Fin NOFILE → Option (Fin NFILE)) → Prop}
    (h : ∀ s, P s → At p m c (cwdHeld (s.cwd q) + R) (s.setCwd q v) ∧ C s.ofile) :
    Triple (Blame p c) P (putCwd p q) fun _ s => At p m c R (s.setCwd q v) ∧ C s.ofile := by
  refine .reads_bind fun cwd => ?_
  cases cwd with
  | none =>
    refine .pure fun s hs => ?_
    obtain ⟨hat, hC⟩ := h s hs.1
    rw [hs.2] at hat
    exact ⟨by simpa [cwdHeld] using hat, hC⟩
  | some o =>
    refine iput_rule (fun _ _ _ => blame_of rfl) fun s hs _ => ?_
    obtain ⟨hat, hC⟩ := h s hs.1
    rw [hs.2] at hat
    rw [State.put_setCwd, State.put_ofile]
    exact ⟨hat.cache .put, hC⟩

theorem sysChdir_at : Triple (Blame p c) (At p m c R) (sysChdir p path) fun _ => At p m c R := by
  refine .bind beginOp_at fun _ => .bind namei_at fun r => ?_
  cases r with
  | none => exact perm (zero_add _) return_at
  | some ip =>
    refine .bind ilock_at fun _ => .read fun st => .read fun ok => .ite (fun _ => ?_) fun _ =>
      .ite (fun _ => ?_) fun _ => ?_
    · exact putReturn_at
    · exact leakReturn_at
    · refine .bind iunlock_at fun _ => .bind (putCwd_at (v := some ip) (R := {.op} + R)
        (C := fun _ => True) fun s h => ⟨h.cache (.cwdSet p), trivial⟩) fun _ => ?_
      refine .bind (.writes (Q := fun _ s => At p m c R (s.setCwd p (some ip))) fun s h =>
        h.1.lock .endOp) fun _ => ?_
      exact .bind_pure (.writes fun s h => h)

theorem sysChmod_at (hR : NoWrite R) :
    Triple (Blame p c) (At p m c R) (sysChmod p path mode) fun _ => At p m c R := by
  refine .bind beginOp_at fun _ => .bind namei_at fun r => ?_
  cases r with
  | none => exact perm (zero_add _) return_at
  | some ip =>
    refine .bind ilock_at fun _ => .reads_bind fun st => .reads_bind fun curUser => ?_
    refine .ite (fun _ => leakReturn_at.pre (fun _ h => h.1.1)) fun _ =>
      .ite (fun _ => leakReturn_at.pre (fun _ h => h.1.1)) fun hu => ?_
    refine .bind (.writes ?_) fun _ => leakReturn_at (k := .plain)
    rintro s ⟨⟨h, rfl⟩, rfl⟩
    refine h.cache (.perm mode ?_ ?_)
    · by_contra hn
      rw [not_or] at hn
      exact hu hn
    · intro ip'
      simpa [cwdHeld] using hR ip'

end Xv6.Sys
