import Xv6.Sys.FileRefs
import Xv6.Sys.Rules

/-! # The steps of the inode layer

For each function, what a call holds before it and after it. `At p m c R` says that the steps of a
call of the slot `p` lead from `c` to the state with the resources `R`. A panic of `filedup` or
`fileclose` is blamed on a count that is wrong at the start. -/

namespace Xv6.Sys

open Fault Holding
open Fs (Ip FileType Name)

abbrev At (p : Slot) (m : Mode) (c : Config) (R : Multiset Res) : State → Prop :=
  Held (Micro p m) c R

def Blame (p : Slot) (c : Config) (e : Stop) : Prop :=
  e = .filedup ∨ e = .fileclose → ¬ FilesCounted p c

/-- The panics of `filedup` and `fileclose`. -/
def Stop.countsFiles : Stop → Bool
  | .filedup | .fileclose => true
  | _ => false

theorem blame_of (he : e.countsFiles = false) : Blame p c e := by
  rintro (rfl | rfl) <;> cases he

namespace At

theorem lock (h : At p m c R s) (hs : LockStep (R, s) (R', s')) :
    At p m c R' s' := h.step (.lock hs)

theorem cache (h : At p m c R s) (hs : CacheStep m (R, s) (R', s')) :
    At p m c R' s' := h.step (.cache hs)

theorem file (h : At p m c R s) (hs : FileStep p (R, s) (R', s')) :
    At p m c R' s' := h.step (.file hs)

theorem table (h : At p m c R s) (hs : TableStep p m (R, s) (R', s')) :
    At p m c R' s' := h.step (.table hs)

theorem filesCounted (h : At p m c R s) (hc : FilesCounted p c) : FilesCounted p (R, s) :=
  h.invariant (fun _ _ => FilesCounted.micro) hc

/-- `ilock` takes the lock and reads the inode. -/
theorem locked (h : At p m c R s) (hl : s.lock ip = none)
    (hv : (s.icache ip).valid = true ∨ (s.ino ip).type ≠ none) :
    At p m c ({.lock ip} + R) (s.locked p ip) :=
  (h.lock (.lock _ hl)).cache (.valid hv)

/-- The end of `fileclose`. -/
theorem close (h : At p m c ({.file f} + R) s) (h1 : 1 ≤ (s.file f).ref) :
    At p m c R (s.close f) := by
  unfold State.close
  by_cases hr : (s.file f).ref - 1 > 0
  · rw [if_pos hr]
    exact h.file (.drop (by omega))
  · rw [if_neg hr]
    have hlast := h.file (.last (by omega))
    cases ht : (s.file f).type with
    | FD_INODE ip =>
      rw [ht] at hlast
      exact hlast.cache .put
    | FD_NONE | FD_PIPE => simpa [ht, FileType.held] using hlast

end At

/-! ## Locks and references -/

theorem beginOp_at : Triple (Blame p c) (At p m c R) beginOp fun _ => At p m c ({.op} + R) :=
  .writes fun _ h => h.lock .beginOp

theorem endOp_at : Triple (Blame p c) (At p m c ({.op} + R)) endOp fun _ => At p m c R :=
  .writes fun _ h => h.lock .endOp

theorem ilock_at : Triple (Blame p c) (At p m c R) (ilock p ip) fun _ =>
    At p m c ({.lock ip} + R) :=
  ilock_rule (fun _ _ _ => blame_of rfl) (fun _ _ _ => blame_of rfl)
    (fun _ _ _ _ _ => blame_of rfl) fun _ h _ hl hv => h.locked hl hv

theorem iunlock_at : Triple (Blame p c) (At p m c ({.lock ip} + R)) (iunlock p ip) fun _ =>
    At p m c R :=
  iunlock_rule (fun _ _ _ => blame_of rfl) fun _ h _ _ => h.lock .unlock

theorem iput_at : Triple (Blame p c) (At p m c ({.ref k ip} + R)) (iput p ip) fun _ => At p m c R :=
  iput_rule (fun _ _ _ => blame_of rfl) fun _ h _ => h.cache .put

theorem iunlockput_at : Triple (Blame p c) (At p m c ({.lock ip} + ({.ref k ip} + R)))
    (iunlockput p ip) fun _ => At p m c R := .bind iunlock_at fun _ => iput_at

section Return
variable {α : Type} {r : α}

theorem return_at : Triple (Blame p c) (At p m c ({.op} + R)) (do endOp; pure r) fun _ =>
    At p m c R := .bind_pure endOp_at

theorem putReturn_at : Triple (Blame p c) (At p m c ({.lock ip} + ({.ref k ip} + ({.op} + R))))
    (do iunlockput p ip; endOp; pure r) fun _ => At p m c R :=
  .bind iunlockput_at fun _ => return_at

/-- The reference is not given back. -/
theorem leakReturn_at : Triple (Blame p c) (At p m c ({.lock ip} + ({.ref k ip} + ({.op} + R))))
    (do iunlock p ip; endOp; pure r) fun _ => At p m c R :=
  .bind iunlock_at fun _ => .bind (perm (add_left_comm ..) endOp_at) fun _ =>
    .pure fun _ h => h.cache .leak

end Return

theorem iget_at : Triple (Blame p c) (At p m c R) (iget inum) fun ip =>
    At p m c ({.ref .plain ip} + R) :=
  iget_rule (fun _ _ _ => blame_of rfl) (fun _ _ h hr _ => h.cache (.get (.inl hr)))
    fun _ _ h h0 hn => h.cache (.load h0 hn)

/-! ## Directories -/

theorem dirlookup_at : Triple (Blame p c) (At p m c R) (dirlookup dp name) fun r s =>
    At p m c (cwdHeld (r.map Prod.fst) + R) s :=
  dirlookup_rule (fun _ _ _ => blame_of rfl) (fun _ _ _ => blame_of rfl)
    (fun _ h _ _ => by simpa [cwdHeld] using h)
    (fun _ _ _ h _ _ hr _ => h.cache (.get (.inl hr)))
    fun _ _ _ h _ _ h0 hno => h.cache (.load h0 hno)

theorem dirlink_at (hk : k.Allows m) :
    Triple (Blame p c) (At p m c ({.ref k dp} + R)) (dirlink p dp name inum) fun _ =>
      At p m c ({.ref k dp} + R) := by
  refine .bind dirlookup_at fun r => ?_
  cases r with
  | some r => exact .bind_pure iput_at
  | none =>
    refine .read fun es => .ite (fun _ => ?_) fun _ => .panic (blame_of rfl)
    refine .bind (.writes (Q := fun _ => At p m c ({.ref k dp} + R)) fun s h => ?_) fun _ =>
      .pure fun _ => id
    have h : At p m c ({.ref k dp} + R) s := by simpa [cwdHeld] using h
    exact h.cache (.entries es hk)

theorem mustLink_at (hk : k.Allows m) (he : e = .createDots ∨ e = .createDirlink) :
    Triple (Blame p c) (At p m c ({.ref k dp} + R)) (mustLink p dp name inum e) fun _ =>
      At p m c ({.ref k dp} + R) := by
  refine .bind (dirlink_at hk) fun r => ?_
  cases r with
  | true => exact .pure fun _ => id
  | false => exact .panic (by rcases he with rfl | rfl <;> exact blame_of rfl)

/-! ## Paths -/

theorem namexLoop_at :
    Triple (Blame p c) (At p m c ({.ref .plain ip} + R)) (namexLoop p parent ip names) fun r =>
      At p m c (cwdHeld (r.map Prod.fst) + R) := by
  induction names generalizing ip with
  | nil =>
    refine .ite (fun _ => .bind iput_at fun _ => .pure fun _ h => ?_) fun _ => .pure fun _ h => h
    simpa [cwdHeld] using h
  | cons name names ih =>
    have hput : Triple (Blame p c) (At p m c ({.lock ip} + ({.ref .plain ip} + R)))
        (do iunlockput p ip; pure (none : Option (Ip × Name))) fun r =>
          At p m c (cwdHeld (r.map Prod.fst) + R) :=
      .bind iunlockput_at fun _ => .pure fun _ h => by simpa [cwdHeld] using h
    refine .bind ilock_at fun _ => .read fun d => .read fun pid => .read fun ok => ?_
    refine .ite (fun _ => hput) fun _ => .ite (fun _ => hput) fun _ => .ite (fun _ => ?_)
      fun _ => ?_
    · exact .bind iunlock_at fun _ => .pure fun _ h => h
    · refine .bind dirlookup_at fun r => ?_
      cases r with
      | none => exact perm (by simp [cwdHeld]) hput
      | some r =>
        have e : ({.ref .plain r.1} : Multiset Res) + ({.lock ip} + ({.ref .plain ip} + R)) =
            {.lock ip} + ({.ref .plain ip} + ({.ref .plain r.1} + R)) := by ac_rfl
        exact .bind (perm e iunlockput_at) fun _ => ih

theorem namex_at : Triple (Blame p c) (At p m c R) (namex p path parent) fun r =>
    At p m c (cwdHeld (r.map Prod.fst) + R) := by
  refine .ite (fun _ => .bind iget_at fun ip => namexLoop_at) fun _ => .reads_bind fun cwd => ?_
  cases cwd with
  | some ip =>
    refine .bind (idup_rule (Q := fun r s => r = ip ∧ At p m c ({.ref .plain ip} + R) s) ?_) ?_
    · exact fun s h => ⟨rfl, h.1.cache (.get (.inr ⟨p, h.2⟩))⟩
    · exact fun r => .of_and fun e => e ▸ namexLoop_at
  | none =>
    refine .ite (fun _ => .pure fun s h => ?_) fun _ => .panic (blame_of rfl)
    simpa [cwdHeld] using h.1

theorem namei_at : Triple (Blame p c) (At p m c R) (namei p path) fun r =>
    At p m c (cwdHeld r + R) := .bind namex_at fun _ => .pure fun _ => id

theorem nameiparent_at : Triple (Blame p c) (At p m c R) (nameiparent p path) fun r =>
    At p m c (cwdHeld (r.map Prod.fst) + R) := namex_at

end Xv6.Sys
