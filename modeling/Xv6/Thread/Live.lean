import Xv6.Thread.Frame

/-! # Live slots

Which slots stay live in the operations that processes make for themselves. Only the caller of
`exit` or `thread_exit` and the threads that `exec` clears cease to be live. -/

namespace Xv6.Thread

variable {t : Ptable} {p q : Slot} {v w : Proc}

theorem Woken.live (h : Woken v w) (hv : Live v.state) : Live w.state := by
  rcases h with e | ⟨-, e⟩
  · rwa [e]
  · exact .inr (.inl e)

theorem Effect.live (h : Effect gone t u) (hq : ¬ gone q) (hl : Live (t.proc q).state) :
    Live (u.proc q).state := (h.woken q hq).live hl

theorem live_setProc (hl : Live (t.proc q).state) (hv : q = p → Live v.state) :
    Live ((t.setProc p v).proc q).state :=
  Ptable.forall_setProc (P := fun r w => r = q → Live w.state) (fun e => hv e.symm)
    (fun _ _ e => e ▸ hl) q rfl

theorem not_inUse_not_live (h : ¬ t.InUse p) : ¬ Live (t.proc p).state := by
  rw [Ptable.InUse, not_not] at h
  rw [h]
  decide

/-! ## Creation -/

theorem Idle.live (h : Idle t u) (hl : Live (t.proc q).state) : Live (u.proc q).state := by
  have hq : t.InUse q := by_contra fun hn => not_inUse_not_live hn hl
  rwa [h.state q hq]

/-- The slot of a new process or thread was not live. -/
theorem allocproc_not_live (h : (allocproc t kalloc).1 = some np) : ¬ Live (t.proc np).state :=
  not_inUse_not_live (allocproc_some (u := (allocproc t kalloc).2) (Prod.ext h rfl)).free

theorem Allocated.live (h : Allocated np t u) (hl : Live (t.proc q).state) :
    q ≠ np ∧ Live (u.proc q).state := by
  have hq : q ≠ np := fun e => not_inUse_not_live h.free (e ▸ hl)
  exact ⟨hq, by rwa [h.others q hq]⟩

theorem fork_live (hl : Live (t.proc q).state) :
    Live ((fork t p kalloc copyuvm).2.proc q).state := by
  unfold fork
  split
  · next u hu => exact (allocproc_none hu).live hl
  · next np u hu =>
    obtain ⟨hq, hl⟩ := (allocproc_some hu).live hl
    split
    · exact live_setProc hl fun e => absurd e hq
    · exact live_setProc hl fun e => absurd e hq

theorem fork_new_live (h : (allocproc t kalloc).1 = some np) :
    Live ((fork t p kalloc true).2.proc np).state := by
  have ha : allocproc t kalloc = (some np, (allocproc t kalloc).2) := Prod.ext h rfl
  rw [fork, ha]
  simp [Live]

theorem threadCreate_live (hl : Live (t.proc q).state) :
    Live ((threadCreate t p kalloc allocuvm).tab.proc q).state := by
  unfold threadCreate
  split
  · next u hu => exact (allocproc_none hu).live hl
  · next np u hu =>
    obtain ⟨hq, hl⟩ := (allocproc_some hu).live hl
    rwa [(threadInit_other hq).2]

theorem threadCreate_new_live (h : (allocproc t kalloc).1 = some np) :
    Live ((threadCreate t p kalloc true).tab.proc np).state := by
  have ha : allocproc t kalloc = (some np, (allocproc t kalloc).2) := Prod.ext h rfl
  rw [threadCreate, ha]
  simp [threadInit, Live]

/-! ## Exit -/

theorem zombie_live (h : Quiet t u) (hq : q ≠ p) (hl : Live (t.proc q).state) :
    Live ((u.setState p .ZOMBIE).proc q).state :=
  live_setProc (h.live id hl) fun e => absurd e hq

theorem threadExit_live (hq : q ≠ p) (hl : Live (t.proc q).state) :
    Live ((threadExit t p retval).proc q).state := by
  obtain ⟨u, hu, e⟩ := threadExit_eq t p retval
  exact e ▸ zombie_live hu hq hl

theorem exitRest_live (hq : q ≠ p) (hl : Live (t.proc q).state) :
    Live ((exitRest t p).proc q).state := by
  obtain ⟨u, hu, e⟩ := exitRest_eq t p
  exact e ▸ zombie_live hu hq hl

theorem clearSubthreads_live (hl : Live (t.proc q).state) :
    Live ((clearSubthreads t p).2.proc q).state := by
  refine clearSubthreads_induction (P := fun u => Live (u.proc q).state) hl (fun u r hl hz => ?_)
    fun u r hl => ?_
  · refine live_setProc hl ?_
    rintro rfl
    rw [hz] at hl
    exact absurd hl (by decide)
  · refine Effect.live .wakeup1 id (live_setProc hl ?_)
    rintro rfl
    exact hl

/-- The table with which `exit` goes on. -/
theorem clearForExit_live (hl : Live (t.proc q).state) : Live
    ((if (t.proc p).tid = 0 then clearSubthreads t p else (0, t)).2.proc q).state := by
  split
  · exact clearSubthreads_live hl
  · exact hl

theorem sleep_live (hl : Live (t.proc q).state) :
    Live ((sleep t p chan k).proc q).state := live_setProc hl fun _ => .inl rfl

/-! ## `exec` -/

theorem detach_live (hl : Live (t.proc q).state) : Live ((detach t p).proc q).state := by
  unfold detach
  split
  · refine live_setProc hl ?_
    rintro rfl
    exact hl
  · exact hl

theorem threadClear_live (hq : q ≠ p) (hl : Live (t.proc q).state) :
    Live ((threadClear (reparent t p) p).proc q).state :=
  live_setProc (Effect.reparent.live id hl) fun e => absurd e hq

theorem freevm_proc (h : freevm t g = some u) : u.proc = t.proc := by
  cases g with
  | none => cases h
  | some g => cases h; rfl

theorem execLoad_live (h : execLoad t p e = some (r, u)) (hl : Live (t.proc q).state) :
    Live (u.proc q).state := by
  cases e with
  | early | bad => cases h; exact hl
  | ok sz =>
    obtain ⟨w, hw, ⟨⟩⟩ := Option.map_eq_some_iff.mp h
    rw [freevm_proc hw]
    refine live_setProc hl ?_
    rintro rfl
    exact hl

end Xv6.Thread
