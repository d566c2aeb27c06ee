import Xv6.Interleave.Machine
import Xv6.Thread.Live

/-! # What a step does

`Step m a m'` lists the ways in which a step `a` can lead from `m` to `m'`, one for each branch of
the sections, with what the branch has tested. The invariants of the kernel are proved by cases
on it. -/

namespace Xv6.Interleave

open Thread

variable {n : Nat}

/-- The slot that a creation gives back in the step, when it fails. -/
def State.drops (m : State n) : Act n → Option Slot
  | .kalloc c false | .copyuvm c false | .allocuvm c false => (m.cpu c).bind fun p => (m.pc p).new
  | _ => none

inductive Step (m : State n) : Act n → State n → Prop
  | dispatch (hc : m.cpu c = none) (hp : (m.tab.proc p).state = .RUNNABLE) :
    Step m (.dispatch c p)
      { m with tab := Thread.dispatch m.tab p, cpu := Function.update m.cpu c (some p) }
  | yield (hc : m.cpu c = some p) : Step m (.yield c) (m.sched c (Thread.yield m.tab p))
  | wakeup : Step m (.wakeup chan) (m.setTab (wakeup1 m.tab chan))
  | kill : Step m (.kill pid) (m.setTab (Thread.kill m.tab pid))
  | call (hc : m.cpu c = some p) (hp : m.pc p = .user) : Step m (.call c) (m.goto p .call)
  /-- `begin_op`, `end_op`, `acquiresleep` or `releasesleep`. -/
  | hold {a : Act n} {c : Fin n} {p : Slot} {h : Held} (hc : m.cpu c = some p)
    (hp : (m.pc p).files = true) : Step m a (m.setHeld p h)
  | sleep (hc : m.cpu c = some p) (hp : (m.pc p).files = true) :
    Step m (.sleep c chan) (m.sched c (Thread.sleep m.tab p chan .user))
  | ret (hc : m.cpu c = some p) (hp : m.pc p = .call) (hh : m.held p = .nothing) :
    Step m (.ret c) (m.goto p .user)
  | cleariFails (hc : m.cpu c = some p) (hp : m.pc p = .call) :
    Step m (.cleariFails c) (m.goto p .user)
  /-- `allocproc` finds no slot. -/
  | noSlot {a : Act n} : Step m a m
  | fork (hc : m.cpu c = some p) (hp : m.pc p = .user) (ha : allocSlot m.tab = some (np, t)) :
    Step m (.fork c) (((m.setTab t).goto np .user).goto p (.fork np .kalloc))
  | threadCreate (hc : m.cpu c = some p) (hp : m.pc p = .user)
    (ha : allocSlot m.tab = some (np, t)) :
    Step m (.threadCreate c)
      (((m.setTab t).goto np .user).goto p (.threadCreate np ((m.tab.proc p).main.getD p) .kalloc))
  | forkKalloc (hc : m.cpu c = some p) (hp : m.pc p = .fork np .kalloc) :
    Step m (.kalloc c true) (m.goto p (.fork np .copyuvm))
  | createKalloc (hc : m.cpu c = some p) (hp : m.pc p = .threadCreate np main .kalloc) :
    Step m (.kalloc c true) (m.goto p (.threadCreate np main .nextpid))
  /-- `kalloc` or `copyuvm` fails. -/
  | drop {a : Act n} {c : Fin n} {p np : Slot} {v : Proc} (hc : m.cpu c = some p)
    (hp : (m.pc p).new = some np) (hv : v.killed = (m.tab.proc np).killed)
    (ha : m.drops a = some np) : Step m a (m.dropNew p np v)
  | copyuvm (hc : m.cpu c = some p) (hp : m.pc p = .fork np .copyuvm) :
    Step m (.copyuvm c true) ((m.setTab (forkCopied m.tab p np)).goto p (.fork np .runnable))
  | decNextpid (hc : m.cpu c = some p) (hp : m.pc p = .threadCreate np main .nextpid) :
    Step m (.decNextpid c)
      ((m.setTab { m.tab with nextpid := m.tab.nextpid - 1 }).goto p (.threadCreate np main .ids))
  | setIds (hc : m.cpu c = some p) (hp : m.pc p = .threadCreate np main .ids) :
    Step m (.setIds c)
      ((m.setTab (Interleave.setIds m.tab main np)).goto p (.threadCreate np main .allocuvm))
  | allocuvm (hc : m.cpu c = some p) (hp : m.pc p = .threadCreate np main .allocuvm) :
    Step m (.allocuvm c true)
      ((m.setTab (growMain m.tab main np true)).goto p (.threadCreate np main .runnable))
  | allocuvmFails (hc : m.cpu c = some p) (hp : m.pc p = .threadCreate np main .allocuvm) :
    Step m (.allocuvm c false) ((m.setTab (growMain m.tab main np false)).goto p .user)
  | runnable (hc : m.cpu c = some p)
    (hp : m.pc p = .fork np .runnable ∨ m.pc p = .threadCreate np main .runnable) :
    Step m (.runnable c) ((m.setTab (m.tab.setState np .RUNNABLE)).goto p .user)
  | exitCleared (hc : m.cpu c = some p) (hp : m.pc p = .user ∨ m.pc p = .clearSubthreads)
    (hi : m.tab.initproc ≠ some p) (ht : clearSubthreads m.tab p = (0, t))
    (h0 : (m.tab.proc p).tid = 0) : Step m (.exit c) ((m.setTab t).goto p .exit)
  | exitSleeps {c : Fin n} {p : Slot} {t : Ptable} {k : Nat} (hc : m.cpu c = some p)
    (hp : m.pc p = .user ∨ m.pc p = .clearSubthreads) (ht : clearSubthreads m.tab p = (k + 1, t))
    (h0 : (m.tab.proc p).tid = 0) :
    Step m (.exit c) ((m.sched c (Thread.sleep t p (some (.proc p)) .exit)).goto p .clearSubthreads)
  | exitThread (hc : m.cpu c = some p) (hp : m.pc p = .user ∨ m.pc p = .clearSubthreads)
    (hi : m.tab.initproc ≠ some p) : Step m (.exit c) (m.goto p .exit)
  | exitEnd (hc : m.cpu c = some p) (hp : m.pc p = .exit) (hh : m.held p = .nothing) :
    Step m (.exitEnd c) (m.sched c (exitRest m.tab p))
  | threadExit (hc : m.cpu c = some p) (hp : m.pc p = .user) (hi : m.tab.initproc ≠ some p) :
    Step m (.threadExit c retval)
      ((m.setTab (m.tab.setProc p { m.tab.proc p with retval := retval })).goto p .threadExit)
  | threadExitEnd (hc : m.cpu c = some p) (hp : m.pc p = .threadExit) (hh : m.held p = .nothing) :
    Step m (.threadExitEnd c) (m.sched c (Thread.threadExit m.tab p (m.tab.proc p).retval))
  | waitReaps (hc : m.cpu c = some p) (hp : m.pc p = .user ∨ m.pc p = .wait)
    (hq : (m.tab.proc q).state = .ZOMBIE) (ht : reap m.tab q = some t) :
    Step m (.wait c) ((m.setTab t).goto p .user)
  | waitFails (hc : m.cpu c = some p) (hp : m.pc p = .user ∨ m.pc p = .wait) :
    Step m (.wait c) (m.goto p .user)
  | waitSleeps (hc : m.cpu c = some p) (hp : m.pc p = .user ∨ m.pc p = .wait)
    (hz : ∀ q, (m.tab.proc q).parent = some p → (m.tab.proc q).state ≠ .ZOMBIE) :
    Step m (.wait c) ((m.sched c (Thread.sleep m.tab p (some (.proc p)) .wait)).goto p .wait)
  | joinReaps {c : Fin n} {p q : Slot} {thread : Int} (hc : m.cpu c = some p)
    (hp : m.pc p = .user ∨ m.pc p = .threadJoin thread) (hq : (m.tab.proc q).state = .ZOMBIE) :
    Step m (.threadJoin c thread) ((m.setTab (threadClear m.tab q)).goto p .user)
  | joinFails (hc : m.cpu c = some p) (hp : m.pc p = .user ∨ m.pc p = .threadJoin thread) :
    Step m (.threadJoin c thread) (m.goto p .user)
  | joinSleeps (hc : m.cpu c = some p) (hp : m.pc p = .user ∨ m.pc p = .threadJoin thread)
    (hz : ∀ q, (m.tab.proc q).tid = thread → (m.tab.proc q).state ≠ .ZOMBIE) :
    Step m (.threadJoin c thread)
      ((m.sched c (Thread.sleep m.tab p (some (.proc p)) (.threadJoin thread))).goto p
        (.threadJoin thread))
  | exec (hc : m.cpu c = some p) (hp : m.pc p = .user) :
    Step m (.exec c) ((m.setTab (detach m.tab p)).goto p (.killThreads (m.tab.proc p).pid))
  | killFirst (hc : m.cpu c = some p) (hp : m.pc p = .killThreads pid) :
    Step m (.killThreads c) (m.killFrom p pid 0)
  | killThread (hc : m.cpu c = some p) (hp : m.pc p = .killThread pid q)
    (hh : m.held p = .nothing) :
    Step m (.killThreads c) ((m.setTab (threadClear m.tab q)).killFrom p pid (q.val + 1))
  | execEnd (hc : m.cpu c = some p) (hp : m.pc p = .exec) (hh : m.held p = .nothing)
    (ht : execLoad m.tab p e = some (r, t)) : Step m (.execEnd c e) ((m.setTab t).goto p .user)

namespace Step

variable {m m' : State n} {a : Act n} {c : Fin n} {p : Slot}

theorem alloc_cases {k : Slot → Point} {P : State n → Prop} (hn : P m)
    (ha : ∀ np t, allocSlot m.tab = some (np, t) →
      P (((m.setTab t).goto np .user).goto p (k np))) : P (m.alloc p k) := by
  unfold State.alloc
  split
  · exact hn
  · next np t h => exact ha np t h

theorem exit_cases (hc : m.cpu c = some p) (hp : m.pc p = .user ∨ m.pc p = .clearSubthreads)
    (hi : m.tab.initproc ≠ some p) (ht : clearSubthreads m.tab p = (k, t))
    (h0 : (m.tab.proc p).tid = 0) (h : (match (k, t) with
      | (0, t) => some ((m.setTab t).goto p .exit)
      | (_ + 1, t) =>
        some ((m.sched c (Thread.sleep t p (some (.proc p)) .exit)).goto p .clearSubthreads)) =
      some m') : Step m (.exit c) m' := by
  cases k with
  | zero =>
    cases h
    exact .exitCleared hc hp hi ht h0
  | succ k =>
    cases h
    exact .exitSleeps hc hp ht h0

theorem wait_cases (hc : m.cpu c = some p) (hp : m.pc p = .user ∨ m.pc p = .wait)
    (ho : Thread.wait m.tab p = some o) : Step m (.wait c) (m.after c p .wait o) := by
  obtain ⟨q, u, hq, -, hu, rfl⟩ | rfl | ⟨hz, rfl⟩ := Thread.wait_cases ho
  · exact .waitReaps hc hp hq.2 hu
  · exact .waitFails hc hp
  · exact .waitSleeps hc hp hz

theorem join_cases (hc : m.cpu c = some p) (hp : m.pc p = .user ∨ m.pc p = .threadJoin thread) :
    Step m (.threadJoin c thread)
      (m.after c p (.threadJoin thread) (Thread.threadJoin m.tab p thread)) := by
  obtain ⟨q, hq, -, e⟩ | e | ⟨hz, e⟩ := threadJoin_cases m.tab p thread <;> rw [e]
  · exact .joinReaps hc hp hq.2
  · exact .joinFails hc hp
  · exact .joinSleeps hc hp hz

/-- The steps of a thread on a CPU under a condition. -/
theorem bind_ite_eq_some {β : Type} {b : α → Prop} [DecidablePred b] {f : α → Option β} {y : β} :
    (o.bind fun x => if b x then f x else none) = some y ↔
      ∃ x, o = some x ∧ b x ∧ f x = some y := by
  simp only [Option.bind_eq_some_iff, Option.ite_none_right_eq_some]

theorem of_next (h : m.next a = some m') : Step m a m' := by
  cases a with
  | dispatch c p =>
    obtain ⟨⟨hc, hp⟩, ⟨⟩⟩ := Option.ite_none_right_eq_some.mp h
    exact .dispatch hc hp
  | yield c =>
    obtain ⟨p, hc, -, ⟨⟩⟩ := bind_ite_eq_some.mp h
    exact .yield hc
  | wakeup chan => cases h; exact .wakeup
  | kill pid => cases h; exact .kill
  | call c =>
    obtain ⟨p, hc, hp, ⟨⟩⟩ := bind_ite_eq_some.mp h
    exact .call hc hp
  | beginOp c =>
    obtain ⟨p, hc, hp, ⟨⟩⟩ := bind_ite_eq_some.mp h
    exact .hold hc hp
  | endOp c | acquiresleep c l | releasesleep c l =>
    obtain ⟨p, hc, hp, ⟨⟩⟩ := bind_ite_eq_some.mp h
    exact .hold hc hp.1
  | sleep c chan =>
    obtain ⟨p, hc, hp, ⟨⟩⟩ := bind_ite_eq_some.mp h
    exact .sleep hc hp
  | ret c =>
    obtain ⟨p, hc, ⟨hp, hh⟩, ⟨⟩⟩ := bind_ite_eq_some.mp h
    exact .ret hc hp hh
  | cleariFails c =>
    obtain ⟨p, hc, ⟨hp, -⟩, ⟨⟩⟩ := bind_ite_eq_some.mp h
    exact .cleariFails hc hp
  | fork c =>
    obtain ⟨p, hc, hp, ⟨⟩⟩ := bind_ite_eq_some.mp h
    exact alloc_cases .noSlot fun np t ha => .fork hc hp ha
  | threadCreate c =>
    obtain ⟨p, hc, hp, ⟨⟩⟩ := bind_ite_eq_some.mp h
    exact alloc_cases .noSlot fun np t ha => .threadCreate hc hp ha
  | kalloc c ok =>
    obtain ⟨p, hc, h⟩ := Option.bind_eq_some_iff.mp h
    split at h
    · next np hp =>
      cases ok <;> cases h
      · exact .drop hc (by rw [hp]; rfl) rfl (by simp [State.drops, hc, hp, Point.new])
      · exact .forkKalloc hc hp
    · next np main hp =>
      cases ok <;> cases h
      · exact .drop hc (by rw [hp]; rfl) rfl (by simp [State.drops, hc, hp, Point.new])
      · exact .createKalloc hc hp
    · cases h
  | copyuvm c ok =>
    obtain ⟨p, hc, h⟩ := Option.bind_eq_some_iff.mp h
    split at h
    · next np hp =>
      cases ok <;> cases h
      · exact .drop hc (by rw [hp]; rfl) rfl (by simp [State.drops, hc, hp, Point.new])
      · exact .copyuvm hc hp
    · cases h
  | decNextpid c =>
    obtain ⟨p, hc, h⟩ := Option.bind_eq_some_iff.mp h
    split at h
    · next np main hp => cases h; exact .decNextpid hc hp
    · cases h
  | setIds c =>
    obtain ⟨p, hc, h⟩ := Option.bind_eq_some_iff.mp h
    split at h
    · next np main hp => cases h; exact .setIds hc hp
    · cases h
  | allocuvm c ok =>
    obtain ⟨p, hc, h⟩ := Option.bind_eq_some_iff.mp h
    split at h
    · next np main hp =>
      cases ok <;> cases h
      · exact .allocuvmFails hc hp
      · exact .allocuvm hc hp
    · cases h
  | runnable c =>
    obtain ⟨p, hc, h⟩ := Option.bind_eq_some_iff.mp h
    split at h
    · next np hp =>
      cases h
      have hp : m.pc p = .fork np .runnable ∨ m.pc p = .threadCreate np np .runnable := .inl hp
      exact .runnable hc hp
    · next np main hp => cases h; exact .runnable hc (.inr hp)
    · cases h
  | exit c =>
    obtain ⟨p, hc, ⟨hp, hi⟩, h⟩ := bind_ite_eq_some.mp h
    split at h
    · next h0 => exact exit_cases hc hp hi rfl h0 h
    · cases h; exact .exitThread hc hp hi
  | exitEnd c =>
    obtain ⟨p, hc, ⟨hp, hh⟩, ⟨⟩⟩ := bind_ite_eq_some.mp h
    exact .exitEnd hc hp hh
  | threadExit c retval =>
    obtain ⟨p, hc, ⟨hp, hi⟩, ⟨⟩⟩ := bind_ite_eq_some.mp h
    exact .threadExit hc hp hi
  | threadExitEnd c =>
    obtain ⟨p, hc, ⟨hp, hh⟩, ⟨⟩⟩ := bind_ite_eq_some.mp h
    exact .threadExitEnd hc hp hh
  | wait c =>
    obtain ⟨p, hc, hp, h⟩ := bind_ite_eq_some.mp h
    obtain ⟨o, ho, rfl⟩ := Option.map_eq_some_iff.mp h
    exact wait_cases hc hp ho
  | threadJoin c thread =>
    obtain ⟨p, hc, hp, ⟨⟩⟩ := bind_ite_eq_some.mp h
    exact join_cases hc hp
  | exec c =>
    obtain ⟨p, hc, hp, ⟨⟩⟩ := bind_ite_eq_some.mp h
    exact .exec hc hp
  | killThreads c =>
    obtain ⟨p, hc, h⟩ := Option.bind_eq_some_iff.mp h
    split at h
    · next pid hp => cases h; exact .killFirst hc hp
    · next pid q hp =>
      obtain ⟨hh, ⟨⟩⟩ := Option.ite_none_right_eq_some.mp h
      exact .killThread hc hp hh
    · cases h
  | execEnd c e =>
    obtain ⟨p, hc, ⟨hp, hh⟩, h⟩ := bind_ite_eq_some.mp h
    obtain ⟨r, hr, rfl⟩ := Option.map_eq_some_iff.mp h
    exact .execEnd hc hp hh hr

end Step

end Xv6.Interleave
