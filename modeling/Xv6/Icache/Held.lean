import Xv6.Icache.Machine
import Xv6.Lib.Table

/-! # References and locks

What a step of the cache can do is said once, by `Step`. The `ref` of an entry is the number of
pointers to it, and the sleep lock of an entry has one holder. -/

namespace Xv6.Icache

open Fs (Ip)
open Table (ind count)
open Function

def Ptr.entry {ι : Type} : Ptr ι → Option Ip
  | .ref ip | .iput _ ip _ => some ip
  | .null | .ialloc .. | .iget .. => none

/-- The stages of `iput` in which the lock is held. -/
def Stage.holds : Stage → Bool
  | .wait | .unref => false
  | .test | .read | .itrunc | .free | .releasesleep => true

variable {ι ω : Type} {s s' : State ι ω}

/-- The process `p` holds the lock of an entry, which it has got through the pointer `x`. -/
def State.Holds (s : State ι ω) (p : ι) (x : ω) (ip : Ip) : Prop :=
  s.ptr x = .ref ip ∧ (s.use p x = .filling ∨ s.use p x = .locked) ∨
    ∃ k, s.ptr x = .iput p ip k ∧ k.holds = true

/-! ## References -/

def Ptr.refers (ip : Ip) (v : Ptr ι) : Bool := decide (v.entry = some ip)

/-- The references are counted, and the pointers in use refer to entries. -/
structure Counted [Fintype ω] (s : State ι ω) : Prop where
  ref : ∀ ip, (s.icache ip).ref = count (Ptr.refers ip) s.ptr
  use : ∀ p x, s.use p x ≠ .idle → ∃ ip, s.ptr x = .ref ip

namespace Counted

variable [Fintype ω] {x y : ω} {ip : Ip} {v : Ptr ι}

theorem refers_of_entry (h : v.entry = some ip) : v.refers ip = true := decide_eq_true h

theorem ref_pos (h : Counted s) (hx : (s.ptr x).entry = some ip) : 0 < (s.icache ip).ref := by
  rw [h.ref]
  exact Table.count_pos (refers_of_entry hx)

theorem pos_of_ref (h : Counted s) (hx : s.ptr x = .ref ip) : 0 < (s.icache ip).ref :=
  h.ref_pos (x := x) (by rw [hx]; rfl)

theorem pos_of_iput (h : Counted s) (hx : s.ptr x = .iput p ip k) : 0 < (s.icache ip).ref :=
  h.ref_pos (x := x) (by rw [hx]; rfl)

/-- Two pointers to an entry are two references. -/
theorem two_le_ref (h : Counted s) (hne : x ≠ y) (hx : (s.ptr x).entry = some ip)
    (hy : (s.ptr y).entry = some ip) : 2 ≤ (s.icache ip).ref := by
  rw [h.ref]
  exact Table.two_le_count hne (refers_of_entry hx) (refers_of_entry hy)

theorem unused (h : Counted s) (hx : ∀ ip, s.ptr x ≠ .ref ip) : s.Unused x := by
  intro p
  by_contra hu
  obtain ⟨ip, he⟩ := h.use p x hu
  exact hx ip he

theorem congr (h : Counted s) (hr : ∀ ip, (s'.icache ip).ref = (s.icache ip).ref)
    (hp : s'.ptr = s.ptr) (hu : s'.use = s.use) : Counted s' :=
  ⟨fun ip => by rw [hr, hp, h.ref], fun p x => by rw [hp, hu]; exact h.use p x⟩

variable [DecidableEq ω]

/-- One pointer changes. -/
theorem setPtr (h : Counted s) (hp : s'.ptr = update s.ptr x v) (hu : s'.use = s.use)
    (hr : ∀ ip, (s'.icache ip).ref + ind ((s.ptr x).refers ip) =
      (s.icache ip).ref + ind (v.refers ip))
    (hx : s.Unused x ∨ ∃ ip, v = .ref ip) : Counted s' := by
  refine ⟨fun ip => ?_, fun p y hy => ?_⟩
  · rw [hp, Table.count_update, ← h.ref, ← hr ip, add_sub_cancel_right]
  · rw [hu] at hy
    rw [hp]
    by_cases e : y = x
    · subst e
      rw [update_self]
      exact hx.resolve_left fun hn => hy (hn p)
    · rw [update_of_ne e]
      exact h.use p y hy

/-- A pointer changes, but not the entry that it refers to. -/
theorem restage (h : Counted s) (hp : s'.ptr = update s.ptr x v) (hu : s'.use = s.use)
    (hr : ∀ ip, (s'.icache ip).ref = (s.icache ip).ref) (hv : v.entry = (s.ptr x).entry)
    (hx : s.Unused x) : Counted s' :=
  h.setPtr hp hu (fun ip => by rw [hr, Ptr.refers, Ptr.refers, hv]) (.inl hx)

theorem setUse [DecidableEq ι] (h : Counted s) (hr : ∀ ip, (s'.icache ip).ref = (s.icache ip).ref)
    (hp : s'.ptr = s.ptr) (hu : s'.use = (s.setUse p x u).use) (hx : s.ptr x = .ref ip) :
    Counted s' := by
  refine ⟨fun ip => by rw [hr, hp, h.ref], fun q y hy => ?_⟩
  rw [hp]
  by_cases e : y = x
  · exact ⟨ip, e ▸ hx⟩
  · rw [hu, State.setUse_of_ne _ fun h => e h.2] at hy
    exact h.use q y hy

end Counted

theorem State.ref_setInode (s : State ι ω) (hv : v.ref = (s.icache ip).ref) (ip' : Ip) :
    ((s.setInode ip v).icache ip').ref = (s.icache ip').ref := by
  by_cases e : ip' = ip
  · subst e
    simpa [State.setInode] using hv
  · simp [State.setInode, e]

theorem State.ref_setCopy (s : State ι ω) (ip : Ip) (v : Dinode) (ip' : Ip) :
    ((s.setCopy ip v).icache ip').ref = (s.icache ip').ref :=
  s.ref_setInode (v := { s.icache ip with copy := v }) rfl ip'

theorem State.ref_free (s : State ι ω) (ip ip' : Ip) :
    ((s.free ip).icache ip').ref = (s.icache ip').ref := by
  have h := s.ref_setCopy ip { (s.icache ip).copy with type := none }
  exact (State.ref_setInode _ (by rfl) ip').trans (h ip')

/-! ## The steps -/

/-- Why there may be one more reference to an inode: a directory entry names it, there is a pointer
to it, or it has just been allocated for the new pointer `x`. -/
inductive Reason (s : State ι ω) (x : ω) (id : Id) : Prop
  | entry : s.ptr x = .null → 0 < s.entries id → Reason s x id
  | pointer {y : ω} {ip : Ip} : s.ptr x = .null → s.ptr y = .ref ip → (s.icache ip).id = id →
    Reason s x id
  | allocated {p : ι} : s.ptr x = .iget p id → Reason s x id

theorem Reason.not_ref {x : ω} {id : Id} (h : Reason s x id) : (s.ptr x).entry = none := by
  cases h with
  | entry hx | pointer hx | allocated hx => rw [hx]; rfl

theorem Reason.unused [Fintype ω] {x : ω} {id : Id} (h : Reason s x id) (hc : Counted s) :
    s.Unused x :=
  hc.unused fun ip e => by simpa [e, Ptr.entry] using h.not_ref

theorem State.onRef_eq_some (h : s.onRef x f = some s') :
    ∃ ip, s.ptr x = .ref ip ∧ f ip = some s' := by
  unfold State.onRef at h
  split at h
  · next ip hx => exact ⟨ip, hx, h⟩
  · cases h

variable [DecidableEq ω] [DecidableEq ι]

/-- What a step does. -/
inductive Step (s : State ι ω) : State ι ω → Prop
  | get {x ip} : Reason s x (s.icache ip).id → 0 < (s.icache ip).ref ∨ (∃ y, s.ptr y = .ref ip) →
    Step s (s.get x ip)
  | load {x ip id} : Reason s x id → (s.icache ip).ref = 0 →
    (∀ ip', 0 < (s.icache ip').ref → (s.icache ip').id ≠ id) → Step s (s.load x ip id)
  | assign {x y ip} : s.ptr x = .ref ip → s.Unused x → s.ptr y = .null →
    Step s ((s.setPtr x .null).setPtr y (.ref ip))
  | wait {p x ip} : s.ptr x = .ref ip → s.use p x = .idle → Step s (s.setUse p x .waiting)
  | acquire {p x ip} : s.ptr x = .ref ip → s.use p x = .waiting → s.lock ip = none →
    Step s ((s.setLock ip (some p)).setUse p x .filling)
  | filled {p x ip} : s.ptr x = .ref ip → s.use p x = .filling → (s.icache ip).valid = true →
    Step s (s.setUse p x .locked)
  | fill {p x ip} : s.ptr x = .ref ip → s.use p x = .filling → (s.icache ip).valid ≠ true →
    Step s ((s.setInode ip { s.icache ip with
      valid := true, copy := s.disk (s.icache ip).id }).setUse p x .locked)
  | unlock {p x ip} : s.ptr x = .ref ip → s.use p x = .locked →
    Step s ((s.setLock ip none).setUse p x .idle)
  | nlink {p x ip n} : s.ptr x = .ref ip → s.use p x = .locked →
    0 < n ∨ s.entries (s.icache ip).id = 0 →
    Step s (s.setCopy ip { (s.icache ip).copy with nlink := n })
  | append {p x ip b} : s.ptr x = .ref ip → s.use p x = .locked →
    s.used ((s.icache ip).dev, b) = false → Step s (s.append ip b)
  | put {p x ip} : s.ptr x = .ref ip → s.Unused x → Step s (s.setPtr x (.iput p ip .wait))
  | putAcquire {p x ip} : s.ptr x = .iput p ip .wait → s.lock ip = none →
    Step s ((s.setLock ip (some p)).setPtr x (.iput p ip .test))
  | test {p x ip} : s.ptr x = .iput p ip .test → (s.icache ip).valid = true →
    (s.icache ip).copy.nlink = 0 → Step s (s.setPtr x (.iput p ip .read))
  | read {p x ip} : s.ptr x = .iput p ip .read → (s.icache ip).ref = 1 →
    Step s (s.setPtr x (.iput p ip .itrunc))
  | keep {p x ip k} : s.ptr x = .iput p ip k → k = .test ∨ k = .read →
    Step s (s.setPtr x (.iput p ip .releasesleep))
  | itrunc {p x ip} : s.ptr x = .iput p ip .itrunc →
    Step s ((s.itrunc ip).setPtr x (.iput p ip .free))
  | free {p x ip} : s.ptr x = .iput p ip .free →
    Step s ((s.free ip).setPtr x (.iput p ip .releasesleep))
  | release {p x ip} : s.ptr x = .iput p ip .releasesleep →
    Step s ((s.setLock ip none).setPtr x (.iput p ip .unref))
  | unref {p x ip} : s.ptr x = .iput p ip .unref →
    Step s ((s.setInode ip { s.icache ip with ref := (s.icache ip).ref - 1 }).setPtr x .null)
  | ialloc {p x dev type inum} : s.ptr x = .null ∨ (∃ n, s.ptr x = .ialloc p dev type n) →
    Step s (s.setPtr x (.ialloc p dev type inum))
  | mark {p x dev type inum} : s.ptr x = .ialloc p dev type inum →
    (s.disk (dev, inum)).type = none → Step s (s.mark x p (dev, inum) type)
  | link {id} : (s.disk id).type ≠ none → 0 < (s.disk id).nlink →
    Step s { s with entries := update s.entries id (s.entries id + 1) }
  | unlink {id} : Step s { s with entries := update s.entries id (s.entries id - 1) }

theorem step_of_iget {x : ω} {id : Id} (hx : Reason s x id) (h : s.iget x id = some s') :
    Step s s' := by
  unfold State.iget at h
  split at h
  · next ip hfind =>
    cases h
    have hip := List.find?_some hfind
    simp only [decide_eq_true_eq] at hip
    exact .get (hip.2 ▸ hx) (.inl hip.1)
  · next hnone =>
    split at h
    · next ip hfind =>
      cases h
      exact .load hx (by simpa using List.find?_some hfind) (by simpa using hnone)
    · cases h

theorem step_of_useStep (hx : s.ptr x = .ref ip) (hu : s.use p x = u)
    (h : s.useStep p x ip u = some s') : Step s s' := by
  cases u with
  | idle =>
    simp only [State.useStep, Option.ite_none_right_eq_some] at h
    cases h.2
    exact .wait hx hu
  | waiting =>
    simp only [State.useStep, Option.ite_none_right_eq_some] at h
    cases h.2
    exact .acquire hx hu h.1
  | filling =>
    simp only [State.useStep] at h
    split at h
    · next hv =>
      cases h
      exact .filled hx hu hv
    · next hv =>
      split at h
      · cases h
      · cases h
        exact .fill hx hu hv
  | locked =>
    simp only [State.useStep, Option.ite_none_right_eq_some] at h
    cases h.2
    exact .unlock hx hu

theorem step_of_putStep (hx : s.ptr x = .iput p ip k) (h : s.putStep x p ip k = some s') :
    Step s s' := by
  cases k with
  | wait =>
    simp only [State.putStep, Option.ite_none_right_eq_some] at h
    cases h.2
    exact .putAcquire hx h.1
  | test =>
    simp only [State.putStep] at h
    split at h
    · next hc =>
      cases h
      exact .test hx hc.1 hc.2
    · cases h
      exact .keep hx (.inl rfl)
  | read =>
    simp only [State.putStep] at h
    split at h
    · next hr =>
      cases h
      exact .read hx hr
    · cases h
      exact .keep hx (.inr rfl)
  | itrunc =>
    cases h
    exact .itrunc hx
  | free =>
    cases h
    exact .free hx
  | releasesleep =>
    cases h
    exact .release hx
  | unref =>
    cases h
    exact .unref hx

theorem step_of_goOn (h : s.goOn x = some s') : Step s s' := by
  unfold State.goOn at h
  split at h
  · next hx => exact step_of_putStep hx h
  · next p dev type inum hx =>
    unfold State.scan at h
    split at h
    · split at h
      · next ht =>
        cases h
        exact .mark hx ht
      · cases h
        exact .ialloc (.inr ⟨inum, hx⟩)
    · cases h
  · next hx => exact step_of_iget (.allocated hx) h
  · cases h
  · cases h

theorem step_of_next [Fintype ι] (h : s.next a = some s') : Step s s' := by
  have honUse : ∀ {p x u}, s.onUse p x u = some s' → Step s s' := by
    intro p x u h
    obtain ⟨ip, hx, h⟩ := State.onRef_eq_some h
    obtain ⟨hu, h⟩ := Option.ite_none_right_eq_some.mp h
    exact step_of_useStep hx hu h
  cases a with
  | iget x id =>
    obtain ⟨hc, h⟩ := Option.ite_none_right_eq_some.mp h
    exact step_of_iget (.entry hc.1 hc.2) h
  | idup x y =>
    obtain ⟨ip, hx, h⟩ := State.onRef_eq_some h
    obtain ⟨hy, ⟨⟩⟩ := Option.ite_none_right_eq_some.mp h
    exact .get (.pointer hy hx rfl) (.inr ⟨x, hx⟩)
  | assign x y =>
    obtain ⟨ip, hx, h⟩ := State.onRef_eq_some h
    obtain ⟨hc, ⟨⟩⟩ := Option.ite_none_right_eq_some.mp h
    exact .assign hx hc.1 hc.2
  | ilock | acquiresleep | fill | iunlock => exact honUse h
  | nlink p x n =>
    obtain ⟨ip, hx, h⟩ := State.onRef_eq_some h
    obtain ⟨hc, ⟨⟩⟩ := Option.ite_none_right_eq_some.mp h
    exact .nlink hx hc.1 hc.2
  | balloc p x b =>
    obtain ⟨ip, hx, h⟩ := State.onRef_eq_some h
    obtain ⟨hc, ⟨⟩⟩ := Option.ite_none_right_eq_some.mp h
    exact .append hx hc.1 hc.2
  | iput p x =>
    obtain ⟨ip, hx, h⟩ := State.onRef_eq_some h
    obtain ⟨hu, ⟨⟩⟩ := Option.ite_none_right_eq_some.mp h
    exact .put hx hu
  | ialloc p x dev type =>
    obtain ⟨hx, ⟨⟩⟩ := Option.ite_none_right_eq_some.mp h
    exact .ialloc (.inl hx)
  | goOn x => exact step_of_goOn h
  | link id =>
    obtain ⟨hc, ⟨⟩⟩ := Option.ite_none_right_eq_some.mp h
    exact .link hc.1 hc.2
  | unlink id =>
    cases h
    exact .unlink

/-! ## Steps and references -/

theorem Counted.step [Fintype ω] (h : Counted s) (hs : Step s s') : Counted s' := by
  cases hs with
  | @get x ip hx hr =>
    refine h.setPtr (x := x) rfl rfl (fun ip' => ?_) (.inr ⟨ip, rfl⟩)
    rw [Ptr.refers, hx.not_ref]
    by_cases e : ip' = ip
    · subst e
      simp [State.get, State.setInode, State.setPtr, Ptr.refers, Ptr.entry]
    · simp [State.get, State.setInode, State.setPtr, Ptr.refers, Ptr.entry, e, Ne.symm e]
  | @load x ip id hx h0 hno =>
    refine h.setPtr (x := x) rfl rfl (fun ip' => ?_) (.inr ⟨ip, rfl⟩)
    rw [Ptr.refers, hx.not_ref]
    by_cases e : ip' = ip
    · subst e
      simp [State.load, State.setInode, State.setPtr, Ptr.refers, Ptr.entry, h0]
    · simp [State.load, State.setInode, State.setPtr, Ptr.refers, Ptr.entry, e, Ne.symm e]
  | @assign x y ip hx hu hy =>
    have hne : y ≠ x := by
      rintro rfl
      rw [hx] at hy
      cases hy
    refine ⟨fun ip' => ?_, fun p z hz => ?_⟩
    · simp only [State.setPtr, Table.count_update, update_of_ne hne, hx, hy, h.ref]
      simp [Ptr.refers, Ptr.entry]
    · by_cases ez : z = x
      · exact absurd (hu p) (ez ▸ hz)
      · by_cases ey : z = y
        · exact ⟨ip, by simp [State.setPtr, ey]⟩
        · simpa [State.setPtr, ez, ey] using h.use p z hz
  | wait hx | acquire hx | filled hx | unlock hx => exact h.setUse (fun _ => rfl) rfl rfl hx
  | fill hx => exact h.setUse (s.ref_setInode rfl) rfl rfl hx
  | nlink | append => exact h.congr (s.ref_setCopy _ _) rfl rfl
  | put hx hu => exact h.restage rfl rfl (fun _ => rfl) (by rw [hx]; rfl) hu
  | putAcquire hx | test hx | read hx | keep hx | release hx | mark hx =>
    exact h.restage rfl rfl (fun _ => rfl) (by rw [hx]; rfl) (h.unused (by simp [hx]))
  | itrunc hx =>
    exact h.restage rfl rfl (s.ref_setCopy _ _) (by rw [hx]; rfl) (h.unused (by simp [hx]))
  | free hx => exact h.restage rfl rfl (s.ref_free _) (by rw [hx]; rfl) (h.unused (by simp [hx]))
  | @unref p x ip hx =>
    refine h.setPtr (x := x) rfl rfl (fun ip' => ?_) (.inl (h.unused (by simp [hx])))
    rw [Ptr.refers, hx]
    by_cases e : ip' = ip
    · subst e
      simp [State.setInode, State.setPtr, Ptr.refers, Ptr.entry]
    · simp [State.setInode, State.setPtr, Ptr.refers, Ptr.entry, e, Ne.symm e]
  | ialloc hx =>
    obtain hx | ⟨n, hx⟩ := hx <;>
      exact h.restage rfl rfl (fun _ => rfl) (by rw [hx]; rfl) (h.unused (by simp [hx]))
  | link | unlink => exact h.congr (fun _ => rfl) rfl rfl

/-! ## Locks -/

/-- A lock that is held through a pointer is taken by the process, and through one pointer only. -/
structure Locks (s : State ι ω) : Prop where
  lock : ∀ p x ip, s.Holds p x ip → s.lock ip = some p
  holder : ∀ p x y ip, s.Holds p x ip → s.Holds p y ip → x = y

namespace Locks

variable {p : ι} {x : ω} {ip : Ip}

omit [DecidableEq ι] [DecidableEq ω]

theorem eq (h : Locks s) (hx : s.Holds p x ip) (hy : s.Holds q y ip) : p = q ∧ x = y := by
  have hp := h.lock p x ip hx
  rw [h.lock q y ip hy] at hp
  cases hp
  exact ⟨rfl, h.holder p x y ip hx hy⟩

theorem mono (h : Locks s) (hl : s'.lock = s.lock)
    (hH : ∀ q y ip', s'.Holds q y ip' → s.Holds q y ip') : Locks s' :=
  ⟨fun q y ip' hy => hl ▸ h.lock q y ip' (hH q y ip' hy),
    fun q y z ip' hy hz => h.holder q y z ip' (hH q y ip' hy) (hH q z ip' hz)⟩

theorem acquire (h : Locks s) (hn : s.lock ip = none)
    (hl : s'.lock = update s.lock ip (some p))
    (hH : ∀ q y ip', s'.Holds q y ip' → s.Holds q y ip' ∨ q = p ∧ y = x ∧ ip' = ip) :
    Locks s' := by
  have hold : ∀ q y ip', s.Holds q y ip' → ip' ≠ ip := by
    rintro q y ip' hy rfl
    rw [h.lock q y ip' hy] at hn
    cases hn
  constructor
  · intro q y ip' hy
    rw [hl]
    rcases hH q y ip' hy with hy | ⟨rfl, rfl, rfl⟩
    · rw [update_of_ne (hold q y ip' hy), h.lock q y ip' hy]
    · exact update_self ..
  · intro q y z ip' hy hz
    rcases hH q y ip' hy with hy | ⟨-, rfl, hip⟩
    · rcases hH q z ip' hz with hz | ⟨-, rfl, hip⟩
      · exact h.holder q y z ip' hy hz
      · exact absurd hip (hold q y ip' hy)
    · rcases hH q z ip' hz with hz | ⟨-, rfl, -⟩
      · exact absurd hip (hold q z ip' hz)
      · rfl

theorem release (h : Locks s) (hx : s.Holds p x ip) (hl : s'.lock = update s.lock ip none)
    (hH : ∀ q y ip', s'.Holds q y ip' → s.Holds q y ip' ∧ ¬ (q = p ∧ y = x)) : Locks s' := by
  have hother : ∀ q y ip', s'.Holds q y ip' → ip' ≠ ip := by
    rintro q y ip' hy rfl
    obtain ⟨hy, hne⟩ := hH q y ip' hy
    obtain ⟨hp, hx⟩ := h.eq hx hy
    exact hne ⟨hp.symm, hx.symm⟩
  refine ⟨fun q y ip' hy => ?_, fun q y z ip' hy hz =>
    h.holder q y z ip' (hH q y ip' hy).1 (hH q z ip' hz).1⟩
  rw [hl, update_of_ne (hother q y ip' hy), h.lock q y ip' (hH q y ip' hy).1]

theorem holds_of_eq (h : s'.Holds q y ip) (hp : s'.ptr y = s.ptr y) (hu : s'.use q y = s.use q y) :
    s.Holds q y ip := by
  simpa only [State.Holds, hp, hu] using h

/-- A pointer that no process uses is one of `iput`. -/
theorem holds_of_unused (hu : s.Unused x) (h : s.Holds q x ip) :
    ∃ k, s.ptr x = .iput q ip k ∧ k.holds = true := by
  rcases h with ⟨-, hu'⟩ | h
  · rw [hu q] at hu'
    rcases hu' with h | h <;> cases h
  · exact h

/-- A process that uses a pointer in another way than before has the lock of its entry, or not. -/
theorem holds_setUse [DecidableEq ι] [DecidableEq ω] (hx : s.ptr x = .ref ip)
    (h : (s.setUse p x u).Holds q y ip') : s.Holds q y ip' ∧ ¬ (q = p ∧ y = x) ∨
      q = p ∧ y = x ∧ ip' = ip ∧ (u = .filling ∨ u = .locked) := by
  by_cases e : q = p ∧ y = x
  · obtain ⟨rfl, rfl⟩ := e
    rcases h with ⟨hy, hu⟩ | ⟨k, hy, -⟩
    · rw [State.setUse_self] at hu
      exact .inr ⟨rfl, rfl, Ptr.ref.inj (hy.symm.trans hx), hu⟩
    · cases hx.symm.trans hy
  · exact .inl ⟨holds_of_eq h rfl (State.setUse_of_ne _ e), e⟩

variable [DecidableEq ω]

/-- A pointer changes that no process uses, and no lock is taken. -/
theorem setPtr (h : Locks s) (hl : s'.lock = s.lock) (hp : s'.ptr = update s.ptr x v)
    (hu : s'.use = s.use) (hx : s.Unused x) (hv : ∀ q ip k, v = .iput q ip k → k.holds = true →
      ∃ k', s.ptr x = .iput q ip k' ∧ k'.holds = true) : Locks s' := by
  refine h.mono hl fun q y ip' hy => ?_
  by_cases e : y = x
  · subst e
    obtain ⟨k, hk, hh⟩ := holds_of_unused (s := s') (fun q => by rw [hu]; exact hx q) hy
    rw [hp, update_self] at hk
    exact .inr (hv q ip' k hk hh)
  · exact holds_of_eq hy (by rw [hp, update_of_ne e]) (by rw [hu])

end Locks

theorem Locks.step [Fintype ω] (h : Locks s) (hc : Counted s) (hs : Step s s') : Locks s' := by
  cases hs with
  | get hx | load hx => exact h.setPtr rfl rfl rfl (hx.unused hc) nofun
  | @assign x y ip hx hu hy =>
    have hnull : Locks (s.setPtr x .null) := h.setPtr rfl rfl rfl hu nofun
    refine hnull.setPtr rfl rfl rfl ?_ nofun
    exact hc.unused (by simp [hy])
  | wait hx hu =>
    refine h.mono rfl fun q y ip' hy => ?_
    rcases holds_setUse hx hy with ⟨hy, -⟩ | ⟨-, -, -, hu'⟩
    · exact hy
    · simp at hu'
  | @acquire p x ip hx hu hl =>
    refine h.acquire (x := x) hl rfl fun q y ip' hy => ?_
    rcases holds_setUse hx hy with ⟨hy, -⟩ | ⟨hq, hy, hip, -⟩
    · exact .inl hy
    · exact .inr ⟨hq, hy, hip⟩
  | filled hx hu | fill hx hu =>
    refine h.mono rfl fun q y ip' hy => ?_
    rcases holds_setUse hx hy with ⟨hy, -⟩ | ⟨rfl, rfl, rfl, -⟩
    · exact hy
    · exact .inl ⟨hx, .inl hu⟩
  | unlock hx hu =>
    refine h.release (.inl ⟨hx, .inr hu⟩) rfl fun q y ip' hy => ?_
    rcases holds_setUse hx hy with hy | ⟨-, -, -, hu'⟩
    · exact hy
    · simp at hu'
  | nlink | append | link | unlink => exact h.mono rfl fun _ _ _ => id
  | put hx hu =>
    refine h.setPtr rfl rfl rfl hu fun q ip' k hk hh => ?_
    cases hk
    cases hh
  | @putAcquire p x ip hx hl =>
    have hunused := hc.unused (x := x) (by simp [hx])
    refine h.acquire (x := x) hl rfl fun q y ip' hy => ?_
    by_cases e : y = x
    · subst e
      obtain ⟨k, hk, -⟩ := holds_of_unused (s := State.setPtr _ y _) hunused hy
      rw [State.setPtr_self] at hk
      cases hk
      exact .inr ⟨rfl, rfl, rfl⟩
    · exact .inl (holds_of_eq hy (State.setPtr_of_ne _ e) rfl)
  | test hx | read hx | itrunc hx | free hx =>
    refine h.setPtr rfl rfl rfl (hc.unused (by simp [hx])) fun q ip' k hk hh => ?_
    cases hk
    exact ⟨_, hx, rfl⟩
  | keep hx hk' =>
    refine h.setPtr rfl rfl rfl (hc.unused (by simp [hx])) fun q ip' k hk hh => ?_
    cases hk
    exact ⟨_, hx, by rcases hk' with rfl | rfl <;> rfl⟩
  | @release p x ip hx =>
    have hunused := hc.unused (x := x) (by simp [hx])
    refine h.release (.inr ⟨_, hx, rfl⟩) rfl fun q y ip' hy => ?_
    by_cases e : y = x
    · subst e
      obtain ⟨k, hk, hh⟩ := holds_of_unused (s := State.setPtr _ y _) hunused hy
      rw [State.setPtr_self] at hk
      cases hk
      cases hh
    · exact ⟨holds_of_eq hy (State.setPtr_of_ne _ e) rfl, fun h => e h.2⟩
  | unref hx | mark hx => exact h.setPtr rfl rfl rfl (hc.unused (by simp [hx])) nofun
  | ialloc hx =>
    refine h.setPtr rfl rfl rfl (hc.unused ?_) nofun
    obtain hx | ⟨n, hx⟩ := hx <;> simp [hx]

end Xv6.Icache
