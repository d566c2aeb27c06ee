import Xv6.Icache.Safe

/-! # Runs of the inode cache

The invariants hold in every state that is reached. An inode that is allocated keeps its blocks in
every step but those of an `iput` that frees it, so that it keeps them as long as a pointer refers
to its entry. -/

namespace Xv6.Icache

open Fs (Ip)

variable {ι ω : Type} {s s' : State ι ω} {x y : ω} {ip : Ip} {id : Id} {p : ι} {k : Stage}

/-- An allocated inode stays allocated and keeps its blocks. -/
structure Keeps (s s' : State ι ω) (id : Id) : Prop where
  type : (s'.disk id).type ≠ none
  addrs : (s.disk id).addrs <+: (s'.disk id).addrs
  allocs : s'.allocs id = s.allocs id
  used : ∀ b ∈ (s.disk id).addrs, s'.used (id.1, b) = true

theorem Keeps.trans (h : Keeps s s₁ id) (h' : Keeps s₁ s₂ id) : Keeps s s₂ id :=
  ⟨h'.type, h.addrs.trans h'.addrs, h'.allocs.trans h.allocs,
    fun b hb => h'.used b (h.addrs.subset hb)⟩

section

variable [Fintype ω]

/-- What every reachable state satisfies. -/
structure Sound (s : State ι ω) : Prop where
  counted : Counted s
  locks : Locks s
  safe : Safe s

theorem Sound.keeps_of_eq (h : Sound s) (ht : (s.disk id).type ≠ none) (hd : s'.disk = s.disk)
    (ha : s'.allocs = s.allocs) (hu : s'.used = s.used) : Keeps s s' id :=
  ⟨hd ▸ ht, hd ▸ List.prefix_rfl, ha ▸ rfl, fun b hb => hu ▸ h.safe.blocks.used id.1 id.2 b hb⟩

/-- A change of the inode of another entry, or one that keeps its type and only adds blocks. -/
theorem Sound.keeps_setCopy (h : Sound s) (ht : (s.disk id).type ≠ none)
    (hv : (s.icache ip).id = id → v.type ≠ none ∧ (s.disk id).addrs <+: v.addrs)
    (hd : s'.disk = (s.setCopy ip v).disk) (ha : s'.allocs = s.allocs)
    (hu : ∀ b ∈ (s.disk id).addrs, s.used (id.1, b) = true → s'.used (id.1, b) = true) :
    Keeps s s' id := by
  have hused := fun b hb => hu b hb (h.safe.blocks.used id.1 id.2 b hb)
  by_cases e : (s.icache ip).id = id
  · have hid : s'.disk id = v := by
      rw [hd]
      simp [State.setCopy, e]
    exact ⟨hid ▸ (hv e).1, hid ▸ (hv e).2, ha ▸ rfl, hused⟩
  · have hid : s'.disk id = s.disk id := by
      rw [hd]
      simp [State.setCopy, Ne.symm e]
    exact ⟨hid ▸ ht, hid ▸ List.prefix_rfl, ha ▸ rfl, hused⟩

/-- The copy of an entry whose lock is held is what is on the disk. -/
theorem Sound.copy_of_locked (h : Sound s) (hx : s.ptr x = .ref ip) (hu : s.use p x = .locked) :
    (s.icache ip).copy = s.disk (s.icache ip).id :=
  (h.safe.copy ip (h.counted.pos_of_ref hx) (h.safe.locked p x ip hx hu)).1

/-- An inode is not freed as long as a pointer refers to it. -/
theorem Sound.not_frees_of_ref (h : Sound s) (hx : s.ptr x = .ref ip) (hy : s.ptr y = .iput p ip' k)
    (hk : k.Frees) : (s.icache ip').id ≠ (s.icache ip).id := by
  intro e
  have hip : ip = ip' := h.safe.unique ip ip' (h.counted.pos_of_ref hx)
    (h.counted.pos_of_iput hy) e.symm
  have hxy := h.safe.only_of_frees h.counted hy hk (y := x) (by rw [hx, hip]; rfl)
  rw [hxy, hy] at hx
  cases hx

end

variable [DecidableEq ω] [DecidableEq ι]

/-- An entry in use keeps standing for its inode. -/
theorem Step.id_eq (hs : Step s s') (hr : 0 < (s.icache ip).ref) :
    (s'.icache ip).id = (s.icache ip).id := by
  have hset : ∀ {t : State ι ω} {ip' : Ip} {v : Inode}, t.icache = s.icache →
      v.id = (s.icache ip').id → ((t.setInode ip' v).icache ip).id = (s.icache ip).id := by
    intro t ip' v ht hv
    by_cases e : ip = ip'
    · subst e
      simpa [State.setInode] using hv
    · simp [State.setInode, e, ht]
  cases hs with
  | get | fill | nlink | append | itrunc | unref => exact hset rfl rfl
  | @load x ip' id _ h0 =>
    have e : ip ≠ ip' := by
      rintro rfl
      omega
    simp [State.load, State.setPtr, State.setInode, e]
  | @free p x ip' hx =>
    by_cases e : ip = ip'
    · subst e
      simp [State.free, State.setPtr, State.setInode, State.setCopy, Inode.id]
    · simp [State.free, State.setPtr, State.setInode, State.setCopy, e]
  | assign | wait | acquire | filled | unlock | put | putAcquire | test | read | keep | release
  | ialloc | mark | link | unlink => rfl

variable [Fintype ω]

/-- Only `iput` frees an inode. -/
theorem Sound.keeps (h : Sound s) (hs : Step s s') (ht : (s.disk id).type ≠ none)
    (hf : ∀ p x ip k, s.ptr x = .iput p ip k → k.Frees → (s.icache ip).id ≠ id) :
    Keeps s s' id := by
  cases hs with
  | nlink hx hu hn =>
    refine h.keeps_setCopy ht (fun e => ?_) rfl rfl fun _ _ hb => hb
    rw [h.copy_of_locked hx hu, e]
    exact ⟨ht, List.prefix_rfl⟩
  | @append p x ip b hx hu hb =>
    refine h.keeps_setCopy ht (fun e => ?_) rfl rfl fun c _ hc => ?_
    · rw [h.copy_of_locked hx hu, e]
      exact ⟨ht, List.prefix_append ..⟩
    · by_cases e : (id.1, c) = ((s.icache ip).dev, b)
      · simp [State.append, e]
      · simpa [State.append, e] using hc
  | @itrunc p x ip hx =>
    have hne := hf p x ip .itrunc hx (.inl rfl)
    refine h.keeps_setCopy ht (fun e => absurd e hne) rfl rfl fun b hb hu => ?_
    have hnot : ¬ (id.1 = (s.icache ip).dev ∧ b ∈ (s.icache ip).copy.addrs) := by
      rintro ⟨hdev, hb'⟩
      rw [(h.safe.of_frees h.counted.positive hx (.inl rfl)).2.1] at hb'
      refine hne (Prod.ext hdev.symm (h.safe.blocks.disjoint id.1 _ _ b ?_ hb))
      rwa [hdev]
    rw [not_and_or] at hnot
    simpa [State.itrunc, State.setPtr, hu] using hnot
  | @free p x ip hx =>
    exact h.keeps_setCopy ht (fun e => absurd e (hf p x ip .free hx (.inr rfl))) rfl rfl
      fun _ _ hb => hb
  | @mark p x dev type inum hx hn =>
    have e : id ≠ (dev, inum) := by
      rintro rfl
      exact ht hn
    have hid : (s.mark x p (dev, inum) type).disk id = s.disk id := by
      simp [State.mark, State.setPtr, e]
    refine ⟨hid ▸ ht, hid ▸ List.prefix_rfl, by simp [State.mark, e], fun b hb => ?_⟩
    exact h.safe.blocks.used id.1 id.2 b hb
  | get | load | assign | wait | acquire | filled | fill | unlock | put | putAcquire | test
  | read | keep | release | unref | ialloc | link | unlink => exact h.keeps_of_eq ht rfl rfl rfl

variable [Fintype ι]

theorem sound : (cache ι ω).Invariant (fun _ _ => True) Sound where
  init := by
    rintro s ⟨href, hlock, hptr, huse, hblocks, hlinked⟩
    refine ⟨⟨fun ip => ?_, fun p x hu => absurd (huse p x) hu⟩, ⟨?_, ?_⟩,
      ⟨fun ip ip' h => ?_, fun ip h => ?_, hlinked, hblocks, fun p x ip hx => ?_, fun x => ?_⟩⟩
    · rw [href, eq_comm]
      exact Table.count_eq_zero fun x => by rw [hptr]; rfl
    · rintro p x ip (⟨hx, -⟩ | ⟨k, hx, -⟩) <;> cases (hptr x).symm.trans hx
    · rintro p x y ip (⟨hx, -⟩ | ⟨k, hx, -⟩) <;> cases (hptr x).symm.trans hx
    · exact absurd (href ip) h.ne'
    · exact absurd (href ip) h.ne'
    · cases (hptr x).symm.trans hx
    · rw [hptr]
      trivial
  step h _ hs := by
    have hs := step_of_next hs
    exact ⟨h.counted.step hs, h.locks.step h.counted hs, h.safe.step h.counted h.locks hs⟩

theorem Sound.next (h : Sound s) (hs : s.next a = some s') : Sound s' :=
  sound.step h trivial hs

/-- While a pointer refers to an entry, the entry stands for its inode, which keeps its blocks. -/
theorem Sound.keeps_of_run (h : Sound s) (hr : (cache ι ω).run s as = some s')
    (hx : (cache ι ω).Throughout (fun t => t.ptr x = .ref ip) s as) :
    (s'.icache ip).id = (s.icache ip).id ∧ Keeps s s' (s.icache ip).id ∧ Sound s' := by
  have hstart : Keeps s s (s.icache ip).id :=
    h.keeps_of_eq (h.safe.alive_of_ref hx.head).1 rfl rfl rfl
  refine (hx.keeps (Q := fun t => (t.icache ip).id = (s.icache ip).id ∧
    Keeps s t (s.icache ip).id ∧ Sound t) ?_ hr ⟨rfl, hstart, h⟩).1
  intro t a u ht _ hq hn
  obtain ⟨hid, hkeeps, hsound⟩ := hq
  have hs := step_of_next hn
  have hid' := hs.id_eq (hsound.counted.pos_of_ref ht)
  refine ⟨hid'.trans hid, hkeeps.trans ?_, hsound.next hn⟩
  refine hsound.keeps hs hkeeps.type fun p y ip' k hy hk => ?_
  rw [← hid]
  exact hsound.not_frees_of_ref ht hy hk

/-- For any number of processes and pointers and any interleaving: entries in use stand for
different inodes; an entry that a pointer refers to is not recycled; an inode and its blocks are
freed by an `iput` that finds `nlink` 0 and has the only reference; and as long as a pointer refers
to an entry, its inode stays allocated, is not allocated anew, and keeps its blocks, which belong to
no other inode. -/
theorem icache_safe (h : (cache ι ω).Reached s) :
    (∀ ip ip', 0 < (s.icache ip).ref → 0 < (s.icache ip').ref →
      (s.icache ip).dev = (s.icache ip').dev → (s.icache ip).inum = (s.icache ip').inum →
      ip = ip') ∧
    (∀ x ip, (s.ptr x).entry = some ip → 0 < (s.icache ip).ref ∧
      ∀ a s', s.next a = some s' → (s'.icache ip).id = (s.icache ip).id) ∧
    (∀ a s' id, s.next a = some s' → (s.disk id).type ≠ none →
      (s'.disk id).type = none ∨ (∃ b ∈ (s.disk id).addrs, s'.used (id.1, b) = false) →
      ∃ p x ip k, s.ptr x = .iput p ip k ∧ (s.icache ip).id = id ∧ (s.disk id).nlink = 0 ∧
        (s.icache ip).ref = 1 ∧ ∀ y, (s.ptr y).entry = some ip → y = x) ∧
    ∀ as s' x ip, (cache ι ω).run s as = some s' →
      (cache ι ω).Throughout (fun t => t.ptr x = .ref ip) s as →
      (s'.icache ip).id = (s.icache ip).id ∧ Keeps s s' (s.icache ip).id ∧
        ∀ b ∈ (s.disk (s.icache ip).id).addrs, ∀ j,
          b ∈ (s'.disk ((s.icache ip).dev, j)).addrs → j = (s.icache ip).inum := by
  have hsound := sound.of_reached h
  refine ⟨fun ip ip' hr hr' hd hi => hsound.safe.unique ip ip' hr hr' (Prod.ext hd hi),
    fun x ip hx => ?_, fun a s' id hn ht hfreed => ?_, fun as s' x ip hr hx => ?_⟩
  · have hr := hsound.counted.ref_pos hx
    exact ⟨hr, fun a s' hn => (step_of_next hn).id_eq hr⟩
  · by_contra hno
    have hkeeps := hsound.keeps (step_of_next hn) ht fun p x ip k hx hk hid => hno ?_
    · rcases hfreed with hnone | ⟨b, hb, hu⟩
      · exact hkeeps.type hnone
      · rw [hkeeps.used b hb] at hu
        cases hu
    · obtain ⟨-, -, hnlink, href⟩ := hsound.safe.of_frees hsound.counted.positive hx hk
      exact ⟨p, x, ip, k, hx, hid, hid ▸ hnlink, href,
        fun y hy => hsound.safe.only_of_frees hsound.counted hx hk hy⟩
  · obtain ⟨hid, hkeeps, hsound'⟩ := hsound.keeps_of_run hr hx
    refine ⟨hid, hkeeps, fun b hb j hj => ?_⟩
    exact hsound'.safe.blocks.disjoint _ j _ b hj (hkeeps.addrs.subset hb)

/-! ## A file that is unlinked while it is open -/

/-- A disk with a file of one block, in one directory. -/
def oneFile : State (Fin 2) (Fin 2) where
  icache _ := ⟨0, 0, 0, false, ⟨none, 0, []⟩⟩
  lock _ := none
  disk id := if id = (1, 2) then ⟨some .T_FILE, 1, [60]⟩ else ⟨none, 0, []⟩
  used b := b = (1, 60)
  ptr _ := .null
  use _ _ := .idle
  entries id := if id = (1, 2) then 1 else 0
  allocs _ := 0

theorem init_oneFile : (cache (Fin 2) (Fin 2)).init oneFile := by
  have hdisk : ∀ i, i ≠ (1, 2) → (oneFile.disk i).addrs = [] := fun i hi => by simp [oneFile, hi]
  refine ⟨fun _ => rfl, fun _ => rfl, fun _ => rfl, fun _ _ => rfl,
    ⟨fun dev i b hb => ?_, fun dev i j b hi hj => ?_⟩, fun i hi => ?_⟩
  · by_cases e : (dev, i) = (1, 2)
    · cases e
      obtain rfl := List.mem_singleton.mp hb
      rfl
    · rw [hdisk _ e] at hb
      cases hb
  · by_cases ei : (dev, i) = (1, 2)
    · by_cases ej : (dev, j) = (1, 2)
      · exact congrArg Prod.snd (ei.trans ej.symm)
      · rw [hdisk _ ej] at hj
        cases hj
    · rw [hdisk _ ei] at hi
      cases hi
  · by_cases e : i = (1, 2)
    · subst e
      decide
    · simp [oneFile, e] at hi

local instance neZero_two : NeZero 2 := ⟨by decide⟩

/-- The file is opened, and `unlink` looks it up and takes back its link. -/
def unlinkOpen : List (Act (Fin 2) (Fin 2)) :=
  [.iget 0 (1, 2), .iget 1 (1, 2), .ilock 0 1, .acquiresleep 0 1, .fill 0 1, .unlink (1, 2),
    .nlink 0 1 0, .iunlock 0 1]

/-- `unlink` drops its reference, and another process makes a file. -/
def putAndAlloc : List (Act (Fin 2) (Fin 2)) :=
  [.iput 0 1, .goOn 1, .goOn 1, .goOn 1, .goOn 1, .goOn 1, .ialloc 1 1 1 .T_FILE, .goOn 1, .goOn 1]

/-- The file keeps its block, though it has no links any more. -/
theorem icache_safe_unlinkOpen : ∃ s s', (cache (Fin 2) (Fin 2)).Reached s ∧
    (s.disk (1, 2)).nlink = 0 ∧ s.entries (1, 2) = 0 ∧
    (cache (Fin 2) (Fin 2)).run s putAndAlloc = some s' ∧ Keeps s s' (1, 2) := by
  obtain ⟨s, hs, hp⟩ := LTS.exists_reached_of_run (M := cache (Fin 2) (Fin 2)) unlinkOpen
    (fun s => decide ((s.disk (1, 2)).nlink = 0 ∧ s.entries (1, 2) = 0 ∧
      (s.icache ⟨0, by decide⟩).id = (1, 2) ∧
      ((cache (Fin 2) (Fin 2)).run s putAndAlloc).isSome ∧
      (cache (Fin 2) (Fin 2)).Throughout (fun t => t.ptr 0 = .ref ⟨0, by decide⟩) s putAndAlloc))
    init_oneFile (by decide +kernel)
  obtain ⟨hn, he, hid, hrun, hx⟩ := of_decide_eq_true hp
  obtain ⟨s', hs'⟩ := Option.isSome_iff_exists.mp hrun
  have hkeeps := ((icache_safe hs).2.2.2 putAndAlloc s' 0 ⟨0, by decide⟩ hs' hx).2.1
  rw [hid] at hkeeps
  exact ⟨s, s', hs, hn, he, hs', hkeeps⟩

end Xv6.Icache
