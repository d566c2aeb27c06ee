import Xv6.Sys.Effect

/-! # Rules for the operations on inodes and files

Each operation that makes a few changes has a rule that gives the state it leaves, with what it has
tested. The rules say for each panic in which states it occurs. -/

namespace Xv6.Sys

open Fault
open Fs (Inode Dirent)

theorem acquiresleep_rule (hb : ∀ s, P s → s.lock ip ≠ none → E .blocked)
    (h : ∀ s, P s → s.lock ip = none → Q () (s.setLock ip (some (s.pid p)))) :
    Triple E P (acquiresleep p ip) Q :=
  .bind (.check hb) fun _ => .writes fun s hs => h s hs.1 hs.2

theorem ilock_rule (hb : ∀ s, P s → s.lock ip ≠ none → E .blocked)
    (hr : ∀ s, P s → (s.icache ip).ref < 1 → E .ilock)
    (ht : ∀ s, P s → 1 ≤ (s.icache ip).ref → (s.icache ip).valid = false → (s.ino ip).type = none →
      E .ilockType) (h : ∀ s, P s → 1 ≤ (s.icache ip).ref → s.lock ip = none →
      (s.icache ip).valid = true ∨ (s.ino ip).type ≠ none → Q () (s.locked p ip)) :
    Triple E P (ilock p ip) Q := by
  refine .bind (.check fun s hs hc => hr s hs (not_le.mp hc)) fun _ => ?_
  refine .bind (Q := fun _ t => ∃ s, (P s ∧ 1 ≤ (s.icache ip).ref ∧ s.lock ip = none) ∧
    t = s.setLock ip (some (s.pid p)))
    (acquiresleep_rule (fun s hs => hb s hs.1) fun s hs hl => ⟨s, ⟨hs.1, hs.2, hl⟩, rfl⟩)
    fun _ => ?_
  refine .bind (.check ?_) fun _ => .writes ?_
  · rintro t ⟨s, ⟨hs, h1, -⟩, rfl⟩ hc
    rw [not_or, not_not, Bool.not_eq_true] at hc
    exact ht s hs h1 hc.1 hc.2
  · rintro t ⟨⟨s, ⟨hs, h1, hl⟩, rfl⟩, hc⟩
    exact h s hs h1 hl hc

theorem iunlock_rule
    (hu : ∀ s, P s → ¬ (s.lock ip = some (s.pid p) ∧ 1 ≤ (s.icache ip).ref) → E .iunlock)
    (h : ∀ s, P s → s.lock ip = some (s.pid p) → 1 ≤ (s.icache ip).ref → Q () (s.setLock ip none)) :
    Triple E P (iunlock p ip) Q :=
  .bind (.check hu) fun _ => .writes fun s hs => h s hs.1 hs.2.1 hs.2.2

/-- The lock that `iput` takes is free before and after. -/
theorem State.put_locked {s : State} {v : Int} (hl : s.lock ip = none) :
    (let t := s.setLock ip (some v)
      let t := if (t.icache ip).valid = true ∧ (t.ino ip).nlink = 0 ∧ (t.icache ip).ref = 1 then
        t.free ip else t
      let t := t.setLock ip none
      t.setEntry ip { t.icache ip with ref := (t.icache ip).ref - 1 }) = s.put ip := by
  have hlock : Function.update (Function.update s.lock ip (some v)) ip none = s.lock := by
    rw [Function.update_idem, ← hl, Function.update_eq_self]
  by_cases hf : s.Frees ip
  · have hf' : ((s.setLock ip (some v)).icache ip).valid = true ∧
        ((s.setLock ip (some v)).ino ip).nlink = 0 ∧ ((s.setLock ip (some v)).icache ip).ref = 1 :=
      hf
    simp only [State.put, if_pos hf, if_pos hf']
    simp only [State.setEntry, State.setLock, State.free, State.setIno, State.setInode,
      State.setData, hlock]
  · have hf' : ¬ (((s.setLock ip (some v)).icache ip).valid = true ∧
        ((s.setLock ip (some v)).ino ip).nlink = 0 ∧ ((s.setLock ip (some v)).icache ip).ref = 1) :=
      hf
    simp only [State.put, if_neg hf, if_neg hf']
    simp only [State.setEntry, State.setLock, hlock]

theorem iput_rule {Q : Unit → State → Prop} (hb : ∀ s, P s → s.lock ip ≠ none → E .blocked)
    (h : ∀ s, P s → s.lock ip = none → Q () (s.put ip)) : Triple E P (iput p ip) Q := by
  refine .bind (Q := fun _ t => ∃ s v, (P s ∧ s.lock ip = none) ∧ t = s.setLock ip (some v))
    (acquiresleep_rule hb fun s hs hl => ⟨s, _, ⟨hs, hl⟩, rfl⟩) fun _ => ?_
  rintro t ⟨s, v, ⟨hs, hl⟩, rfl⟩
  exact (congrArg (Q ()) (State.put_locked hl)).mpr (h s hs hl)

theorem iget_rule (hi : ∀ s, P s → (∀ ip, (s.icache ip).ref ≠ 0) → E .iget)
    (hget : ∀ s ip, P s → 0 < (s.icache ip).ref → (s.icache ip).inum = inum →
      Q ip (s.setEntry ip { s.icache ip with ref := (s.icache ip).ref + 1 }))
    (hload : ∀ s ip, P s → (s.icache ip).ref = 0 →
      (∀ ip', 0 < (s.icache ip').ref → (s.icache ip').inum ≠ inum) →
      Q ip (s.setEntry ip ⟨inum, 1, false⟩)) : Triple E P (iget inum) Q := by
  refine .reads_bind fun icache => ?_
  split
  · next ip hfind =>
    have hip : 0 < (icache ip).ref ∧ (icache ip).inum = inum := by
      simpa using List.find?_some hfind
    refine .bind_pure (.writes ?_)
    rintro s ⟨hs, rfl⟩
    exact hget s ip hs hip.1 hip.2
  · next hnone =>
    have hno : ∀ ip, 0 < (icache ip).ref → (icache ip).inum ≠ inum := by simpa using hnone
    split
    · next ip hfind =>
      refine .bind_pure (.writes ?_)
      rintro s ⟨hs, rfl⟩
      exact hload s ip hs (by simpa using List.find?_some hfind) hno
    · next hfree =>
      rintro s ⟨hs, rfl⟩
      exact hi s hs (by simpa using hfree)

theorem idup_rule
    (h : ∀ s, P s → Q ip (s.setEntry ip { s.icache ip with ref := (s.icache ip).ref + 1 })) :
    Triple E P (idup ip) Q :=
  .bind_pure (.writes h)

def entryInum (d : Inode) (off : Nat) : Nat := d.entries[off]?.elim 0 Dirent.inum

theorem dirlookup_rule (hd : ∀ s, P s → (s.ino dp).type ≠ some .T_DIR → E .dirlookup)
    (hi : ∀ s, P s → (∀ ip, (s.icache ip).ref ≠ 0) → E .iget)
    (hnone : ∀ s, P s → (s.ino dp).type = some .T_DIR → (s.ino dp).lookup name = none → Q none s)
    (hget : ∀ s off ip, P s → (s.ino dp).type = some .T_DIR → (s.ino dp).lookup name = some off →
      0 < (s.icache ip).ref → (s.icache ip).inum = entryInum (s.ino dp) off →
      Q (some (ip, off)) (s.setEntry ip { s.icache ip with ref := (s.icache ip).ref + 1 }))
    (hload : ∀ s off ip, P s → (s.ino dp).type = some .T_DIR → (s.ino dp).lookup name = some off →
      (s.icache ip).ref = 0 →
      (∀ ip', 0 < (s.icache ip').ref → (s.icache ip').inum ≠ entryInum (s.ino dp) off) →
      Q (some (ip, off)) (s.setEntry ip ⟨entryInum (s.ino dp) off, 1, false⟩)) :
    Triple E P (dirlookup dp name) Q := by
  refine .bind (.check hd) fun _ => .reads_bind fun d => ?_
  split
  · next off hoff =>
    refine .bind (Q := fun ip => Q (some (ip, off))) (iget_rule ?_ ?_ ?_) fun ip =>
      .pure fun _ => id
    · rintro s ⟨⟨hs, ht⟩, rfl⟩ hfull
      exact hi s hs hfull
    · rintro s ip ⟨⟨hs, ht⟩, rfl⟩ hr he
      exact hget s off ip hs ht hoff hr he
    · rintro s ip ⟨⟨hs, ht⟩, rfl⟩ h0 hno
      exact hload s off ip hs ht hoff h0 hno
  · next hnil =>
    refine .pure ?_
    rintro s ⟨⟨hs, ht⟩, rfl⟩
    exact hnone s hs ht hnil

/-- What `filealloc` does in `s`. -/
abbrev Fileallocs (s : State) : Option (Fin Fs.NFILE) → State → Prop
  | none, t => t = s
  | some f, t => (s.file f).ref = 0 ∧ t = s.setFile f { s.file f with ref := 1 }

abbrev Fdallocs (p : Slot) (f : Fin Fs.NFILE) (s : State) : Option (Fin Fs.NOFILE) → State → Prop
  | none, t => t = s
  | some fd, t => s.ofile p fd = none ∧ t = s.setOfile p fd (some f)

theorem filealloc_rule (hnone : ∀ s, P s → (∀ f, (s.file f).ref ≠ 0) → Q none s)
    (hsome : ∀ s f, P s → (s.file f).ref = 0 →
      Q (some f) (s.setFile f { s.file f with ref := 1 })) : Triple E P filealloc Q := by
  refine .reads_bind fun file => ?_
  split
  · next f hfind =>
    refine .bind (.writes (Q := fun _ => Q (some f)) ?_) fun _ => .pure fun _ => id
    rintro s ⟨hs, rfl⟩
    exact hsome s f hs (by simpa using List.find?_some hfind)
  · next hfree =>
    refine .pure ?_
    rintro s ⟨hs, rfl⟩
    exact hnone s hs (by simpa using hfree)

theorem fdalloc_rule (hnone : ∀ s, P s → (∀ fd, s.ofile p fd ≠ none) → Q none s)
    (hsome : ∀ s fd, P s → s.ofile p fd = none → Q (some fd) (s.setOfile p fd (some f))) :
    Triple E P (fdalloc p f) Q := by
  refine .reads_bind fun ofile => ?_
  split
  · next fd hfind =>
    refine .bind (.writes (Q := fun _ => Q (some fd)) ?_) fun _ => .pure fun _ => id
    rintro s ⟨hs, rfl⟩
    exact hsome s fd hs (by simpa using List.find?_some hfind)
  · next hfree =>
    refine .pure ?_
    rintro s ⟨hs, rfl⟩
    exact hnone s hs (by simpa using hfree)

theorem filedup_rule (hd : ∀ s, P s → (s.file f).ref < 1 → E .filedup)
    (h : ∀ s, P s → 1 ≤ (s.file f).ref →
      Q () (s.setFile f { s.file f with ref := (s.file f).ref + 1 })) : Triple E P (filedup f) Q :=
  .bind (.check fun s hs hc => hd s hs (not_le.mp hc)) fun _ => .writes fun s hs => h s hs.1 hs.2

/-- The transaction of `fileclose` ends where it has begun. -/
theorem State.put_transaction {s : State} :
    { State.put { s with outstanding := s.outstanding + 1 } ip with
      outstanding := (State.put { s with outstanding := s.outstanding + 1 } ip).outstanding - 1 } =
        s.put ip := by
  by_cases hf : s.Frees ip
  · have hf' : State.Frees { s with outstanding := s.outstanding + 1 } ip := hf
    simp only [State.put, if_pos hf, if_pos hf']
    simp only [State.setEntry, State.free, State.setIno, State.setInode, State.setData,
      add_sub_cancel_right]
  · have hf' : ¬ State.Frees { s with outstanding := s.outstanding + 1 } ip := hf
    simp only [State.put, if_neg hf, if_neg hf']
    simp only [State.setEntry, add_sub_cancel_right]

theorem fileclose_rule
    (hb : ∀ s ip, P s → (s.file f).ref = 1 → (s.file f).type = .FD_INODE ip → s.lock ip ≠ none →
      E .blocked) (hc : ∀ s, P s → (s.file f).ref < 1 → E .fileclose)
    (h : ∀ s, P s → 1 ≤ (s.file f).ref → Q () (s.close f)) : Triple E P (fileclose p f) Q := by
  refine .bind (.check fun s hs hn => hc s hs (not_le.mp hn)) fun _ => .reads_bind fun ff => ?_
  refine .ite (fun hr => .writes ?_) fun hr => ?_
  · rintro s ⟨⟨hs, h1⟩, rfl⟩
    have := h s hs h1
    rwa [State.close, if_pos hr] at this
  · refine .bind (Q := fun _ t => ∃ s, P s ∧ 1 ≤ (s.file f).ref ∧ s.file f = ff ∧
      t = s.setFile f { s.file f with ref := 0, type := .FD_NONE }) (.writes ?_) fun _ => ?_
    · rintro s ⟨⟨hs, h1⟩, rfl⟩
      exact ⟨s, hs, h1, rfl, rfl⟩
    · split
      · next ip htype =>
        refine .bind (Q := fun _ t => ∃ s, P s ∧ 1 ≤ (s.file f).ref ∧ s.file f = ff ∧
          t = State.setFile { s with outstanding := s.outstanding + 1 } f
            { s.file f with ref := 0, type := .FD_NONE }) (.writes ?_) fun _ => ?_
        · rintro t ⟨s, hs, h1, rfl, rfl⟩
          exact ⟨s, hs, h1, rfl, rfl⟩
        · refine .bind (Q := fun _ t => Q () { t with outstanding := t.outstanding - 1 })
            (iput_rule ?_ ?_) fun _ => .writes fun _ => id
          · rintro t ⟨s, hs, h1, rfl, rfl⟩ hl
            exact hb s ip hs (by omega) htype hl
          · rintro t ⟨s, hs, h1, rfl, rfl⟩ -
            have := h s hs h1
            simp only [State.close, if_neg hr, htype] at this
            rw [← State.put_transaction] at this
            exact this
      · next htype =>
        refine .pure ?_
        rintro t ⟨s, hs, h1, rfl, rfl⟩
        have := h s hs h1
        rw [State.close, if_neg hr] at this
        revert this htype
        cases (s.file f).type with
        | FD_INODE ip => exact fun hn => absurd rfl (hn ip)
        | FD_NONE | FD_PIPE => exact fun _ => id

end Xv6.Sys
