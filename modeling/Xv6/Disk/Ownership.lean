import Xv6.Disk.Calls

/-! # Block ownership

On every run from an image whose blocks are owned, the blocks stay owned between the operations,
and no operation frees a block that is free. -/

namespace Xv6.Disk

open Fault
open Fs (BSIZE)
open Log (LOGSIZE)

def State.extents (s : State) (i : Nat) : Extent := (s.dinode i).extent

/-- The blocks of the inodes in use are data blocks that are marked in use, each block is in one
place of one inode, the blocks of a file before its end are there, and the data blocks that are
marked in use are blocks of inodes. -/
structure BlockOwnership (s : State) : Prop where
  data : ∀ q b, stored s.extents s.block q = some b → s.sb.IsData b ∧ s.bitmap b = true
  once : ∀ q r b, stored s.extents s.block q = some b → stored s.extents s.block r = some b → q = r
  mapped : ∀ i, (s.dinode i).type ≠ none → ∀ bn, bn < ((s.dinode i).size + (BSIZE - 1)) / BSIZE →
    stored s.extents s.block (i, .ofIndex bn) ≠ none
  owned : ∀ b, s.sb.IsData b → s.bitmap b = true → ∃ q, stored s.extents s.block q = some b

/-- The operations one after another, on an image whose blocks are owned. An operation that panics
has no next state. -/
def disk : LTS State Op where
  init s := ∃ image : Image, BlockOwnership image.boot ∧ s = image.boot
  next s a := if a.Enabled s then (a.run s).toOption.map Prod.snd else none

variable {s : State}

theorem BlockOwnership.calm {image : Image} (h : BlockOwnership image.boot) :
    Calm [] image.boot := by
  refine ⟨image.boot.extents, ⟨⟨h.data, h.once, nofun, .nil, fun b hd hb => .inr (h.owned b hd hb)⟩,
    image.reserved, fun i hi bn hbn => ?_⟩, fun _ => rfl, nofun, nofun, nofun, fun ip => le_rfl⟩
  rw [← stored_of_type hi]
  exact h.mapped i hi bn hbn

theorem Calm.blockOwnership (h : Calm [] s) : BlockOwnership s := by
  obtain ⟨v, hb, hc⟩ := h
  obtain rfl : s.extents = v := funext hc.disk
  refine ⟨hb.owned.placed, hb.owned.inj, fun i hi bn hbn => ?_, fun b hd hu => ?_⟩
  · rw [stored_of_type hi]
    exact hb.mapped i hi bn hbn
  · exact (hb.owned.back b hd hu).resolve_left List.not_mem_nil

theorem idle_invariant : disk.Invariant (fun _ _ => True) Idle where
  init := by
    rintro s ⟨image, h, rfl⟩
    exact ⟨h.calm, rfl⟩
  step := by
    intro s a s' hs _ hn
    have hn : (if a.Enabled s then (a.run s).toOption.map Prod.snd else none) = some s' := hn
    split at hn
    · next he =>
      have hr := a.run_spec s ⟨hs, he⟩
      cases hx : a.run s with
      | ok r =>
        rw [hx] at hn hr
        exact Option.some.inj hn ▸ hr
      | error e =>
        rw [hx] at hn
        cases hn
    · cases hn

/-- A disk of 80 blocks as `mkfs` lays it out, with an empty root directory. The first 34 blocks are
those of the boot code, the superblock, the log, the inodes and the free map. -/
def emptyImage : Image where
  sb := ⟨80, 46, 4, LOGSIZE, 32, 33, by decide, by decide⟩
  bitmap b := decide (b < 34)
  dinode i := { Dinode.zero (if i = 1 then some .T_DIR else none) with
    perm := Fs.newPerm .T_DIR, owner := Users.root.1 ++ [0] }
  block _ _ := 0
  reserved := by decide

theorem blockOwnership_emptyImage : BlockOwnership emptyImage.boot := by
  have hnone : ∀ q, stored emptyImage.boot.extents emptyImage.boot.block q = none := by
    rintro ⟨i, p⟩
    rw [stored, Extent.stored_eq_none fun _ _ => rfl, ite_self]
  refine ⟨fun q b hq => ?_, fun q r b hq => ?_, fun i _ bn hbn => ?_, fun b hd hb => ?_⟩
  · rw [hnone] at hq
    cases hq
  · rw [hnone] at hq
    cases hq
  · exact absurd hbn (by simp [emptyImage, Image.boot, Dinode.zero, BSIZE])
  · exact absurd hd.1 (not_le.mpr (of_decide_eq_true hb))

/-- Root, in the first entry of the cache. -/
def emptyCaller : Caller := ⟨1, Users.root.1, 1, ⟨0, Fs.NINODE_pos⟩⟩

end Xv6.Disk
