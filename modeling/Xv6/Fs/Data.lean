import Xv6.Log.Log

/-! # The bytes of a regular file

`readi`, `writei`, `cleari` and `filewrite` on the bytes of a regular inode, whose `size` is the
length of the list. `none` is the result `-1`. A write for which the disk has no block left stops
the machine in `balloc` and has no result. -/

namespace Xv6.Fs

def BSIZE : Nat := 512

def NOFILE : Nat := 16

inductive InodeType
  | T_DIR | T_FILE | T_DEV
  deriving DecidableEq

def InodeType.code : InodeType → UInt16
  | .T_DIR => 1
  | .T_FILE => 2
  | .T_DEV => 3

def halfBytes (w : UInt16) : List UInt8 := [w.toUInt8, (w >>> 8).toUInt8]

def wordBytes (w : UInt32) : List UInt8 :=
  [w.toUInt8, (w >>> 8).toUInt8, (w >>> 16).toUInt8, (w >>> 24).toUInt8]

def NDIRECT : Nat := 7

def NINDIRECT : Nat := BSIZE / 4

def MAXFILE : Nat := NDIRECT + NINDIRECT

variable {data src : List UInt8} {off : Nat}

def readi (data : List UInt8) (off n : Nat) : Option (List UInt8) :=
  if off > data.length then none else some ((data.drop off).take n)

theorem readi_zero (n : Nat) : readi data 0 n = some (data.take n) := by simp [readi]

/-- The bytes after those of `src` have been written at `off`. -/
def splice (data : List UInt8) (off : Nat) (src : List UInt8) : List UInt8 :=
  data.take off ++ src ++ data.drop (off + src.length)

def writei (data : List UInt8) (off : Nat) (src : List UInt8) : Option (List UInt8) :=
  if off > data.length ∨ off + src.length > MAXFILE * BSIZE then none
  else some (splice data off src)

def cleari (data : List UInt8) : Option (List UInt8) :=
  if data.length > MAXFILE * BSIZE then none else some (List.replicate data.length 0)

/-- The number of bytes `filewrite` writes in one transaction. -/
def maxWrite : Nat := (Log.MAXOPBLOCKS - 1 - 1 - 2) / 2 * 512

/-- The loop of `filewrite`, for at most as many iterations as the first argument. The result is
whether all bytes were written, and the file with its offset. -/
def filewriteFor : Nat → List UInt8 → Nat → List UInt8 → Bool × List UInt8 × Nat
  | 0, data, off, src => (src.isEmpty, data, off)
  | k + 1, data, off, src =>
    if src.isEmpty then (true, data, off)
    else
      match writei data off (src.take maxWrite) with
      | none => (false, data, off)
      | some data => filewriteFor k data (off + (src.take maxWrite).length) (src.drop maxWrite)

/-- `filewrite` on an inode; every iteration writes a byte. -/
def filewrite (data : List UInt8) (off : Nat) (src : List UInt8) : Bool × List UInt8 × Nat :=
  filewriteFor src.length data off src

theorem length_splice (ho : off ≤ data.length) :
    off + src.length ≤ (splice data off src).length := by
  simp [splice]
  omega

/-- Two writes, one behind the other, are one. -/
theorem splice_splice (ho : off ≤ data.length) :
    splice (splice data off src) (off + src.length) src' = splice data off (src ++ src') := by
  have hl : (data.take off ++ src).length = off + src.length := by simp [ho]
  rw [splice, splice, List.take_left' hl, ← List.drop_drop, List.drop_left' hl, List.drop_drop]
  simp only [splice, List.append_assoc, List.length_append, Nat.add_assoc]

/-- The chunks add up to one write. -/
theorem filewriteFor_eq (hk : src.length ≤ k) (ho : off ≤ data.length)
    (hs : off + src.length ≤ MAXFILE * BSIZE) :
    filewriteFor k data off src = (true, splice data off src, off + src.length) := by
  induction k generalizing data off src with
  | zero =>
    obtain rfl : src = [] := List.length_eq_zero_iff.mp (by omega)
    simp [filewriteFor, splice]
  | succ k ih =>
    cases src with
    | nil => simp [filewriteFor, splice]
    | cons c cs =>
      have hpos : 0 < maxWrite := by decide
      have hsum := congrArg List.length (List.take_append_drop maxWrite (c :: cs))
      rw [List.length_append] at hsum
      have hdrop : ((c :: cs).drop maxWrite).length = cs.length + 1 - maxWrite := List.length_drop
      rw [List.length_cons] at hk
      rw [filewriteFor, if_neg (by simp), writei, if_neg (by omega)]
      simp only
      rw [ih (by omega) (length_splice ho) (by omega), splice_splice ho, List.take_append_drop,
        ← hsum, Nat.add_assoc]

theorem filewrite_eq (ho : off ≤ data.length) (hs : off + src.length ≤ MAXFILE * BSIZE) :
    filewrite data off src = (true, splice data off src, off + src.length) :=
  filewriteFor_eq (Nat.le_refl _) ho hs

end Xv6.Fs
