import Mathlib.Data.List.Basic
import Mathlib.Logic.Function.Basic

/-! # Strings in memory

A memory gives the byte at each address. `Holds m a s` says that the bytes of `s` stand at `a`; a
string in the sense of C is such a list with a zero behind it and no zero in it. `str` reads the
string at an address, up to a limit on its length, and `strncpy` is the function of the C library
with its source given as a string. `strcpy` reads its source from memory. -/

namespace CString

open Function

abbrev Mem := Nat → UInt8

variable {m m' : Mem} {a n limit : Nat} {c : UInt8} {s t : List UInt8}

/-! ## Bytes at an address -/

def Holds (m : Mem) : Nat → List UInt8 → Prop
  | _, [] => True
  | a, c :: s => m a = c ∧ Holds m (a + 1) s

theorem holds_append : Holds m a (s ++ t) ↔ Holds m a s ∧ Holds m (a + s.length) t := by
  induction s generalizing a with
  | nil => simp [Holds]
  | cons c s ih =>
    simp only [List.cons_append, Holds, ih, List.length_cons, and_assoc]
    rw [Nat.add_assoc, Nat.add_comm 1]

theorem Holds.congr (h : Holds m a s) (he : ∀ x, a ≤ x → x < a + s.length → m' x = m x) :
    Holds m' a s := by
  induction s generalizing a with
  | nil => trivial
  | cons c s ih =>
    refine ⟨(he a (Nat.le_refl _) (by simp)).trans h.1, ih h.2 fun x h₁ h₂ => he x (by omega) ?_⟩
    simp only [List.length_cons]
    omega

theorem Holds.update (h : Holds m a s) (hb : b < a ∨ a + s.length ≤ b) : Holds (update m b c) a s :=
  h.congr fun x h₁ h₂ => update_of_ne (by omega) ..

/-! ## Strings -/

/-- The string `s`, with its terminator, stands at `a`. -/
structure IsStr (m : Mem) (a : Nat) (s : List UInt8) : Prop where
  holds : Holds m a (s ++ [0])
  nonzero : 0 ∉ s

theorem IsStr.congr (h : IsStr m a s) (he : ∀ x, a ≤ x → x ≤ a + s.length → m' x = m x) :
    IsStr m' a s :=
  ⟨h.holds.congr fun x h₁ h₂ => he x h₁ (by simp at h₂; omega), h.nonzero⟩

/-- The bytes of a string, one by one. -/
theorem isStr_of_getD (hs : 0 ∉ s) (h : ∀ i ≤ s.length, m (a + i) = s.getD i 0) : IsStr m a s := by
  refine ⟨?_, hs⟩
  induction s generalizing a with
  | nil => exact ⟨h 0 (Nat.le_refl 0), trivial⟩
  | cons c s ih =>
    refine ⟨h 0 (Nat.zero_le _), ih (List.not_mem_of_not_mem_cons hs) fun i hi => ?_⟩
    have := h (i + 1) (Nat.succ_le_succ hi)
    rwa [show a + (i + 1) = a + 1 + i by omega] at this

/-- The bytes from `a` on up to the first zero, and at most `limit` of them. -/
def str (m : Mem) : Nat → Nat → List UInt8
  | 0, _ => []
  | limit + 1, a => if m a = 0 then [] else m a :: str m limit (a + 1)

theorem length_str_le : (str m limit a).length ≤ limit := by
  induction limit generalizing a with
  | zero => simp [str]
  | succ limit ih =>
    simp only [str]
    split
    · simp
    · simpa using ih

theorem zero_notMem_str : 0 ∉ str m limit a := by
  induction limit generalizing a with
  | zero => exact List.not_mem_nil
  | succ limit ih =>
    rw [str]
    split
    · exact List.not_mem_nil
    · next h => exact fun hm => (List.mem_cons.mp hm).elim (fun e => h e.symm) ih

theorem IsStr.str_eq (h : IsStr m a s) (hl : s.length < limit) : str m limit a = s := by
  induction limit generalizing a s with
  | zero => omega
  | succ limit ih =>
    cases s with
    | nil => simp [str, h.holds.1]
    | cons c s =>
      obtain ⟨hc, hs⟩ := h.holds
      have hn : 0 ≠ c ∧ 0 ∉ s := by simpa using h.nonzero
      rw [str, hc, if_neg hn.1.symm, ih ⟨hs, hn.2⟩ (by simpa using hl)]

/-! ## `strncpy` -/

def strncpy (m : Mem) (s : Nat) : List UInt8 → Nat → Mem
  | _, 0 => m
  | [], n + 1 => strncpy (update m s 0) (s + 1) [] n
  | c :: t, n + 1 => strncpy (update m s c) (s + 1) t n

theorem strncpy_of_lt (h : x < a) : strncpy m a t n x = m x := by
  induction n generalizing m a t with
  | zero => cases t <;> rfl
  | succ n ih =>
    cases t <;> rw [strncpy, ih (by omega), update_of_ne (by omega)]

theorem strncpy_of_le (h : a + n ≤ x) : strncpy m a t n x = m x := by
  induction n generalizing m a t with
  | zero => cases t <;> rfl
  | succ n ih =>
    cases t <;> rw [strncpy, ih (by omega), update_of_ne (by omega)]

/-- A copy with its own length, over what was there. -/
theorem strncpy_length_apply (m : Mem) (a : Nat) (s : List UInt8) (j : Nat) :
    strncpy m a s s.length (a + j) = s.getD j (m (a + j)) := by
  induction s generalizing m a j with
  | nil => rfl
  | cons c s ih =>
    rw [List.length_cons, strncpy]
    cases j with
    | zero => exact (strncpy_of_lt (Nat.lt_succ_self a)).trans (update_self a c m)
    | succ j =>
      rw [show a + (j + 1) = a + 1 + j by omega, ih, update_of_ne (by omega)]
      rfl

/-- A string copied with its own length stands at the destination. -/
theorem holds_strncpy : Holds (strncpy m a s s.length) a s := by
  induction s generalizing m a with
  | nil => trivial
  | cons c s ih =>
    refine ⟨?_, ih⟩
    rw [List.length_cons, strncpy, strncpy_of_lt (Nat.lt_succ_self a), update_self]

theorem Holds.strncpy (h : Holds m a s) (hb : b + n ≤ a ∨ a + s.length ≤ b) :
    Holds (CString.strncpy m b t n) a s := by
  refine h.congr fun x h₁ h₂ => ?_
  rcases hb with hb | hb
  · exact strncpy_of_le (by omega)
  · exact strncpy_of_lt (by omega)

/-- Copying over memory that is zero behind the copy leaves a string. -/
theorem isStr_strncpy (hs : 0 ∉ s) (hz : m (a + s.length) = 0) :
    IsStr (strncpy m a s s.length) a s := by
  refine ⟨holds_append.mpr ⟨holds_strncpy, ?_, trivial⟩, hs⟩
  rw [strncpy_of_le (Nat.le_refl _), hz]

/-! ## `strcpy` -/

/-- `strcpy(s, t)` into an array with `room` bytes from `s` on, if it stores inside the array. -/
def strcpy : Nat → Mem → Nat → Mem → Nat → Option Mem
  | 0, _, _, _, _ => none
  | room + 1, m, s, m', t =>
    if m' t = 0 then some (update m s 0)
    else strcpy room (update m s (m' t)) (s + 1) m' (t + 1)

theorem strcpy_eq (h : IsStr m' b s) : strcpy n m a m' b =
    if s.length < n then some (strncpy m a (s ++ [0]) (s ++ [0]).length) else none := by
  induction n generalizing m a b s with
  | zero => simp [strcpy]
  | succ n ih =>
    cases s with
    | nil => simp [strcpy, h.holds.1, strncpy]
    | cons c s =>
      obtain ⟨hc, hs⟩ := h.holds
      have hn : 0 ≠ c ∧ 0 ∉ s := by simpa using h.nonzero
      rw [strcpy, hc, if_neg hn.1.symm, ih ⟨hs, hn.2⟩]
      simp [strncpy]

/-- A string that fits is copied, and nothing else changes. -/
theorem exists_strcpy_eq_some (h : IsStr m' b s) (hn : s.length < n) :
    ∃ m₁, strcpy n m a m' b = some m₁ ∧ IsStr m₁ a s ∧
      ∀ x, x < a ∨ a + s.length < x → m₁ x = m x := by
  refine ⟨_, by rw [strcpy_eq h, if_pos hn], ⟨holds_strncpy, h.nonzero⟩, fun x hx => ?_⟩
  rcases hx with hx | hx
  · exact strncpy_of_lt hx
  · exact strncpy_of_le (by simp only [List.length_append, List.length_singleton]; omega)

/-- Without a terminator in reach the copy leaves the array. -/
theorem strcpy_eq_none (h : ∀ i < n, m' (b + i) ≠ 0) : strcpy n m a m' b = none := by
  induction n generalizing m a b with
  | zero => rfl
  | succ n ih =>
    have h₀ : m' b ≠ 0 := h 0 (Nat.succ_pos n)
    rw [strcpy, if_neg h₀]
    refine ih fun i hi => ?_
    have := h (i + 1) (Nat.succ_lt_succ hi)
    rwa [show b + 1 + i = b + (i + 1) by omega]

/-! ## Comparison -/

def strncmp : List UInt8 → List UInt8 → Nat → Int
  | _, _, 0 => 0
  | [], q, _ + 1 => 0 - (q.headD 0).toNat
  | c :: p, q, n + 1 =>
    if c = q.headD 0 then strncmp p q.tail n else c.toNat - (q.headD 0).toNat

theorem strncmp_eq_zero_iff (h : s.length = t.length) : strncmp s t s.length = 0 ↔ s = t := by
  induction s generalizing t with
  | nil => simp [strncmp, List.length_eq_zero_iff.mp h.symm]
  | cons c s ih =>
    cases t with
    | nil => simp at h
    | cons d t =>
      simp only [List.length_cons, Nat.add_right_cancel_iff] at h
      simp only [List.length_cons, strncmp, List.headD_cons, List.tail_cons]
      by_cases e : c = d
      · simp [e, ih h]
      · have : c.toNat ≠ d.toNat := fun h => e (UInt8.toNat_inj.mp h)
        simp only [List.cons.injEq, e, false_and, iff_false, if_false]
        omega

/-- Strings agree under `strncmp` if their first bytes do. -/
theorem strncmp_eq_zero_iff_take (hs : 0 ∉ s) (ht : 0 ∉ t) :
    strncmp s t n = 0 ↔ s.take n = t.take n := by
  have hpos : ∀ {c : UInt8} {s}, 0 ∉ c :: s → c ≠ 0 ∧ c.toNat ≠ 0 ∧ 0 ∉ s := by
    intro c s h
    obtain ⟨hc, hs⟩ : 0 ≠ c ∧ 0 ∉ s := by simpa using h
    exact ⟨hc.symm, fun e => hc (UInt8.toNat_inj.mp e.symm), hs⟩
  induction n generalizing s t with
  | zero => simp [strncmp]
  | succ n ih =>
    cases s with
    | nil =>
      cases t with
      | nil => simp [strncmp]
      | cons d t => simp [strncmp, (hpos ht).2.1]
    | cons c s =>
      obtain ⟨hc, hc', hs⟩ := hpos hs
      cases t with
      | nil => simp [strncmp, hc, hc']
      | cons d t =>
        simp only [strncmp, List.headD_cons, List.tail_cons, List.take_succ_cons]
        by_cases e : c = d
        · simp [e, ih hs (hpos ht).2.2]
        · have : c.toNat ≠ d.toNat := fun h => e (UInt8.toNat_inj.mp h)
          simp only [List.cons.injEq, e, false_and, iff_false, if_false]
          omega

end CString
