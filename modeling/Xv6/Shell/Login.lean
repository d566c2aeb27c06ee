import Mathlib.Data.List.TakeWhile

/-! # The login program

`login.c` with `gets`. The input is what the console delivers; a program that reads beyond it waits.
-/

namespace Xv6.Login

def MAX_LEN : Nat := 15

def NEWLINE : UInt8 := 10

def RETURN : UInt8 := 13

/-- The loop of `gets` for at most as many characters: those it stores, and what is left of the
input. -/
def getsLoop : Nat → List UInt8 → Option (List UInt8 × List UInt8)
  | 0, input => some ([], input)
  | _ + 1, [] => none
  | k + 1, c :: input =>
    if c = NEWLINE ∨ c = RETURN then some ([c], input)
    else (getsLoop k input).map fun r => (c :: r.1, r.2)

def gets (max : Nat) (input : List UInt8) : Option (List UInt8 × List UInt8) :=
  getsLoop (max - 1) input

/-- `buf[strlen(buf) - 1] = 0`. -/
def chop (buf : List UInt8) : List UInt8 := (buf.takeWhile (· ≠ 0)).dropLast

/-- The calls of `login` in as many iterations of `main`. -/
def calls : Nat → List UInt8 → List (List UInt8 × List UInt8)
  | 0, _ => []
  | n + 1, input =>
    match gets (MAX_LEN + 1) input with
    | none => []
    | some (username, input) =>
      match gets (MAX_LEN + 1) input with
      | none => []
      | some (password, input) =>
        if (chop username).length > MAX_LEN ∨ (chop password).length > MAX_LEN then calls n input
        else (chop username, chop password) :: calls n input

variable {n : Nat}

/-- A string that can be typed on one line, of a length that `addUser` takes. -/
structure Typed (s : List UInt8) : Prop where
  two : 2 ≤ s.length
  max : s.length ≤ MAX_LEN
  plain : ∀ c ∈ s, c ≠ 0 ∧ c ≠ NEWLINE ∧ c ≠ RETURN

/-- `gets` takes a line that is shorter than its buffer, with the newline. -/
theorem getsLoop_line (hs : ∀ c ∈ s, c ≠ 0 ∧ c ≠ NEWLINE ∧ c ≠ RETURN) (hk : s.length < k) :
    getsLoop k (s ++ NEWLINE :: input) = some (s ++ [NEWLINE], input) := by
  induction s generalizing k with
  | nil =>
    obtain ⟨k, rfl⟩ := Nat.exists_eq_add_of_lt hk
    exact if_pos (.inl rfl)
  | cons c s ih =>
    obtain ⟨k, rfl⟩ := Nat.exists_eq_add_of_lt (Nat.zero_lt_of_lt hk)
    obtain ⟨-, hn, hr⟩ := hs c List.mem_cons_self
    rw [Nat.zero_add] at hk ⊢
    rw [List.cons_append, getsLoop, if_neg (not_or.mpr ⟨hn, hr⟩),
      ih (fun c hc => hs c (.tail _ hc)) (Nat.lt_of_succ_lt_succ hk)]
    rfl

theorem length_getsLoop (h : getsLoop k input = some r) : r.1.length ≤ k := by
  induction k generalizing input r with
  | zero =>
    cases h
    exact le_rfl
  | succ k ih =>
    cases input with
    | nil => cases h
    | cons c input =>
      rw [getsLoop] at h
      split at h
      · cases h
        exact Nat.succ_le_succ (Nat.zero_le k)
      · obtain ⟨r', hr, rfl⟩ := Option.map_eq_some_iff.mp h
        exact Nat.succ_le_succ (ih hr)

theorem chop_line (hs : ∀ c ∈ s, c ≠ 0 ∧ c ≠ NEWLINE ∧ c ≠ RETURN) : chop (s ++ [NEWLINE]) = s := by
  rw [chop, List.takeWhile_eq_self_iff.mpr, List.dropLast_concat]
  intro c hc
  rcases List.mem_append.mp hc with hc | hc
  · exact decide_eq_true (hs c hc).1
  · rw [List.mem_singleton.mp hc]
    rfl

/-- The last character of a full buffer is lost. -/
theorem length_chop_gets (h : gets (MAX_LEN + 1) input = some r) : (chop r.1).length < MAX_LEN := by
  have hl : r.1.length ≤ MAX_LEN := length_getsLoop h
  have ht := (List.takeWhile_prefix (l := r.1) (· ≠ 0)).length_le
  rw [chop, List.length_dropLast]
  unfold MAX_LEN at *
  omega

theorem length_of_mem_calls (h : (u, p) ∈ calls n input) :
    u.length < MAX_LEN ∧ p.length < MAX_LEN := by
  induction n generalizing input with
  | zero => cases h
  | succ n ih =>
    rw [calls] at h
    split at h
    · cases h
    · next hu =>
      split at h
      · cases h
      · next hp =>
        split at h
        · exact ih h
        · rcases List.mem_cons.mp h with h | h
          · cases h
            exact ⟨length_chop_gets hu, length_chop_gets hp⟩
          · exact ih h

/-- Who types the name and the password of an account gets to `login` with them unless one of the
two has the greatest length. -/
theorem login_called_iff (u p input : List UInt8) (hu : Typed u) (hp : Typed p) :
    (u, p) ∈ calls (n + 1) (u ++ NEWLINE :: (p ++ NEWLINE :: input)) ↔
      u.length < MAX_LEN ∧ p.length < MAX_LEN := by
  refine ⟨length_of_mem_calls, fun ⟨hul, hpl⟩ => ?_⟩
  have hgu : gets (MAX_LEN + 1) _ = some (u ++ [NEWLINE], p ++ NEWLINE :: input) :=
    getsLoop_line hu.plain hul
  have hgp : gets (MAX_LEN + 1) _ = some (p ++ [NEWLINE], input) := getsLoop_line hp.plain hpl
  rw [calls, hgu]
  dsimp only
  rw [hgp]
  dsimp only
  rw [chop_line hu.plain, chop_line hp.plain, if_neg (by omega)]
  exact List.mem_cons_self

/-- `"root"` with the password `"0000"`. -/
theorem login_called_root : ([114, 111, 111, 116], [48, 48, 48, 48]) ∈
      calls 1 [114, 111, 111, 116, NEWLINE, 48, 48, 48, 48, NEWLINE] :=
  (login_called_iff [114, 111, 111, 116] [48, 48, 48, 48] []
    ⟨by decide, by decide, by simp [NEWLINE, RETURN]⟩
    ⟨by decide, by decide, by simp [NEWLINE, RETURN]⟩).mpr (by decide)

/-- With a name of 15 characters the program calls `login` with 14 of them and no password, and then
waits. -/
theorem login_not_called : Typed (List.replicate 15 97) ∧ Typed [48, 48, 48, 48] ∧
    calls 2 (List.replicate 15 97 ++ NEWLINE :: ([48, 48, 48, 48] ++ [NEWLINE])) =
      [(List.replicate 14 97, [])] :=
  ⟨⟨by decide, by decide, by simp [NEWLINE, RETURN]⟩,
    ⟨by decide, by decide, by simp [NEWLINE, RETURN]⟩, by decide⟩

end Xv6.Login
