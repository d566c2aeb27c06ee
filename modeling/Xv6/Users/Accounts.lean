import Xv6.Users.Ltable

/-! # The table as a list of accounts

The accounts of a table are a list, and `addUser` and `deleteUser` change it at one place. -/

namespace Xv6.Users

open CString

/-- A name and a password that fit in their rows. -/
structure Account where
  name : List UInt8
  pass : List UInt8
  name_nonzero : 0 ∉ name
  pass_nonzero : 0 ∉ pass
  name_length : name.length ≤ MAX_LEN
  pass_length : pass.length ≤ MAX_LEN

namespace Account

/-- The text of an account in `/passwd`. -/
def entry (u : Account) : List UInt8 := u.name ++ DASH :: (u.pass ++ [SLASH])

theorem length_entry (u : Account) : u.entry.length = u.name.length + u.pass.length + 2 := by
  simp [entry]; omega

theorem zero_notMem_entry (u : Account) : 0 ∉ u.entry := by
  have hd : (0 : UInt8) ≠ DASH := by decide
  have hs : (0 : UInt8) ≠ SLASH := by decide
  simp [entry, u.name_nonzero, u.pass_nonzero, hd, hs]

/-- The text can be split again. -/
def Separable (u : Account) : Prop := DASH ∉ u.name ∧ SLASH ∉ u.pass

end Account

def encode (us : List Account) : List UInt8 := us.flatMap Account.entry

theorem length_encode_le (us : List Account) :
    (encode us).length ≤ (2 * MAX_LEN + 2) * us.length := by
  induction us with
  | nil => simp [encode]
  | cons u us ih =>
    have := u.name_length
    have := u.pass_length
    rw [encode, List.flatMap_cons, List.length_append, u.length_entry, List.length_cons]
    change _ + (encode us).length ≤ _
    rw [Nat.mul_succ]
    omega

/-! ## Rows -/

/-- The bytes of row `i` of either array. -/
def InRow (i x : Nat) : Prop :=
  usernames i ≤ x ∧ x ≤ usernames i + MAX_LEN ∨ passwords i ≤ x ∧ x ≤ passwords i + MAX_LEN

theorem InRow.eq (hi : InRow i x) (hk : InRow k x) (hil : i < MAX_USER) (hkl : k < MAX_USER) :
    i = k := by
  simp only [InRow, usernames, passwords, MAX_USER, MAX_LEN] at *
  omega

/-- Row `i` holds the account. -/
structure Row (m : Mem) (i : Nat) (u : Account) : Prop where
  name : IsStr m (usernames i) u.name
  pass : IsStr m (passwords i) u.pass

def FreeRow (m : Mem) (i : Nat) : Prop := ∀ x, InRow i x → m x = 0

section Row
variable {i : Nat} {u : Account}

theorem Row.congr (h : Row m i u) (he : ∀ x, InRow i x → m' x = m x) : Row m' i u where
  name := h.name.congr fun x h₁ h₂ => he x (.inl ⟨h₁, by have := u.name_length; omega⟩)
  pass := h.pass.congr fun x h₁ h₂ => he x (.inr ⟨h₁, by have := u.pass_length; omega⟩)

theorem FreeRow.congr (h : FreeRow m i) (he : ∀ x, InRow i x → m' x = m x) : FreeRow m' i :=
  fun x hx => (he x hx).trans (h x hx)

/-- `m'` differs from `m` in row `k` only. -/
def Frame (k : Nat) (m m' : Mem) : Prop := ∀ x, ¬ InRow k x → m' x = m x

theorem Row.frame (h : Row m i u) (hf : Frame k m m') (hne : i ≠ k) (hi : i < MAX_USER)
    (hk : k < MAX_USER) : Row m' i u :=
  h.congr fun x hx => hf x fun hx' => hne (hx.eq hx' hi hk)

theorem FreeRow.frame (h : FreeRow m i) (hf : Frame k m m') (hne : i ≠ k) (hi : i < MAX_USER)
    (hk : k < MAX_USER) : FreeRow m' i :=
  h.congr fun x hx => hf x fun hx' => hne (hx.eq hx' hi hk)

theorem cstr_eq (h : IsStr m a s) (hl : s.length ≤ MAX_LEN) : cstr m a = s :=
  h.str_eq (Nat.lt_of_le_of_lt hl (by decide))

end Row

/-! ## The table as a list -/

/-- The rows of the table are the accounts, and the others are zero. -/
structure Rep (t : Ltable) (us : List Account) : Prop where
  cnt : t.userCnt = us.length
  room : us.length ≤ MAX_USER
  row : ∀ i u, us[i]? = some u → Row t.mem i u
  free : ∀ i, us.length ≤ i → i < MAX_USER → FreeRow t.mem i

section Rep
variable {u : Account} {i : Nat}

theorem Rep.lt (h : Rep t us) (hi : us[i]? = some u) : i < MAX_USER :=
  Nat.lt_of_lt_of_le (List.getElem?_eq_some_iff.mp hi).1 h.room

theorem Rep.username_eq (h : Rep t us) (hi : us[i]? = some u) : t.username i = u.name :=
  cstr_eq (h.row i u hi).name u.name_length

theorem Rep.password_eq (h : Rep t us) (hi : us[i]? = some u) : t.password i = u.pass :=
  cstr_eq (h.row i u hi).pass u.pass_length

/-- The rows in use hold the accounts, whatever there is in the others. -/
structure Filled (t : Ltable) (us : List Account) : Prop where
  cnt : t.userCnt = us.length
  room : us.length ≤ MAX_USER
  username : ∀ {i u}, us[i]? = some u → t.username i = u.name
  password : ∀ {i u}, us[i]? = some u → t.password i = u.pass

theorem Rep.filled (h : Rep t us) : Filled t us := ⟨h.cnt, h.room, h.username_eq, h.password_eq⟩

theorem Filled.users_eq (h : Filled t us) : t.users = us.map fun u => (u.name, u.pass) := by
  refine List.ext_getElem? fun i => ?_
  rw [Ltable.users, h.cnt, List.getElem?_map, List.getElem?_map]
  by_cases hi : i < us.length
  · rw [List.getElem?_range hi, List.getElem?_eq_getElem hi]
    have hu := List.getElem?_eq_getElem hi
    simp only [Option.map_some, h.username hu, h.password hu]
  · simp [hi]

theorem exists_filled (hcnt : t.userCnt ≤ MAX_USER)
    (hl : ∀ u ∈ t.users, u.1.length ≤ MAX_LEN ∧ u.2.length ≤ MAX_LEN) : ∃ us, Filled t us := by
  have hl : ∀ i : Fin t.userCnt,
      (t.username i).length ≤ MAX_LEN ∧ (t.password i).length ≤ MAX_LEN := fun i =>
    hl _ (List.mem_map_of_mem (List.mem_range.mpr i.2))
  let us : List Account := List.ofFn fun i : Fin t.userCnt =>
    ⟨t.username i, t.password i, zero_notMem_str, zero_notMem_str, (hl i).1, (hl i).2⟩
  have hu : ∀ {i u}, us[i]? = some u → t.username i = u.name ∧ t.password i = u.pass := by
    intro i u hi
    rw [List.getElem?_ofFn] at hi
    obtain ⟨_, ⟨⟩⟩ := Option.dite_none_right_eq_some.mp hi
    exact ⟨rfl, rfl⟩
  have hlen : us.length = t.userCnt := List.length_ofFn
  exact ⟨us, hlen.symm, hlen ▸ hcnt, fun h => (hu h).1, fun h => (hu h).2⟩

theorem Rep.empty : Rep .empty [] := ⟨rfl, by decide, nofun, fun _ _ _ _ _ => rfl⟩

/-! ## `addUser` -/

theorem append_frame (t : Ltable) (u : Account) :
    Frame t.userCnt t.mem (append t u.name u.pass).mem := by
  intro x hx
  have := u.name_length
  have := u.pass_length
  simp only [InRow] at hx
  simp only [append]
  by_cases hp : x < passwords t.userCnt
  · rw [strncpy_of_lt hp]
    by_cases hn : x < usernames t.userCnt
    · exact strncpy_of_lt hn
    · exact strncpy_of_le (by omega)
  · rw [strncpy_of_le (by omega)]
    refine strncpy_of_le ?_
    simp only [usernames, passwords, MAX_USER, MAX_LEN] at *
    omega

theorem Rep.append (h : Rep t us) (hl : us.length < MAX_USER) (u : Account) :
    Rep (append t u.name u.pass) (us ++ [u]) := by
  have hf := append_frame t u
  rw [h.cnt] at hf
  have := u.name_length
  have := u.pass_length
  refine ⟨by simp [Users.append, h.cnt], by simp; omega, fun i v hi => ?_, fun i hi hi' => ?_⟩
  · by_cases hil : i < us.length
    · rw [List.getElem?_append_left hil] at hi
      exact (h.row i v hi).frame hf (by omega) (h.lt hi) hl
    · obtain rfl : i = us.length := by
        have := (List.getElem?_eq_some_iff.mp hi).1
        simp at this
        omega
      obtain rfl : u = v := by simpa using hi
      have hz := h.free _ (Nat.le_refl _) hl
      simp only [Users.append, h.cnt]
      constructor
      · refine (isStr_strncpy u.name_nonzero (hz _ (.inl ⟨by omega, by omega⟩))).congr ?_
        intro x hx hx'
        refine strncpy_of_lt ?_
        simp only [usernames, passwords, MAX_USER, MAX_LEN] at *
        omega
      · refine isStr_strncpy u.pass_nonzero ?_
        rw [strncpy_of_le, hz _ (.inr ⟨by omega, by omega⟩)]
        simp only [usernames, passwords, MAX_USER, MAX_LEN] at *
        omega
  · simp at hi
    exact (h.free i (by omega) hi').frame hf (by omega) hi' hl

/-! ## `deleteUser` -/

section Move
theorem copyStr_eq (h : IsStr m src s) (hl : s.length ≤ MAX_LEN) (hd : dst + MAX_LEN < src) :
    copyStr m dst src = Function.update (strncpy m dst s s.length) (dst + s.length) 0 := by
  have h' : IsStr (strncpy m dst s s.length) src s :=
    h.congr fun x h₁ h₂ => strncpy_of_le (by omega)
  simp only [copyStr, cstr_eq h hl, cstr_eq h' hl]

theorem isStr_copyStr (h : IsStr m src s) (hl : s.length ≤ MAX_LEN) (hd : dst + MAX_LEN < src) :
    IsStr (copyStr m dst src) dst s := by
  rw [copyStr_eq h hl hd]
  refine ⟨holds_append.mpr ⟨holds_strncpy.update (.inr (Nat.le_refl _)), ?_, trivial⟩, h.nonzero⟩
  exact Function.update_self ..

theorem copyStr_of_not_mem (h : IsStr m src s) (hl : s.length ≤ MAX_LEN) (hd : dst + MAX_LEN < src)
    (hx : ¬ (dst ≤ x ∧ x ≤ dst + MAX_LEN)) : copyStr m dst src x = m x := by
  rw [copyStr_eq h hl hd, Function.update_of_ne (by omega)]
  by_cases hlt : x < dst
  · exact strncpy_of_lt hlt
  · exact strncpy_of_le (by omega)

/-- The second copy of `moveDown` finds the password where it was. -/
theorem Row.pass_copyStr (h : Row m (i + 1) u) :
    IsStr (copyStr m (usernames i) (usernames (i + 1))) (passwords (i + 1)) u.pass := by
  have := u.pass_length
  refine h.pass.congr fun x h₁ h₂ => copyStr_of_not_mem h.name u.name_length ?_ ?_ <;>
  · simp only [usernames, passwords, MAX_USER, MAX_LEN] at *
    omega

theorem moveDown_frame (h : Row m (i + 1) u) : Frame i m (moveDown m (i + 1)) := by
  intro x hx
  simp only [InRow, not_or] at hx
  simp only [moveDown, Nat.add_sub_cancel]
  rw [copyStr_of_not_mem (h.pass_copyStr) u.pass_length _ hx.2,
    copyStr_of_not_mem h.name u.name_length _ hx.1] <;>
  · simp only [usernames, passwords, MAX_USER, MAX_LEN] at *
    omega

theorem Row.moveDown (h : Row m (i + 1) u) : Row (moveDown m (i + 1)) i u := by
  have hp := h.pass_copyStr
  have hpd : passwords i + MAX_LEN < passwords (i + 1) := by
    simp only [passwords, MAX_LEN]; omega
  have hnd : usernames i + MAX_LEN < usernames (i + 1) := by
    simp only [usernames, MAX_LEN]; omega
  have := u.name_length
  simp only [Users.moveDown, Nat.add_sub_cancel]
  refine ⟨(isStr_copyStr h.name u.name_length hnd).congr ?_, isStr_copyStr hp u.pass_length hpd⟩
  intro x h₁ h₂
  refine copyStr_of_not_mem hp u.pass_length hpd ?_
  simp only [usernames, passwords, MAX_USER, MAX_LEN] at *
  omega

theorem clear_apply (m : Mem) (a b n x : Nat) :
    (List.range n).foldl (fun m j => Function.update (Function.update m (a + j) 0) (b + j) 0) m x =
      if a ≤ x ∧ x < a + n ∨ b ≤ x ∧ x < b + n then 0 else m x := by
  induction n with
  | zero => rw [if_neg (by omega)]; rfl
  | succ n ih =>
    rw [List.range_succ, List.foldl_append, List.foldl_cons, List.foldl_nil]
    simp only [Function.update_apply, ih]
    grind

theorem clearRow_frame (m : Mem) (i : Nat) : Frame i m (clearRow m i) := by
  intro x hx
  simp only [InRow] at hx
  rw [clearRow, clear_apply, if_neg (by omega)]

theorem freeRow_clearRow (m : Mem) (i : Nat) : FreeRow (clearRow m i) i := by
  intro x hx
  simp only [InRow] at hx
  rw [clearRow, clear_apply, if_pos (by omega)]

end Move

/-- The memory in the loop of `deleteUser`: the rows below `j` are those of the shorter list, the
rows from `j` on have not been moved yet. -/
structure Moving (us : List Account) (found j : Nat) (m : Mem) : Prop where
  moved : ∀ i u, i < j → (us.eraseIdx found)[i]? = some u → Row m i u
  rest : ∀ i u, j ≤ i → us[i]? = some u → Row m i u
  free : ∀ i, us.length ≤ i → i < MAX_USER → FreeRow m i

theorem Moving.step (h : Moving us found j m) (hj : found ≤ j) (hl : j + 1 < us.length)
    (hr : us.length ≤ MAX_USER) : Moving us found (j + 1) (moveDown m (j + 1)) := by
  obtain ⟨u, hu⟩ : ∃ u, us[j + 1]? = some u := ⟨_, List.getElem?_eq_getElem hl⟩
  have hrow := h.rest _ u (Nat.le_succ j) hu
  have hf := moveDown_frame hrow
  refine ⟨fun i v hi hv => ?_, fun i v hi hv => ?_, fun i hi hi' => ?_⟩
  · by_cases e : i = j
    · subst e
      rw [List.getElem?_eraseIdx_of_ge hj, hu] at hv
      cases hv
      exact hrow.moveDown
    · exact (h.moved i v (by omega) hv).frame hf e (by omega) (by omega)
  · have := (List.getElem?_eq_some_iff.mp hv).1
    exact (h.rest i v (by omega) hv).frame hf (by omega) (by omega) (by omega)
  · exact (h.free i hi hi').frame hf (by omega) hi' (by omega)

theorem Moving.loop (h : Moving us found j m) (hj : found ≤ j) (hl : j + n < us.length)
    (hr : us.length ≤ MAX_USER) :
    Moving us found (j + n) ((List.range' (j + 1) n).foldl moveDown m) := by
  induction n generalizing j m with
  | zero => exact h
  | succ n ih =>
    rw [List.range'_succ, List.foldl_cons, ← Nat.add_assoc, Nat.add_right_comm]
    exact ih (h.step hj (by omega) hr) (by omega) (by omega)

theorem Rep.remove (h : Rep t us) (hf : found < us.length) :
    Rep (remove t found) (us.eraseIdx found) := by
  have hroom := h.room
  have hlen : (us.eraseIdx found).length = us.length - 1 := List.length_eraseIdx_of_lt hf
  have hm : Moving us found found t.mem := by
    refine ⟨fun i u hi hu => ?_, fun i u _ => h.row i u, h.free⟩
    rw [List.getElem?_eraseIdx_of_lt hi] at hu
    exact h.row i u hu
  have hm := hm.loop (n := us.length - (found + 1)) (Nat.le_refl _) (by omega) h.room
  have hc := clearRow_frame
    ((List.range' (found + 1) (us.length - (found + 1))).foldl moveDown t.mem) (us.length - 1)
  simp only [Users.remove, h.cnt]
  refine ⟨hlen.symm, by omega, fun i u hi => ?_, fun i hi hi' => ?_⟩
  · have := (List.getElem?_eq_some_iff.mp hi).1
    exact (hm.moved i u (by omega) hi).frame hc (by omega) (by omega) (by omega)
  · by_cases e : i = us.length - 1
    · subst e
      exact freeRow_clearRow _ _
    · exact (hm.free i (by omega) hi').frame hc e hi' (by omega)

end Rep

end Xv6.Users
