import Mathlib.Data.List.GetD
import Mathlib.Data.List.TakeWhile
import Xv6.Users.Passwd

/-! # `loadUsers` on any file

The loop of `loadUsers` checks neither the column at which it stores nor that a row ends in a zero.
The text of `/passwd` is a list of entries and perhaps a piece of another one; each fills a row of
the table from its first column on, over what the row held. So the call is safe if each row has a
zero behind its field, and if nothing stands in the rows that it does not count. -/

namespace Xv6.Users

open CString

/-! ## The stores of the loop -/

/-- The row and the column at which a character is stored. -/
def Load.store (l : Load) (c : UInt8) : Option (Nat × Nat) :=
  if l.pw = false then
    if c ≠ DASH then some (l.idx, l.offset) else none
  else
    if c ≠ SLASH then some (l.idx, l.offset) else none

def Load.stores (l : Load) : List UInt8 → List (Nat × Nat)
  | [] => []
  | c :: buf =>
    if l.idx = MAX_USER ∨ c = 0 then [] else (l.store c).toList ++ (l.char c).stores buf

def loadStores (t : Ltable) (passwd : List UInt8) : List (Nat × Nat) :=
  let read := (Fs.readi passwd 0 bufSize).getD []
  let buf := read ++ List.replicate (bufSize - read.length) 0
  let l : Load := ⟨0, false, 0, t.mem⟩
  if read.length > 6 then l.stores buf else []

/-- Row `i` of the array at `row` has a zero in it. -/
def Terminated (m : Mem) (row : Nat) : Prop := ∃ j ≤ MAX_LEN, m (row + j) = 0

/-- What `loadUsers` should do with a file. -/
structure SafeLoad (t : Ltable) (passwd : List UInt8) : Prop where
  inside : ∀ p ∈ loadStores t passwd, p.1 < MAX_USER ∧ p.2 ≤ MAX_LEN
  terminated : ∀ i < (loadUsers t passwd).userCnt,
    Terminated (loadUsers t passwd).mem (usernames i) ∧
      Terminated (loadUsers t passwd).mem (passwords i)
  zero : ∀ i, (loadUsers t passwd).userCnt ≤ i → i < MAX_USER → FreeRow (loadUsers t passwd).mem i

/-! ## The text of `/passwd` -/

/-- The bytes that the loop looks at. -/
def text (passwd : List UInt8) : List UInt8 :=
  let read := passwd.take bufSize
  if read.length > 6 then read.takeWhile (· ≠ 0) else []

abbrev Fields := List UInt8 × List UInt8

/-- The first `n` entries of a text, and the fields of an entry without its end behind them. -/
def entries : Nat → List UInt8 → List Fields × Fields
  | 0, _ => ([], [], [])
  | n + 1, s =>
    let name := s.takeWhile (· ≠ DASH)
    match s.dropWhile (· ≠ DASH) with
    | [] => ([], name, [])
    | _ :: s =>
      let pass := s.takeWhile (· ≠ SLASH)
      match s.dropWhile (· ≠ SLASH) with
      | [] => ([], name, pass)
      | _ :: s =>
        let (es, last) := entries n s
        ((name, pass) :: es, last)

/-- A field at `row` ends before the last zero of its row. -/
def Ends (m : Mem) (row : Nat) (s : List UInt8) : Prop :=
  ∃ j, s.length ≤ j ∧ j ≤ MAX_LEN ∧ m (row + j) = 0

/-- The entries fit over the rows of the table, and there is nothing but them. -/
structure Fits (m : Mem) (es : List Fields) (last : Fields) : Prop where
  ends : ∀ i e, es[i]? = some e → Ends m (usernames i) e.1 ∧ Ends m (passwords i) e.2
  last : last = ([], [])
  free : ∀ i, es.length ≤ i → i < MAX_USER → FreeRow m i

/-! ## What the loop does with a text -/

section Text
variable {m : Mem} {k off n : Nat} {s rest : List UInt8} {d : UInt8} {l : Load}

theorem chars_takeWhile : l.chars s = l.chars (s.takeWhile (· ≠ 0)) := by
  induction s generalizing l with
  | nil => rfl
  | cons c s ih =>
    rw [List.takeWhile_cons]
    by_cases hc : c = 0
    · simp [hc, Load.chars]
    · simp only [hc, ne_eq, not_false_iff, decide_true, if_true, Load.chars, ih]

theorem stores_takeWhile : l.stores s = l.stores (s.takeWhile (· ≠ 0)) := by
  induction s generalizing l with
  | nil => rfl
  | cons c s ih =>
    rw [List.takeWhile_cons]
    by_cases hc : c = 0
    · simp [hc, Load.stores]
    · simp only [hc, ne_eq, not_false_iff, decide_true, if_true, Load.stores, ih]

theorem stores_cons (hk : l.idx < MAX_USER) (hc : c ≠ 0) :
    l.stores (c :: rest) = (l.store c).toList ++ (l.char c).stores rest := by
  rw [Load.stores, if_neg]
  simp [hc, Nat.ne_of_lt hk]

theorem stores_field (pw : Bool) (hk : k < MAX_USER) (hz : 0 ∉ s) (hd : stop pw ∉ s) :
    Load.stores ⟨k, pw, off, m⟩ (s ++ rest) = (List.range' off s.length).map (k, ·) ++
      Load.stores ⟨k, pw, off + s.length, strncpy m (field pw k + off) s s.length⟩ rest := by
  induction s generalizing m off with
  | nil => rfl
  | cons c s ih =>
    simp only [List.mem_cons, not_or] at hz hd
    have hstore : Load.store ⟨k, pw, off, m⟩ c = some (k, off) := by
      cases pw with
      | false | true => exact if_pos (Ne.symm hd.1)
    rw [List.cons_append, stores_cons hk (Ne.symm hz.1), char_of_ne (Ne.symm hd.1), hstore,
      ih hz.2 hd.2, List.length_cons, strncpy, List.range'_succ]
    simp only [Nat.add_assoc, Nat.add_comm 1]
    rfl

/-- A text is cut at the first `d` in it, if there is one. -/
theorem cut_cases (s : List UInt8) (d : UInt8) :
    d ∉ s.takeWhile (· ≠ d) ∧ (s.dropWhile (· ≠ d) = [] ∧ s.takeWhile (· ≠ d) = s ∨
      ∃ rest, s.dropWhile (· ≠ d) = d :: rest ∧ s = s.takeWhile (· ≠ d) ++ d :: rest) := by
  induction s with
  | nil => simp
  | cons c s ih =>
    by_cases hc : c = d
    · simp [hc]
    · have hc' : d ≠ c := Ne.symm hc
      simpa [hc, hc'] using ih

/-- The table after the fields of an entry were stored in row `k`. -/
def storeRow (m : Mem) (k : Nat) (e : Fields) : Mem :=
  strncpy (strncpy m (usernames k) e.1 e.1.length) (passwords k) e.2 e.2.length

def storeRows (m : Mem) (k : Nat) : List Fields → Mem
  | [] => m
  | e :: es => storeRows (storeRow m k e) (k + 1) es

/-- The stores of the rows from `k` on. -/
def rowStores (k : Nat) : List Fields → List (Nat × Nat)
  | [] => []
  | e :: es =>
    (List.range' 0 e.1.length).map (k, ·) ++ ((List.range' 0 e.2.length).map (k, ·) ++
      rowStores (k + 1) es)

/-- The loop has gone through the entries `es` and a piece `last`, from row `k` on. -/
structure Loaded (m : Mem) (k : Nat) (s : List UInt8) (es : List Fields) (last : Fields) :
    Prop where
  idx : (Load.chars ⟨k, false, 0, m⟩ s).idx = k + es.length
  mem : (Load.chars ⟨k, false, 0, m⟩ s).mem = storeRows m k (es ++ [last])
  stores : Load.stores ⟨k, false, 0, m⟩ s = rowStores k (es ++ [last])

theorem Loaded.full (s : List UInt8) : Loaded m MAX_USER s [] ([], []) := by
  have hc : Load.chars ⟨MAX_USER, false, 0, m⟩ s = ⟨MAX_USER, false, 0, m⟩ := by
    cases s with
    | nil => rfl
    | cons c s => exact if_pos (.inl rfl)
  refine ⟨by rw [hc]; rfl, by rw [hc]; rfl, ?_⟩
  cases s with
  | nil => rfl
  | cons c s => exact if_pos (.inl rfl)

theorem Loaded.name (hk : k < MAX_USER) (hz : 0 ∉ s) (hd : DASH ∉ s) : Loaded m k s [] (s, []) := by
  have hc : Load.chars ⟨k, false, 0, m⟩ (s ++ []) = _ := chars_field false hk hz hd
  have hs : Load.stores ⟨k, false, 0, m⟩ (s ++ []) = _ := stores_field false hk hz hd
  rw [List.append_nil] at hc hs
  exact ⟨by rw [hc]; rfl, by rw [hc]; rfl, hs⟩

/-- The name of an entry is behind the loop. -/
theorem chars_dash (hk : k < MAX_USER) (hz : 0 ∉ s) (hd : DASH ∉ s) :
    Load.chars ⟨k, false, 0, m⟩ (s ++ DASH :: rest) =
      Load.chars ⟨k, true, 0, strncpy m (usernames k) s s.length⟩ rest := by
  rw [chars_field false hk hz hd]
  exact chars_cons hk (by decide)

theorem stores_dash (hk : k < MAX_USER) (hz : 0 ∉ s) (hd : DASH ∉ s) :
    Load.stores ⟨k, false, 0, m⟩ (s ++ DASH :: rest) = (List.range' 0 s.length).map (k, ·) ++
      Load.stores ⟨k, true, 0, strncpy m (usernames k) s s.length⟩ rest := by
  rw [stores_field false hk hz hd]
  exact congrArg _ (stores_cons hk (by decide))

theorem chars_slash (hk : k < MAX_USER) (hz : 0 ∉ s) (hd : SLASH ∉ s) :
    Load.chars ⟨k, true, 0, m⟩ (s ++ SLASH :: rest) =
      Load.chars ⟨k + 1, false, 0, strncpy m (passwords k) s s.length⟩ rest := by
  rw [chars_field true hk hz hd]
  exact chars_cons hk (by decide)

theorem stores_slash (hk : k < MAX_USER) (hz : 0 ∉ s) (hd : SLASH ∉ s) :
    Load.stores ⟨k, true, 0, m⟩ (s ++ SLASH :: rest) = (List.range' 0 s.length).map (k, ·) ++
      Load.stores ⟨k + 1, false, 0, strncpy m (passwords k) s s.length⟩ rest := by
  rw [stores_field true hk hz hd]
  exact congrArg _ (stores_cons hk (by decide))

theorem Loaded.pass {name : List UInt8} (hk : k < MAX_USER) (hn : 0 ∉ name) (hnd : DASH ∉ name)
    (hz : 0 ∉ s) (hd : SLASH ∉ s) : Loaded m k (name ++ DASH :: s) [] (name, s) := by
  have hc : Load.chars ⟨k, true, 0, strncpy m (usernames k) name name.length⟩ (s ++ []) = _ :=
    chars_field true hk hz hd
  have hs : Load.stores ⟨k, true, 0, strncpy m (usernames k) name name.length⟩ (s ++ []) = _ :=
    stores_field true hk hz hd
  rw [List.append_nil] at hc hs
  refine ⟨?_, ?_, ?_⟩
  · rw [chars_dash hk hn hnd, hc]; rfl
  · rw [chars_dash hk hn hnd, hc]; rfl
  · rw [stores_dash hk hn hnd, hs]; rfl

theorem Loaded.cons {name : List UInt8} {es : List Fields} {last : Fields} (hk : k < MAX_USER)
    (hn : 0 ∉ name) (hnd : DASH ∉ name) (hz : 0 ∉ s) (hd : SLASH ∉ s)
    (h : Loaded (storeRow m k (name, s)) (k + 1) rest es last) :
    Loaded m k (name ++ DASH :: (s ++ SLASH :: rest)) ((name, s) :: es) last := by
  refine ⟨?_, ?_, ?_⟩
  · rw [chars_dash hk hn hnd, chars_slash hk hz hd]
    exact h.idx.trans (by simp only [List.length_cons]; omega)
  · rw [chars_dash hk hn hnd, chars_slash hk hz hd]
    exact h.mem
  · rw [stores_dash hk hn hnd, stores_slash hk hz hd]
    exact congrArg _ (congrArg _ h.stores)

/-- The loop stores the entries of its text, row by row. -/
theorem loaded_entries (hk : k + n = MAX_USER) (hz : 0 ∉ s) :
    Loaded m k s (entries n s).1 (entries n s).2 := by
  induction n generalizing k m s with
  | zero =>
    obtain rfl : k = MAX_USER := hk
    exact .full s
  | succ n ih =>
    have hlt : k < MAX_USER := by omega
    obtain ⟨hd, ⟨e, he⟩ | ⟨r, e, he⟩⟩ := cut_cases s DASH
    · simp only [entries, e, he]
      exact .name hlt hz (he ▸ hd)
    · rw [he] at hz
      simp only [List.mem_append, List.mem_cons, not_or] at hz
      obtain ⟨hs, ⟨e', he'⟩ | ⟨r', e', he'⟩⟩ := cut_cases r SLASH
      · simp only [entries, e, e', he']
        conv in Loaded _ _ s => rw [he]
        exact .pass hlt hz.1 hd hz.2.2 (he' ▸ hs)
      · have hz' := hz.2.2
        rw [he'] at hz'
        simp only [List.mem_append, List.mem_cons, not_or] at hz'
        simp only [entries, e, e']
        conv in Loaded _ _ s => rw [he, he']
        exact .cons hlt hz.1 hd hz'.1 hs (ih (by omega) hz'.2.2)

end Text

section Entries
variable {n : Nat} {s : List UInt8}

theorem length_entries_le (n : Nat) (s : List UInt8) : (entries n s).1.length ≤ n := by
  fun_induction entries n s <;> simp_all

theorem entries_full (h : (entries n s).1.length = n) : (entries n s).2 = ([], []) := by
  fun_induction entries n s <;> simp_all

theorem mem_of_dropWhile (h : s.dropWhile p = d :: r) (hc : c ∈ r) : c ∈ s :=
  (List.dropWhile_sublist p).subset (h ▸ List.mem_cons_of_mem d hc)

/-- The fields are pieces of the text. -/
theorem entries_subset (he : e ∈ (entries n s).1 ++ [(entries n s).2]) : e.1 ⊆ s ∧ e.2 ⊆ s := by
  have take : ∀ (p : UInt8 → Bool) (s : List UInt8), s.takeWhile p ⊆ s :=
    fun p s => (List.takeWhile_sublist p).subset
  fun_induction entries n s with
  | case1 s =>
    rw [List.mem_singleton.mp he]
    exact ⟨List.nil_subset s, List.nil_subset s⟩
  | case2 n s name h =>
    rw [List.mem_singleton.mp he]
    exact ⟨take _ s, List.nil_subset s⟩
  | case3 n s name d r h pass h' =>
    rw [List.mem_singleton.mp he]
    exact ⟨take _ s, fun c hc => mem_of_dropWhile h (take _ r hc)⟩
  | case4 n s name d r h pass d' r' h' es last hes ih =>
    rw [hes] at ih
    rw [List.cons_append, List.mem_cons] at he
    obtain rfl | he := he
    · exact ⟨take _ s, fun c hc => mem_of_dropWhile h (take _ r hc)⟩
    · obtain ⟨h₁, h₂⟩ := ih he
      exact ⟨fun c hc => mem_of_dropWhile h (mem_of_dropWhile h' (h₁ hc)),
        fun c hc => mem_of_dropWhile h (mem_of_dropWhile h' (h₂ hc))⟩

end Entries

/-! ## The rows after the loop -/

section Rows
variable {m : Mem} {i k : Nat} {e : Fields} {es : List Fields}

/-- Row `i` of `m'` is row `i` of `m` with the fields stored over it. -/
def Over (m m' : Mem) (i : Nat) (e : Fields) : Prop :=
  ∀ j ≤ MAX_LEN, m' (usernames i + j) = e.1.getD j (m (usernames i + j)) ∧
    m' (passwords i + j) = e.2.getD j (m (passwords i + j))

theorem Over.trans_right (h : Over m m' i e) (h' : Over m' m'' i ([], [])) : Over m m'' i e :=
  fun j hj => ⟨(h' j hj).1.trans (h j hj).1, (h' j hj).2.trans (h j hj).2⟩

theorem Over.trans_left (h : Over m m' i ([], [])) (h' : Over m' m'' i e) : Over m m'' i e := by
  intro j hj
  obtain ⟨hn, hp⟩ := h j hj
  obtain ⟨hn', hp'⟩ := h' j hj
  rw [hn] at hn'
  rw [hp] at hp'
  exact ⟨hn', hp'⟩

/-- The fields stay in row `k`, or there are none. -/
def Narrow (k : Nat) (e : Fields) : Prop :=
  k < MAX_USER ∧ e.1.length ≤ MAX_LEN + 1 ∧ e.2.length ≤ MAX_LEN + 1 ∨ e = ([], [])

theorem storeRow_over_self (h : Narrow k e) : Over m (storeRow m k e) k e := by
  obtain ⟨hk, hn, hp⟩ | rfl := h
  · intro j hj
    simp only [storeRow]
    refine ⟨?_, ?_⟩
    · rw [strncpy_of_lt, strncpy_length_apply]
      simp only [usernames, passwords, MAX_USER, MAX_LEN] at *
      omega
    · rw [strncpy_length_apply, strncpy_of_le]
      simp only [usernames, passwords, MAX_USER, MAX_LEN] at *
      omega
  · exact fun j hj => ⟨rfl, rfl⟩

theorem storeRow_over_of_ne (h : Narrow k e) (hi : i < MAX_USER) (hne : i ≠ k) :
    Over m (storeRow m k e) i ([], []) := by
  obtain ⟨hk, hn, hp⟩ | rfl := h
  · intro j hj
    simp only [storeRow]
    refine ⟨?_, ?_⟩
    · rw [strncpy_of_lt]
      · rcases Nat.lt_or_gt_of_ne hne with hlt | hgt
        · refine strncpy_of_lt ?_
          simp only [usernames, MAX_LEN] at *
          omega
        · refine strncpy_of_le ?_
          simp only [usernames, MAX_LEN] at *
          omega
      · simp only [usernames, passwords, MAX_USER, MAX_LEN] at *
        omega
    · have hle : ∀ s, strncpy m (usernames k) s e.1.length (passwords i + j) =
          m (passwords i + j) := fun s => strncpy_of_le (by
        simp only [usernames, passwords, MAX_USER, MAX_LEN] at *
        omega)
      rcases Nat.lt_or_gt_of_ne hne with hlt | hgt
      · rw [strncpy_of_lt, hle]; rfl
        simp only [passwords, MAX_LEN] at *
        omega
      · rw [strncpy_of_le, hle]; rfl
        simp only [passwords, MAX_LEN] at *
        omega
  · exact fun j hj => ⟨rfl, rfl⟩

theorem storeRows_over (h : ∀ r e, rows[r]? = some e → Narrow (k + r) e) (hi : i < MAX_USER) :
    Over m (storeRows m k rows) i (if k ≤ i then rows.getD (i - k) ([], []) else ([], [])) := by
  induction rows generalizing m k with
  | nil =>
    have : (if k ≤ i then ([] : List Fields).getD (i - k) ([], []) else ([], [])) = ([], []) := by
      simp
    rw [this]
    exact fun j hj => ⟨rfl, rfl⟩
  | cons e es ih =>
    have he : Narrow k e := h 0 e rfl
    have hes := ih (m := storeRow m k e) (k := k + 1) fun r e' hr => by
      rw [Nat.add_assoc, Nat.add_comm 1]
      exact h (r + 1) e' hr
    rcases Nat.lt_trichotomy i k with hlt | rfl | hgt
    · rw [if_neg (by omega)] at hes ⊢
      exact (storeRow_over_of_ne he hi (by omega)).trans_left hes
    · rw [if_neg (by omega)] at hes
      rw [if_pos (Nat.le_refl _), Nat.sub_self]
      exact (storeRow_over_self he).trans_right hes
    · rw [if_pos (by omega)] at hes
      rw [if_pos (by omega), show i - k = i - (k + 1) + 1 by omega]
      exact (storeRow_over_of_ne he hi (by omega)).trans_left hes

theorem mem_rowStores : p ∈ rowStores k rows ↔
    ∃ r e, rows[r]? = some e ∧ p.1 = k + r ∧ (p.2 < e.1.length ∨ p.2 < e.2.length) := by
  induction rows generalizing k with
  | nil => simp [rowStores]
  | cons e es ih =>
    obtain ⟨x, y⟩ := p
    simp only [rowStores, List.mem_append, List.mem_map, List.mem_range'_1, ih, Prod.mk.injEq]
    constructor
    · rintro (⟨j, hj, rfl, rfl⟩ | ⟨j, hj, rfl, rfl⟩ | ⟨r, e', hr, hx, hy⟩)
      · exact ⟨0, e, rfl, rfl, .inl (by omega)⟩
      · exact ⟨0, e, rfl, rfl, .inr (by omega)⟩
      · exact ⟨r + 1, e', hr, by omega, hy⟩
    · rintro ⟨r, e', hr, hx, hy⟩
      cases r with
      | zero =>
        cases hr
        exact hy.imp (fun h => ⟨y, by omega, hx.symm, rfl⟩)
          fun h => .inl ⟨y, by omega, hx.symm, rfl⟩
      | succ r => exact .inr (.inr ⟨r, e', hr, by omega, hy⟩)

/-- The stores are inside the arrays if the fields are. -/
theorem rowStores_inside_iff : (∀ p ∈ rowStores k rows, p.1 < MAX_USER ∧ p.2 ≤ MAX_LEN) ↔
    ∀ r e, rows[r]? = some e → Narrow (k + r) e := by
  constructor
  · intro h r e hr
    have hs : ∀ y, y < e.1.length ∨ y < e.2.length → k + r < MAX_USER ∧ y ≤ MAX_LEN :=
      fun y hy => h (k + r, y) (mem_rowStores.mpr ⟨r, e, hr, rfl, hy⟩)
    by_cases h0 : 0 < e.1.length ∨ 0 < e.2.length
    · have h₁ := fun h' => (hs (e.1.length - 1) (.inl h')).2
      have h₂ := fun h' => (hs (e.2.length - 1) (.inr h')).2
      exact .inl ⟨(hs 0 h0).1, by omega, by omega⟩
    · simp only [List.length_pos_iff, not_or, not_not] at h0
      exact .inr (Prod.ext h0.1 h0.2)
  · intro h p hp
    obtain ⟨r, e, hr, hx, hy⟩ := mem_rowStores.mp hp
    obtain ⟨hk, hn, hp⟩ | rfl := h r e hr
    · exact ⟨hx ▸ hk, by omega⟩
    · exact absurd hy (by simp)

end Rows

/-! ## `loadUsers` -/

section Load
/-- The loop sees the text. -/
theorem takeWhile_buf (read : List UInt8) (z : Nat) :
    (read ++ List.replicate z 0).takeWhile (· ≠ 0) = read.takeWhile (· ≠ 0) := by
  induction read with
  | nil => cases z <;> rfl
  | cons c read ih => simp only [List.cons_append, List.takeWhile_cons, ih]

theorem zero_notMem_text (passwd : List UInt8) : 0 ∉ text passwd := by
  intro h
  simp only [text] at h
  split at h
  · simpa using List.mem_takeWhile_imp h
  · cases h

theorem loadUsers_eq (t : Ltable) (passwd : List UInt8) : loadUsers t passwd =
    { t with
      mem := (Load.chars ⟨0, false, 0, t.mem⟩ (text passwd)).mem,
      userCnt := (Load.chars ⟨0, false, 0, t.mem⟩ (text passwd)).idx } := by
  simp only [loadUsers, Fs.readi_zero, Option.getD_some, text]
  split
  · rw [chars_takeWhile, takeWhile_buf]
  · rfl

theorem loadStores_eq (t : Ltable) (passwd : List UInt8) :
    loadStores t passwd = Load.stores ⟨0, false, 0, t.mem⟩ (text passwd) := by
  simp only [loadStores, Fs.readi_zero, Option.getD_some, text]
  split
  · rw [stores_takeWhile, takeWhile_buf]
  · rfl

theorem getD_eq_zero_iff {s : List UInt8} (hs : 0 ∉ s) {j : Nat} {c : UInt8} :
    s.getD j c = 0 ↔ s.length ≤ j ∧ c = 0 := by
  by_cases hj : j < s.length
  · rw [List.getD_eq_getElem _ _ hj]
    exact ⟨fun h => absurd (h ▸ List.getElem_mem hj) hs, fun h => by omega⟩
  · rw [List.getD_eq_default _ _ (by omega)]
    exact ⟨fun h => ⟨by omega, h⟩, And.right⟩

/-- The call in terms of the rows that it stores. -/
structure Spec (t : Ltable) (passwd : List UInt8) (es : List Fields) (last : Fields) : Prop where
  cnt : (loadUsers t passwd).userCnt = es.length
  room : es.length ≤ MAX_USER
  full : es.length = MAX_USER → last = ([], [])
  nonzero : ∀ i, 0 ∉ ((es ++ [last]).getD i ([], [])).1 ∧ 0 ∉ ((es ++ [last]).getD i ([], [])).2
  inside : (∀ p ∈ loadStores t passwd, p.1 < MAX_USER ∧ p.2 ≤ MAX_LEN) ↔
    ∀ r e, (es ++ [last])[r]? = some e → Narrow r e
  stored : (∀ r e, (es ++ [last])[r]? = some e → Narrow r e) → ∀ i < MAX_USER,
    Over t.mem (loadUsers t passwd).mem i ((es ++ [last]).getD i ([], []))

theorem loadUsers_spec (t : Ltable) (passwd : List UInt8) :
    Spec t passwd (entries MAX_USER (text passwd)).1 (entries MAX_USER (text passwd)).2 := by
  have hl := loaded_entries (m := t.mem) (Nat.zero_add MAX_USER) (zero_notMem_text passwd)
  refine ⟨?_, length_entries_le _ _, entries_full, fun i => ?_, ?_, fun h i hi => ?_⟩
  · rw [loadUsers_eq, hl.idx, Nat.zero_add]
  · by_cases hi : i < ((entries MAX_USER (text passwd)).1 ++
      [(entries MAX_USER (text passwd)).2]).length
    · rw [List.getD_eq_getElem _ _ hi]
      obtain ⟨hn, hp⟩ := entries_subset (List.getElem_mem hi)
      exact ⟨fun h => zero_notMem_text passwd (hn h), fun h => zero_notMem_text passwd (hp h)⟩
    · rw [List.getD_eq_default _ _ (by omega)]
      exact ⟨nofun, nofun⟩
  · rw [loadStores_eq, hl.stores, rowStores_inside_iff]
    simp only [Nat.zero_add]
  · have := storeRows_over (m := t.mem) (k := 0) (fun r e hr => (Nat.zero_add r).symm ▸ h r e hr) hi
    rw [if_pos (Nat.zero_le i), Nat.sub_zero] at this
    rwa [loadUsers_eq, hl.mem]

variable {m : Mem} {i : Nat} {e : Fields}

theorem Over.terminated_iff (h : Over m m' i e) (hz : 0 ∉ e.1 ∧ 0 ∉ e.2) :
    Terminated m' (usernames i) ∧ Terminated m' (passwords i) ↔
      Ends m (usernames i) e.1 ∧ Ends m (passwords i) e.2 := by
  refine and_congr (exists_congr fun j => ?_) (exists_congr fun j => ?_)
  · constructor
    · rintro ⟨hj, h0⟩
      rw [(h j hj).1, getD_eq_zero_iff hz.1] at h0
      exact ⟨h0.1, hj, h0.2⟩
    · rintro ⟨hl, hj, h0⟩
      exact ⟨hj, (h j hj).1.trans ((getD_eq_zero_iff hz.1).mpr ⟨hl, h0⟩)⟩
  · constructor
    · rintro ⟨hj, h0⟩
      rw [(h j hj).2, getD_eq_zero_iff hz.2] at h0
      exact ⟨h0.1, hj, h0.2⟩
    · rintro ⟨hl, hj, h0⟩
      exact ⟨hj, (h j hj).2.trans ((getD_eq_zero_iff hz.2).mpr ⟨hl, h0⟩)⟩

theorem freeRow_iff : FreeRow m i ↔
    ∀ j ≤ MAX_LEN, m (usernames i + j) = 0 ∧ m (passwords i + j) = 0 := by
  constructor
  · exact fun h j hj => ⟨h _ (.inl ⟨by omega, by omega⟩), h _ (.inr ⟨by omega, by omega⟩)⟩
  · rintro h x (⟨h₁, h₂⟩ | ⟨h₁, h₂⟩)
    · rw [← Nat.add_sub_cancel' h₁]
      exact (h _ (by omega)).1
    · rw [← Nat.add_sub_cancel' h₁]
      exact (h _ (by omega)).2

theorem Over.freeRow_iff (h : Over m m' i e) (hz : 0 ∉ e.1 ∧ 0 ∉ e.2) :
    FreeRow m' i ↔ e = ([], []) ∧ FreeRow m i := by
  simp only [Users.freeRow_iff]
  constructor
  · intro h0
    have hj : ∀ j ≤ MAX_LEN, (e.1.length ≤ j ∧ m (usernames i + j) = 0) ∧
        e.2.length ≤ j ∧ m (passwords i + j) = 0 := by
      intro j hj
      have hn := (h0 j hj).1
      have hp := (h0 j hj).2
      rw [(h j hj).1, getD_eq_zero_iff hz.1] at hn
      rw [(h j hj).2, getD_eq_zero_iff hz.2] at hp
      exact ⟨hn, hp⟩
    have hlen := hj 0 (Nat.zero_le _)
    exact ⟨Prod.ext (List.length_eq_zero_iff.mp (by omega)) (List.length_eq_zero_iff.mp (by omega)),
      fun j h => ⟨(hj j h).1.2, (hj j h).2.2⟩⟩
  · rintro ⟨rfl, h0⟩ j hj
    exact ⟨(h j hj).1.trans (h0 j hj).1, (h j hj).2.trans (h0 j hj).2⟩

end Load

/-- `loadUsers` is safe for a file and a table if each entry of the file leaves a zero of the table
behind it in its row, nothing follows the entries, and the other rows are zero. -/
theorem loadUsers_safe_iff (t : Ltable) (passwd : List UInt8) : SafeLoad t passwd ↔
    Fits t.mem (entries MAX_USER (text passwd)).1 (entries MAX_USER (text passwd)).2 := by
  have hs := loadUsers_spec t passwd
  generalize (entries MAX_USER (text passwd)).1 = es at hs ⊢
  generalize (entries MAX_USER (text passwd)).2 = last at hs ⊢
  have hrow : ∀ i e, es[i]? = some e → i < es.length ∧ (es ++ [last]).getD i ([], []) = e := by
    intro i e hi
    have hlt := (List.getElem?_eq_some_iff.mp hi).1
    rw [List.getD_eq_getElem?_getD, List.getElem?_append_left hlt, hi]
    exact ⟨hlt, rfl⟩
  constructor
  · intro h
    have hover := hs.stored (hs.inside.mp h.inside)
    have hlast : last = ([], []) := by
      by_cases hf : es.length = MAX_USER
      · exact hs.full hf
      · have hlt := Nat.lt_of_le_of_ne hs.room hf
        have := ((hover _ hlt).freeRow_iff (hs.nonzero _)).mp (h.zero _ (Nat.le_of_eq hs.cnt) hlt)
        simpa using this.1
    refine ⟨fun i e hi => ?_, hlast, fun i hle hi => ?_⟩
    · obtain ⟨hlt, he⟩ := hrow i e hi
      have := (hover i (Nat.lt_of_lt_of_le hlt hs.room)).terminated_iff (hs.nonzero i)
      rw [he] at this
      exact this.mp (h.terminated i (hs.cnt ▸ hlt))
    · exact (((hover i hi).freeRow_iff (hs.nonzero i)).mp (h.zero i (hs.cnt ▸ hle) hi)).2
  · intro h
    have hnarrow : ∀ r e, (es ++ [last])[r]? = some e → Narrow r e := by
      intro r e hr
      rcases Nat.lt_or_ge r es.length with hlt | hge
      · rw [List.getElem?_append_left hlt] at hr
        obtain ⟨⟨j, _⟩, j', _⟩ := h.ends r e hr
        exact .inl ⟨Nat.lt_of_lt_of_le hlt hs.room, by omega, by omega⟩
      · rw [List.getElem?_append_right hge, h.last] at hr
        exact .inr (List.mem_singleton.mp (List.mem_of_getElem? hr))
    have hover := hs.stored hnarrow
    refine ⟨hs.inside.mpr hnarrow, fun i hi => ?_, fun i hle hi => ?_⟩
    · rw [hs.cnt] at hi
      obtain ⟨-, he⟩ := hrow i _ (List.getElem?_eq_getElem hi)
      refine ((hover i (Nat.lt_of_lt_of_le hi hs.room)).terminated_iff (hs.nonzero i)).mpr ?_
      rw [he]
      exact h.ends i _ (List.getElem?_eq_getElem hi)
    · rw [hs.cnt] at hle
      refine ((hover i hi).freeRow_iff (hs.nonzero i)).mpr ⟨?_, h.free i hle hi⟩
      rw [List.getD_append_right _ _ _ _ hle, h.last]
      cases i - es.length <;> rfl

/-- A name of 17 bytes is stored past its row. -/
theorem loadUsers_not_safe : (0, MAX_LEN + 1) ∈ loadStores .empty
      (List.replicate (MAX_LEN + 2) 97 ++ DASH :: (zeros.1 ++ [SLASH])) ∧
    ¬ SafeLoad .empty (List.replicate (MAX_LEN + 2) 97 ++ DASH :: (zeros.1 ++ [SLASH])) := by
  have hmem : (0, MAX_LEN + 1) ∈ loadStores .empty
      (List.replicate (MAX_LEN + 2) 97 ++ DASH :: (zeros.1 ++ [SLASH])) := by decide +kernel
  exact ⟨hmem, fun h => absurd (h.inside _ hmem).2 (by decide)⟩

end Xv6.Users
