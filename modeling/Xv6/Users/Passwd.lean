import Xv6.Users.Accounts

/-! # `/passwd` holds the table

`flushUsers` writes the encoding of the accounts, which `loadUsers` reads back when no name has the
character between name and password in it and no password the one behind it. -/

namespace Xv6.Users

open Function CString

/-! ## `flushUsers` -/

section Flush
variable {us : List Account} {u : Account}

theorem Filled.fillBuf (h : Filled t us) (hi : us[i]? = some u) (buf : Mem) :
    cstr (fillBuf t buf i) 0 = u.entry := by
  have hlen := u.length_entry
  have := u.name_length
  have := u.pass_length
  refine IsStr.str_eq ⟨?_, u.zero_notMem_entry⟩ (Nat.lt_of_le_of_lt (m := 32) ?_ (by decide))
  · simp only [Users.fillBuf, h.username hi, h.password hi]
    simp only [Account.entry, List.append_assoc, List.cons_append, holds_append, Holds, and_true,
      Nat.zero_add]
    -- the pieces stand one behind the other, so each store leaves the earlier ones alone
    refine ⟨?_, ?_, ?_, ?_, ?_⟩
    · exact (((holds_strncpy.update (by omega)).strncpy (by omega)).update (by omega)).update
        (by omega)
    · rw [update_of_ne (by omega), update_of_ne (by omega),
        strncpy_of_lt (Nat.lt_succ_self _), update_self]
    · exact Holds.update (Holds.update holds_strncpy (.inr (Nat.le_refl _))) (by omega)
    · rw [update_of_ne (by omega), update_self]
    · exact ⟨trivial, update_self _ _ _⟩
  · simp only [MAX_LEN] at *; omega

/-- No store leaves the buffer, which has room for an entry and the terminator. -/
theorem Filled.fillBuf_of_le (h : Filled t us) (hi : us[i]? = some u) (buf : Mem)
    (ha : MAX_LEN * 2 + 2 + 1 ≤ a) : Users.fillBuf t buf i a = buf a := by
  have := u.name_length
  have := u.pass_length
  simp only [Users.fillBuf, h.username hi, h.password hi]
  rw [update_of_ne (by omega), update_of_ne (by omega), strncpy_of_le (by omega),
    update_of_ne (by omega), strncpy_of_le (by omega)]

/-- What `flushUsers` has written of the accounts, over a file of `n` zeros. -/
structure Flushed (n : Nat) (us : List Account) (f : Flush) : Prop where
  off : f.off = (encode us).length
  passwd : f.passwd = encode us ++ List.replicate (n - (encode us).length) 0

theorem Flushed.write (hf : Flushed n us' f) (h : Filled t us) (hi : us[i]? = some u)
    (hl : us'.length < MAX_USER) : Flushed n (us' ++ [u]) (f.write t i) := by
  have hlen := length_encode_le us'
  have he := u.length_entry
  have := u.name_length
  have := u.pass_length
  have henc : encode (us' ++ [u]) = encode us' ++ u.entry := by simp [encode]
  have hw : Fs.filewrite f.passwd f.off u.entry = _ := Fs.filewrite_eq
    (by rw [hf.passwd, hf.off]; simp) (by
      rw [hf.off]
      simp only [Fs.MAXFILE, Fs.NDIRECT, Fs.NINDIRECT, Fs.BSIZE, MAX_USER, MAX_LEN] at *
      omega)
  simp only [Flush.write, h.fillBuf hi, hw]
  refine ⟨by rw [henc, List.length_append, hf.off], ?_⟩
  rw [hf.passwd, hf.off, henc, Fs.splice, List.take_left' rfl, ← List.drop_drop,
    List.drop_left' rfl, List.drop_replicate, List.length_append, Nat.sub_sub]

theorem Filled.flush (h : Filled t us) (passwd : List UInt8) (hn : n ≤ us.length) :
    Flushed passwd.length (us.take n) ((List.range n).foldl (Flush.write t)
      ⟨fun _ => 0, List.replicate passwd.length 0, 0⟩) := by
  induction n with
  | zero => exact ⟨rfl, rfl⟩
  | succ n ih =>
    have hi := List.getElem?_eq_getElem hn
    have hr := h.room
    rw [List.range_succ, List.foldl_append, List.take_add_one, hi]
    exact (ih (by omega)).write h hi (by simp; omega)

/-- `flushUsers` leaves the encoding of the table, followed by zeros. -/
theorem Filled.flushUsers (h : Filled t us) (hf : flushUsers opens t passwd = some passwd') :
    passwd' = encode us ++ List.replicate (passwd.length - (encode us).length) 0 := by
  simp only [Users.flushUsers, Option.ite_none_right_eq_some, Option.map_eq_some_iff] at hf
  obtain ⟨-, d, hd, rfl⟩ := hf
  obtain ⟨-, ⟨⟩⟩ := Option.ite_none_left_eq_some.mp hd
  have := (h.flush passwd (Nat.le_refl _)).passwd
  rwa [List.take_length, ← h.cnt] at this

end Flush

/-! ## `loadUsers` -/

section Load
variable {us : List Account} {s : List UInt8}

theorem chars_cons {l : Load} {c : UInt8} (hk : l.idx < MAX_USER) (hc : c ≠ 0) :
    l.chars (c :: rest) = (l.char c).chars rest := by
  rw [Load.chars, if_neg]
  simp [hc, Nat.ne_of_lt hk]

/-- The character behind a name or a password. -/
def stop (pw : Bool) : UInt8 := if pw = false then DASH else SLASH

def field (pw : Bool) (k : Nat) : Nat := if pw = false then usernames k else passwords k

theorem char_of_ne (hc : c ≠ stop pw) :
    Load.char ⟨k, pw, off, m⟩ c = ⟨k, pw, off + 1, update m (field pw k + off) c⟩ := by
  cases pw with
  | false | true => exact if_pos hc

theorem chars_field (pw : Bool) (hk : k < MAX_USER) (hz : 0 ∉ s) (hd : stop pw ∉ s) :
    Load.chars ⟨k, pw, off, m⟩ (s ++ rest) =
      Load.chars ⟨k, pw, off + s.length, strncpy m (field pw k + off) s s.length⟩ rest := by
  induction s generalizing m off with
  | nil => rfl
  | cons c s ih =>
    simp only [List.mem_cons, not_or] at hz hd
    rw [List.cons_append, chars_cons hk (Ne.symm hz.1), char_of_ne (Ne.symm hd.1),
      ih hz.2 hd.2, List.length_cons, strncpy]
    simp only [Nat.add_assoc, Nat.add_comm 1]

/-- Reading an entry stores an account as `addUser` does. -/
theorem chars_entry {u : Account} (ht : t.userCnt < MAX_USER) (hu : u.Separable) :
    Load.chars ⟨t.userCnt, false, 0, t.mem⟩ (u.entry ++ rest) =
      Load.chars ⟨(append t u.name u.pass).userCnt, false, 0, (append t u.name u.pass).mem⟩
        rest := by
  have hdash : ∀ off m,
      Load.chars ⟨t.userCnt, false, off, m⟩ (DASH :: (u.pass ++ [SLASH] ++ rest)) =
      Load.chars ⟨t.userCnt, true, 0, m⟩ (u.pass ++ [SLASH] ++ rest) := fun _ _ =>
    chars_cons ht (by decide)
  have hslash : ∀ off m, Load.chars ⟨t.userCnt, true, off, m⟩ (SLASH :: rest) =
      Load.chars ⟨t.userCnt + 1, false, 0, m⟩ rest := fun _ _ => chars_cons ht (by decide)
  rw [Account.entry, List.append_assoc, chars_field false ht u.name_nonzero hu.1, List.cons_append,
    hdash, List.append_assoc, chars_field true ht u.pass_nonzero hu.2, List.singleton_append,
    hslash]
  rfl

/-- Reading the encoding of accounts appends them to the table. -/
theorem Rep.chars (h : Rep t us) (us' : List Account) (hl : us.length + us'.length ≤ MAX_USER)
    (hs : ∀ u ∈ us', u.Separable) (z : Nat) : ∃ t', Rep t' (us ++ us') ∧
      Load.chars ⟨t.userCnt, false, 0, t.mem⟩ (encode us' ++ List.replicate z 0) =
        ⟨t'.userCnt, false, 0, t'.mem⟩ := by
  induction us' generalizing t us with
  | nil =>
    refine ⟨t, by simpa using h, ?_⟩
    cases z with
    | zero => rfl
    | succ z => exact if_pos (.inr rfl)
  | cons u us' ih =>
    rw [List.length_cons] at hl
    obtain ⟨t', ht', he⟩ := ih (h.append (by omega) u) (by simp; omega)
      fun v hv => hs v (.tail _ hv)
    refine ⟨t', by simpa using ht', ?_⟩
    rw [← he, encode, List.flatMap_cons, List.append_assoc]
    exact chars_entry (by rw [h.cnt]; omega) (hs u (.head _))

/-- `loadUsers` reads back what `flushUsers` has written. -/
theorem Rep.loadUsers (h : Rep t us) (hs : ∀ u ∈ us, u.Separable) (hl : 6 < (encode us).length)
    (z : Nat) : Rep (loadUsers .empty (encode us ++ List.replicate z 0)) us := by
  have hroom := h.room
  have hlen := length_encode_le us
  have hsize : (encode us).length ≤ bufSize := by
    simp only [MAX_USER, MAX_LEN, bufSize] at *
    omega
  obtain ⟨t', ht', he⟩ := Rep.empty.chars us (by simpa using hroom) hs
    (bufSize - (encode us).length)
  -- the buffer is the text and zeros, however long the file is
  have hbuf : (encode us ++ List.replicate z 0).take bufSize ++ List.replicate
      (bufSize - ((encode us ++ List.replicate z 0).take bufSize).length) 0 =
      encode us ++ List.replicate (bufSize - (encode us).length) 0 := by
    simp only [List.take_append, List.take_of_length_le hsize, List.take_replicate,
      List.length_append, List.length_replicate, List.append_assoc, List.replicate_append_replicate]
    congr 2
    omega
  have hread : ((encode us ++ List.replicate z 0).take bufSize).length > 6 := by
    simp [bufSize] at hsize ⊢
    omega
  simp only [Users.loadUsers, Fs.readi_zero, Option.getD_some, if_pos hread, hbuf]
  rw [show (⟨0, false, 0, Ltable.empty.mem⟩ : Load) = ⟨Ltable.empty.userCnt, false, 0, _⟩ from rfl,
    he]
  exact ⟨ht'.cnt, ht'.room, ht'.row, ht'.free⟩

end Load

/-! ## Runs -/

/-- No name has the character behind it in it, and no password. -/
def Guarded (_ : State) : Act → Prop
  | .addUser _ _ username password => DASH ∉ username.1 ∧ SLASH ∉ password.1
  | _ => True

def rootAccount : Account := ⟨root, zeros, root.2, zeros.2, by decide, by decide⟩

/-- The table and `/passwd` hold the same accounts, and the first one is never deleted. -/
structure Saved (s : State) (us : List Account) : Prop where
  rep : Rep s.table us
  passwd : ∃ z, s.passwd = encode us ++ List.replicate z 0
  separable : ∀ u ∈ us, u.Separable
  root : us.head? = some rootAccount

section Saved
variable {s : State} {us : List Account}

theorem Saved.loadUsers (h : Saved s us) : Rep (loadUsers .empty s.passwd) us := by
  obtain ⟨z, hz⟩ := h.passwd
  obtain ⟨us', rfl⟩ : ∃ us', us = rootAccount :: us' := List.head?_eq_some_iff.mp h.root
  rw [hz]
  refine h.rep.loadUsers h.separable ?_ z
  have : rootAccount.entry.length = 10 := rfl
  rw [encode, List.flatMap_cons, List.length_append]
  omega

/-- The new accounts are on the disk once `flushUsers` has returned 0. -/
theorem Saved.flush (h : Rep t us') (hf : flushUsers opens t s.passwd = some passwd')
    (hs : ∀ u ∈ us', u.Separable) (hr : us'.head? = some rootAccount) : Saved ⟨t, passwd'⟩ us' :=
  ⟨h, ⟨_, h.filled.flushUsers hf⟩, hs, hr⟩

theorem Saved.addUser (h : Saved s us) (hg : Guarded s (.addUser opens found username password))
    (hn : success (addUser opens found username password s) = some s') : ∃ us', Saved s' us' := by
  have hroom := h.rep.room
  simp only [Users.addUser] at hn
  split at hn
  · cases hn
  split at hn
  · cases hn
  split at hn
  · cases hn
  next hcnt hlen _ =>
  rw [h.rep.cnt] at hcnt
  let u : Account := ⟨username, password, username.2, password.2, by omega, by omega⟩
  have hrep : Rep (append s.table username password) (us ++ [u]) :=
    h.rep.append (by omega) u
  split at hn
  · cases hn
  · next passwd hf =>
    obtain ⟨-, ⟨⟩⟩ := Option.ite_none_right_eq_some.mp hn
    refine ⟨us ++ [u], .flush hrep hf (fun v hv => ?_) ?_⟩
    · rcases List.mem_append.mp hv with hv | hv
      · exact h.separable v hv
      · exact List.mem_singleton.mp hv ▸ hg
    · rw [List.head?_append, h.root]; rfl

theorem Saved.deleteUser (h : Saved s us) (hn : success (deleteUser opens username s) = some s') :
    ∃ us', Saved s' us' := by
  simp only [Users.deleteUser] at hn
  split at hn
  · cases hn
  next hne =>
  have hlt : (find s.table username).getD 0 < us.length := by
    cases hf : find s.table username with
    | none => simp [hf] at hne
    | some i => simpa [h.rep.cnt] using List.mem_of_find?_eq_some hf
  have hrep := h.rep.remove hlt
  split at hn
  · cases hn
  · next passwd hf =>
    cases hn
    refine ⟨_, .flush hrep hf (fun v hv => h.separable v (List.mem_of_mem_eraseIdx hv)) ?_⟩
    rw [List.head?_eq_getElem?, List.getElem?_eraseIdx_of_lt (by omega), ← List.head?_eq_getElem?]
    exact h.root

theorem Saved.reboot (h : Saved s us) (opens found : Bool) :
    Saved (lbegin opens found s.passwd) us := by
  have hr := h.loadUsers
  have hne : (Users.loadUsers .empty s.passwd).userCnt ≠ 0 := by
    rw [hr.cnt]
    have := h.root
    cases us <;> simp at this ⊢
  simp only [lbegin, if_neg hne]
  exact ⟨⟨hr.cnt, hr.room, hr.row, hr.free⟩, h.passwd, h.separable, h.root⟩

/-- The first boot. -/
theorem Saved.boot (found : Bool) : Saved (lbegin true found []) [rootAccount] := by
  have hrep := Rep.empty.append (by decide) rootAccount
  obtain ⟨passwd, hf⟩ : ∃ passwd,
      flushUsers true (append .empty rootAccount.name rootAccount.pass) [] = some passwd :=
    ⟨_, rfl⟩
  have hadd : (Users.addUser true found Users.root zeros ⟨.empty, []⟩).2 =
      ⟨append .empty rootAccount.name rootAccount.pass, passwd⟩ := by
    rw [Users.addUser, if_neg (by decide), if_neg (by decide), if_neg (by decide)]
    simp only
    rw [show flushUsers true (append Ltable.empty Users.root zeros) [] = some passwd from hf]
    rfl
  have hlb : lbegin true found [] =
      ⟨{ append .empty rootAccount.name rootAccount.pass with userIdx := -1 }, passwd⟩ := by
    have hload : Users.loadUsers .empty [] = .empty := rfl
    have hcnt : Ltable.empty.userCnt = 0 := rfl
    simp only [lbegin, hload, if_pos hcnt, hadd]
  rw [hlb]
  refine ⟨⟨hrep.cnt, hrep.room, hrep.row, hrep.free⟩, ⟨_, hrep.filled.flushUsers hf⟩,
    fun u hu => ?_, rfl⟩
  rw [List.mem_singleton.mp hu]
  exact ⟨by decide, by decide⟩

end Saved

theorem saved_invariant : accounts.Invariant Guarded fun s => ∃ us, Saved s us where
  init := fun ⟨found, e⟩ => e ▸ ⟨_, .boot found⟩
  step {s a s'} h hg hn := by
    obtain ⟨us, h⟩ := h
    cases a with
    | addUser opens found username password => exact h.addUser hg hn
    | deleteUser opens username => exact h.deleteUser hn
    | reboot opens found =>
      cases hn
      exact ⟨us, h.reboot opens found⟩

/-- A reboot finds the accounts of the table in `/passwd`. -/
theorem loadUsers_users {s : State} (hs : accounts.ReachedVia Guarded s) :
    (loadUsers .empty s.passwd).users = s.table.users := by
  obtain ⟨us, h⟩ := saved_invariant.of_reached hs
  rw [h.loadUsers.filled.users_eq, h.rep.filled.users_eq]

instance (s : State) : ∀ a, Decidable (Guarded s a)
  | .addUser .. => inferInstanceAs (Decidable (_ ∧ _))
  | .deleteUser .. | .reboot .. => isTrue trivial

/-- `"a/b"`, a name with a slash in it. -/
def slashName : Str := ⟨[97, 47, 98], by decide⟩

/-- `"a-b"`, a password with a dash in it, or a name. -/
def dashName : Str := ⟨[97, 45, 98], by decide⟩

def longPassword : Str :=
  ⟨[108, 111, 110, 103, 101, 114, 45, 112, 97, 115, 115, 119, 111, 114, 100], by decide⟩

/-- An account is deleted and another one added: the new text is shorter than the old one. -/
theorem loadUsers_users_shorter : ∃ s, accounts.ReachedVia Guarded s ∧
    s.table.users = [(root.1, zeros.1), (slashName.1, dashName.1)] ∧
    (loadUsers .empty s.passwd).users = s.table.users := by
  obtain ⟨s, hs, hp⟩ := LTS.exists_reachedVia_of_run (M := accounts) (C := Guarded)
    [.addUser true true zeros longPassword, .addUser true true slashName dashName,
      .deleteUser true zeros]
    (fun s => decide (s.table.users = [(root.1, zeros.1), (slashName.1, dashName.1)]))
    ⟨false, rfl⟩ (by decide +kernel) (by decide +kernel)
  exact ⟨s, hs, of_decide_eq_true hp, loadUsers_users hs⟩

/-- `addUser` accepts a name with a dash in it, and a reboot reads another name. -/
theorem dash_not_loaded : ∃ s, accounts.Reached s ∧
    s.table.users = [(root.1, zeros.1), (dashName.1, zeros.1)] ∧
    (loadUsers .empty s.passwd).users = [(root.1, zeros.1), ([97], 98 :: DASH :: zeros.1)] := by
  obtain ⟨s, hs, hp⟩ := accounts.exists_reached_of_run [.addUser true true dashName zeros]
    (fun s => decide (s.table.users = [(root.1, zeros.1), (dashName.1, zeros.1)] ∧
      (loadUsers .empty s.passwd).users = [(root.1, zeros.1), ([97], 98 :: DASH :: zeros.1)]))
    ⟨false, rfl⟩ (by decide +kernel)
  exact ⟨s, hs, of_decide_eq_true hp⟩

end Xv6.Users
