import Mathlib.Data.Finmap
import Xv6.Users.Passwd

/-! # The table as a finite map

The abstract model of the account table: a finite map from names to passwords, where `addUser`
inserts a name that is not there and `deleteUser` erases one other than that of root. The table
refines the map in every run, whatever the file system makes of the calls, and `sys_login` reads
the map. -/

namespace Xv6.Users

open CString

def sysLogin (username password : Str) (t : Ltable) : Int × Ltable :=
  match find t username with
  | none => (-1, t)
  | some found =>
    if equals (t.password found) password then (0, { t with userIdx := found }) else (-1, t)

/-! ## The abstract model -/

abbrev Directory := Finmap fun _ : List UInt8 => List UInt8

namespace Directory

/-- A name or a password that `addUser` accepts. -/
def ValidLength (s : List UInt8) : Prop := 2 ≤ s.length ∧ s.length ≤ MAX_LEN

instance (s : List UInt8) : Decidable (ValidLength s) := inferInstanceAs (Decidable (_ ∧ _))

def addUser (d : Directory) (username password : List UInt8) : Directory :=
  if d.keys.card < MAX_USER ∧ ValidLength username ∧ ValidLength password ∧ username ∉ d then
    d.insert username password
  else d

def deleteUser (d : Directory) (username : List UInt8) : Directory :=
  if username ∈ d ∧ username ≠ root then d.erase username else d

/-- The accounts that a list holds. -/
def ofAccounts (us : List Account) : Directory :=
  (us.map fun u => (⟨u.name, u.pass⟩ : Sigma fun _ : List UInt8 => List UInt8)).toFinmap

end Directory

/-! ## Runs -/

inductive Call
  | addUser (opens found : Bool) (username password : Str)
  | deleteUser (opens : Bool) (username : Str)
  | login (username password : Str)

/-- The kernel and the map, step by step. -/
structure Pair where
  state : State
  map : Directory

def Call.run (s : Pair) : Call → Pair
  | .addUser opens found username password =>
    ⟨(Users.addUser opens found username password s.state).2, s.map.addUser username password⟩
  | .deleteUser opens username =>
    ⟨(Users.deleteUser opens username s.state).2, s.map.deleteUser username⟩
  | .login username password =>
    ⟨{ s.state with table := (sysLogin username password s.state.table).2 }, s.map⟩

/-- What a boot finds in `/passwd`: nothing, or the accounts of an earlier run, that of root
first. -/
structure BootFile (passwd : List UInt8) (us : List Account) : Prop where
  text : ∃ z, passwd = encode us ++ List.replicate z 0
  room : us.length ≤ MAX_USER
  separable : ∀ u ∈ us, u.Separable
  nodup : (us.map Account.name).Nodup
  root : us = [] ∨ us.head? = some rootAccount

/-- The table and the map from a boot on. A boot that finds no accounts adds that of root. -/
def directory : LTS Pair Call where
  init s := ∃ opens found passwd us, BootFile passwd us ∧ s.state = lbegin opens found passwd ∧
    s.map = .ofAccounts (if us = [] then [rootAccount] else us)
  next s a := some (a.run s)

/-! ## Rows -/

theorem equals_iff : equals s t = true ↔ s = t := by
  unfold equals
  rw [decide_eq_true_iff]
  constructor
  · rintro ⟨hl, hc⟩
    exact (strncmp_eq_zero_iff hl).mp hc
  · rintro rfl
    exact ⟨rfl, (strncmp_eq_zero_iff rfl).mpr rfl⟩

/-- A login that succeeds has found its pair in the table. -/
theorem sysLogin_cases (username password : Str) (t : Ltable) :
    (sysLogin username password t).2 = t ∨ ∃ i : Nat,
      t.users[i]? = some (username.1, password.1) ∧
        (sysLogin username password t).2 = { t with userIdx := i } := by
  cases hfind : find t username with
  | none =>
    rw [sysLogin, hfind]
    exact .inl rfl
  | some i =>
    have hmem := List.mem_of_find?_eq_some hfind
    have hname := List.find?_some hfind
    rw [decide_eq_true_iff] at hname
    cases hpass : equals (t.password i) password with
    | false =>
      simp only [sysLogin, hfind, hpass]
      exact .inl rfl
    | true =>
      simp only [sysLogin, hfind, hpass]
      refine .inr ⟨i, ?_, rfl⟩
      rw [Ltable.users, List.getElem?_map, List.getElem?_range (List.mem_range.mp hmem),
        Option.map_some, equals_iff.mp hname.2, equals_iff.mp hpass]
/-- The table holds the accounts, with distinct names and that of root first. -/
structure Listed (t : Ltable) (us : List Account) : Prop where
  rep : Rep t us
  nodup : (us.map Account.name).Nodup
  root : us.head? = some rootAccount

/-- The map sends the names of the accounts to their passwords. -/
def Maps (d : Directory) (us : List Account) : Prop :=
  ∀ name pass, d.lookup name = some pass ↔ ∃ u ∈ us, u.name = name ∧ u.pass = pass

section Listed
variable {us : List Account} {u v : Account} {i j : Nat} {d : Directory}

theorem Listed.setUserIdx (h : Listed t us) : Listed { t with userIdx := idx } us :=
  ⟨⟨h.rep.cnt, h.rep.room, h.rep.row, h.rep.free⟩, h.nodup, h.root⟩

theorem Listed.inj (h : Listed t us) (hu : us[i]? = some u) (hv : us[j]? = some v)
    (e : u.name = v.name) : i = j := by
  obtain ⟨hi, rfl⟩ := List.getElem?_eq_some_iff.mp hu
  obtain ⟨hj, rfl⟩ := List.getElem?_eq_some_iff.mp hv
  have hi' : i < (us.map Account.name).length := by rwa [List.length_map]
  have hj' : j < (us.map Account.name).length := by rwa [List.length_map]
  have e' : (us.map Account.name)[i] = (us.map Account.name)[j] := by
    rw [List.getElem_map, List.getElem_map, e]
  exact h.nodup.getElem_inj_iff.mp e'

/-- The search finds the account with the name. -/
theorem Listed.find_eq_some (h : Listed t us) :
    find t name = some i ↔ ∃ u, us[i]? = some u ∧ u.name = name := by
  have hP : ∀ j u, us[j]? = some u → (decide ((t.username j).length = name.length ∧
      equals (t.username j) name = true) = true ↔ u.name = name) := by
    intro j u hu
    rw [h.rep.username_eq hu, decide_eq_true_iff, equals_iff]
    exact ⟨And.right, fun e => ⟨by rw [e], e⟩⟩
  rw [find, List.find?_range_eq_some, List.mem_range, h.rep.cnt]
  constructor
  · rintro ⟨hi, hp, -⟩
    have hu := List.getElem?_eq_getElem hp
    exact ⟨_, hu, (hP i _ hu).mp hi⟩
  · rintro ⟨u, hu, rfl⟩
    have hi := (List.getElem?_eq_some_iff.mp hu).1
    refine ⟨(hP i u hu).mpr rfl, hi, fun j hj => ?_⟩
    have hv := List.getElem?_eq_getElem (hj.trans hi)
    rw [Bool.not_eq_true', Bool.eq_false_iff]
    intro hp
    exact hj.ne (h.inj hv hu ((hP j _ hv).mp hp))

theorem Maps.mem_iff (h : Maps d us) : name ∈ d ↔ ∃ u ∈ us, u.name = name := by
  rw [Finmap.mem_iff]
  constructor
  · rintro ⟨pass, hp⟩
    obtain ⟨u, hu, e, -⟩ := (h name pass).mp hp
    exact ⟨u, hu, e⟩
  · rintro ⟨u, hu, rfl⟩
    exact ⟨u.pass, (h _ _).mpr ⟨u, hu, rfl, rfl⟩⟩

theorem Maps.card_keys (h : Maps d us) (hn : (us.map Account.name).Nodup) :
    d.keys.card = us.length := by
  have : d.keys = (us.map Account.name).toFinset := by
    ext name
    rw [Finmap.mem_keys, h.mem_iff, List.mem_toFinset, List.mem_map]
  rw [this, List.toFinset_card_of_nodup hn, List.length_map]

theorem maps_ofAccounts (hn : (us.map Account.name).Nodup) : Maps (.ofAccounts us) us := by
  intro name pass
  have hk : (us.map fun u =>
      (⟨u.name, u.pass⟩ : Sigma fun _ : List UInt8 => List UInt8)).NodupKeys := by
    rw [List.NodupKeys, List.keys, List.map_map]
    exact hn
  rw [Directory.ofAccounts, Finmap.dlookup_list_toFinmap, ← Option.mem_def, List.mem_dlookup_iff hk,
    List.mem_map]
  simp only [Sigma.mk.injEq, heq_eq_eq]

/-! ## The steps -/

/-- A new account. -/
theorem Listed.append (h : Listed t us) (hl : us.length < MAX_USER)
    (hnew : ∀ v ∈ us, v.name ≠ u.name) : Listed (append t u.name u.pass) (us ++ [u]) where
  rep := h.rep.append hl u
  nodup := by
    rw [List.map_append, List.map_singleton]
    refine h.nodup.append (List.nodup_singleton _) ?_
    intro name hm hs
    obtain ⟨v, hv, rfl⟩ := List.mem_map.mp hm
    exact hnew v hv (List.mem_singleton.mp hs)
  root := by rw [List.head?_append, h.root]; rfl

theorem Maps.insert (h : Maps d us) (hnew : ∀ v ∈ us, v.name ≠ u.name) :
    Maps (Finmap.insert u.name u.pass d) (us ++ [u]) := by
  intro name pass
  by_cases e : name = u.name
  · subst e
    rw [Finmap.lookup_insert, Option.some.injEq]
    constructor
    · rintro rfl
      exact ⟨u, by simp, rfl, rfl⟩
    · rintro ⟨v, hv, hname, rfl⟩
      rcases List.mem_append.mp hv with hv | hv
      · exact absurd hname (hnew v hv)
      · rw [List.mem_singleton.mp hv]
  · rw [Finmap.lookup_insert_of_ne _ e, h name pass]
    constructor
    · rintro ⟨v, hv, hv'⟩
      exact ⟨v, List.mem_append_left _ hv, hv'⟩
    · rintro ⟨v, hv, rfl, rfl⟩
      refine ⟨v, (List.mem_append.mp hv).resolve_right fun hv => e ?_, rfl, rfl⟩
      rw [List.mem_singleton.mp hv]

/-- An account other than the first one is removed. -/
theorem Listed.remove (h : Listed t us) (hu : us[i]? = some u) (hi : i ≠ 0) :
    Listed (remove t i) (us.eraseIdx i) where
  rep := h.rep.remove (List.getElem?_eq_some_iff.mp hu).1
  nodup := by
    rw [← List.eraseIdx_map]
    exact h.nodup.sublist (List.eraseIdx_sublist ..)
  root := by
    rw [List.head?_eq_getElem?, List.getElem?_eraseIdx_of_lt (by omega), ← List.head?_eq_getElem?]
    exact h.root

theorem Maps.erase (hd : Maps d us) (h : Listed t us) (hu : us[i]? = some u) :
    Maps (d.erase u.name) (us.eraseIdx i) := by
  intro name pass
  by_cases e : name = u.name
  · subst e
    rw [Finmap.lookup_erase]
    constructor
    · nofun
    · rintro ⟨v, hv, hname, -⟩
      obtain ⟨j, hj, hv⟩ := List.mem_eraseIdx_iff_getElem?.mp hv
      exact absurd (h.inj hv hu hname) hj
  · rw [Finmap.lookup_erase_ne e, hd name pass]
    constructor
    · rintro ⟨v, hv, rfl, rfl⟩
      obtain ⟨j, hj⟩ := List.getElem?_of_mem hv
      refine ⟨v, List.mem_eraseIdx_iff_getElem?.mpr ⟨j, ?_, hj⟩, rfl, rfl⟩
      rintro rfl
      cases hj.symm.trans hu
      exact e rfl
    · rintro ⟨v, hv, hv'⟩
      exact ⟨v, List.mem_of_mem_eraseIdx hv, hv'⟩

end Listed

section Calls
variable {s : State} {d : Directory} {us : List Account} {username password : Str}

/-- What the steps keep. -/
def Simulates (s : Pair) : Prop := ∃ us, Listed s.state.table us ∧ Maps s.map us

theorem simulates_addUser (h : Simulates ⟨s, d⟩) :
    Simulates ⟨(addUser opens found username password s).2, d.addUser username password⟩ := by
  obtain ⟨us, h, hd⟩ := h
  have hkeep : ¬ (d.keys.card < MAX_USER ∧ Directory.ValidLength username ∧
      Directory.ValidLength password ∧ username.1 ∉ d) →
      Simulates ⟨s, d.addUser username password⟩ := by
    intro hc
    rw [Directory.addUser, if_neg hc]
    exact ⟨us, h, hd⟩
  have hcard : d.keys.card = us.length := hd.card_keys h.nodup
  have hroom := h.rep.room
  unfold addUser
  simp only
  split
  · next hc =>
    rw [h.rep.cnt] at hc
    exact hkeep fun hd => by omega
  next hcnt =>
  split
  · next hc => exact hkeep fun hd => by simp only [Directory.ValidLength] at hd; omega
  next hlen =>
  split
  · next hc =>
    refine hkeep fun hn => hn.2.2.2 (hd.mem_iff.mpr ?_)
    obtain ⟨i, hi, he⟩ := List.any_eq_true.mp hc
    rw [List.mem_range, h.rep.cnt] at hi
    have hu := List.getElem?_eq_getElem hi
    rw [h.rep.username_eq hu, equals_iff] at he
    exact ⟨_, List.mem_of_getElem? hu, he⟩
  next hany =>
  rw [h.rep.cnt] at hcnt
  let u : Account := ⟨username, password, username.2, password.2, by omega, by omega⟩
  have hnew : ∀ v ∈ us, v.name ≠ u.name := by
    intro v hv e
    obtain ⟨i, hi⟩ := List.getElem?_of_mem hv
    refine hany (List.any_eq_true.mpr ⟨i, ?_, ?_⟩)
    · rw [List.mem_range, h.rep.cnt]
      exact (List.getElem?_eq_some_iff.mp hi).1
    · rw [h.rep.username_eq hi, equals_iff]
      exact e
  have hins : d.addUser username password = d.insert username.1 password.1 := by
    refine if_pos ⟨by omega, ⟨by omega, by omega⟩, ⟨by omega, by omega⟩, fun hm => ?_⟩
    obtain ⟨v, hv, e⟩ := hd.mem_iff.mp hm
    exact hnew v hv e
  rw [hins]
  -- the table is changed whatever becomes of the file
  split <;> exact ⟨us ++ [u], h.append (by omega) hnew, hd.insert hnew⟩

theorem simulates_deleteUser (h : Simulates ⟨s, d⟩) :
    Simulates ⟨(deleteUser opens username s).2, d.deleteUser username⟩ := by
  obtain ⟨us, h, hd⟩ := h
  have hroot : us[0]? = some rootAccount := by rw [← List.head?_eq_getElem?, h.root]
  unfold deleteUser
  simp only
  cases hf : find s.table username with
  | none =>
    have hmem : username.1 ∉ d := by
      intro hm
      obtain ⟨u, hu, e⟩ := hd.mem_iff.mp hm
      obtain ⟨i, hi⟩ := List.getElem?_of_mem hu
      cases hf.symm.trans (h.find_eq_some.mpr ⟨u, hi, e⟩)
    have hmap : d.deleteUser username = d := if_neg fun hc => hmem hc.1
    rw [hmap, Option.getD_none, if_pos rfl]
    exact ⟨us, h, hd⟩
  | some i =>
    obtain ⟨u, hu, e⟩ := h.find_eq_some.mp hf
    by_cases hi : i = 0
    · subst hi
      cases hu.symm.trans hroot
      have hmap : d.deleteUser username = d := if_neg fun hc => hc.2 e.symm
      rw [hmap, Option.getD_some, if_pos rfl]
      exact ⟨us, h, hd⟩
    · have hne : username.1 ≠ root := by
        intro e'
        exact hi (h.inj hu hroot (e.trans e'))
      have hmem : username.1 ∈ d := hd.mem_iff.mpr ⟨u, List.mem_of_getElem? hu, e⟩
      have hmap : d.deleteUser username = d.erase u.name := by
        rw [Directory.deleteUser, if_pos ⟨hmem, hne⟩, e]
      rw [hmap, Option.getD_some, if_neg hi]
      split <;> exact ⟨us.eraseIdx i, h.remove hu hi, hd.erase h hu⟩

theorem simulates_login (h : Simulates ⟨s, d⟩) :
    Simulates ⟨{ s with table := (sysLogin username password s.table).2 }, d⟩ := by
  obtain ⟨us, h, hd⟩ := h
  refine ⟨us, ?_, hd⟩
  unfold sysLogin
  split
  · exact h
  · split
    · exact h.setUserIdx
    · exact h

/-- `sys_login` succeeds exactly with the password that the map has for the name. -/
theorem sysLogin_eq_zero_iff (h : Listed s.table us) (hd : Maps d us) :
    (sysLogin username password s.table).1 = 0 ↔ d.lookup username.1 = some password.1 := by
  rw [hd]
  unfold sysLogin
  cases hf : find s.table username with
  | none =>
    refine ⟨nofun, ?_⟩
    rintro ⟨u, hu, e, -⟩
    obtain ⟨i, hi⟩ := List.getElem?_of_mem hu
    cases hf.symm.trans (h.find_eq_some.mpr ⟨u, hi, e⟩)
  | some i =>
    obtain ⟨u, hu, e⟩ := h.find_eq_some.mp hf
    simp only [h.rep.password_eq hu]
    constructor
    · intro hr
      split at hr
      · next he => exact ⟨u, List.mem_of_getElem? hu, e, equals_iff.mp he⟩
      · cases hr
    · rintro ⟨v, hv, e', hpass⟩
      obtain ⟨j, hj⟩ := List.getElem?_of_mem hv
      obtain rfl := h.inj hu hj (e.trans e'.symm)
      cases hu.symm.trans hj
      rw [if_pos (equals_iff.mpr hpass)]

end Calls

/-! ## Boot -/

/-- A file of zeros has no accounts. -/
theorem loadUsers_replicate (z : Nat) : loadUsers .empty (List.replicate z 0) = .empty := by
  have hbuf : (List.replicate z (0 : UInt8)).take bufSize ++ List.replicate
      (bufSize - ((List.replicate z (0 : UInt8)).take bufSize).length) 0 =
      List.replicate bufSize 0 := by
    simp only [List.take_replicate, List.length_replicate, List.replicate_append_replicate]
    congr 1
    omega
  have hchars : Load.chars ⟨0, false, 0, Ltable.empty.mem⟩ (List.replicate bufSize 0) =
      ⟨0, false, 0, Ltable.empty.mem⟩ := if_pos (.inr rfl)
  simp only [loadUsers, Fs.readi_zero, Option.getD_some, hbuf, hchars, ite_self]
  rfl

/-- The account of root is in the table even if the file cannot be written. -/
theorem addUser_root (opens found : Bool) (passwd : List UInt8) :
    (addUser opens found root zeros ⟨.empty, passwd⟩).2.table = append .empty root zeros := by
  have hcnt : (⟨.empty, passwd⟩ : State).table.userCnt = 0 := rfl
  rw [addUser, hcnt, if_neg (by decide), if_neg (by decide), List.range_zero, List.any_nil,
    if_neg (by simp)]
  simp only
  split <;> rfl

theorem simulates_boot (hf : BootFile passwd us) : Simulates
      ⟨lbegin opens found passwd, .ofAccounts (if us = [] then [rootAccount] else us)⟩ := by
  obtain ⟨z, hz⟩ := hf.text
  unfold lbegin
  simp only
  rcases hf.root with rfl | hroot
  · obtain rfl : passwd = List.replicate z 0 := hz
    have hnodup : ([rootAccount].map Account.name).Nodup := List.nodup_singleton _
    have hcnt : Ltable.empty.userCnt = 0 := rfl
    rw [loadUsers_replicate, if_pos rfl]
    simp only [if_pos hcnt]
    refine ⟨[rootAccount], ?_, maps_ofAccounts hnodup⟩
    refine Listed.setUserIdx (t := (addUser ..).2.table) ?_
    rw [addUser_root]
    exact ⟨Rep.empty.append (by decide) rootAccount, hnodup, rfl⟩
  · obtain ⟨us, rfl⟩ : ∃ us', us = rootAccount :: us' := List.head?_eq_some_iff.mp hroot
    obtain ⟨t, ht, -⟩ := Rep.empty.chars _ (by simpa using hf.room) hf.separable z
    have hlen : 6 < (encode (rootAccount :: us)).length := by
      have : rootAccount.entry.length = 10 := rfl
      rw [encode, List.flatMap_cons, List.length_append]
      omega
    have hrep := ht.loadUsers hf.separable hlen z
    rw [List.nil_append] at hrep
    rw [hz, if_neg (by simp [hrep.cnt]), if_neg (by simp)]
    exact ⟨_, Listed.setUserIdx ⟨hrep, hf.nodup, rfl⟩, maps_ofAccounts hf.nodup⟩

theorem simulates_invariant : directory.Invariant (fun _ _ => True) Simulates where
  init := by
    rintro ⟨s, d⟩ ⟨opens, found, passwd, us, hf, rfl, rfl⟩
    exact simulates_boot hf
  step {s a s'} h _ hn := by
    cases hn
    cases a with
    | addUser opens found username password => exact simulates_addUser h
    | deleteUser opens username => exact simulates_deleteUser h
    | login username password => exact simulates_login h

structure Refines (t : Ltable) (d : Directory) : Prop where
  distinct : ∀ i < t.userCnt, ∀ j < t.userCnt, t.username i = t.username j → i = j
  /-- Names and passwords end in their rows. -/
  terminated : ∀ i < t.userCnt,
    IsStr t.mem (usernames i) (t.username i) ∧ (t.username i).length ≤ MAX_LEN ∧
    IsStr t.mem (passwords i) (t.password i) ∧ (t.password i).length ≤ MAX_LEN
  root : 0 < t.userCnt ∧ t.username 0 = root
  free : ∀ i, t.userCnt ≤ i → i < MAX_USER → FreeRow t.mem i
  login : ∀ username password : Str,
    (sysLogin username password t).1 = 0 ↔ d.lookup username.1 = some password.1

theorem refines_of_reached {s : Pair} (h : directory.Reached s) : Refines s.state.table s.map := by
  obtain ⟨us, h, hd⟩ := simulates_invariant.of_reached h
  have hget : ∀ i < s.state.table.userCnt, ∃ u, us[i]? = some u := by
    intro i hi
    rw [h.rep.cnt] at hi
    exact ⟨_, List.getElem?_eq_getElem hi⟩
  have hroot : us[0]? = some rootAccount := by rw [← List.head?_eq_getElem?, h.root]
  refine ⟨fun i hi j hj e => ?_, fun i hi => ?_, ⟨?_, ?_⟩,
    fun i hi => h.rep.free i (h.rep.cnt ▸ hi), fun username password => sysLogin_eq_zero_iff h hd⟩
  · obtain ⟨u, hu⟩ := hget i hi
    obtain ⟨v, hv⟩ := hget j hj
    rw [h.rep.username_eq hu, h.rep.username_eq hv] at e
    exact h.inj hu hv e
  · obtain ⟨u, hu⟩ := hget i hi
    have hrow := h.rep.row i u hu
    rw [h.rep.username_eq hu, h.rep.password_eq hu]
    exact ⟨hrow.name, u.name_length, hrow.pass, u.pass_length⟩
  · rw [h.rep.cnt]
    exact (List.getElem?_eq_some_iff.mp hroot).1
  · exact h.rep.username_eq hroot

/-- `"ab"`, a name that is shorter than the one it is moved over. -/
def shortName : Str := ⟨[97, 98], by decide⟩

/-- Two accounts are added, one of them is deleted and added again with another password. -/
theorem refines_of_reached_readded : ∃ s, directory.Reached s ∧ s.state.table.userCnt = 3 ∧
    s.map.lookup dashName.1 = some zeros.1 ∧ Refines s.state.table s.map := by
  obtain ⟨s, hs, hp⟩ := directory.exists_reached_of_run
    (s := ⟨lbegin true true [], .ofAccounts [rootAccount]⟩)
    [.addUser true true dashName longPassword, .addUser false true shortName zeros,
      .deleteUser true dashName, .addUser true false dashName zeros, .login shortName zeros]
    (fun s => decide (s.state.table.userCnt = 3 ∧ s.map.lookup dashName.1 = some zeros.1))
    ⟨true, true, [], [], ⟨⟨0, rfl⟩, by decide, by simp, List.nodup_nil, .inl rfl⟩, rfl, rfl⟩
    (by decide +kernel)
  obtain ⟨hc, hl⟩ := of_decide_eq_true hp
  exact ⟨s, hs, hc, hl, refines_of_reached hs⟩

end Xv6.Users
