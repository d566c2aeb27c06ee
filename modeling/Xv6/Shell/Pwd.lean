import Mathlib.Data.List.GetD
import Xv6.Sys.AccountSpec
import Xv6.Sys.Resolve

/-! # The shell's `pwd`

The command climbs from the current directory to the root along `".."`, `"../.."` and so on, looks
for the entry of each directory in the one above it and prints the names it has found. The names are
copied with `strcpy` out of a field that has no terminator if the name fills it, into an array of 64
rows. The system calls answer for the state in which the command is run. -/

namespace Xv6.Shell

open CString (Mem IsStr)
open Fs (Name Dirent DIRSIZ ROOTINO R_OK O_RDONLY dot dotdot)
open Sys (State elements entryInum)
open Users (SLASH)

/-! ## The program -/

/-- The rows of `res`. -/
def ROWS : Nat := 64

/-- `DIRSIZ + 1`. -/
def ROW : Nat := DIRSIZ + 1

/-- The size of `cur`, `parent` and `buf`. -/
def PATHSIZE : Nat := 256

inductive Stop
  /-- The message of `inum`, and `exit`. -/
  | cannotStat (path : Name)
  /-- A store outside an array. -/
  | outside
  | fuel
  deriving DecidableEq

/-- The inode that `open(path, O_RDONLY)` gives. -/
def opened (s : State) (p : Slot) (path : Name) : Option Nat :=
  (s.finds p path false).filter fun i => s.Grants (s.inode i) R_OK ∧
    (∃ f, (s.file f).ref = 0) ∧ ∃ fd, s.ofile p fd = none

/-- A string in memory with zeros behind it. -/
def literal (s : Name) : Mem := fun i => s.getD i 0

/-- What stands in the memory that `pwd` does not write before it reads: the local variable of
`dirent_by_inum`, the bytes behind `cur_dirent`, and the arrays. -/
structure Junk where
  de : Nat → Dirent
  after : Nat → Mem
  buf : Mem
  res : Mem

structure Vars where
  cur : Mem
  parent : Mem
  buf : Mem
  res : Mem
  level : Nat

/-- A path in one of the arrays. -/
def path (m : Mem) : Name := CString.str m PATHSIZE 0

def inum (s : State) (p : Slot) (path : Name) : Except Stop Nat :=
  match opened s p path with
  | some i => .ok i
  | none => .error (.cannotStat path)

/-- The loop of `dirent_by_inum`. -/
def readUntil (inum : Nat) : Dirent → List Dirent → Dirent
  | de, [] => de
  | _, de :: rest => if de.inum = inum then de else readUntil inum de rest

/-- `dirent_by_inum`, with what its local variable holds at first. -/
def direntByInum (s : State) (p : Slot) (dirPath : Name) (inum : Nat) (de : Dirent) : Dirent :=
  match opened s p dirPath with
  | some dir => readUntil inum de (s.inode dir).entries
  | none => de

/-- The memory from `cur_dirent.name` on. -/
def nameField (de : Dirent) (after : Mem) : Mem := fun i =>
  if i < DIRSIZ then de.name.getD i 0 else after (i - DIRSIZ)

def strcpy (room : Nat) (m : Mem) (a : Nat) (t : Mem) : Except Stop Mem :=
  match CString.strcpy room m a t 0 with
  | some m => .ok m
  | none => .error .outside

/-- The body of the loop of `pwd` after the name has been stored: `cur` becomes `parent`, and
`"../"` is put before `parent`. -/
def lengthen (v : Vars) (res : Mem) : Except Stop Vars := do
  let cur ← strcpy PATHSIZE v.cur 0 v.parent
  let buf ← strcpy PATHSIZE v.buf 0 v.parent
  let parent ← strcpy PATHSIZE v.parent 0 (literal (dotdot ++ [SLASH]))
  let parent ← strcpy (PATHSIZE - 3) parent 3 buf
  pure ⟨cur, parent, buf, res, v.level + 1⟩

/-- The body of the loop of `pwd`. -/
def climb (s : State) (p : Slot) (J : Junk) (v : Vars) : Except Stop Vars := do
  let i ← inum s p (path v.cur)
  let curDirent := direntByInum s p (path v.parent) i (J.de v.level)
  let res ← strcpy (ROWS * ROW - ROW * v.level) v.res (ROW * v.level)
    (nameField curDirent (J.after v.level))
  lengthen v res

def loop (s : State) (p : Slot) (J : Junk) : Nat → Vars → Except Stop Vars
  | 0, _ => .error .fuel
  | n + 1, v => do
    let i ← inum s p (path v.cur)
    let j ← inum s p (path v.parent)
    if i ≠ j then
      let v ← climb s p J v
      loop s p J n v
    else pure v

/-- What the last loop prints for the rows before an index. -/
def print (res : Mem) : Nat → Name
  | 0 => []
  | i + 1 => SLASH :: (CString.str res (ROWS * ROW - ROW * i) (ROW * i) ++ print res i)

def Junk.vars (J : Junk) : Vars := ⟨literal dot, literal dotdot, J.buf, J.res, 0⟩

def pwd (s : State) (p : Slot) (J : Junk) : Except Stop Name := do
  let v ← loop s p J (ROWS + 1) J.vars
  if v.level = 0 then pure (print (Function.update v.res 0 0) 1) else pure (print v.res v.level)

/-! ## The bound of the loop -/

section

variable {s : State} {p : Slot} {J : Junk}

theorem bind_ne_fuel {α β : Type} {x : Except Stop α} {f : α → Except Stop β}
    (hx : x ≠ .error .fuel) (hf : ∀ a, x = .ok a → f a ≠ .error .fuel) :
    x >>= f ≠ .error .fuel := by
  cases x with
  | error e => exact hx ∘ fun h => congrArg _ (Except.error.inj h)
  | ok a => exact hf a rfl

theorem exists_of_bind_eq_ok {α β : Type} {x : Except Stop α} {f : α → Except Stop β} {b : β}
    (h : x >>= f = .ok b) : ∃ a, x = .ok a ∧ f a = .ok b := by
  cases x with
  | error e => cases h
  | ok a => exact ⟨a, rfl, h⟩

theorem inum_ne_fuel {path : Name} : inum s p path ≠ .error .fuel := by
  rw [inum]
  split <;> exact nofun

theorem strcpy_ne_fuel : strcpy room m a t ≠ .error .fuel := by
  rw [strcpy]
  split <;> exact nofun

theorem strcpy_eq_error (h : ∀ i < room, t i ≠ 0) : strcpy room m a t = .error .outside := by
  rw [strcpy, CString.strcpy_eq_none fun i hi => by rw [Nat.zero_add]; exact h i hi]

theorem climb_ne_fuel : climb s p J v ≠ .error .fuel :=
  bind_ne_fuel inum_ne_fuel fun _ _ => bind_ne_fuel strcpy_ne_fuel fun _ _ =>
    bind_ne_fuel strcpy_ne_fuel fun _ _ => bind_ne_fuel strcpy_ne_fuel fun _ _ =>
    bind_ne_fuel strcpy_ne_fuel fun _ _ => bind_ne_fuel strcpy_ne_fuel fun _ _ => nofun

/-- There is a row for every name that is stored. -/
theorem level_of_climb (h : climb s p J v = .ok v') : v.level < ROWS ∧ v'.level = v.level + 1 := by
  obtain ⟨i, -, h⟩ := exists_of_bind_eq_ok h
  obtain ⟨res, hres, h⟩ := exists_of_bind_eq_ok h
  obtain ⟨cur, -, h⟩ := exists_of_bind_eq_ok h
  obtain ⟨buf, -, h⟩ := exists_of_bind_eq_ok h
  obtain ⟨m₁, -, h⟩ := exists_of_bind_eq_ok h
  obtain ⟨m₂, -, h⟩ := exists_of_bind_eq_ok h
  obtain rfl := Except.ok.inj h
  refine ⟨?_, rfl⟩
  by_contra! hge
  have hnone : ROWS * ROW - ROW * v.level = 0 := by
    simp only [ROWS, ROW, DIRSIZ] at hge ⊢
    omega
  rw [hnone, strcpy_eq_error fun i hi => absurd hi (Nat.not_lt_zero i)] at hres
  cases hres

theorem loop_ne_fuel {n : Nat} (hv : v.level ≤ ROWS) (hn : ROWS < v.level + n) :
    loop s p J n v ≠ .error .fuel := by
  induction n generalizing v with
  | zero => omega
  | succ n ih =>
    rw [loop]
    refine bind_ne_fuel inum_ne_fuel fun i _ => bind_ne_fuel inum_ne_fuel fun j _ => ?_
    split
    · refine bind_ne_fuel climb_ne_fuel fun v' h => ?_
      obtain ⟨hlt, hlevel⟩ := level_of_climb h
      exact ih (by omega) (by omega)
    · exact nofun

/-- The bound of the loop is never reached. -/
theorem pwd_ne_fuel : pwd s p J ≠ .error .fuel := by
  refine bind_ne_fuel (loop_ne_fuel (Nat.zero_le _) (Nat.lt_succ_self _)) fun v _ => ?_
  split <;> exact nofun

end

/-! ## Directory trees -/

/-- A name of one to `DIRSIZ` bytes. -/
structure IsName (name : Name) : Prop where
  ne_nil : name ≠ []
  length_le : name.length ≤ DIRSIZ
  slash : SLASH ∉ name
  zero : 0 ∉ name

instance (name : Name) : Decidable (IsName name) :=
  decidable_of_iff (name ≠ [] ∧ name.length ≤ DIRSIZ ∧ SLASH ∉ name ∧ 0 ∉ name)
    ⟨fun h => ⟨h.1, h.2.1, h.2.2.1, h.2.2.2⟩, fun h => ⟨h.1, h.2, h.3, h.4⟩⟩

def IsDir (s : State) (i : Nat) : Prop := (s.inode i).type = some .T_DIR

/-- The directories form a tree: each but the root has one entry beside `"."` and `".."`, in the
directory above it. -/
structure DirTree (s : State) where
  parent : Nat → Nat
  depth : Nat → Nat
  name : Nat → Name
  root : IsDir s ROOTINO
  zero : ¬ IsDir s 0
  parent_root : parent ROOTINO = ROOTINO
  depth_root : depth ROOTINO = 0
  isDir_parent : ∀ i, IsDir s i → IsDir s (parent i)
  depth_parent : ∀ i, IsDir s i → i ≠ ROOTINO → depth i = depth (parent i) + 1
  dot : ∀ i, IsDir s i → ⟨i, Fs.dot⟩ ∈ (s.inode i).entries
  dotdot : ∀ i, IsDir s i → ⟨parent i, Fs.dotdot⟩ ∈ (s.inode i).entries
  sub : ∀ i, IsDir s i → i ≠ ROOTINO → ⟨i, name i⟩ ∈ (s.inode (parent i)).entries
  unique : ∀ i, IsDir s i → ∀ de ∈ (s.inode i).entries, IsDir s de.inum → de.name ≠ Fs.dot →
    de.name ≠ Fs.dotdot → parent de.inum = i ∧ de.name = name de.inum
  isName : ∀ i, IsDir s i → ∀ de ∈ (s.inode i).entries, de.inum ≠ 0 → IsName de.name
  distinct : ∀ i, IsDir s i → ∀ de ∈ (s.inode i).entries, ∀ de' ∈ (s.inode i).entries,
    de.inum ≠ 0 → de'.inum ≠ 0 → de.name = de'.name → de = de'

variable {s : State} {p : Slot} {J : Junk} {d i k : Nat} {name : Name}

namespace DirTree

variable (t : DirTree s)

/-- The directory that is `k` levels above. -/
def up (d k : Nat) : Nat := t.parent^[k] d

theorem up_succ (d k : Nat) : t.up d (k + 1) = t.parent (t.up d k) :=
  Function.iterate_succ_apply' ..

theorem up_parent (d k : Nat) : t.up (t.parent d) k = t.up d (k + 1) := rfl

theorem isDir_up (hd : IsDir s d) (k : Nat) : IsDir s (t.up d k) := by
  induction k with
  | zero => exact hd
  | succ k ih =>
    rw [t.up_succ]
    exact t.isDir_parent _ ih

include t in
theorem inum_ne_zero (hd : IsDir s d) : d ≠ 0 := fun h => t.zero (h ▸ hd)

/-- Only the root is at depth zero. -/
theorem eq_root (hd : IsDir s d) (h : t.depth d = 0) : d = ROOTINO := by
  by_contra hne
  have := t.depth_parent d hd hne
  omega

theorem depth_up (hd : IsDir s d) (hk : k ≤ t.depth d) : t.depth (t.up d k) + k = t.depth d := by
  induction k with
  | zero => rfl
  | succ k ih =>
    have hd' := ih (Nat.le_of_succ_le hk)
    have hne : t.up d k ≠ ROOTINO := by
      intro h
      rw [h, t.depth_root] at hd'
      omega
    have := t.depth_parent _ (t.isDir_up hd k) hne
    rw [t.up_succ]
    omega

theorem up_ne_root (hd : IsDir s d) (hk : k < t.depth d) : t.up d k ≠ ROOTINO := by
  intro h
  have := t.depth_up hd (Nat.le_of_lt hk)
  rw [h, t.depth_root] at this
  omega

/-- The root is its own parent, so the climb stays there. -/
theorem up_eq_root (hd : IsDir s d) (hk : t.depth d ≤ k) : t.up d k = ROOTINO := by
  induction k, hk using Nat.le_induction with
  | base =>
    refine t.eq_root (t.isDir_up hd _) ?_
    have := t.depth_up hd (Nat.le_refl _)
    omega
  | succ k _ ih => rw [t.up_succ, ih, t.parent_root]

/-- The climb is at its end when two directories in a row are the same. -/
theorem up_eq_up_succ_iff (hd : IsDir s d) : t.up d k = t.up d (k + 1) ↔ t.depth d ≤ k := by
  constructor
  · intro h
    by_contra! hk
    have h₁ := t.depth_up hd (Nat.le_of_lt hk)
    have h₂ := t.depth_up hd (Nat.succ_le_of_lt hk)
    rw [← h] at h₂
    omega
  · intro h
    rw [t.up_eq_root hd h, t.up_eq_root hd (Nat.le_succ_of_le h)]

include t in
/-- A name is looked up at the entry that has it. -/
theorem exists_lookup_eq (hd : IsDir s d) (hde : de ∈ (s.inode d).entries) (h0 : de.inum ≠ 0) :
    ∃ off, (s.inode d).lookup de.name = some off ∧
      entryInum (s.inode d) off = de.inum := by
  have hname := t.isName d hd de hde h0
  cases hoff : (s.inode d).lookup de.name with
  | none =>
    have := List.findIdx?_eq_none_iff.mp hoff de hde
    simp [h0, Fs.namecmp, CString.strncmp_eq_zero_iff_take hname.zero hname.zero] at this
  | some off =>
    refine ⟨off, rfl, ?_⟩
    obtain ⟨hlt, hmatch, -⟩ := List.findIdx?_eq_some_iff_getElem.mp hoff
    have hmem : (s.inode d).entries[off] ∈ (s.inode d).entries := List.getElem_mem hlt
    obtain ⟨h0', hcmp⟩ : (s.inode d).entries[off].inum ≠ 0 ∧
        Fs.namecmp de.name (s.inode d).entries[off].name = 0 := by simpa using hmatch
    have hname' := t.isName d hd _ hmem h0'
    rw [Fs.namecmp, CString.strncmp_eq_zero_iff_take hname.zero hname'.zero,
      List.take_of_length_le hname.length_le, List.take_of_length_le hname'.length_le] at hcmp
    rw [entryInum, List.getElem?_eq_getElem hlt, Option.elim_some,
      ← t.distinct d hd de hde _ hmem h0 h0' hcmp]

/-- The entries for a directory in the one above have its name. -/
theorem name_of_inum (hd : IsDir s d) (hne : d ≠ ROOTINO)
    (hde : de ∈ (s.inode (t.parent d)).entries) (hi : de.inum = d) : de.name = t.name d := by
  have hup := t.isDir_parent d hd
  have hdepth := t.depth_parent d hd hne
  have h0 : de.inum ≠ 0 := hi ▸ t.inum_ne_zero hd
  have hdot : de.name ≠ Fs.dot := by
    intro h
    have e := t.distinct _ hup de hde _ (t.dot _ hup) h0 (t.inum_ne_zero hup) h
    have e' : d = t.parent d := hi.symm.trans (congrArg Dirent.inum e)
    have := congrArg t.depth e'
    omega
  have hdotdot : de.name ≠ Fs.dotdot := by
    intro h
    have hup' := t.isDir_parent _ hup
    have e := t.distinct _ hup de hde _ (t.dotdot _ hup) h0 (t.inum_ne_zero hup') h
    have e' : d = t.parent (t.parent d) := hi.symm.trans (congrArg Dirent.inum e)
    have := congrArg t.depth e'
    by_cases hr : t.parent d = ROOTINO
    · rw [hr, t.parent_root, t.depth_root] at this
      omega
    · have := t.depth_parent _ hup hr
      omega
  have := t.unique _ hup de hde (hi ▸ hd) hdot hdotdot
  rw [this.2, hi]

/-- `dirent_by_inum` finds the name of a directory in the one above. -/
theorem readUntil_name (hd : IsDir s d) (hne : d ≠ ROOTINO) (de : Dirent) :
    (readUntil d de (s.inode (t.parent d)).entries).name = t.name d := by
  have hex : ∃ de ∈ (s.inode (t.parent d)).entries, de.inum = d := ⟨_, t.sub d hd hne, rfl⟩
  have hall : ∀ de ∈ (s.inode (t.parent d)).entries, de.inum = d → de.name = t.name d :=
    fun de hde hi => t.name_of_inum hd hne hde hi
  generalize (s.inode (t.parent d)).entries = l at hex hall
  induction l generalizing de with
  | nil => simp at hex
  | cons de' l ih =>
    rw [readUntil]
    split
    · next hi => exact hall de' List.mem_cons_self hi
    · next hi =>
      refine ih _ ?_ fun de hde => hall de (List.mem_cons_of_mem _ hde)
      obtain ⟨de, hde, hin⟩ := hex
      rcases List.mem_cons.mp hde with rfl | hde
      · exact absurd hin hi
      · exact ⟨de, hde, hin⟩

theorem isName_name (hd : IsDir s d) (hne : d ≠ ROOTINO) : IsName (t.name d) :=
  t.isName _ (t.isDir_parent d hd) _ (t.sub d hd hne) (t.inum_ne_zero hd)

end DirTree

/-! ## Climbing -/

/-- The process may search a directory and open it. -/
def Reads (s : State) (p : Slot) (i : Nat) : Prop :=
  s.MayPass p i ∧ s.Grants (s.inode i) R_OK

/-- There is a place for an open file. -/
def Room (s : State) (p : Slot) : Prop := (∃ f, (s.file f).ref = 0) ∧ ∃ fd, s.ofile p fd = none

theorem opened_eq (hroom : Room s p) (hr : s.Grants (s.inode i) R_OK)
    (hf : s.finds p name false = some i) : opened s p name = some i := by
  rw [opened, hf, Option.filter_some_pos]
  exact decide_eq_true ⟨hr, hroom⟩

/-- The paths `"."`, `".."`, `"../.."` and so on. -/
def ups : Nat → Name
  | 0 => dot
  | 1 => dotdot
  | k + 2 => dotdot ++ SLASH :: ups (k + 1)

theorem elements_ups (k : Nat) : elements (ups (k + 1)) = List.replicate (k + 1) dotdot := by
  induction k with
  | zero => decide
  | succ k ih =>
    rw [ups, Sys.elements_append (by decide) (by decide) (.inr ⟨_, rfl⟩), Sys.elements_slash, ih]
    rfl

theorem length_ups (k : Nat) : (ups (k + 1)).length = 3 * k + 2 := by
  induction k with
  | zero => rfl
  | succ k ih =>
    rw [ups, List.length_append, List.length_cons, ih]
    simp only [dotdot, List.length_cons, List.length_nil]
    omega

theorem zero_notMem_ups (k : Nat) : 0 ∉ ups k := by
  induction k using ups.induct with
  | case1 | case2 => decide
  | case3 k ih =>
    rw [ups, List.mem_append, List.mem_cons]
    exact not_or.mpr ⟨by decide, not_or.mpr ⟨by decide, ih⟩⟩

theorem head?_ups (k : Nat) : (ups k).head? ≠ some SLASH := by
  induction k using ups.induct with
  | case1 | case2 => decide
  | case3 k _ => exact (by decide : dotdot.head? ≠ some SLASH)

/-- The paths of the climb start at the current directory. -/
theorem start_ups (hcwd : (s.cwd p).map (fun ip => (s.icache ip).inum) = some d) (k : Nat) :
    s.start p (ups k) = some d := by
  rw [State.start, if_neg (head?_ups k), hcwd]

namespace DirTree

variable (t : DirTree s)

include t in
/-- One name is looked up on the way. -/
theorem find_cons (hpass : s.MayPass p i) (hde : ⟨j, name⟩ ∈ (s.inode i).entries) (h0 : j ≠ 0)
    (names : List Name) : s.find p false i (name :: names) = s.find p false j names := by
  obtain ⟨off, hoff, he⟩ := t.exists_lookup_eq hpass.1 hde h0
  rw [State.find, if_pos hpass, if_neg (by simp), hoff, Option.bind_some, he]

theorem find_replicate (hd : IsDir s d) (hpass : ∀ j < k, s.MayPass p (t.up d j)) :
    s.find p false d (List.replicate k Fs.dotdot) = some (t.up d k) := by
  induction k generalizing d with
  | zero => rfl
  | succ k ih =>
    have hup := t.isDir_parent d hd
    have hd0 : s.MayPass p d := hpass 0 (Nat.succ_pos k)
    rw [List.replicate_succ, t.find_cons hd0 (t.dotdot d hd) (t.inum_ne_zero hup),
      ih hup fun j hj => hpass (j + 1) (Nat.succ_lt_succ hj), t.up_parent]

/-- The paths of the climb lead to the directories above. -/
theorem inum_ups (hcwd : (s.cwd p).map (fun ip => (s.icache ip).inum) = some d)
    (hroom : Room s p) (hr : ∀ j, Reads s p (t.up d j)) (k : Nat) :
    inum s p (ups k) = .ok (t.up d k) := by
  have hd : IsDir s d := (hr 0).1.1
  have hf : s.finds p (ups k) false = some (t.up d k) := by
    rw [State.finds, start_ups hcwd, Option.bind_some, Sys.elems_eq_elements]
    cases k with
    | zero =>
      exact t.find_cons (hr 0).1 (t.dot d hd) (t.inum_ne_zero hd) []
    | succ k =>
      rw [elements_ups]
      exact t.find_replicate hd fun j _ => (hr j).1
  rw [inum, opened_eq hroom (hr k).2 hf]

/-- The directories that `pwd` opens can be read if the current one can be. -/
theorem reads_up (hd : Reads s p d)
    (hr : ∀ k, 1 ≤ k → k ≤ t.depth d → Reads s p (t.up d k)) (k : Nat) : Reads s p (t.up d k) := by
  have hle : ∀ k ≤ t.depth d, Reads s p (t.up d k) := by
    intro k hk
    cases k with
    | zero => exact hd
    | succ k => exact hr _ (Nat.succ_pos k) hk
  rcases le_total k (t.depth d) with hk | hk
  · exact hle k hk
  · rw [t.up_eq_root hd.1.1 hk, ← t.up_eq_root hd.1.1 (Nat.le_refl _)]
    exact hle _ (Nat.le_refl _)

end DirTree

/-! ## The arrays -/

theorem isStr_literal (hs : 0 ∉ name) : IsStr (literal name) 0 name :=
  CString.isStr_of_getD hs fun i _ => by rw [literal, Nat.zero_add]

/-- A name that does not fill its field is a string there. -/
theorem isStr_nameField (hs : 0 ∉ de.name) (hlen : de.name.length < DIRSIZ) :
    IsStr (nameField de after) 0 de.name := by
  refine CString.isStr_of_getD hs fun i hi => ?_
  rw [nameField, Nat.zero_add, if_pos (by omega)]

theorem exists_strcpy_eq_ok (h : IsStr t 0 name) (hr : name.length < room) :
    ∃ m', strcpy room m a t = .ok m' ∧ IsStr m' a name ∧
      ∀ x, x < a ∨ a + name.length < x → m' x = m x := by
  obtain ⟨m', he, hm⟩ := CString.exists_strcpy_eq_some h hr (m := m) (a := a)
  exact ⟨m', by rw [strcpy, he], hm⟩

theorem length_ups_lt (hk : k ≤ ROWS + 1) : (ups k).length < PATHSIZE := by
  cases k with
  | zero => decide
  | succ k =>
    rw [length_ups]
    simp only [ROWS, PATHSIZE] at hk ⊢
    omega

theorem path_eq (h : IsStr m 0 (ups k)) (hk : k ≤ ROWS + 1) : path m = ups k :=
  h.str_eq (length_ups_lt hk)

/-- `"../"` is put before a path. -/
theorem exists_prepend (h : IsStr buf 0 (ups (k + 1))) (hk : k < ROWS) :
    ∃ m₁ m₂, strcpy PATHSIZE m 0 (literal (dotdot ++ [SLASH])) = .ok m₁ ∧
      strcpy (PATHSIZE - 3) m₁ 3 buf = .ok m₂ ∧ IsStr m₂ 0 (ups (k + 2)) := by
  have hup : IsStr (literal (dotdot ++ [SLASH])) 0 (dotdot ++ [SLASH]) := isStr_literal (by decide)
  have hup' : (dotdot ++ [SLASH]).length < PATHSIZE := by decide
  obtain ⟨m₁, he₁, hm₁, -⟩ := exists_strcpy_eq_ok (m := m) (a := 0) hup hup'
  have hlen : (ups (k + 1)).length < PATHSIZE - 3 := by
    rw [length_ups]
    simp only [ROWS, PATHSIZE] at hk ⊢
    omega
  obtain ⟨m₂, he₂, hm₂, hsame⟩ := exists_strcpy_eq_ok (m := m₁) (a := 3) h hlen
  refine ⟨m₁, m₂, he₁, he₂, ?_, zero_notMem_ups _⟩
  have hfront : CString.Holds m₂ 0 (dotdot ++ [SLASH]) :=
    (CString.holds_append.mp hm₁.holds).1.congr fun x _ hx => hsame x (.inl hx)
  have he : ups (k + 2) ++ [0] = (dotdot ++ [SLASH]) ++ (ups (k + 1) ++ [0]) := by simp [ups]
  rw [he]
  exact CString.holds_append.mpr ⟨hfront, hm₂.holds⟩

/-! ## The loop -/

namespace DirTree

variable (t : DirTree s)

/-- The state of the climb after `k` levels. -/
structure Climbed (d k : Nat) (v : Vars) : Prop where
  level : v.level = k
  cur : IsStr v.cur 0 (ups k)
  parent : IsStr v.parent 0 (ups (k + 1))
  rows : ∀ i < k, IsStr v.res (ROW * i) (t.name (t.up d i))

theorem climbed_vars (d : Nat) (J : Junk) : t.Climbed d 0 J.vars where
  level := rfl
  cur := isStr_literal (by decide)
  parent := isStr_literal (by decide)
  rows _ hi := absurd hi (Nat.not_lt_zero _)

variable {t}

def entryAt (t : DirTree s) (J : Junk) (d k : Nat) : Dirent :=
  readUntil (t.up d k) (J.de k) (s.inode (t.up d (k + 1))).entries

theorem name_entryAt (hd : IsDir s d) (hk : k < t.depth d) :
    (entryAt t J d k).name = t.name (t.up d k) := by
  rw [entryAt, t.up_succ]
  exact t.readUntil_name (t.isDir_up hd k) (t.up_ne_root hd hk) _

section

variable (hcwd : (s.cwd p).map (fun ip => (s.icache ip).inum) = some d) (hroom : Room s p)
  (hr : ∀ j, Reads s p (t.up d j))

include hcwd hroom hr

theorem direntByInum_eq (k : Nat) (de : Dirent) : direntByInum s p (ups (k + 1)) (t.up d k) de =
    readUntil (t.up d k) de (s.inode (t.up d (k + 1))).entries := by
  have h := t.inum_ups hcwd hroom hr (k + 1)
  rw [inum] at h
  rw [direntByInum]
  split at h
  · next i _ => rw [Except.ok.inj h]
  · cases h

/-- The row that `climb` stores is the entry of the directory. -/
theorem climb_eq (hv : t.Climbed d k v) (hk : k ≤ ROWS) : climb s p J v =
    (strcpy (ROWS * ROW - ROW * k) v.res (ROW * k)
      (nameField (entryAt t J d k) (J.after k))).bind (lengthen v) := by
  have hcur := path_eq hv.cur (Nat.le_succ_of_le hk)
  have hparent := path_eq hv.parent (Nat.succ_le_succ hk)
  rw [climb, hcur, hparent, t.inum_ups hcwd hroom hr, hv.level]
  simp only [bind, Except.bind, direntByInum_eq hcwd hroom hr, entryAt]

/-- A short name in a row of `res` is stored, and the climb goes on. -/
theorem exists_climb_eq_ok (hv : t.Climbed d k v) (hdepth : k < t.depth d) (hk : k < ROWS)
    (hlen : (t.name (t.up d k)).length < DIRSIZ) :
    ∃ v', climb s p J v = .ok v' ∧ t.Climbed d (k + 1) v' := by
  have hd : IsDir s d := (hr 0).1.1
  have hname := name_entryAt (J := J) hd hdepth
  have isName : ∀ i ≤ k, IsName (t.name (t.up d i)) := fun i hi =>
    t.isName_name (t.isDir_up hd i) (t.up_ne_root hd (by omega))
  have hstr : IsStr (nameField (entryAt t J d k) (J.after k)) 0 (t.name (t.up d k)) := by
    rw [← hname] at hlen ⊢
    exact isStr_nameField (hname ▸ (isName k (Nat.le_refl k)).zero) hlen
  have hfits : (t.name (t.up d k)).length < ROWS * ROW - ROW * k := by
    simp only [ROWS, ROW, DIRSIZ] at hk hlen ⊢
    omega
  obtain ⟨res, hres, hrow, hsame⟩ := exists_strcpy_eq_ok (m := v.res) (a := ROW * k) hstr hfits
  have hpath : (ups (k + 1)).length < PATHSIZE := length_ups_lt (by omega)
  obtain ⟨cur, hcur, hcur', -⟩ := exists_strcpy_eq_ok (m := v.cur) (a := 0) hv.parent hpath
  obtain ⟨buf, hbuf, hbuf', -⟩ := exists_strcpy_eq_ok (m := v.buf) (a := 0) hv.parent hpath
  obtain ⟨m₁, m₂, h₁, h₂, hparent⟩ := exists_prepend (m := v.parent) hbuf' hk
  refine ⟨⟨cur, m₂, buf, res, v.level + 1⟩, ?_, ?_⟩
  · rw [climb_eq hcwd hroom hr hv hk.le, hres]
    simp only [Except.bind, lengthen, hcur, hbuf, h₁, h₂, bind, pure, Except.pure]
  · refine ⟨congrArg (· + 1) hv.level, hcur', hparent, fun i hi => ?_⟩
    rcases Nat.lt_succ_iff_lt_or_eq.mp hi with hi | rfl
    · refine (hv.rows i hi).congr fun x _ hx => hsame x (.inl ?_)
      have hle := (isName i hi.le).length_le
      simp only [ROW, DIRSIZ] at hle hx ⊢
      omega
    · exact hrow

/-- A name that fills its field, with no zero behind it, is copied until `res` is full. -/
theorem climb_eq_error (hv : t.Climbed d k v) (hdepth : k < t.depth d) (hk : k ≤ ROWS)
    (hbad : k = ROWS ∨ (t.name (t.up d k)).length = DIRSIZ ∧ ∀ i, J.after k i ≠ 0) :
    climb s p J v = .error .outside := by
  have hd : IsDir s d := (hr 0).1.1
  have hrow : strcpy (ROWS * ROW - ROW * k) v.res (ROW * k)
      (nameField (entryAt t J d k) (J.after k)) = .error .outside := by
    refine strcpy_eq_error fun i hi => ?_
    rcases hbad with rfl | ⟨hlen, hafter⟩
    · simp only [Nat.mul_comm ROWS, Nat.sub_self] at hi
      exact absurd hi (Nat.not_lt_zero i)
    · rw [nameField, name_entryAt hd hdepth]
      split
      · next hlt =>
        intro h0
        have hmem := (t.isName_name (t.isDir_up hd k) (t.up_ne_root hd hdepth)).zero
        rw [List.getD_eq_getElem _ _ (by omega)] at h0
        exact hmem (h0 ▸ List.getElem_mem _)
      · exact hafter _
  rw [climb_eq hcwd hroom hr hv hk, hrow]
  rfl

/-- The test of the loop compares the directories. -/
theorem loop_succ (hv : t.Climbed d k v) (hk : k ≤ ROWS) : loop s p J (n + 1) v =
    if k < t.depth d then (climb s p J v).bind (loop s p J n) else .ok v := by
  have hd : IsDir s d := (hr 0).1.1
  have hcur := path_eq hv.cur (Nat.le_succ_of_le hk)
  have hparent := path_eq hv.parent (Nat.succ_le_succ hk)
  have hiff : t.up d k ≠ t.up d (k + 1) ↔ k < t.depth d := by
    rw [Ne, t.up_eq_up_succ_iff hd, not_le]
  rw [loop, hcur, hparent, t.inum_ups hcwd hroom hr, t.inum_ups hcwd hroom hr]
  simp only [bind, Except.bind, hiff]
  rfl

/-- The climb reaches the root if the names are short and not too many. -/
theorem exists_loop_eq_ok (hrows : t.depth d ≤ ROWS)
    (hlen : ∀ k < t.depth d, (t.name (t.up d k)).length < DIRSIZ) (hv : t.Climbed d k v)
    (hk : k ≤ t.depth d) (hn : t.depth d - k < n) :
    ∃ v', loop s p J n v = .ok v' ∧ t.Climbed d (t.depth d) v' := by
  induction n generalizing k v with
  | zero => omega
  | succ n ih =>
    rw [loop_succ hcwd hroom hr hv (by omega)]
    split
    · next hlt =>
      obtain ⟨v', he, hv'⟩ := exists_climb_eq_ok hcwd hroom hr hv hlt (by omega) (hlen k hlt)
      rw [he]
      exact ih hv' hlt (by omega)
    · next hge =>
      obtain rfl : k = t.depth d := by omega
      exact ⟨v, rfl, hv⟩

/-- The climb ends at the first name that has no row left, or that fills its field and has no zero
behind it. -/
theorem loop_eq_error (hj : j < t.depth d) (hrows : j ≤ ROWS)
    (hlen : ∀ k < j, (t.name (t.up d k)).length < DIRSIZ)
    (hbad : j = ROWS ∨ (t.name (t.up d j)).length = DIRSIZ ∧ ∀ i, J.after j i ≠ 0)
    (hv : t.Climbed d k v) (hk : k ≤ j) (hn : j - k < n) : loop s p J n v = .error .outside := by
  induction n generalizing k v with
  | zero => omega
  | succ n ih =>
    rw [loop_succ hcwd hroom hr hv (by omega), if_pos (by omega)]
    rcases hk.lt_or_eq with hlt | rfl
    · obtain ⟨v₁, he, hv₁⟩ := exists_climb_eq_ok (J := J) hcwd hroom hr hv (by omega) (by omega)
        (hlen k hlt)
      rw [he]
      exact ih hv₁ hlt (by omega)
    · rw [climb_eq_error hcwd hroom hr hv hj hrows hbad]
      rfl

end

/-! ## The output -/

/-- The path to a directory from the one that is `k` levels above it. -/
def pathTo (t : DirTree s) (d : Nat) : Nat → Name
  | 0 => []
  | k + 1 => SLASH :: (t.name (t.up d k) ++ pathTo t d k)

theorem pathTo_cases (k : Nat) : t.pathTo d k = [] ∨ ∃ path, t.pathTo d k = SLASH :: path := by
  cases k with
  | zero => exact .inl rfl
  | succ k => exact .inr ⟨_, rfl⟩

/-- The rows are printed from the last one on. -/
theorem print_eq (hd : IsDir s d) (hrows : k ≤ ROWS) (hk : k ≤ t.depth d)
    (h : ∀ i < k, IsStr res (ROW * i) (t.name (t.up d i))) : print res k = t.pathTo d k := by
  induction k with
  | zero => rfl
  | succ k ih =>
    have hle := (t.isName_name (t.isDir_up hd k) (t.up_ne_root hd hk)).length_le
    have hlen : (t.name (t.up d k)).length < ROWS * ROW - ROW * k := by
      simp only [ROWS, ROW, DIRSIZ] at hrows hle ⊢
      omega
    rw [print, pathTo, (h k (Nat.lt_succ_self k)).str_eq hlen,
      ih (Nat.le_of_succ_le hrows) (Nat.le_of_succ_le hk) fun i hi => h i (Nat.lt_succ_of_lt hi)]

theorem find_pathTo (hr : ∀ j, Reads s p (t.up d j)) (hk : k ≤ t.depth d) :
    s.find p false (t.up d k) (elements (t.pathTo d k)) = some d := by
  have hd : IsDir s d := (hr 0).1.1
  induction k with
  | zero => rfl
  | succ k ih =>
    have hne := t.up_ne_root hd hk
    have hdir := t.isDir_up hd k
    have hname := t.isName_name hdir hne
    have hsub : ⟨t.up d k, t.name (t.up d k)⟩ ∈ (s.inode (t.up d (k + 1))).entries := by
      rw [t.up_succ]
      exact t.sub _ hdir hne
    rw [pathTo, Sys.elements_slash, Sys.elements_append hname.ne_nil hname.slash (pathTo_cases k),
      List.take_of_length_le hname.length_le, t.find_cons (hr (k + 1)).1 hsub (t.inum_ne_zero hdir)]
    exact ih (Nat.le_of_succ_le hk)

/-- The path from the root leads to the directory. -/
theorem finds_pathTo (hr : ∀ j, Reads s p (t.up d j)) {path : Name}
    (hpath : path = SLASH :: path.tail) (he : elements path = elements (t.pathTo d (t.depth d))) :
    s.finds p path false = some d := by
  have hstart : s.start p path = some ROOTINO := by
    rw [State.start, hpath]
    rfl
  have hroot := t.up_eq_root (hr 0).1.1 (Nat.le_refl _)
  rw [State.finds, hstart, Option.bind_some, Sys.elems_eq_elements, he, ← hroot]
  exact find_pathTo hr (Nat.le_refl _)

end DirTree

/-- If `pwd` prints a path, the current directory can be searched and opened. -/
theorem reads_of_inum (t : DirTree s) (hd : IsDir s d)
    (hcwd : (s.cwd p).map (fun ip => (s.icache ip).inum) = some d)
    (h : inum s p dot = .ok i) : Reads s p d ∧ Room s p := by
  rw [inum] at h
  split at h
  · next j hj =>
    obtain ⟨hf, hcond⟩ := Option.filter_eq_some_iff.mp hj
    obtain ⟨hgrants, hroom⟩ := of_decide_eq_true hcond
    have hstart : s.start p dot = some d := start_ups hcwd 0
    rw [State.finds, hstart, Option.bind_some, Sys.elems_eq_elements] at hf
    have hpass : s.MayPass p d := by
      by_contra hno
      rw [show elements dot = [dot] by decide, State.find, if_neg hno] at hf
      cases hf
    have : s.find p false d [dot] = some d :=
      t.find_cons hpass (t.dot d hd) (t.inum_ne_zero hd) []
    obtain rfl : d = j := Option.some.inj (this.symm.trans hf)
    exact ⟨⟨hpass, hgrants⟩, hroom⟩
  · cases h

/-- `pwd` prints what stands in the rows when its loop ends. -/
theorem pwd_eq : pwd s p J = (loop s p J (ROWS + 1) J.vars).map fun v =>
    if v.level = 0 then print (Function.update v.res 0 0) 1 else print v.res v.level := by
  rw [pwd]
  cases loop s p J (ROWS + 1) J.vars with
  | error e => rfl
  | ok v =>
    simp only [bind, Except.bind, Except.map, pure, Except.pure]
    split <;> rfl

/-- `pwd` opens the current directory first. -/
theorem exists_inum_of_pwd (h : pwd s p J = .ok out) : ∃ i, inum s p dot = .ok i := by
  have hdot : path (literal dot) = dot := path_eq (k := 0) (isStr_literal (by decide)) (by decide)
  rw [pwd_eq, loop, Junk.vars, hdot] at h
  cases hi : inum s p dot with
  | ok i => exact ⟨i, rfl⟩
  | error e =>
    rw [hi] at h
    cases h

/-- The directory above which `pwd` goes wrong, if the bytes behind the entries are not zero. -/
theorem DirTree.exists_bad (t : DirTree s) (hd : IsDir s d)
    (h : ¬ (t.depth d ≤ ROWS ∧ ∀ k < t.depth d, (t.name (t.up d k)).length < DIRSIZ)) :
    ∃ j < t.depth d, j ≤ ROWS ∧ (∀ k < j, (t.name (t.up d k)).length < DIRSIZ) ∧
      (j = ROWS ∨ (t.name (t.up d j)).length = DIRSIZ) := by
  have hex : ∃ j, j < t.depth d ∧ (j = ROWS ∨ (t.name (t.up d j)).length = DIRSIZ) := by
    by_contra! hno
    refine h ⟨?_, fun k hk => ?_⟩
    · by_contra! hrows
      exact (hno ROWS hrows).1 rfl
    · exact lt_of_le_of_ne (t.isName_name (t.isDir_up hd k) (t.up_ne_root hd hk)).length_le
        (hno k hk).2
  obtain ⟨hj, hbad⟩ := Nat.find_spec hex
  refine ⟨Nat.find hex, hj, ?_, fun k hk => ?_, hbad⟩
  · by_contra! hrows
    exact Nat.find_min hex hrows ⟨hrows.trans hj, .inl rfl⟩
  · have hmin := Nat.find_min hex hk
    have hkd : k < t.depth d := hk.trans hj
    refine lt_of_le_of_ne (t.isName_name (t.isDir_up hd k) (t.up_ne_root hd hkd)).length_le ?_
    intro he
    exact hmin ⟨hkd, .inr he⟩

/-- The output of `pwd` at a directory that is not too deep and has short names above it. -/
theorem DirTree.exists_pwd_eq_ok (t : DirTree s)
    (hcwd : (s.cwd p).map (fun ip => (s.icache ip).inum) = some d) (hroom : Room s p)
    (hr : ∀ j, Reads s p (t.up d j)) (hrows : t.depth d ≤ ROWS)
    (hlen : ∀ k < t.depth d, (t.name (t.up d k)).length < DIRSIZ) (J : Junk) :
    ∃ out, pwd s p J = .ok out ∧ out.head? = some SLASH ∧ s.finds p out false = some d := by
  obtain ⟨v, hv, hclimbed⟩ := exists_loop_eq_ok (J := J) hcwd hroom hr hrows hlen
    (t.climbed_vars d J) (Nat.zero_le _) (Nat.lt_succ_of_le hrows)
  refine ⟨_, by rw [pwd_eq, hv, Except.map], ?_⟩
  rw [hclimbed.level]
  split
  · next h0 =>
    have hout : print (Function.update v.res 0 0) 1 = [SLASH] := rfl
    rw [hout]
    refine ⟨rfl, finds_pathTo hr rfl ?_⟩
    rw [h0]
    rfl
  · next h0 =>
    obtain ⟨k, hk⟩ := Nat.exists_eq_succ_of_ne_zero h0
    have hd : IsDir s d := (hr 0).1.1
    rw [print_eq hd hrows (Nat.le_refl _) hclimbed.rows]
    have hcons : t.pathTo d (t.depth d) = SLASH :: (t.pathTo d (t.depth d)).tail := by
      rw [hk]
      rfl
    exact ⟨by rw [hcons]; rfl, finds_pathTo hr hcons rfl⟩

/-- `pwd` prints a path from the root to the current directory, whatever its memory holds, if and
only if it can open that directory, there are at most as many directories on the way as `res` has
rows, and none of their names fills its field. -/
theorem pwd_right_iff (t : DirTree s) (hd : IsDir s d)
    (hcwd : (s.cwd p).map (fun ip => (s.icache ip).inum) = some d)
    (hr : ∀ k, 1 ≤ k → k ≤ t.depth d → Reads s p (t.up d k)) :
    (∀ J, ∃ out, pwd s p J = .ok out ∧ out.head? = some SLASH ∧ s.finds p out false = some d) ↔
      Reads s p d ∧ Room s p ∧ t.depth d ≤ ROWS ∧
        ∀ k < t.depth d, (t.name (t.up d k)).length < DIRSIZ := by
  constructor
  · intro h
    obtain ⟨out, hout, -⟩ := h ⟨fun _ => ⟨0, []⟩, fun _ _ => 1, fun _ => 0, fun _ => 0⟩
    obtain ⟨i, hi⟩ := exists_inum_of_pwd hout
    obtain ⟨hreads, hroom⟩ := reads_of_inum t hd hcwd hi
    refine ⟨hreads, hroom, ?_⟩
    by_contra hno
    obtain ⟨j, hj, hrows, hlen, hbad⟩ := t.exists_bad hd hno
    rw [pwd_eq, t.loop_eq_error hcwd hroom (t.reads_up hreads hr) hj hrows hlen
      (hbad.imp_right fun h => ⟨h, fun _ => (by decide : (1 : UInt8) ≠ 0)⟩) (t.climbed_vars d _)
      (Nat.zero_le j) (Nat.lt_succ_of_le hrows)] at hout
    cases hout
  · rintro ⟨hreads, hroom, hrows, hlen⟩ J
    exact t.exists_pwd_eq_ok hcwd hroom (t.reads_up hreads hr) hrows hlen J

/-! ## A chain of directories -/

/-- A disk with one directory in another, `n` times, all under one name. -/
def chainImage (name : Name) (n : Nat) : Sys.Image where
  inode i :=
    if 1 ≤ i ∧ i ≤ n + 1 then
      ⟨some .T_DIR, 1, Fs.newPerm .T_DIR, Users.root.1,
        [⟨i, dot⟩, ⟨max (i - 1) 1, dotdot⟩] ++ if i ≤ n then [⟨i + 1, name⟩] else []⟩
    else ⟨none, 0, 0, [], []⟩
  data _ := []

/-- A process in the last directory of a chain. -/
def chain (name : Name) (n : Nat) : State :=
  (chainImage name n).third.setEntry ⟨0, Fs.NINODE_pos⟩ ⟨n + 1, 1, true⟩

theorem inode_chain : (chain name n).inode i = (chainImage name n).inode i := rfl

theorem isDir_chain : IsDir (chain name n) i ↔ 1 ≤ i ∧ i ≤ n + 1 := by
  rw [IsDir, inode_chain, chainImage]
  dsimp only
  split <;> simp_all

theorem entries_chain (h : 1 ≤ i ∧ i ≤ n + 1) : ((chain name n).inode i).entries =
    [⟨i, dot⟩, ⟨max (i - 1) 1, dotdot⟩] ++ if i ≤ n then [⟨i + 1, name⟩] else [] := by
  rw [inode_chain, chainImage]
  dsimp only
  rw [if_pos h]

theorem mem_entries_chain (hde : de ∈ ((chain name n).inode i).entries) :
    de = ⟨i, dot⟩ ∨ de = ⟨max (i - 1) 1, dotdot⟩ ∨ i ≤ n ∧ de = ⟨i + 1, name⟩ := by
  rw [inode_chain, chainImage] at hde
  dsimp only at hde
  split at hde
  · rcases List.mem_append.mp hde with hde | hde
    · simp only [List.mem_cons, List.not_mem_nil, or_false] at hde
      exact hde.imp_right .inl
    · split at hde
      · next hle => exact .inr (.inr ⟨hle, List.mem_singleton.mp hde⟩)
      · exact absurd hde List.not_mem_nil
  · exact absurd hde List.not_mem_nil

def chainTree (hname : IsName name) (hdot : name ≠ dot) (hdotdot : name ≠ dotdot) (n : Nat) :
    DirTree (chain name n) where
  parent i := max (i - 1) 1
  depth i := i - 1
  name _ := name
  root := isDir_chain.mpr ⟨Nat.le_refl 1, Nat.succ_pos n⟩
  zero h := absurd (isDir_chain.mp h).1 (by decide)
  parent_root := rfl
  depth_root := rfl
  isDir_parent i h := by
    rw [isDir_chain] at h ⊢
    omega
  depth_parent i h hne := by
    rw [isDir_chain] at h
    have : i ≠ 1 := hne
    omega
  dot i h := by
    rw [entries_chain (isDir_chain.mp h)]
    exact List.mem_cons_self
  dotdot i h := by
    rw [entries_chain (isDir_chain.mp h)]
    exact List.mem_cons_of_mem _ List.mem_cons_self
  sub i h hne := by
    obtain ⟨j, rfl⟩ : ∃ j, i = j + 2 := by
      have h1 := (isDir_chain.mp h).1
      have : i ≠ 1 := hne
      exact ⟨i - 2, by omega⟩
    have hj := (isDir_chain.mp h).2
    have he : max (j + 2 - 1) 1 = j + 1 := by omega
    rw [he, entries_chain (by omega), if_pos (by omega)]
    simp
  unique i h de hde _ h₁ h₂ := by
    obtain rfl | rfl | ⟨-, rfl⟩ := mem_entries_chain hde
    · exact absurd rfl h₁
    · exact absurd rfl h₂
    · have := (isDir_chain.mp h).1
      exact ⟨by dsimp only; omega, rfl⟩
  isName i h de hde _ := by
    obtain rfl | rfl | ⟨-, rfl⟩ := mem_entries_chain hde
    · exact (by decide : IsName dot)
    · exact (by decide : IsName dotdot)
    · exact hname
  distinct i h de hde de' hde' _ _ he := by
    have hdots : dot ≠ dotdot := by decide
    obtain rfl | rfl | ⟨-, rfl⟩ := mem_entries_chain hde <;>
      obtain rfl | rfl | ⟨-, rfl⟩ := mem_entries_chain hde' <;> simp_all

theorem reads_chain (h : 1 ≤ i ∧ i ≤ n + 1) : Reads (chain name n) 0 i := by
  have hgrants : ∀ ok : UInt32, Fs.checkmod Users.root.1 ((chain name n).inode i) &&& ok ≠ 0 →
      (chain name n).Grants ((chain name n).inode i) ok := fun _ h => h
  have hcheck : Fs.checkmod Users.root.1 ((chain name n).inode i) =
      Fs.checkmod Users.root.1 ⟨some .T_DIR, 1, Fs.newPerm .T_DIR, Users.root.1, []⟩ := by
    rw [inode_chain, chainImage]
    dsimp only
    rw [if_pos h]
    rfl
  refine ⟨⟨isDir_chain.mpr h, fun _ => hgrants _ ?_⟩, hgrants _ ?_⟩
  · rw [hcheck]
    decide
  · rw [hcheck]
    decide

theorem DirTree.reads_up_chain (t : DirTree (chain name n)) (k : Nat) :
    Reads (chain name n) 0 (t.up (n + 1) k) :=
  reads_chain (isDir_chain.mp (t.isDir_up (isDir_chain.mpr ⟨Nat.succ_pos n, Nat.le_refl _⟩) k))

theorem room_chain : Room (chain name n) 0 :=
  ⟨⟨⟨0, by decide⟩, rfl⟩, ⟨⟨0, by decide⟩, rfl⟩⟩

/-- A tree with two directories `"a"`, one in the other. -/
theorem pwd_right_chain : Room (chain [97] 2) 0 ∧ ∀ J, ∃ out, pwd (chain [97] 2) 0 J = .ok out ∧
    out.head? = some SLASH ∧ (chain [97] 2).finds 0 out false = some 3 := by
  let t : DirTree (chain [97] 2) :=
    chainTree (by decide) (by decide) (by decide) 2
  refine ⟨room_chain, (pwd_right_iff t (isDir_chain.mpr (by decide)) rfl
    fun k _ _ => t.reads_up_chain k).mpr ⟨t.reads_up_chain 0, room_chain, by decide, ?_⟩⟩
  intro k _
  exact (by decide : ([97] : Name).length < DIRSIZ)

/-- At a depth of 65, `pwd` stores behind `res`, and a name of 14 bytes is copied with what stands
behind it in memory. -/
theorem pwd_not_right : (∃ t : DirTree (chain [97] 65), ∀ k, Reads (chain [97] 65) 0 (t.up 66 k)) ∧
      (∀ J, pwd (chain [97] 65) 0 J = .error .outside) ∧
      (∃ t : DirTree (chain (List.replicate DIRSIZ 97) 1),
        ∀ k, Reads (chain (List.replicate DIRSIZ 97) 1) 0 (t.up 2 k)) ∧
      ∃ J, pwd (chain (List.replicate DIRSIZ 97) 1) 0 J = .error .outside := by
  let t : DirTree (chain [97] 65) :=
    chainTree (by decide) (by decide) (by decide) 65
  let t' : DirTree (chain (List.replicate DIRSIZ 97) 1) :=
    chainTree (by decide) (by decide) (by decide) 1
  refine ⟨⟨t, t.reads_up_chain⟩, fun J => ?_, ⟨t', t'.reads_up_chain⟩,
    ⟨fun _ => ⟨0, []⟩, fun _ _ => 1, fun _ => 0, fun _ => 0⟩, ?_⟩
  · have hlen : ∀ k < ROWS, (t.name (t.up 66 k)).length < DIRSIZ :=
      fun _ _ => (by decide : ([97] : Name).length < DIRSIZ)
    rw [pwd_eq, t.loop_eq_error rfl room_chain t.reads_up_chain (by decide) (Nat.le_refl ROWS) hlen
      (.inl rfl) (t.climbed_vars 66 J) (Nat.zero_le _) (by decide)]
    rfl
  · rw [pwd_eq, t'.loop_eq_error (j := 0) rfl room_chain t'.reads_up_chain (by decide) (by decide)
      (fun k hk => absurd hk (Nat.not_lt_zero k))
      (.inr ⟨rfl, fun _ => (by decide : (1 : UInt8) ≠ 0)⟩) (t'.climbed_vars 2 _) (Nat.zero_le _)
      (by decide)]
    rfl

end Xv6.Shell
