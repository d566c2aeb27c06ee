import Xv6.Fs.Data
import Xv6.Lib.CString

/-! # The account table

`ltable` of `sysfile.c` and the functions that keep it in `/passwd`. The two arrays of names and of
passwords are one memory, since a store past the end of a row is a store to the next one.

What the file system decides is an argument: `opens` says whether `flushUsers` obtains a descriptor
for `/passwd`, and `found` whether `namei` finds the directory of a new user. -/

namespace Xv6.Users

open Function CString

def MAX_USER : Nat := 10

def MAX_LEN : Nat := 15

def DASH : UInt8 := 45

def SLASH : UInt8 := 47

/-- A string argument of a system call. -/
abbrev Str := { s : List UInt8 // 0 ∉ s }

/-- `&ltable.usernames[i]`, relative to the first of them. -/
def usernames (i : Nat) : Nat := (MAX_LEN + 1) * i

def passwords (i : Nat) : Nat := usernames MAX_USER + (MAX_LEN + 1) * i

/-- The string at `a`; none is longer than both arrays together. -/
def cstr (m : Mem) (a : Nat) : List UInt8 := str m (passwords MAX_USER) a

structure Ltable where
  userIdx : Int
  userCnt : Nat
  /-- The memory from `ltable.usernames` on. -/
  mem : Mem

structure State where
  table : Ltable
  /-- The bytes of `/passwd`. -/
  passwd : List UInt8

namespace Ltable

def username (t : Ltable) (i : Nat) : List UInt8 := cstr t.mem (usernames i)

def password (t : Ltable) (i : Nat) : List UInt8 := cstr t.mem (passwords i)

/-- The accounts in the order of the table. -/
def users (t : Ltable) : List (List UInt8 × List UInt8) :=
  (List.range t.userCnt).map fun i => (t.username i, t.password i)

end Ltable

def equals (s t : List UInt8) : Bool := s.length = t.length ∧ strncmp s t s.length = 0

/-! ## Reading and writing `/passwd` -/

/-- The variables of the loop of `loadUsers`. -/
structure Load where
  idx : Nat
  pw : Bool
  offset : Nat
  mem : Mem

def Load.char (l : Load) (c : UInt8) : Load :=
  if l.pw = false then
    if c ≠ DASH then
      { l with
        mem := update l.mem (usernames l.idx + l.offset) c, offset := l.offset + 1 }
    else { l with pw := true, offset := 0 }
  else
    if c ≠ SLASH then
      { l with
        mem := update l.mem (passwords l.idx + l.offset) c, offset := l.offset + 1 }
    else { l with pw := false, offset := 0, idx := l.idx + 1 }

/-- The loop of `loadUsers` over the bytes of `buf`. -/
def Load.chars (l : Load) : List UInt8 → Load
  | [] => l
  | c :: buf => if l.idx = MAX_USER ∨ c = 0 then l else (l.char c).chars buf

/-- `sizeof(buf)` in `loadUsers`. -/
def bufSize : Nat := (MAX_LEN * 2 + 2) * MAX_USER + 1

/-- `loadUsers` once `/passwd` is open, with its file at offset 0. -/
def loadUsers (t : Ltable) (passwd : List UInt8) : Ltable :=
  let read := (Fs.readi passwd 0 bufSize).getD []
  let buf := read ++ List.replicate (bufSize - read.length) 0
  let l : Load := ⟨0, false, 0, t.mem⟩
  let l := if read.length > 6 then l.chars buf else l
  { t with mem := l.mem, userCnt := l.idx }

/-- What an iteration of `flushUsers` leaves in `buf`. -/
def fillBuf (t : Ltable) (buf : Mem) (i : Nat) : Mem :=
  let len := (t.username i).length
  let buf := strncpy buf 0 (t.username i) len
  let p := len
  let buf := update buf p DASH
  let p := p + 1
  let len := (t.password i).length
  let buf := strncpy buf p (t.password i) len
  let p := p + len
  let buf := update buf p SLASH
  update buf (p + 1) 0

/-- `buf` and the file of `flushUsers`. -/
structure Flush where
  buf : Mem
  passwd : List UInt8
  off : Nat

def Flush.write (t : Ltable) (f : Flush) (i : Nat) : Flush :=
  let buf := fillBuf t f.buf i
  let (_, passwd, off) := Fs.filewrite f.passwd f.off (cstr buf 0)
  ⟨buf, passwd, off⟩

/-- `flushUsers`; `none` is the result `-1`, which it gives before it writes. -/
def flushUsers (opens : Bool) (t : Ltable) (passwd : List UInt8) : Option (List UInt8) :=
  if opens then
    (Fs.cleari passwd).map fun passwd =>
      ((List.range t.userCnt).foldl (Flush.write t) ⟨fun _ => 0, passwd, 0⟩).passwd
  else none

/-! ## Changing the table -/

/-- Copy the string at `src` to `dst` and end it, as `deleteUser` does. -/
def copyStr (m : Mem) (dst src : Nat) : Mem :=
  let m := strncpy m dst (cstr m src) (cstr m src).length
  update m (dst + (cstr m src).length) 0

/-- An iteration of `deleteUser`: row `i` is moved down by one. -/
def moveDown (m : Mem) (i : Nat) : Mem :=
  let m := copyStr m (usernames (i - 1)) (usernames i)
  copyStr m (passwords (i - 1)) (passwords i)

/-- The loop of `deleteUser` that clears row `i`. -/
def clearRow (m : Mem) (i : Nat) : Mem :=
  (List.range (MAX_LEN + 1)).foldl (fun m j =>
    update (update m (passwords i + j) 0) (usernames i + j) 0) m

/-- The row of a user, as `deleteUser` and `sys_login` look for it. -/
def find (t : Ltable) (username : List UInt8) : Option Nat :=
  (List.range t.userCnt).find? fun i =>
    (t.username i).length = username.length ∧ equals (t.username i) username

def remove (t : Ltable) (found : Nat) : Ltable :=
  let m := (List.range' (found + 1) (t.userCnt - (found + 1))).foldl moveDown t.mem
  { t with userCnt := t.userCnt - 1, mem := clearRow m (t.userCnt - 1) }

def deleteUser (opens : Bool) (username : Str) (s : State) : Int × State :=
  let found := (find s.table username).getD 0
  if found = 0 then (-1, s)
  else
    let t := remove s.table found
    match flushUsers opens t s.passwd with
    | none => (-1, { s with table := t })
    | some passwd => (0, ⟨t, passwd⟩)

def append (t : Ltable) (username password : List UInt8) : Ltable :=
  let m := strncpy t.mem (usernames t.userCnt) username username.length
  let m := strncpy m (passwords t.userCnt) password password.length
  { t with mem := m, userCnt := t.userCnt + 1 }

def addUser (opens found : Bool) (username password : Str) (s : State) : Int × State :=
  let unlen := username.1.length
  let pwlen := password.1.length
  if s.table.userCnt = MAX_USER then (-1, s)
  else if unlen < 2 ∨ unlen > MAX_LEN ∨ pwlen < 2 ∨ pwlen > MAX_LEN then (-1, s)
  else if (List.range s.table.userCnt).any fun i => equals (s.table.username i) username then
    (-1, s)
  else
    let t := append s.table username password
    match flushUsers opens t s.passwd with
    | none => (-1, { s with table := t })
    | some passwd => (if found then 0 else -1, ⟨t, passwd⟩)

def root : Str := ⟨[114, 111, 111, 116], by decide⟩

def zeros : Str := ⟨[48, 48, 48, 48], by decide⟩

/-- `ltable` before `sys_lbegin`. -/
def Ltable.empty : Ltable := ⟨0, 0, fun _ => 0⟩

/-- `sys_lbegin` after a reboot; it does not look at the result of `addUser`. -/
def lbegin (opens found : Bool) (passwd : List UInt8) : State :=
  let s : State := ⟨loadUsers .empty passwd, passwd⟩
  let s := if s.table.userCnt = 0 then (addUser opens found root zeros s).2 else s
  { s with table := { s.table with userIdx := -1 } }

/-! ## Runs -/

inductive Act
  | addUser (opens found : Bool) (username password : Str)
  | deleteUser (opens : Bool) (username : Str)
  | reboot (opens found : Bool)

/-- The state after a call that returned 0. -/
def success : Int × State → Option State
  | (r, s) => if r = 0 then some s else none

def next (s : State) : Act → Option State
  | .addUser opens found username password => success (addUser opens found username password s)
  | .deleteUser opens username => success (deleteUser opens username s)
  | .reboot opens found => some (lbegin opens found s.passwd)

/-- The accounts from the first boot on, where `loadUsers` creates `/passwd`. -/
def accounts : LTS State Act where
  init s := ∃ found, s = lbegin true found []
  next := next

end Xv6.Users
