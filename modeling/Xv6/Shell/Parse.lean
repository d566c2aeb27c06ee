import Xv6.Fs.Sysfile
import Xv6.Lib.Fault

/-! # The parser of the shell

`sh.c` from `gettoken` to `nulterminate`. A pointer into the line is the number of bytes in front of
it, and the cursor `*ps` is the state of a parser. The functions take a bound on the depth of calls
and on the iterations of loops. -/

namespace Xv6.Parse

open Fault Function CString

/-- `" \t\r\n\v"`. -/
def whitespace : List UInt8 := [32, 9, 13, 10, 11]

def LT : UInt8 := 60
def GT : UInt8 := 62
def BAR : UInt8 := 124
def AMP : UInt8 := 38
def SEMI : UInt8 := 59
def LPAR : UInt8 := 40
def RPAR : UInt8 := 41

/-- What `gettoken` returns for a word, and for `>>`. -/
def WORD : UInt8 := 97
def APPEND : UInt8 := 43

def symbols : List UInt8 := [LT, BAR, GT, AMP, SEMI, LPAR, RPAR]

def MAXARGS : Nat := 10

/-- A string in the line: its first byte and the byte behind it. -/
structure Span where
  q : Nat
  eq : Nat

/-- `struct cmd`, with what stands for a string. -/
inductive Cmd (α : Type)
  | exec (argv : List α)
  | redir (cmd : Cmd α) (file : α) (mode : UInt32) (fd : Nat)
  | pipe (left right : Cmd α)
  | list (left right : Cmd α)
  | back (cmd : Cmd α)

inductive Stop
  | panic (msg : String)
  /-- The bound is too small. -/
  | fuel

abbrev Parser (α : Type) := Fault Stop Nat α

def skip (t : List UInt8) (s : Nat) : Nat := s + ((t.drop s).takeWhile (· ∈ whitespace)).length

def inWord (c : UInt8) : Bool := c ∉ whitespace ∧ c ∉ symbols

/-- `gettoken`, with `q` and `eq`. -/
def gettoken (t : List UInt8) : Parser (UInt8 × Span) := fun ps =>
  let q := skip t ps
  let c := t.getD q 0
  let (ret, s) : UInt8 × Nat :=
    if c = 0 then (0, q)
    else if c ∈ [BAR, LPAR, RPAR, SEMI, AMP, LT] then (c, q + 1)
    else if c = GT then if t.getD (q + 1) 0 = GT then (APPEND, q + 2) else (GT, q + 1)
    else (WORD, q + ((t.drop q).takeWhile inWord).length)
  .ok ((ret, ⟨q, s⟩), skip t s)

def peek (t : List UInt8) (toks : List UInt8) : Parser Bool := fun ps =>
  let s := skip t ps
  .ok (decide (t.getD s 0 ≠ 0 ∧ t.getD s 0 ∈ toks), s)

def parseredirs (t : List UInt8) : Nat → Cmd Span → Parser (Cmd Span)
  | 0, _ => panic .fuel
  | k + 1, cmd => do
    if ← peek t [LT, GT] then
      let tok ← gettoken t
      let file ← gettoken t
      if file.1 ≠ WORD then panic (.panic "missing file for redirection")
      else if tok.1 = LT then parseredirs t k (.redir cmd file.2 Fs.O_RDONLY 0)
      else parseredirs t k (.redir cmd file.2 (Fs.O_WRONLY ||| Fs.O_CREATE) 1)
    else pure cmd

/-- Stores `argv` in the `execcmd` inside the redirections. -/
def Cmd.setArgv (argv : List Span) : Cmd Span → Cmd Span
  | .redir cmd file mode fd => .redir (cmd.setArgv argv) file mode fd
  | .exec _ => .exec argv
  | cmd => cmd

/-- The loop of `parseexec`. -/
def parseargs (t : List UInt8) : Nat → List Span → Cmd Span → Parser (Cmd Span)
  | 0, _, _ => panic .fuel
  | k + 1, argv, ret => do
    if ← peek t [BAR, RPAR, AMP, SEMI] then pure (ret.setArgv argv)
    else
      let tok ← gettoken t
      if tok.1 = 0 then pure (ret.setArgv argv)
      else if tok.1 ≠ WORD then panic (.panic "syntax")
      else if argv.length + 1 ≥ MAXARGS then panic (.panic "too many args")
      else
        let ret ← parseredirs t k ret
        parseargs t k (argv ++ [tok.2]) ret

/-- The first loop of `parseline`. -/
def parsebacks (t : List UInt8) : Nat → Cmd Span → Parser (Cmd Span)
  | 0, _ => panic .fuel
  | k + 1, cmd => do
    if ← peek t [AMP] then
      let _ ← gettoken t
      parsebacks t k (.back cmd)
    else pure cmd

mutual

def parseline (t : List UInt8) : Nat → Parser (Cmd Span)
  | 0 => panic .fuel
  | k + 1 => do
    let cmd ← parsepipe t k
    let cmd ← parsebacks t k cmd
    if ← peek t [SEMI] then
      let _ ← gettoken t
      let right ← parseline t k
      pure (.list cmd right)
    else pure cmd

def parsepipe (t : List UInt8) : Nat → Parser (Cmd Span)
  | 0 => panic .fuel
  | k + 1 => do
    let cmd ← parseexec t k
    if ← peek t [BAR] then
      let _ ← gettoken t
      let right ← parsepipe t k
      pure (.pipe cmd right)
    else pure cmd

def parseblock (t : List UInt8) : Nat → Parser (Cmd Span)
  | 0 => panic .fuel
  | k + 1 => do
    if ← peek t [LPAR] then
      let _ ← gettoken t
      let cmd ← parseline t k
      if ← peek t [RPAR] then
        let _ ← gettoken t
        parseredirs t k cmd
      else panic (.panic "syntax - missing )")
    else panic (.panic "parseblock")

def parseexec (t : List UInt8) : Nat → Parser (Cmd Span)
  | 0 => panic .fuel
  | k + 1 => do
    if ← peek t [LPAR] then parseblock t k
    else
      let ret ← parseredirs t k (.exec [])
      parseargs t k [] ret

end

def nulterminate : Cmd Span → Mem → Mem
  | .exec argv, m => argv.foldl (fun m s => update m s.eq 0) m
  | .redir cmd file _ _, m => update (nulterminate cmd m) file.eq 0
  | .pipe left right, m => nulterminate right (nulterminate left m)
  | .list left right, m => nulterminate right (nulterminate left m)
  | .back cmd, m => nulterminate cmd m

/-- `parsecmd` of the line `t`, and the bytes of the line after it. -/
def parsecmd (fuel : Nat) (t : List UInt8) : Except Stop (Cmd Span × Mem) := do
  let (cmd, s) ← parseline t fuel 0
  if skip t s ≠ t.length then .error (.panic "syntax")
  else .ok (cmd, nulterminate cmd fun i => t.getD i 0)

/-! ## Printing -/

inductive Token
  | word (w : List UInt8)
  | sym (c : UInt8)

def paren (l : List Token) : List Token := .sym LPAR :: (l ++ [.sym RPAR])

/-- A command with its sub-commands in parentheses. -/
def Cmd.tokens : Cmd (List UInt8) → List Token
  | .exec argv => argv.map .word
  | .redir cmd file mode _ =>
    paren cmd.tokens ++ [.sym (if mode = Fs.O_RDONLY then LT else GT), .word file]
  | .pipe left right => paren left.tokens ++ .sym BAR :: paren right.tokens
  | .list left right => paren left.tokens ++ .sym SEMI :: paren right.tokens
  | .back cmd => paren cmd.tokens ++ [.sym AMP]

structure IsWord (w : List UInt8) : Prop where
  ne_nil : w ≠ []
  nonzero : 0 ∉ w
  chars : ∀ c ∈ w, inWord c = true

/-- Words and symbols with any white space between them. A word is followed by white space or by a
symbol. -/
inductive Text : List Token → List UInt8 → Prop
  | nil : Text [] []
  | space (hc : c ∈ whitespace) (h : Text l s) : Text l (c :: s)
  | sym (hc : c ∈ symbols) (h : Text l s) : Text (.sym c :: l) (c :: s)
  | word (hw : IsWord w) (hs : ∀ c ∈ s.head?, inWord c = false) (h : Text l s) :
    Text (.word w :: l) (w ++ s)

/-- The commands that can be written: with at most 9 words, and redirections of input and output. -/
def Cmd.Writable : Cmd (List UInt8) → Prop
  | .exec argv => argv.length < MAXARGS
  | .redir cmd _ mode fd => cmd.Writable ∧
      (mode = Fs.O_RDONLY ∧ fd = 0 ∨ mode = Fs.O_WRONLY ||| Fs.O_CREATE ∧ fd = 1)
  | .pipe left right | .list left right => left.Writable ∧ right.Writable
  | .back cmd => cmd.Writable

/-- Two trees of the same form. -/
inductive Cmd.Rel (R : α → β → Prop) : Cmd α → Cmd β → Prop
  | exec (h : List.Forall₂ R a b) : Rel R (.exec a) (.exec b)
  | redir (h : Rel R c c') (hf : R f f') : Rel R (.redir c f mode fd) (.redir c' f' mode fd)
  | pipe (hl : Rel R a a') (hr : Rel R b b') : Rel R (.pipe a b) (.pipe a' b')
  | list (hl : Rel R a a') (hr : Rel R b b') : Rel R (.list a b) (.list a' b')
  | back (h : Rel R c c') : Rel R (.back c) (.back c')

variable {t s w : List UInt8} {l : List Token} {p k : Nat} {c : UInt8}

/-! ## Tokens -/

theorem symbol_iff : c ∈ symbols ↔
    c = LT ∨ c = BAR ∨ c = GT ∨ c = AMP ∨ c = SEMI ∨ c = LPAR ∨ c = RPAR := by
  simp [symbols]

theorem symbol_ne (h : c ∈ symbols) : c ∉ whitespace ∧ c ≠ 0 := by
  rcases symbol_iff.mp h with rfl | rfl | rfl | rfl | rfl | rfl | rfl <;> decide

theorem inWord_iff : inWord c = true ↔ c ∉ whitespace ∧ c ∉ symbols := decide_eq_true_iff

/-- The text of the tokens from the cursor on. -/
structure At (t : List UInt8) (l : List Token) (p : Nat) : Prop where
  le : p ≤ t.length
  text : Text l (t.drop p)

/-- What a text begins with behind white space. -/
def Text.Start : List Token → List UInt8 → Prop
  | [], s => s = []
  | .sym c :: l, s => c ∈ symbols ∧ ∃ s', s = c :: s' ∧ Text l s'
  | .word w :: l, s => IsWord w ∧ ∃ s', s = w ++ s' ∧ Text l s' ∧ ∀ c ∈ s'.head?, inWord c = false

theorem IsWord.exists_cons (h : IsWord w) : ∃ c w', w = c :: w' ∧ inWord c = true ∧ c ≠ 0 := by
  obtain ⟨c, w', rfl⟩ := List.exists_cons_of_ne_nil h.ne_nil
  exact ⟨c, w', rfl, h.chars c List.mem_cons_self, fun e => h.nonzero (e ▸ List.mem_cons_self)⟩

theorem Text.start (h : Text l s) : Start l (s.dropWhile (· ∈ whitespace)) := by
  induction h with
  | nil => rfl
  | space hc h ih =>
    rw [List.dropWhile_cons_of_pos (by simpa using hc)]
    exact ih
  | sym hc h ih =>
    rw [List.dropWhile_cons_of_neg (by simp [(symbol_ne hc).1])]
    exact ⟨hc, _, rfl, h⟩
  | word hw hs h ih =>
    obtain ⟨c, w, rfl, hc, -⟩ := hw.exists_cons
    rw [List.cons_append, List.dropWhile_cons_of_neg (by simp [(inWord_iff.mp hc).1])]
    exact ⟨hw, _, rfl, h, hs⟩

theorem Text.of_start (h : Text.Start l s) : Text l s := by
  cases l with
  | nil => exact h ▸ .nil
  | cons a l =>
    cases a with
    | sym c =>
      obtain ⟨hc, s', rfl, h⟩ := h
      exact .sym hc h
    | word w =>
      obtain ⟨hw, s', rfl, h, hs⟩ := h
      exact .word hw hs h

theorem drop_skip : t.drop (skip t p) = (t.drop p).dropWhile (· ∈ whitespace) := by
  have h : ((t.drop p).takeWhile (· ∈ whitespace) ++ (t.drop p).dropWhile (· ∈ whitespace)).drop
      ((t.drop p).takeWhile (· ∈ whitespace)).length = (t.drop p).dropWhile (· ∈ whitespace) :=
    List.drop_left
  rwa [List.takeWhile_append_dropWhile, List.drop_drop] at h

theorem At.start (h : At t l p) : Text.Start l (t.drop (skip t p)) := drop_skip ▸ h.text.start

theorem At.skip (h : At t l p) : At t l (skip t p) := by
  refine ⟨?_, .of_start h.start⟩
  have hl := (List.takeWhile_sublist (· ∈ whitespace) (l := t.drop p)).length_le
  have := h.le
  rw [List.length_drop] at hl
  rw [Parse.skip]
  omega

/-- The cursor moves over a part of the line. -/
theorem At.move (h : At t l' p) (e : t.drop p = w ++ s) (hs : Text l s) :
    At t l (p + w.length) := by
  have hl := congrArg List.length e
  have := h.le
  rw [List.length_drop, List.length_append] at hl
  exact ⟨by omega, by rwa [← List.drop_drop, e, List.drop_left]⟩

theorem getD_eq : t.getD p 0 = (t.drop p).head?.getD 0 := by
  rw [List.head?_drop, List.getD_eq_getElem?_getD]

/-- The next token is not one of the symbols. -/
def Other (toks : List UInt8) (l : List Token) : Prop := ∀ c ∈ toks, l.head? ≠ some (.sym c)

theorem other_sym (h : c ∉ toks) : Other toks (.sym c :: l) := by
  rintro _ hc ⟨⟩
  exact h hc

theorem peek_eq_true (h : At t (.sym c :: l) p) (hc : c ∈ toks) :
    peek t toks p = .ok (true, skip t p) := by
  obtain ⟨hs, s', e, -⟩ := h.start
  have hd : t.getD (skip t p) 0 = c := by rw [getD_eq, e]; rfl
  simp only [peek, hd, hc, (symbol_ne hs).2, ne_eq, not_false_eq_true, and_self, decide_true]

theorem peek_eq_false (h : At t l p) (hl : Other toks l) (ht : ∀ c ∈ toks, c ∈ symbols) :
    peek t toks p = .ok (false, skip t p) := by
  have hn : ¬ (t.getD (skip t p) 0 ≠ 0 ∧ t.getD (skip t p) 0 ∈ toks) := by
    rintro ⟨h0, hm⟩
    rw [getD_eq] at h0 hm
    cases l with
    | nil => exact h0 (by rw [show t.drop (skip t p) = [] from h.start]; rfl)
    | cons a l =>
      cases a with
      | sym c =>
        obtain ⟨-, s', e, -⟩ := h.start
        rw [e] at hm
        exact hl c hm rfl
      | word w =>
        obtain ⟨hw, s', e, -⟩ := h.start
        obtain ⟨c, w, rfl, hc, -⟩ := hw.exists_cons
        rw [e] at hm
        exact (inWord_iff.mp hc).2 (ht c hm)
  simp only [peek, hn, decide_false]

/-- A symbol other than `>`. -/
theorem gettoken_sym (h : At t (.sym c :: l) p) (hc : c ≠ GT) :
    ∃ sp p', gettoken t p = .ok ((c, sp), p') ∧ At t l p' := by
  obtain ⟨hs, s', e, hs'⟩ := h.start
  have hd : t.getD (skip t p) 0 = c := by rw [getD_eq, e]; rfl
  have hm : c ∈ [BAR, LPAR, RPAR, SEMI, AMP, LT] := by
    rcases symbol_iff.mp hs with rfl | rfl | rfl | rfl | rfl | rfl | rfl
    case inr.inr.inl => exact absurd rfl hc
    all_goals decide
  refine ⟨⟨skip t p, skip t p + 1⟩, skip t (skip t p + 1), ?_, (h.skip.move (w := [c]) e hs').skip⟩
  simp only [gettoken, hd, (symbol_ne hs).2, hm, if_true, if_false]

/-- `>` in front of a word. -/
theorem gettoken_gt (h : At t (.sym GT :: .word w :: l) p) :
    ∃ sp p', gettoken t p = .ok ((GT, sp), p') ∧ At t (.word w :: l) p' := by
  obtain ⟨hs, s', e, hs'⟩ := h.start
  have hd : t.getD (skip t p) 0 = GT := by rw [getD_eq, e]; rfl
  have hne : t.getD (skip t p + 1) 0 ≠ GT := by
    rw [getD_eq, ← List.drop_drop, e]
    cases hs' with
    | @space c _ _ hc h =>
      rintro (rfl : c = GT)
      exact absurd hc (by decide)
    | word hw hs h =>
      obtain ⟨c, w, rfl, hc, -⟩ := hw.exists_cons
      rintro (rfl : c = GT)
      exact absurd hc (by decide)
  refine ⟨⟨skip t p, skip t p + 1⟩, skip t (skip t p + 1), ?_, (h.skip.move (w := [GT]) e hs').skip⟩
  simp only [gettoken, hd, hne, if_false]
  rfl

/-- The word stands in the line, and the byte behind it is not one of a word. -/
structure Spells (t : List UInt8) (s : Span) (w : List UInt8) : Prop where
  word : IsWord w
  holds : t.drop s.q = w ++ t.drop s.eq
  eq : s.eq = s.q + w.length
  ends : ∀ c ∈ (t.drop s.eq).head?, inWord c = false

theorem takeWhile_word (hw : IsWord w) (hs : ∀ c ∈ s.head?, inWord c = false) :
    (w ++ s).takeWhile inWord = w := by
  rw [List.takeWhile_append_of_pos hw.chars]
  cases s with
  | nil => exact List.append_nil w
  | cons c s =>
    rw [List.takeWhile_cons_of_neg (by simp [hs c rfl])]
    exact List.append_nil w

theorem gettoken_word (h : At t (.word w :: l) p) : ∃ sp p', gettoken t p = .ok ((WORD, sp), p') ∧
    Spells t sp w ∧ At t l p' := by
  obtain ⟨hw, s', e, hs', hs⟩ := h.start
  have he : t.drop (skip t p + w.length) = s' := by rw [← List.drop_drop, e, List.drop_left]
  refine ⟨⟨skip t p, skip t p + w.length⟩, skip t (skip t p + w.length), ?_,
    ⟨hw, by rw [he, e], rfl, by rwa [he]⟩, (h.skip.move e hs').skip⟩
  have htake : ((t.drop (skip t p)).takeWhile inWord).length = w.length := by
    rw [e, takeWhile_word hw hs]
  obtain ⟨c, w', rfl, hc, h0⟩ := hw.exists_cons
  have hd : t.getD (skip t p) 0 = c := by rw [getD_eq, e]; rfl
  have hsym := (inWord_iff.mp hc).2
  have hm : c ∉ [BAR, LPAR, RPAR, SEMI, AMP, LT] := fun hm => hsym (by
    simp only [symbols, List.mem_cons] at hm ⊢
    tauto)
  have hg : c ≠ GT := fun e => hsym (symbol_iff.mpr (by simp [e]))
  simp only [gettoken, hd, h0, hm, hg, if_false, htake]

theorem gettoken_nil (h : At t [] p) : ∃ sp p', gettoken t p = .ok ((0, sp), p') ∧ At t [] p' := by
  have hd : t.getD (skip t p) 0 = 0 := by
    rw [getD_eq, show t.drop (skip t p) = [] from h.start]
    rfl
  refine ⟨⟨skip t p, skip t p⟩, skip t (skip t p), ?_, At.skip (At.skip h)⟩
  simp only [gettoken, hd, if_true]

/-! ## Commands -/

/-- The text ends, or a parenthesis is closed. -/
def Ends (l : List Token) : Prop := l = [] ∨ ∃ l', l = .sym RPAR :: l'

theorem Ends.other (h : Ends l) (ht : RPAR ∉ toks) : Other toks l := by
  rintro c hc e
  obtain rfl | ⟨l', rfl⟩ := h
  · cases e
  · cases e
    exact ht hc

theorem Ends.other_words {ws : List (List UInt8)} (h : Ends l) (ht : RPAR ∉ toks) :
    Other toks (ws.map .word ++ l) := by
  cases ws with
  | nil => exact h.other ht
  | cons w ws => rintro c - ⟨⟩

theorem parseredirs_done (h : At t l p) (hl : Other [LT, GT] l) :
    parseredirs t (k + 1) cmd p = .ok (cmd, skip t p) :=
  bind_of_ok (peek_eq_false h hl (by simp [symbols]))

theorem parseredirs_one
    (hm : mode = Fs.O_RDONLY ∧ fd = 0 ∨ mode = Fs.O_WRONLY ||| Fs.O_CREATE ∧ fd = 1)
    (h : At t (.sym (if mode = Fs.O_RDONLY then LT else GT) :: .word w :: l) p)
    (hl : Other [LT, GT] l) : ∃ sp p', parseredirs t (k + 2) cmd p =
      .ok (.redir cmd sp mode fd, p') ∧ Spells t sp w ∧ At t l p' := by
  unfold parseredirs
  obtain ⟨rfl, rfl⟩ | ⟨rfl, rfl⟩ := hm
  · rw [if_pos rfl] at h
    obtain ⟨_, p₁, e₁, h₁⟩ := gettoken_sym h.skip (by decide)
    obtain ⟨sp, p₂, e₂, hsp, h₂⟩ := gettoken_word h₁
    refine ⟨sp, _, ?_, hsp, h₂.skip⟩
    rw [bind_of_ok (peek_eq_true h (by simp)), if_pos rfl, bind_of_ok e₁, bind_of_ok e₂]
    exact parseredirs_done h₂ hl
  · rw [if_neg (by decide)] at h
    obtain ⟨_, p₁, e₁, h₁⟩ := gettoken_gt h.skip
    obtain ⟨sp, p₂, e₂, hsp, h₂⟩ := gettoken_word h₁
    refine ⟨sp, _, ?_, hsp, h₂.skip⟩
    rw [bind_of_ok (peek_eq_true h (by simp)), if_pos rfl, bind_of_ok e₁, bind_of_ok e₂]
    exact parseredirs_done h₂ hl

theorem parseargs_spec (h : At t (ws.map .word ++ l) p) (hl : Ends l)
    (hn : argv.length + ws.length < MAXARGS) (hk : ws.length < k) :
    ∃ spans p', parseargs t (k + 1) argv (.exec []) p = .ok (.exec (argv ++ spans), p') ∧
      List.Forall₂ (Spells t) spans ws ∧ At t l p' := by
  induction ws generalizing argv p k with
  | nil =>
    obtain rfl | ⟨l', rfl⟩ := hl
    · obtain ⟨sp, p', e, h'⟩ := gettoken_nil (At.skip h)
      refine ⟨[], p', ?_, .nil, h'⟩
      unfold parseargs
      rw [bind_of_ok (peek_eq_false h nofun (by simp [symbols])), if_neg nofun, bind_of_ok e,
        if_pos rfl, List.append_nil]
      rfl
    · refine ⟨[], skip t p, ?_, .nil, At.skip h⟩
      unfold parseargs
      rw [bind_of_ok (peek_eq_true h (by simp)), if_pos rfl, List.append_nil]
      rfl
  | cons w ws ih =>
    obtain ⟨k, rfl⟩ : ∃ k', k = k' + 1 := ⟨k - 1, by omega⟩
    simp only [List.length_cons] at hn hk
    obtain ⟨sp, p₁, e₁, hsp, h₁⟩ := gettoken_word (At.skip h)
    have hn' : (argv ++ [sp]).length + ws.length < MAXARGS := by
      rw [List.length_append, List.length_singleton]
      omega
    obtain ⟨spans, p₂, e₂, hspans, h₂⟩ := ih (At.skip h₁) hn' (by omega : ws.length < k)
    refine ⟨sp :: spans, p₂, ?_, .cons hsp hspans, h₂⟩
    rw [List.append_assoc] at e₂
    unfold parseargs
    rw [bind_of_ok (peek_eq_false h nofun (by simp [symbols])), if_neg nofun, bind_of_ok e₁,
      if_neg (show ¬ WORD = 0 by decide), if_neg (not_not.mpr rfl), if_neg (by omega),
      bind_of_ok (parseredirs_done h₁ (hl.other_words (by decide)))]
    exact e₂

/-- A bound for the calls that a command needs. -/
def Cmd.depth : Cmd (List UInt8) → Nat
  | .exec argv => argv.length + 6
  | .redir cmd .. | .back cmd => cmd.depth + 6
  | .pipe left right | .list left right => left.depth + right.depth + 6

/-- A function that reads the command `c` and stops at the tokens `l`. -/
def Reads (t : List UInt8) (c : Cmd (List UInt8)) (l : List Token) (x : Parser (Cmd Span))
    (p : Nat) : Prop :=
  ∃ cmd p', x p = .ok (cmd, p') ∧ cmd.Rel (Spells t) c ∧ At t l p'

/-- `parseline` reads the command. -/
def Parsed (t : List UInt8) (c : Cmd (List UInt8)) : Prop :=
  ∀ l p k, At t (c.tokens ++ l) p → Ends l → c.depth ≤ k → Reads t c l (parseline t k) p

variable {c c' : Cmd (List UInt8)} {cmd : Cmd Span}

/-- A command in parentheses, up to its redirections. -/
theorem parseexec_eq (hc : Parsed t c) (h : At t (paren c.tokens ++ l) p) (hk : c.depth ≤ k) :
    ∃ cmd p', parseexec t (k + 2) p = parseredirs t k cmd p' ∧ cmd.Rel (Spells t) c ∧
      At t l p' := by
  rw [paren, List.cons_append, List.append_assoc] at h
  obtain ⟨_, p₁, e₁, h₁⟩ := gettoken_sym (At.skip (At.skip h)) (by decide)
  obtain ⟨cmd, p₂, e₂, hr, h₂⟩ := hc _ p₁ k h₁ (.inr ⟨l, rfl⟩) hk
  obtain ⟨_, p₃, e₃, h₃⟩ := gettoken_sym (At.skip h₂) (by decide)
  refine ⟨cmd, p₃, ?_, hr, h₃⟩
  unfold parseexec parseblock
  rw [bind_of_ok (peek_eq_true h (by simp)), if_pos rfl,
    bind_of_ok (peek_eq_true (At.skip h) (by simp)), if_pos rfl, bind_of_ok e₁, bind_of_ok e₂,
    bind_of_ok (peek_eq_true h₂ (by simp)), if_pos rfl, bind_of_ok e₃]

theorem parseexec_paren (hc : Parsed t c) (h : At t (paren c.tokens ++ l) p)
    (hl : Other [LT, GT] l) (hk : c.depth + 3 ≤ k) : Reads t c l (parseexec t k) p := by
  obtain ⟨k, rfl⟩ : ∃ k', k = k' + 3 := ⟨k - 3, by omega⟩
  obtain ⟨cmd, p₁, e₁, hr, h₁⟩ := parseexec_eq hc h (by omega : c.depth ≤ k + 1)
  exact ⟨cmd, _, e₁.trans (parseredirs_done h₁ hl), hr, At.skip h₁⟩

/-- What `parseexec` has read is not the left side of a pipe. -/
theorem parsepipe_of (h : Reads t c l (parseexec t k) p) (hl : Other [BAR] l) :
    Reads t c l (parsepipe t (k + 1)) p := by
  obtain ⟨cmd, p₁, e₁, hr, h₁⟩ := h
  refine ⟨cmd, skip t p₁, ?_, hr, At.skip h₁⟩
  unfold parsepipe
  rw [bind_of_ok e₁, bind_of_ok (peek_eq_false h₁ hl (by simp [symbols])), if_neg nofun]
  rfl

theorem parsebacks_done (h : At t l p) (hl : Other [AMP] l) :
    parsebacks t (k + 1) cmd p = .ok (cmd, skip t p) :=
  bind_of_ok (peek_eq_false h hl (by simp [symbols]))

theorem parseline_of (h : Reads t c l (parsepipe t (k + 1)) p) (hl : Ends l) :
    Reads t c l (parseline t (k + 2)) p := by
  obtain ⟨cmd, p₁, e₁, hr, h₁⟩ := h
  refine ⟨cmd, skip t (skip t p₁), ?_, hr, At.skip (At.skip h₁)⟩
  unfold parseline
  rw [bind_of_ok e₁, bind_of_ok (parsebacks_done h₁ (hl.other (by decide))),
    bind_of_ok (peek_eq_false (At.skip h₁) (hl.other (by decide)) (by simp [symbols])),
    if_neg nofun]
  rfl

theorem parsed_exec {ws : List (List UInt8)} (hn : ws.length < MAXARGS) :
    Parsed t (.exec ws) := by
  intro l p k h hl hk
  obtain ⟨k, rfl⟩ : ∃ k', k = k' + 5 := ⟨k - 5, by simp only [Cmd.depth] at hk; omega⟩
  simp only [Cmd.depth] at hk
  refine parseline_of (parsepipe_of ?_ (hl.other (by decide))) hl
  obtain ⟨spans, p₁, e₁, hspans, h₁⟩ := parseargs_spec (At.skip (At.skip h)) hl
    (by simpa using hn : ([] : List Span).length + _ < _) (by omega : ws.length < k + 1)
  refine ⟨.exec spans, p₁, ?_, .exec hspans, h₁⟩
  unfold parseexec
  rw [bind_of_ok (peek_eq_false h (hl.other_words (by decide)) (by simp [symbols])), if_neg nofun,
    bind_of_ok (parseredirs_done (At.skip h) (hl.other_words (by decide)))]
  exact e₁

theorem parsed_redir {w : List UInt8} (hc : Parsed t c)
    (hm : mode = Fs.O_RDONLY ∧ fd = 0 ∨ mode = Fs.O_WRONLY ||| Fs.O_CREATE ∧ fd = 1) :
    Parsed t (.redir c w mode fd) := by
  intro l p k h hl hk
  simp only [Cmd.depth] at hk
  obtain ⟨k, rfl⟩ : ∃ k', k = k' + 6 := ⟨k - 6, by omega⟩
  rw [Cmd.tokens, List.append_assoc] at h
  obtain ⟨cmd, p₁, e₁, hr, h₁⟩ := parseexec_eq hc h (by omega : c.depth ≤ k + 2)
  obtain ⟨sp, p₂, e₂, hsp, h₂⟩ := parseredirs_one hm h₁ (hl.other (by decide))
  exact parseline_of (parsepipe_of ⟨_, p₂, e₁.trans e₂, hr.redir hsp, h₂⟩
    (hl.other (by decide))) hl

theorem parsed_back (hc : Parsed t c) : Parsed t (.back c) := by
  intro l p k h hl hk
  simp only [Cmd.depth] at hk
  obtain ⟨k, rfl⟩ : ∃ k', k = k' + 3 := ⟨k - 3, by omega⟩
  rw [Cmd.tokens, List.append_assoc] at h
  obtain ⟨cmd, p₁, e₁, hr, h₁⟩ := parsepipe_of (parseexec_paren hc h (other_sym (by decide))
    (by omega : c.depth + 3 ≤ k + 1)) (other_sym (by decide))
  obtain ⟨_, p₂, e₂, h₂⟩ := gettoken_sym (At.skip h₁) (by decide)
  refine ⟨.back cmd, _, ?_, hr.back, At.skip (At.skip h₂)⟩
  unfold parseline parsebacks
  rw [bind_of_ok e₁, bind_assoc, bind_of_ok (peek_eq_true h₁ (by simp)), if_pos rfl, bind_assoc,
    bind_of_ok e₂, bind_of_ok (parsebacks_done h₂ (hl.other (by decide))),
    bind_of_ok (peek_eq_false (At.skip h₂) (hl.other (by decide)) (by simp [symbols])),
    if_neg nofun]
  rfl

theorem parsed_pipe (hc : Parsed t c) (hc' : Parsed t c') : Parsed t (.pipe c c') := by
  intro l p k h hl hk
  simp only [Cmd.depth] at hk
  obtain ⟨k, rfl⟩ : ∃ k', k = k' + 3 := ⟨k - 3, by omega⟩
  rw [Cmd.tokens, List.append_assoc] at h
  obtain ⟨cmd, p₁, e₁, hr, h₁⟩ := parseexec_paren hc h (other_sym (by decide))
    (by omega : c.depth + 3 ≤ k + 1)
  obtain ⟨_, p₂, e₂, h₂⟩ := gettoken_sym (At.skip h₁) (by decide)
  obtain ⟨cmd', p₃, e₃, hr', h₃⟩ := parsepipe_of (parseexec_paren hc' h₂ (hl.other (by decide))
    (by omega : c'.depth + 3 ≤ k)) (hl.other (by decide))
  refine parseline_of ⟨.pipe cmd cmd', p₃, ?_, hr.pipe hr', h₃⟩ hl
  unfold parsepipe
  rw [bind_of_ok e₁, bind_of_ok (peek_eq_true h₁ (by simp)), if_pos rfl, bind_of_ok e₂,
    bind_of_ok e₃]
  rfl

theorem parsed_list (hc : Parsed t c) (hc' : Parsed t c') : Parsed t (.list c c') := by
  intro l p k h hl hk
  simp only [Cmd.depth] at hk
  obtain ⟨k, rfl⟩ : ∃ k', k = k' + 3 := ⟨k - 3, by omega⟩
  rw [Cmd.tokens, List.append_assoc] at h
  obtain ⟨cmd, p₁, e₁, hr, h₁⟩ := parsepipe_of (parseexec_paren hc h (other_sym (by decide))
    (by omega : c.depth + 3 ≤ k + 1)) (other_sym (by decide))
  obtain ⟨_, p₂, e₂, h₂⟩ := gettoken_sym (At.skip (At.skip h₁)) (by decide)
  obtain ⟨cmd', p₃, e₃, hr', h₃⟩ := parseline_of (parsepipe_of (parseexec_paren hc' h₂
    (hl.other (by decide)) (by omega : c'.depth + 3 ≤ k)) (hl.other (by decide))) hl
  refine ⟨.list cmd cmd', p₃, ?_, hr.list hr', h₃⟩
  unfold parseline
  rw [bind_of_ok e₁, bind_of_ok (parsebacks_done h₁ (other_sym (by decide))),
    bind_of_ok (peek_eq_true (At.skip h₁) (by simp)), if_pos rfl, bind_of_ok e₂, bind_of_ok e₃]
  rfl

theorem parsed_of_writable (hc : c.Writable) : Parsed t c := by
  induction c with
  | exec argv => exact parsed_exec hc
  | redir cmd file mode fd ih => exact parsed_redir (ih hc.1) hc.2
  | pipe left right ihl ihr => exact parsed_pipe (ihl hc.1) (ihr hc.2)
  | list left right ihl ihr => exact parsed_list (ihl hc.1) (ihr hc.2)
  | back cmd ih => exact parsed_back (ih hc)

/-! ## Strings -/

/-- The bytes that `nulterminate` clears. -/
def Cmd.cuts : Cmd Span → List Nat
  | .exec argv => argv.map Span.eq
  | .redir cmd file _ _ => file.eq :: cmd.cuts
  | .pipe left right | .list left right => left.cuts ++ right.cuts
  | .back cmd => cmd.cuts

theorem nulterminate_apply (cmd : Cmd Span) (m : Mem) (x : Nat) :
    nulterminate cmd m x = if x ∈ cmd.cuts then 0 else m x := by
  induction cmd generalizing m with
  | exec argv =>
    induction argv generalizing m with
    | nil => rfl
    | cons s argv ih =>
      rw [nulterminate, List.foldl_cons, ← nulterminate, ih]
      by_cases e : x = s.eq <;> simp [Cmd.cuts, e]
  | redir cmd file mode fd ih =>
    by_cases e : x = file.eq
    · simp [nulterminate, Cmd.cuts, e]
    · simp [nulterminate, Cmd.cuts, e, ih]
  | pipe left right ihl ihr | list left right ihl ihr =>
    rw [nulterminate, ihr, ihl]
    by_cases e : x ∈ right.cuts <;> simp [Cmd.cuts, e]
  | back cmd ih => exact ih m

theorem Cmd.Rel.imp {R' : Span → List UInt8 → Prop} (h : cmd.Rel R c)
    (hR : ∀ s w, s.eq ∈ cmd.cuts → R s w → R' s w) : cmd.Rel R' c := by
  induction h with
  | @exec argv ws h =>
    have hm : List.Forall₂ (fun s w => s ∈ argv ∧ R s w) argv ws :=
      (List.forall₂_and_left argv ws).mpr ⟨fun _ => id, h⟩
    exact .exec (hm.imp fun s w hs => hR s w (List.mem_map_of_mem hs.1) hs.2)
  | redir h hf ih =>
    exact .redir (ih fun s w hm => hR s w (.tail _ hm)) (hR _ _ List.mem_cons_self hf)
  | pipe hl hr ihl ihr =>
    exact .pipe (ihl fun s w hm => hR s w (List.mem_append_left _ hm))
      (ihr fun s w hm => hR s w (List.mem_append_right _ hm))
  | list hl hr ihl ihr =>
    exact .list (ihl fun s w hm => hR s w (List.mem_append_left _ hm))
      (ihr fun s w hm => hR s w (List.mem_append_right _ hm))
  | back h ih => exact .back (ih hR)

/-- Only bytes that are not part of a word are cleared. -/
theorem Cmd.Rel.ends (h : cmd.Rel (Spells t) c) (hx : x ∈ cmd.cuts) :
    ∀ b ∈ t[x]?, inWord b = false := by
  induction h with
  | @exec argv ws h =>
    obtain ⟨s, hs, rfl⟩ := List.mem_map.mp hx
    have hm := (List.forall₂_and_left argv ws).mp (h.imp fun s w hs => ⟨hs.ends, hs⟩)
    rw [← List.head?_drop]
    exact hm.1 s hs
  | redir h hf ih =>
    rcases List.mem_cons.mp hx with rfl | hx
    · rw [← List.head?_drop]
      exact hf.ends
    · exact ih hx
  | pipe hl hr ihl ihr | list hl hr ihl ihr => exact (List.mem_append.mp hx).elim ihl ihr
  | back h ih => exact ih hx

/-- After `nulterminate` the strings are the words. -/
theorem Spells.isStr {sp : Span} (h : Spells t sp w) (hm : sp.eq ∈ cmd.cuts)
    (hc : ∀ x ∈ cmd.cuts, ∀ b ∈ t[x]?, inWord b = false) :
    IsStr (nulterminate cmd fun i => t.getD i 0) sp.q w := by
  refine isStr_of_getD h.word.nonzero fun i hi => ?_
  rw [nulterminate_apply]
  rcases Nat.eq_or_lt_of_le hi with rfl | hi
  · rw [← h.eq, if_pos hm]
    simp
  · have hget : t[sp.q + i]? = some w[i] := by
      rw [← List.getElem?_drop, h.holds, List.getElem?_append_left hi, List.getElem?_eq_getElem hi]
    have hw := h.word.chars _ (List.getElem_mem hi)
    have hn : sp.q + i ∉ cmd.cuts := fun hx => by
      rw [hc _ hx _ hget] at hw
      cases hw
    rw [if_neg hn, List.getD_eq_getElem?_getD, List.getD_eq_getElem?_getD, hget,
      List.getElem?_eq_getElem hi]

/-- The text of a command with its sub-commands in parentheses, and any white space between the
tokens, is parsed as the command. -/
theorem parsecmd_text (c : Cmd (List UInt8)) (t : List UInt8) (hc : c.Writable)
    (ht : Text c.tokens t) : ∃ n, ∀ fuel ≥ n, ∃ cmd m, parsecmd fuel t = .ok (cmd, m) ∧
      cmd.Rel (fun s w => IsStr m s.q w) c := by
  refine ⟨c.depth, fun fuel hf => ?_⟩
  have h : At t (c.tokens ++ []) 0 := ⟨Nat.zero_le _, by rwa [List.append_nil]⟩
  obtain ⟨cmd, p, e, hr, hp⟩ := parsed_of_writable hc [] 0 fuel h (.inl rfl) hf
  have hend : skip t p = t.length := le_antisymm hp.skip.le (List.drop_eq_nil_iff.mp hp.start)
  refine ⟨cmd, _, ?_, hr.imp fun s w hm hs => hs.isStr hm fun x => hr.ends⟩
  unfold parsecmd
  rw [e]
  change (if skip t p ≠ t.length then _ else _) = _
  rw [if_neg (not_not.mpr hend)]

theorem isWord_singleton {b : UInt8} (h : b ≠ 0 ∧ inWord b = true) : IsWord [b] :=
  ⟨nofun, by simpa using h.1.symm, List.forall_mem_singleton.mpr h.2⟩

/-- `(a\tb)>f `. -/
theorem parsecmd_text_redir : ∃ n, ∀ fuel ≥ n, ∃ cmd m,
    parsecmd fuel [40, 97, 9, 98, 41, 62, 102, 32] = .ok (cmd, m) ∧
      cmd.Rel (fun s w => IsStr m s.q w)
        (.redir (.exec [[97], [98]]) [102] (Fs.O_WRONLY ||| Fs.O_CREATE) 1) :=
  parsecmd_text _ _ ⟨show 2 < MAXARGS by decide, .inr ⟨rfl, rfl⟩⟩ (.sym (by decide)
    (.word (isWord_singleton (by decide)) (by simp; decide) (.space (by decide)
      (.word (isWord_singleton (by decide)) (by simp; decide) (.sym (by decide) (.sym (by decide)
        (.word (isWord_singleton (by decide)) (by simp; decide) (.space (by decide) .nil))))))))

end Xv6.Parse
