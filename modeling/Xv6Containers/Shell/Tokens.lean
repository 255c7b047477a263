import Xv6Containers.Lib.CString

/-!
# The tokens of a shell command

`gettoken` and `peek` move a cursor over the command string, skipping white space. All
that the parser sees through them is the sequence of tokens from the cursor on: `peek`
looks at the first token, `gettoken` takes it.

## Implementation notes

A cursor is the rest of the command from the pointer to its end `es`. Positions that are
kept (`q` and `eq`) are offsets from the beginning of the command, whose length is `es`.
-/

namespace Xv6Containers.Shell

open Lib.Memory Lib.Strings

/-! ## The scanner -/

/-- `whitespace`: blank, `\t`, `\r`, `\n`, `\v`. -/
def whitespace : List Byte := [32, 9, 13, 10, 11]

/-- The operators of the shell: `|`, `(`, `)`, `;`, `&`, `<`, `>` and `>>`. -/
inductive Op
  | bar
  | lparen
  | rparen
  | semi
  | amp
  | lt
  | gt
  | append
  deriving DecidableEq

/-- The character with which an operator begins. -/
def Op.char : Op → Byte
  | .bar => 124
  | .lparen => 40
  | .rparen => 41
  | .semi => 59
  | .amp => 38
  | .lt => 60
  | .gt => 62
  | .append => 62

/-- `symbols`: the characters `<|>&;()`. -/
def symbols : List Byte := [60, 124, 62, 38, 59, 40, 41]

def isSpace (c : Byte) : Bool := decide (c ∈ whitespace)

/-- A character that belongs to a word. -/
def isWord (c : Byte) : Bool := decide (c ∉ whitespace) && decide (c ∉ symbols)

/-- The part of the command between two offsets. -/
structure Span where
  start : Nat
  stop : Nat
  deriving DecidableEq

/-- What `gettoken` returns: 0 at the end, the operator, or `'a'` for a word. -/
inductive Kind
  | eof
  | op (o : Op)
  | word
  deriving DecidableEq

/-- The operators of one character. -/
def singles : List Op := [.bar, .lparen, .rparen, .semi, .amp, .lt]

/-- After `>`: a second one makes it `>>`. -/
def scanGt : List Byte → Kind × List Byte
  | [] => (.op .gt, [])
  | c :: s => if c = Op.gt.char then (.op .append, s) else (.op .gt, c :: s)

/-- The `switch` of `gettoken`: the kind of the token at `s`, and `s` after it. -/
def scanToken : List Byte → Kind × List Byte
  | [] => (.eof, [])
  | c :: s =>
    match singles.find? (fun o => o.char = c) with
    | some o => (.op o, s)
    | none => if c = Op.gt.char then scanGt s else (.word, (c :: s).dropWhile isWord)

/-- The results of `gettoken`: its value, `q` and `eq`, and the cursor. -/
structure Lexed where
  kind : Kind
  span : Span
  ps : List Byte

/-- `gettoken`. -/
def gettoken (es : Nat) (ps : List Byte) : Lexed :=
  let s := ps.dropWhile isSpace
  let r := scanToken s
  ⟨r.1, ⟨es - s.length, es - r.2.length⟩, r.2.dropWhile isSpace⟩

/-- `peek`: whether the next character is one of `toks`, and the cursor. -/
def peek (ps : List Byte) (toks : List Byte) : Bool × List Byte :=
  let s := ps.dropWhile isSpace
  (match s with
    | [] => false
    | c :: _ => decide (c ∈ toks), s)

/-! ## The token sequence -/

inductive Token
  | op (o : Op)
  | word (w : Span)
  deriving DecidableEq

/-- The token that was read, if it was not the end. -/
def Lexed.token (l : Lexed) : Option Token :=
  match l.kind with
  | .eof => none
  | .op o => some (.op o)
  | .word => some (.word l.span)

def tokensLoop (es : Nat) : Nat → List Byte → List Token
  | 0, _ => []
  | fuel + 1, ps =>
    match (gettoken es ps).token with
    | none => []
    | some t => t :: tokensLoop es fuel (gettoken es ps).ps

/-- The tokens from a cursor on, as `gettoken` reads them one after the other. -/
def tokens (es : Nat) (ps : List Byte) : List Token := tokensLoop es ps.length ps

/-! ## What the scanner does to the token sequence -/

variable {ps : List Byte}

theorem not_isSpace_of_dropWhile {s : List Byte} {c : Byte} (h : ps.dropWhile isSpace = c :: s) :
    isSpace c = false := by
  have hne : ps.dropWhile isSpace ≠ [] := by simp [h]
  have hhead := List.head_dropWhile_not isSpace hne
  simpa [h] using hhead

theorem symbols_begin : ∀ c ∈ symbols,
    c = Op.gt.char ∨ (singles.find? fun o => o.char = c).isSome = true := by
  decide +kernel

/-- A character that begins no operator and is no white space begins a word. -/
theorem isWord_of_not {c : Byte} (hspace : isSpace c = false)
    (hsingle : singles.find? (fun o => o.char = c) = none) (hgt : c ≠ Op.gt.char) :
    isWord c = true := by
  have hsymbol : c ∉ symbols := by
    intro hc
    rcases symbols_begin c hc with h | h
    · exact hgt h
    · rw [hsingle] at h
      cases h
  simpa [isWord, hsymbol, isSpace] using hspace

/-- A character that begins an operator belongs to no word. -/
theorem Op.not_isWord (o : Op) : isWord o.char = false := by
  cases o <;> decide

/-- What the scanner finds: the end, an operator at its character, or a word at its first
character up to the first character that belongs to no word. -/
inductive Scanned : List Byte → Kind × List Byte → Prop
  | eof : Scanned [] (.eof, [])
  | op (o : Op) {t rest : List Byte} : rest <:+ t → Scanned (o.char :: t) (.op o, rest)
  | word {c : Byte} {t : List Byte} : isWord c = true →
      Scanned (c :: t) (.word, (c :: t).dropWhile isWord)

theorem scanToken_scanned (ps : List Byte) :
    Scanned (ps.dropWhile isSpace) (scanToken (ps.dropWhile isSpace)) := by
  cases h : ps.dropWhile isSpace with
  | nil => exact .eof
  | cons c s =>
    have hspace := not_isSpace_of_dropWhile h
    rw [scanToken]
    split
    · next o ho =>
      have hchar : o.char = c := by simpa using List.find?_some ho
      subst hchar
      exact .op o (List.suffix_refl s)
    · next hsingle =>
      split
      · next hgt =>
        subst hgt
        cases s with
        | nil => exact .op .gt (List.suffix_refl [])
        | cons d s =>
          rw [scanGt]
          split
          · exact .op .append (List.suffix_cons d s)
          · exact .op .gt (List.suffix_refl _)
      · next hgt => exact .word (isWord_of_not hspace hsingle hgt)

theorem length_dropWhile_le (p : Byte → Bool) (s : List Byte) :
    (s.dropWhile p).length ≤ s.length :=
  (List.dropWhile_suffix p).length_le

/-- Every token takes the cursor on. -/
theorem gettoken_shorter {es : Nat} {t : Token} (h : (gettoken es ps).token = some t) :
    (gettoken es ps).ps.length < ps.length := by
  have hskip := length_dropWhile_le isSpace ps
  have hscan := scanToken_scanned ps
  simp only [gettoken, Lexed.token] at h ⊢
  generalize ps.dropWhile isSpace = s at h hskip hscan ⊢
  generalize scanToken s = r at h hscan ⊢
  have hafter := length_dropWhile_le isSpace r.2
  cases hscan with
  | eof => cases h
  | op o hsuffix =>
    have hlen := hsuffix.length_le
    simp only [List.length_cons] at hskip hafter ⊢
    omega
  | @word c t hc =>
    have hlen := length_dropWhile_le isWord t
    simp only [List.dropWhile_cons, hc, if_true, List.length_cons] at hskip hafter ⊢
    omega

/-- The tokens do not depend on the fuel once it is as long as the text. -/
theorem tokensLoop_congr (es : Nat) {n m : Nat} (hn : ps.length ≤ n) (hm : ps.length ≤ m) :
    tokensLoop es n ps = tokensLoop es m ps := by
  have hempty : gettoken es [] = ⟨.eof, ⟨es, es⟩, []⟩ := rfl
  induction n generalizing m ps with
  | zero =>
    obtain rfl := List.length_eq_zero_iff.mp (Nat.le_zero.mp hn)
    cases m with
    | zero => rfl
    | succ m => rw [tokensLoop, tokensLoop, hempty]; rfl
  | succ n ih =>
    cases m with
    | zero =>
      obtain rfl := List.length_eq_zero_iff.mp (Nat.le_zero.mp hm)
      rw [tokensLoop, tokensLoop, hempty]
      rfl
    | succ m =>
      rw [tokensLoop, tokensLoop]
      split
      · rfl
      · next t ht =>
        have hlt := gettoken_shorter ht
        have hrest : tokensLoop es n (gettoken es ps).ps = tokensLoop es m (gettoken es ps).ps :=
          ih (by omega) (by omega)
        rw [hrest]

/-- The first token is what `gettoken` reads, and the others follow its cursor. -/
theorem tokens_eq (es : Nat) (ps : List Byte) :
    tokens es ps =
      match (gettoken es ps).token with
      | none => []
      | some t => t :: tokens es (gettoken es ps).ps := by
  rw [tokens, tokensLoop_congr es le_rfl (Nat.le_succ ps.length), tokensLoop]
  split
  · rfl
  · next t ht =>
    have hlt := gettoken_shorter ht
    rw [tokens, tokensLoop_congr es (le_of_lt hlt) le_rfl]

theorem gettoken_of_cons {es : Nat} {t : Token} {ts : List Token} (h : tokens es ps = t :: ts) :
    (gettoken es ps).token = some t ∧ tokens es (gettoken es ps).ps = ts := by
  rw [tokens_eq] at h
  split at h
  · cases h
  · next t ht =>
    obtain ⟨rfl, rfl⟩ := List.cons.inj h
    exact ⟨ht, rfl⟩

/-- At the end `gettoken` stays there. -/
theorem gettoken_of_nil {es : Nat} (h : tokens es ps = []) :
    (gettoken es ps).kind = .eof ∧ tokens es (gettoken es ps).ps = [] := by
  rw [tokens_eq] at h
  have hscan := scanToken_scanned ps
  simp only [gettoken, Lexed.token] at h ⊢
  generalize ps.dropWhile isSpace = s at h hscan ⊢
  generalize scanToken s = r at h hscan ⊢
  cases hscan with
  | eof => exact ⟨rfl, rfl⟩
  | op o hsuffix => cases h
  | word hc => cases h

/-- Skipping white space does not change the tokens. -/
theorem tokens_skip (es : Nat) (ps : List Byte) :
    tokens es (ps.dropWhile isSpace) = tokens es ps := by
  have hsame : gettoken es (ps.dropWhile isSpace) = gettoken es ps := by
    simp only [gettoken, List.dropWhile_idempotent]
  rw [tokens_eq, tokens_eq es ps, hsame]

theorem tokens_peek (es : Nat) (ps toks : List Byte) :
    tokens es (peek ps toks).2 = tokens es ps := tokens_skip es ps

/-- `peek` looks for operators at the first token. -/
theorem peek_iff (es : Nat) {toks : List Byte} (htoks : ∀ c ∈ toks, isWord c = false) :
    (peek ps toks).1 = true ↔ ∃ o, o.char ∈ toks ∧ (tokens es ps).head? = some (.op o) := by
  have hscan := scanToken_scanned ps
  rw [tokens_eq]
  simp only [peek, gettoken, Lexed.token]
  generalize ps.dropWhile isSpace = s at hscan ⊢
  generalize scanToken s = r at hscan ⊢
  cases hscan with
  | eof => exact iff_of_false nofun (by rintro ⟨o, _, ho⟩; cases ho)
  | op o hsuffix =>
    simp only [decide_eq_true_eq, List.head?_cons, Option.some.injEq, Token.op.injEq]
    constructor
    · intro hmem
      exact ⟨o, hmem, rfl⟩
    · rintro ⟨o', hmem, rfl⟩
      exact hmem
  | word hc =>
    refine iff_of_false (fun hmem => ?_) (by rintro ⟨o, _, ho⟩; cases ho)
    rw [htoks _ (of_decide_eq_true hmem)] at hc
    cases hc

end Xv6Containers.Shell
