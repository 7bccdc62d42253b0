import ScalarMips.Numeral
import ScalarMips.Token.Basic

/-!
# From text to tokens

Lexing is done in two steps that know nothing of each other. `Piece.cut` divides the text into
pieces: gaps (a run of blanks, or one comment), lexemes, and at most one fault, which is then the
last piece. `Piece.place` walks the pieces from a location and turns the lexemes into tokens.

`scan` cuts one piece off a nonempty text. Nothing is dropped or invented on the way
(`scan_text_append`) and every piece holds at least one character (`scan_text_ne_nil`); the second
fact is what makes `cut` end. After a fault nothing more is cut.

Characters stand for bytes, and the classes of characters are those of ASCII.
-/

namespace ScalarMips

/-! ### Classes of characters -/

namespace Lexer

/-- Space, tab, newline, vertical tab, form feed and carriage return. -/
def isBlank (c : Char) : Bool :=
  c = ' ' || ('\t' ≤ c && c ≤ '\r')

/-- A character that an identifier or keyword can start with. -/
def isWordStart (c : Char) : Bool :=
  c.isAlpha || c = '_'

/-- A character that an identifier or keyword can go on with. -/
def isWordPart (c : Char) : Bool :=
  c.isAlphanum || c = '_'

end Lexer

/-! ### Faults -/

/-- Why a text cannot be cut into tokens. -/
inductive LexFault where
  /-- No token starts with this character. -/
  | strayCharacter (c : Char)
  /-- A character that only doubled is a mark. -/
  | halfMark (c : Char)
  /-- A block comment is never closed. -/
  | openComment
  /-- An integer literal is larger than the largest word. -/
  | integerTooLarge
  deriving DecidableEq

namespace LexFault

/-- The stable code of a fault. -/
def code : LexFault → String
  | strayCharacter _ | halfMark _ => "BAD-E2000"
  | openComment => "BAD-E2001"
  | integerTooLarge => "BAD-E2002"

/-- The text of a fault. -/
def message : LexFault → String
  | strayCharacter c => "Unexpected character '" ++ c.toString ++ "' in source."
  | halfMark c =>
    "Unexpected character '" ++ c.toString ++ "'; did you mean '" ++ c.toString ++ c.toString ++
      "'?"
  | openComment => "Unterminated block comment."
  | integerTooLarge => "Integer literal does not fit in a 32-bit word."

end LexFault

/-! ### Cutting a text into pieces -/

/-- A piece of a source text. -/
inductive Piece where
  /-- A run of blanks, or one comment. -/
  | gap (text : List Char)
  /-- The text of a token. -/
  | lexeme (kind : TokenKind) (text : List Char)
  /-- Text that is no token and no gap. -/
  | fault (cause : LexFault) (text : List Char)
  deriving DecidableEq

/-- The characters of a piece. -/
def Piece.text : Piece → List Char
  | gap text | lexeme _ text | fault _ text => text

@[simp] theorem Piece.text_gap (text : List Char) : (gap text).text = text := rfl

@[simp] theorem Piece.text_lexeme (kind : TokenKind) (text : List Char) :
    (lexeme kind text).text = text := rfl

@[simp] theorem Piece.text_fault (cause : LexFault) (text : List Char) :
    (fault cause text).text = text := rfl

namespace Lexer

/-- The class of a word: a keyword if it is spelt like one, else an identifier. -/
def kindOfWord (word : List Char) : TokenKind :=
  ((Keyword.ofSpelling? (String.ofList word)).map TokenKind.keyword).getD .identifier

/-- The text up to and including the first `*/`, and what follows it. -/
def closeComment : List Char → Option (List Char × List Char)
  | [] => none
  | c :: text =>
    match c, text with
    | '*', '/' :: rest => some (['*', '/'], rest)
    | _, _ => (closeComment text).map fun (body, rest) ↦ (c :: body, rest)

/-- The piece of a run of digits. -/
def number (digits : List Char) : Piece :=
  if Numeral.fits digits then .lexeme .integerLiteral digits else .fault .integerTooLarge digits

/-- The piece that a text starts with if that is a single character. -/
def single (c : Char) : Piece :=
  match Mark.ofChar? c with
  | some mark => .lexeme (.mark mark) [c]
  | none => .fault (if c = '&' ∨ c = '|' then .halfMark c else .strayCharacter c) [c]

/-- Cuts a mark, the longest possible, off a text that starts with `c`. -/
def scanMark (c : Char) : List Char → Piece × List Char
  | [] => (single c, [])
  | d :: rest =>
    match Mark.ofPair? c d with
    | some mark => (.lexeme (.mark mark) [c, d], rest)
    | none => (single c, d :: rest)

/-- Cuts a comment or a mark off a text that starts with a slash. -/
def scanSlash : List Char → Piece × List Char
  | '/' :: rest => (.gap ('/' :: '/' :: rest.takeWhile (· ≠ '\n')), rest.dropWhile (· ≠ '\n'))
  | '*' :: rest =>
    match closeComment rest with
    | some (body, rest) => (.gap ('/' :: '*' :: body), rest)
    | none => (.fault .openComment ('/' :: '*' :: rest), [])
  | rest => scanMark '/' rest

/-- Cuts the first piece off the text `c :: rest` and gives what is left. -/
def scan (c : Char) (rest : List Char) : Piece × List Char :=
  if isBlank c then
    (.gap (c :: rest.takeWhile isBlank), rest.dropWhile isBlank)
  else if isWordStart c then
    let word := c :: rest.takeWhile isWordPart
    (.lexeme (kindOfWord word) word, rest.dropWhile isWordPart)
  else if c.isDigit then
    (number (c :: rest.takeWhile Char.isDigit), rest.dropWhile Char.isDigit)
  else if c = '/' then
    scanSlash rest
  else
    scanMark c rest

/-! ### Nothing is lost in a cut -/

theorem closeComment_append {text body rest : List Char}
    (h : closeComment text = some (body, rest)) : body ++ rest = text := by
  fun_induction closeComment text generalizing body rest with
  | case1 => simp at h
  | case2 =>
    simp only [Option.some.injEq, Prod.mk.injEq] at h
    obtain ⟨rfl, rfl⟩ := h
    rfl
  | case3 c text hne ih =>
    obtain ⟨⟨b, r⟩, hb, he⟩ := Option.map_eq_some_iff.1 h
    simp only [Prod.mk.injEq] at he
    obtain ⟨rfl, rfl⟩ := he
    simp [ih hb]

@[simp] theorem number_text (digits : List Char) : (number digits).text = digits := by
  unfold number; split <;> rfl

@[simp] theorem single_text (c : Char) : (single c).text = [c] := by
  unfold single; split <;> rfl

theorem scanMark_text_append (c : Char) (rest : List Char) :
    (scanMark c rest).1.text ++ (scanMark c rest).2 = c :: rest := by
  unfold scanMark
  split
  · simp
  · split <;> simp

theorem scanSlash_text_append (rest : List Char) :
    (scanSlash rest).1.text ++ (scanSlash rest).2 = '/' :: rest := by
  unfold scanSlash
  split
  · simp [List.takeWhile_append_dropWhile]
  · split
    · rename_i h; simp [closeComment_append h]
    · simp
  · exact scanMark_text_append '/' _

/-- The piece and the rest together are the text. -/
theorem scan_text_append (c : Char) (rest : List Char) :
    (scan c rest).1.text ++ (scan c rest).2 = c :: rest := by
  unfold scan
  split
  · simp [List.takeWhile_append_dropWhile]
  split
  · simp [List.takeWhile_append_dropWhile]
  split
  · simp [List.takeWhile_append_dropWhile]
  split
  · rename_i h; rw [scanSlash_text_append, h]
  · exact scanMark_text_append c rest

theorem scanMark_text_ne_nil (c : Char) (rest : List Char) : (scanMark c rest).1.text ≠ [] := by
  unfold scanMark
  split
  · simp
  · split <;> simp

theorem scanSlash_text_ne_nil (rest : List Char) : (scanSlash rest).1.text ≠ [] := by
  unfold scanSlash
  split
  · simp
  · split <;> simp
  · exact scanMark_text_ne_nil '/' _

/-- Every piece holds at least one character. -/
theorem scan_text_ne_nil (c : Char) (rest : List Char) : (scan c rest).1.text ≠ [] := by
  unfold scan
  split
  · simp
  split
  · simp
  split
  · simp
  split
  · exact scanSlash_text_ne_nil rest
  · exact scanMark_text_ne_nil c rest

theorem scan_rest_length_lt (c : Char) (rest : List Char) :
    (scan c rest).2.length < (c :: rest).length := by
  have happ := congrArg List.length (scan_text_append c rest)
  have hpos := List.length_pos_iff.2 (scan_text_ne_nil c rest)
  rw [List.length_append] at happ
  omega

end Lexer

namespace Piece

/-- The pieces of a text, up to and including its first fault. -/
def cut : List Char → List Piece
  | [] => []
  | c :: rest =>
    match (Lexer.scan c rest).1 with
    | .fault cause text => [.fault cause text]
    | piece => piece :: cut (Lexer.scan c rest).2
termination_by text => text.length
decreasing_by exact Lexer.scan_rest_length_lt c rest

end Piece

/-! ### Placing the pieces -/

/-- What lexing gives: the tokens in order, and the fault that ended it early. The end of the file
has its own token exactly when there is no fault. -/
structure Lexed where
  /-- The tokens in order. -/
  tokens : List Token := []
  /-- The fault, with the stretch of text it is about. -/
  fault : Option (Located LexFault) := none
  deriving DecidableEq

/-- The tokens of a list of pieces that starts at a location. -/
def Piece.place (start : Location) : List Piece → Lexed
  | [] => { tokens := [⟨.endOfFile, "", start, start⟩] }
  | .gap text :: pieces => place (start.advance text) pieces
  | .lexeme kind text :: pieces =>
    let stop := start.advance text
    let rest := place stop pieces
    { rest with tokens := ⟨kind, String.ofList text, start, stop⟩ :: rest.tokens }
  | .fault cause text :: _ => { fault := some ⟨⟨start, start.advance text⟩, cause⟩ }

/-- The tokens of a source text. -/
def lex (source : String) : Lexed :=
  Piece.place {} (Piece.cut source.toList)

end ScalarMips
