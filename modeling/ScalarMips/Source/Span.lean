/-!
# Positions in a source text

Lines and columns are 32-bit words counted from one; a column counts characters. A span is half
open: its end is the position just after its last character.
-/

namespace ScalarMips

/-- A place between two characters of a source text. -/
structure Location where
  /-- The line, counted from one. -/
  line : UInt32 := 1
  /-- The column of the character that follows, counted from one. -/
  column : UInt32 := 1
  deriving DecidableEq, Inhabited

/-- A stretch of source text. -/
structure Span where
  /-- Where the first character stands. -/
  start : Location := {}
  /-- Just after the last character. -/
  stop : Location := {}
  deriving DecidableEq, Inhabited

/-- A value together with the stretch of text it is about. -/
structure Located (α : Type) where
  /-- The stretch of text. -/
  span : Span
  /-- The value. -/
  val : α
  deriving DecidableEq, Inhabited

namespace Location

/-- The location after one character: a newline starts the next line, anything else moves one
column on. -/
def next (l : Location) (c : Char) : Location :=
  if c = '\n' then ⟨l.line + 1, 1⟩ else ⟨l.line, l.column + 1⟩

/-- The location after a stretch of text. -/
def advance (l : Location) (text : List Char) : Location :=
  text.foldl next l

@[simp] theorem advance_nil (l : Location) : l.advance [] = l := rfl

@[simp] theorem advance_cons (l : Location) (c : Char) (text : List Char) :
    l.advance (c :: text) = (l.next c).advance text := rfl

theorem advance_append (l : Location) (first second : List Char) :
    l.advance (first ++ second) = (l.advance first).advance second :=
  List.foldl_append

end Location

/-- The span from the start of one span to the end of another. -/
def Span.to (first last : Span) : Span :=
  ⟨first.start, last.stop⟩

end ScalarMips
