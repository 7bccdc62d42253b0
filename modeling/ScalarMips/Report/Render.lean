import ScalarMips.Numeral
import ScalarMips.Report.Basic

/-!
# The text of a report

A report is a heading, a rule, and for every quoted line the line itself with its number, a row of
carets under the text that problems cover, and one row for each problem that starts on the line. The
rightmost problem comes first, and a row keeps a bar in the column of every problem further to the
left, so that each message hangs below its own column:

```
3 | x = y + z;
  |     ^   ^
  |     |   second message
  |     first message
```

The order of problems that start in one column is the order in which they were found.
-/

namespace ScalarMips.Report

/-! ### Rows -/

/-- A run of blanks. -/
def blanks (n : Nat) : String :=
  String.ofList (List.replicate n ' ')

/-- Extends a row by blanks until it is `width` characters long. -/
def padTo (width : Nat) (row : String) : String :=
  row ++ blanks (width - row.length)

/-- What stands left of a row below the line with a given number. -/
def gutter (number : UInt32) : String :=
  blanks (Numeral.ofSize number).length ++ " | "

/-- Whether a problem covers the character at `index` of the line with a given number, of which
`length` characters are quoted. -/
def covers (p : Problem) (number : UInt32) (length index : Nat) : Bool :=
  let first := if number = p.span.start.line then (p.span.start.column - 1).toNat else 0
  let last := if number = p.span.stop.line then (p.span.stop.column - 1).toNat else length
  p.span.start.line ≤ number && number ≤ p.span.stop.line && first ≤ index && index < last

/-- Drops the blanks at the end of a row. -/
def trimEnd (row : List Char) : List Char :=
  (row.reverse.dropWhile (· = ' ')).reverse

/-- The row of carets under a line. -/
def caretRow (problems : List Problem) (number : UInt32) (line : String) : String :=
  let carets := (List.range line.length).map fun index ↦
    if problems.any fun p ↦ covers p number line.length index then '^' else ' '
  String.ofList (trimEnd ((gutter number).toList ++ carets))

/-- Where in a row the message or the bar of a problem stands. -/
def markColumn (gutter : String) (p : Problem) : Nat :=
  gutter.length + p.span.start.column.toNat - 1

/-- The row of a problem: a bar for every problem before it, then its message. -/
def messageRow (gutter : String) (before : List Problem) (p : Problem) : String :=
  let bars := before.foldl (fun row q ↦ padTo (markColumn gutter q) row ++ "|") gutter
  padTo (markColumn gutter p) bars ++ p.message

/-- The rows of problems given from right to left. -/
def messageRows (gutter : String) : List Problem → List String
  | [] => []
  | p :: before => messageRow gutter before.reverse p :: messageRows gutter before

/-- The problems that start on a line, from left to right. -/
def startingOn (problems : List Problem) (number : UInt32) : List Problem :=
  sortOn (fun p ↦ p.span.start.column) (problems.filter fun p ↦ p.span.start.line = number)

/-! ### The whole text -/

/-- A quoted line with its carets and messages. -/
def quotedLine (problems : List Problem) (number : UInt32) (line : String) : List String :=
  (Numeral.ofSize number ++ " | " ++ line) :: caretRow problems number line ::
    messageRows (gutter number) (startingOn problems number).reverse

/-- Quoted lines, numbered from `number`. -/
def quotedLines (problems : List Problem) (number : UInt32) : List String → List String
  | [] => []
  | line :: lines => quotedLine problems number line ++ quotedLines problems (number + 1) lines

/-- The rows below the rule of a report that quotes some lines. One that quotes none lists its
messages. -/
def rows (r : Report) : List String → List String
  | [] => r.problems.map Problem.message
  | lines => quotedLines r.problems r.firstLine lines

/-- The text of a report; there is none if its lines are never quoted to the end. -/
def render (r : Report) : Option String :=
  r.lines.map fun lines ↦
    String.join ((r.kind.heading :: "~~~~~~~~~~~~~~~~~~~" :: r.rows lines).map (· ++ "\n"))

end ScalarMips.Report
