import ScalarMips.Report.Order
import ScalarMips.Source.Span

/-!
# Reports

A report tells the user of one or more problems of the same kind and quotes the source lines they
are about. Reports of several passes are merged by the line on which they start; the merge is
stable, so on one line the order of the passes decides, and then the order within a pass.

Lines are quoted one by one, and the number that counts them has 32 bits. Behind the line with the
largest number it comes round to zero instead of getting past the last line, and no line has the
number zero: a window up to that line is never finished (`window`). The report is then never made,
and has no lines and no text.
-/

namespace ScalarMips

/-- The kind of a report. -/
inductive ErrorKind where
  | name
  | type
  | parse
  | lex
  | scope
  deriving DecidableEq

namespace ErrorKind

/-- All kinds of reports. -/
def all : List ErrorKind := [name, type, parse, lex, scope]

/-- The heading of a report of some kind. -/
def heading : ErrorKind → String
  | name => "Name Error"
  | type => "Type Error"
  | parse => "Syntax Error"
  | lex => "Lexical Error"
  | scope => "Scope Error"

end ErrorKind

/-- Something wrong with a stretch of source text. -/
structure Problem where
  /-- The stretch of text. -/
  span : Span
  /-- What is wrong with it. -/
  message : String
  deriving DecidableEq

/-- Problems of one kind with the source lines that are quoted for them. -/
structure Report where
  /-- The kind of all the problems. -/
  kind : ErrorKind
  /-- The problems, in the order in which they were found. -/
  problems : List Problem
  /-- The number of the first quoted line. -/
  firstLine : UInt32
  /-- The quoted lines; none if the quoting of lines is never finished. -/
  lines : Option (List String)
  deriving DecidableEq

namespace Report

/-- The first line on which a problem starts; without problems, the first quoted line. -/
def startLine (r : Report) : UInt32 :=
  (r.problems.map fun p ↦ p.span.start.line).min?.getD r.firstLine

/-- The lines of a source from one number to another. There is no result if a number has no line, as
is the case with zero, from which the numbers start again behind the largest one. -/
def window (source : List String) (line last : UInt32) : Option (List String) :=
  if line ≤ last then do
    let text ← source[(line - 1).toNat]?
    if line + 1 = 0 then
      none
    else
      let below ← window source (line + 1) last
      return text :: below
  else
    return []
termination_by UInt32.size - line.toNat
decreasing_by
  rename_i hnext
  have hlt : line.toNat < UInt32.size := line.toNat_lt_size
  have hsucc : (line + 1).toNat = (line.toNat + 1) % UInt32.size := UInt32.toNat_add line 1
  have hpos : (line + 1).toNat ≠ 0 := fun hzero ↦ hnext (UInt32.toNat_inj.1 hzero)
  simp only [UInt32.size] at hlt hsucc ⊢
  omega

/-- The report of `problems` that quotes the lines from the first one on which a problem starts to
the last one that a problem touches, as far as the source has these lines. -/
def quoting (kind : ErrorKind) (problems : List Problem) (source : List String) : Report :=
  let starts := problems.map fun p ↦ p.span.start.line
  let stops := problems.map fun p ↦ p.span.stop.line
  match starts.min?, (starts ++ stops).max? with
  | some first, some last =>
    let firstLine := max first 1
    ⟨kind, problems, firstLine, window source firstLine (min last (.ofNat source.length))⟩
  | _, _ => ⟨kind, problems, 1, some []⟩

/-- The reports of several passes in the order of their lines. -/
def merge (passes : List (List Report)) : List Report :=
  sortOn startLine passes.flatten

/-- How many problems there are in a list of reports. -/
def countProblems (reports : List Report) : Nat :=
  (reports.flatMap Report.problems).length

end Report

end ScalarMips
