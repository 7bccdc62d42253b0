import ScalarMips.Assembly.Generate
import ScalarMips.Check.Declarations
import ScalarMips.Check.Names
import ScalarMips.Check.Types
import ScalarMips.Layout.Build
import ScalarMips.Renaming
import ScalarMips.Source.Lines
import ScalarMips.Token.Lexer
import ScalarMips.Tree.Parser

/-!
# Compiling a source text

The whole way from a source text to assembly. It ends at the first stage that finds a problem; the
three checks count as one stage, so their reports come together. Only a program without a problem is
lowered.

An outcome says what is found. It is delivered only if the lines of all its reports can be quoted
(`Outcome.ends`).
-/

namespace ScalarMips

/-- The stages of compilation. -/
inductive Stage where
  | lexing
  | parsing
  | checking
  | lowering
  | complete
  deriving DecidableEq

namespace Stage

/-- All stages in order. -/
def all : List Stage := [lexing, parsing, checking, lowering, complete]

/-- The name of a stage. -/
def name : Stage → String
  | lexing => "lexing"
  | parsing => "parsing"
  | checking => "checking"
  | lowering => "lowering"
  | complete => "complete"

end Stage

/-- What can be chosen about a compilation. -/
structure Settings where
  /-- The function to start with. -/
  entry : String := "main"
  /-- Whether the symbol tables are described. -/
  dumpSymbols : Bool := false
  /-- Whether each statement is preceded by a comment in the assembly. -/
  annotate : Bool := false
  deriving DecidableEq

/-- How a compilation ended. -/
inductive Outcome where
  /-- The text cannot be cut into tokens. -/
  | unreadable (report : Report)
  /-- The tokens are no program. -/
  | malformed (report : Report)
  /-- The checks found problems in a program with so many declarations. -/
  | rejected (declarations : Nat) (reports : List Report)
  /-- The program was not lowered; the symbols are those described before that. -/
  | unlowered (declarations : Nat) (symbols : String) (failures : List Failure)
  /-- There is an assembly. -/
  | compiled (declarations : Nat) (symbols : String) (assembly : String)

namespace Outcome

/-- The last stage that was reached. -/
def stage : Outcome → Stage
  | unreadable _ => .lexing
  | malformed _ => .parsing
  | rejected .. => .checking
  | unlowered .. => .lowering
  | compiled .. => .complete

/-- The reports in the order of their lines. -/
def reports : Outcome → List Report
  | unreadable report | malformed report => [report]
  | rejected _ reports => reports
  | unlowered .. | compiled .. => []

/-- Whether the compilation comes to an end. It does not if the quoting of lines for a report goes
on for ever. -/
def ends (o : Outcome) : Bool :=
  o.reports.all fun report ↦ report.lines.isSome

/-- How many problems were found. -/
def problemCount (o : Outcome) : Nat :=
  Report.countProblems o.reports

/-- Why lowering failed. -/
def failures : Outcome → List Failure
  | unlowered _ _ failures => failures
  | _ => []

/-- How many top-level statements the program has; zero if it could not be read. -/
def declarations : Outcome → Nat
  | unreadable _ | malformed _ => 0
  | rejected n _ | unlowered n _ _ | compiled n _ _ => n

/-- The description of the symbol tables, if it was asked for and they were filled. -/
def symbols : Outcome → String
  | unlowered _ symbols _ | compiled _ symbols _ => symbols
  | _ => ""

/-- The assembly; empty if there is none. -/
def assembly : Outcome → String
  | compiled _ _ assembly => assembly
  | _ => ""

/-- Whether there is an assembly. -/
def succeeded (o : Outcome) : Bool :=
  o.stage = .complete

end Outcome

namespace Compile

/-- The reports of the three checks. -/
def check (entry : String) (source : List String) (program : List Stmt) : List Report :=
  let declarations := Declarations.check entry program {}
  let names := Names.checkAll program { scopes := declarations.state }
  let types := Types.checkAll program declarations.state
  Report.merge <| [declarations.findings, names.findings, types.findings].map fun findings ↦
    findings.map (Finding.report source)

/-- Lowers a program that the checks have accepted. -/
def lower (settings : Settings) (program : List Stmt) : Outcome :=
  let flattened := Renaming.flatten settings.entry program
  let layout := Layout.build flattened {}
  if layout.failures.isEmpty then
    let symbols := if settings.dumpSymbols then layout.table.describe else ""
    let options : Generate.Options := { entry := settings.entry, annotate := settings.annotate }
    match Generate.program layout.table options flattened with
    | .ok code => .compiled program.length symbols code.text
    | .error failures => .unlowered program.length symbols failures
  else
    .unlowered program.length "" layout.failures

/-- The report of a single problem. -/
def single (kind : ErrorKind) (span : Span) (message : String) (source : List String) : Report :=
  .quoting kind [⟨span, message⟩] source

end Compile

/-- Compiles a source text. -/
def compile (settings : Settings) (source : String) : Outcome :=
  let lines := Source.lines source
  let lexed := lex source
  match lexed.fault with
  | some fault => .unreadable (Compile.single .lex fault.span fault.val.message lines)
  | none =>
    match parse lexed.tokens with
    | .error fault => .malformed (Compile.single .parse fault.span fault.val.message lines)
    | .ok program =>
      let reports := Compile.check settings.entry lines program
      if Report.countProblems reports = 0 then Compile.lower settings program
      else .rejected program.length reports

end ScalarMips
