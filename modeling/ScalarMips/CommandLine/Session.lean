import ScalarMips.CommandLine.Options
import ScalarMips.Compile
import ScalarMips.Report.Render

/-!
# A run of the compiler

What the compiler writes and leaves behind, as a function of its arguments and of the files it
finds. Everything is decided before any file is touched: `plan` says what is printed and which file,
if any, is to be written. Only the opening of that file can still fail, so a plan holds what is
printed in either case. A compilation that does not come to an end has a plan as well, by which
nothing is ever done.

Which file a path leads to, and whether it can be opened, is not for the compiler to decide. A run
is therefore given the `Paths` of the system beside the contents of its files.

The assembly goes to the standard output unless an output file is named. Progress is printed where
the assembly does not go; problems always go to the standard error.
-/

namespace ScalarMips.CommandLine

/-! ### What is printed -/

/-- What is written to the two standard streams. -/
structure Transcript where
  /-- The text on the standard output. -/
  out : String := ""
  /-- The text on the standard error. -/
  err : String := ""
  deriving DecidableEq

namespace Transcript

instance : Append Transcript where
  append first second := ⟨first.out ++ second.out, first.err ++ second.err⟩

/-- Text on the standard output. -/
def print (text : String) : Transcript :=
  { out := text }

/-- Text on the standard error. -/
def complain (text : String) : Transcript :=
  { err := text }

end Transcript

/-- Whether the assembly goes to the standard output. -/
def Options.toStdout (o : Options) : Bool :=
  o.output.isEmpty

/-- Text on the stream for everything beside the assembly. -/
def Options.log (o : Options) (text : String) : Transcript :=
  if o.toStdout then .complain text else .print text

/-- Text about the progress, unless it is not wanted. -/
def Options.progress (o : Options) (text : String) : Transcript :=
  if o.quiet then {} else o.log text

/-- The help text. -/
def helpText : String :=
  "badc - badlang to MIPS compiler\n" ++
  "Usage: badc [options] <input>\n\n" ++
  "Options:\n" ++
  "  --help                 Show this help text and exit.\n" ++
  "  --version              Show version information and exit.\n" ++
  "  --entry=<name>         Entry-point function. Default: main.\n" ++
  "  --dump-symbols         Print the flat symbol tables after layout.\n" ++
  "  --annotate             Precede each statement's code with a source comment.\n" ++
  "  --quiet                Suppress progress lines.\n" ++
  "  -o <path>              Write assembly to the specified path instead of stdout.\n"

/-- The version text. -/
def versionText : String :=
  "badc 1.0 (build profile: local)\n" ++
  "Target: MIPS32 stack machine, word size " ++ Numeral.ofSize ({} : SymbolTable).wordSize ++ "\n"

/-- The first lines about the progress. -/
def startText (o : Options) : String :=
  "[information] Starting badc pipeline.\n" ++
  "  input: " ++ o.input ++ "\n" ++
  "  entry: " ++ o.entry ++ "\n" ++
  if o.toStdout then "" else "  output: " ++ o.output ++ "\n"

/-- All reports between two lines with the number of problems; there is no text if a report has
none. -/
def reportText (outcome : Outcome) : Option String :=
  let count := outcome.problemCount.repr ++ " errors\n"
  (outcome.reports.mapM Report.render).map fun texts ↦
    "\n" ++ count ++ "\n" ++ String.join (texts.map (· ++ "\n")) ++ count

/-- The last line about a compilation that did not succeed. -/
def haltText (outcome : Outcome) : String :=
  "BAD-W3001 Pipeline halted during " ++ outcome.stage.name ++ ".\n"

/-- The lines about a program that was checked and not lowered. -/
def failureText (o : Options) (failures : List Failure) : String :=
  "BAD-E4000 LoweringFailed: '" ++ o.input ++ "' passed checking but could not be lowered.\n" ++
    String.join (failures.map fun failure ↦
      failure.fault.code ++ " invariant violation in function '" ++ failure.function ++ "': " ++
        failure.fault.detail ++ "\n")

/-! ### What is done -/

/-- How a run ends. -/
structure Ending where
  /-- The exit code. -/
  exit : UInt32
  /-- What is printed. -/
  transcript : Transcript
  deriving DecidableEq

/-- What a run is going to do. -/
inductive Plan where
  /-- Go on for ever. -/
  | endless
  /-- Print and end. -/
  | stop (ending : Ending)
  /-- Write a file and end, depending on whether the file could be opened. -/
  | write (path content : String) (written refused : Ending)

/-- The plan after a successful compilation. -/
def deliver (o : Options) (before : Transcript) (declarations : Nat) (symbols assembly : String) :
    Plan :=
  let checked := before ++
    o.progress ("[notice] Checked " ++ declarations.repr ++ " top-level declarations.\n") ++
    if o.dumpSymbols then o.log ("[debug] Symbol tables:\n" ++ symbols) else {}
  if o.toStdout then
    .stop ⟨0, checked ++ .print assembly⟩
  else
    .write o.output assembly
      ⟨0, checked ++ o.progress ("[notice] Assembly written to " ++ o.output ++ ".\n")⟩
      ⟨1, checked ++
        .complain ("BAD-E3001 OutputWriteFailed: unable to open '" ++ o.output ++ "'.\n")⟩

/-- The settings that the options ask for. -/
def Options.settings (o : Options) : Settings :=
  { entry := o.entry, dumpSymbols := o.dumpSymbols, annotate := o.annotate }

/-- The plan to compile an input file; it has no content if it could not be opened. -/
def compilePlan (o : Options) (content : Option String) : Plan :=
  let start := o.progress (startText o)
  match content with
  | none =>
    .stop ⟨1, start ++
      .complain ("BAD-E3000 InputReadFailed: unable to open '" ++ o.input ++ "'.\n")⟩
  | some source =>
    match compile o.settings source with
    | .compiled declarations symbols assembly => deliver o start declarations symbols assembly
    | .unlowered declarations symbols failures =>
      .stop ⟨1, start ++ .complain
        (failureText o failures ++ haltText (.unlowered declarations symbols failures))⟩
    | outcome =>
      match reportText outcome with
      | some text => .stop ⟨1, start ++ .complain (text ++ haltText outcome)⟩
      | none => .endless

/-- The plan for arguments, with a way to find the content of the input file. -/
def plan (arguments : List String) (read : String → Option String) : Plan :=
  match Options.parse arguments with
  | .error e => .stop ⟨1, .complain (e.message ++ "\n")⟩
  | .ok o =>
    if o.help then .stop ⟨0, .print helpText⟩
    else if o.version then .stop ⟨0, .print versionText⟩
    else compilePlan o (read o.input)

/-! ### Files -/

/-- Where the paths of a system lead. Different paths may lead to one file, and a path leads nowhere
if no file can be opened under it. -/
structure Paths (File : Type) where
  /-- The file that is opened under a path to be read. -/
  source? : String → Option File
  /-- The file that is opened under a path to be written, whether or not it is there before. -/
  target? : String → Option File

/-- The contents of the files that are there. -/
abbrev Files (File : Type) : Type := File → Option String

namespace Files

variable {File : Type}

/-- The content that is read under a path. -/
def read? (files : Files File) (paths : Paths File) (path : String) : Option String :=
  (paths.source? path).bind files

/-- Gives a file a content. -/
def write [DecidableEq File] (files : Files File) (file : File) (content : String) : Files File :=
  fun other ↦ if other = file then some content else files other

end Files

/-- Runs the compiler on the files of a system; gives how the run ends and what the files hold then,
if it ends. -/
def run {File : Type} [DecidableEq File] (paths : Paths File) (arguments : List String)
    (files : Files File) : Option (Ending × Files File) :=
  match plan arguments (files.read? paths) with
  | .endless => none
  | .stop ending => some (ending, files)
  | .write path content written refused =>
    match paths.target? path with
    | some file => some (written, files.write file content)
    | none => some (refused, files)

end ScalarMips.CommandLine
