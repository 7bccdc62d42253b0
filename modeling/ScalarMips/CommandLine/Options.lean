/-!
# Command-line options

The arguments of the compiler: one input file, and options in any order around it. Options are read
from left to right; of several that set one thing the last counts. A request for help or for the
version ends the reading at once, whatever follows it.
-/

namespace ScalarMips.CommandLine

/-- What the arguments ask for. -/
structure Options where
  /-- The file to compile. -/
  input : String := ""
  /-- Where the assembly goes; empty for the standard output. -/
  output : String := ""
  /-- The function to start with. -/
  entry : String := "main"
  /-- Show the help text and stop. -/
  help : Bool := false
  /-- Show the version and stop. -/
  version : Bool := false
  /-- Describe the symbol tables. -/
  dumpSymbols : Bool := false
  /-- Precede each statement's code with a comment. -/
  annotate : Bool := false
  /-- Say nothing about the progress. -/
  quiet : Bool := false
  deriving DecidableEq

/-- Why arguments cannot be read. -/
inductive UsageError where
  /-- The output option is the last argument. -/
  | missingOutput
  /-- There is no such option. -/
  | unknownOption (argument : String)
  /-- There is no input file. -/
  | missingInput
  /-- There is more than one input file. -/
  | multipleInputs
  /-- The entry option names nothing. -/
  | emptyEntry
  deriving DecidableEq

/-- The text of a usage error. -/
def UsageError.message : UsageError → String
  | missingOutput => "BAD-E1000 MissingOutput: expected path after -o option."
  | unknownOption argument =>
    "BAD-E1001 UnknownOption: unrecognised option '" ++ argument ++ "'."
  | missingInput => "BAD-E1002 MissingInput: an input file is required."
  | multipleInputs =>
    "BAD-E1003 MultipleInputs: only one source file may be compiled at a time."
  | emptyEntry => "BAD-E1004 EmptyEntry: --entry requires a function name."

namespace Options

/-- What follows `lead` in an argument that starts with it. -/
def following? (lead argument : String) : Option String :=
  (lead.toList.isPrefixOf? argument.toList).map String.ofList

/-- Takes an argument that is no option as the input file. -/
def takeInput (o : Options) (argument : String) : Except UsageError Options :=
  if argument.toList.head? = some '-' then .error (.unknownOption argument)
  else if o.input.isEmpty then .ok { o with input := argument }
  else .error .multipleInputs

/-- Takes the name given with the entry option. -/
def takeEntry (o : Options) (entry : String) : Except UsageError Options :=
  if entry.isEmpty then .error .emptyEntry else .ok { o with entry }

/-- Reads arguments on top of the options read so far. -/
def parseFrom (o : Options) : List String → Except UsageError Options
  | [] => if o.input.isEmpty then .error .missingInput else .ok o
  | argument :: rest =>
    if argument = "--help" then .ok { o with help := true }
    else if argument = "--version" then .ok { o with version := true }
    else if argument = "--dump-symbols" then parseFrom { o with dumpSymbols := true } rest
    else if argument = "--annotate" then parseFrom { o with annotate := true } rest
    else if argument = "--quiet" then parseFrom { o with quiet := true } rest
    else
      match following? "--entry=" argument, following? "-o" argument, rest with
      | some entry, _, rest => do parseFrom (← o.takeEntry entry) rest
      | none, none, rest => do parseFrom (← o.takeInput argument) rest
      | none, some "", [] => .error .missingOutput
      | none, some "", path :: rest => parseFrom { o with output := path } rest
      | none, some path, rest => parseFrom { o with output := path } rest

/-- Reads the arguments of the compiler. -/
def parse (arguments : List String) : Except UsageError Options :=
  parseFrom {} arguments

end Options

end ScalarMips.CommandLine
