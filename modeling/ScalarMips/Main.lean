import ScalarMips.CommandLine.Session

/-!
# The compiler as a command

Reads the arguments and the input file, and carries out the plan made for them. The library works on
texts whose characters stand for bytes; here bytes become such characters and back.
-/

namespace ScalarMips.Command

/-- The text whose characters are the given bytes. -/
def ofBytes (bytes : ByteArray) : String :=
  String.ofList (bytes.toList.map fun byte ↦ Char.ofNat byte.toNat)

/-- The bytes that the characters of a text stand for. -/
def toBytes (text : String) : ByteArray :=
  ByteArray.mk (text.toList.map fun c ↦ UInt8.ofNat c.toNat).toArray

/-- The path that a text of bytes spells. -/
def toPath (text : String) : String :=
  (String.fromUTF8? (toBytes text)).getD text

/-- The content of a file, if it can be opened. -/
def readFile? (path : String) : IO (Option String) := do
  try
    return some (ofBytes (← IO.FS.readBinFile (toPath path)))
  catch _ =>
    return none

/-- Writes a file and says whether it could be opened. -/
def writeFile (path content : String) : IO Bool := do
  try
    IO.FS.writeBinFile (toPath path) (toBytes content)
    return true
  catch _ =>
    return false

/-- Prints what a run prints and gives its exit code. -/
def finish (ending : CommandLine.Ending) : IO UInt32 := do
  (← IO.getStdout).write (toBytes ending.transcript.out)
  (← IO.getStderr).write (toBytes ending.transcript.err)
  return ending.exit

/-- Runs the compiler on arguments given as texts of bytes. -/
def run (arguments : List String) : IO UInt32 := do
  let content ←
    match CommandLine.Options.parse arguments with
    | .ok options => readFile? options.input
    | .error _ => pure none
  match CommandLine.plan arguments fun _ ↦ content with
  | .endless => throw (.userError "the lines of a report cannot be quoted")
  | .stop ending => finish ending
  | .write path content written refused =>
    finish (if ← writeFile path content then written else refused)

end ScalarMips.Command

/-- The compiler. -/
def main (arguments : List String) : IO UInt32 :=
  ScalarMips.Command.run (arguments.map fun argument ↦ ScalarMips.Command.ofBytes argument.toUTF8)
