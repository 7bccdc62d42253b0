import ScalarMips.Numeral

/-!
# Lines of assembly

An assembly text is a list of lines. A line is generic in its instructions: a listing holds
instructions as they are written, an opcode and its operands (`Mnemonic`), and generated code holds
typed ones, which are turned into mnemonics by `Line.map`.
-/

namespace ScalarMips

/-- An instruction as it is written. -/
structure Mnemonic where
  /-- The operation. -/
  opcode : String
  /-- What it works on; empty if it takes no operands. -/
  operands : String := ""
  deriving DecidableEq

/-- A line of assembly with instructions of type `ι`. -/
inductive Line (ι : Type) where
  /-- An order to the assembler. -/
  | directive (text : String)
  /-- A name for the place of the next instruction. -/
  | label (name : String)
  /-- A named word of data. -/
  | word (name : String) (value : Int32)
  /-- An instruction. -/
  | instruction (instruction : ι)
  /-- A comment. -/
  | comment (text : String)
  /-- An empty line. -/
  | blank
  deriving DecidableEq

namespace Line

variable {ι κ : Type}

/-- The same line with its instruction replaced. -/
def map (f : ι → κ) : Line ι → Line κ
  | directive text => directive text
  | label name => label name
  | word name value => word name value
  | instruction i => instruction (f i)
  | comment text => comment text
  | blank => blank

/-- Whether a line is an instruction. -/
def isInstruction : Line ι → Bool
  | instruction _ => true
  | _ => false

/-- Whether a line is a comment. -/
def isComment : Line ι → Bool
  | comment _ => true
  | _ => false

/-- The text of a line, without its line end. Instructions and comments are indented. -/
def render : Line Mnemonic → String
  | directive text => text
  | label name => name ++ ":"
  | word name value => name ++ ": .word " ++ Numeral.ofWord value
  | instruction ⟨opcode, operands⟩ =>
    if operands.isEmpty then "    " ++ opcode else "    " ++ opcode ++ " " ++ operands
  | comment text => "    # " ++ text
  | blank => ""

end Line

/-- Lines as they are written. -/
abbrev Listing : Type := List (Line Mnemonic)

namespace Listing

/-- The text of a listing. -/
def render (listing : Listing) : String :=
  String.join (listing.map fun line ↦ line.render ++ "\n")

/-- How many of the lines are instructions. -/
def instructionCount (listing : Listing) : Nat :=
  listing.countP Line.isInstruction

end Listing

end ScalarMips
