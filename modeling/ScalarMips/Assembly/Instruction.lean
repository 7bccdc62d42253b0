import ScalarMips.Assembly.Line

/-!
# Instructions

The part of the MIPS32 instruction set that generated code uses. Immediate operands and the
magnitudes of address offsets are unsigned words; an offset is added to its base register or
subtracted from it.
-/

namespace ScalarMips

/-- A register. -/
inductive Register where
  /-- Always zero. -/
  | zero
  /-- Returned values and the number of a system service. -/
  | v0
  /-- The argument of a system service. -/
  | a0
  /-- Scratch: the left operand and the result of an operation. -/
  | t0
  /-- Scratch: the right operand of an operation. -/
  | t1
  /-- The top of the stack, which grows downwards. -/
  | sp
  /-- The frame of the running function. -/
  | fp
  /-- Where the running function returns to. -/
  | ra
  deriving DecidableEq

/-- How a register is written. -/
def Register.name : Register → String
  | zero => "$zero"
  | v0 => "$v0"
  | a0 => "$a0"
  | t0 => "$t0"
  | t1 => "$t1"
  | sp => "$sp"
  | fp => "$fp"
  | ra => "$ra"

/-- A place in memory. -/
inductive Address where
  /-- At some distance above the address in a register. -/
  | above (offset : UInt32) (base : Register)
  /-- At some distance below the address in a register. -/
  | below (offset : UInt32) (base : Register)
  /-- The word with a label. -/
  | label (name : String)
  deriving DecidableEq

/-- How an address is written. -/
def Address.text : Address → String
  | above offset base => Numeral.ofSize offset ++ "(" ++ base.name ++ ")"
  | below offset base => "-" ++ Numeral.ofSize offset ++ "(" ++ base.name ++ ")"
  | label name => name

/-- An operation on two registers. -/
inductive RegisterOp where
  | addu
  | subu
  | mul
  | and
  | or
  | xor
  | slt
  | sltu
  deriving DecidableEq

/-- The opcode of an operation on two registers. -/
def RegisterOp.opcode : RegisterOp → String
  | addu => "addu"
  | subu => "subu"
  | mul => "mul"
  | and => "and"
  | or => "or"
  | xor => "xor"
  | slt => "slt"
  | sltu => "sltu"

/-- An operation on a register and a constant. -/
inductive ImmediateOp where
  | addiu
  | subu
  | xori
  | sltiu
  deriving DecidableEq

/-- The opcode of an operation on a register and a constant. -/
def ImmediateOp.opcode : ImmediateOp → String
  | addiu => "addiu"
  | subu => "subu"
  | xori => "xori"
  | sltiu => "sltiu"

/-- An instruction. -/
inductive Instruction where
  /-- Loads a constant. -/
  | li (target : Register) (value : Int32)
  /-- Loads a word from memory. -/
  | lw (target : Register) (address : Address)
  /-- Stores a word to memory. -/
  | sw (source : Register) (address : Address)
  /-- Copies a register. -/
  | move (target source : Register)
  /-- Computes from two registers. -/
  | compute (op : RegisterOp) (target left right : Register)
  /-- Computes from a register and a constant. -/
  | immediate (op : ImmediateOp) (target source : Register) (amount : UInt32)
  /-- Divides; quotient and remainder go to two registers of their own. -/
  | div (left right : Register)
  /-- Fetches the quotient of the last division. -/
  | mflo (target : Register)
  /-- Fetches the remainder of the last division. -/
  | mfhi (target : Register)
  /-- Goes to a label if two registers are equal. -/
  | beq (left right : Register) (label : String)
  /-- Goes to a label. -/
  | j (label : String)
  /-- Calls the function at a label. -/
  | jal (label : String)
  /-- Goes to the address in a register. -/
  | jr (target : Register)
  /-- Asks for a system service. -/
  | syscall
  deriving DecidableEq

/-- How an instruction is written. -/
def Instruction.mnemonic : Instruction → Mnemonic
  | li target value => ⟨"li", target.name ++ ", " ++ Numeral.ofWord value⟩
  | lw target address => ⟨"lw", target.name ++ ", " ++ address.text⟩
  | sw source address => ⟨"sw", source.name ++ ", " ++ address.text⟩
  | move target source => ⟨"move", target.name ++ ", " ++ source.name⟩
  | compute op target left right =>
    ⟨op.opcode, target.name ++ ", " ++ left.name ++ ", " ++ right.name⟩
  | immediate op target source amount =>
    ⟨op.opcode, target.name ++ ", " ++ source.name ++ ", " ++ Numeral.ofSize amount⟩
  | div left right => ⟨"div", left.name ++ ", " ++ right.name⟩
  | mflo target => ⟨"mflo", target.name⟩
  | mfhi target => ⟨"mfhi", target.name⟩
  | beq left right label => ⟨"beq", left.name ++ ", " ++ right.name ++ ", " ++ label⟩
  | j label => ⟨"j", label⟩
  | jal label => ⟨"jal", label⟩
  | jr target => ⟨"jr", target.name⟩
  | syscall => ⟨"syscall", ""⟩

/-- Generated code: lines with typed instructions. -/
abbrev Code : Type := List (Line Instruction)

/-- The text of generated code. -/
def Code.text (code : Code) : String :=
  Listing.render (code.map fun line ↦ line.map Instruction.mnemonic)

end ScalarMips
