import ScalarMips.Numeral
import ScalarMips.Tree.Scalar

/-!
# Failures of lowering

Laying out storage and generating code rely on what the checks have established. A tree that was
never checked can break these promises; each broken one is recorded with the function in which it
was met, and the walk goes on.
-/

namespace ScalarMips

/-- Why storage cannot be laid out. -/
inductive LayoutFault where
  /-- Two declarations of one table have the name of this variable. -/
  | duplicateName (name : String)
  /-- Two global declarations have the name of this function. -/
  | duplicateFunction (name : String)
  /-- Two parameters of a function have one name. -/
  | duplicateParameter (name : String)
  /-- A global variable has no type. -/
  | untypedGlobal (name : String)
  /-- A local variable has no type. -/
  | untypedLocal (name : String)
  /-- A function is declared inside a function. -/
  | nestedFunction (name : String)
  deriving DecidableEq

namespace LayoutFault

/-- The stable code of a fault. -/
def code : LayoutFault → String
  | duplicateName _ | duplicateFunction _ | duplicateParameter _ => "BAD-E4001"
  | untypedGlobal _ | untypedLocal _ => "BAD-E4002"
  | nestedFunction _ => "BAD-E4003"

/-- The text of a fault. -/
def detail : LayoutFault → String
  | duplicateName name => "Name '" ++ name ++ "' is declared more than once."
  | duplicateFunction name => "Function '" ++ name ++ "' is declared more than once."
  | duplicateParameter name => "Parameter '" ++ name ++ "' is declared more than once."
  | untypedGlobal name => "Global '" ++ name ++ "' has no concrete type."
  | untypedLocal name => "Local '" ++ name ++ "' has no concrete type."
  | nestedFunction name => "Function '" ++ name ++ "' is nested inside another function."

end LayoutFault

/-- Why code cannot be generated. -/
inductive EmissionFault where
  /-- The word size asked for is not the one of the symbol table. -/
  | wordSizeMismatch (wanted actual : UInt32)
  /-- The entry point is no function of the symbol table. -/
  | missingEntry (name : String)
  /-- A function of the tree is none of the symbol table. -/
  | missingFunction (name : String)
  /-- A called name is no function of the symbol table. -/
  | missingCallee (name : String)
  /-- A variable is in no symbol table. -/
  | missingVariable (name : String)
  /-- An operator stands before its only operand and cannot. -/
  | notUnary (op : Operator)
  /-- An operator stands between two operands and cannot. -/
  | notBinary (op : Operator)
  /-- A function is declared inside a function. -/
  | nestedFunction (name : String)
  /-- A statement of the given kind stands at the top level. -/
  | topLevelStatement (kind : String)
  /-- A literal has no type. -/
  | untypedLiteral
  deriving DecidableEq

namespace EmissionFault

/-- The stable code of a fault. -/
def code : EmissionFault → String
  | wordSizeMismatch .. => "BAD-E4200"
  | missingEntry _ | missingFunction _ | missingCallee _ | missingVariable _ => "BAD-E4201"
  | notUnary _ | notBinary _ => "BAD-E4202"
  | nestedFunction _ => "BAD-E4203"
  | topLevelStatement _ => "BAD-E4205"
  | untypedLiteral => "BAD-E4206"

/-- The text of a fault. -/
def detail : EmissionFault → String
  | wordSizeMismatch wanted actual =>
    "Word size " ++ Numeral.ofSize wanted ++ " does not match the symbol table word size " ++
      Numeral.ofSize actual ++ "."
  | missingEntry name => "Entry function '" ++ name ++ "' is not in the symbol table."
  | missingFunction name => "Function '" ++ name ++ "' is not in the symbol table."
  | missingCallee name => "Call target '" ++ name ++ "' is not a function in the symbol table."
  | missingVariable name => "Variable '" ++ name ++ "' is not in any symbol table."
  | notUnary op => "Operator '" ++ op.spelling ++ "' is not a unary operator."
  | notBinary op => "Operator '" ++ op.spelling ++ "' is not a binary operator."
  | nestedFunction name => "Function '" ++ name ++ "' is nested inside another function."
  | topLevelStatement kind => "Top-level " ++ kind ++ " statement cannot be lowered."
  | untypedLiteral => "Literal has no concrete type."

end EmissionFault

/-- A broken promise of an earlier pass. -/
inductive Fault where
  | layout (fault : LayoutFault)
  | emission (fault : EmissionFault)
  deriving DecidableEq

namespace Fault

/-- The stable code of a fault. -/
def code : Fault → String
  | layout fault => fault.code
  | emission fault => fault.code

/-- The text of a fault. -/
def detail : Fault → String
  | layout fault => fault.detail
  | emission fault => fault.detail

end Fault

/-- A fault and where it was met. -/
structure Failure where
  /-- The function being visited; empty outside of functions. -/
  function : String
  /-- The fault. -/
  fault : Fault
  deriving DecidableEq

end ScalarMips
