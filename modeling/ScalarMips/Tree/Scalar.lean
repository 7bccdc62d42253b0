/-!
# Scalar types, operators and literals

Every value of the language is one machine word, read either as a signed integer or as a truth
value. A third type marks trees whose type is unknown, so that one mistake is reported once.
-/

namespace ScalarMips

/-- The type of a value. -/
inductive ScalarType where
  /-- A signed 32-bit integer. -/
  | int
  /-- A truth value, stored as zero or one. -/
  | bool
  /-- No type: what a tree has after a mistake inside it. -/
  | error
  deriving DecidableEq, Inhabited

namespace ScalarType

/-- All types. -/
def all : List ScalarType := [int, bool, error]

/-- The name of a type. -/
def name : ScalarType → String
  | int => "int"
  | bool => "bool"
  | error => "ERROR"

/-- Whether a type is that of a value. -/
def isConcrete (type : ScalarType) : Bool :=
  type ≠ error

end ScalarType

/-- An operator; plus and minus have one operand or two. -/
inductive Operator where
  | plus
  | minus
  | times
  | divide
  | modulo
  | and
  | or
  | not
  | equal
  | notEqual
  | less
  | lessEqual
  | greater
  | greaterEqual
  deriving DecidableEq, Inhabited

namespace Operator

/-- All operators. -/
def all : List Operator :=
  [plus, minus, times, divide, modulo, and, or, not, equal, notEqual, less, lessEqual, greater,
    greaterEqual]

/-- How an operator is written. -/
def spelling : Operator → String
  | plus => "+"
  | minus => "-"
  | times => "*"
  | divide => "/"
  | modulo => "%"
  | and => "&&"
  | or => "||"
  | not => "!"
  | equal => "=="
  | notEqual => "!="
  | less => "<"
  | lessEqual => "<="
  | greater => ">"
  | greaterEqual => ">="

end Operator

/-- A literal. It has a number and a truth value; its type says which of the two is meant. -/
structure Literal where
  /-- The type of the literal. -/
  type : ScalarType
  /-- The number, meant unless the type is `bool`. -/
  number : Int32 := 0
  /-- The truth value, meant if the type is `bool`. -/
  truth : Bool := false
  deriving DecidableEq, Inhabited

/-- The word that stands for a truth value. -/
def wordOfBool (b : Bool) : Int32 :=
  if b then 1 else 0

/-- The word a literal stands for. -/
def Literal.word (l : Literal) : Int32 :=
  if l.type = .bool then wordOfBool l.truth else l.number

end ScalarMips
