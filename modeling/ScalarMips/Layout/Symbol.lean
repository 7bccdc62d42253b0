import ScalarMips.Numeral
import ScalarMips.Tree.Scalar

/-!
# Symbol tables

Where every name of a program is stored. A table lists its symbols in the order of their insertion;
no two of them have one name. A function has a table of its own, for its parameters and local
variables, with the same word size.

Variables and parameters get their offsets from two sequences that do not depend on each other: the
offset of a new variable is the size of all variables before it, and likewise for parameters. The
sizes are not stored but counted (`localSize`, `parameterSize`). All sizes wrap at 32 bits.
-/

namespace ScalarMips

/-- An entry of a symbol table. -/
inductive Symbol where
  /-- A variable, with its initial value if that is known. -/
  | var (name : String) (type : ScalarType) (offset : UInt32) (initial : Option Int32)
  /-- A parameter of the function that owns the table. -/
  | parameter (name : String) (type : ScalarType) (offset : UInt32)
  /-- A function, with the symbols of its own table. -/
  | function (name : String) (type : ScalarType) (locals : List Symbol)
  deriving Inhabited

namespace Symbol

/-- The name of a symbol. -/
def name : Symbol → String
  | var name .. | parameter name .. | function name .. => name

/-- The type of a variable or parameter, or the one a function returns. -/
def type : Symbol → ScalarType
  | var _ type .. | parameter _ type .. | function _ type .. => type

/-- The offset of a variable or parameter; a function has none, which counts as zero. -/
def offset : Symbol → UInt32
  | var _ _ offset _ | parameter _ _ offset => offset
  | function .. => 0

/-- The initial value of a variable, if it is known. -/
def initial? : Symbol → Option Int32
  | var _ _ _ initial => initial
  | _ => none

/-- The symbols of a function's own table. -/
def locals? : Symbol → Option (List Symbol)
  | function _ _ locals => some locals
  | _ => none

/-- Whether a symbol is a variable. -/
def isVar : Symbol → Bool
  | var .. => true
  | _ => false

/-- Whether a symbol is a parameter. -/
def isParameter : Symbol → Bool
  | parameter .. => true
  | _ => false

/-- Whether a symbol is a function. -/
def isFunction : Symbol → Bool
  | function .. => true
  | _ => false

/-- The words for the kinds of symbols. -/
def kindNames : List String := ["variable", "parameter", "function"]

/-- The word for the kind of a symbol. -/
def kindName : Symbol → String
  | var .. => "variable"
  | parameter .. => "parameter"
  | function .. => "function"

end Symbol

/-- A table of symbols. -/
structure SymbolTable where
  /-- The size of a word in bytes. -/
  wordSize : UInt32 := 4
  /-- The symbols in the order of their insertion. -/
  symbols : List Symbol := []
  deriving Inhabited

namespace SymbolTable

/-! ### Looking up -/

/-- The symbol with a given name. -/
def find? (t : SymbolTable) (name : String) : Option Symbol :=
  t.symbols.find? fun s ↦ s.name = name

/-- Whether some symbol has a given name. -/
def contains (t : SymbolTable) (name : String) : Bool :=
  (t.find? name).isSome

/-- The variables in the order of their insertion. -/
def vars (t : SymbolTable) : List Symbol :=
  t.symbols.filter Symbol.isVar

/-- The parameters in the order of their insertion. -/
def parameters (t : SymbolTable) : List Symbol :=
  t.symbols.filter Symbol.isParameter

/-- The functions in the order of their insertion. -/
def functions (t : SymbolTable) : List Symbol :=
  t.symbols.filter Symbol.isFunction

/-- The size of `n` words. -/
def words (t : SymbolTable) (n : Nat) : UInt32 :=
  UInt32.ofNat n * t.wordSize

/-- The size of all variables. -/
def localSize (t : SymbolTable) : UInt32 :=
  t.words t.vars.length

/-- The size of all parameters. -/
def parameterSize (t : SymbolTable) : UInt32 :=
  t.words t.parameters.length

/-- The table of a function. -/
def locals? (t : SymbolTable) (function : String) : Option SymbolTable :=
  ((t.find? function).bind Symbol.locals?).map fun symbols ↦ { t with symbols }

/-! ### Inserting -/

/-- Adds a symbol whose name is not yet in use. -/
def put? (t : SymbolTable) (symbol : Symbol) : Option SymbolTable :=
  if t.contains symbol.name then none else some { t with symbols := t.symbols ++ [symbol] }

/-- Adds a variable. -/
def putVar? (t : SymbolTable) (name : String) (type : ScalarType) (initial : Option Int32) :
    Option SymbolTable :=
  t.put? (.var name type t.localSize initial)

/-- Adds a parameter. -/
def putParameter? (t : SymbolTable) (name : String) (type : ScalarType) : Option SymbolTable :=
  t.put? (.parameter name type t.parameterSize)

/-- Adds a function with the symbols of its own table. -/
def putFunction? (t : SymbolTable) (name : String) (type : ScalarType) (locals : List Symbol) :
    Option SymbolTable :=
  t.put? (.function name type locals)

/-! ### Nested tables -/

/-- Replaces the table of a function. -/
def setLocals (t : SymbolTable) (function : String) (locals : List Symbol) : SymbolTable :=
  { t with
    symbols := t.symbols.map fun
      | .function name type old => .function name type (if name = function then locals else old)
      | symbol => symbol }

/-- The table reached by going from function to function along a path. -/
def at? (t : SymbolTable) : List String → Option SymbolTable
  | [] => some t
  | function :: path => (t.locals? function).bind fun locals ↦ locals.at? path

/-- Changes the table at the end of a path. -/
def updateAt? (change : SymbolTable → Option SymbolTable) (t : SymbolTable) :
    List String → Option SymbolTable
  | [] => change t
  | function :: path =>
    (t.locals? function).bind fun locals ↦
      (locals.updateAt? change path).map fun after ↦ t.setLocals function after.symbols

/-! ### Describing -/

/-- What a description says of a symbol after its kind. -/
def describeStorage (wordSize : UInt32) : Symbol → String
  | .var _ _ offset none => ", offset=" ++ Numeral.ofSize offset
  | .var _ _ offset (some initial) =>
    ", offset=" ++ Numeral.ofSize offset ++ ", initial=" ++ Numeral.ofWord initial
  | .parameter _ _ offset => ", offset=" ++ Numeral.ofSize offset
  | .function _ _ locals =>
    ", locals=" ++ Numeral.ofSize (SymbolTable.mk wordSize locals).localSize

/-- The line that describes a symbol. -/
def describeLine (wordSize : UInt32) (indent : Nat) (s : Symbol) : String :=
  String.ofList (List.replicate indent ' ') ++ s.name ++ " : " ++ s.type.name ++ " (" ++
    s.kindName ++ ")" ++ describeStorage wordSize s ++ "\n"

mutual

/-- The description of a symbol, followed by that of its own table. -/
def describeSymbol (wordSize : UInt32) (indent : Nat) : Symbol → String
  | .var name type offset initial => describeLine wordSize indent (.var name type offset initial)
  | .parameter name type offset => describeLine wordSize indent (.parameter name type offset)
  | .function name type locals =>
    describeLine wordSize indent (.function name type locals) ++
      describeSymbols wordSize (indent + 4) locals

/-- The descriptions of symbols one after the other. -/
def describeSymbols (wordSize : UInt32) (indent : Nat) : List Symbol → String
  | [] => ""
  | s :: symbols => describeSymbol wordSize indent s ++ describeSymbols wordSize indent symbols

end

/-- The description of a table: a line for each symbol, nested tables indented by four. -/
def describe (t : SymbolTable) : String :=
  describeSymbols t.wordSize 0 t.symbols

end SymbolTable

end ScalarMips
