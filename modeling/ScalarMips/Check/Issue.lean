import ScalarMips.Numeral
import ScalarMips.Report.Basic
import ScalarMips.Scope

/-!
# What the checks complain about

The causes for which a tree is rejected, and their wording. A check groups the complaints about one
statement into a *finding*, and a finding becomes one report.

`Pass` is the shape of every check: it walks the tree with a state and leaves findings behind. The
findings of two passes one after the other are the findings of the first followed by those of the
second, so that a walk has no finding exactly when none of its parts has one
(`Pass.findings_andThen_eq_nil`). A pass also counts the problems as it files them.
-/

namespace ScalarMips

/-! ### Causes -/

/-- Why a tree is rejected. -/
inductive Issue where
  /-- A statement that is no declaration stands at the top level. -/
  | globalStatement
  /-- A function is called in the initial value of a global variable. -/
  | callInInitialValue
  /-- There is no function with the name of the entry point. -/
  | missingEntry (entry : String)
  /-- Two functions have one name. -/
  | functionRedeclared (name : String)
  /-- A function has the name of a global variable declared before it. -/
  | functionIsVariable (name : String)
  /-- A parameter has the name of a function. -/
  | parameterIsFunction (name : String)
  /-- Two parameters of a function have one name. -/
  | parameterRedeclared (name : String)
  /-- A variable is declared twice in one scope. -/
  | variableRedeclared (name : String)
  /-- A variable has the name of a function. -/
  | variableIsFunction (name : String)
  /-- A name of the given kind was never declared; perhaps another name was meant. -/
  | undeclared (kind : IdentifierKind) (name : String) (suggestion : Option String)
  /-- A function is assigned to. -/
  | functionAssigned (name : String)
  /-- A function is named without being called. -/
  | functionNotCalled (name : String)
  /-- A variable is read before it has a value. -/
  | uninitialized (name : String)
  /-- A variable is called. -/
  | variableCalled (name : String)
  /-- The initial value of a variable has the wrong type. -/
  | initialValue (name : String) (expected actual : ScalarType)
  /-- An assigned value has the wrong type. -/
  | assignedValue (name : String) (expected actual : ScalarType)
  /-- A return statement stands outside every function. -/
  | returnOutside
  /-- A returned value has the wrong type. -/
  | returnedValue (expected actual : ScalarType)
  /-- A condition is an integer. -/
  | integerCondition
  /-- The operand of a unary operator has the wrong type. -/
  | unaryOperand (op : Operator) (expected actual : ScalarType)
  /-- An operand of a binary operator has the wrong type. -/
  | binaryOperand (op : Operator) (expected actual : ScalarType)
  /-- The operands of an equality have different types. -/
  | mixedOperands (op : Operator) (left right : ScalarType)
  /-- An operator stands between two operands and cannot. -/
  | notBinary
  /-- A call has the wrong number of arguments. -/
  | argumentCount (function : String) (expected given : Nat)
  /-- An argument has the wrong type. -/
  | argument (parameter : String) (expected actual : ScalarType)
  deriving DecidableEq

/-- The word that starts a message about a name of some kind. -/
def IdentifierKind.noun : IdentifierKind → String
  | .var => "Variable"
  | .fn => "Function"

/-- The text of a complaint. -/
def Issue.message : Issue → String
  | globalStatement =>
    "Global statements are not allowed; all executable statements must appear inside of a function."
  | callInInitialValue =>
    "Global variable initial values must be constant; this is not a constant value."
  | missingEntry entry =>
    "No " ++ entry ++ " function found; program must have a " ++ entry ++
      " function as the entry point."
  | functionRedeclared name =>
    "Function '" ++ name ++ "' was previously declared; functions cannot be redeclared."
  | functionIsVariable name =>
    "Identifier " ++ name ++
      " was previously used to define a variable; variables and functions cannot share names."
  | parameterIsFunction name =>
    "Parameter " ++ name ++
      " shares an identifier with a function; parameters and functions cannot share names."
  | parameterRedeclared name =>
    "Parameter " ++ name ++
      " is already used for this function; cannot have duplicate parameter names."
  | variableRedeclared name =>
    "Variable '" ++ name ++
      "' was previously declared in this scope; cannot redeclare variables."
  | variableIsFunction name =>
    "Variable '" ++ name ++
      "' was previously declared as a function; variables and functions cannot share identifiers."
  | undeclared kind name none =>
    kind.noun ++ " '" ++ name ++ "' was used but never declared."
  | undeclared kind name (some suggestion) =>
    kind.noun ++ " '" ++ name ++ "' was used but never declared. Did you mean '" ++ suggestion ++
      "'?"
  | functionAssigned name =>
    "Identifier '" ++ name ++ "' was declared as a function but assigned as a variable."
  | functionNotCalled name =>
    "Function '" ++ name ++ "' was referenced without being called. Must use '()' to call a " ++
      "function (i.e., '[identifier]()')."
  | uninitialized name => "Variable '" ++ name ++ "' was used but never initialized."
  | variableCalled name =>
    "Identifier '" ++ name ++ "' was declared as a variable but used as a function."
  | initialValue name expected actual =>
    "Variable '" ++ name ++ "' expected value of type " ++ expected.name ++
      ", but value is of type " ++ actual.name ++ "."
  | assignedValue name expected actual =>
    "Variable " ++ name ++ " expected value of type " ++ expected.name ++
      ", but value is of type " ++ actual.name ++ "."
  | returnOutside => "Return statements can only be used within functions."
  | returnedValue expected actual =>
    "Function is of type " ++ expected.name ++ ", but return value is of type " ++ actual.name ++
      "."
  | integerCondition =>
    "Conditional expressions need to be of type bool, but this expression is of type int."
  | unaryOperand op expected actual =>
    "Operator '" ++ op.spelling ++ "' expects expression of type " ++ expected.name ++
      ", but got expression of type " ++ actual.name ++ "."
  | binaryOperand op expected actual =>
    "Operator '" ++ op.spelling ++ "' expects expressions of type " ++ expected.name ++
      ", but got expression of type " ++ actual.name ++ "."
  | mixedOperands op left right =>
    "Operator '" ++ op.spelling ++
      "' expects expressions of the same type, but left expression is of type " ++ left.name ++
      " while right expression is of type " ++ right.name ++ "."
  | notBinary => "Unsupported operator used in binary expression."
  | argumentCount function expected given =>
    "Function " ++ function ++ " expects " ++ expected.repr ++ " parameters, but was given " ++
      given.repr ++ "."
  | argument parameter expected actual =>
    "Parameter '" ++ parameter ++ "' is of type " ++ expected.name ++
      ", but was given value of type " ++ actual.name ++ "."

/-! ### Findings -/

/-- An issue with the stretch of text it is about. -/
abbrev Complaint : Type := Located Issue

/-- The complaints about one statement. -/
structure Finding where
  /-- The kind of report to make. -/
  kind : ErrorKind
  /-- The complaints in the order in which they were found. -/
  complaints : List Complaint
  /-- Whether the report quotes the source; one about the program as a whole does not. -/
  quoted : Bool := true
  deriving DecidableEq

/-- The problem that a complaint tells the user of. -/
def Complaint.problem (c : Complaint) : Problem :=
  ⟨c.span, c.val.message⟩

/-- The report of a finding. -/
def Finding.report (source : List String) (f : Finding) : Report :=
  let problems := f.complaints.map Complaint.problem
  if f.quoted then .quoting f.kind problems source else ⟨f.kind, problems, 1, some []⟩

/-! ### Passes -/

/-- What a walk over a tree leaves: its last state, what it found, and the problems it counted. -/
structure Pass (σ : Type) where
  /-- The state after the walk. -/
  state : σ
  /-- What was found on the way. -/
  findings : List Finding := []
  /-- How many problems were counted on the way. -/
  count : Nat := 0

namespace Pass

variable {σ : Type}

/-- Files the complaints about one statement, if there are any. -/
def file (kind : ErrorKind) (complaints : List Complaint) (state : σ) : Pass σ :=
  { state
    findings := if complaints.isEmpty then [] else [⟨kind, complaints, true⟩]
    count := complaints.length }

/-- One walk after another. -/
def andThen (first : Pass σ) (second : σ → Pass σ) : Pass σ :=
  let after := second first.state
  ⟨after.state, first.findings ++ after.findings, first.count + after.count⟩

/-- A walk with its last state changed. -/
def map (f : σ → σ) (p : Pass σ) : Pass σ :=
  { p with state := f p.state }

/-- The same walk `n` times, each from the state that the one before has left. -/
def iterate (n : Nat) (walk : σ → Pass σ) (state : σ) : Pass σ :=
  match n with
  | 0 => { state }
  | n + 1 => (walk state).andThen (iterate n walk)

@[simp] theorem findings_map (f : σ → σ) (p : Pass σ) : (p.map f).findings = p.findings := rfl

@[simp] theorem findings_file_eq_nil {kind : ErrorKind} {complaints : List Complaint} {state : σ} :
    (file kind complaints state).findings = [] ↔ complaints = [] := by
  cases complaints <;> simp [file]

theorem findings_andThen (first : Pass σ) (second : σ → Pass σ) :
    (first.andThen second).findings = first.findings ++ (second first.state).findings := rfl

/-- Nothing is found by two walks exactly when neither finds anything. -/
theorem findings_andThen_eq_nil {first : Pass σ} {second : σ → Pass σ} :
    (first.andThen second).findings = [] ↔
      first.findings = [] ∧ (second first.state).findings = [] :=
  List.append_eq_nil_iff

end Pass

end ScalarMips
