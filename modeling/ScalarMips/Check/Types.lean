import ScalarMips.Check.Issue

/-!
# Types

The third check gives every expression a type and compares it with what its place asks for.

An expression in which something is already wrong has the type `error`, and nothing is asked of such
an operand, so that one mistake is reported once. A name that does not stand for a variable has that
type too: the check of names has reported it. A call has the type its function returns, whatever
its arguments are.
-/

namespace ScalarMips.Types

/-! ### Expressions -/

/-- The type of an expression and the complaints about it. -/
structure Inferred where
  /-- The type, `error` if there is none. -/
  type : ScalarType
  /-- The complaints in the order in which they were found. -/
  complaints : List Complaint := []
  deriving DecidableEq

/-- The type that the operand of a unary operator has to have. Its result has the same type. -/
def unaryType (op : Operator) : ScalarType :=
  if op = .not then .bool else .int

/-- What a binary operator asks of its operands. -/
inductive Signature where
  /-- Both operands have one given type. -/
  | uniform (operand result : ScalarType)
  /-- The operands have the same type, whichever it is. -/
  | same
  /-- The operator has no two operands. -/
  | unsupported
  deriving DecidableEq

/-- The signature of a binary operator. -/
def signature : Operator → Signature
  | .plus | .minus | .times | .divide | .modulo => .uniform .int .int
  | .less | .lessEqual | .greater | .greaterEqual => .uniform .int .bool
  | .and | .or => .uniform .bool .bool
  | .equal | .notEqual => .same
  | .not => .unsupported

/-- The type of a variable. -/
def variableType (scopes : Scopes) (name : String) : ScalarType :=
  match scopes.lookup name with
  | some identifier => if identifier.kind = .var then identifier.type else .error
  | none => .error

/-- Whether a type is that of a value, and not the one asked for. -/
def clashes (actual expected : ScalarType) : Bool :=
  actual.isConcrete && actual ≠ expected

/-- A unary operator applied to an operand of a given type. -/
def inferUnary (span : Span) (op : Operator) (operand : ScalarType) : Inferred :=
  if ¬ operand.isConcrete then ⟨.error, []⟩
  else if operand = unaryType op then ⟨unaryType op, []⟩
  else ⟨.error, [⟨span, .unaryOperand op (unaryType op) operand⟩]⟩

/-- The complaint about one operand of a binary operator. -/
def operandComplaint (op : Operator) (expected : ScalarType) (operand : Located ScalarType) :
    List Complaint :=
  if clashes operand.val expected then
    [⟨operand.span, .binaryOperand op expected operand.val⟩]
  else []

/-- A binary operator applied to operands of given types. -/
def inferBinary (span : Span) (op : Operator) (left right : Located ScalarType) : Inferred :=
  if ¬ left.val.isConcrete ∧ ¬ right.val.isConcrete then ⟨.error, []⟩
  else
    match signature op with
    | .uniform operand result =>
      ⟨if left.val = operand ∧ right.val = operand then result else .error,
        operandComplaint op operand left ++ operandComplaint op operand right⟩
    | .same =>
      if ¬ left.val.isConcrete ∨ ¬ right.val.isConcrete then ⟨.error, []⟩
      else if left.val = right.val then ⟨.bool, []⟩
      else ⟨.error, [⟨span, .mixedOperands op left.val right.val⟩]⟩
    | .unsupported => ⟨.error, [⟨span, .notBinary⟩]⟩

/-- The complaints about the arguments of a call, given with their types. -/
def argumentComplaints : List (Located ScalarType) → List Declarator → List Complaint
  | argument :: arguments, parameter :: parameters =>
    let rest := argumentComplaints arguments parameters
    if clashes argument.val parameter.type then
      ⟨argument.span, .argument parameter.name parameter.type argument.val⟩ :: rest
    else rest
  | _, _ => []

/-- A call with arguments of given types. -/
def inferCall (scopes : Scopes) (span : Span) (name : String)
    (arguments : List (Located ScalarType)) : Inferred :=
  match scopes.lookup name with
  | none => ⟨.error, []⟩
  | some function =>
    if function.kind ≠ .fn then ⟨.error, []⟩
    else if function.parameters.length ≠ arguments.length then
      ⟨function.type,
        [⟨span, .argumentCount name function.parameters.length arguments.length⟩]⟩
    else ⟨function.type, argumentComplaints arguments function.parameters⟩

mutual

/-- The type of an expression and the complaints about it, those about its parts first. -/
def infer (scopes : Scopes) : Expr → Inferred
  | .literal _ value => ⟨value.type, []⟩
  | .var _ name => ⟨variableType scopes name, []⟩
  | .unary span op operand =>
    let inner := infer scopes operand
    let outer := inferUnary span op inner.type
    ⟨outer.type, inner.complaints ++ outer.complaints⟩
  | .binary span op left right =>
    let l := infer scopes left
    let r := infer scopes right
    let outer := inferBinary span op ⟨left.span, l.type⟩ ⟨right.span, r.type⟩
    ⟨outer.type, l.complaints ++ r.complaints ++ outer.complaints⟩
  | .call span name arguments =>
    let (types, inner) := inferAll scopes arguments
    let outer := inferCall scopes span name types
    ⟨outer.type, inner ++ outer.complaints⟩

/-- The types of several expressions and the complaints about all of them. -/
def inferAll (scopes : Scopes) : List Expr → List (Located ScalarType) × List Complaint
  | [] => ([], [])
  | e :: es =>
    let first := infer scopes e
    let (types, complaints) := inferAll scopes es
    (⟨e.span, first.type⟩ :: types, first.complaints ++ complaints)

end

/-! ### Statements -/

/-- Checks an expression of which nothing special is asked. -/
def checkExpr (value : Option Expr) (scopes : Scopes) : Pass Scopes :=
  match value with
  | none => { state := scopes }
  | some value => .file .type (infer scopes value).complaints scopes

/-- Checks an expression and then asks something of its type. -/
def checkValue (value : Expr) (ask : ScalarType → List Complaint) (scopes : Scopes) :
    List Complaint :=
  let inferred := infer scopes value
  inferred.complaints ++ ask inferred.type

/-- Checks a condition. -/
def checkCondition (condition : Expr) (scopes : Scopes) : Pass Scopes :=
  let ask (type : ScalarType) : List Complaint :=
    if type = .int then [⟨condition.span, .integerCondition⟩] else []
  .file .type (checkValue condition ask scopes) scopes

/-- Checks a variable declaration and declares the variable. -/
def checkVariable (head : Declarator) (initial : Option Expr) (scopes : Scopes) : Pass Scopes :=
  let complaints :=
    match initial with
    | none => []
    | some value =>
      checkValue value (fun type ↦
        if clashes type head.type then
          [⟨value.span, .initialValue head.name head.type type⟩]
        else []) scopes
  .file .type complaints
    (scopes.declare head.name { type := head.type, initialized := initial.isSome })

/-- Checks an assignment. -/
def checkAssign (name : String) (value : Expr) (scopes : Scopes) : Pass Scopes :=
  let ask (type : ScalarType) : List Complaint :=
    match scopes.lookup name with
    | none => []
    | some target =>
      if target.kind = .var ∧ clashes type target.type then
        [⟨value.span, .assignedValue name target.type type⟩]
      else []
  .file .type (checkValue value ask scopes) scopes

/-- Checks a return statement. -/
def checkReturn (span : Span) (value : Expr) (scopes : Scopes) : Pass Scopes :=
  let ask (type : ScalarType) : List Complaint :=
    match scopes.returnType? with
    | none => [⟨span, .returnOutside⟩]
    | some expected => if clashes type expected then [⟨span, .returnedValue expected type⟩] else []
  .file .type (checkValue value ask scopes) scopes

/-- Declares the parameters of a function; of two with one name the first counts. -/
def declareParameters (parameters : List Declarator) (scopes : Scopes) : Scopes :=
  parameters.foldl (fun scopes p ↦ scopes.declare p.name { type := p.type, initialized := true })
    scopes

mutual

/-- Checks a statement. -/
def checkStmt : Stmt → Scopes → Pass Scopes
  | .block _ body, s => (checkAll body s.push).map Scopes.pop
  | .function _ head parameters body, s =>
    (checkAll body (declareParameters parameters (s.push (some head.type)))).map Scopes.pop
  | .var _ head initial, s => checkVariable head initial s
  | .assign _ name _ value, s => checkAssign name value s
  | .conditional _ condition thenBranch none, s =>
    (checkCondition condition s).andThen fun s ↦ (checkStmt thenBranch s.push).map Scopes.pop
  | .conditional _ condition thenBranch (some elseBranch), s =>
    ((checkCondition condition s).andThen fun s ↦
      (checkStmt thenBranch s.push).map Scopes.pop).andThen fun s ↦
        (checkStmt elseBranch s.push).map Scopes.pop
  | .loop _ condition body, s =>
    (checkCondition condition s).andThen fun s ↦ (checkStmt body s.push).map Scopes.pop
  | .evaluate _ value, s => checkExpr (some value) s
  | .return_ span value, s => checkReturn span value s
  | .print _ _ value, s => checkExpr value s
termination_by structural stmt => stmt

/-- Checks statements one after the other. -/
def checkAll : List Stmt → Scopes → Pass Scopes
  | [], s => { state := s }
  | stmt :: stmts, s => (checkStmt stmt s).andThen (checkAll stmts)
termination_by structural stmts => stmts

end

end ScalarMips.Types
