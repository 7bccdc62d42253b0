import ScalarMips.Check.Issue
import ScalarMips.Spelling

/-!
# Names

The second check follows the scopes of a program: every name that is used has to be declared, of the
right kind, and, if it is a variable, to have been given a value somewhere before in the text.

Variables and functions share one space of names, and functions are known from the start. Whether a
variable collides with a function therefore depends on which comes first. A function counts as
*initialized* once the walk has reached it, and a variable declared after that point may not have
its name. A global variable declared before the function is remembered in `pending`, and the
complaint is made when the function is reached.

An expression is checked against the scopes as they are and changes nothing, so its complaints are a
plain function of the scopes. A variable is declared only after its initial value has been checked.
-/

namespace ScalarMips.Names

/-- What the walk knows at one place. -/
structure State where
  /-- The visible names. -/
  scopes : Scopes
  /-- Global variables that have the name of a function which the walk has not reached. -/
  pending : List String := []

namespace State

/-- Enters a scope. -/
def push (s : State) (returnType : Option ScalarType := none) : State :=
  { s with scopes := s.scopes.push returnType }

/-- Leaves a scope. -/
def pop (s : State) : State :=
  { s with scopes := s.scopes.pop }

end State

/-! ### Expressions -/

/-- The issue with a name that is not declared. -/
def undeclared (scopes : Scopes) (kind : IdentifierKind) (name : String) : Issue :=
  .undeclared kind name (Spelling.suggest name (scopes.visibleNames (some kind)))

/-- The span of the name in a call that starts at `span`. -/
def calleeSpan (span : Span) (name : String) : Span :=
  ⟨span.start, ⟨span.start.line, span.start.column + UInt32.ofNat name.length⟩⟩

/-- The issue with reading a variable. -/
def readIssue (scopes : Scopes) (name : String) : Option Issue :=
  match scopes.lookup name with
  | none => some (undeclared scopes .var name)
  | some identifier =>
    if identifier.kind = .fn then some (.functionNotCalled name)
    else if identifier.initialized then none
    else some (.uninitialized name)

/-- The issue with calling a function. -/
def callIssue (scopes : Scopes) (name : String) : Option Issue :=
  match scopes.lookup name with
  | none => some (undeclared scopes .fn name)
  | some identifier => if identifier.kind = .fn then none else some (.variableCalled name)

/-- The issue with assigning to a variable. -/
def assignIssue (scopes : Scopes) (name : String) : Option Issue :=
  match scopes.lookup name with
  | none => some (undeclared scopes .var name)
  | some identifier => if identifier.kind = .fn then some (.functionAssigned name) else none

/-- The complaint that an issue at a span is. -/
def complain (span : Span) (issue : Option Issue) : List Complaint :=
  (issue.map fun issue ↦ ⟨span, issue⟩).toList

mutual

/-- The complaints about the names in an expression, from left to right. -/
def exprComplaints (scopes : Scopes) : Expr → List Complaint
  | .literal .. => []
  | .var span name => complain span (readIssue scopes name)
  | .unary _ _ operand => exprComplaints scopes operand
  | .binary _ _ left right => exprComplaints scopes left ++ exprComplaints scopes right
  | .call span name arguments =>
    complain (calleeSpan span name) (callIssue scopes name) ++ exprsComplaints scopes arguments

/-- The complaints about the names in several expressions. -/
def exprsComplaints (scopes : Scopes) : List Expr → List Complaint
  | [] => []
  | e :: es => exprComplaints scopes e ++ exprsComplaints scopes es

end

/-- The complaints about an expression that may be missing. -/
def optionComplaints (scopes : Scopes) : Option Expr → List Complaint
  | none => []
  | some e => exprComplaints scopes e

/-- Checks an expression in a statement. -/
def checkExpr (value : Option Expr) (s : State) : Pass State :=
  .file .name (optionComplaints s.scopes value) s

/-! ### Declarations and assignments -/

/-- Declares the parameters of a function and gives the complaints about them. -/
def declareParameters : List Declarator → Scopes → Scopes × List Complaint
  | [], scopes => (scopes, [])
  | p :: parameters, scopes =>
    if scopes.hasKind (some .fn) p.name then
      let (after, complaints) := declareParameters parameters scopes
      (after, ⟨p.span, .parameterIsFunction p.name⟩ :: complaints)
    else
      match scopes.declare? p.name { type := p.type, initialized := true } with
      | none =>
        let (after, complaints) := declareParameters parameters scopes
        (after, ⟨p.span, .parameterRedeclared p.name⟩ :: complaints)
      | some scopes => declareParameters parameters scopes

/-- Enters a function: settles a pending collision, declares the parameters, and from here on counts
the function as reached. -/
def enterFunction (head : Declarator) (parameters : List Declarator) (s : State) : Pass State :=
  let collisions : List Complaint :=
    if head.name ∈ s.pending then [⟨head.span, .functionIsVariable head.name⟩] else []
  let pending := s.pending.filter (· ≠ head.name)
  let (scopes, complaints) := declareParameters parameters (s.scopes.push (some head.type))
  .file .name (collisions ++ complaints) ⟨scopes.markInitialized head.name, pending⟩

/-- Declares a variable, and gives the issue with its name if it cannot be. A name that only
collides with a function further down is put off. -/
def declareVariable (head : Declarator) (initialized : Bool) (s : State) : State × Option Issue :=
  let here := s.scopes.lookupHere head.name
  let visible := s.scopes.lookup head.name
  if here.any fun i ↦ i.kind = .var || i.initialized then
    (s, some (.variableRedeclared head.name))
  else if visible.any fun i ↦ i.kind = .fn && i.initialized then
    (s, some (.variableIsFunction head.name))
  else if here.isSome then
    ({ s with pending := head.name :: s.pending }, none)
  else
    ({ s with scopes := s.scopes.declare head.name { type := head.type, initialized } }, none)

/-- Checks a variable declaration. -/
def checkVariable (head : Declarator) (initial : Option Expr) (s : State) : Pass State :=
  let (after, issue) := declareVariable head initial.isSome s
  .file .name (optionComplaints s.scopes initial ++ complain head.span issue) after

/-- Checks an assignment; afterwards the variable has a value. -/
def checkAssign (name : String) (target : Span) (value : Expr) (s : State) : Pass State :=
  let complaints :=
    complain target (assignIssue s.scopes name) ++ exprComplaints s.scopes value
  let scopes :=
    if s.scopes.hasKind (some .var) name then s.scopes.markInitialized name else s.scopes
  .file .name complaints { s with scopes }

/-! ### Statements -/

mutual

/-- Checks a statement. -/
def checkStmt : Stmt → State → Pass State
  | .block _ body, s => (checkAll body s.push).map State.pop
  | .function _ head parameters body, s =>
    ((enterFunction head parameters s).andThen (checkAll body)).map State.pop
  | .var _ head initial, s => checkVariable head initial s
  | .assign _ name target value, s => checkAssign name target value s
  | .conditional _ condition thenBranch none, s =>
    (checkExpr (some condition) s).andThen fun s ↦
      (checkStmt thenBranch s.push).map State.pop
  | .conditional _ condition thenBranch (some elseBranch), s =>
    ((checkExpr (some condition) s).andThen fun s ↦
      (checkStmt thenBranch s.push).map State.pop).andThen fun s ↦
        (checkStmt elseBranch s.push).map State.pop
  | .loop _ condition body, s =>
    (checkExpr (some condition) s).andThen fun s ↦ (checkStmt body s.push).map State.pop
  | .evaluate _ value, s => checkExpr (some value) s
  | .return_ _ value, s => checkExpr (some value) s
  | .print _ _ value, s => checkExpr value s
termination_by structural stmt => stmt

/-- Checks statements one after the other. -/
def checkAll : List Stmt → State → Pass State
  | [], s => { state := s }
  | stmt :: stmts, s => (checkStmt stmt s).andThen (checkAll stmts)
termination_by structural stmts => stmts

end

end ScalarMips.Names
