import ScalarMips.Scope

/-!
# Unique names

Gives every declaration site of a program a name of its own, so that the later passes need no
scopes. A new name is the declared one, an underscore and a number that grows with every
declaration. The entry point keeps its name, because it is the name under which the program is
started, and no generated name may be equal to it.

Functions are named before everything else, since they can be called before their declaration.
A name that means nothing where it is used stays as it is.
-/

namespace ScalarMips.Renaming

/-- What the walk knows at one place. -/
structure State where
  /-- The visible names with their unique names. -/
  scopes : Scopes := {}
  /-- The number for the next generated name. -/
  counter : Nat := 0

namespace State

/-- Enters a scope. -/
def push (s : State) (returnType : Option ScalarType := none) : State :=
  { s with scopes := s.scopes.push returnType }

/-- Leaves a scope. -/
def pop (s : State) : State :=
  { s with scopes := s.scopes.pop }

end State

/-! ### Names -/

/-- A declared name with a number. -/
def numbered (name : String) (n : Nat) : String :=
  name ++ "_" ++ n.repr

/-- The first numbered name from `n` on that is not the entry point, and the number after it. -/
def fresh (entry name : String) (n : Nat) : String × Nat :=
  if numbered name n = entry then (numbered name (n + 1), n + 2) else (numbered name n, n + 1)

/-- Binds a name to a unique one in the current scope; a binding that is already there stays. -/
def bind (entry : String) (kind : IdentifierKind) (name : String) (s : State) : String × State :=
  let (uniqueName, counter) :=
    if kind = .fn ∧ name = entry then (name, s.counter) else fresh entry name s.counter
  (uniqueName, ⟨s.scopes.declare name { kind, initialized := true, uniqueName }, counter⟩)

/-- The unique name that a name stands for. -/
def rename (scopes : Scopes) (name : String) : String :=
  ((scopes.lookup name).map Identifier.uniqueName).getD name

/-! ### Expressions -/

mutual

/-- An expression with its names replaced. -/
def renameExpr (scopes : Scopes) : Expr → Expr
  | .literal span value => .literal span value
  | .var span name => .var span (rename scopes name)
  | .unary span op operand => .unary span op (renameExpr scopes operand)
  | .binary span op left right =>
    .binary span op (renameExpr scopes left) (renameExpr scopes right)
  | .call span name arguments => .call span (rename scopes name) (renameExprs scopes arguments)

/-- Expressions with their names replaced. -/
def renameExprs (scopes : Scopes) : List Expr → List Expr
  | [] => []
  | e :: es => renameExpr scopes e :: renameExprs scopes es

end

/-! ### Statements -/

/-- Binds the parameters of a function. -/
def bindParameters (entry : String) : List Declarator → State → List Declarator × State
  | [], s => ([], s)
  | p :: parameters, s =>
    let (name, s) := bind entry .var p.name s
    let (parameters, s) := bindParameters entry parameters s
    ({ p with name } :: parameters, s)

mutual

/-- A statement with its names replaced, and what is known after it. A variable is bound after its
initial value has been renamed, which therefore does not see it. -/
def renameStmt (entry : String) : Stmt → State → Stmt × State
  | .block span body, s =>
    let (body, s) := renameAll entry body s.push
    (.block span body, s.pop)
  | .function span head parameters body, s =>
    let name := rename s.scopes head.name
    let (parameters, s) := bindParameters entry parameters (s.push (some head.type))
    let (body, s) := renameAll entry body s
    (.function span { head with name } parameters body, s.pop)
  | .var span head initial, s =>
    let initial := initial.map (renameExpr s.scopes)
    let (name, s) := bind entry .var head.name s
    (.var span { head with name } initial, s)
  | .assign span name target value, s =>
    (.assign span (rename s.scopes name) target (renameExpr s.scopes value), s)
  | .conditional span condition thenBranch none, s =>
    let condition := renameExpr s.scopes condition
    let (thenBranch, s) := renameStmt entry thenBranch s.push
    (.conditional span condition thenBranch none, s.pop)
  | .conditional span condition thenBranch (some elseBranch), s =>
    let condition := renameExpr s.scopes condition
    let (thenBranch, s) := renameStmt entry thenBranch s.push
    let (elseBranch, s) := renameStmt entry elseBranch s.pop.push
    (.conditional span condition thenBranch (some elseBranch), s.pop)
  | .loop span condition body, s =>
    let condition := renameExpr s.scopes condition
    let (body, s) := renameStmt entry body s.push
    (.loop span condition body, s.pop)
  | .evaluate span value, s => (.evaluate span (renameExpr s.scopes value), s)
  | .return_ span value, s => (.return_ span (renameExpr s.scopes value), s)
  | .print span ending value, s => (.print span ending (value.map (renameExpr s.scopes)), s)
termination_by structural stmt => stmt

/-- Statements with their names replaced, one after the other. -/
def renameAll (entry : String) : List Stmt → State → List Stmt × State
  | [], s => ([], s)
  | stmt :: stmts, s =>
    let (stmt, s) := renameStmt entry stmt s
    let (stmts, s) := renameAll entry stmts s
    (stmt :: stmts, s)
termination_by structural stmts => stmts

end

/-! ### Programs -/

/-- Binds the functions of a program. -/
def bindFunctions (entry : String) : List Stmt → State → State
  | [], s => s
  | .function _ head _ _ :: program, s => bindFunctions entry program (bind entry .fn head.name s).2
  | _ :: program, s => bindFunctions entry program s

/-- The program with a unique name for every declaration. -/
def flatten (entry : String) (program : List Stmt) : List Stmt :=
  (renameAll entry program (bindFunctions entry program {})).1

end ScalarMips.Renaming
