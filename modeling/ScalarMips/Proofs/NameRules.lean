import ScalarMips.Proofs.Lexical

/-!
# The rules for names

What a program must keep to in its use of names, said on the text alone (`WellNamed`). There are
three kinds of rules.

The text is read once, from the beginning to the end, as a list of *events*: a variable is read or
assigned to, a function is called, a variable is declared. At each use the name means a site, as for
`resolutions`. The first rules are about these meanings: they have to be of the right kind, and a
variable that is read must have been given a value by an event before. Only the order of the text
counts, not the order in which the program runs.

The next rule is about scopes: no scope declares a name twice. The last rules keep the names of
variables apart from those of functions. A parameter or a global variable must not have the name of
any function; a local variable can have that of a function further down.
-/

namespace ScalarMips

/-! ### Events -/

/-- What happens to a name at one place of a program. -/
inductive Event where
  /-- A variable is read. -/
  | read (meaning : Option Site)
  /-- A function is called. -/
  | call (meaning : Option Site)
  /-- A variable is assigned to. -/
  | assign (meaning : Option Site)
  /-- The variable with a number is declared, with a value or without one. -/
  | declare (k : Nat) (valued : Bool)
  deriving DecidableEq

namespace Event

/-- What is read or assigned to must be a variable, and what is called a function. -/
def Resolved : Event → Prop
  | read meaning => ∃ k, meaning = some (.var k)
  | call meaning => ∃ i, meaning = some (.fn i)
  | assign meaning => ∃ k, meaning = some (.var k)
  | declare .. => True

/-- What is given a value. -/
def given? : Event → Option Site
  | read _ => none
  | call _ => none
  | assign meaning => meaning
  | declare k valued => if valued then some (.var k) else none

end Event

mutual

/-- The events of an expression, from left to right. -/
def Expr.events (β : Bindings) : Expr → List Event
  | .literal .. => []
  | .var _ name => [.read (β name)]
  | .unary _ _ operand => operand.events β
  | .binary _ _ left right => left.events β ++ right.events β
  | .call _ name arguments => .call (β name) :: Expr.eventsAll β arguments

/-- The events of expressions. -/
def Expr.eventsAll (β : Bindings) : List Expr → List Event
  | [] => []
  | e :: es => e.events β ++ Expr.eventsAll β es

end

/-- The events of an expression, if there is one. -/
def Expr.optionEvents (β : Bindings) : Option Expr → List Event
  | none => []
  | some e => e.events β

/-- The declarations of parameters, the first one at site `k`. A parameter has a value. -/
def parameterEvents (k : Nat) : List Declarator → List Event
  | [] => []
  | _ :: parameters => .declare k true :: parameterEvents (k + 1) parameters

mutual

/-- The events of a statement, whose declarations are numbered from `k`. A declaration and an
assignment come after the events of the value. -/
def Stmt.events : Stmt → Bindings → Nat → List Event
  | .block _ body, β, k => Stmt.eventsAll body β k
  | .function _ _ parameters body, β, k =>
    parameterEvents k parameters ++
      Stmt.eventsAll body (β.bindAll k parameters) (k + parameters.length)
  | .var _ _ initial, β, k => Expr.optionEvents β initial ++ [.declare k initial.isSome]
  | .assign _ name _ value, β, _ => value.events β ++ [.assign (β name)]
  | .conditional _ condition thenBranch none, β, k =>
    condition.events β ++ thenBranch.events β k
  | .conditional _ condition thenBranch (some elseBranch), β, k =>
    condition.events β ++ thenBranch.events β k ++
      elseBranch.events β (k + thenBranch.variables.length)
  | .loop _ condition body, β, k => condition.events β ++ body.events β k
  | .evaluate _ value, β, _ => value.events β
  | .return_ _ value, β, _ => value.events β
  | .print _ _ value, β, _ => Expr.optionEvents β value
termination_by structural stmt => stmt

/-- The events of statements, each in what the ones before it leave visible. -/
def Stmt.eventsAll : List Stmt → Bindings → Nat → List Event
  | [], _, _ => []
  | stmt :: stmts, β, k =>
    stmt.events β k ++ Stmt.eventsAll stmts (β.after k stmt) (k + stmt.variables.length)
termination_by structural stmts => stmts

end

/-- The events of a program. -/
def events (program : List Stmt) : List Event :=
  Stmt.eventsAll program (.ofFunctions program) 0

/-! ### Scopes -/

/-- The names that a statement declares in the scope it stands in. -/
def Stmt.ownNames : Stmt → List String
  | .var _ head _ => [head.name]
  | _ => []

mutual

/-- The scopes inside a statement, each with the names that are declared in it. The parameters of a
function and the top level of its body are one scope, and a branch is one even if it is no block. -/
def Stmt.scopes : Stmt → List (List String)
  | .block _ body => body.flatMap Stmt.ownNames :: Stmt.scopesAll body
  | .function _ _ parameters body =>
    (parameters.map Declarator.name ++ body.flatMap Stmt.ownNames) :: Stmt.scopesAll body
  | .conditional _ _ thenBranch none => thenBranch.ownNames :: thenBranch.scopes
  | .conditional _ _ thenBranch (some elseBranch) =>
    (thenBranch.ownNames :: thenBranch.scopes) ++ (elseBranch.ownNames :: elseBranch.scopes)
  | .loop _ _ body => body.ownNames :: body.scopes
  | .var .. => []
  | .assign .. => []
  | .evaluate .. => []
  | .return_ .. => []
  | .print .. => []
termination_by structural stmt => stmt

/-- The scopes inside statements. -/
def Stmt.scopesAll : List Stmt → List (List String)
  | [] => []
  | stmt :: stmts => stmt.scopes ++ Stmt.scopesAll stmts
termination_by structural stmts => stmts

end

/-! ### The rules -/

/-- The rules for names. -/
structure WellNamed (program : List Stmt) : Prop where
  /-- Variables are read and assigned to, and functions are called. -/
  resolved : ∀ event ∈ events program, event.Resolved
  /-- A variable that is read has been given a value before. -/
  valued : ∀ before k after, events program = before ++ .read (some (.var k)) :: after →
    ∃ event ∈ before, event.given? = some (.var k)
  /-- No scope declares a name twice. -/
  distinct : ∀ scope ∈ program.flatMap Stmt.ownNames :: Stmt.scopesAll program, scope.Nodup
  /-- No parameter has the name of a function. -/
  parameters : ∀ f ∈ functionDecls program, ∀ p ∈ f.parameters, p.name ∉ functionNames program
  /-- No global variable has the name of a function. -/
  globals : ∀ name ∈ program.flatMap Stmt.ownNames, name ∉ functionNames program
  /-- No local variable has the name of its function or of one before it. -/
  locals : ∀ before span head parameters body after,
    program = before ++ .function span head parameters body :: after →
      ∀ name ∈ Stmt.variablesAll body, name ∉ functionNames before ∧ name ≠ head.name

end ScalarMips
