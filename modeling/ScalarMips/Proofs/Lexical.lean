import ScalarMips.Proofs.Grammatical

/-!
# Lexical scoping

Which declaration a name means, said on the text alone. The declarations of a program are numbered
in the order of the text, functions apart from variables and parameters (`Site`), and `resolve`
lists for every use of a name the site it means. A name means its innermost declaration before the
use; a variable is not visible in its own initial value, and functions are visible everywhere.

The lists `variables` and `references` give the names that stand at the declarations and at the
uses. They are in the same order, so they tell what a renaming has written at every place, and
`unnamed` is what it must leave alone.
-/

namespace ScalarMips

/-! ### Names of a tree -/

mutual

/-- The names used in an expression, from left to right. -/
def Expr.references : Expr → List String
  | .literal .. => []
  | .var _ name => [name]
  | .unary _ _ operand => operand.references
  | .binary _ _ left right => left.references ++ right.references
  | .call _ name arguments => name :: Expr.referencesAll arguments

/-- The names used in expressions. -/
def Expr.referencesAll : List Expr → List String
  | [] => []
  | e :: es => e.references ++ Expr.referencesAll es

end

/-- The names used in an expression, if there is one. -/
def Expr.optionReferences : Option Expr → List String
  | none => []
  | some e => e.references

mutual

/-- The names used in a statement: variables, assigned variables and called functions. -/
def Stmt.references : Stmt → List String
  | .block _ body => Stmt.referencesAll body
  | .function _ _ _ body => Stmt.referencesAll body
  | .var _ _ initial => Expr.optionReferences initial
  | .assign _ name _ value => name :: value.references
  | .conditional _ condition thenBranch none => condition.references ++ thenBranch.references
  | .conditional _ condition thenBranch (some elseBranch) =>
    condition.references ++ thenBranch.references ++ elseBranch.references
  | .loop _ condition body => condition.references ++ body.references
  | .evaluate _ value => value.references
  | .return_ _ value => value.references
  | .print _ _ value => Expr.optionReferences value
termination_by structural stmt => stmt

/-- The names used in statements. -/
def Stmt.referencesAll : List Stmt → List String
  | [] => []
  | stmt :: stmts => stmt.references ++ Stmt.referencesAll stmts
termination_by structural stmts => stmts

end

mutual

/-- The variables and parameters that a statement declares, in the order of the text. -/
def Stmt.variables : Stmt → List String
  | .block _ body => Stmt.variablesAll body
  | .function _ _ parameters body => parameters.map Declarator.name ++ Stmt.variablesAll body
  | .var _ head _ => [head.name]
  | .conditional _ _ thenBranch none => thenBranch.variables
  | .conditional _ _ thenBranch (some elseBranch) => thenBranch.variables ++ elseBranch.variables
  | .loop _ _ body => body.variables
  | .assign .. => []
  | .evaluate .. => []
  | .return_ .. => []
  | .print .. => []
termination_by structural stmt => stmt

/-- The variables and parameters that statements declare. -/
def Stmt.variablesAll : List Stmt → List String
  | [] => []
  | stmt :: stmts => stmt.variables ++ Stmt.variablesAll stmts
termination_by structural stmts => stmts

end

/-! ### Trees without names -/

/-- A declaration without its name. -/
def Declarator.unnamed (d : Declarator) : Declarator :=
  { d with name := "" }

mutual

/-- An expression without the names in it. -/
def Expr.unnamed : Expr → Expr
  | .literal span value => .literal span value
  | .var span _ => .var span ""
  | .unary span op operand => .unary span op operand.unnamed
  | .binary span op left right => .binary span op left.unnamed right.unnamed
  | .call span _ arguments => .call span "" (Expr.unnamedAll arguments)

/-- Expressions without the names in them. -/
def Expr.unnamedAll : List Expr → List Expr
  | [] => []
  | e :: es => e.unnamed :: Expr.unnamedAll es

end

mutual

/-- A statement without the names in it. -/
def Stmt.unnamed : Stmt → Stmt
  | .block span body => .block span (Stmt.unnamedAll body)
  | .function span head parameters body =>
    .function span head.unnamed (parameters.map Declarator.unnamed) (Stmt.unnamedAll body)
  | .var span head initial => .var span head.unnamed (initial.map Expr.unnamed)
  | .assign span _ target value => .assign span "" target value.unnamed
  | .conditional span condition thenBranch none =>
    .conditional span condition.unnamed thenBranch.unnamed none
  | .conditional span condition thenBranch (some elseBranch) =>
    .conditional span condition.unnamed thenBranch.unnamed (some elseBranch.unnamed)
  | .loop span condition body => .loop span condition.unnamed body.unnamed
  | .evaluate span value => .evaluate span value.unnamed
  | .return_ span value => .return_ span value.unnamed
  | .print span ending value => .print span ending (value.map Expr.unnamed)
termination_by structural stmt => stmt

/-- Statements without the names in them. -/
def Stmt.unnamedAll : List Stmt → List Stmt
  | [] => []
  | stmt :: stmts => stmt.unnamed :: Stmt.unnamedAll stmts
termination_by structural stmts => stmts

end

/-! ### Sites -/

/-- A declaration of a program. -/
inductive Site where
  /-- The function with a number, in the order of the text. -/
  | fn (i : Nat)
  /-- The variable or parameter with a number, in the order of the text. -/
  | var (k : Nat)
  deriving DecidableEq

/-- The name that a program declares at a site. -/
def Site.name? (program : List Stmt) : Site → Option String
  | fn i => (functionNames program)[i]?
  | var k => (Stmt.variablesAll program)[k]?

/-- The sites that the visible names mean. -/
abbrev Bindings : Type := String → Option Site

namespace Bindings

/-- A name gets a meaning; one that it had before is hidden. -/
def bind (β : Bindings) (name : String) (site : Site) : Bindings :=
  fun n ↦ if n = name then some site else β n

/-- Parameters are bound, the first one at site `k`. -/
def bindAll (β : Bindings) (k : Nat) : List Declarator → Bindings
  | [] => β
  | p :: parameters => bindAll (β.bind p.name (.var k)) (k + 1) parameters

/-- What is visible after a statement whose declarations are numbered from `k`; only a variable
declaration leaves something behind. -/
def after (β : Bindings) (k : Nat) : Stmt → Bindings
  | .var _ head _ => β.bind head.name (.var k)
  | _ => β

/-- What is visible at the start of a program: its functions. -/
def ofFunctions (program : List Stmt) : Bindings :=
  fun name ↦ ((functionNames program).idxOf? name).map .fn

end Bindings

mutual

/-- The sites that the names used in a statement mean, in the order of `references`. The
declarations in the statement are numbered from `k`. -/
def Stmt.resolve : Stmt → Bindings → Nat → List (Option Site)
  | .block _ body, β, k => Stmt.resolveAll body β k
  | .function _ _ parameters body, β, k =>
    Stmt.resolveAll body (β.bindAll k parameters) (k + parameters.length)
  | .var _ _ initial, β, _ => (Expr.optionReferences initial).map β
  | .assign _ name _ value, β, _ => β name :: value.references.map β
  | .conditional _ condition thenBranch none, β, k =>
    condition.references.map β ++ thenBranch.resolve β k
  | .conditional _ condition thenBranch (some elseBranch), β, k =>
    condition.references.map β ++ thenBranch.resolve β k ++
      elseBranch.resolve β (k + thenBranch.variables.length)
  | .loop _ condition body, β, k => condition.references.map β ++ body.resolve β k
  | .evaluate _ value, β, _ => value.references.map β
  | .return_ _ value, β, _ => value.references.map β
  | .print _ _ value, β, _ => (Expr.optionReferences value).map β
termination_by structural stmt => stmt

/-- The sites that the names used in statements mean, each statement in what the ones before it
leave visible. -/
def Stmt.resolveAll : List Stmt → Bindings → Nat → List (Option Site)
  | [], _, _ => []
  | stmt :: stmts, β, k =>
    stmt.resolve β k ++ Stmt.resolveAll stmts (β.after k stmt) (k + stmt.variables.length)
termination_by structural stmts => stmts

end

/-- The sites that the names used in a program mean. -/
def resolutions (program : List Stmt) : List (Option Site) :=
  Stmt.resolveAll program (.ofFunctions program) 0

end ScalarMips
