import ScalarMips.Failure
import ScalarMips.Layout.Constant

/-!
# Laying out storage

Fills the symbol tables of a program: global variables with their initial values and functions, in
the order of the text, and for every function a table of its parameters and of all variables
declared anywhere in its body.

The body of a function is read in two steps. `declared` lists what the body declares in the order of
the text, with no regard for blocks, branches and loops; `putLocals` then enters that list into the
table. A declaration that cannot be entered is recorded as a failure and left out.
-/

namespace ScalarMips.Layout

/-! ### The declarations of a body -/

/-- Something declared inside a function. -/
inductive Declared where
  | var (name : String) (type : ScalarType)
  | function (name : String)
  deriving DecidableEq

mutual

/-- What a statement declares, in the order of the text. A nested function is not entered. -/
def declared : Stmt → List Declared
  | .var _ head _ => [.var head.name head.type]
  | .function _ head _ _ => [.function head.name]
  | .block _ body => declaredAll body
  | .conditional _ _ thenBranch none => declared thenBranch
  | .conditional _ _ thenBranch (some elseBranch) => declared thenBranch ++ declared elseBranch
  | .loop _ _ body => declared body
  | .assign .. => []
  | .evaluate .. => []
  | .return_ .. => []
  | .print .. => []
termination_by structural stmt => stmt

/-- What statements declare, one after the other. -/
def declaredAll : List Stmt → List Declared
  | [] => []
  | stmt :: stmts => declared stmt ++ declaredAll stmts
termination_by structural stmts => stmts

end

/-! ### Entering declarations -/

/-- A table under construction, and why it is not what it should be. -/
structure Progress (φ : Type) where
  /-- The table so far. -/
  table : SymbolTable
  /-- What could not be entered. -/
  failures : List φ := []

namespace Progress

variable {φ : Type}

/-- The result of an insertion, or the unchanged table and a failure. -/
def ofPut (table : SymbolTable) (inserted : Option SymbolTable) (failure : φ) : Progress φ :=
  match inserted with
  | some table => ⟨table, []⟩
  | none => ⟨table, [failure]⟩

/-- One step after another. -/
def andThen (first : Progress φ) (second : SymbolTable → Progress φ) : Progress φ :=
  let after := second first.table
  ⟨after.table, first.failures ++ after.failures⟩

end Progress

/-- Enters the parameters of a function. -/
def putParameters : List Declarator → SymbolTable → Progress LayoutFault
  | [], table => ⟨table, []⟩
  | p :: parameters, table =>
    (Progress.ofPut table (table.putParameter? p.name p.type) (.duplicateParameter p.name)).andThen
      (putParameters parameters)

/-- Enters one declaration of a body. -/
def putLocal (table : SymbolTable) : Declared → Progress LayoutFault
  | .var name type =>
    if type.isConcrete then
      .ofPut table (table.putVar? name type none) (.duplicateName name)
    else ⟨table, [.untypedLocal name]⟩
  | .function name => ⟨table, [.nestedFunction name]⟩

/-- Enters the declarations of a body. -/
def putLocals : List Declared → SymbolTable → Progress LayoutFault
  | [], table => ⟨table, []⟩
  | d :: declared, table => (putLocal table d).andThen (putLocals declared)

/-- The failure that a fault outside or inside of a function is. -/
def failure (function : String) (fault : LayoutFault) : Failure :=
  ⟨function, .layout fault⟩

/-- Enters a function. Its own table is built only if its name is free. -/
def putFunction (head : Declarator) (parameters : List Declarator) (body : List Stmt)
    (table : SymbolTable) : Progress Failure :=
  if table.contains head.name then
    ⟨table, [failure head.name (.duplicateFunction head.name)]⟩
  else
    let inner := (putParameters parameters { wordSize := table.wordSize }).andThen
      (putLocals (declaredAll body))
    ⟨(table.putFunction? head.name head.type inner.table.symbols).getD table,
      inner.failures.map (failure head.name)⟩

/-- Enters a global variable with its initial value. -/
def putGlobal (head : Declarator) (initial : Option Expr) (table : SymbolTable) :
    Progress Failure :=
  if head.type.isConcrete then
    let value := initial.bind (Constant.fold table)
    .ofPut table (table.putVar? head.name head.type value) (failure "" (.duplicateName head.name))
  else ⟨table, [failure "" (.untypedGlobal head.name)]⟩

/-- Enters a top-level statement; one that is no declaration is passed over. -/
def putStmt (table : SymbolTable) : Stmt → Progress Failure
  | .function _ head parameters body => putFunction head parameters body table
  | .var _ head initial => putGlobal head initial table
  | _ => ⟨table, []⟩

/-- Enters the declarations of a program into a table. -/
def build : List Stmt → SymbolTable → Progress Failure
  | [], table => ⟨table, []⟩
  | stmt :: program, table => (putStmt table stmt).andThen (build program)

end ScalarMips.Layout
