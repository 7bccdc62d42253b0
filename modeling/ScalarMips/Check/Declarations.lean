import ScalarMips.Check.Issue

/-!
# Global declarations

The first check gathers the functions of a program, so that they can be called before their
declaration, and sees to what may stand at the top level: functions, and variables whose initial
values call nothing. It also asks for the entry point.

Global variables are not gathered: they are visible only after their declaration, and the later
checks declare them on their way.
-/

namespace ScalarMips.Declarations

/-- The outermost calls in an expression. -/
def calls : Expr → List Span
  | .call span _ _ => [span]
  | .unary _ _ operand => calls operand
  | .binary _ _ left right => calls left ++ calls right
  | .literal .. | .var .. => []

/-- Declares a function. -/
def declareFunction (head : Declarator) (parameters : List Declarator) (globals : Scopes) :
    Pass Scopes :=
  match globals.declare? head.name { kind := .fn, type := head.type, parameters } with
  | some globals => { state := globals }
  | none => .file .name [⟨head.span, .functionRedeclared head.name⟩] globals

/-- Looks at one top-level statement. -/
def checkStmt (globals : Scopes) : Stmt → Pass Scopes
  | .function _ head parameters _ => declareFunction head parameters globals
  | .var _ _ (some initial) =>
    .file .scope ((calls initial).map fun span ↦ ⟨span, .callInInitialValue⟩) globals
  | .var _ _ none => { state := globals }
  | stmt => .file .scope [⟨stmt.span, .globalStatement⟩] globals

/-- Looks at the top-level statements in order. -/
def checkAll : List Stmt → Scopes → Pass Scopes
  | [], globals => { state := globals }
  | stmt :: program, globals => (checkStmt globals stmt).andThen (checkAll program)

/-- Asks for the entry point. Its absence is one problem of the program as a whole. -/
def checkEntry (entry : String) (globals : Scopes) : Pass Scopes :=
  if globals.hasKind (some .fn) entry then { state := globals }
  else
    { state := globals
      findings := [{ kind := .scope, complaints := [⟨{}, .missingEntry entry⟩], quoted := false }]
      count := 1 }

/-- Gathers the functions of a program and checks its top level. -/
def check (entry : String) (program : List Stmt) (globals : Scopes) : Pass Scopes :=
  (checkAll program globals).andThen (checkEntry entry)

end ScalarMips.Declarations
