import ScalarMips.Source.Span
import ScalarMips.Tree.Scalar

/-!
# Trees

Expressions and statements, each with the span of source text it was read from. A program is the
list of its top-level statements.

Trees are wider than what the grammar yields: they admit any operator in any position, functions
inside functions, and declarations without a concrete type. The passes that walk trees are defined
on all of them.
-/

namespace ScalarMips

/-- A name with its type, where it is declared: a variable, a parameter or a function. -/
structure Declarator where
  /-- The declared name. -/
  name : String
  /-- The type of the variable or parameter, or the one the function returns. -/
  type : ScalarType
  /-- The name itself; for a function, from its name through its parameter list. -/
  span : Span
  deriving DecidableEq, Inhabited

/-- An expression. -/
inductive Expr where
  | literal (span : Span) (value : Literal)
  | var (span : Span) (name : String)
  | unary (span : Span) (op : Operator) (operand : Expr)
  | binary (span : Span) (op : Operator) (left right : Expr)
  | call (span : Span) (name : String) (arguments : List Expr)
  deriving Inhabited

namespace Expr

/-- Where an expression stands. -/
def span : Expr → Span
  | literal s _ | var s _ | unary s _ _ | binary s _ _ _ | call s _ _ => s

/-- The same expression with another span. -/
def withSpan (s : Span) : Expr → Expr
  | literal _ value => literal s value
  | var _ name => var s name
  | unary _ op operand => unary s op operand
  | binary _ op left right => binary s op left right
  | call _ name arguments => call s name arguments

@[simp] theorem span_withSpan (s : Span) (e : Expr) : (e.withSpan s).span = s := by
  cases e <;> rfl

end Expr

/-- What a print statement writes after its value. -/
inductive PrintEnd where
  | nothing
  | space
  | newline
  deriving DecidableEq, Inhabited

/-- A statement. -/
inductive Stmt where
  /-- Statements in a scope of their own. -/
  | block (span : Span) (body : List Stmt)
  /-- A function declaration. -/
  | function (span : Span) (head : Declarator) (parameters : List Declarator) (body : List Stmt)
  /-- A variable declaration. -/
  | var (span : Span) (head : Declarator) (initial : Option Expr)
  /-- An assignment; `target` is the span of the assigned name. -/
  | assign (span : Span) (name : String) (target : Span) (value : Expr)
  /-- A conditional statement. -/
  | conditional (span : Span) (condition : Expr) (thenBranch : Stmt) (elseBranch : Option Stmt)
  /-- A loop, run as long as its condition holds. -/
  | loop (span : Span) (condition : Expr) (body : Stmt)
  /-- An expression evaluated for its effect. -/
  | evaluate (span : Span) (value : Expr)
  /-- Return from a function. -/
  | return_ (span : Span) (value : Expr)
  /-- Print a value, a separator, or both. -/
  | print (span : Span) (ending : PrintEnd) (value : Option Expr)
  deriving Inhabited

namespace Stmt

/-- Where a statement stands. -/
def span : Stmt → Span
  | block s _ | function s _ _ _ | var s _ _ | assign s _ _ _ | conditional s _ _ _ | loop s _ _
  | evaluate s _ | return_ s _ | print s _ _ => s

/-- The word for the kind of a statement. -/
def kindName : Stmt → String
  | block .. => "block"
  | function .. => "function"
  | var .. => "variable"
  | assign .. => "assign"
  | conditional .. => "if"
  | loop .. => "while"
  | evaluate .. => "expression"
  | return_ .. => "return"
  | print _ .nothing _ => "print"
  | print _ .space _ => "printsp"
  | print _ .newline _ => "println"

end Stmt

end ScalarMips
