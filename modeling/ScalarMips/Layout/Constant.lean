import ScalarMips.Layout.Symbol
import ScalarMips.Tree.Basic

/-!
# Constant values

The value of an expression that is known before the program runs. Sums, differences and products
wrap at 32 bits; a quotient is rounded toward zero and a remainder has the sign of the dividend. A
division by zero, and the one division whose quotient does not fit in a word, have no value. Truth
values are zero and one.
-/

namespace ScalarMips.Constant

/-- The value of a unary operator. -/
def unary : Operator → Int32 → Option Int32
  | .minus, value => some (-value)
  | .plus, value => some value
  | .not, value => some (wordOfBool (value = 0))
  | _, _ => none

/-- Whether a quotient and a remainder exist and fit in a word. -/
def divides (left right : Int32) : Bool :=
  right ≠ 0 && ¬ (left = Int32.minValue ∧ right = -1)

/-- The value of a binary operator. -/
def binary (op : Operator) (left right : Int32) : Option Int32 :=
  match op with
  | .plus => some (left + right)
  | .minus => some (left - right)
  | .times => some (left * right)
  | .divide => if divides left right then some (left / right) else none
  | .modulo => if divides left right then some (left % right) else none
  | .and => some (wordOfBool (left ≠ 0 && right ≠ 0))
  | .or => some (wordOfBool (left ≠ 0 || right ≠ 0))
  | .equal => some (wordOfBool (left = right))
  | .notEqual => some (wordOfBool (left ≠ right))
  | .less => some (wordOfBool (left < right))
  | .lessEqual => some (wordOfBool (left ≤ right))
  | .greater => some (wordOfBool (right < left))
  | .greaterEqual => some (wordOfBool (right ≤ left))
  | .not => none

/-- The value of a global variable: its initial value, or zero if it has none. -/
def variableValue (globals : SymbolTable) (name : String) : Option Int32 :=
  match globals.find? name with
  | some (.var _ _ _ initial) => some (initial.getD 0)
  | _ => none

/-- The value of an expression over the global variables. A call has none. -/
def fold (globals : SymbolTable) : Expr → Option Int32
  | .literal _ value => some value.word
  | .var _ name => variableValue globals name
  | .unary _ op operand => (fold globals operand).bind (unary op)
  | .binary _ op left right =>
    (fold globals left).bind fun l ↦ (fold globals right).bind fun r ↦ binary op l r
  | .call .. => none

end ScalarMips.Constant
