import Mathlib.Data.List.Basic
import ScalarMips.Layout.Constant
import ScalarMips.Proofs.Typing

/-!
# Exact values of constants

What a constant expression means, said with integers instead of words. Sums, differences, products
and changed signs are reduced to 32 bits with a sign, quotients are rounded toward zero, and truth
values are zero and one. An expression that has no value says why (`Cause`).

An expression is `Foldable` over a table if all its names are variables of the table, all its
operators are in their places and it calls nothing. The folded value of such an expression is its
exact value, and there is none only because of a division (`Foldable.agrees`).
-/

namespace ScalarMips.Constant

/-! ### Exact values -/

/-- Why an expression has no exact value. -/
inductive Cause where
  /-- A quotient or remainder that does not exist or does not fit in a word. -/
  | division
  /-- A name that is not known. -/
  | name
  /-- A call. -/
  | call
  /-- An operator in a place where it means nothing. -/
  | operator
  deriving DecidableEq

/-- An integer, reduced to 32 bits with a sign. -/
def signed (x : Int) : Int :=
  x.bmod (2 ^ 32)

/-- The integer that stands for a truth value. -/
def truth (b : Bool) : Int :=
  if b then 1 else 0

/-- A quotient or remainder that does not exist or does not fit in a word. -/
def Undefined (left right : Int) : Prop :=
  right = 0 ∨ left = -2 ^ 31 ∧ right = -1

instance (left right : Int) : Decidable (Undefined left right) :=
  inferInstanceAs (Decidable (_ ∨ _))

/-- The exact value of a unary operator. -/
def exactUnary : Operator → Int → Except Cause Int
  | .minus, x => .ok (signed (-x))
  | .plus, x => .ok x
  | .not, x => .ok (truth (x = 0))
  | _, _ => .error .operator

/-- The exact value of a binary operator. -/
def exactBinary (op : Operator) (left right : Int) : Except Cause Int :=
  match op with
  | .plus => .ok (signed (left + right))
  | .minus => .ok (signed (left - right))
  | .times => .ok (signed (left * right))
  | .divide => if Undefined left right then .error .division else .ok (left.tdiv right)
  | .modulo => if Undefined left right then .error .division else .ok (left.tmod right)
  | .and => .ok (truth (left ≠ 0 ∧ right ≠ 0))
  | .or => .ok (truth (left ≠ 0 ∨ right ≠ 0))
  | .equal => .ok (truth (left = right))
  | .notEqual => .ok (truth (left ≠ right))
  | .less => .ok (truth (left < right))
  | .lessEqual => .ok (truth (left ≤ right))
  | .greater => .ok (truth (left > right))
  | .greaterEqual => .ok (truth (left ≥ right))
  | .not => .error .operator

/-- The exact value of an expression whose names have known values. -/
def exact (known : String → Option Int) : Expr → Except Cause Int
  | .literal _ value => .ok (if value.type = .bool then truth value.truth else value.number.toInt)
  | .var _ name => (known name).elim (.error .name) .ok
  | .unary _ op operand => do exactUnary op (← exact known operand)
  | .binary _ op left right => do exactBinary op (← exact known left) (← exact known right)
  | .call .. => .error .call

/-- Some division or remainder inside an expression has operands for which it is not defined. -/
def DividesBadly (known : String → Option Int) (e : Expr) : Prop :=
  ∃ span op left right, .binary span op left right ∈ e.parts ∧ op ∈ [.divide, .modulo] ∧
    ∃ x y, exact known left = .ok x ∧ exact known right = .ok y ∧ Undefined x y

/-! ### Words and integers -/

theorem toInt_wordOfBool (b : Bool) : (wordOfBool b).toInt = truth b := by
  cases b <;> rfl

theorem toInt_word (value : Literal) :
    value.word.toInt = if value.type = .bool then truth value.truth else value.number.toInt := by
  rw [Literal.word]
  split
  · exact toInt_wordOfBool _
  · rfl

theorem divides_iff {x y : Int32} : divides x y = true ↔ ¬ Undefined x.toInt y.toInt := by
  have hzero : y = 0 ↔ y.toInt = 0 := Int32.toInt_inj.symm
  have hmin : x = Int32.minValue ↔ x.toInt = -2 ^ 31 := Int32.toInt_inj.symm
  have hminus : y = -1 ↔ y.toInt = -1 := Int32.toInt_inj.symm
  simp [divides, Undefined, hzero, hmin, hminus, imp_iff_not_or]

/-- The word that an operator gives is its exact value, and only a division gives none. -/
def Agrees (value : Option Int32) (exact : Except Cause Int) : Prop :=
  (value.map fun v ↦ Except.ok v.toInt).getD (.error .division) = exact

theorem Agrees.some {v : Int32} {exact : Except Cause Int} (h : Agrees (some v) exact) :
    exact = .ok v.toInt := h.symm

theorem Agrees.none {exact : Except Cause Int} (h : Agrees none exact) :
    exact = .error .division := h.symm

theorem unary_agrees {op : Operator} (hop : op.IsUnary) (x : Int32) :
    Agrees (unary op x) (exactUnary op x.toInt) := by
  rcases hop with rfl | rfl | rfl
  · rfl
  · exact congrArg Except.ok (Int32.toInt_neg x)
  · have hzero : x = 0 ↔ x.toInt = 0 := Int32.toInt_inj.symm
    simp [Agrees, unary, exactUnary, toInt_wordOfBool, hzero]

theorem toInt_div {x y : Int32} (h : ¬ Undefined x.toInt y.toInt) :
    (x / y).toInt = x.toInt.tdiv y.toInt := by
  by_cases hx : x = Int32.minValue
  · refine Int32.toInt_div_of_ne_right x y fun hy ↦ h (.inr ?_)
    rw [hx, hy]
    exact ⟨rfl, rfl⟩
  · exact Int32.toInt_div_of_ne_left x y hx

theorem binary_agrees {op : Operator} (hop : op ≠ .not) (x y : Int32) :
    Agrees (binary op x y) (exactBinary op x.toInt y.toInt) := by
  have hzero : ∀ z : Int32, z = 0 ↔ z.toInt = 0 := fun z ↦ Int32.toInt_inj.symm
  have hequal : x = y ↔ x.toInt = y.toInt := Int32.toInt_inj.symm
  cases op with
  | plus => exact congrArg Except.ok (Int32.toInt_add x y)
  | minus => exact congrArg Except.ok (Int32.toInt_sub x y)
  | times => exact congrArg Except.ok (Int32.toInt_mul x y)
  | divide =>
    rw [binary, exactBinary]
    by_cases h : Undefined x.toInt y.toInt
    · rw [if_pos h, if_neg (by rwa [divides_iff, not_not])]
      rfl
    · rw [if_neg h, if_pos (divides_iff.2 h)]
      exact congrArg Except.ok (toInt_div h)
  | modulo =>
    rw [binary, exactBinary]
    by_cases h : Undefined x.toInt y.toInt
    · rw [if_pos h, if_neg (by rwa [divides_iff, not_not])]
      rfl
    · rw [if_neg h, if_pos (divides_iff.2 h)]
      exact congrArg Except.ok (Int32.toInt_mod x y)
  | not => exact absurd rfl hop
  | _ =>
    simp [Agrees, binary, exactBinary, toInt_wordOfBool, hzero, hequal, Int32.lt_iff_toInt_lt,
      Int32.le_iff_toInt_le]

/-! ### Folding -/

/-- An expression that folding looks at without meeting what it does not fold. -/
def FoldsHere (globals : SymbolTable) : Expr → Prop
  | .literal .. => True
  | .var _ name => ∃ type offset initial, globals.find? name = some (.var name type offset initial)
  | .unary _ op _ => op.IsUnary
  | .binary _ op _ _ => op ≠ .not
  | .call .. => False

/-- No part of an expression is a call, a name that is no variable, or an operator in a place where
it means nothing. -/
def Foldable (globals : SymbolTable) (e : Expr) : Prop :=
  ∀ part ∈ e.parts, FoldsHere globals part

/-- The values of global variables as integers. -/
def knownValue (globals : SymbolTable) (name : String) : Option Int :=
  (variableValue globals name).map Int32.toInt

variable {globals : SymbolTable} {known : String → Option Int}

theorem Foldable.unary {span : Span} {op : Operator} {operand : Expr}
    (h : Foldable globals (.unary span op operand)) : op.IsUnary ∧ Foldable globals operand :=
  List.forall_mem_cons.1 h

theorem Foldable.binary {span : Span} {op : Operator} {left right : Expr}
    (h : Foldable globals (.binary span op left right)) :
    op ≠ .not ∧ Foldable globals left ∧ Foldable globals right := by
  obtain ⟨hop, hrest⟩ := List.forall_mem_cons.1 h
  exact ⟨hop, List.forall_mem_append.1 hrest⟩

/-- Folding an expression gives its exact value, and only a division gives none. -/
theorem Foldable.agrees : ∀ {e : Expr}, Foldable globals e →
    Agrees (fold globals e) (exact (knownValue globals) e)
  | .literal _ value, _ => congrArg Except.ok (toInt_word value)
  | .var _ name, h => by
    obtain ⟨type, offset, initial, hfind⟩ := h _ List.mem_cons_self
    rw [fold, exact, knownValue, variableValue, hfind]
    rfl
  | .unary _ op operand, h => by
    obtain ⟨hop, hoperand⟩ := h.unary
    have ih := hoperand.agrees
    rw [fold, exact, ← ih]
    cases fold globals operand with
    | none => rfl
    | some x => exact unary_agrees hop x
  | .binary _ op left right, h => by
    obtain ⟨hop, hleft, hright⟩ := h.binary
    have ihl := hleft.agrees
    have ihr := hright.agrees
    rw [fold, exact, ← ihl, ← ihr]
    cases fold globals left with
    | none => rfl
    | some x =>
      cases fold globals right with
      | none => rfl
      | some y => exact binary_agrees hop x y
  | .call .., h => (h _ List.mem_cons_self).elim

theorem exactUnary_ne_division (op : Operator) (x : Int) :
    exactUnary op x ≠ .error .division := by
  cases op <;> exact nofun

theorem undefined_of_exactBinary {op : Operator} {x y : Int}
    (h : exactBinary op x y = .error .division) : op ∈ [.divide, .modulo] ∧ Undefined x y := by
  cases op with
  | divide =>
    by_cases hundefined : Undefined x y
    · exact ⟨List.mem_cons_self, hundefined⟩
    · rw [exactBinary, if_neg hundefined] at h
      cases h
  | modulo =>
    by_cases hundefined : Undefined x y
    · exact ⟨List.mem_cons_of_mem _ List.mem_cons_self, hundefined⟩
    · rw [exactBinary, if_neg hundefined] at h
      cases h
  | _ => cases h

/-- A part of an expression divides badly in the whole expression. -/
theorem DividesBadly.of_parts {part e : Expr} (h : DividesBadly known part)
    (hparts : part.parts ⊆ e.parts) : DividesBadly known e := by
  obtain ⟨span, op, left, right, hmem, hrest⟩ := h
  exact ⟨span, op, left, right, hparts hmem, hrest⟩

/-- An expression fails because of a division only where there is a bad one. -/
theorem dividesBadly_of_exact : ∀ {e : Expr}, exact known e = .error .division →
    DividesBadly known e
  | .literal .., h => by cases h
  | .var _ name, h => by
    rw [exact] at h
    cases hname : known name <;> rw [hname] at h <;> cases h
  | .unary _ op operand, h => by
    rw [exact] at h
    cases hoperand : exact known operand with
    | error cause =>
      rw [hoperand] at h
      cases h
      exact (dividesBadly_of_exact hoperand).of_parts (List.subset_cons_self _ _)
    | ok x =>
      rw [hoperand] at h
      exact absurd h (exactUnary_ne_division op x)
  | .binary span op left right, h => by
    rw [exact] at h
    cases hleft : exact known left with
    | error cause =>
      rw [hleft] at h
      cases h
      exact (dividesBadly_of_exact hleft).of_parts fun _ hpart ↦
        List.mem_cons_of_mem _ (List.mem_append_left _ hpart)
    | ok x =>
      rw [hleft] at h
      cases hright : exact known right with
      | error cause =>
        rw [hright] at h
        cases h
        exact (dividesBadly_of_exact hright).of_parts fun _ hpart ↦
          List.mem_cons_of_mem _ (List.mem_append_right _ hpart)
      | ok y =>
        rw [hright] at h
        obtain ⟨hop, hundefined⟩ := undefined_of_exactBinary h
        exact ⟨span, op, left, right, List.mem_cons_self, hop, x, y, hleft, hright, hundefined⟩
  | .call .., h => by cases h

end ScalarMips.Constant
