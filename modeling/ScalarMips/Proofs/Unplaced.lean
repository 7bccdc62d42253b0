import Mathlib.Logic.Basic
import ScalarMips.Compile

/-!
# Trees without positions

What is left of tokens and trees when all positions are forgotten (`unplaced`). Lowering a program
reads no position: the unique names are the same with and without them (`flatten_unplacedAll`), and
so are the symbol tables (`build_unplacedAll`) and, as long as statements are not annotated, the
code (`program_unplacedAll`).
-/

namespace ScalarMips

/-- A token without its position. -/
def Token.unplaced (t : Token) : Token :=
  { t with span := {} }

@[simp] theorem Token.kind_unplaced (t : Token) : t.unplaced.kind = t.kind := rfl

@[simp] theorem Token.text_unplaced (t : Token) : t.unplaced.text = t.text := rfl

@[simp] theorem Token.span_unplaced (t : Token) : t.unplaced.span = {} := rfl

/-- A declaration without its position. -/
def Declarator.unplaced (d : Declarator) : Declarator :=
  { d with span := {} }

@[simp] theorem Declarator.name_unplaced (d : Declarator) : d.unplaced.name = d.name := rfl

@[simp] theorem Declarator.type_unplaced (d : Declarator) : d.unplaced.type = d.type := rfl

mutual

/-- An expression without the positions in it. -/
def Expr.unplaced : Expr → Expr
  | .literal _ value => .literal {} value
  | .var _ name => .var {} name
  | .unary _ op operand => .unary {} op operand.unplaced
  | .binary _ op left right => .binary {} op left.unplaced right.unplaced
  | .call _ name arguments => .call {} name (Expr.unplacedAll arguments)

/-- Expressions without the positions in them. -/
def Expr.unplacedAll : List Expr → List Expr
  | [] => []
  | e :: es => e.unplaced :: Expr.unplacedAll es

end

mutual

/-- A statement without the positions in it. -/
def Stmt.unplaced : Stmt → Stmt
  | .block _ body => .block {} (Stmt.unplacedAll body)
  | .function _ head parameters body =>
    .function {} head.unplaced (parameters.map Declarator.unplaced) (Stmt.unplacedAll body)
  | .var _ head initial => .var {} head.unplaced (initial.map Expr.unplaced)
  | .assign _ name _ value => .assign {} name {} value.unplaced
  | .conditional _ condition thenBranch none =>
    .conditional {} condition.unplaced thenBranch.unplaced none
  | .conditional _ condition thenBranch (some elseBranch) =>
    .conditional {} condition.unplaced thenBranch.unplaced (some elseBranch.unplaced)
  | .loop _ condition body => .loop {} condition.unplaced body.unplaced
  | .evaluate _ value => .evaluate {} value.unplaced
  | .return_ _ value => .return_ {} value.unplaced
  | .print _ ending value => .print {} ending (value.map Expr.unplaced)
termination_by structural stmt => stmt

/-- Statements without the positions in them. -/
def Stmt.unplacedAll : List Stmt → List Stmt
  | [] => []
  | stmt :: stmts => stmt.unplaced :: Stmt.unplacedAll stmts
termination_by structural stmts => stmts

end

@[simp] theorem Expr.span_unplaced (e : Expr) : e.unplaced.span = {} := by
  cases e <;> rfl

@[simp] theorem Stmt.span_unplaced (s : Stmt) : s.unplaced.span = {} := by
  cases s with
  | conditional span condition thenBranch elseBranch => cases elseBranch <;> rfl
  | _ => rfl

@[simp] theorem Expr.unplaced_withSpan (s : Span) (e : Expr) :
    (e.withSpan s).unplaced = e.unplaced := by
  cases e <;> rfl

@[simp] theorem Expr.withSpan_unplaced (e : Expr) : e.unplaced.withSpan {} = e.unplaced := by
  cases e <;> rfl

theorem Expr.length_unplacedAll (es : List Expr) : (Expr.unplacedAll es).length = es.length := by
  induction es with
  | nil => rfl
  | cons e es ih => exact congrArg (· + 1) ih

theorem Stmt.length_unplacedAll (stmts : List Stmt) :
    (Stmt.unplacedAll stmts).length = stmts.length := by
  induction stmts with
  | nil => rfl
  | cons stmt stmts ih => exact congrArg (· + 1) ih

theorem Stmt.kindName_unplaced (s : Stmt) : s.unplaced.kindName = s.kindName := by
  cases s with
  | conditional span condition thenBranch elseBranch => cases elseBranch <;> rfl
  | print span ending value => cases ending <;> rfl
  | _ => rfl

/-! ### Unique names -/

namespace Renaming

mutual

theorem renameExpr_unplaced (scopes : Scopes) : ∀ e : Expr,
    renameExpr scopes e.unplaced = (renameExpr scopes e).unplaced
  | .literal .. => rfl
  | .var .. => rfl
  | .unary _ op operand => congrArg (Expr.unary {} op) (renameExpr_unplaced scopes operand)
  | .binary _ op left right =>
    congrArg₂ (Expr.binary {} op) (renameExpr_unplaced scopes left)
      (renameExpr_unplaced scopes right)
  | .call _ name arguments =>
    congrArg (Expr.call {} (rename scopes name)) (renameExprs_unplacedAll scopes arguments)

theorem renameExprs_unplacedAll (scopes : Scopes) : ∀ es : List Expr,
    renameExprs scopes (Expr.unplacedAll es) = Expr.unplacedAll (renameExprs scopes es)
  | [] => rfl
  | e :: es =>
    congrArg₂ List.cons (renameExpr_unplaced scopes e) (renameExprs_unplacedAll scopes es)

end

theorem map_renameExpr_unplaced (scopes : Scopes) (value : Option Expr) :
    (value.map Expr.unplaced).map (renameExpr scopes) =
      (value.map (renameExpr scopes)).map Expr.unplaced := by
  cases value with
  | none => rfl
  | some e => exact congrArg some (renameExpr_unplaced scopes e)

theorem bindParameters_unplaced (entry : String) (parameters : List Declarator) (s : State) :
    bindParameters entry (parameters.map Declarator.unplaced) s =
      ((bindParameters entry parameters s).1.map Declarator.unplaced,
        (bindParameters entry parameters s).2) := by
  induction parameters generalizing s with
  | nil => rfl
  | cons p parameters ih =>
    have hrest := ih (bind entry .var p.name s).2
    simp only [List.map_cons, bindParameters]
    rw [show p.unplaced.name = p.name from rfl, hrest]
    rfl

mutual

theorem renameStmt_unplaced (entry : String) : ∀ (stmt : Stmt) (s : State),
    renameStmt entry stmt.unplaced s =
      ((renameStmt entry stmt s).1.unplaced, (renameStmt entry stmt s).2)
  | .block _ body, s => by
    simp only [Stmt.unplaced, renameStmt, renameAll_unplacedAll entry body s.push]
  | .function _ head parameters body, s => by
    simp only [Stmt.unplaced, renameStmt, bindParameters_unplaced]
    rw [renameAll_unplacedAll entry body]
    rfl
  | .var _ head initial, s => by
    simp only [Stmt.unplaced, renameStmt, map_renameExpr_unplaced]
    rfl
  | .assign _ name _ value, s => by
    simp only [Stmt.unplaced, renameStmt, renameExpr_unplaced]
  | .conditional _ condition thenBranch none, s => by
    simp only [Stmt.unplaced, renameStmt, renameExpr_unplaced,
      renameStmt_unplaced entry thenBranch s.push]
  | .conditional _ condition thenBranch (some elseBranch), s => by
    simp only [Stmt.unplaced, renameStmt, renameExpr_unplaced,
      renameStmt_unplaced entry thenBranch s.push, renameStmt_unplaced entry elseBranch]
  | .loop _ condition body, s => by
    simp only [Stmt.unplaced, renameStmt, renameExpr_unplaced,
      renameStmt_unplaced entry body s.push]
  | .evaluate _ value, s => by simp only [Stmt.unplaced, renameStmt, renameExpr_unplaced]
  | .return_ _ value, s => by simp only [Stmt.unplaced, renameStmt, renameExpr_unplaced]
  | .print _ ending value, s => by simp only [Stmt.unplaced, renameStmt, map_renameExpr_unplaced]

theorem renameAll_unplacedAll (entry : String) : ∀ (stmts : List Stmt) (s : State),
    renameAll entry (Stmt.unplacedAll stmts) s =
      (Stmt.unplacedAll (renameAll entry stmts s).1, (renameAll entry stmts s).2)
  | [], _ => rfl
  | stmt :: stmts, s => by
    simp only [Stmt.unplacedAll, renameAll, renameStmt_unplaced entry stmt s]
    rw [renameAll_unplacedAll entry stmts]

end

theorem bindFunctions_unplacedAll (entry : String) (program : List Stmt) (s : State) :
    bindFunctions entry (Stmt.unplacedAll program) s = bindFunctions entry program s := by
  induction program generalizing s with
  | nil => rfl
  | cons stmt program ih =>
    cases stmt with
    | function span head parameters body => exact ih _
    | conditional span condition thenBranch elseBranch => cases elseBranch <;> exact ih s
    | _ => exact ih s

theorem flatten_unplacedAll (entry : String) (program : List Stmt) :
    flatten entry (Stmt.unplacedAll program) = Stmt.unplacedAll (flatten entry program) := by
  rw [flatten, bindFunctions_unplacedAll, renameAll_unplacedAll]
  rfl

end Renaming

/-! ### Storage -/

theorem Constant.fold_unplaced (globals : SymbolTable) : ∀ e : Expr,
    fold globals e.unplaced = fold globals e
  | .literal .. => rfl
  | .var .. => rfl
  | .unary _ op operand => by rw [Expr.unplaced, fold, fold, fold_unplaced globals operand]
  | .binary _ op left right => by
    rw [Expr.unplaced, fold, fold, fold_unplaced globals left, fold_unplaced globals right]
  | .call .. => rfl

namespace Layout

mutual

theorem declared_unplaced : ∀ stmt : Stmt, declared stmt.unplaced = declared stmt
  | .block _ body => declaredAll_unplacedAll body
  | .conditional _ _ thenBranch none => declared_unplaced thenBranch
  | .conditional _ _ thenBranch (some elseBranch) =>
    congrArg₂ (· ++ ·) (declared_unplaced thenBranch) (declared_unplaced elseBranch)
  | .loop _ _ body => declared_unplaced body
  | .function .. => rfl
  | .var .. => rfl
  | .assign .. => rfl
  | .evaluate .. => rfl
  | .return_ .. => rfl
  | .print .. => rfl

theorem declaredAll_unplacedAll : ∀ stmts : List Stmt,
    declaredAll (Stmt.unplacedAll stmts) = declaredAll stmts
  | [] => rfl
  | stmt :: stmts => congrArg₂ (· ++ ·) (declared_unplaced stmt) (declaredAll_unplacedAll stmts)

end

theorem putParameters_unplaced (parameters : List Declarator) (table : SymbolTable) :
    putParameters (parameters.map Declarator.unplaced) table = putParameters parameters table := by
  induction parameters generalizing table with
  | nil => rfl
  | cons p parameters ih => exact congrArg (Progress.andThen _) (funext ih)

theorem putStmt_unplaced (table : SymbolTable) (stmt : Stmt) :
    putStmt table stmt.unplaced = putStmt table stmt := by
  cases stmt with
  | function span head parameters body =>
    simp only [Stmt.unplaced, putStmt, putFunction, putParameters_unplaced,
      declaredAll_unplacedAll]
    rfl
  | var span head initial =>
    have hvalue : (initial.map Expr.unplaced).bind (Constant.fold table) =
        initial.bind (Constant.fold table) := by
      cases initial with
      | none => rfl
      | some e => exact Constant.fold_unplaced table e
    simp only [Stmt.unplaced, putStmt, putGlobal, hvalue]
    rfl
  | conditional span condition thenBranch elseBranch => cases elseBranch <;> rfl
  | _ => rfl

theorem build_unplacedAll (program : List Stmt) (table : SymbolTable) :
    build (Stmt.unplacedAll program) table = build program table := by
  induction program generalizing table with
  | nil => rfl
  | cons stmt program ih =>
    rw [Stmt.unplacedAll, build, build, putStmt_unplaced]
    exact congrArg (Progress.andThen _) (funext ih)

end Layout

/-! ### Code -/

namespace Generate

variable {c : Context}

mutual

theorem expr_unplaced (c : Context) : ∀ e : Expr, expr c e.unplaced = expr c e
  | .literal .. => rfl
  | .var .. => rfl
  | .unary _ op operand => by rw [Expr.unplaced, expr, expr, expr_unplaced c operand]
  | .binary _ op left right => by
    rw [Expr.unplaced, expr, expr, expr_unplaced c left, expr_unplaced c right]
  | .call _ name arguments => by
    rw [Expr.unplaced, expr, expr, argumentsCode_unplacedAll c arguments,
      Expr.length_unplacedAll]

theorem argumentsCode_unplacedAll (c : Context) : ∀ es : List Expr,
    argumentsCode c (Expr.unplacedAll es) = argumentsCode c es
  | [] => rfl
  | e :: es => congrArg₂ (· ++ ·) (argumentsCode_unplacedAll c es) (expr_unplaced c e)

end

theorem conditionCode_unplaced (c : Context) (condition : Expr) (otherwise : String) :
    conditionCode c condition.unplaced otherwise = conditionCode c condition otherwise := by
  rw [conditionCode, conditionCode, expr_unplaced]

theorem storeCode_unplaced (c : Context) (name : String) (value : Option Expr) :
    storeCode c name (value.map Expr.unplaced) = storeCode c name value := by
  cases value with
  | none => rfl
  | some e =>
    unfold storeCode
    cases c.address? name with
    | none => rfl
    | some address => exact congrArg (· ++ _) (expr_unplaced c e)

theorem printCode_unplaced (c : Context) (ending : PrintEnd) (value : Option Expr) :
    printCode c ending (value.map Expr.unplaced) = printCode c ending value := by
  cases value with
  | none => rfl
  | some e => simp only [printCode, Option.map_some, expr_unplaced]

mutual

theorem branchCount_unplaced : ∀ stmt : Stmt, branchCount stmt.unplaced = branchCount stmt
  | .block _ body => branchCountAll_unplacedAll body
  | .conditional _ _ thenBranch none => congrArg (1 + ·) (branchCount_unplaced thenBranch)
  | .conditional _ _ thenBranch (some elseBranch) =>
    congrArg₂ (1 + · + ·) (branchCount_unplaced thenBranch) (branchCount_unplaced elseBranch)
  | .loop _ _ body => congrArg (1 + ·) (branchCount_unplaced body)
  | .function .. => rfl
  | .var .. => rfl
  | .assign .. => rfl
  | .evaluate .. => rfl
  | .return_ .. => rfl
  | .print .. => rfl

theorem branchCountAll_unplacedAll : ∀ stmts : List Stmt,
    branchCountAll (Stmt.unplacedAll stmts) = branchCountAll stmts
  | [] => rfl
  | stmt :: stmts =>
    congrArg₂ (· + ·) (branchCount_unplaced stmt) (branchCountAll_unplacedAll stmts)

end

theorem remark_eq_empty (hc : c.annotate = false) (s : Stmt) : remark c s = {} := by
  rw [remark, hc]
  rfl

mutual

theorem stmt_unplaced (hc : c.annotate = false) : ∀ (s : Stmt) (n : UInt32),
    stmt c s.unplaced n = stmt c s n
  | .block _ body, n => by
    simp only [Stmt.unplaced, stmt, remark_eq_empty hc, stmts_unplacedAll hc body n]
  | .function _ head parameters body, n => by
    simp only [Stmt.unplaced, stmt, remark_eq_empty hc]
    rfl
  | .var _ head initial, n => by
    simp only [Stmt.unplaced, stmt, remark_eq_empty hc, storeCode_unplaced]
    rfl
  | .assign _ name _ value, n => by
    simp only [Stmt.unplaced, stmt, remark_eq_empty hc]
    exact congrArg _ (storeCode_unplaced c name (some value))
  | .conditional _ condition thenBranch none, n => by
    simp only [Stmt.unplaced, stmt, remark_eq_empty hc, conditionCode_unplaced,
      stmt_unplaced hc thenBranch]
  | .conditional _ condition thenBranch (some elseBranch), n => by
    simp only [Stmt.unplaced, stmt, remark_eq_empty hc, conditionCode_unplaced,
      stmt_unplaced hc thenBranch, stmt_unplaced hc elseBranch, branchCount_unplaced]
  | .loop _ condition body, n => by
    simp only [Stmt.unplaced, stmt, remark_eq_empty hc, conditionCode_unplaced,
      stmt_unplaced hc body]
  | .evaluate _ value, n => by
    simp only [Stmt.unplaced, stmt, remark_eq_empty hc, expr_unplaced]
  | .return_ _ value, n => by
    simp only [Stmt.unplaced, stmt, remark_eq_empty hc, expr_unplaced]
  | .print _ ending value, n => by
    simp only [Stmt.unplaced, stmt, remark_eq_empty hc, printCode_unplaced]

theorem stmts_unplacedAll (hc : c.annotate = false) : ∀ (ss : List Stmt) (n : UInt32),
    stmts c (Stmt.unplacedAll ss) n = stmts c ss n
  | [], _ => rfl
  | s :: ss, n => by
    simp only [Stmt.unplacedAll, stmts, stmt_unplaced hc s, branchCount_unplaced,
      stmts_unplacedAll hc ss]

end

theorem topLevel_unplaced {options : Options} (ho : options.annotate = false)
    (globals : SymbolTable) (n : UInt32) (stmt : Stmt) :
    topLevel globals options n stmt.unplaced = topLevel globals options n stmt := by
  cases stmt with
  | function span head parameters body =>
    simp only [Stmt.unplaced, topLevel, Declarator.unplaced]
    cases globals.locals? head.name with
    | none => rfl
    | some locals => simp only [function, stmts_unplacedAll (c := ⟨globals, locals, _, _⟩) ho]
  | conditional span condition thenBranch elseBranch => cases elseBranch <;> rfl
  | print span ending value =>
    show (Emission.fault (.topLevelStatement (Stmt.unplaced _).kindName)).output "" = _
    rw [Stmt.kindName_unplaced]
    rfl
  | _ => rfl

theorem topLevelBranches_unplaced (globals : SymbolTable) (stmt : Stmt) :
    topLevelBranches globals stmt.unplaced = topLevelBranches globals stmt := by
  cases stmt with
  | function span head parameters body =>
    simp only [Stmt.unplaced, topLevelBranches, branchCountAll_unplacedAll]
    rfl
  | conditional span condition thenBranch elseBranch => cases elseBranch <;> rfl
  | _ => rfl

theorem functions_unplacedAll {options : Options} (ho : options.annotate = false)
    (globals : SymbolTable) (program : List Stmt) (n : UInt32) :
    functions globals options (Stmt.unplacedAll program) n =
      functions globals options program n := by
  induction program generalizing n with
  | nil => rfl
  | cons stmt program ih =>
    simp only [Stmt.unplacedAll, functions, topLevel_unplaced ho, topLevelBranches_unplaced, ih]

theorem program_unplacedAll {options : Options} (ho : options.annotate = false)
    (globals : SymbolTable) (stmts : List Stmt) :
    program globals options (Stmt.unplacedAll stmts) = program globals options stmts := by
  simp only [program, functions_unplacedAll ho]

end Generate

/-- Lowering a program reads no position, unless statements are annotated. -/
theorem Compile.lower_unplacedAll {settings : Settings} (hs : settings.annotate = false)
    (program : List Stmt) :
    lower settings (Stmt.unplacedAll program) = lower settings program := by
  simp only [lower, Renaming.flatten_unplacedAll, Layout.build_unplacedAll,
    Stmt.length_unplacedAll]
  rw [Generate.program_unplacedAll hs]

end ScalarMips
