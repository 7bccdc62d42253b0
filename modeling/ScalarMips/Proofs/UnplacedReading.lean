import ScalarMips.Proofs.Readers
import ScalarMips.Proofs.Unplaced

/-!
# Reading without positions

Whether tokens spell a program, and which one, does not depend on where they stand. Every reader is
run on the given tokens and on the same tokens without their positions, and the second result is the
first one without positions (`Result.unplaced`): the same tree and rest, or the same fault. Since
the results are compared as a whole, a reader that is made of other readers needs no more than their
equations.
-/

namespace ScalarMips

namespace Parser

/-! ### Results -/

/-- Tokens without their positions. -/
abbrev unplacedTokens (input : List Token) : List Token :=
  input.map Token.unplaced

variable {α β : Type} {input : List Token}

/-- A reading without positions, its value replaced by `f`. -/
def Parsed.unplaced (f : α → β) (p : Parsed α input) : Parsed β (unplacedTokens input) :=
  ⟨f p.value, unplacedTokens p.rest, by
    rw [List.length_map, List.length_map]
    exact p.shorter⟩

/-- A refusal without its position. -/
def Refusal.unplaced (r : Refusal) : Refusal :=
  ⟨r.fault, r.span.map fun _ ↦ {}⟩

/-- A result without positions. -/
def Result.unplaced (f : α → β) (result : Result α input) : Result β (unplacedTokens input) :=
  match result with
  | .error refusal => .error refusal.unplaced
  | .ok p => .ok (p.unplaced f)

/-- One reader after another. -/
theorem Result.bind_unplaced {α' β' : Type} {f : α → α'} {g : β → β'} (input : List Token)
    {rest : List Token} {first : Result α rest} {second : Parsed α rest → Result β input}
    {first' : Result α' (unplacedTokens rest)}
    {second' : Parsed α' (unplacedTokens rest) → Result β' (unplacedTokens input)}
    (hfirst : first' = first.unplaced f)
    (hsecond : ∀ p, second' (p.unplaced f) = (second p).unplaced g) :
    first' >>= second' = Result.unplaced g (first >>= second) := by
  subst hfirst
  cases first with
  | error refusal => rfl
  | ok p => exact hsecond p

/-- A reader that comes to an end. -/
theorem Result.pure_unplaced {g : α → β} (input : List Token) {p : Parsed α input}
    {p' : Parsed β (unplacedTokens input)} (hvalue : p'.value = g p.value)
    (hrest : p'.rest = unplacedTokens p.rest) :
    (pure p' : Result β (unplacedTokens input)) = Result.unplaced g (pure p) := by
  obtain ⟨value, rest, shorter⟩ := p'
  subst hvalue hrest
  rfl

theorem refuse_unplaced (wanted : Expectation) (input : List Token) (f : α → β) :
    refuse wanted (unplacedTokens input) =
      Result.unplaced f (refuse wanted input : Result α input) := by
  cases input <;> rfl

theorem accept?_unplaced (kind : TokenKind) (input : List Token) :
    accept? kind (unplacedTokens input) =
      (accept? kind input).map (Parsed.unplaced Token.unplaced) := by
  cases input with
  | nil => rfl
  | cons token rest =>
    show (if token.kind = kind then _ else _) = Option.map _ (if token.kind = kind then _ else _)
    split <;> rfl

theorem accept?_rest_unplaced {kind : TokenKind} (f : α → β) {p : Parsed α input}
    {next : Option (Parsed Token p.rest)} (h : accept? kind p.rest = next) :
    accept? kind (p.unplaced f).rest = next.map (Parsed.unplaced Token.unplaced) := by
  subst h
  exact accept?_unplaced kind p.rest

theorem expect_unplaced (kind : TokenKind) (wanted : Expectation) (input : List Token) :
    expect kind wanted (unplacedTokens input) =
      Result.unplaced Token.unplaced (expect kind wanted input) := by
  unfold expect
  rw [accept?_unplaced]
  cases accept? kind input with
  | none => exact refuse_unplaced wanted input Token.unplaced
  | some token => rfl

/-- An operator with its token, which loses its position. -/
def unplacedOperator (op : Operator × Token) : Operator × Token :=
  (op.1, op.2.unplaced)

theorem Level.accept?_unplaced (level : Level) (input : List Token) :
    level.accept? (unplacedTokens input) =
      (level.accept? input).map (Parsed.unplaced unplacedOperator) := by
  cases input with
  | nil => rfl
  | cons token rest =>
    show (level.operator? token.kind).map _ = ((level.operator? token.kind).map _).map _
    cases level.operator? token.kind <;> rfl

/-! ### Expressions -/

/-- Arguments with the closing parenthesis, all without positions. -/
def unplacedArguments (p : List Expr × Token) : List Expr × Token :=
  (Expr.unplacedAll p.1, p.2.unplaced)

/-- All readers of expressions read the same without positions. -/
theorem expr_unplaced : ExprReaders
    (fun levels input r ↦ binary levels (unplacedTokens input) = r.unplaced Expr.unplaced)
    (fun level tighter _ left r ↦
      chain level tighter (left.unplaced Expr.unplaced) = r.unplaced Expr.unplaced)
    (fun input r ↦ unary (unplacedTokens input) = r.unplaced Expr.unplaced)
    (fun input r ↦ primary (unplacedTokens input) = r.unplaced Expr.unplaced)
    (fun input r ↦ arguments (unplacedTokens input) = r.unplaced unplacedArguments)
    (fun input r ↦ argumentsFrom (unplacedTokens input) = r.unplaced unplacedArguments) := by
  apply ExprReaders.of_branches
  case operand =>
    intro input ih
    rw [binary, ih]
  case level =>
    intro level tighter input ihBinary ihChain
    rw [binary]
    exact Result.bind_unplaced _ ihBinary ihChain
  case stop =>
    intro level tighter input left hnone
    have haccept : level.accept? (left.unplaced Expr.unplaced).rest = none :=
      (Level.accept?_unplaced level left.rest).trans (congrArg (Option.map _) hnone)
    exact chain_stop haccept
  case operator =>
    intro level tighter input left op hop ihBinary ihChain
    have haccept : level.accept? (left.unplaced Expr.unplaced).rest =
        some (op.unplaced unplacedOperator) :=
      (Level.accept?_unplaced level left.rest).trans (congrArg (Option.map _) hop)
    rw [chain_operator haccept]
    refine Result.bind_unplaced _ ihBinary fun right ↦ Eq.trans ?_ (ihChain right)
    refine congrArg (chain level tighter) ?_
    simp only [Parsed.unplaced, Parsed.extended, Parsed.map, Parsed.after, Expr.unplaced,
      Expr.span_unplaced]
    rfl
  case sign =>
    intro input op hop ih
    have haccept : Level.unary.accept? (unplacedTokens input) =
        some (op.unplaced unplacedOperator) :=
      (Level.accept?_unplaced _ input).trans (congrArg (Option.map _) hop)
    rw [unary_operator haccept]
    refine Result.bind_unplaced _ ih fun operand ↦ ?_
    simp only [Parsed.unplaced, Parsed.map, Parsed.after, Expr.span_unplaced]
    rfl
  case unsigned =>
    intro input hnone ih
    have haccept : Level.unary.accept? (unplacedTokens input) = none :=
      (Level.accept?_unplaced _ input).trans (congrArg (Option.map _) hnone)
    rw [unary_operand haccept]
    exact ih
  case nil =>
    exact primary_nil
  case number =>
    intro token rest number hkind hnumber
    exact primary_number hkind hnumber
  case overflow =>
    intro token rest hkind hnumber
    exact primary_overflow hkind hnumber
  case truth =>
    intro token rest hkind
    exact primary_true hkind
  case falsity =>
    intro token rest hkind
    exact primary_false hkind
  case name =>
    intro token rest hkind hnone
    have haccept : accept? (.mark .leftParen) (unplacedTokens rest) = none :=
      (accept?_unplaced _ rest).trans (congrArg (Option.map _) hnone)
    exact primary_name hkind haccept
  case call =>
    intro token rest opening hkind hopening ih
    have haccept : accept? (.mark .leftParen) (unplacedTokens rest) =
        some (opening.unplaced Token.unplaced) :=
      (accept?_unplaced _ rest).trans (congrArg (Option.map _) hopening)
    have hkind : token.unplaced.kind = .identifier := hkind
    refine (primary_call hkind haccept).trans ?_
    exact Result.bind_unplaced (token :: rest) ih fun arguments ↦ rfl
  case group =>
    intro token rest hkind ih
    have hkind : token.unplaced.kind = .mark .leftParen := hkind
    refine (primary_group hkind).trans ?_
    refine Result.bind_unplaced (token :: rest) ih fun inner ↦ ?_
    refine Result.bind_unplaced (token :: rest) (expect_unplaced _ _ inner.rest) fun close ↦ ?_
    refine Result.pure_unplaced (token :: rest) ?_ rfl
    exact (Expr.withSpan_unplaced _).trans (Expr.unplaced_withSpan _ _).symm
  case other =>
    intro token rest hkind
    exact primary_other hkind
  case noArguments =>
    intro input close hclose
    have haccept : accept? (.mark .rightParen) (unplacedTokens input) =
        some (close.unplaced Token.unplaced) :=
      (accept?_unplaced _ input).trans (congrArg (Option.map _) hclose)
    exact arguments_none haccept
  case someArguments =>
    intro input hnone ih
    have haccept : accept? (.mark .rightParen) (unplacedTokens input) = none :=
      (accept?_unplaced _ input).trans (congrArg (Option.map _) hnone)
    rw [arguments_some haccept]
    exact ih
  case argument =>
    intro input ihFirst ihMore
    rw [argumentsFrom]
    refine Result.bind_unplaced _ ihFirst fun argument ↦ ?_
    cases hcomma : accept? (.mark .comma) argument.rest with
    | none =>
      rw [accept?_rest_unplaced Expr.unplaced hcomma]
      exact Result.bind_unplaced _ (expect_unplaced _ _ argument.rest) fun close ↦ rfl
    | some comma =>
      rw [accept?_rest_unplaced Expr.unplaced hcomma]
      exact Result.bind_unplaced _ (ihMore argument comma) fun more ↦ rfl

theorem expression_unplaced (input : List Token) :
    expression (unplacedTokens input) = Result.unplaced Expr.unplaced (expression input) :=
  expr_unplaced.binary Level.all input

/-- An expression and the token after it, without positions. -/
def unplacedTerminated (p : Expr × Token) : Expr × Token :=
  (p.1.unplaced, p.2.unplaced)

theorem terminated_unplaced (closed : Terminated) (input : List Token) :
    terminated closed (unplacedTokens input) =
      Result.unplaced unplacedTerminated (terminated closed input) := by
  refine Result.bind_unplaced _ (expression_unplaced input) fun value ↦ ?_
  exact Result.bind_unplaced _ (expect_unplaced _ _ value.rest) fun close ↦ rfl

/-! ### Declarators -/

theorem scalarType_unplaced (input : List Token) :
    scalarType (unplacedTokens input) = Result.unplaced id (scalarType input) := by
  cases input with
  | nil => rfl
  | cons token rest =>
    show scalarType (token.unplaced :: unplacedTokens rest) = _
    simp only [scalarType, Token.kind_unplaced]
    split <;> rfl

theorem declarator_unplaced (wanted : Expectation) (input : List Token) :
    declarator wanted (unplacedTokens input) =
      Result.unplaced Declarator.unplaced (declarator wanted input) := by
  refine Result.bind_unplaced _ (scalarType_unplaced input) fun type ↦ ?_
  exact Result.bind_unplaced _ (expect_unplaced _ _ type.rest) fun name ↦ rfl

/-- Parameters with the closing parenthesis, all without positions. -/
def unplacedParameters (p : List Declarator × Token) : List Declarator × Token :=
  (p.1.map Declarator.unplaced, p.2.unplaced)

theorem parametersFrom_unplaced (input : List Token) :
    parametersFrom (unplacedTokens input) =
      Result.unplaced unplacedParameters (parametersFrom input) := by
  induction input using parametersFrom.induct with
  | case1 input ih =>
    rw [parametersFrom, parametersFrom]
    refine Result.bind_unplaced _ (declarator_unplaced _ input) fun parameter ↦ ?_
    cases hcomma : accept? (.mark .comma) parameter.rest with
    | none =>
      rw [accept?_rest_unplaced Declarator.unplaced hcomma]
      exact Result.bind_unplaced _ (expect_unplaced _ _ parameter.rest) fun close ↦ rfl
    | some comma =>
      rw [accept?_rest_unplaced Declarator.unplaced hcomma]
      exact Result.bind_unplaced _ (ih parameter comma) fun more ↦ rfl

theorem parameters_unplaced (input : List Token) :
    parameters (unplacedTokens input) = Result.unplaced unplacedParameters (parameters input) := by
  unfold parameters
  rw [accept?_unplaced]
  cases accept? (.mark .rightParen) input with
  | none => exact parametersFrom_unplaced input
  | some close => rfl

/-! ### Simple statements -/

theorem varDeclaration_unplaced (first : Token) (rest : List Token) :
    varDeclaration first.unplaced (unplacedTokens rest) =
      Result.unplaced Stmt.unplaced (varDeclaration first rest) := by
  refine Result.bind_unplaced (first :: rest) (declarator_unplaced _ (first :: rest)) fun head ↦ ?_
  cases hequals : accept? (.mark .equals) head.rest with
  | none =>
    rw [accept?_rest_unplaced Declarator.unplaced hequals]
    exact Result.bind_unplaced (first :: rest) (expect_unplaced _ _ head.rest) fun close ↦ rfl
  | some equals =>
    rw [accept?_rest_unplaced Declarator.unplaced hequals]
    exact Result.bind_unplaced (first :: rest) (terminated_unplaced _ equals.rest) fun initial ↦ rfl

theorem printValue_unplaced (keyword : Token) (ending : PrintEnd) (rest : List Token) :
    printValue keyword.unplaced ending (unplacedTokens rest) =
      Result.unplaced Stmt.unplaced (printValue keyword ending rest) :=
  Result.bind_unplaced (keyword :: rest) (terminated_unplaced _ rest) fun _ ↦ rfl

theorem printSeparator_unplaced (keyword : Token) (ending : PrintEnd) (rest : List Token) :
    printSeparator keyword.unplaced ending (unplacedTokens rest) =
      Result.unplaced Stmt.unplaced (printSeparator keyword ending rest) := by
  unfold printSeparator
  rw [accept?_unplaced]
  cases accept? (.mark .semicolon) rest with
  | none => exact printValue_unplaced keyword ending rest
  | some close => rfl

theorem expressionStatement_unplaced (input : List Token) :
    expressionStatement (unplacedTokens input) =
      Result.unplaced Stmt.unplaced (expressionStatement input) := by
  refine Result.bind_unplaced _ (terminated_unplaced _ input) fun value ↦ ?_
  refine Result.pure_unplaced _ ?_ rfl
  show Stmt.evaluate (value.value.1.unplaced.span.to {}) value.value.1.unplaced = _
  rw [Expr.span_unplaced]
  rfl

theorem nameStatement_unplaced (name : Token) (rest : List Token) :
    nameStatement name.unplaced (unplacedTokens rest) =
      Result.unplaced Stmt.unplaced (nameStatement name rest) := by
  unfold nameStatement
  rw [accept?_unplaced]
  cases accept? (.mark .equals) rest with
  | none => exact expressionStatement_unplaced (name :: rest)
  | some equals =>
    exact Result.bind_unplaced (name :: rest) (terminated_unplaced _ equals.rest) fun value ↦ rfl

theorem condition_unplaced (keyword : Keyword) (input : List Token) :
    condition keyword (unplacedTokens input) =
      Result.unplaced Expr.unplaced (condition keyword input) := by
  refine Result.bind_unplaced _ (expect_unplaced _ _ input) fun opening ↦ ?_
  refine Result.bind_unplaced _ (expression_unplaced opening.rest) fun value ↦ ?_
  exact Result.bind_unplaced _ (expect_unplaced _ _ value.rest) fun closing ↦ rfl

/-! ### Statements -/

/-- Statements with the closing brace, all without positions. -/
def unplacedBody (p : List Stmt × Token) : List Stmt × Token :=
  (Stmt.unplacedAll p.1, p.2.unplaced)

theorem otherwise_unplaced {rest : List Token} (first : Token) (test : Parsed Expr rest)
    (thenBranch : Parsed Stmt test.rest)
    (ih : ∀ els : Parsed Token thenBranch.rest, statement (unplacedTokens els.rest) =
      (statement els.rest).unplaced Stmt.unplaced) :
    otherwise first.unplaced (test.unplaced Expr.unplaced) (thenBranch.unplaced Stmt.unplaced) =
      (otherwise first test thenBranch).unplaced Stmt.unplaced := by
  unfold otherwise
  cases helse : accept? (.keyword .else_) thenBranch.rest with
  | none =>
    rw [accept?_rest_unplaced Stmt.unplaced helse]
    refine Result.pure_unplaced (first :: rest) ?_ rfl
    show Stmt.conditional (Span.to {} thenBranch.value.unplaced.span) _ _ none = _
    rw [Stmt.span_unplaced]
    rfl
  | some els =>
    rw [accept?_rest_unplaced Stmt.unplaced helse]
    refine Result.bind_unplaced (first :: rest) (ih els) fun elseBranch ↦ ?_
    refine Result.pure_unplaced (first :: rest) ?_ rfl
    show Stmt.conditional (Span.to {} elseBranch.value.unplaced.span) _ _ (some _) = _
    rw [Stmt.span_unplaced]
    rfl

/-- The readers of statements read the same without positions. -/
theorem stmt_unplaced : StmtReaders
    (fun input r ↦ statement (unplacedTokens input) = r.unplaced Stmt.unplaced)
    (fun closing input r ↦ statements closing (unplacedTokens input) =
      r.unplaced unplacedBody) := by
  apply StmtReaders.of_branches
  case nil =>
    exact statement_nil
  case function =>
    intro token rest hkind
    exact statement_function hkind
  case declaration =>
    intro token rest hkind
    have hkind : token.unplaced.kind = _ ∨ token.unplaced.kind = _ := hkind
    exact (statement_declaration hkind).trans (varDeclaration_unplaced token rest)
  case block =>
    intro token rest hkind ih
    have hkind : token.unplaced.kind = .mark .leftBrace := hkind
    refine (statement_block hkind).trans ?_
    exact Result.bind_unplaced (token :: rest) ih fun body ↦ rfl
  case conditional =>
    intro token rest hkind ihThen ihElse
    have hkind : token.unplaced.kind = .keyword .if_ := hkind
    refine (statement_conditional hkind).trans ?_
    refine Result.bind_unplaced (token :: rest) (condition_unplaced _ rest) fun test ↦ ?_
    exact Result.bind_unplaced (token :: rest) (ihThen test) fun thenBranch ↦
      otherwise_unplaced token test thenBranch (ihElse test thenBranch)
  case loop =>
    intro token rest hkind ih
    have hkind : token.unplaced.kind = .keyword .while_ := hkind
    refine (statement_loop hkind).trans ?_
    refine Result.bind_unplaced (token :: rest) (condition_unplaced _ rest) fun test ↦ ?_
    refine Result.bind_unplaced (token :: rest) (ih test) fun body ↦ ?_
    refine Result.pure_unplaced (token :: rest) ?_ rfl
    show Stmt.loop (Span.to {} body.value.unplaced.span) _ _ = _
    rw [Stmt.span_unplaced]
    rfl
  case return_ =>
    intro token rest hkind
    have hkind : token.unplaced.kind = .keyword .return_ := hkind
    refine (statement_return hkind).trans ?_
    exact Result.bind_unplaced (token :: rest) (terminated_unplaced _ rest) fun value ↦ rfl
  case print =>
    intro token rest hkind
    have hkind : token.unplaced.kind = .keyword .print := hkind
    exact (statement_print hkind).trans (printValue_unplaced token _ rest)
  case printsp =>
    intro token rest hkind
    have hkind : token.unplaced.kind = .keyword .printsp := hkind
    exact (statement_printsp hkind).trans (printSeparator_unplaced token _ rest)
  case println =>
    intro token rest hkind
    have hkind : token.unplaced.kind = .keyword .println := hkind
    exact (statement_println hkind).trans (printSeparator_unplaced token _ rest)
  case name =>
    intro token rest hkind
    have hkind : token.unplaced.kind = .identifier := hkind
    exact (statement_name hkind).trans (nameStatement_unplaced token rest)
  case expression =>
    intro token rest hkind
    have hkind : token.unplaced.kind ∉ statementKinds := hkind
    exact (statement_expression hkind).trans (expressionStatement_unplaced (token :: rest))
  case nothing =>
    intro closing
    exact statements_nil
  case close =>
    intro closing token rest hkind
    exact statements_close hkind
  case cons =>
    intro closing token rest hkind ihFirst ihMore
    have hkind : token.unplaced.kind ≠ .mark .rightBrace := hkind
    refine (statements_cons hkind).trans ?_
    refine Result.bind_unplaced (token :: rest) ihFirst fun first ↦ ?_
    exact Result.bind_unplaced (token :: rest) (ihMore first) fun more ↦ rfl

/-! ### Programs -/

theorem function_unplaced (keyword : Token) (rest : List Token) :
    function keyword.unplaced (unplacedTokens rest) =
      Result.unplaced Stmt.unplaced (function keyword rest) := by
  refine Result.bind_unplaced (keyword :: rest) (scalarType_unplaced rest) fun type ↦ ?_
  refine Result.bind_unplaced (keyword :: rest) (expect_unplaced _ _ type.rest) fun name ↦ ?_
  refine Result.bind_unplaced (keyword :: rest) (expect_unplaced _ _ name.rest) fun opening ↦ ?_
  refine Result.bind_unplaced (keyword :: rest) (parameters_unplaced opening.rest)
    fun parameters ↦ ?_
  refine Result.bind_unplaced (keyword :: rest) (expect_unplaced _ _ parameters.rest)
    fun brace ↦ ?_
  exact Result.bind_unplaced (keyword :: rest) (stmt_unplaced.statements _ brace.rest)
    fun body ↦ rfl

theorem declaration_unplaced (first : Token) (rest : List Token) :
    declaration first.unplaced (unplacedTokens rest) =
      Result.unplaced Stmt.unplaced (declaration first rest) := by
  unfold declaration
  by_cases hfun : first.kind = .keyword .fun_
  · rw [if_pos (show first.unplaced.kind = _ from hfun), if_pos hfun]
    exact function_unplaced first rest
  · rw [if_neg (show ¬ first.unplaced.kind = _ from hfun), if_neg hfun]
    exact stmt_unplaced.statement (first :: rest)

theorem program_unplaced (input : List Token) :
    program (unplacedTokens input) =
      ((program input).mapError Refusal.unplaced).map Stmt.unplacedAll := by
  induction input using program.induct with
  | case1 =>
    show program [] = _
    rw [program]
    rfl
  | case2 first rest ih =>
    show program (first.unplaced :: unplacedTokens rest) = _
    rw [program, program, declaration_unplaced]
    cases declaration first rest with
    | error refusal => rfl
    | ok head =>
      show (program (unplacedTokens head.rest) >>= _) =
        Except.map _ (Except.mapError _ (program head.rest >>= _))
      rw [ih]
      cases program head.rest <;> rfl

end Parser

/-- The program that tokens spell, and the fault if they spell none, do not depend on the positions
of the tokens. -/
theorem parse_unplaced (tokens : List Token) :
    (parse (tokens.map Token.unplaced)).mapError Located.val =
      ((parse tokens).map Stmt.unplacedAll).mapError Located.val := by
  have hlast : (tokens.map Token.unplaced).getLast?.map Token.kind =
      tokens.getLast?.map Token.kind := by
    rw [List.getLast?_map, Option.map_map]
    rfl
  have hfront : (tokens.map Token.unplaced).takeWhile (·.kind ≠ .endOfFile) =
      (tokens.takeWhile (·.kind ≠ .endOfFile)).map Token.unplaced := by
    rw [List.takeWhile_map]
    rfl
  have hrest : (tokens.map Token.unplaced).dropWhile (·.kind ≠ .endOfFile) =
      (tokens.dropWhile (·.kind ≠ .endOfFile)).map Token.unplaced := by
    rw [List.dropWhile_map]
    rfl
  unfold parse
  rw [hlast, hrest, hfront, Parser.program_unplaced]
  split
  · cases tokens.dropWhile (·.kind ≠ .endOfFile) with
    | nil => rfl
    | cons last rest => cases Parser.program (tokens.takeWhile (·.kind ≠ .endOfFile)) <;> rfl
  · rfl

end ScalarMips
