import ScalarMips.Tree.Parser

/-!
# Induction along the readers

The readers of expressions call one another, and so do those of statements. What is said of all of
them is proved along their recursion.

Which branch a reader takes is told by the first token. Every branch has an equation (`primary_call`
and so on), and the two inductions `ExprReaders.of_branches` and `StmtReaders.of_branches` have one
case for each branch, named like its equation. They speak of what a reader makes of its input: where
a branch is taken, what is to be shown is about the right-hand side of its equation.
-/

namespace ScalarMips.Parser

variable {α β : Type} {input rest : List Token} {token : Token}

/-! ### Two readings in a row -/

/-- Two readings in a row succeed exactly when both do. -/
theorem bind_eq_ok {first : Except Refusal α} {second : α → Except Refusal β} {b : β} :
    first >>= second = .ok b ↔ ∃ a, first = .ok a ∧ second a = .ok b := by
  constructor
  · intro h
    cases first with
    | error refusal => cases h
    | ok a => exact ⟨a, rfl, h⟩
  · rintro ⟨a, rfl, h⟩
    exact h

/-- Two readings in a row refuse where the first one does, or else where the second one does. -/
theorem bind_eq_error {first : Except Refusal α} {second : α → Except Refusal β} {r : Refusal} :
    first >>= second = .error r ↔
      first = .error r ∨ ∃ a, first = .ok a ∧ second a = .error r := by
  cases first with
  | error r' =>
    constructor
    · intro h
      cases h
      exact .inl rfl
    · rintro (h | ⟨a, ha, -⟩)
      · cases h
        rfl
      · cases ha
  | ok a =>
    constructor
    · intro h
      exact .inr ⟨a, rfl, h⟩
    · rintro (h | ⟨a', ha, h⟩)
      · cases h
      · cases ha
        exact h

theorem error_bind {first : Except Refusal α} {second : α → Except Refusal β} {r : Refusal}
    (h : first = .error r) : first >>= second = .error r :=
  bind_eq_error.2 (.inl h)

/-! ### The branches of the readers of expressions -/

theorem chain_stop {level : Level} {tighter : List Level} {left : Parsed Expr input}
    (hnone : level.accept? left.rest = none) : chain level tighter left = .ok left := by
  rw [chain, hnone]

/-- An expression with an operator and one more operand behind it. -/
def Parsed.extended (left : Parsed Expr input) (op : Parsed (Operator × Token) left.rest)
    (right : Parsed Expr op.rest) : Parsed Expr input :=
  ((left.after op).after right).map fun operand ↦
    .binary (left.value.span.to operand.span) op.value.1 left.value operand

theorem chain_operator {level : Level} {tighter : List Level} {left : Parsed Expr input}
    {op : Parsed (Operator × Token) left.rest} (hop : level.accept? left.rest = some op) :
    chain level tighter left = (do
      let right ← binary tighter op.rest
      chain level tighter (left.extended op right)) := by
  rw [chain, hop]
  rfl

theorem unary_operator {op : Parsed (Operator × Token) input}
    (hop : Level.unary.accept? input = some op) :
    unary input = (do
      let operand ← unary op.rest
      return (op.after operand).map fun operand ↦
        .unary (op.value.2.span.to operand.span) op.value.1 operand) := by
  rw [unary, hop]

theorem unary_operand (hnone : Level.unary.accept? input = none) : unary input = primary input := by
  rw [unary, hnone]

theorem primary_nil : primary [] = refuse .expression [] := by
  rw [primary]

theorem primary_number {number : Int32} (hkind : token.kind = .integerLiteral)
    (hnumber : Numeral.readWord? token.text = some number) :
    primary (token :: rest) =
      .ok (.one token (.literal token.span { type := .int, number })) := by
  rw [primary]
  simp only [hkind, hnumber]

theorem primary_overflow (hkind : token.kind = .integerLiteral)
    (hnumber : Numeral.readWord? token.text = none) :
    primary (token :: rest) = .error ⟨.integerTooLarge, some token.span⟩ := by
  rw [primary]
  simp only [hkind, hnumber]

theorem primary_true (hkind : token.kind = .keyword .true_) :
    primary (token :: rest) =
      .ok (.one token (.literal token.span { type := .bool, truth := true })) := by
  rw [primary]
  simp only [hkind]

theorem primary_false (hkind : token.kind = .keyword .false_) :
    primary (token :: rest) =
      .ok (.one token (.literal token.span { type := .bool, truth := false })) := by
  rw [primary]
  simp only [hkind]

theorem primary_name (hkind : token.kind = .identifier)
    (hnone : accept? (.mark .leftParen) rest = none) :
    primary (token :: rest) = .ok (.one token (.var token.span token.text)) := by
  rw [primary]
  simp only [hkind, hnone]

theorem primary_call {opening : Parsed Token rest} (hkind : token.kind = .identifier)
    (hopening : accept? (.mark .leftParen) rest = some opening) :
    primary (token :: rest) = (do
      let arguments ← arguments opening.rest
      return ((opening.after arguments).behind token).map fun (arguments, close) ↦
        .call (token.span.to close.span) token.text arguments) := by
  rw [primary]
  simp only [hkind, hopening]

theorem primary_group (hkind : token.kind = .mark .leftParen) :
    primary (token :: rest) = (do
      let inner ← binary Level.all rest
      let close ← expect (.mark .rightParen) .closeGroup inner.rest
      return ((inner.after close).behind token).map fun close ↦
        inner.value.withSpan (token.span.to close.span)) := by
  rw [primary]
  simp only [hkind]

/-- The kinds of tokens with which an operand begins. -/
def operandKinds : List TokenKind :=
  [.integerLiteral, .keyword .true_, .keyword .false_, .identifier, .mark .leftParen]

theorem primary_other (hkind : token.kind ∉ operandKinds) :
    primary (token :: rest) = refuse .expression (token :: rest) := by
  simp only [operandKinds, List.mem_cons, List.not_mem_nil, or_false, not_or] at hkind
  obtain ⟨hnumber, htrue, hfalse, hname, hparen⟩ := hkind
  rw [primary]
  split <;> first | rfl | contradiction

theorem arguments_none {close : Parsed Token input}
    (hclose : accept? (.mark .rightParen) input = some close) :
    arguments input = .ok (close.map fun close ↦ ([], close)) := by
  rw [arguments, hclose]

theorem arguments_some (hnone : accept? (.mark .rightParen) input = none) :
    arguments input = argumentsFrom input := by
  rw [arguments, hnone]

/-! ### Along the readers of expressions -/

/-- Something is true of what each reader of expressions makes of any input. -/
structure ExprReaders
    (B : List Level → ∀ input, Result Expr input → Prop)
    (C : Level → List Level → ∀ {input}, Parsed Expr input → Result Expr input → Prop)
    (U P : ∀ input, Result Expr input → Prop)
    (A F : ∀ input, Result (List Expr × Token) input → Prop) : Prop where
  /-- True of `binary`. -/
  binary : ∀ levels input, B levels input (binary levels input)
  /-- True of `chain`. -/
  chain : ∀ level tighter {input} (left : Parsed Expr input),
    C level tighter left (chain level tighter left)
  /-- True of `unary`. -/
  unary : ∀ input, U input (unary input)
  /-- True of `primary`. -/
  primary : ∀ input, P input (primary input)
  /-- True of `arguments`. -/
  arguments : ∀ input, A input (arguments input)
  /-- True of `argumentsFrom`. -/
  argumentsFrom : ∀ input, F input (argumentsFrom input)

section

variable {B : List Level → ∀ input, Result Expr input → Prop}
  {C : Level → List Level → ∀ {input}, Parsed Expr input → Result Expr input → Prop}
  {U P : ∀ input, Result Expr input → Prop}
  {A F : ∀ input, Result (List Expr × Token) input → Prop}

/-- What is true in every branch, if it is true of the readings that the branch is made of, is true
of all readers of expressions. -/
theorem ExprReaders.of_branches
    -- Operators and the operands between them.
    (operand : ∀ input, U input (Parser.unary input) → B [] input (Parser.unary input))
    (level : ∀ level tighter input, B tighter input (Parser.binary tighter input) →
      (∀ left : Parsed Expr input, C level tighter left (Parser.chain level tighter left)) →
        B (level :: tighter) input (do
          let left ← Parser.binary tighter input
          Parser.chain level tighter left))
    (stop : ∀ level tighter {input} (left : Parsed Expr input), level.accept? left.rest = none →
      C level tighter left (.ok left))
    (operator : ∀ level tighter {input} (left : Parsed Expr input)
      (op : Parsed (Operator × Token) left.rest), level.accept? left.rest = some op →
        B tighter op.rest (Parser.binary tighter op.rest) →
        (∀ right : Parsed Expr op.rest,
          C level tighter (left.extended op right)
            (Parser.chain level tighter (left.extended op right))) →
          C level tighter left (do
            let right ← Parser.binary tighter op.rest
            Parser.chain level tighter (left.extended op right)))
    -- Operators before an operand.
    (sign : ∀ input (op : Parsed (Operator × Token) input), Level.unary.accept? input = some op →
      U op.rest (Parser.unary op.rest) →
        U input (do
          let operand ← Parser.unary op.rest
          return (op.after operand).map fun operand ↦
            .unary (op.value.2.span.to operand.span) op.value.1 operand))
    (unsigned : ∀ input, Level.unary.accept? input = none → P input (Parser.primary input) →
      U input (Parser.primary input))
    -- Operands.
    (nil : P [] (refuse .expression []))
    (number : ∀ (token : Token) rest number, token.kind = .integerLiteral →
      Numeral.readWord? token.text = some number →
        P (token :: rest) (.ok (.one token (.literal token.span { type := .int, number }))))
    (overflow : ∀ (token : Token) rest, token.kind = .integerLiteral →
      Numeral.readWord? token.text = none →
        P (token :: rest) (.error ⟨.integerTooLarge, some token.span⟩))
    (truth : ∀ (token : Token) rest, token.kind = .keyword .true_ →
      P (token :: rest) (.ok (.one token (.literal token.span { type := .bool, truth := true }))))
    (falsity : ∀ (token : Token) rest, token.kind = .keyword .false_ →
      P (token :: rest) (.ok (.one token (.literal token.span { type := .bool, truth := false }))))
    (name : ∀ (token : Token) rest, token.kind = .identifier →
      accept? (.mark .leftParen) rest = none →
        P (token :: rest) (.ok (.one token (.var token.span token.text))))
    (call : ∀ (token : Token) rest opening, token.kind = .identifier →
      accept? (.mark .leftParen) rest = some opening →
      A opening.rest (Parser.arguments opening.rest) →
        P (token :: rest) (do
          let arguments ← Parser.arguments opening.rest
          return ((opening.after arguments).behind token).map fun (arguments, close) ↦
            .call (token.span.to close.span) token.text arguments))
    (group : ∀ (token : Token) rest, token.kind = .mark .leftParen →
      B Level.all rest (Parser.binary Level.all rest) →
        P (token :: rest) (do
          let inner ← Parser.binary Level.all rest
          let close ← expect (.mark .rightParen) .closeGroup inner.rest
          return ((inner.after close).behind token).map fun close ↦
            inner.value.withSpan (token.span.to close.span)))
    (other : ∀ (token : Token) rest, token.kind ∉ operandKinds →
      P (token :: rest) (refuse .expression (token :: rest)))
    -- Arguments.
    (noArguments : ∀ input close, accept? (.mark .rightParen) input = some close →
      A input (.ok (close.map fun close ↦ ([], close))))
    (someArguments : ∀ input, accept? (.mark .rightParen) input = none →
      F input (Parser.argumentsFrom input) → A input (Parser.argumentsFrom input))
    (argument : ∀ input, B Level.all input (Parser.binary Level.all input) →
      (∀ (argument : Parsed Expr input) (comma : Parsed Token argument.rest),
        F comma.rest (Parser.argumentsFrom comma.rest)) →
        F input (do
          let argument ← Parser.binary Level.all input
          match accept? (.mark .comma) argument.rest with
          | some comma =>
            let more ← Parser.argumentsFrom comma.rest
            return ((argument.after comma).after more).map fun (arguments, close) ↦
              (argument.value :: arguments, close)
          | none =>
            let close ← expect (.mark .rightParen) .closeArguments argument.rest
            return (argument.after close).map fun close ↦ ([argument.value], close))) :
    ExprReaders B C U P A F := by
  suffices h :
      (∀ levels input, B levels input (Parser.binary levels input)) ∧
      (∀ level tighter input (left : Parsed Expr input),
        C level tighter left (Parser.chain level tighter left)) ∧
      (∀ input, U input (Parser.unary input)) ∧ (∀ input, P input (Parser.primary input)) ∧
      (∀ input, A input (Parser.arguments input)) ∧
      ∀ input, F input (Parser.argumentsFrom input) from
    ⟨h.1, fun level tighter _ left ↦ h.2.1 level tighter _ left, h.2.2.1, h.2.2.2.1, h.2.2.2.2.1,
      h.2.2.2.2.2⟩
  apply binary.mutual_induct
  case case1 =>
    intro input ih
    rw [Parser.binary]
    exact operand input ih
  case case2 =>
    intro input level' tighter ihBinary ihChain
    rw [Parser.binary]
    exact level level' tighter input ihBinary ihChain
  case case3 =>
    intro level tighter input left hnone
    rw [chain_stop hnone]
    exact stop level tighter left hnone
  case case4 =>
    intro level tighter input left op hop ihBinary ihChain
    rw [chain_operator hop]
    exact operator level tighter left op hop ihBinary ihChain
  case case5 =>
    intro input op hop ih
    rw [unary_operator hop]
    exact sign input op hop ih
  case case6 =>
    intro input hnone ih
    rw [unary_operand hnone]
    exact unsigned input hnone ih
  case case7 =>
    rw [primary_nil]
    exact nil
  case case8 =>
    intro token rest hkind n hn
    rw [primary_number hkind hn]
    exact number token rest n hkind hn
  case case9 =>
    intro token rest hkind hn
    rw [primary_overflow hkind hn]
    exact overflow token rest hkind hn
  case case10 =>
    intro token rest hkind
    rw [primary_true hkind]
    exact truth token rest hkind
  case case11 =>
    intro token rest hkind
    rw [primary_false hkind]
    exact falsity token rest hkind
  case case12 =>
    intro token rest hkind hnone
    rw [primary_name hkind hnone]
    exact name token rest hkind hnone
  case case13 =>
    intro token rest hkind opening hopening ih
    rw [primary_call hkind hopening]
    exact call token rest opening hkind hopening ih
  case case14 =>
    intro token rest hkind ih
    rw [primary_group hkind]
    exact group token rest hkind ih
  case case15 =>
    intro token rest hnumber htrue hfalse hname hparen
    have hkind : token.kind ∉ operandKinds := by
      simp only [operandKinds, List.mem_cons, List.not_mem_nil, or_false, not_or]
      exact ⟨hnumber, htrue, hfalse, hname, hparen⟩
    rw [primary_other hkind]
    exact other token rest hkind
  case case16 =>
    intro input close hclose
    rw [arguments_none hclose]
    exact noArguments input close hclose
  case case17 =>
    intro input hnone ih
    rw [arguments_some hnone]
    exact someArguments input hnone ih
  case case18 =>
    intro input ihArgument ihMore
    rw [Parser.argumentsFrom]
    exact argument input ihArgument ihMore

end

/-! ### The branches of the readers of statements -/

theorem statement_nil : statement [] = refuse .expression [] := by
  rw [statement]

theorem statement_function (hkind : token.kind = .keyword .fun_) :
    statement (token :: rest) = .error ⟨.nestedFunction, some token.span⟩ := by
  rw [statement]
  simp only [hkind]

theorem statement_declaration (hkind : token.kind = .keyword .int ∨ token.kind = .keyword .bool) :
    statement (token :: rest) = varDeclaration token rest := by
  rw [statement]
  rcases hkind with hkind | hkind <;> simp only [hkind]

theorem statement_block (hkind : token.kind = .mark .leftBrace) :
    statement (token :: rest) = (do
      let body ← statements .closeBlock rest
      return (body.behind token).map fun (body, close) ↦
        .block (token.span.to close.span) body) := by
  rw [statement]
  simp only [hkind]

/-- Goes on with a conditional statement behind its first branch. -/
def otherwise (token : Token) (test : Parsed Expr rest) (thenBranch : Parsed Stmt test.rest) :
    Result Stmt (token :: rest) :=
  let upToThen := (test.after thenBranch).behind token
  match accept? (.keyword .else_) thenBranch.rest with
  | none =>
    return upToThen.map fun thenBranch ↦
      .conditional (token.span.to thenBranch.span) test.value thenBranch none
  | some els => do
    let elseBranch ← statement els.rest
    return ((upToThen.after els).after elseBranch).map fun elseBranch ↦
      .conditional (token.span.to elseBranch.span) test.value thenBranch.value (some elseBranch)

theorem statement_conditional (hkind : token.kind = .keyword .if_) :
    statement (token :: rest) = (do
      let test ← condition .if_ rest
      let thenBranch ← statement test.rest
      otherwise token test thenBranch) := by
  rw [statement]
  simp only [hkind]
  rfl

theorem statement_loop (hkind : token.kind = .keyword .while_) :
    statement (token :: rest) = (do
      let test ← condition .while_ rest
      let body ← statement test.rest
      return ((test.after body).behind token).map fun body ↦
        .loop (token.span.to body.span) test.value body) := by
  rw [statement]
  simp only [hkind]

theorem statement_return (hkind : token.kind = .keyword .return_) :
    statement (token :: rest) = (do
      let value ← terminated .returnValue rest
      return (value.behind token).map fun (value, close) ↦
        .return_ (token.span.to close.span) value) := by
  rw [statement]
  simp only [hkind]

theorem statement_print (hkind : token.kind = .keyword .print) :
    statement (token :: rest) = printValue token .nothing rest := by
  rw [statement]
  simp only [hkind]

theorem statement_printsp (hkind : token.kind = .keyword .printsp) :
    statement (token :: rest) = printSeparator token .space rest := by
  rw [statement]
  simp only [hkind]

theorem statement_println (hkind : token.kind = .keyword .println) :
    statement (token :: rest) = printSeparator token .newline rest := by
  rw [statement]
  simp only [hkind]

theorem statement_name (hkind : token.kind = .identifier) :
    statement (token :: rest) = nameStatement token rest := by
  rw [statement]
  simp only [hkind]

/-- The kinds of tokens with which a statement begins that is not read as an expression at once. -/
def statementKinds : List TokenKind :=
  [.keyword .fun_, .keyword .int, .keyword .bool, .mark .leftBrace, .keyword .if_, .keyword .while_,
    .keyword .return_, .keyword .print, .keyword .printsp, .keyword .println, .identifier]

theorem statement_expression (hkind : token.kind ∉ statementKinds) :
    statement (token :: rest) = expressionStatement (token :: rest) := by
  simp only [statementKinds, List.mem_cons, List.not_mem_nil, or_false, not_or] at hkind
  rw [statement]
  split <;> first | rfl | simp_all only [not_true_eq_false, false_and, and_false]

theorem statements_nil {closing : Expectation} : statements closing [] = refuse closing [] := by
  rw [statements]

theorem statements_close {closing : Expectation} (hkind : token.kind = .mark .rightBrace) :
    statements closing (token :: rest) = .ok (.one token ([], token)) := by
  rw [statements, if_pos hkind]

theorem statements_cons {closing : Expectation} (hkind : token.kind ≠ .mark .rightBrace) :
    statements closing (token :: rest) = (do
      let first ← statement (token :: rest)
      let more ← statements closing first.rest
      return (first.after more).map fun (body, close) ↦ (first.value :: body, close)) := by
  rw [statements, if_neg hkind]

/-! ### Along the readers of statements -/

/-- Something is true of what both readers of statements make of any input. -/
structure StmtReaders
    (S : ∀ input, Result Stmt input → Prop)
    (T : Expectation → ∀ input, Result (List Stmt × Token) input → Prop) : Prop where
  /-- True of `statement`. -/
  statement : ∀ input, S input (statement input)
  /-- True of `statements`. -/
  statements : ∀ closing input, T closing input (statements closing input)

section

variable {S : ∀ input, Result Stmt input → Prop}
  {T : Expectation → ∀ input, Result (List Stmt × Token) input → Prop}

/-- What is true in every branch, if it is true of the readings that the branch is made of, is true
of both readers of statements. -/
theorem StmtReaders.of_branches
    (nil : S [] (refuse .expression []))
    (function : ∀ (token : Token) rest, token.kind = .keyword .fun_ →
      S (token :: rest) (.error ⟨.nestedFunction, some token.span⟩))
    (declaration : ∀ (token : Token) rest,
      token.kind = .keyword .int ∨ token.kind = .keyword .bool →
        S (token :: rest) (varDeclaration token rest))
    (block : ∀ (token : Token) rest, token.kind = .mark .leftBrace →
      T .closeBlock rest (Parser.statements .closeBlock rest) →
        S (token :: rest) (do
          let body ← Parser.statements .closeBlock rest
          return (body.behind token).map fun (body, close) ↦
            .block (token.span.to close.span) body))
    (conditional : ∀ (token : Token) rest, token.kind = .keyword .if_ →
      (∀ test : Parsed Expr rest, S test.rest (Parser.statement test.rest)) →
      (∀ (test : Parsed Expr rest) (thenBranch : Parsed Stmt test.rest)
        (els : Parsed Token thenBranch.rest), S els.rest (Parser.statement els.rest)) →
        S (token :: rest) (do
          let test ← condition .if_ rest
          let thenBranch ← Parser.statement test.rest
          otherwise token test thenBranch))
    (loop : ∀ (token : Token) rest, token.kind = .keyword .while_ →
      (∀ test : Parsed Expr rest, S test.rest (Parser.statement test.rest)) →
        S (token :: rest) (do
          let test ← condition .while_ rest
          let body ← Parser.statement test.rest
          return ((test.after body).behind token).map fun body ↦
            .loop (token.span.to body.span) test.value body))
    (return_ : ∀ (token : Token) rest, token.kind = .keyword .return_ →
      S (token :: rest) (do
        let value ← terminated .returnValue rest
        return (value.behind token).map fun (value, close) ↦
          .return_ (token.span.to close.span) value))
    (print : ∀ (token : Token) rest, token.kind = .keyword .print →
      S (token :: rest) (printValue token .nothing rest))
    (printsp : ∀ (token : Token) rest, token.kind = .keyword .printsp →
      S (token :: rest) (printSeparator token .space rest))
    (println : ∀ (token : Token) rest, token.kind = .keyword .println →
      S (token :: rest) (printSeparator token .newline rest))
    (name : ∀ (token : Token) rest, token.kind = .identifier →
      S (token :: rest) (nameStatement token rest))
    (expression : ∀ (token : Token) rest, token.kind ∉ statementKinds →
      S (token :: rest) (expressionStatement (token :: rest)))
    (nothing : ∀ closing, T closing [] (refuse closing []))
    (close : ∀ closing (token : Token) (rest : List Token), token.kind = .mark .rightBrace →
      T closing (token :: rest) (.ok (.one token ([], token))))
    (cons : ∀ closing (token : Token) (rest : List Token), token.kind ≠ .mark .rightBrace →
      S (token :: rest) (Parser.statement (token :: rest)) →
      (∀ first : Parsed Stmt (token :: rest),
        T closing first.rest (Parser.statements closing first.rest)) →
        T closing (token :: rest) (do
          let first ← Parser.statement (token :: rest)
          let more ← Parser.statements closing first.rest
          return (first.after more).map fun (body, close) ↦ (first.value :: body, close))) :
    StmtReaders S T := by
  suffices h : (∀ input, S input (Parser.statement input)) ∧
      ∀ closing input, T closing input (Parser.statements closing input) from ⟨h.1, h.2⟩
  apply statement.mutual_induct
  case case1 =>
    rw [statement_nil]
    exact nil
  case case2 =>
    intro token rest hkind
    rw [statement_function hkind]
    exact function token rest hkind
  case case3 =>
    intro token rest hkind
    rw [statement_declaration (.inl hkind)]
    exact declaration token rest (.inl hkind)
  case case4 =>
    intro token rest hkind
    rw [statement_declaration (.inr hkind)]
    exact declaration token rest (.inr hkind)
  case case5 =>
    intro token rest hkind ih
    rw [statement_block hkind]
    exact block token rest hkind ih
  case case6 =>
    intro token rest hkind ihThen ihElse
    rw [statement_conditional hkind]
    exact conditional token rest hkind ihThen ihElse
  case case7 =>
    intro token rest hkind ih
    rw [statement_loop hkind]
    exact loop token rest hkind ih
  case case8 =>
    intro token rest hkind
    rw [statement_return hkind]
    exact return_ token rest hkind
  case case9 =>
    intro token rest hkind
    rw [statement_print hkind]
    exact print token rest hkind
  case case10 =>
    intro token rest hkind
    rw [statement_printsp hkind]
    exact printsp token rest hkind
  case case11 =>
    intro token rest hkind
    rw [statement_println hkind]
    exact println token rest hkind
  case case12 =>
    intro token rest hkind
    rw [statement_name hkind]
    exact name token rest hkind
  case case13 =>
    intro token rest hfun hint hbool hbrace hif hwhile hreturn hprint hprintsp hprintln hname
    have hkind : token.kind ∉ statementKinds := by
      simp only [statementKinds, List.mem_cons, List.not_mem_nil, or_false, not_or]
      exact ⟨hfun, hint, hbool, hbrace, hif, hwhile, hreturn, hprint, hprintsp, hprintln, hname⟩
    rw [statement_expression hkind]
    exact expression token rest hkind
  case case14 =>
    intro closing
    rw [statements_nil]
    exact nothing closing
  case case15 =>
    intro closing token rest hkind
    rw [statements_close hkind]
    exact close closing token rest hkind
  case case16 =>
    intro closing token rest hkind ihFirst ihMore
    rw [statements_cons hkind]
    exact cons closing token rest hkind ihFirst ihMore

end

end ScalarMips.Parser
