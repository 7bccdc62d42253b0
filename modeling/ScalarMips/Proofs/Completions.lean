import ScalarMips.Proofs.Grammar

/-!
# Completing what has begun

Which tokens something of the grammar can begin with (`Completable`). An expression can be completed
at every place where an operand is missing, a statement wherever a statement or an expression is
missing, and so on up to programs: there is one lemma for every place in the grammar at which tokens
can run out. What is missing is always filled in with the shortest thing of its kind.
-/

namespace ScalarMips.Grammar

variable {α β : Type} {derived : List Token → α → Prop} {derived' : List Token → β → Prop}
  {ts first : List Token}

/-- Tokens that something of a kind can begin with. -/
def Completable (derived : List Token → α → Prop) (ts : List Token) : Prop :=
  ∃ tail a, derived (ts ++ tail) a

theorem Completable.of_derived {a : α} (h : derived ts a) : Completable derived ts :=
  ⟨[], a, by rwa [List.append_nil]⟩

/-- What can be completed stands behind some tokens and before others. -/
theorem Completable.within (h : Completable derived ts) (first last : List Token)
    (hwhole : ∀ us a, derived us a → ∃ b, derived' (first ++ (us ++ last)) b) :
    Completable derived' (first ++ ts) := by
  obtain ⟨tail, a, ha⟩ := h
  obtain ⟨b, hb⟩ := hwhole _ a ha
  refine ⟨tail ++ last, b, ?_⟩
  rwa [List.append_assoc, ← List.append_assoc ts]

/-- A shorter beginning can be completed as well. -/
theorem Completable.of_append (more : List Token) (h : Completable derived (ts ++ more)) :
    Completable derived ts := by
  obtain ⟨tail, a, ha⟩ := h
  exact ⟨more ++ tail, a, by rwa [← List.append_assoc]⟩

/-- A token of a kind. -/
def token (kind : TokenKind) : Token :=
  ⟨kind, "", {}⟩

/-! ### Expressions -/

theorem Expression.of_primary {e : Expr} (h : Expression .primary ts e) :
    ∀ t : Tier, Expression t ts e := by
  have hunary : Expression .unary ts e := .operand rfl h
  have hfactor : Expression .factor ts e := .operand rfl hunary
  have hterm : Expression .term ts e := .operand rfl hfactor
  have hcomparison : Expression .comparison ts e := .operand rfl hterm
  have hequality : Expression .equality ts e := .operand rfl hcomparison
  have hand : Expression .and ts e := .operand rfl hequality
  intro t
  cases t with
  | or => exact .operand rfl hand
  | and => exact hand
  | equality => exact hequality
  | comparison => exact hcomparison
  | term => exact hterm
  | factor => exact hfactor
  | unary => exact hunary
  | primary => exact h

/-- Tokens that an expression can begin with. -/
abbrev InExpression (t : Tier) : List Token → Prop :=
  Completable (Expression t)

/-- Tokens that arguments can begin with. -/
abbrev InArguments : List Token → Prop :=
  Completable Arguments

theorem inExpression_nil (t : Tier) : InExpression t [] :=
  ⟨[token (.keyword .true_)], _, Expression.of_primary (.truth rfl) t⟩

theorem InExpression.operand {t t' : Tier} (htighter : t.tighter? = some t')
    (h : InExpression t' ts) : InExpression t ts :=
  h.within [] [] fun _ _ he ↦ ⟨_, by simpa using Expression.operand htighter he⟩

theorem InExpression.binary {t t' : Tier} (htighter : t.tighter? = some t') {left : Expr}
    (hleft : Expression t first left) {operator : Token} {mark : Mark} {op : Operator}
    (hmark : operator.kind = .mark mark) (hop : binary? mark = some (t, op))
    (h : InExpression t' ts) : InExpression t (first ++ operator :: ts) := by
  rw [List.append_cons]
  exact h.within _ [] fun _ _ hright ↦
    ⟨_, by simpa using Expression.binary htighter hleft hmark hop hright⟩

theorem InExpression.unary {operator : Token} {mark : Mark} {op : Operator}
    (hmark : operator.kind = .mark mark) (hop : unary? mark = some op)
    (h : InExpression .unary ts) : InExpression .unary (operator :: ts) :=
  h.within [operator] [] fun _ _ he ↦ ⟨_, by simpa using Expression.unary hmark hop he⟩

theorem InArguments.call {name opening : Token} (hname : name.kind = .identifier)
    (hopening : opening.kind = .mark .leftParen) (h : InArguments ts) :
    InExpression .primary (name :: opening :: ts) :=
  h.within [name, opening] [token (.mark .rightParen)] fun _ _ hes ↦
    ⟨_, .call hname hopening hes rfl⟩

theorem InExpression.group {opening : Token} (hopening : opening.kind = .mark .leftParen)
    (h : InExpression .or ts) : InExpression .primary (opening :: ts) :=
  h.within [opening] [token (.mark .rightParen)] fun _ _ he ↦ ⟨_, .group hopening he rfl⟩

theorem InExpression.arguments (h : InExpression .or ts) : InArguments ts :=
  h.within [] [] fun _ _ he ↦ ⟨_, by simpa using Arguments.last he⟩

theorem InArguments.more {e : Expr} (he : Expression .or first e) {comma : Token}
    (hcomma : comma.kind = .mark .comma) (h : InArguments ts) :
    InArguments (first ++ comma :: ts) := by
  rw [List.append_cons]
  exact h.within _ [] fun _ _ hes ↦ ⟨_, by simpa using Arguments.more he hcomma hes⟩

/-! ### Declarators and conditions -/

/-- Tokens that a type and a name can begin with. -/
abbrev InDeclares : List Token → Prop :=
  Completable Declares

/-- Tokens that parameters can begin with. -/
abbrev InParameters : List Token → Prop :=
  Completable Parameters

theorem inDeclares_nil : InDeclares [] :=
  ⟨[token (.keyword .int), token .identifier], ⟨"", .int, {}⟩, .mk rfl rfl rfl⟩

theorem inDeclares_type {keyword : Token} {word : Keyword} {type : ScalarType}
    (hkeyword : keyword.kind = .keyword word) (htype : type? word = some type) :
    InDeclares [keyword] :=
  ⟨[token .identifier], _, .mk hkeyword htype rfl⟩

theorem InDeclares.parameters (h : InDeclares ts) : InParameters ts :=
  h.within [] [] fun _ _ hd ↦ ⟨_, by simpa using Parameters.last hd⟩

theorem InParameters.more {d : Declarator} (hd : Declares first d) {comma : Token}
    (hcomma : comma.kind = .mark .comma) (h : InParameters ts) :
    InParameters (first ++ comma :: ts) := by
  rw [List.append_cons]
  exact h.within _ [] fun _ _ hds ↦ ⟨_, by simpa using Parameters.more hd hcomma hds⟩

/-- Tokens that a condition can begin with. -/
abbrev InCondition : List Token → Prop :=
  Completable Condition

theorem InExpression.condition {opening : Token} (hopening : opening.kind = .mark .leftParen)
    (h : InExpression .or ts) : InCondition (opening :: ts) :=
  h.within [opening] [token (.mark .rightParen)] fun _ _ he ↦ ⟨_, .mk hopening he rfl⟩

theorem inCondition_nil : InCondition [] := by
  have h : InCondition ([] ++ [token (.mark .leftParen)]) := (inExpression_nil .or).condition rfl
  exact h.of_append _

/-! ### Statements -/

/-- Tokens that a statement can begin with. -/
abbrev InStatement : List Token → Prop :=
  Completable (Statement Anything)

/-- Tokens that statements can begin with. -/
abbrev InStatements : List Token → Prop :=
  Completable (Statements Anything)

theorem InExpression.evaluate (h : InExpression .or ts) : InStatement ts :=
  h.within [] [token (.mark .semicolon)] fun _ _ he ↦ ⟨_, .evaluate he rfl⟩

theorem inStatement_nil : InStatement [] :=
  (inExpression_nil .or).evaluate

theorem inStatements_nil : InStatements [] :=
  .of_derived .nil

theorem InStatements.cons {s : Stmt} (hs : Statement Anything first s) (h : InStatements ts) :
    InStatements (first ++ ts) :=
  h.within _ [] fun _ _ hss ↦ ⟨_, by simpa using Statements.cons hs hss⟩

theorem InStatement.statements (h : InStatement ts) : InStatements ts :=
  h.within [] [] fun _ _ hs ↦ ⟨_, by simpa using Statements.cons hs .nil⟩

theorem InStatements.block {opening : Token} (hopening : opening.kind = .mark .leftBrace)
    (h : InStatements ts) : InStatement (opening :: ts) :=
  h.within [opening] [token (.mark .rightBrace)] fun _ _ hbody ↦ ⟨_, .block hopening hbody rfl⟩

theorem InCondition.ifThen {keyword : Token} (hkeyword : keyword.kind = .keyword .if_)
    (h : InCondition ts) : InStatement (keyword :: ts) := by
  obtain ⟨tail, s, (hs : Statement Anything tail s)⟩ := inStatement_nil
  exact h.within [keyword] tail fun _ _ htest ↦
    ⟨_, by simpa using Statement.ifThen hkeyword htest hs⟩

theorem InStatement.ifThen {keyword : Token} (hkeyword : keyword.kind = .keyword .if_)
    {test : List Token} {e : Expr} (htest : Condition test e) (h : InStatement ts) :
    InStatement (keyword :: test ++ ts) :=
  h.within _ [] fun _ _ hs ↦ ⟨_, by simpa using Statement.ifThen hkeyword htest hs⟩

theorem InStatement.ifElse {keyword otherwise : Token} (hkeyword : keyword.kind = .keyword .if_)
    {test : List Token} {e : Expr} (htest : Condition test e) {s : Stmt}
    (hfirst : Statement Anything first s) (hotherwise : otherwise.kind = .keyword .else_)
    (h : InStatement ts) : InStatement (keyword :: test ++ first ++ [otherwise] ++ ts) :=
  h.within _ [] fun _ _ hs ↦
    ⟨_, by simpa using Statement.ifElse hkeyword htest hfirst trivial hotherwise hs⟩

theorem InCondition.loop {keyword : Token} (hkeyword : keyword.kind = .keyword .while_)
    (h : InCondition ts) : InStatement (keyword :: ts) := by
  obtain ⟨tail, s, (hs : Statement Anything tail s)⟩ := inStatement_nil
  exact h.within [keyword] tail fun _ _ htest ↦
    ⟨_, by simpa using Statement.loop hkeyword htest hs⟩

theorem InStatement.loop {keyword : Token} (hkeyword : keyword.kind = .keyword .while_)
    {test : List Token} {e : Expr} (htest : Condition test e) (h : InStatement ts) :
    InStatement (keyword :: test ++ ts) :=
  h.within _ [] fun _ _ hs ↦ ⟨_, by simpa using Statement.loop hkeyword htest hs⟩

theorem InExpression.return_ {keyword : Token} (hkeyword : keyword.kind = .keyword .return_)
    (h : InExpression .or ts) : InStatement (keyword :: ts) :=
  h.within [keyword] [token (.mark .semicolon)] fun _ _ he ↦ ⟨_, .return_ hkeyword he rfl⟩

theorem InExpression.print {keyword : Token} {word : Keyword} {ending : PrintEnd}
    (hkeyword : keyword.kind = .keyword word) (hword : printEnd? word = some ending)
    (h : InExpression .or ts) : InStatement (keyword :: ts) :=
  h.within [keyword] [token (.mark .semicolon)] fun _ _ he ↦ ⟨_, .print hkeyword hword he rfl⟩

theorem InExpression.assign {name equals : Token} (hname : name.kind = .identifier)
    (hequals : equals.kind = .mark .equals) (h : InExpression .or ts) :
    InStatement (name :: equals :: ts) :=
  h.within [name, equals] [token (.mark .semicolon)] fun _ _ he ↦
    ⟨_, .assign hname hequals he rfl⟩

theorem InDeclares.statement (h : InDeclares ts) : InStatement ts :=
  h.within [] [token (.mark .semicolon)] fun _ _ hd ↦ by
    cases hd with
    | mk hkeyword htype hname => exact ⟨_, .var (.mk hkeyword htype hname) rfl⟩

theorem InExpression.initialized {keyword equals : Token} {d : Declarator}
    (hd : Declares (keyword :: first) d) (hequals : equals.kind = .mark .equals)
    (h : InExpression .or ts) : InStatement (keyword :: first ++ [equals] ++ ts) :=
  h.within _ [token (.mark .semicolon)] fun _ _ he ↦
    ⟨_, by simpa using Statement.initialized hd hequals he rfl⟩

/-! ### Functions and programs -/

/-- Tokens that a declaration can begin with. -/
abbrev InDeclaration : List Token → Prop :=
  Completable (Declaration Anything)

/-- Tokens that a program can begin with. -/
abbrev InProgram : List Token → Prop :=
  Completable (Declarations Anything)

theorem InStatement.declaration (h : InStatement ts) : InDeclaration ts :=
  h.within [] [] fun _ _ hs ↦ ⟨_, by simpa using Declaration.statement hs⟩

theorem InParameters.function {keyword type name opening : Token} {word : Keyword}
    {result : ScalarType} (hkeyword : keyword.kind = .keyword .fun_)
    (htype : type.kind = .keyword word) (hword : type? word = some result)
    (hname : name.kind = .identifier) (hopening : opening.kind = .mark .leftParen)
    (h : InParameters ts) : InDeclaration (keyword :: type :: name :: opening :: ts) :=
  h.within [keyword, type, name, opening]
    [token (.mark .rightParen), token (.mark .leftBrace), token (.mark .rightBrace)]
    fun _ _ hds ↦ ⟨_, by
      simpa using Declaration.function hkeyword htype hword hname hopening (.inr hds) rfl rfl
        Statements.nil rfl⟩

theorem InStatements.function {keyword type name opening closing brace : Token} {word : Keyword}
    {result : ScalarType} {parameters : List Token} {ds : List Declarator}
    (hkeyword : keyword.kind = .keyword .fun_) (htype : type.kind = .keyword word)
    (hword : type? word = some result) (hname : name.kind = .identifier)
    (hopening : opening.kind = .mark .leftParen) (hds : Optional Parameters parameters ds)
    (hclosing : closing.kind = .mark .rightParen) (hbrace : brace.kind = .mark .leftBrace)
    (h : InStatements ts) :
    InDeclaration (keyword :: type :: name :: opening :: (parameters ++ [closing, brace]) ++ ts) :=
  h.within _ [token (.mark .rightBrace)] fun _ _ hss ↦ ⟨_, by
    simpa using
      Declaration.function hkeyword htype hword hname hopening hds hclosing hbrace hss rfl⟩

section Headers

variable {keyword type name opening closing : Token} {word : Keyword} {result : ScalarType}
  {parameters : List Token} {ds : List Declarator}

/-! What begins a function, one token after the other. -/

theorem inDeclaration_opening (hkeyword : keyword.kind = .keyword .fun_)
    (htype : type.kind = .keyword word) (hword : type? word = some result)
    (hname : name.kind = .identifier) (hopening : opening.kind = .mark .leftParen) :
    InDeclaration [keyword, type, name, opening] :=
  inDeclares_nil.parameters.function hkeyword htype hword hname hopening

theorem inDeclaration_name (hkeyword : keyword.kind = .keyword .fun_)
    (htype : type.kind = .keyword word) (hword : type? word = some result)
    (hname : name.kind = .identifier) : InDeclaration [keyword, type, name] :=
  .of_append [token (.mark .leftParen)]
    (inDeclaration_opening hkeyword htype hword hname rfl)

theorem inDeclaration_type (hkeyword : keyword.kind = .keyword .fun_)
    (htype : type.kind = .keyword word) (hword : type? word = some result) :
    InDeclaration [keyword, type] :=
  .of_append [token .identifier] (inDeclaration_name hkeyword htype hword rfl)

theorem inDeclaration_keyword (hkeyword : keyword.kind = .keyword .fun_) :
    InDeclaration [keyword] :=
  .of_append [token (.keyword .int)] (inDeclaration_type hkeyword rfl rfl)

theorem inDeclaration_parameters (hkeyword : keyword.kind = .keyword .fun_)
    (htype : type.kind = .keyword word) (hword : type? word = some result)
    (hname : name.kind = .identifier) (hopening : opening.kind = .mark .leftParen)
    (hds : Optional Parameters parameters ds) (hclosing : closing.kind = .mark .rightParen) :
    InDeclaration (keyword :: type :: name :: opening :: (parameters ++ [closing])) := by
  refine .of_append [token (.mark .leftBrace)] ?_
  simpa using inStatements_nil.function hkeyword htype hword hname hopening hds hclosing rfl

end Headers

theorem InDeclaration.program (h : InDeclaration ts) : InProgram ts :=
  h.within [] [] fun _ _ hs ↦ ⟨_, by simpa using Declarations.cons hs .nil⟩

theorem InProgram.cons {s : Stmt} (hs : Declaration Anything first s) (h : InProgram ts) :
    InProgram (first ++ ts) :=
  h.within _ [] fun _ _ hss ↦ ⟨_, by simpa using Declarations.cons hs hss⟩

end ScalarMips.Grammar
