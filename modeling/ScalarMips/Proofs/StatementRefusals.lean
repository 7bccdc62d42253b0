import ScalarMips.Proofs.ExpressionRefusals
import ScalarMips.Proofs.StatementReading

/-!
# Where the reader of statements stops

As for expressions, a refusal is independent of what stands behind the token that it names, and what
comes before that token can be completed.

Whatever has been read as a part is read again on another input, since the reader accepts exactly
the grammar. The one thing that this asks of the next token is that it is an `else` on neither input
or on both. A name is special: before a refusal of an expression statement that begins with one, the
token behind it has been looked at.
-/

namespace ScalarMips.Parser

open Grammar

variable {α : Type} {input input' mid rest : List Token} {r : Refusal}

/-- A reader that is given a first token refuses some tokens that begin with it. -/
def FailsAfter (first : Token) (read : ∀ tail, Result α (first :: tail)) (r : Refusal)
    (input : List Token) : Prop :=
  ∃ tail, input = first :: tail ∧ read tail = .error r

/-! ### Terminated expressions and conditions -/

theorem expression_settles (hinput : WellWritten input) :
    Settles expression (InExpression .or) input :=
  expr_settles.binary Level.all input .or (by decide) rfl hinput

theorem terminated_halts {closed : Terminated} (hinput : WellWritten input)
    (h : terminated closed input = .error r) :
    Halts (terminated closed · = .error r) (InExpression .or) input r := by
  rcases bind_eq_error.1 h with h | ⟨value, hvalue, h⟩
  · exact ((expression_settles hinput).halts r h).mono (fun _ h ↦ h) fun _ _ hfails ↦
      error_bind hfails
  · obtain ⟨first, hfirst, hread⟩ := (expression_settles hinput).repeats value hvalue
    rcases bind_eq_error.1 h with h | ⟨close, -, h⟩
    · refine (expect_halts h).after first hfirst ?_ fun mid' hhead hfails ↦ ?_
      · rintro _ rfl
        rw [List.append_nil]
        exact .of_derived ((expression_sound hinput hvalue).derived hfirst)
      · exact (hread mid' hhead).error fun q _ hqrest ↦ error_bind (by rwa [hqrest])
    · cases h

theorem condition_halts {keyword : Keyword} (hinput : WellWritten input)
    (h : condition keyword input = .error r) :
    Halts (condition keyword · = .error r) InCondition input r := by
  rcases bind_eq_error.1 h with h | ⟨opening, hopening, h⟩
  · refine (expect_halts h).mono ?_ fun _ _ hfails ↦ error_bind hfails
    rintro _ rfl
    exact inCondition_nil
  obtain ⟨heq, hparen⟩ := (reads_expect _).1 ⟨opening, hopening, rfl, rfl⟩
  have hwritten : WellWritten opening.rest := (heq ▸ hinput).tail
  have hagain : ∀ rest', Reads (expect (.mark .leftParen) (.openCondition keyword)
      (opening.value :: rest')) opening.value rest' :=
    fun _ ↦ (reads_expect _).2 ⟨rfl, hparen⟩
  rcases bind_eq_error.1 h with h | ⟨value, hvalue, h⟩
  · refine ((expression_settles hwritten).halts r h).after [opening.value] heq
      (fun _ ↦ InExpression.condition hparen) fun mid' _ hfails ↦ ?_
    exact (hagain mid').error fun q _ hqrest ↦ error_bind (by rwa [hqrest])
  obtain ⟨first, hfirst, hread⟩ := (expression_settles hwritten).repeats value hvalue
  rcases bind_eq_error.1 h with h | ⟨closing, -, h⟩
  · refine (expect_halts h).after (opening.value :: first)
      (heq.trans (congrArg (opening.value :: ·) hfirst)) ?_ fun mid' hhead hfails ↦ ?_
    · rintro _ rfl
      rw [List.append_nil]
      exact InExpression.condition hparen
        (.of_derived ((expression_sound hwritten hvalue).derived hfirst))
    · refine (hagain _).error fun q _ hqrest ↦ ?_
      have hvalue : Reads (expression q.rest) value.value mid' := by
        rw [hqrest]
        exact hread mid' hhead
      exact hvalue.error fun q' _ hqrest' ↦ error_bind (by rwa [hqrest'])
  · cases h

/-! ### Declarators -/

theorem scalarType_halts (h : scalarType input = .error r) :
    Halts (scalarType · = .error r) (· = []) input r := by
  cases input with
  | nil =>
    cases h
    refine .here rfl rfl fun input' hhead ↦ ?_
    rw [List.head?_eq_none_iff.1 hhead]
    rfl
  | cons token tail =>
    simp only [scalarType] at h
    split at h
    · cases h
    · cases h
    · rename_i hint hbool
      have hspan : r.span = some token.span := by
        cases h
        rfl
      refine .here hspan rfl fun input' hhead ↦ ?_
      obtain ⟨tail', rfl⟩ := List.head?_eq_some_iff.1 hhead
      simp only [scalarType]
      exact refuse_congr h rfl

theorem declarator_halts {wanted : Expectation} (h : declarator wanted input = .error r) :
    Halts (declarator wanted · = .error r) InDeclares input r := by
  rcases bind_eq_error.1 h with h | ⟨type, htype, h⟩
  · refine (scalarType_halts h).mono ?_ fun _ _ hfails ↦ error_bind hfails
    rintro _ rfl
    exact inDeclares_nil
  · obtain ⟨token, keyword, heq, hkeyword, hword⟩ := reads_scalarType.1 ⟨type, htype, rfl, rfl⟩
    rcases bind_eq_error.1 h with h | ⟨name, -, h⟩
    · refine (expect_halts h).after [token] heq ?_ fun mid' _ hfails ↦ ?_
      · rintro _ rfl
        exact inDeclares_type hkeyword hword
      · exact (reads_scalarType.2 ⟨token, keyword, rfl, hkeyword, hword⟩).error
          fun q _ hqrest ↦ error_bind (by rwa [hqrest])
    · cases h

theorem parametersFrom_halts (input : List Token) : ∀ r, parametersFrom input = .error r →
    Halts (parametersFrom · = .error r) InParameters input r := by
  induction input using parametersFrom.induct with
  | case1 input ih =>
    intro r h
    rw [parametersFrom] at h
    rcases bind_eq_error.1 h with h | ⟨parameter, hparameter, h⟩
    · refine (declarator_halts h).mono (fun _ ↦ InDeclares.parameters) fun input' _ hfails ↦ ?_
      rw [parametersFrom]
      exact error_bind hfails
    · obtain ⟨first, hfirst, hd⟩ := (reads_declarator _).1 ⟨parameter, hparameter, rfl, rfl⟩
      have hagain : ∀ mid',
          Reads (declarator .parameterName (first ++ mid')) parameter.value mid' :=
        fun _ ↦ (reads_declarator _).2 ⟨first, rfl, hd⟩
      split at h
      · rename_i comma hcomma
        obtain ⟨hrest, hkind⟩ := accept?_eq_some.1 hcomma
        rcases bind_eq_error.1 h with h | ⟨more, -, h⟩
        · refine (ih parameter comma r h).after (first ++ [comma.value])
            (consumed_append hfirst hrest) (fun us hus ↦ ?_) fun mid' _ hfails ↦ ?_
          · rw [List.append_assoc]
            exact .more hd hkind hus
          · rw [List.append_assoc, parametersFrom]
            refine (hagain _).error fun q hq hqrest ↦ ?_
            obtain ⟨o, ho, -, horest⟩ := accept?_of_head hqrest hkind
            rw [ho]
            exact error_bind (by rwa [horest])
        · cases h
      · rename_i hnone
        rcases bind_eq_error.1 h with h | ⟨close, -, h⟩
        · refine (expect_halts h).after first hfirst ?_ fun mid' hhead hfails ↦ ?_
          · rintro _ rfl
            rw [List.append_nil]
            exact .of_derived (.last hd)
          · rw [parametersFrom]
            refine (hagain mid').error fun q hq hqrest ↦ ?_
            rw [accept?_none_congr hnone (by rw [hqrest]; exact hhead)]
            exact error_bind (by rwa [hqrest])
        · cases h

theorem parameters_halts (h : parameters input = .error r) :
    Halts (parameters · = .error r) InParameters input r := by
  unfold parameters at h
  split at h
  · cases h
  · rename_i hnone
    refine (parametersFrom_halts input r h).mono (fun _ h ↦ h) fun input' hhead hfails ↦ ?_
    rw [parameters, accept?_none_congr hnone hhead]
    exact hfails

/-! ### Simple statements -/

theorem varDeclaration_halts {first : Token} {tail : List Token}
    (hinput : WellWritten (first :: tail)) (h : varDeclaration first tail = .error r) :
    Halts (FailsAfter first (varDeclaration first) r) InStatement (first :: tail) r := by
  rcases bind_eq_error.1 h with h | ⟨head, hhead, h⟩
  · refine (declarator_halts h).mono (fun _ ↦ InDeclares.statement) fun input' hsame hfails ↦ ?_
    obtain ⟨tail', rfl⟩ := List.head?_eq_some_iff.1 hsame
    exact ⟨tail', rfl, error_bind hfails⟩
  obtain ⟨ts, hts, hd⟩ := (reads_declarator _).1 ⟨head, hhead, rfl, rfl⟩
  obtain ⟨ts, rfl⟩ : ∃ ts', ts = first :: ts' := by
    obtain ⟨token, name, rfl⟩ := tokens_of_declares hd
    obtain ⟨rfl, -⟩ := List.cons.inj hts
    exact ⟨_, rfl⟩
  have hagain : ∀ mid', Reads (declarator .variableName (first :: (ts ++ mid'))) head.value mid' :=
    fun _ ↦ (reads_declarator _).2 ⟨first :: ts, rfl, hd⟩
  split at h
  · rename_i equals hequals
    obtain ⟨hrest, hkind⟩ := accept?_eq_some.1 hequals
    have hwritten := (hinput.behind ⟨first :: ts, hts, hd⟩).accept? hequals
    rcases bind_eq_error.1 h with h | ⟨initial, -, h⟩
    · refine (terminated_halts hwritten h).after (first :: ts ++ [equals.value])
        (consumed_append hts hrest) (fun _ ↦ InExpression.initialized hd hkind)
        fun mid' _ hfails ↦ ⟨ts ++ equals.value :: mid', by simp, ?_⟩
      refine (hagain _).error fun q _ hqrest ↦ ?_
      obtain ⟨o, ho, -, horest⟩ := accept?_of_head hqrest hkind
      rw [ho]
      exact error_bind (by rwa [horest])
    · cases h
  · rename_i hnone
    rcases bind_eq_error.1 h with h | ⟨close, -, h⟩
    · refine (expect_halts h).after (first :: ts) hts ?_
        fun mid' hsame hfails ↦ ⟨ts ++ mid', rfl, ?_⟩
      · rintro _ rfl
        rw [List.append_nil]
        exact InDeclares.statement (.of_derived hd)
      · refine (hagain mid').error fun q _ hqrest ↦ ?_
        rw [accept?_none_congr hnone (by rw [hqrest]; exact hsame)]
        exact error_bind (by rwa [hqrest])
    · cases h

theorem printValue_halts {keyword : Token} {word : Keyword} {ending : PrintEnd} {tail : List Token}
    (hkeyword : keyword.kind = .keyword word) (hword : printEnd? word = some ending)
    (hinput : WellWritten (keyword :: tail)) (h : printValue keyword ending tail = .error r) :
    Halts (FailsAfter keyword (printValue keyword ending) r) InStatement (keyword :: tail) r := by
  rcases bind_eq_error.1 h with h | ⟨value, -, h⟩
  · exact (terminated_halts hinput.tail h).after [keyword] rfl
      (fun _ ↦ InExpression.print hkeyword hword)
      fun mid' _ hfails ↦ ⟨mid', rfl, error_bind hfails⟩
  · cases h

theorem printSeparator_halts {keyword : Token} {word : Keyword} {ending : PrintEnd}
    {tail : List Token} (hkeyword : keyword.kind = .keyword word)
    (hword : printEnd? word = some ending) (hinput : WellWritten (keyword :: tail))
    (h : printSeparator keyword ending tail = .error r) :
    Halts (FailsAfter keyword (printSeparator keyword ending) r) InStatement
      (keyword :: tail) r := by
  unfold printSeparator at h
  split at h
  · cases h
  · rename_i hnone
    rcases bind_eq_error.1 h with h | ⟨value, -, h⟩
    · refine (terminated_halts hinput.tail h).after [keyword] rfl
        (fun _ ↦ InExpression.print hkeyword hword) fun mid' hhead hfails ↦ ⟨mid', rfl, ?_⟩
      rw [printSeparator, accept?_none_congr hnone hhead]
      exact error_bind hfails
    · cases h

theorem expressionStatement_halts (hinput : WellWritten input)
    (h : expressionStatement input = .error r) :
    Halts (expressionStatement · = .error r) InStatement input r := by
  rcases bind_eq_error.1 h with h | ⟨value, -, h⟩
  · exact (terminated_halts hinput h).mono (fun _ ↦ InExpression.evaluate) fun _ _ hfails ↦
      error_bind hfails
  · cases h

theorem nameStatement_halts {name : Token} {tail : List Token} (hname : name.kind = .identifier)
    (hinput : WellWritten (name :: tail)) (h : nameStatement name tail = .error r) :
    Halts (FailsAfter name (nameStatement name) r) InStatement (name :: tail) r := by
  unfold nameStatement at h
  split at h
  · rename_i equals hequals
    obtain ⟨heq, hkind⟩ := accept?_eq_some.1 hequals
    have hwritten := hinput.tail.accept? hequals
    rcases bind_eq_error.1 h with h | ⟨value, -, h⟩
    · refine (terminated_halts hwritten h).after [name, equals.value]
        (congrArg (name :: ·) heq) (fun _ ↦ InExpression.assign hname hkind)
        fun mid' _ hfails ↦ ⟨equals.value :: mid', rfl, ?_⟩
      obtain ⟨o, ho, -, horest⟩ := accept?_of_head (Eq.refl (equals.value :: mid')) hkind
      rw [nameStatement, ho]
      exact error_bind (by rwa [horest])
    · cases h
  · rename_i hnone
    obtain ⟨ts, rest, hts, hspan, hviable, hfails⟩ := expressionStatement_halts hinput h
    cases ts with
    | nil =>
      -- The name is not what is refused: it is a statement with a semicolon behind it.
      obtain rfl : name :: tail = rest := hts
      have hread : Reads (expressionStatement [name, token (.mark .semicolon)]) _ [] :=
        expressionStatement_complete (Expression.of_primary (.name hname) .or) rfl rfl
      obtain ⟨p, hp, -⟩ := hread
      cases hp.symm.trans (hfails [name, token (.mark .semicolon)] rfl)
    | cons first ts =>
      obtain ⟨rfl, rfl⟩ := List.cons.inj hts
      refine ⟨name :: ts, rest, rfl, hspan, hviable, fun rest' hhead ↦ ⟨ts ++ rest', rfl, ?_⟩⟩
      rw [nameStatement, accept?_none_congr hnone (head?_append_congr ts hhead)]
      exact hfails rest' hhead

/-! ### Statements -/

/-- What has been read as a statement is read again where the next token is the same. -/
theorem statement_repeats (hinput : WellWritten input) {p : Parsed Stmt input}
    (h : statement input = .ok p) : ∃ ts, input = ts ++ p.rest ∧ Statement Anything ts p.value ∧
      ∀ rest' : List Token, rest'.head? = p.rest.head? →
        Reads (statement (ts ++ rest')) p.value rest' := by
  obtain ⟨⟨ts, hts, hs⟩, hended⟩ := stmt_sound.statement input hinput p h
  refine ⟨ts, hts, hs.anything, fun rest' hhead ↦ reads_of_statement hs rfl fun hopen ↦ ?_⟩
  rw [hhead]
  exact hended hopen

theorem Halts.statement {first : Token} {read : ∀ tail, Result Stmt (first :: tail)}
    (h : Halts (FailsAfter first read r) InStatement input r)
    (hread : ∀ tail, Parser.statement (first :: tail) = read tail) :
    Halts (Parser.statement · = .error r) InStatement input r :=
  h.mono (fun _ h ↦ h) fun _ _ hfails ↦ by
    obtain ⟨tail, rfl, h⟩ := hfails
    exact (hread tail).trans h

section Branches

variable {keyword : Keyword} {first : Token} {tail : List Token}

/-- A statement that is refused in its condition. -/
theorem condition_refused (hcondition : ∀ ts, InCondition ts → InStatement (first :: ts))
    (hrefuses : ∀ tail, condition keyword tail = .error r →
      Parser.statement (first :: tail) = .error r)
    (hinput : WellWritten tail) (h : condition keyword tail = .error r) :
    Halts (Parser.statement · = .error r) InStatement (first :: tail) r :=
  (condition_halts hinput h).after [first] rfl hcondition fun mid' _ ↦ hrefuses mid'

/-- A statement that is refused in the statement behind its condition. -/
theorem branch_refused {test : Parsed Expr tail}
    (hbranch : ∀ ts e us, Condition ts e → InStatement us → InStatement (first :: (ts ++ us)))
    (hrefuses : ∀ tail (test : Parsed Expr tail), condition keyword tail = .ok test →
      Parser.statement test.rest = .error r → Parser.statement (first :: tail) = .error r)
    (hinput : WellWritten tail) (htest : condition keyword tail = .ok test)
    (h : WellWritten test.rest → Halts (Parser.statement · = .error r) InStatement test.rest r) :
    Halts (Parser.statement · = .error r) InStatement (first :: tail) r := by
  obtain ⟨ts, hts, he⟩ := condition_sound hinput htest
  rw [hts] at hinput
  refine (h hinput.right).after (first :: ts) (congrArg (first :: ·) hts)
    (fun us ↦ hbranch ts _ us he) fun mid' _ hfails ↦ ?_
  obtain ⟨again, hagain, -, hrest⟩ := condition_complete keyword he (Eq.refl (ts ++ mid'))
  exact hrefuses _ again hagain (by rwa [hrest])

/-- A conditional statement that is refused in its second branch. -/
theorem else_refused {test : Parsed Expr tail} {branch : Parsed Stmt test.rest}
    {els : Parsed Token branch.rest} (hkind : first.kind = .keyword .if_)
    (hinput : WellWritten tail) (htest : condition .if_ tail = .ok test)
    (hbranch : Parser.statement test.rest = .ok branch)
    (hels : accept? (.keyword .else_) branch.rest = some els)
    (ih : WellWritten els.rest → Halts (Parser.statement · = .error r) InStatement els.rest r) :
    Halts (Parser.statement · = .error r) InStatement (first :: tail) r := by
  obtain ⟨testTokens, htokens, hcondition⟩ := condition_sound hinput htest
  rw [htokens] at hinput
  obtain ⟨ts, hts, hs, hread⟩ := statement_repeats hinput.right hbranch
  obtain ⟨hrest, helse⟩ := accept?_eq_some.1 hels
  rw [hts, hrest] at hinput
  have htext : first :: tail = first :: testTokens ++ ts ++ [els.value] ++ els.rest :=
    consumed_append (consumed_append (congrArg (first :: ·) htokens) hts) hrest
  refine (ih hinput.right.right.tail).after (first :: testTokens ++ ts ++ [els.value]) htext
    (fun _ ↦ InStatement.ifElse hkind hcondition hs helse) fun mid' _ hfails ↦ ?_
  rw [List.append_assoc, List.append_assoc, List.cons_append, statement_conditional hkind]
  refine (condition_complete .if_ hcondition rfl).error fun q _ hqrest ↦ ?_
  have hagain : Reads (Parser.statement q.rest) branch.value (els.value :: mid') := by
    rw [hqrest]
    exact hread _ (congrArg List.head? hrest).symm
  refine hagain.error fun q' _ hqrest' ↦ ?_
  obtain ⟨o, ho, -, horest⟩ := accept?_of_head hqrest' helse
  rw [otherwise, ho]
  exact error_bind (by rwa [horest])

end Branches

/-- Statements that do not end at once. -/
theorem statements_halts {closing : Expectation} {token : Token} {tail : List Token}
    (hkind : token.kind ≠ .mark .rightBrace) (hinput : WellWritten (token :: tail))
    (ihFirst : Parser.statement (token :: tail) = .error r →
      Halts (Parser.statement · = .error r) InStatement (token :: tail) r)
    (ihMore : ∀ first : Parsed Stmt (token :: tail), WellWritten first.rest →
      statements closing first.rest = .error r →
        Halts (statements closing · = .error r) InStatements first.rest r)
    (h : statements closing (token :: tail) = .error r) :
    Halts (statements closing · = .error r) InStatements (token :: tail) r := by
  rw [statements_cons hkind] at h
  rcases bind_eq_error.1 h with h | ⟨first, hfirst, h⟩
  · refine (ihFirst h).mono (fun _ ↦ InStatement.statements) fun input' hhead hfails ↦ ?_
    obtain ⟨tail', rfl⟩ := List.head?_eq_some_iff.1 hhead
    exact (statements_cons hkind).trans (error_bind hfails)
  · obtain ⟨ts, hts, hs, hread⟩ := statement_repeats hinput hfirst
    rw [hts] at hinput
    rcases bind_eq_error.1 h with h | ⟨more, -, h⟩
    · refine (ihMore first hinput.right h).after ts hts (fun _ ↦ InStatements.cons hs)
        fun mid' hhead hfails ↦ ?_
      obtain ⟨token', ts, rfl⟩ : ∃ token' ts', ts = token' :: ts' := by
        obtain ⟨token', ts, rfl, -⟩ := head_statement hs
        exact ⟨token', ts, rfl⟩
      obtain ⟨rfl, -⟩ := List.cons.inj hts
      rw [List.cons_append, statements_cons hkind]
      exact (hread mid' hhead).error fun q _ hqrest ↦ error_bind (by rwa [hqrest])
    · cases h

/-- No reader of statements looks behind the token that it refuses, and all that it has read by then
can be completed. -/
theorem stmt_halts : StmtReaders
    (fun input result ↦ WellWritten input → ∀ r, result = .error r →
      Halts (statement · = .error r) InStatement input r)
    (fun closing input result ↦ WellWritten input → ∀ r, result = .error r →
      Halts (statements closing · = .error r) InStatements input r) := by
  apply StmtReaders.of_branches
  case nil =>
    intro _ r h
    cases h
    refine .here rfl inStatement_nil fun input' hhead ↦ ?_
    rw [List.head?_eq_none_iff.1 hhead]
    exact statement_nil
  case function =>
    intro token rest hkind _ r h
    cases h
    refine .here rfl inStatement_nil fun input' hhead ↦ ?_
    obtain ⟨rest', rfl⟩ := List.head?_eq_some_iff.1 hhead
    exact statement_function hkind
  case declaration =>
    intro token rest hkind hinput r h
    exact (varDeclaration_halts hinput h).statement fun _ ↦ statement_declaration hkind
  case block =>
    intro token rest hkind ih hinput r h
    rcases bind_eq_error.1 h with h | ⟨body, -, h⟩
    · exact (ih hinput.tail r h).after [token] rfl (fun _ ↦ InStatements.block hkind)
        fun mid' _ hfails ↦ (statement_block hkind).trans (error_bind hfails)
    · cases h
  case conditional =>
    intro token rest hkind ihThen ihElse hinput r h
    rcases bind_eq_error.1 h with h | ⟨test, htest, h⟩
    · exact condition_refused (fun _ ↦ InCondition.ifThen hkind)
        (fun _ h ↦ (statement_conditional hkind).trans (error_bind h)) hinput.tail h
    rcases bind_eq_error.1 h with h | ⟨thenBranch, hthen, h⟩
    · refine branch_refused (fun _ _ _ ↦ InStatement.ifThen hkind) (fun _ test htest h ↦ ?_)
        hinput.tail htest fun hwritten ↦ ihThen test hwritten r h
      rw [statement_conditional hkind]
      exact bind_eq_error.2 (.inr ⟨test, htest, error_bind h⟩)
    unfold otherwise at h
    split at h
    · cases h
    · rename_i els hels
      rcases bind_eq_error.1 h with h | ⟨elseBranch, -, h⟩
      · exact else_refused hkind hinput.tail htest hthen hels
          fun hwritten ↦ ihElse test thenBranch els hwritten r h
      · cases h
  case loop =>
    intro token rest hkind ih hinput r h
    rcases bind_eq_error.1 h with h | ⟨test, htest, h⟩
    · exact condition_refused (fun _ ↦ InCondition.loop hkind)
        (fun _ h ↦ (statement_loop hkind).trans (error_bind h)) hinput.tail h
    rcases bind_eq_error.1 h with h | ⟨body, -, h⟩
    · refine branch_refused (fun _ _ _ ↦ InStatement.loop hkind) (fun _ test htest h ↦ ?_)
        hinput.tail htest fun hwritten ↦ ih test hwritten r h
      rw [statement_loop hkind]
      exact bind_eq_error.2 (.inr ⟨test, htest, error_bind h⟩)
    · cases h
  case return_ =>
    intro token rest hkind hinput r h
    rcases bind_eq_error.1 h with h | ⟨value, -, h⟩
    · exact (terminated_halts hinput.tail h).after [token] rfl
        (fun _ ↦ InExpression.return_ hkind)
        fun mid' _ hfails ↦ (statement_return hkind).trans (error_bind hfails)
    · cases h
  case print =>
    intro token rest hkind hinput r h
    exact (printValue_halts hkind rfl hinput h).statement fun _ ↦ statement_print hkind
  case printsp =>
    intro token rest hkind hinput r h
    exact (printSeparator_halts hkind rfl hinput h).statement fun _ ↦ statement_printsp hkind
  case println =>
    intro token rest hkind hinput r h
    exact (printSeparator_halts hkind rfl hinput h).statement fun _ ↦ statement_println hkind
  case name =>
    intro token rest hkind hinput r h
    exact (nameStatement_halts hkind hinput h).statement fun _ ↦ statement_name hkind
  case expression =>
    intro token rest hkind hinput r h
    refine (expressionStatement_halts hinput h).mono (fun _ h ↦ h) fun input' hhead hfails ↦ ?_
    obtain ⟨rest', rfl⟩ := List.head?_eq_some_iff.1 hhead
    exact (statement_expression hkind).trans hfails
  case nothing =>
    intro closing _ r h
    cases h
    refine .here rfl inStatements_nil fun input' hhead ↦ ?_
    rw [List.head?_eq_none_iff.1 hhead]
    exact statements_nil
  case close =>
    intro closing token rest _ _ r h
    cases h
  case cons =>
    intro closing token rest hkind ihFirst ihMore hinput r h
    exact statements_halts hkind hinput (ihFirst hinput r)
      (fun first hwritten ↦ ihMore first hwritten r) ((statements_cons hkind).trans h)

end ScalarMips.Parser
