import ScalarMips.Proofs.CursorReading
import ScalarMips.Proofs.ProgramReading

/-!
# Parsing with a cursor is total

A session over any array of tokens ends, never asks for a token outside of the array, and either
reads everything before the first end of the file or records a single fault (`parse_total`). What it
reads or records is what `parse` does, whatever the session has parsed before.

The recursion over statements ends because each statement is read from fewer tokens than stood there
before. The reader of lists carries this with its results, so nothing is left to show but that the
cursor follows it, and that it makes no call that is nested deeper than `Parser.measure` tells. In
front of a statement this is the measure of rank 9, one more than that of an expression.
-/

open ScalarMips.Parser (Level Parsed Refusal Result measure)

namespace ScalarMips.Cursor

variable {x : Ended} {input rest : List Token} {s : State} {first : Token} {d depth : ℕ}

/-- Where a statement may be called for, another may be behind a token. -/
theorem lt_of_shorter {input input' : List Token} (h : input.length < input'.length)
    (hd : measure input' 9 ≤ d) : measure input 9 < d :=
  measure_lt_of_shorter h hd (Nat.le_add_right 9 15)

theorem le_of_shorter {input input' : List Token} (h : input.length < input'.length)
    (hd : measure input' 9 ≤ d) : measure input 9 ≤ d :=
  (lt_of_shorter h hd).le

/-! ### Expressions and declarators -/

theorem expression_follows (hd : measure input 9 ≤ d) (h : Before x input s) :
    Follows x Anyhow (expression (perform x.tokens d)) s (Parser.expression input) :=
  expr_follows.binary Level.all input d s ((Parser.measure_lt_of_rank (by decide)).trans_le hd) h

/-- The token that comes with a value stands in front of the next one. -/
def Ended.Closed {α : Type} (x : Ended) (value : α × Token) (s : State) : Prop :=
  Passed x.tokens s value.2

theorem terminated_follows (hd : measure input 9 ≤ d) (h : Before x input s)
    (closed : Terminated) :
    Follows x x.Closed (terminated x.tokens (perform x.tokens d) closed) s
      (Parser.terminated closed input) := by
  rw [terminated, Parser.terminated]
  exact (expression_follows hd h).bind fun value s' h' _ ↦
    (follows_expect h' _ _).bind fun close s'' h'' hpassed ↦ .pure rfl h'' hpassed

theorem condition_follows (hd : measure input 9 ≤ d) (h : Before x input s)
    (keyword : Keyword) :
    Follows x Anyhow (condition x.tokens (perform x.tokens d) keyword) s
      (Parser.condition keyword input) := by
  rw [condition, Parser.condition]
  exact (follows_expect h _ _).bind fun opening s' h' _ ↦
    (expression_follows (le_of_shorter opening.shorter hd) h').bind fun value s' h' _ ↦
      (follows_expect h' _ _).bind fun closing s' h' _ ↦ .pure rfl h' trivial

theorem scalarType_follows (h : Before x input s) :
    Follows x Anyhow (scalarType x.tokens) s (Parser.scalarType input) := by
  rw [scalarType]
  cases input with
  | nil =>
    exact (gives_accept_none h rfl).follows ((gives_accept_none h rfl).follows
      ((gives_peek h).follows (follows_unexpected h .type)))
  | cons token tail =>
    rw [Parser.scalarType]
    split
    · rename_i hint
      exact (gives_accept_head h hint).follows (.pure rfl h.next trivial)
    · rename_i hbool
      exact (gives_accept_other h (by rw [hbool]; decide)).follows
        ((gives_accept_head h hbool).follows (.pure rfl h.next trivial))
    · rename_i hint hbool
      exact (gives_accept_other h hint).follows ((gives_accept_other h hbool).follows
        ((gives_peek h).follows (follows_unexpected h .type)))

theorem declarator_follows (h : Before x input s) (wanted : Expectation) :
    Follows x Anyhow (declarator x.tokens wanted) s (Parser.declarator wanted input) := by
  rw [declarator, Parser.declarator]
  exact (scalarType_follows h).bind fun type s' h' _ ↦
    (follows_expect h' _ _).bind fun name s' h' _ ↦ .pure rfl h' trivial

theorem parametersFrom_follows :
    ∀ (input : List Token) (depth : ℕ) (s : State), measure input 0 < depth → Before x input s →
      Follows x Anyhow (perform x.tokens depth .parametersFrom) s
        (Parser.parametersFrom input) := by
  apply Parser.parametersFrom.induct
  intro input ih depth s hdepth h
  refine follows_perform hdepth fun d hd ↦ ?_
  rw [body, parametersFrom, Parser.parametersFrom]
  refine (declarator_follows h _).bind fun parameter s' h' _ ↦ ?_
  cases hcomma : Parser.accept? (.mark .comma) parameter.rest with
  | some comma =>
    obtain ⟨hgives, hstepped⟩ := gives_accept_some h' hcomma
    have hmore := measure_lt_of_shorter (comma.shorter.trans parameter.shorter) hd
      (Nat.zero_le (0 + 15))
    exact hgives.follows ((ih parameter comma d _ hmore hstepped.before).bind
      fun more s' h' _ ↦ .pure rfl h' trivial)
  | none =>
    exact (gives_accept_none h' hcomma).follows ((follows_expect h' _ _).bind
      fun close s' h' _ ↦ .pure rfl h' trivial)

theorem parameters_follows (hd : measure input 0 < d) (h : Before x input s) :
    Follows x Anyhow (parameters x.tokens (perform x.tokens d)) s (Parser.parameters input) := by
  have hcheck := gives_check h (.mark .rightParen)
  rw [parameters, Parser.parameters]
  cases hclose : Parser.accept? (.mark .rightParen) input with
  | some close =>
    rw [hclose] at hcheck
    obtain ⟨hgives, hstepped⟩ := gives_expect h hclose .closeParameters
    exact hcheck.follows (hgives.follows (.pure rfl hstepped.before trivial))
  | none =>
    rw [hclose] at hcheck
    exact hcheck.follows (parametersFrom_follows input d s hd h)

/-! ### Simple statements -/

/-- A statement ends where the token in front of the next one does. -/
def Ended.Ends (x : Ended) (stmt : Stmt) (s : State) : Prop :=
  ∃ t, Passed x.tokens s t ∧ t.span.stop = stmt.span.stop

theorem varDeclaration_follows (hd : measure (first :: rest) 9 ≤ d)
    (h : Before x (first :: rest) s) :
    Follows x x.Ends (varDeclaration x.tokens (perform x.tokens d)) s
      (Parser.varDeclaration first rest) := by
  rw [varDeclaration, Parser.varDeclaration]
  refine (gives_peek h).follows ((declarator_follows h _).bind fun head s' h' _ ↦ ?_)
  cases hequals : Parser.accept? (.mark .equals) head.rest with
  | some equals =>
    obtain ⟨hgives, hstepped⟩ := gives_accept_some h' hequals
    have hvalue := le_of_shorter (equals.shorter.trans head.shorter) hd
    exact hgives.follows ((terminated_follows hvalue hstepped.before _).bind
      fun value s' h' hpassed ↦ .pure rfl h' ⟨_, hpassed, rfl⟩)
  | none =>
    exact (gives_accept_none h' hequals).follows ((follows_expect h' _ _).bind
      fun close s' h' hpassed ↦ .pure rfl h' ⟨_, hpassed, rfl⟩)

theorem print_follows (hd : measure rest 9 ≤ d) (h : Before x (first :: rest) s)
    (ending : PrintEnd) :
    Follows x x.Ends (print x.tokens (perform x.tokens d) ending true) s
      (Parser.printValue first ending rest) := by
  rw [print, Parser.printValue]
  exact (gives_advance h).follows ((gives_pure rfl _).follows
    ((terminated_follows hd h.next _).bind fun value s' h' hpassed ↦
      .pure rfl h' ⟨_, hpassed, rfl⟩))

theorem printSeparator_follows (hd : measure rest 9 ≤ d) (h : Before x (first :: rest) s)
    (ending : PrintEnd) :
    Follows x x.Ends (print x.tokens (perform x.tokens d) ending false) s
      (Parser.printSeparator first ending rest) := by
  have hcheck := gives_not (gives_check h.next (.mark .semicolon))
  rw [print, Parser.printSeparator]
  refine (gives_advance h).follows ?_
  cases hclose : Parser.accept? (.mark .semicolon) rest with
  | some close =>
    rw [hclose] at hcheck
    obtain ⟨hgives, hstepped⟩ := gives_expect h.next hclose (.semicolon .printStatement)
    exact hcheck.follows (hgives.follows (.pure rfl hstepped.before ⟨_, hstepped.passed, rfl⟩))
  | none =>
    rw [hclose] at hcheck
    rw [Parser.printValue]
    exact hcheck.follows ((terminated_follows hd h.next _).bind
      fun value s' h' hpassed ↦ .pure rfl h' ⟨_, hpassed, rfl⟩)

theorem expressionStatement_follows (hd : measure input 9 ≤ d) (h : Before x input s) :
    Follows x x.Ends (expressionStatement x.tokens (perform x.tokens d)) s
      (Parser.expressionStatement input) := by
  rw [expressionStatement, Parser.expressionStatement]
  exact (terminated_follows hd h _).bind fun value s' h' hpassed ↦
    .pure rfl h' ⟨_, hpassed, rfl⟩

theorem assignment_follows {equals : Parsed Token rest} (hd : measure rest 9 ≤ d)
    (h : Before x (first :: rest) s)
    (hequals : Parser.accept? (.mark .equals) rest = some equals) :
    Follows x x.Ends (assignment x.tokens (perform x.tokens d)) s
      (Parser.nameStatement first rest) := by
  have hvalue := le_of_shorter equals.shorter hd
  have hbefore := h.next
  rw [(Parser.accept?_eq_some.1 hequals).1] at hbefore
  rw [assignment, Parser.nameStatement, hequals]
  exact (gives_advance h).follows ((gives_advance hbefore).follows
    ((terminated_follows hvalue hbefore.next _).bind fun value s' h' hpassed ↦
      .pure rfl h' ⟨_, hpassed, rfl⟩))

/-- The kind of the token behind a name tells an assignment. -/
theorem nameStatement_follows (hd : measure (first :: rest) 9 ≤ d)
    (h : Before x (first :: rest) s) :
    Follows x x.Ends
      (peekNext x.tokens >>= fun next ↦
        if next.kind = .mark .equals then assignment x.tokens (perform x.tokens d)
        else expressionStatement x.tokens (perform x.tokens d))
      s (Parser.nameStatement first rest) := by
  refine (gives_peekNext h).follows ?_
  cases hequals : Parser.accept? (.mark .equals) rest with
  | some equals =>
    obtain ⟨hrest, hkind⟩ := Parser.accept?_eq_some.1 hequals
    rw [if_pos]
    · exact assignment_follows (le_of_shorter (Nat.lt_succ_self _) hd) h hequals
    · rw [hrest]
      exact hkind
  | none =>
    rw [if_neg, Parser.nameStatement, hequals]
    · exact expressionStatement_follows hd h
    · cases rest with
      | nil =>
        rw [List.headD_nil, x.kind_last]
        decide
      | cons token tail => exact Parser.accept?_eq_none.1 hequals token rfl

/-! ### Statements -/

theorem Span.to_congr {s t t' : Span} (h : t.stop = t'.stop) : s.to t = s.to t' :=
  congrArg (Span.mk s.start) h

/-- Where no declaration begins, a statement that declares nothing is read. -/
theorem follows_simple {r : Result Stmt input} (hdepth : measure input 9 < depth)
    (h : Before x input s)
    (hkind : ∀ token ∈ input.head?, token.kind ≠ .keyword .fun_ ∧ token.kind ≠ .keyword .int ∧
      token.kind ≠ .keyword .bool)
    (hsimple : ∀ d, measure input 9 ≤ d →
      Follows x x.Ends (simpleStatement x.tokens (perform x.tokens d)) s r) :
    Follows x x.Ends (perform x.tokens depth .statement) s r := by
  have hfun := gives_check h (.keyword .fun_)
  have hint := gives_check h (.keyword .int)
  have hbool := gives_check h (.keyword .bool)
  rw [Parser.accept?_eq_none.2 fun token htoken ↦ (hkind token htoken).1] at hfun
  rw [Parser.accept?_eq_none.2 fun token htoken ↦ (hkind token htoken).2.1] at hint
  rw [Parser.accept?_eq_none.2 fun token htoken ↦ (hkind token htoken).2.2] at hbool
  refine follows_perform hdepth fun d hd ↦ ?_
  rw [body, statement]
  exact hfun.follows ((gives_or hint hbool).follows (hsimple d hd))

theorem varStatement_follows (hdepth : measure (first :: rest) 9 < depth)
    (h : Before x (first :: rest) s)
    (hkind : first.kind = .keyword .int ∨ first.kind = .keyword .bool) :
    Follows x x.Ends (perform x.tokens depth .statement) s
      (Parser.varDeclaration first rest) := by
  have hfun := gives_check_head h (.keyword .fun_)
  have htype := gives_or (gives_check_head h (.keyword .int)) (gives_check_head h (.keyword .bool))
  refine follows_perform hdepth fun d hd ↦ ?_
  rw [body, statement]
  rcases hkind with hkind | hkind
  · rw [hkind] at hfun htype
    exact hfun.follows (htype.follows (varDeclaration_follows hd h))
  · rw [hkind] at hfun htype
    exact hfun.follows (htype.follows (varDeclaration_follows hd h))

/-- At the end of the file, where an expression is missing. -/
theorem expressionStatement_nil :
    Parser.expressionStatement [] = Parser.refuse .expression [] := by
  cbv

/-- What a conditional statement or a loop is in the end. The place where it ends is taken from the
token in front of the cursor, which is where its last part ends. -/
theorem follows_previous {last : Stmt} {p : Parsed Stmt input} (stmt : Token → Stmt)
    (hbefore : Before x p.rest s) (hends : x.Ends last s) (hstmt : ∀ t : Token,
      t.span.stop = last.span.stop → stmt t = p.value ∧ t.span.stop = p.value.span.stop) :
    Follows x x.Ends (previous x.tokens >>= fun t ↦ pure (stmt t)) s (.ok p) := by
  obtain ⟨t, hpassed, hstop⟩ := hends
  obtain ⟨hvalue, hstop⟩ := hstmt t hstop
  exact (gives_previous hpassed).follows (.pure hvalue hbefore ⟨t, hpassed, hstop⟩)

/-- What stands behind the first branch of a conditional statement. -/
theorem otherwise_follows {test : Parsed Expr rest} {thenBranch : Parsed Stmt test.rest}
    (hd : measure rest 9 ≤ d) (h : Before x thenBranch.rest s) (hends : x.Ends thenBranch.value s)
    (ih : ∀ (els : Parsed Token thenBranch.rest) depth s, measure els.rest 9 < depth →
      Before x els.rest s → Follows x x.Ends (perform x.tokens depth .statement) s
        (Parser.statement els.rest)) :
    Follows x x.Ends
      (accept? x.tokens (.keyword .else_) >>= fun
        | some _ => do
          let elseBranch ← perform x.tokens d .statement
          return .conditional (first.span.to (← previous x.tokens).span) test.value
            thenBranch.value (some elseBranch)
        | none => do
          return .conditional (first.span.to (← previous x.tokens).span) test.value
            thenBranch.value none)
      s (Parser.otherwise first test thenBranch) := by
  unfold Parser.otherwise
  cases helse : Parser.accept? (.keyword .else_) thenBranch.rest with
  | some els =>
    obtain ⟨hgives, hstepped⟩ := gives_accept_some h helse
    have hdepth := lt_of_shorter (els.shorter.trans (thenBranch.shorter.trans test.shorter)) hd
    refine hgives.follows ((ih els d _ hdepth hstepped.before).bind fun elseBranch s' h' hends ↦ ?_)
    exact follows_previous _ h' hends fun t hstop ↦
      ⟨congrArg (Stmt.conditional · _ _ _) (Span.to_congr hstop), hstop⟩
  | none =>
    exact (gives_accept_none h helse).follows (follows_previous _ h hends fun t hstop ↦
      ⟨congrArg (Stmt.conditional · _ _ _) (Span.to_congr hstop), hstop⟩)

/-- The readers of statements do what those of lists do. The induction is along the recursion of
these. -/
theorem stmt_follows : Parser.StmtReaders
    (fun input r ↦ ∀ depth s, measure input 9 < depth → Before x input s →
      Follows x x.Ends (perform x.tokens depth .statement) s r)
    (fun closing input r ↦ ∀ depth s, measure input 10 < depth → Before x input s →
      Follows x x.Closed (perform x.tokens depth (.statements closing)) s r) := by
  apply Parser.StmtReaders.of_branches
  case nil =>
    intro depth s hdepth h
    refine follows_simple hdepth h (by simp) fun d hd ↦ ?_
    rw [simpleStatement, ← expressionStatement_nil]
    refine (gives_peek h).follows ?_
    simp only [List.headD_nil, x.kind_last]
    exact expressionStatement_follows hd h
  case function =>
    intro token rest hkind depth s hdepth h
    have hfun := gives_check_head h (.keyword .fun_)
    rw [hkind] at hfun
    refine follows_perform hdepth fun d _ ↦ ?_
    rw [body, statement]
    exact hfun.follows ((gives_peek h).follows (follows_fail h.faults token.span .nestedFunction))
  case declaration =>
    intro token rest hkind depth s hdepth h
    exact varStatement_follows hdepth h hkind
  case block =>
    intro token rest hkind ih depth s hdepth h
    refine follows_simple hdepth h (by simp [hkind]) fun d hd ↦ ?_
    rw [simpleStatement]
    refine (gives_peek h).follows ?_
    simp only [List.headD_cons, hkind]
    have hbody := measure_lt_of_shorter (Nat.lt_succ_self rest.length) hd
      (show 10 ≤ 9 + 15 by decide)
    exact (gives_advance h).follows ((ih d _ hbody h.next).bind fun body s' h' hpassed ↦
      .pure rfl h' ⟨_, hpassed, rfl⟩)
  case conditional =>
    intro token rest hkind ihThen ihElse depth s hdepth h
    refine follows_simple hdepth h (by simp [hkind]) fun d hd ↦ ?_
    rw [simpleStatement]
    refine (gives_peek h).follows ?_
    simp only [List.headD_cons, hkind]
    have hrest : measure rest 9 ≤ d := le_of_shorter (Nat.lt_succ_self _) hd
    exact (gives_advance h).follows ((condition_follows hrest h.next _).bind fun test s' h' _ ↦
      (ihThen test d s' (lt_of_shorter test.shorter hrest) h').bind fun thenBranch s' h' hends ↦
        otherwise_follows hrest h' hends (ihElse test thenBranch))
  case loop =>
    intro token rest hkind ih depth s hdepth h
    refine follows_simple hdepth h (by simp [hkind]) fun d hd ↦ ?_
    rw [simpleStatement]
    refine (gives_peek h).follows ?_
    simp only [List.headD_cons, hkind]
    have hrest : measure rest 9 ≤ d := le_of_shorter (Nat.lt_succ_self _) hd
    refine (gives_advance h).follows ((condition_follows hrest h.next _).bind fun test s' h' _ ↦
      (ih test d s' (lt_of_shorter test.shorter hrest) h').bind fun body s' h' hends ↦ ?_)
    exact follows_previous _ h' hends fun t hstop ↦
      ⟨congrArg (Stmt.loop · _ _) (Span.to_congr hstop), hstop⟩
  case return_ =>
    intro token rest hkind depth s hdepth h
    refine follows_simple hdepth h (by simp [hkind]) fun d hd ↦ ?_
    rw [simpleStatement]
    refine (gives_peek h).follows ?_
    simp only [List.headD_cons, hkind]
    have hrest : measure rest 9 ≤ d := le_of_shorter (Nat.lt_succ_self _) hd
    exact (gives_advance h).follows ((terminated_follows hrest h.next _).bind
      fun value s' h' hpassed ↦ .pure rfl h' ⟨_, hpassed, rfl⟩)
  case print =>
    intro token rest hkind depth s hdepth h
    refine follows_simple hdepth h (by simp [hkind]) fun d hd ↦ ?_
    rw [simpleStatement]
    refine (gives_peek h).follows ?_
    simp only [List.headD_cons, hkind]
    exact print_follows (le_of_shorter (Nat.lt_succ_self _) hd) h _
  case printsp | println =>
    intro token rest hkind depth s hdepth h
    refine follows_simple hdepth h (by simp [hkind]) fun d hd ↦ ?_
    rw [simpleStatement]
    refine (gives_peek h).follows ?_
    simp only [List.headD_cons, hkind]
    exact printSeparator_follows (le_of_shorter (Nat.lt_succ_self _) hd) h _
  case name =>
    intro token rest hkind depth s hdepth h
    refine follows_simple hdepth h (by simp [hkind]) fun d hd ↦ ?_
    rw [simpleStatement]
    refine (gives_peek h).follows ?_
    simp only [List.headD_cons, hkind]
    exact nameStatement_follows hd h
  case expression =>
    intro token rest hkind depth s hdepth h
    -- The token has none of the kinds that are treated on their own.
    simp only [Parser.statementKinds, List.mem_cons, List.not_mem_nil, or_false, not_or] at hkind
    obtain ⟨hfun, hint, hbool, hbrace, hif, hwhile, hreturn, hprint, hprintsp, hprintln, hname⟩ :=
      hkind
    refine follows_simple hdepth h (by rintro _ ⟨⟩; exact ⟨hfun, hint, hbool⟩) fun d hd ↦ ?_
    rw [simpleStatement]
    refine (gives_peek h).follows ?_
    split <;> first | exact expressionStatement_follows hd h | contradiction
  case nothing =>
    intro closing depth s hdepth h
    have hends := gives_or (gives_check h (.mark .rightBrace)) (gives_isAtEnd h)
    refine follows_perform hdepth fun d _ ↦ ?_
    rw [body, statements]
    exact hends.follows (follows_expect h (.mark .rightBrace) closing).bind_error
  case close =>
    intro closing token rest hkind depth s hdepth h
    have hclose : Parser.accept? (.mark .rightBrace) (token :: rest) = some (.one token token) :=
      Parser.accept?_eq_some.2 ⟨rfl, hkind⟩
    have hends := gives_or (gives_check_head h (.mark .rightBrace)) (gives_isAtEnd h)
    obtain ⟨hgives, hstepped⟩ := gives_expect h hclose closing
    rw [decide_eq_true hkind] at hends
    refine follows_perform hdepth fun d _ ↦ ?_
    rw [body, statements]
    exact hends.follows (hgives.follows (.pure rfl hstepped.before hstepped.passed))
  case cons =>
    intro closing token rest hkind ihFirst ihMore depth s hdepth h
    have hends := gives_or (gives_check_head h (.mark .rightBrace)) (gives_isAtEnd h)
    rw [decide_eq_false hkind] at hends
    refine follows_perform hdepth fun d hd ↦ ?_
    rw [body, statements]
    have hfirst : measure (token :: rest) 9 < d :=
      (Parser.measure_lt_of_rank (Nat.lt_succ_self 9)).trans_le hd
    exact hends.follows ((ihFirst d s hfirst h).bind fun first s' h' _ ↦
      (ihMore first d s' (measure_lt_of_shorter first.shorter hd (by decide)) h').bind
        fun more s' h' hpassed ↦ .pure rfl h' hpassed)

/-! ### Programs -/

theorem function_follows (hd : measure rest 9 ≤ d) (h : Before x (first :: rest) s) :
    Follows x Anyhow (function x.tokens (perform x.tokens d)) s (Parser.function first rest) := by
  rw [function, Parser.function]
  refine (gives_advance h).follows ((scalarType_follows h.next).bind fun type s' h' _ ↦
    (follows_expect h' _ _).bind fun name s' h' _ ↦
      (follows_expect h' _ _).bind fun opening s' h' _ ↦ ?_)
  have hopening : opening.rest.length < rest.length :=
    opening.shorter.trans (name.shorter.trans type.shorter)
  have hparameters := measure_lt_of_shorter hopening hd (Nat.zero_le (9 + 15))
  refine (parameters_follows hparameters h').bind fun parameters s' h' _ ↦
    (follows_expect h' _ _).bind fun brace s' h' _ ↦ ?_
  have hbody := measure_lt_of_shorter (brace.shorter.trans (parameters.shorter.trans hopening)) hd
    (show 10 ≤ 9 + 15 by decide)
  exact (stmt_follows.statements _ _ d s' hbody h').bind fun body s' h' _ ↦ .pure rfl h' trivial

theorem declaration_follows (hd : measure (first :: rest) 9 < d)
    (h : Before x (first :: rest) s) :
    Follows x Anyhow (declaration x.tokens (perform x.tokens d)) s
      (Parser.declaration first rest) := by
  have hfun := gives_check_head h (.keyword .fun_)
  rw [declaration, Parser.declaration]
  split_ifs with hkind
  · rw [decide_eq_true hkind] at hfun
    exact hfun.follows (function_follows (le_of_shorter (Nat.lt_succ_self _) hd.le) h)
  · rw [decide_eq_false hkind] at hfun
    exact hfun.follows (stmt_follows.statement _ d s hd h).anyhow

/-- The reader of a program gives what the reader of lists gives, and stands in front of the end of
the file; or it records the same fault as the only one. -/
inductive Finishes (x : Ended) (depth : ℕ) (s : State) : Except Refusal (List Stmt) → Prop where
  | program {program : List Stmt} {s' : State} :
      Gives (perform x.tokens depth .declarations) s program s' → Before x [] s' →
      Finishes x depth s (.ok program)
  | fault {refusal : Refusal} {s' : State} :
      GivesUp (perform x.tokens depth .declarations) s s' →
      s'.faults = [⟨refusal.span.getD x.last.span, refusal.fault⟩] →
      Finishes x depth s (.error refusal)

theorem program_finishes : ∀ (input : List Token) (depth : ℕ) (s : State),
    measure input 10 < depth → Before x input s → Finishes x depth s (Parser.program input) := by
  apply Parser.program.induct
  case case1 =>
    intro depth s hdepth h
    obtain ⟨d, rfl⟩ := Nat.exists_eq_add_one_of_ne_zero (Nat.ne_zero_of_lt hdepth)
    rw [Parser.program]
    refine .program ?_ h
    rw [perform, body, declarations]
    exact (gives_isAtEnd h).bind (gives_pure rfl s)
  case case2 =>
    intro first rest ih depth s hdepth h
    obtain ⟨d, rfl⟩ := Nat.exists_eq_add_one_of_ne_zero (Nat.ne_zero_of_lt hdepth)
    have hd : measure (first :: rest) 10 ≤ d := Nat.le_of_lt_succ hdepth
    have hhead := declaration_follows
      ((Parser.measure_lt_of_rank (Nat.lt_succ_self 9)).trans_le hd) h
    have hends := gives_isAtEnd h
    rw [Parser.program]
    generalize Parser.declaration first rest = head at hhead
    cases hhead with
    | @value head s' hgives hbefore =>
      show Finishes x (d + 1) s (Parser.program head.rest >>= fun more ↦ pure (head.value :: more))
      have hmore := ih head d s' (measure_lt_of_shorter head.shorter hd (by decide)) hbefore
      generalize Parser.program head.rest = more at hmore
      cases hmore with
      | program hgives' hbefore' =>
        refine .program ?_ hbefore'
        rw [perform, body, declarations]
        exact hends.bind (hgives.bind (hgives'.bind (gives_pure rfl _)))
      | fault hgives' hfaults =>
        refine .fault ?_ hfaults
        rw [perform, body, declarations]
        exact hends.bind_givesUp (hgives.bind_givesUp (hgives'.bind _))
    | fault hgives hfaults =>
      refine .fault ?_ hfaults
      rw [perform, body, declarations]
      exact hends.bind_givesUp (hgives.bind _)

/-! ### Arrays of tokens -/

/-- An array that ends with the end of the file has a first one. -/
theorem exists_ended {tokens : Array Token}
    (h : tokens.back?.map Token.kind = some .endOfFile) :
    ∃ (x : Ended) (post : List Token), x.tokens = tokens ∧
      tokens.toList = x.body ++ x.last :: post ∧
      x.body = tokens.toList.takeWhile (·.kind ≠ .endOfFile) := by
  have hsplit := List.takeWhile_append_dropWhile (p := fun t : Token ↦ t.kind ≠ .endOfFile)
    (l := tokens.toList)
  have hhead := List.head?_dropWhile_not (fun t : Token ↦ t.kind ≠ .endOfFile) tokens.toList
  cases hdrop : tokens.toList.dropWhile (·.kind ≠ .endOfFile) with
  | nil =>
    rw [← Array.getLast?_toList] at h
    obtain ⟨t, ht, hkind⟩ := Option.map_eq_some_iff.1 h
    have hne := List.dropWhile_eq_nil_iff.1 hdrop t (List.mem_of_getLast? ht)
    exact absurd hkind (of_decide_eq_true hne)
  | cons last post =>
    rw [hdrop] at hsplit hhead
    have hlast : last.kind = .endOfFile := by simpa using hhead
    have hbody : ∀ t ∈ tokens.toList.takeWhile (·.kind ≠ .endOfFile), t.kind ≠ .endOfFile := by
      intro t ht
      simpa using List.mem_takeWhile_imp ht
    exact ⟨⟨tokens, _, last, ⟨post, by rw [List.append_assoc]; exact hsplit⟩, hbody, hlast⟩, post,
      rfl, hsplit.symm, rfl⟩

/-- A session over such an array leaves what its reader leaves, and reads no program if it gives
up. -/
theorem run_parse {tokens : Array Token} (h : tokens.back?.map Token.kind = some .endOfFile)
    {program : Option (List Stmt)} {s' : State}
    (hreads : outcome (perform tokens depth .declarations) {} = some (.ok (program, s')))
    (s : State) : ((parse tokens depth).run s).run = some (.ok (program.getD [], s')) := by
  rw [parse, if_pos h]
  show Option.bind (outcome (perform tokens depth .declarations) {}) _ = _
  rw [hreads]
  rfl

/-- How deep calls are nested at most, in terms of all tokens. -/
theorem Ended.measure_body_lt (x : Ended) (extra : ℕ) :
    measure x.body 10 < 16 * x.tokens.size + extra := by
  have hlength := x.split.length_le
  rw [List.length_append, List.length_singleton, Array.length_toList] at hlength
  rw [Parser.measure]
  omega

/-- **Parsing is total, and all or nothing.** Over every array of tokens a session ends, with calls
nested no deeper than 16 times the number of tokens, and without having asked for a token outside of
the array. It has the same outcome whatever the parser has parsed before. Either no fault is
recorded, the position is that of the first end of the file and the program is the one that `parse`
reads; or a single fault is recorded, the one that `parse` finds, and there is no program. -/
theorem parse_total (tokens : Array Token) (extra : ℕ) :
    ∃ program s',
      (∀ s, ((parse tokens (16 * tokens.size + extra)).run s).run =
        some (.ok (program, s'))) ∧
      (s'.faults = [] ∧ tokens[s'.position]?.map Token.kind = some .endOfFile ∧
          s'.position = (tokens.toList.takeWhile (·.kind ≠ .endOfFile)).length ∧
          ScalarMips.parse tokens.toList = .ok program ∨
        ∃ fault, s'.faults = [fault] ∧ program = [] ∧
          ScalarMips.parse tokens.toList = .error fault) := by
  by_cases h : tokens.back?.map Token.kind = some .endOfFile
  · obtain ⟨x, post, rfl, htokens, hbody⟩ := exists_ended h
    have hend : (x.body ++ x.last :: post).getLast?.map Token.kind = some .endOfFile := by
      rw [← htokens, Array.getLast?_toList, h]
    have hparse := parse_append_cons x.kind_last x.kind_body hend
    rw [← htokens] at hparse
    have hreads :=
      program_finishes x.body _ {} (x.measure_body_lt extra) ⟨⟨[], rfl, rfl⟩, rfl⟩
    generalize Parser.program x.body = result at hreads hparse
    cases hreads with
    | @program program s' hgives hbefore =>
      refine ⟨program, s', run_parse h hgives, .inl ⟨hbefore.faults, ?_, ?_, hparse⟩⟩
      · rw [hbefore.get_eq]
        exact congrArg some x.kind_last
      · obtain ⟨front, hfront, hposition⟩ := hbefore.position
        rw [hposition, ← hbody, hfront, List.append_nil]
    | @fault refusal s' hgives hfaults =>
      exact ⟨[], s', run_parse h hgives, .inr ⟨_, hfaults, rfl, hparse⟩⟩
  · refine ⟨[], { faults := [⟨{}, .noEnd⟩] }, fun s ↦ ?_, .inr ⟨⟨{}, .noEnd⟩, rfl, rfl, ?_⟩⟩
    · rw [parse, if_neg h]
      rfl
    · rw [ScalarMips.parse, if_neg]
      rwa [Array.getLast?_toList]

end ScalarMips.Cursor
