import ScalarMips.Proofs.ExpressionReading

/-!
# Reading statements

The readers of statements follow the grammar. Each of them has two statements: what it has read are
the tokens of its kind of tree, and such tokens are read to their end.

After a statement that could go on with an `else` none must follow (`Ended`). The reader takes an
`else` whenever it meets one, so this holds of all it has read (`stmt_sound`), and it is what makes
the other direction possible (`reads_of_statement`). The same condition keeps such statements from
standing before an `else`, so the trees are those in which every `else` belongs to the nearest `if`.
-/

namespace ScalarMips.Parser

open Grammar

variable {input rest : List Token}

/-! ### Terminated expressions and conditions -/

theorem terminated_sound {closed : Terminated} (hinput : WellWritten input)
    {p : Parsed (Expr × Token) input} (h : terminated closed input = .ok p) :
    p.Spells (Enclosed .semicolon (Expression .or)) := by
  obtain ⟨value, hvalue, h⟩ := bind_eq_ok.1 h
  obtain ⟨close, hclose, h⟩ := bind_eq_ok.1 h
  cases h
  obtain ⟨ts, hts, he⟩ := expression_sound hinput hvalue
  obtain ⟨hrest, hkind⟩ := (reads_expect _).1 ⟨close, hclose, rfl, rfl⟩
  exact ⟨ts ++ [close.value], consumed_append hts hrest, ts, rfl, he, hkind⟩

theorem terminated_complete (closed : Terminated) {ts : List Token} {e : Expr} {closing : Token}
    (h : Expression .or ts e) (hkind : closing.kind = .mark .semicolon)
    (hinput : input = ts ++ closing :: rest) :
    Reads (terminated closed input) (e, closing) rest := by
  refine (expression_complete h hinput hkind nofun rfl).bind fun p hvalue hrest ↦ ?_
  refine ((reads_expect _).2 ⟨hrest, hkind⟩).bind fun q hq hqrest ↦ reads_ok.2 ⟨?_, hqrest⟩
  simp only [Parsed.map, Parsed.after, hvalue, hq]

theorem condition_sound {keyword : Keyword} (hinput : WellWritten input) {p : Parsed Expr input}
    (h : condition keyword input = .ok p) : p.Spells Condition := by
  obtain ⟨opening, hopening, h⟩ := bind_eq_ok.1 h
  obtain ⟨value, hvalue, h⟩ := bind_eq_ok.1 h
  obtain ⟨closing, hclosing, h⟩ := bind_eq_ok.1 h
  cases h
  obtain ⟨heq, hparen⟩ := (reads_expect _).1 ⟨opening, hopening, rfl, rfl⟩
  rw [heq] at hinput
  obtain ⟨ts, hts, he⟩ := expression_sound hinput.tail hvalue
  obtain ⟨hrest, hkind⟩ := (reads_expect _).1 ⟨closing, hclosing, rfl, rfl⟩
  refine ⟨opening.value :: (ts ++ [closing.value]), ?_, .mk hparen he hkind⟩
  exact heq.trans (congrArg (opening.value :: ·) (consumed_append hts hrest))

theorem condition_complete (keyword : Keyword) {ts : List Token} {e : Expr} (h : Condition ts e)
    (hinput : input = ts ++ rest) : Reads (condition keyword input) e rest := by
  obtain ⟨hopening, he, hclosing⟩ := h
  rw [List.cons_append, List.append_assoc] at hinput
  refine ((reads_expect _).2 ⟨hinput, hopening⟩).bind fun p _ hrest ↦ ?_
  refine (expression_complete he hrest hclosing (by decide) rfl).bind fun q hvalue hqrest ↦ ?_
  exact ((reads_expect _).2 ⟨hqrest, hclosing⟩).bind fun r _ hrrest ↦ reads_ok.2 ⟨hvalue, hrrest⟩

/-! ### Declarators -/

theorem reads_scalarType {type : ScalarType} :
    Reads (scalarType input) type rest ↔ ∃ token keyword, input = token :: rest ∧
      token.kind = .keyword keyword ∧ type? keyword = some type := by
  cases input with
  | nil =>
    constructor
    · rintro ⟨p, hp, -⟩
      cases hp
    · rintro ⟨_, _, h, -⟩
      cases h
  | cons token tail =>
    simp only [scalarType]
    split
    · rename_i hkind
      rw [reads_ok]
      constructor
      · rintro ⟨rfl, rfl⟩
        exact ⟨token, .int, rfl, hkind, rfl⟩
      · rintro ⟨_, keyword, heq, hkeyword, htype⟩
        cases heq
        cases hkind.symm.trans hkeyword
        exact ⟨Option.some.inj htype, rfl⟩
    · rename_i hkind
      rw [reads_ok]
      constructor
      · rintro ⟨rfl, rfl⟩
        exact ⟨token, .bool, rfl, hkind, rfl⟩
      · rintro ⟨_, keyword, heq, hkeyword, htype⟩
        cases heq
        cases hkind.symm.trans hkeyword
        exact ⟨Option.some.inj htype, rfl⟩
    · rename_i hint hbool
      constructor
      · rintro ⟨p, hp, -⟩
        cases hp
      · rintro ⟨_, keyword, heq, hkeyword, htype⟩
        cases heq
        cases keyword with
        | int => exact absurd hkeyword hint
        | bool => exact absurd hkeyword hbool
        | _ => cases htype

theorem tokens_of_declares {ts : List Token} {d : Declarator} (h : Declares ts d) :
    ∃ first name, ts = [first, name] := by
  cases h with
  | mk => exact ⟨_, _, rfl⟩

theorem reads_declarator (wanted : Expectation) {d : Declarator} :
    Reads (declarator wanted input) d rest ↔ ∃ ts, input = ts ++ rest ∧ Declares ts d := by
  constructor
  · intro h
    obtain ⟨type, htype, h⟩ := reads_bind.1 h
    obtain ⟨name, hname, h⟩ := reads_bind.1 h
    obtain ⟨rfl, rfl⟩ := reads_ok.1 h
    obtain ⟨token, keyword, heq, hkeyword, htype⟩ := reads_scalarType.1 ⟨type, htype, rfl, rfl⟩
    obtain ⟨hrest, hkind⟩ := (reads_expect _).1 ⟨name, hname, rfl, rfl⟩
    exact ⟨[token, name.value], heq.trans (congrArg (token :: ·) hrest),
      .mk hkeyword htype hkind⟩
  · rintro ⟨_, hinput, hd⟩
    cases hd with
    | mk hkeyword htype hname =>
      refine (reads_scalarType.2 ⟨_, _, hinput, hkeyword, htype⟩).bind fun p hvalue hrest ↦ ?_
      refine ((reads_expect _).2 ⟨hrest, hname⟩).bind fun q hq hqrest ↦ reads_ok.2 ⟨?_, hqrest⟩
      simp only [Parsed.map, Parsed.after, hvalue, hq]

theorem parametersFrom_sound (input : List Token) :
    ∀ p, parametersFrom input = .ok p → p.Spells (Enclosed .rightParen Parameters) := by
  induction input using parametersFrom.induct with
  | case1 input ih =>
    intro p h
    rw [parametersFrom] at h
    obtain ⟨parameter, hparameter, h⟩ := bind_eq_ok.1 h
    obtain ⟨first, hfirst, hd⟩ := (reads_declarator _).1 ⟨parameter, hparameter, rfl, rfl⟩
    split at h
    · rename_i comma hcomma
      obtain ⟨hrest, hkind⟩ := accept?_eq_some.1 hcomma
      obtain ⟨more, hmore, h⟩ := bind_eq_ok.1 h
      cases h
      obtain ⟨ts, hts, second, rfl, hds, hclosing⟩ := ih parameter comma more hmore
      refine ⟨first ++ comma.value :: (second ++ [more.value.2]), ?_,
        first ++ comma.value :: second, ?_, .more hd hkind hds, hclosing⟩
      · exact consumed_append hfirst (hrest.trans (congrArg (comma.value :: ·) hts))
      · exact (List.append_assoc first (comma.value :: second) [more.value.2]).symm
    · obtain ⟨close, hclose, h⟩ := bind_eq_ok.1 h
      cases h
      obtain ⟨hrest, hclosing⟩ := (reads_expect _).1 ⟨close, hclose, rfl, rfl⟩
      exact ⟨first ++ [close.value], consumed_append hfirst hrest, first, rfl, .last hd, hclosing⟩

theorem parametersFrom_complete {ts : List Token} {ds : List Declarator} (h : Parameters ts ds)
    {closing : Token} (hclosing : closing.kind = .mark .rightParen)
    (hinput : input = ts ++ closing :: rest) :
    Reads (parametersFrom input) (ds, closing) rest := by
  induction h generalizing input with
  | last hd =>
    rw [parametersFrom]
    refine ((reads_declarator _).2 ⟨_, hinput, hd⟩).bind fun p hvalue hrest ↦ ?_
    rw [accept?_none_of_head hrest (by rw [hclosing]; decide)]
    refine ((reads_expect _).2 ⟨hrest, hclosing⟩).bind fun q hq hqrest ↦ reads_ok.2 ⟨?_, hqrest⟩
    simp only [Parsed.map, Parsed.after, hvalue, hq]
  | more hd hcomma _ ih =>
    rw [List.append_assoc] at hinput
    rw [parametersFrom]
    refine ((reads_declarator _).2 ⟨_, hinput, hd⟩).bind fun p hvalue hrest ↦ ?_
    obtain ⟨o, ho, -, horest⟩ := accept?_of_head hrest hcomma
    rw [ho]
    refine (ih horest).bind fun q hq hqrest ↦ reads_ok.2 ⟨?_, hqrest⟩
    simp only [Parsed.map, Parsed.after, hvalue, hq]

theorem parameters_sound {p : Parsed (List Declarator × Token) input}
    (h : parameters input = .ok p) : p.Spells (Enclosed .rightParen (Optional Parameters)) := by
  unfold parameters at h
  split at h
  · rename_i close hclose
    obtain ⟨heq, hclosing⟩ := accept?_eq_some.1 hclose
    cases h
    exact ⟨[close.value], heq, [], rfl, .inl ⟨rfl, rfl⟩, hclosing⟩
  · obtain ⟨ts, hts, inner, hinner, hds, hclosing⟩ := parametersFrom_sound input p h
    exact ⟨ts, hts, inner, hinner, .inr hds, hclosing⟩

theorem parameters_complete {ts : List Token} {ds : List Declarator} (h : Optional Parameters ts ds)
    {closing : Token} (hclosing : closing.kind = .mark .rightParen)
    (hinput : input = ts ++ closing :: rest) : Reads (parameters input) (ds, closing) rest := by
  unfold parameters
  rcases h with ⟨rfl, rfl⟩ | h
  · obtain ⟨p, hp, hvalue, hrest⟩ := accept?_of_head hinput hclosing
    rw [hp]
    exact reads_ok.2 ⟨congrArg (([], ·)) hvalue, hrest⟩
  · have hhead : ∃ token tail, ts = token :: tail ∧ token.kind ≠ .mark .rightParen := by
      cases h with
      | last hd =>
        cases hd with
        | mk hkeyword => exact ⟨_, _, rfl, by rw [hkeyword]; nofun⟩
      | more hd =>
        cases hd with
        | mk hkeyword => exact ⟨_, _, rfl, by rw [hkeyword]; nofun⟩
    obtain ⟨token, tail, rfl, hkind⟩ := hhead
    rw [accept?_none_of_head hinput hkind]
    exact parametersFrom_complete h hclosing hinput

/-! ### What has been read are the tokens of a statement -/

/-- The tokens of a statement that cannot go on with an `else`. -/
def ClosedStatement (ts : List Token) (s : Stmt) : Prop :=
  Statement Closed ts s ∧ Closed s

theorem varDeclaration_sound {first : Token} {tail : List Token}
    (hinput : WellWritten (first :: tail)) {p : Parsed Stmt (first :: tail)}
    (h : varDeclaration first tail = .ok p) : p.Spells ClosedStatement := by
  obtain ⟨head, hhead, h⟩ := bind_eq_ok.1 h
  obtain ⟨ts, hts, hd⟩ := (reads_declarator _).1 ⟨head, hhead, rfl, rfl⟩
  obtain ⟨ts, rfl⟩ : ∃ ts', ts = first :: ts' := by
    obtain ⟨token, name, rfl⟩ := tokens_of_declares hd
    obtain ⟨rfl, -⟩ := List.cons.inj hts
    exact ⟨_, rfl⟩
  split at h
  · rename_i equals hequals
    obtain ⟨hrest, hkind⟩ := accept?_eq_some.1 hequals
    obtain ⟨initial, hinitial, h⟩ := bind_eq_ok.1 h
    cases h
    rw [hts, hrest] at hinput
    obtain ⟨_, hvalue, inner, rfl, he, hclosing⟩ := terminated_sound hinput.right.tail hinitial
    refine ⟨first :: (ts ++ equals.value :: (inner ++ [initial.value.2])), ?_,
      .initialized hd hkind he hclosing, rfl⟩
    exact consumed_append hts (hrest.trans (congrArg (equals.value :: ·) hvalue))
  · obtain ⟨close, hclose, h⟩ := bind_eq_ok.1 h
    cases h
    obtain ⟨hrest, hclosing⟩ := (reads_expect _).1 ⟨close, hclose, rfl, rfl⟩
    exact ⟨first :: (ts ++ [close.value]), consumed_append hts hrest, .var hd hclosing, rfl⟩

theorem printValue_sound {keyword : Token} {word : Keyword} {ending : PrintEnd} {tail : List Token}
    (hkeyword : keyword.kind = .keyword word) (hword : printEnd? word = some ending)
    (hinput : WellWritten (keyword :: tail)) {p : Parsed Stmt (keyword :: tail)}
    (h : printValue keyword ending tail = .ok p) : p.Spells ClosedStatement := by
  obtain ⟨value, hvalue, h⟩ := bind_eq_ok.1 h
  cases h
  obtain ⟨_, hts, inner, rfl, he, hclosing⟩ := terminated_sound hinput.tail hvalue
  exact ⟨keyword :: (inner ++ [value.value.2]), congrArg (keyword :: ·) hts,
    .print hkeyword hword he hclosing, rfl⟩

theorem printSeparator_sound {keyword : Token} {word : Keyword} {ending : PrintEnd}
    {tail : List Token} (hkeyword : keyword.kind = .keyword word)
    (hword : printEnd? word = some ending) (hending : ending ≠ .nothing)
    (hinput : WellWritten (keyword :: tail)) {p : Parsed Stmt (keyword :: tail)}
    (h : printSeparator keyword ending tail = .ok p) : p.Spells ClosedStatement := by
  unfold printSeparator at h
  split at h
  · rename_i close hclose
    obtain ⟨heq, hclosing⟩ := accept?_eq_some.1 hclose
    cases h
    exact ⟨[keyword, close.value], congrArg (keyword :: ·) heq,
      .separator hkeyword hword hending hclosing, rfl⟩
  · exact printValue_sound hkeyword hword hinput h

theorem expressionStatement_sound (hinput : WellWritten input) {p : Parsed Stmt input}
    (h : expressionStatement input = .ok p) : p.Spells ClosedStatement := by
  obtain ⟨value, hvalue, h⟩ := bind_eq_ok.1 h
  cases h
  obtain ⟨_, hts, inner, rfl, he, hclosing⟩ := terminated_sound hinput hvalue
  exact ⟨inner ++ [value.value.2], hts, .evaluate he hclosing, rfl⟩

theorem nameStatement_sound {name : Token} {tail : List Token} (hname : name.kind = .identifier)
    (hinput : WellWritten (name :: tail)) {p : Parsed Stmt (name :: tail)}
    (h : nameStatement name tail = .ok p) : p.Spells ClosedStatement := by
  unfold nameStatement at h
  split at h
  · rename_i equals hequals
    obtain ⟨heq, hkind⟩ := accept?_eq_some.1 hequals
    obtain ⟨value, hvalue, h⟩ := bind_eq_ok.1 h
    cases h
    obtain ⟨_, hts, inner, rfl, he, hclosing⟩ :=
      terminated_sound (hinput.tail.accept? hequals) hvalue
    refine ⟨name :: equals.value :: (inner ++ [value.value.2]), ?_, .assign hname hkind he hclosing,
      rfl⟩
    exact congrArg (name :: ·) (heq.trans (congrArg (equals.value :: ·) hts))
  · exact expressionStatement_sound hinput h

/-- No `else` follows a statement that could go on with one. -/
def Ended (s : Stmt) (rest : List Token) : Prop :=
  EndsOpen s = true → ∀ token ∈ rest.head?, token.kind ≠ .keyword .else_

theorem Closed.ended {s : Stmt} (h : Closed s) : Ended s rest := by
  intro hopen
  rw [h] at hopen
  cases hopen

/-- A reading of a simple statement. -/
theorem Parsed.Spells.ended {p : Parsed Stmt input} (h : p.Spells ClosedStatement) :
    p.Spells (Statement Closed) ∧ Ended p.value p.rest := by
  obtain ⟨ts, hts, hs, hclosed⟩ := h
  exact ⟨⟨ts, hts, hs⟩, Closed.ended hclosed⟩

theorem otherwise_sound {token : Token} {test : Parsed Expr rest} {thenBranch : Parsed Stmt test.rest}
    (hkind : token.kind = .keyword .if_) (hinput : WellWritten rest) (htest : test.Spells Condition)
    (hthen : thenBranch.Spells (Statement Closed)) (hended : Ended thenBranch.value thenBranch.rest)
    (ih : ∀ els : Parsed Token thenBranch.rest, WellWritten els.rest →
      ∀ p, statement els.rest = .ok p → p.Spells (Statement Closed) ∧ Ended p.value p.rest)
    {p : Parsed Stmt (token :: rest)} (h : otherwise token test thenBranch = .ok p) :
    p.Spells (Statement Closed) ∧ Ended p.value p.rest := by
  have hbehind := (hinput.behind htest).behind hthen
  obtain ⟨testTokens, htokens, hcondition⟩ := htest
  obtain ⟨first, hfirst, hs⟩ := hthen
  unfold otherwise at h
  split at h
  · rename_i hnone
    cases h
    exact ⟨⟨token :: (testTokens ++ first),
      congrArg (token :: ·) (consumed_append htokens hfirst), .ifThen hkind hcondition hs⟩,
      fun _ ↦ accept?_eq_none.1 hnone⟩
  · rename_i els hels
    obtain ⟨hrest, helse⟩ := accept?_eq_some.1 hels
    obtain ⟨elseBranch, helseBranch, h⟩ := bind_eq_ok.1 h
    cases h
    -- The `else` would have gone into the first branch if that could have taken it.
    have hclosed : Closed thenBranch.value :=
      Bool.eq_false_iff.2 fun hopen ↦ hended hopen els.value (congrArg List.head? hrest) helse
    obtain ⟨⟨second, hsecond, hs'⟩, hended'⟩ := ih els (hbehind.accept? hels) elseBranch helseBranch
    refine ⟨⟨token :: (testTokens ++ (first ++ els.value :: second)), ?_,
      .ifElse hkind hcondition hs hclosed helse hs'⟩, hended'⟩
    have helseTokens := hrest.trans (congrArg (els.value :: ·) hsecond)
    exact congrArg (token :: ·) (consumed_append htokens (consumed_append hfirst helseTokens))

/-- Both readers of statements read the tokens of what they yield. -/
theorem stmt_sound : StmtReaders
    (fun input r ↦ WellWritten input → ∀ p, r = .ok p →
      p.Spells (Statement Closed) ∧ Ended p.value p.rest)
    (fun _ input r ↦ WellWritten input → ∀ p, r = .ok p →
      p.Spells (Enclosed .rightBrace (Statements Closed))) := by
  apply StmtReaders.of_branches
  case nil =>
    intro _ p h
    cases h
  case function =>
    intro token rest _ _ p h
    cases h
  case declaration =>
    intro token rest _ hinput p h
    exact (varDeclaration_sound hinput h).ended
  case block =>
    intro token rest hkind ih hinput p h
    obtain ⟨body, hbody, h⟩ := bind_eq_ok.1 h
    cases h
    obtain ⟨_, hts, inner, rfl, hss, hclosing⟩ := ih hinput.tail body hbody
    exact ⟨⟨token :: (inner ++ [body.value.2]), congrArg (token :: ·) hts,
      .block hkind hss hclosing⟩, Closed.ended rfl⟩
  case conditional =>
    intro token rest hkind ihThen ihElse hinput p h
    obtain ⟨test, htest, h⟩ := bind_eq_ok.1 h
    obtain ⟨thenBranch, hthen, h⟩ := bind_eq_ok.1 h
    have hcondition := condition_sound hinput.tail htest
    obtain ⟨hfirst, hended⟩ := ihThen test (hinput.tail.behind hcondition) thenBranch hthen
    exact otherwise_sound hkind hinput.tail hcondition hfirst hended (ihElse test thenBranch) h
  case loop =>
    intro token rest hkind ih hinput p h
    obtain ⟨test, htest, h⟩ := bind_eq_ok.1 h
    obtain ⟨body, hbody, h⟩ := bind_eq_ok.1 h
    cases h
    have hwritten := hinput.tail.behind (condition_sound hinput.tail htest)
    obtain ⟨testTokens, htokens, hcondition⟩ := condition_sound hinput.tail htest
    obtain ⟨⟨ts, hts, hs⟩, hended⟩ := ih test hwritten body hbody
    exact ⟨⟨token :: (testTokens ++ ts), congrArg (token :: ·) (consumed_append htokens hts),
      .loop hkind hcondition hs⟩, hended⟩
  case return_ =>
    intro token rest hkind hinput p h
    obtain ⟨value, hvalue, h⟩ := bind_eq_ok.1 h
    cases h
    obtain ⟨_, hts, inner, rfl, he, hclosing⟩ := terminated_sound hinput.tail hvalue
    exact ⟨⟨token :: (inner ++ [value.value.2]), congrArg (token :: ·) hts,
      .return_ hkind he hclosing⟩, Closed.ended rfl⟩
  case print =>
    intro token rest hkind hinput p h
    exact (printValue_sound hkind rfl hinput h).ended
  case printsp | println =>
    intro token rest hkind hinput p h
    exact (printSeparator_sound hkind rfl (by decide) hinput h).ended
  case name =>
    intro token rest hkind hinput p h
    exact (nameStatement_sound hkind hinput h).ended
  case expression =>
    intro token rest _ hinput p h
    exact (expressionStatement_sound hinput h).ended
  case nothing =>
    intro closing _ p h
    cases h
  case close =>
    intro closing token rest hkind _ p h
    cases h
    exact ⟨[token], rfl, [], rfl, .nil, hkind⟩
  case cons =>
    intro closing token rest _ ihFirst ihMore hinput p h
    obtain ⟨first, hfirst, h⟩ := bind_eq_ok.1 h
    obtain ⟨more, hmore, h⟩ := bind_eq_ok.1 h
    cases h
    obtain ⟨⟨ts, hts, hs⟩, -⟩ := ihFirst hinput first hfirst
    rw [hts] at hinput
    obtain ⟨_, hmts, inner, rfl, hss, hclosing⟩ := ihMore first hinput.right more hmore
    refine ⟨ts ++ (inner ++ [more.value.2]), consumed_append hts hmts, ts ++ inner, ?_,
      .cons hs hss, hclosing⟩
    exact (List.append_assoc ..).symm

/-! ### The tokens of a statement are read to their end -/

/-- The kinds of tokens that no statement begins with, though one can stand behind it. -/
def followers : List TokenKind :=
  [.keyword .else_, .keyword .fun_, .mark .rightBrace]

theorem head_statement {before : Stmt → Prop} {ts : List Token} {s : Stmt}
    (h : Statement before ts s) :
    ∃ token tail, ts = token :: tail ∧ token.kind ∉ followers := by
  cases h with
  | var hd | initialized hd =>
    refine ⟨_, _, rfl, ?_⟩
    cases hd with
    | @mk word _ _ _ hword htype =>
      rw [hword]
      cases word with
      | int | bool => decide
      | _ => cases htype
  | block hkind => exact ⟨_, _, rfl, by rw [hkind]; decide⟩
  | ifThen hkind => exact ⟨_, _, rfl, by rw [hkind]; decide⟩
  | ifElse hkind => exact ⟨_, _, rfl, by rw [hkind]; decide⟩
  | loop hkind => exact ⟨_, _, rfl, by rw [hkind]; decide⟩
  | return_ hkind => exact ⟨_, _, rfl, by rw [hkind]; decide⟩
  | @print _ _ word _ _ _ hword hending | @separator _ _ word _ hword hending =>
    refine ⟨_, _, rfl, ?_⟩
    rw [hword]
    cases word with
    | print | printsp | println => decide
    | _ => cases hending
  | assign hname => exact ⟨_, _, rfl, by rw [hname]; decide⟩
  | evaluate he =>
    obtain ⟨token, tail, rfl, hkind⟩ := head_expression he
    have hapart : ∀ kind ∈ starters, kind ∉ followers := by decide
    exact ⟨token, _, rfl, hapart token.kind hkind⟩

theorem varDeclaration_complete {first closing : Token} {ts tail : List Token} {d : Declarator}
    (hd : Declares (first :: ts) d) (hclosing : closing.kind = .mark .semicolon)
    (htail : tail = ts ++ closing :: rest) :
    Reads (varDeclaration first tail) (.var (first.span.to closing.span) d none) rest := by
  refine ((reads_declarator _).2 ⟨_, congrArg (first :: ·) htail, hd⟩).bind fun p hp hrest ↦ ?_
  rw [accept?_none_of_head hrest (by rw [hclosing]; nofun)]
  refine ((reads_expect _).2 ⟨hrest, hclosing⟩).bind fun q hq hqrest ↦ reads_ok.2 ⟨?_, hqrest⟩
  simp only [Parsed.map, Parsed.after, hp, hq]

theorem varDeclaration_complete_initialized {first equals closing : Token}
    {ts value tail : List Token} {d : Declarator} {e : Expr} (hd : Declares (first :: ts) d)
    (hequals : equals.kind = .mark .equals) (he : Expression .or value e)
    (hclosing : closing.kind = .mark .semicolon)
    (htail : tail = ts ++ equals :: (value ++ closing :: rest)) :
    Reads (varDeclaration first tail) (.var (first.span.to closing.span) d (some e)) rest := by
  refine ((reads_declarator _).2 ⟨_, congrArg (first :: ·) htail, hd⟩).bind fun p hp hrest ↦ ?_
  obtain ⟨o, ho, -, horest⟩ := accept?_of_head hrest hequals
  rw [ho]
  refine (terminated_complete _ he hclosing horest).bind fun q hq hqrest ↦
    reads_ok.2 ⟨?_, hqrest⟩
  simp only [Parsed.map, Parsed.after, hp, hq]

theorem printValue_complete {keyword closing : Token} {ts tail : List Token} {e : Expr}
    (ending : PrintEnd) (he : Expression .or ts e) (hclosing : closing.kind = .mark .semicolon)
    (htail : tail = ts ++ closing :: rest) :
    Reads (printValue keyword ending tail)
      (.print (keyword.span.to closing.span) ending (some e)) rest := by
  refine (terminated_complete _ he hclosing htail).bind fun p hp hrest ↦ reads_ok.2 ⟨?_, hrest⟩
  simp only [Parsed.map, Parsed.behind, hp]

theorem printSeparator_complete {keyword closing : Token} {ts tail : List Token} {e : Expr}
    (ending : PrintEnd) (he : Expression .or ts e) (hclosing : closing.kind = .mark .semicolon)
    (htail : tail = ts ++ closing :: rest) :
    Reads (printSeparator keyword ending tail)
      (.print (keyword.span.to closing.span) ending (some e)) rest := by
  have hnone : accept? (.mark .semicolon) tail = none := by
    rw [htail]
    exact accept?_none_of_starter (head_expression he) (by decide)
  rw [printSeparator, hnone]
  exact printValue_complete ending he hclosing htail

theorem printSeparator_complete_nothing {keyword closing : Token} {tail : List Token}
    (ending : PrintEnd) (hclosing : closing.kind = .mark .semicolon)
    (htail : tail = closing :: rest) :
    Reads (printSeparator keyword ending tail)
      (.print (keyword.span.to closing.span) ending none) rest := by
  obtain ⟨p, hp, hvalue, hrest⟩ := accept?_of_head htail hclosing
  rw [printSeparator, hp]
  refine reads_ok.2 ⟨?_, hrest⟩
  simp only [Parsed.map, Parsed.behind, hvalue]

theorem nameStatement_complete {name equals closing : Token} {ts tail : List Token} {e : Expr}
    (hequals : equals.kind = .mark .equals) (he : Expression .or ts e)
    (hclosing : closing.kind = .mark .semicolon)
    (htail : tail = equals :: (ts ++ closing :: rest)) :
    Reads (nameStatement name tail)
      (.assign (name.span.to closing.span) name.text name.span e) rest := by
  obtain ⟨o, ho, -, horest⟩ := accept?_of_head htail hequals
  rw [nameStatement, ho]
  refine (terminated_complete _ he hclosing horest).bind fun p hp hrest ↦ reads_ok.2 ⟨?_, hrest⟩
  simp only [Parsed.map, Parsed.behind, Parsed.after, hp]

theorem expressionStatement_complete {ts : List Token} {closing : Token} {e : Expr}
    (he : Expression .or ts e) (hclosing : closing.kind = .mark .semicolon)
    (hinput : input = ts ++ closing :: rest) :
    Reads (expressionStatement input) (.evaluate (e.span.to closing.span) e) rest := by
  refine (terminated_complete _ he hclosing hinput).bind fun p hp hrest ↦ reads_ok.2 ⟨?_, hrest⟩
  simp only [Parsed.map, hp]

/-- Where an expression begins and no `=` comes second, an expression statement is read. -/
theorem statement_eq_expressionStatement {first : Token} {tail : List Token}
    (hfirst : first.kind ∈ starters) (htail : ∀ second ∈ tail.head?, second.kind ≠ .mark .equals) :
    statement (first :: tail) = expressionStatement (first :: tail) := by
  by_cases hname : first.kind = .identifier
  · rw [statement_name hname, nameStatement, accept?_eq_none.2 htail]
  · -- Only a name is treated on its own among the kinds that begin an expression.
    have hapart : ∀ kind ∈ starters, kind ∈ statementKinds → kind = .identifier := by decide
    exact statement_expression fun h ↦ hname (hapart _ hfirst h)

/-- The name of a type begins a variable declaration. -/
theorem statement_eq_varDeclaration {first : Token} {ts tail : List Token} {d : Declarator}
    (h : Declares (first :: ts) d) : statement (first :: tail) = varDeclaration first tail := by
  cases h with
  | @mk word _ _ _ hword htype =>
    cases word with
    | int => exact statement_declaration (.inl hword)
    | bool => exact statement_declaration (.inr hword)
    | _ => cases htype

/-- The keyword of a print statement tells whether it can come without a value. -/
theorem statement_eq_print {keyword : Token} {word : Keyword} {ending : PrintEnd}
    {tail : List Token} (hkeyword : keyword.kind = .keyword word)
    (hword : printEnd? word = some ending) :
    statement (keyword :: tail) = if ending = .nothing then printValue keyword ending tail
      else printSeparator keyword ending tail := by
  cases word with
  | print =>
    cases hword
    exact statement_print hkeyword
  | printsp =>
    cases hword
    exact statement_printsp hkeyword
  | println =>
    cases hword
    exact statement_println hkeyword
  | _ => cases hword

theorem not_else_of_statements {before : Stmt → Prop} {ts : List Token} {ss : List Stmt}
    (h : Statements before ts ss) {closing : Token} (hclosing : closing.kind = .mark .rightBrace) :
    ∀ token ∈ (ts ++ closing :: rest).head?, token.kind ≠ .keyword .else_ := by
  intro token htoken heq
  cases h with
  | nil =>
    cases htoken
    cases hclosing.symm.trans heq
  | cons hfirst =>
    obtain ⟨first, tail, rfl, hkind⟩ := head_statement hfirst
    cases htoken
    exact hkind (by rw [heq]; decide)

mutual

/-- The tokens of a statement are read to their end. -/
theorem reads_of_statement : ∀ {ts : List Token} {s : Stmt}, Statement Closed ts s →
    ∀ {input rest : List Token}, input = ts ++ rest → Ended s rest →
      Reads (statement input) s rest
  | _, _, .var hd hclosing, _, rest, rfl, _ => by
    rw [List.cons_append, List.append_assoc, statement_eq_varDeclaration hd]
    exact varDeclaration_complete hd hclosing rfl
  | _, _, .initialized hd hequals he hclosing, _, rest, rfl, _ => by
    rw [List.cons_append, List.append_assoc, List.cons_append, List.append_assoc,
      statement_eq_varDeclaration hd]
    exact varDeclaration_complete_initialized hd hequals he hclosing rfl
  | _, _, .block hopening hbody hclosing, _, rest, rfl, _ => by
    rw [List.cons_append, List.append_assoc, statement_block hopening]
    refine (reads_of_statements hbody _ rfl hclosing).bind fun p hp hrest ↦ reads_ok.2 ⟨?_, hrest⟩
    simp only [Parsed.map, Parsed.behind, hp]
  | _, _, .ifThen hkeyword htest hbranch, _, rest, rfl, hended => by
    rw [List.cons_append, List.append_assoc, statement_conditional hkeyword]
    refine (condition_complete _ htest rfl).bind fun p hp hrest ↦ ?_
    refine (reads_of_statement hbranch hrest fun _ ↦ hended rfl).bind fun q hq hqrest ↦ ?_
    have hnone : accept? (.keyword .else_) q.rest = none := by
      rw [accept?_eq_none, hqrest]
      exact hended rfl
    rw [otherwise, hnone]
    refine reads_ok.2 ⟨?_, hqrest⟩
    simp only [Parsed.map, Parsed.behind, Parsed.after, hp, hq]
  | _, _, .ifElse hkeyword htest hthen hclosed helse hbranch, _, rest, rfl, hended => by
    rw [List.cons_append, List.append_assoc, List.append_assoc, statement_conditional hkeyword]
    refine (condition_complete _ htest rfl).bind fun p hp hrest ↦ ?_
    refine (reads_of_statement hthen hrest (Closed.ended hclosed)).bind fun q hq hqrest ↦ ?_
    obtain ⟨o, ho, -, horest⟩ := accept?_of_head hqrest helse
    rw [otherwise, ho]
    refine (reads_of_statement hbranch horest hended).bind fun r hr hrrest ↦
      reads_ok.2 ⟨?_, hrrest⟩
    simp only [Parsed.map, Parsed.behind, Parsed.after, hp, hq, hr]
  | _, _, .loop hkeyword htest hbody, _, rest, rfl, hended => by
    rw [List.cons_append, List.append_assoc, statement_loop hkeyword]
    refine (condition_complete _ htest rfl).bind fun p hp hrest ↦ ?_
    refine (reads_of_statement hbody hrest hended).bind fun q hq hqrest ↦ reads_ok.2 ⟨?_, hqrest⟩
    simp only [Parsed.map, Parsed.behind, Parsed.after, hp, hq]
  | _, _, .return_ hkeyword he hclosing, _, rest, rfl, _ => by
    rw [List.cons_append, List.append_assoc, statement_return hkeyword]
    refine (terminated_complete _ he hclosing rfl).bind fun p hp hrest ↦ reads_ok.2 ⟨?_, hrest⟩
    simp only [Parsed.map, Parsed.behind, hp]
  | _, _, .print hkeyword hword he hclosing, _, rest, rfl, _ => by
    rw [List.cons_append, List.append_assoc, statement_eq_print hkeyword hword]
    split
    · exact printValue_complete _ he hclosing rfl
    · exact printSeparator_complete _ he hclosing rfl
  | _, _, .separator hkeyword hword hne hclosing, _, rest, rfl, _ => by
    rw [List.cons_append, statement_eq_print hkeyword hword, if_neg hne]
    exact printSeparator_complete_nothing _ hclosing rfl
  | _, _, .assign hname hequals he hclosing, _, rest, rfl, _ => by
    rw [List.cons_append, List.cons_append, List.append_assoc, statement_name hname]
    exact nameStatement_complete hequals he hclosing rfl
  | _, _, @Statement.evaluate _ ts closing e he hclosing, _, rest, rfl, _ => by
    have hread : Reads (expressionStatement (ts ++ closing :: rest))
        (.evaluate (e.span.to closing.span) e) rest :=
      expressionStatement_complete he hclosing rfl
    have hequals := ne_equals_of_expression he
    obtain ⟨first, tail, rfl, hfirst⟩ := head_expression he
    rw [List.append_assoc]
    refine statement_eq_expressionStatement hfirst ?_ ▸ hread
    intro second hsecond heq
    cases tail with
    | nil =>
      cases hsecond
      cases hclosing.symm.trans heq
    | cons token tail =>
      cases hsecond
      exact hequals second (by simp) heq

/-- Statements are read up to the closing brace. -/
theorem reads_of_statements : ∀ {ts : List Token} {ss : List Stmt}, Statements Closed ts ss →
    ∀ (wanted : Expectation) {input rest : List Token} {closing : Token},
      input = ts ++ closing :: rest → closing.kind = .mark .rightBrace →
        Reads (statements wanted input) (ss, closing) rest
  | _, _, .nil, wanted, _, rest, closing, rfl, hclosing => by
    rw [List.nil_append, statements_close hclosing]
    exact reads_ok.2 ⟨rfl, rfl⟩
  | _, _, .cons hfirst hrest, wanted, input, rest, closing, hinput, hclosing => by
    rw [List.append_assoc] at hinput
    have hread := reads_of_statement hfirst hinput fun _ ↦ not_else_of_statements hrest hclosing
    obtain ⟨token, tail, rfl, hkind⟩ := head_statement hfirst
    subst hinput
    rw [List.cons_append, statements_cons fun heq ↦ hkind (by rw [heq]; decide)]
    refine hread.bind fun p hp hprest ↦ ?_
    refine (reads_of_statements hrest wanted hprest hclosing).bind fun q hq hqrest ↦
      reads_ok.2 ⟨?_, hqrest⟩
    simp only [Parsed.map, Parsed.after, hp, hq]

end

end ScalarMips.Parser
