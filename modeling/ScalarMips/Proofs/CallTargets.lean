import ScalarMips.Check.Declarations
import ScalarMips.Check.Names
import ScalarMips.Proofs.TreeSpans

/-!
# Where complaints about calls point

The check of names points at the name in a call by counting the characters of the name from where
the call starts. The tree has no place for the name of its own, and parentheses around a call move
its start, so that what is under such a span is the name exactly when the call has no parentheses of
its own (`call_complaints_point`).

Each complaint is traced to a call in the tree (`Names.checkAll_traced`), and the call to the tokens
of its phrase.
-/

namespace ScalarMips

/-- The issues with the name in a call: it is not declared, or it is that of a variable. -/
inductive Issue.Calls (name : String) : Issue → Prop where
  | undeclared (suggestion : Option String) : Calls name (.undeclared .fn name suggestion)
  | variable : Calls name (.variableCalled name)

namespace Names

/-! ### Complaints and calls -/

/-- A complaint about the name in a call belongs to a call in a part of a tree, and its span is
counted from the start of that call. -/
def Traced (n : Node) (c : Complaint) : Prop :=
  ∀ name, c.val.Calls name →
    ∃ span arguments, n.Within (.expr (.call span name arguments)) ∧ c.span = calleeSpan span name

/-- What belongs to a call in a child belongs to one in the part itself. -/
theorem Traced.of_child {n child : Node} {c : Complaint} (h : Traced child c)
    (hchild : child ∈ n.children) : Traced n c := by
  intro name hname
  obtain ⟨span, arguments, hwithin, hspan⟩ := h name hname
  exact ⟨span, arguments, .head hchild hwithin, hspan⟩

/-- A complaint about something else. -/
theorem traced_of_not_calls {n : Node} {c : Complaint} (h : ∀ name, ¬ c.val.Calls name) :
    Traced n c :=
  fun name hname ↦ absurd hname (h name)

theorem mem_complain {span : Span} {issue : Option Issue} {c : Complaint} :
    c ∈ complain span issue ↔ ∃ i, issue = some i ∧ c = ⟨span, i⟩ := by
  cases issue <;> simp [complain]

theorem not_calls_readIssue {scopes : Scopes} {name : String} {issue : Issue}
    (h : readIssue scopes name = some issue) (called : String) : ¬ issue.Calls called := by
  unfold readIssue at h
  split at h
  · cases h
    rintro ⟨⟩
  · split_ifs at h <;> cases h <;> rintro ⟨⟩

theorem not_calls_assignIssue {scopes : Scopes} {name : String} {issue : Issue}
    (h : assignIssue scopes name = some issue) (called : String) : ¬ issue.Calls called := by
  unfold assignIssue at h
  split at h
  · cases h
    rintro ⟨⟩
  · split_ifs at h
    cases h
    rintro ⟨⟩

/-- The name in a complaint about a call is that of the call. -/
theorem eq_of_calls_callIssue {scopes : Scopes} {name called : String} {issue : Issue}
    (h : callIssue scopes name = some issue) (hcalled : issue.Calls called) : called = name := by
  unfold callIssue at h
  split at h
  · cases h
    cases hcalled
    rfl
  · split_ifs at h
    cases h
    cases hcalled
    rfl

mutual

theorem exprComplaints_traced (scopes : Scopes) : ∀ e : Expr,
    ∀ c ∈ exprComplaints scopes e, Traced (.expr e) c
  | .literal .., _, hc => absurd hc List.not_mem_nil
  | .var span name, c, hc => by
    obtain ⟨issue, hissue, rfl⟩ := mem_complain.1 hc
    exact traced_of_not_calls (not_calls_readIssue hissue)
  | .unary _ _ operand, c, hc =>
    (exprComplaints_traced scopes operand c hc).of_child List.mem_cons_self
  | .binary _ _ left right, c, hc => by
    rcases List.mem_append.1 hc with hc | hc
    · exact (exprComplaints_traced scopes left c hc).of_child List.mem_cons_self
    · exact (exprComplaints_traced scopes right c hc).of_child
        (List.mem_cons_of_mem _ List.mem_cons_self)
  | .call span name arguments, c, hc => by
    rcases List.mem_append.1 hc with hc | hc
    · obtain ⟨issue, hissue, rfl⟩ := mem_complain.1 hc
      intro called hcalled
      obtain rfl := eq_of_calls_callIssue hissue hcalled
      exact ⟨span, arguments, .refl, rfl⟩
    · obtain ⟨e, he, htraced⟩ := exprsComplaints_traced scopes arguments c hc
      refine htraced.of_child ?_
      rw [Node.children_call]
      exact List.mem_map_of_mem he

theorem exprsComplaints_traced (scopes : Scopes) : ∀ es : List Expr,
    ∀ c ∈ exprsComplaints scopes es, ∃ e ∈ es, Traced (.expr e) c
  | [], _, hc => absurd hc List.not_mem_nil
  | e :: es, c, hc => by
    rcases List.mem_append.1 hc with hc | hc
    · exact ⟨e, List.mem_cons_self, exprComplaints_traced scopes e c hc⟩
    · obtain ⟨e', he', htraced⟩ := exprsComplaints_traced scopes es c hc
      exact ⟨e', List.mem_cons_of_mem _ he', htraced⟩

end

theorem optionComplaints_traced {scopes : Scopes} {n : Node} {value : Option Expr}
    (hvalue : ∀ e ∈ value, .expr e ∈ n.children) :
    ∀ c ∈ optionComplaints scopes value, Traced n c := by
  cases value with
  | none => exact fun c hc ↦ absurd hc List.not_mem_nil
  | some e => exact fun c hc ↦ (exprComplaints_traced scopes e c hc).of_child (hvalue e rfl)

/-! ### Findings and calls -/

/-- Every complaint of a walk is traced. -/
def AllTraced (n : Node) (p : Pass State) : Prop :=
  ∀ f ∈ p.findings, ∀ c ∈ f.complaints, Traced n c

namespace AllTraced

variable {n : Node} {first : Pass State} {second : State → Pass State}

theorem file {kind : ErrorKind} {complaints : List Complaint} {s : State}
    (h : ∀ c ∈ complaints, Traced n c) : AllTraced n (.file kind complaints s) := by
  intro f hf c hc
  unfold Pass.file at hf
  split at hf
  · exact absurd hf List.not_mem_nil
  · obtain rfl := List.mem_singleton.1 hf
    exact h c hc

theorem andThen (hfirst : AllTraced n first) (hsecond : ∀ s, AllTraced n (second s)) :
    AllTraced n (first.andThen second) := by
  intro f hf
  rw [Pass.findings_andThen] at hf
  rcases List.mem_append.1 hf with hf | hf
  · exact hfirst f hf
  · exact hsecond _ f hf

theorem map (h : AllTraced n first) (g : State → State) : AllTraced n (first.map g) := h

theorem of_child {child : Node} (h : AllTraced child first) (hchild : child ∈ n.children) :
    AllTraced n first :=
  fun f hf c hc ↦ (h f hf c hc).of_child hchild

theorem of_stmts {stmts : List Stmt}
    (h : ∀ f ∈ first.findings, ∀ c ∈ f.complaints, ∃ stmt ∈ stmts, Traced (.stmt stmt) c)
    (hstmts : ∀ stmt ∈ stmts, .stmt stmt ∈ n.children) : AllTraced n first := by
  intro f hf c hc
  obtain ⟨stmt, hstmt, htraced⟩ := h f hf c hc
  exact htraced.of_child (hstmts stmt hstmt)

end AllTraced

theorem checkExpr_traced {n : Node} {value : Option Expr}
    (hvalue : ∀ e ∈ value, .expr e ∈ n.children) (s : State) : AllTraced n (checkExpr value s) :=
  .file (optionComplaints_traced hvalue)

/-- Complaints about declarations are not about calls. -/
theorem declareParameters_traced (n : Node) : ∀ (parameters : List Declarator) (scopes : Scopes),
    ∀ c ∈ (declareParameters parameters scopes).2, Traced n c
  | [], _, _, hc => absurd hc List.not_mem_nil
  | p :: parameters, scopes, c, hc => by
    have hrest := declareParameters_traced n parameters
    unfold declareParameters at hc
    split at hc
    · rcases List.mem_cons.1 hc with rfl | hc
      · exact traced_of_not_calls (by rintro name ⟨⟩)
      · exact hrest scopes c hc
    · split at hc
      · rcases List.mem_cons.1 hc with rfl | hc
        · exact traced_of_not_calls (by rintro name ⟨⟩)
        · exact hrest scopes c hc
      · exact hrest _ c hc

theorem enterFunction_traced (n : Node) (head : Declarator) (parameters : List Declarator)
    (s : State) : AllTraced n (enterFunction head parameters s) := by
  refine .file fun c hc ↦ ?_
  rcases List.mem_append.1 hc with hc | hc
  · split at hc
    · obtain rfl := List.mem_singleton.1 hc
      exact traced_of_not_calls (by rintro name ⟨⟩)
    · exact absurd hc List.not_mem_nil
  · exact declareParameters_traced n _ _ c hc

theorem not_calls_declareVariable {head : Declarator} {initialized : Bool} {s : State}
    {issue : Issue} (h : (declareVariable head initialized s).2 = some issue) (called : String) :
    ¬ issue.Calls called := by
  unfold declareVariable at h
  dsimp only at h
  split_ifs at h <;> cases h <;> rintro ⟨⟩

theorem checkVariable_traced (span : Span) (head : Declarator) (initial : Option Expr)
    (s : State) : AllTraced (.stmt (.var span head initial)) (checkVariable head initial s) := by
  refine .file fun c hc ↦ ?_
  rcases List.mem_append.1 hc with hc | hc
  · refine optionComplaints_traced (fun e he ↦ ?_) c hc
    obtain rfl := Option.mem_def.1 he
    exact List.mem_cons_of_mem _ List.mem_cons_self
  · obtain ⟨issue, hissue, rfl⟩ := mem_complain.1 hc
    exact traced_of_not_calls (not_calls_declareVariable hissue)

theorem checkAssign_traced (span : Span) (name : String) (target : Span) (value : Expr)
    (s : State) :
    AllTraced (.stmt (.assign span name target value)) (checkAssign name target value s) := by
  refine .file fun c hc ↦ ?_
  rcases List.mem_append.1 hc with hc | hc
  · obtain ⟨issue, hissue, rfl⟩ := mem_complain.1 hc
    exact traced_of_not_calls (not_calls_assignIssue hissue)
  · exact (exprComplaints_traced _ value c hc).of_child
      (List.mem_cons_of_mem _ List.mem_cons_self)

mutual

theorem checkStmt_traced : ∀ (stmt : Stmt) (s : State), AllTraced (.stmt stmt) (checkStmt stmt s)
  | .block span body, s => by
    refine .map (.of_stmts (checkAll_traced body s.push) fun stmt hstmt ↦ ?_) _
    rw [Node.children_block]
    exact List.mem_map_of_mem hstmt
  | .function span head parameters body, s => by
    refine .map ((enterFunction_traced _ head parameters s).andThen fun s ↦
      .of_stmts (checkAll_traced body s) fun stmt hstmt ↦ ?_) _
    rw [Node.children_function]
    exact List.mem_cons_of_mem _ (List.mem_map_of_mem hstmt)
  | .var span head initial, s => checkVariable_traced span head initial s
  | .assign span name target value, s => checkAssign_traced span name target value s
  | .conditional span condition thenBranch none, s => by
    refine (checkExpr_traced ?_ s).andThen fun s ↦
      .map ((checkStmt_traced thenBranch s.push).of_child
        (List.mem_cons_of_mem _ List.mem_cons_self)) _
    rintro e ⟨⟩
    exact List.mem_cons_self
  | .conditional span condition thenBranch (some elseBranch), s => by
    have hthen : Node.stmt thenBranch ∈
        (Node.stmt (.conditional span condition thenBranch (some elseBranch))).children :=
      List.mem_cons_of_mem _ List.mem_cons_self
    have helse : Node.stmt elseBranch ∈
        (Node.stmt (.conditional span condition thenBranch (some elseBranch))).children :=
      List.mem_cons_of_mem _ (List.mem_cons_of_mem _ List.mem_cons_self)
    refine ((checkExpr_traced ?_ s).andThen fun s ↦
      .map ((checkStmt_traced thenBranch s.push).of_child hthen) _).andThen fun s ↦
        .map ((checkStmt_traced elseBranch s.push).of_child helse) _
    rintro e ⟨⟩
    exact List.mem_cons_self
  | .loop span condition body, s => by
    refine (checkExpr_traced ?_ s).andThen fun s ↦
      .map ((checkStmt_traced body s.push).of_child
        (List.mem_cons_of_mem _ List.mem_cons_self)) _
    rintro e ⟨⟩
    exact List.mem_cons_self
  | .evaluate span value, s => checkExpr_traced (by rintro e ⟨⟩; exact List.mem_cons_self) s
  | .return_ span value, s => checkExpr_traced (by rintro e ⟨⟩; exact List.mem_cons_self) s
  | .print span ending value, s => by
    refine checkExpr_traced (fun e he ↦ ?_) s
    obtain rfl := Option.mem_def.1 he
    exact List.mem_cons_self

/-- Complaints about calls are traced to calls in the checked statements. -/
theorem checkAll_traced : ∀ (stmts : List Stmt) (s : State),
    ∀ f ∈ (checkAll stmts s).findings, ∀ c ∈ f.complaints, ∃ stmt ∈ stmts, Traced (.stmt stmt) c
  | [], _, _, hf, _, _ => absurd hf List.not_mem_nil
  | stmt :: stmts, s, f, hf, c, hc => by
    rcases List.mem_append.1 hf with hf | hf
    · exact ⟨stmt, List.mem_cons_self, checkStmt_traced stmt s f hf c hc⟩
    · obtain ⟨stmt', hstmt', htraced⟩ := checkAll_traced stmts _ f hf c hc
      exact ⟨stmt', List.mem_cons_of_mem _ hstmt', htraced⟩

end

end Names

/-! ### Texts under spans -/

/-- Two texts that are not empty and stand under spans with one start begin alike. -/
theorem Source.head?_textUnder {lines : List String} {s t : Span} {text text' : String}
    (h : textUnder lines s = some text) (h' : textUnder lines t = some text')
    (hstart : s.start = t.start) (hne : text ≠ "") (hne' : text' ≠ "") :
    text.toList.head? = text'.toList.head? := by
  have hbegins : ∀ {span : Span} {text : String}, textUnder lines span = some text → text ≠ "" →
      ∃ line, lines[(span.start.line - 1).toNat]? = some line ∧
        text.toList.head? = line.toList[(span.start.column - 1).toNat]? := by
    intro span text h hne
    unfold textUnder at h
    split at h
    · obtain ⟨line, hline, rfl⟩ := Option.map_eq_some_iff.1 h
      refine ⟨line, hline, ?_⟩
      rw [String.toList_ofList, List.head?_drop, List.getElem?_take]
      refine if_pos (not_le.1 fun hle ↦ hne ?_)
      rw [List.drop_eq_nil_of_le ((List.length_take_le _ _).trans hle)]
    · cases h
  obtain ⟨line, hline, hhead⟩ := hbegins h hne
  obtain ⟨line', hline', hhead'⟩ := hbegins h' hne'
  rw [hstart] at hline hhead
  obtain rfl := Option.some.inj (hline.symm.trans hline')
  rw [hhead, hhead']

/-- The text of an identifier does not begin like that of a parenthesis. -/
theorem Lexer.Spells.head?_ne {word : List Char} (h : Spells .identifier word) :
    word.head? ≠ some '(' := by
  cases h with
  | identifier hstart =>
    intro hhead
    obtain rfl := Option.some.inj hhead
    exact absurd hstart (by decide)

theorem Lexer.Spells.eq_of_mark {mark : Mark} {word : List Char} (h : Spells (.mark mark) word) :
    word = mark.spelling.toList := by
  cases h
  rfl

/-! ### Calls in a source -/

/-- A call in a program that is read from a source, with the tokens it stands for: `core` for those
of the call alone, and `phrase` for these and the parentheses around them. -/
structure CallSite (source : String) (program : List Stmt) (span : Span) (name : String)
    (arguments : List Expr) (core phrase : List Token) : Prop where
  /-- The call is part of the program. -/
  within : ∃ stmt ∈ program, (Node.stmt stmt).Within (.expr (.call span name arguments))
  /-- The phrase is among the tokens of the source. -/
  tokens : phrase <:+: (lex source).tokens
  /-- The tokens of the call are its name and its arguments in parentheses. -/
  fills : Fills core (Node.expr (.call span name arguments)).slots
  /-- There are only parentheses around them. -/
  grouped : Grouped core phrase
  /-- The span is that of the phrase. -/
  covers : span.Covers phrase

/-- Every call in a program has its tokens. -/
theorem exists_callSite {source : String} {program : List Stmt}
    (hparse : parse (lex source).tokens = .ok program) {stmt : Stmt} (hstmt : stmt ∈ program)
    {span : Span} {name : String} {arguments : List Expr}
    (hwithin : (Node.stmt stmt).Within (.expr (.call span name arguments))) :
    ∃ core phrase, CallSite source program span name arguments core phrase := by
  obtain ⟨phrase, hphrase, -, hcall⟩ := exists_phrase_of_within hparse hstmt hwithin
  cases hcall with
  | mk hfills haround hcovers =>
    exact ⟨_, phrase, ⟨stmt, hstmt, hwithin⟩, hphrase, hfills, haround, hcovers⟩

namespace CallSite

variable {source : String} {program : List Stmt} {span : Span} {name : String}
  {arguments : List Expr} {core phrase : List Token}

/-- The first token of the call alone is its name. -/
theorem exists_callee (h : CallSite source program span name arguments core phrase) :
    ∃ callee rest, core = callee :: rest ∧ callee ∈ (lex source).tokens ∧
      callee.kind = .identifier ∧ callee.text = name := by
  have hpart := h.grouped.isInfix.trans h.tokens
  cases h.fills with
  | token haccepts _ => exact ⟨_, _, rfl, hpart.subset List.mem_cons_self, haccepts⟩

/-- The first token of the phrase is the name of the call, or a parenthesis in front of it. -/
theorem first_cases (h : CallSite source program span name arguments core phrase) :
    ∃ first ∈ phrase.head?, first ∈ (lex source).tokens ∧ span.start = first.span.start ∧
      (phrase = core ∧ first.kind = .identifier ∧ first.text = name ∨
        phrase ≠ core ∧ first.kind = .mark .leftParen) := by
  obtain ⟨callee, rest, rfl, -, hkind, htext⟩ := h.exists_callee
  obtain ⟨first, hfirst, _, -, rfl⟩ := h.covers
  refine ⟨first, hfirst, h.tokens.subset (List.mem_of_mem_head? hfirst), rfl, ?_⟩
  rcases h.grouped with _ | ⟨hopening, -, -⟩
  · obtain rfl := Option.some.inj hfirst
    exact .inl ⟨rfl, hkind, htext⟩
  · obtain rfl := Option.some.inj hfirst
    refine .inr ⟨fun heq ↦ ?_, hopening⟩
    rw [(List.cons.inj heq).1, hkind] at hopening
    cases hopening

end CallSite

section Tokens

variable {source : String} {token opening name : Token}

/-- The span of a token is as wide as its text. -/
theorem Token.calleeSpan_of_mem (h : token ∈ (lex source).tokens) :
    Names.calleeSpan token.span token.text = token.span :=
  congrArg (Span.mk token.span.start) ((Lexer.stands_lex source).stop_eq token h).symm

/-- No name stands where a parenthesis does. -/
theorem Source.textUnder_ne_of_opening (hsize : source.length < 2 ^ 32) {span : Span}
    (hopening : opening ∈ (lex source).tokens) (hkind : opening.kind = .mark .leftParen)
    (hname : name ∈ (lex source).tokens) (hkind' : name.kind = .identifier)
    (hstart : span.start = opening.span.start) :
    textUnder (lines source) span ≠ some name.text := by
  have hstands := Lexer.stands_lex source
  have hquoted := (hstands.quoted hsize opening hopening (by rw [hkind]; decide)).textUnder
  have hspells := hstands.spells opening hopening (by rw [hkind]; decide)
  rw [hkind] at hspells
  have hspells' := hstands.spells name hname (by rw [hkind']; decide)
  rw [hkind'] at hspells'
  intro htext
  have hhead := head?_textUnder htext hquoted hstart
    (fun hnil ↦ hspells'.ne_nil (congrArg String.toList hnil))
    (fun hnil ↦ hspells.ne_nil (congrArg String.toList hnil))
  rw [hspells.eq_of_mark] at hhead
  exact hspells'.head?_ne hhead

end Tokens

/-- **Where complaints about calls point.** Every complaint that the check of names has about the
name in a call, whatever names it knows, belongs to a call of the program, and its span is as wide
as the name and starts with the first token of the call. If the call has no parentheses of its own,
this token is the name and the span is that of the name; otherwise it is the first of the
parentheses around it. In a source with fewer than `2 ^ 32` characters the text under the span is
the name exactly when there are no such parentheses. -/
theorem call_complaints_point {source : String} {program : List Stmt}
    (hparse : parse (lex source).tokens = .ok program) (s : Names.State) :
    ∀ f ∈ (Names.checkAll program s).findings, ∀ c ∈ f.complaints, ∀ name, c.val.Calls name →
      ∃ span arguments core phrase, CallSite source program span name arguments core phrase ∧
        (∃ first ∈ phrase.head?, c.span = Names.calleeSpan first.span name ∧
          (phrase = core → first.kind = .identifier ∧ first.text = name ∧ c.span = first.span) ∧
          (phrase ≠ core → first.kind = .mark .leftParen)) ∧
        (source.length < 2 ^ 32 →
          (Source.textUnder (Source.lines source) c.span = some name ↔ phrase = core)) := by
  intro f hf c hc name hname
  obtain ⟨stmt, hstmt, htraced⟩ := Names.checkAll_traced program s f hf c hc
  obtain ⟨span, arguments, hwithin, hspan⟩ := htraced name hname
  obtain ⟨core, phrase, hsite⟩ := exists_callSite hparse hstmt hwithin
  obtain ⟨first, hfirst, hmem, hstart, hcases⟩ := hsite.first_cases
  have hcallee : c.span = Names.calleeSpan first.span name := by
    rw [hspan, Names.calleeSpan, Names.calleeSpan, hstart]
  refine ⟨span, arguments, core, phrase, hsite, ?_⟩
  rcases hcases with ⟨hphrase, hkind, htext⟩ | ⟨hphrase, hkind⟩
  · have hwhole : c.span = first.span := by
      rw [hcallee, ← htext, Token.calleeSpan_of_mem hmem]
    refine ⟨⟨first, hfirst, hcallee, fun _ ↦ ⟨hkind, htext, hwhole⟩, fun h ↦ absurd hphrase h⟩,
      fun hsize ↦ iff_of_true ?_ hphrase⟩
    have hquoted := (Lexer.stands_lex source).quoted hsize first hmem (by rw [hkind]; decide)
    rw [hwhole, ← htext]
    exact hquoted.textUnder
  · obtain ⟨callee, -, -, hmem', hkind', rfl⟩ := hsite.exists_callee
    have hbegin := congrArg Span.start hcallee
    exact ⟨⟨first, hfirst, hcallee, fun h ↦ absurd h hphrase, fun _ ↦ hkind⟩, fun hsize ↦
      iff_of_false (Source.textUnder_ne_of_opening hsize hmem hkind hmem' hkind' hbegin)
        hphrase⟩

namespace Sample

/-- A variable is called with a call of a function that is not declared. -/
def miscalled : String :=
  "fun int main() \x7b\n  int a = 1;\n  return a(1 + g(2));\n\x7d"

/-- A call of a function that is not declared, in parentheses. -/
def miscalledInGroup : String :=
  "fun int main() \x7b return (g()); \x7d\n"

end Sample

/-- Both names are pointed at. -/
theorem call_complaints_point_miscalled :
    ∃ program, parse (lex Sample.miscalled).tokens = .ok program ∧
      let s : Names.State := { scopes := (Declarations.check "main" program {}).state }
      ((Names.checkAll program s).findings.flatMap Finding.complaints).map Located.val =
          [.variableCalled "a", .undeclared .fn "g" none] ∧
        ∀ f ∈ (Names.checkAll program s).findings, ∀ c ∈ f.complaints, ∀ name, c.val.Calls name →
          ∃ span arguments core phrase,
            CallSite Sample.miscalled program span name arguments core phrase ∧
            (∃ first ∈ phrase.head?, c.span = Names.calleeSpan first.span name ∧
              (phrase = core →
                first.kind = .identifier ∧ first.text = name ∧ c.span = first.span) ∧
              (phrase ≠ core → first.kind = .mark .leftParen)) ∧
            (Sample.miscalled.length < 2 ^ 32 →
              (Source.textUnder (Source.lines Sample.miscalled) c.span = some name ↔
                phrase = core)) := by
  have hprogram : ∃ program, parse (lex Sample.miscalled).tokens = .ok program ∧
      ((Names.checkAll program
        { scopes := (Declarations.check "main" program {}).state }).findings.flatMap
          Finding.complaints).map Located.val =
        [.variableCalled "a", .undeclared .fn "g" none] := ⟨_, by cbv, by cbv⟩
  obtain ⟨program, hparse, hvals⟩ := hprogram
  exact ⟨program, hparse, hvals, call_complaints_point hparse _⟩

/-- Under the complaint about a call in parentheses stands the parenthesis. -/
theorem call_complaint_grouped :
    ∃ program c, (lex Sample.miscalledInGroup).fault = none ∧
      parse (lex Sample.miscalledInGroup).tokens = .ok program ∧
      (Names.checkAll program
          { scopes := (Declarations.check "main" program {}).state }).findings =
        [⟨.name, [c], true⟩] ∧
      c.val = .undeclared .fn "g" none ∧
      Source.textUnder (Source.lines Sample.miscalledInGroup) c.span = some "(" :=
  ⟨_, ⟨⟨⟨1, 25⟩, ⟨1, 26⟩⟩, .undeclared .fn "g" none⟩, by cbv, by cbv, by cbv, rfl, by cbv⟩

end ScalarMips
