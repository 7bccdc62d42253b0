import ScalarMips.Proofs.FirstFault
import ScalarMips.Proofs.MergedReports
import ScalarMips.Proofs.TreeSpans

/-!
# Where problems begin

Whatever is reported of a source begins at a token of the source, at its end, or where the lexer
gave up. The checks complain about parts of the tree, which begin at tokens
(`Declarations.checkAll_rooted`, `Names.checkAll_rooted`, `Types.checkAll_rooted`); only the missing
entry point has no place.

A walk is followed down the tree: what is complained about in a part of a statement begins where
something in the statement begins (`Node.Begins`). Which scopes the walk has at that point does not
matter.
-/

namespace ScalarMips

/-! ### Beginnings -/

/-- Something in a part of a tree begins at a location. -/
def Node.Begins (n : Node) (l : Location) : Prop :=
  ∃ m, n.Within m ∧ m.span.start = l

namespace Node

theorem begins_self (n : Node) : n.Begins n.span.start :=
  ⟨n, .refl, rfl⟩

theorem Begins.of_child {n child : Node} {l : Location} (h : child.Begins l)
    (hchild : child ∈ n.children) : n.Begins l := by
  obtain ⟨m, hm, hl⟩ := h
  exact ⟨m, .head hchild hm, hl⟩

/-- A part begins where something in it does. -/
theorem begins_child {n child : Node} (hchild : child ∈ n.children) :
    n.Begins child.span.start :=
  child.begins_self.of_child hchild

theorem children_header (head : Declarator) (ds : List Declarator) :
    (header head ds).children = ds.map fun d ↦ name d.span d.name := by
  have hparts : ∀ ds : List Declarator, (Slot.separated (Slot.parameters ds)).filterMap Slot.part? =
      ds.map fun d ↦ name d.span d.name := by
    intro ds
    induction ds with
    | nil => rfl
    | cons d ds ih =>
      cases ds with
      | nil => rfl
      | cons d' ds =>
        refine congrArg (name d.span d.name :: ·) ?_
        rw [← ih]
        rfl
  rw [← hparts ds]
  exact List.filterMap_append.trans (List.append_nil _)

end Node

/-- The complaints in the findings of a walk begin where `P` says. -/
def Pass.Rooted {σ : Type} (P : Location → Prop) (p : Pass σ) : Prop :=
  ∀ f ∈ p.findings, ∀ c ∈ f.complaints, P c.span.start

namespace Pass.Rooted

variable {σ : Type} {P Q : Location → Prop} {first : Pass σ} {second : σ → Pass σ}

theorem quiet (s : σ) : Rooted P { state := s } :=
  fun _ hf ↦ absurd hf List.not_mem_nil

theorem file {kind : ErrorKind} {complaints : List Complaint} {s : σ}
    (h : ∀ c ∈ complaints, P c.span.start) : Rooted P (.file kind complaints s) := by
  intro f hf c hc
  unfold Pass.file at hf
  split at hf
  · exact absurd hf List.not_mem_nil
  · obtain rfl := List.mem_singleton.1 hf
    exact h c hc

theorem andThen (h : first.Rooted P) (h' : (second first.state).Rooted P) :
    (first.andThen second).Rooted P :=
  List.forall_mem_append.2 ⟨h, h'⟩

theorem map (h : first.Rooted P) (f : σ → σ) : (first.map f).Rooted P := h

theorem mono (h : first.Rooted P) (hPQ : ∀ l, P l → Q l) : first.Rooted Q :=
  fun f hf c hc ↦ hPQ _ (h f hf c hc)

/-- What begins in one of some statements begins in what they are part of. -/
theorem of_stmts {n : Node} {stmts : List Stmt}
    (h : first.Rooted fun l ↦ ∃ stmt ∈ stmts, (Node.stmt stmt).Begins l)
    (hstmts : ∀ stmt ∈ stmts, .stmt stmt ∈ n.children) : first.Rooted n.Begins :=
  h.mono fun _ ⟨stmt, hstmt, hbegins⟩ ↦ hbegins.of_child (hstmts stmt hstmt)

theorem of_child {n child : Node} (h : first.Rooted child.Begins) (hchild : child ∈ n.children) :
    first.Rooted n.Begins :=
  h.mono fun _ hbegins ↦ hbegins.of_child hchild

end Pass.Rooted

open Pass (Rooted)

/-- Complaints that begin in an expression, which is part of something else. -/
theorem begins_expr {n : Node} {e : Expr} {complaints : List Complaint}
    (h : ∀ c ∈ complaints, (Node.expr e).Begins c.span.start) (he : .expr e ∈ n.children) :
    ∀ c ∈ complaints, n.Begins c.span.start :=
  fun c hc ↦ (h c hc).of_child he

/-- Complaints that begin in one of some expressions, which are part of something else. -/
theorem begins_exprs {n : Node} {es : List Expr} {complaints : List Complaint}
    (h : ∀ c ∈ complaints, ∃ e ∈ es, (Node.expr e).Begins c.span.start)
    (hes : ∀ e ∈ es, .expr e ∈ n.children) : ∀ c ∈ complaints, n.Begins c.span.start := by
  intro c hc
  obtain ⟨e, he, hbegins⟩ := h c hc
  exact hbegins.of_child (hes e he)

/-! ### Declarations -/

namespace Declarations

theorem calls_begin : ∀ (e : Expr), ∀ span ∈ calls e, (Node.expr e).Begins span.start
  | .call span name arguments, s, hs => by
    obtain rfl := List.mem_singleton.1 hs
    exact Node.begins_self (.expr (.call s name arguments))
  | .unary _ _ operand, s, hs => (calls_begin operand s hs).of_child List.mem_cons_self
  | .binary _ _ left right, s, hs => by
    rcases List.mem_append.1 hs with hs | hs
    · exact (calls_begin left s hs).of_child List.mem_cons_self
    · exact (calls_begin right s hs).of_child (List.mem_cons_of_mem _ List.mem_cons_self)
  | .literal .., _, hs => absurd hs List.not_mem_nil
  | .var .., _, hs => absurd hs List.not_mem_nil

theorem checkStmt_rooted (globals : Scopes) (stmt : Stmt) :
    (checkStmt globals stmt).Rooted (Node.stmt stmt).Begins := by
  have hglobal : ∀ c ∈ [(⟨stmt.span, .globalStatement⟩ : Complaint)],
      (Node.stmt stmt).Begins c.span.start :=
    List.forall_mem_singleton.2 (Node.begins_self (.stmt stmt))
  cases stmt with
  | function span head parameters body =>
    show (declareFunction head parameters globals).Rooted _
    unfold declareFunction
    split
    · exact .quiet _
    · refine .file (List.forall_mem_singleton.2 (@Node.begins_child _ (.header head parameters) ?_))
      rw [Node.children_function]
      exact List.mem_cons_self
  | var span head initial =>
    cases initial with
    | none => exact .quiet _
    | some initial =>
      refine .file (List.forall_mem_map.2 fun s hs ↦ ?_)
      exact (calls_begin initial s hs).of_child (List.mem_cons_of_mem _ List.mem_cons_self)
  | conditional span condition thenBranch elseBranch => cases elseBranch <;> exact .file hglobal
  | _ => exact .file hglobal

theorem checkAll_rooted (program : List Stmt) (globals : Scopes) :
    (checkAll program globals).Rooted fun l ↦ ∃ stmt ∈ program, (Node.stmt stmt).Begins l := by
  induction program generalizing globals with
  | nil => exact .quiet globals
  | cons stmt program ih =>
    refine .andThen ((checkStmt_rooted globals stmt).mono fun l hl ↦ ?_)
      ((ih _).mono fun l ⟨stmt', hstmt', hl⟩ ↦ ?_)
    · exact ⟨stmt, List.mem_cons_self, hl⟩
    · exact ⟨stmt', List.mem_cons_of_mem _ hstmt', hl⟩

end Declarations

/-! ### Names -/

namespace Names

theorem complain_begins {n : Node} {span : Span} {issue : Option Issue}
    (h : n.Begins span.start) : ∀ c ∈ complain span issue, n.Begins c.span.start := by
  cases issue with
  | none => exact fun c hc ↦ absurd hc List.not_mem_nil
  | some issue => exact List.forall_mem_singleton.2 h

mutual

theorem exprComplaints_begin (scopes : Scopes) : ∀ (e : Expr),
    ∀ c ∈ exprComplaints scopes e, (Node.expr e).Begins c.span.start
  | .literal .., _, hc => absurd hc List.not_mem_nil
  | .var span name, c, hc => complain_begins (Node.begins_self (.expr (.var span name))) c hc
  | .unary _ _ operand, c, hc =>
    (exprComplaints_begin scopes operand c hc).of_child List.mem_cons_self
  | .binary _ _ left right, c, hc => by
    rcases List.mem_append.1 hc with hc | hc
    · exact (exprComplaints_begin scopes left c hc).of_child List.mem_cons_self
    · exact (exprComplaints_begin scopes right c hc).of_child
        (List.mem_cons_of_mem _ List.mem_cons_self)
  | .call span name arguments, c, hc => by
    rcases List.mem_append.1 hc with hc | hc
    · -- The span of the name is counted from where the call starts.
      have hname : (Node.expr (.call span name arguments)).Begins (calleeSpan span name).start :=
        Node.begins_self (.expr (.call span name arguments))
      exact complain_begins hname c hc
    · refine begins_exprs (exprsComplaints_begin scopes arguments) (fun e he ↦ ?_) c hc
      rw [Node.children_call]
      exact List.mem_map_of_mem he

theorem exprsComplaints_begin (scopes : Scopes) : ∀ (es : List Expr),
    ∀ c ∈ exprsComplaints scopes es, ∃ e ∈ es, (Node.expr e).Begins c.span.start
  | [], _, hc => absurd hc List.not_mem_nil
  | e :: es, c, hc => by
    rcases List.mem_append.1 hc with hc | hc
    · exact ⟨e, List.mem_cons_self, exprComplaints_begin scopes e c hc⟩
    · obtain ⟨e', he', hbegins⟩ := exprsComplaints_begin scopes es c hc
      exact ⟨e', List.mem_cons_of_mem _ he', hbegins⟩

end

theorem optionComplaints_begin {scopes : Scopes} {n : Node} {value : Option Expr}
    (hvalue : ∀ e ∈ value, .expr e ∈ n.children) :
    ∀ c ∈ optionComplaints scopes value, n.Begins c.span.start := by
  cases value with
  | none => exact fun c hc ↦ absurd hc List.not_mem_nil
  | some e => exact begins_expr (exprComplaints_begin scopes e) (hvalue e rfl)

theorem checkExpr_rooted {n : Node} {value : Option Expr}
    (hvalue : ∀ e ∈ value, .expr e ∈ n.children) (s : State) :
    (checkExpr value s).Rooted n.Begins :=
  .file (optionComplaints_begin hvalue)

theorem declareParameters_begin {n : Node} : ∀ (parameters : List Declarator) (scopes : Scopes),
    (∀ p ∈ parameters, n.Begins p.span.start) →
      ∀ c ∈ (declareParameters parameters scopes).2, n.Begins c.span.start
  | [], _, _, _, hc => absurd hc List.not_mem_nil
  | p :: parameters, scopes, h, c, hc => by
    obtain ⟨hp, hparameters⟩ := List.forall_mem_cons.1 h
    have hrest := fun scopes ↦ declareParameters_begin parameters scopes hparameters
    unfold declareParameters at hc
    split at hc
    · rcases List.mem_cons.1 hc with rfl | hc
      · exact hp
      · exact hrest scopes c hc
    · split at hc
      · rcases List.mem_cons.1 hc with rfl | hc
        · exact hp
        · exact hrest scopes c hc
      · exact hrest _ c hc

theorem enterFunction_rooted (head : Declarator) (parameters : List Declarator) (s : State) :
    (enterFunction head parameters s).Rooted (Node.header head parameters).Begins := by
  refine .file (List.forall_mem_append.2 ⟨?_, declareParameters_begin _ _ fun p hp ↦ ?_⟩)
  · split
    · exact List.forall_mem_singleton.2 (Node.begins_self (.header head parameters))
    · exact fun c hc ↦ absurd hc List.not_mem_nil
  · refine @Node.begins_child _ (.name p.span p.name) ?_
    rw [Node.children_header]
    exact List.mem_map_of_mem hp

theorem checkVariable_rooted (span : Span) (head : Declarator) (initial : Option Expr)
    (s : State) :
    (checkVariable head initial s).Rooted (Node.stmt (.var span head initial)).Begins := by
  have hname : Node.name head.span head.name ∈ (Node.stmt (.var span head initial)).children := by
    cases initial <;> exact List.mem_cons_self
  refine .file (List.forall_mem_append.2 ⟨optionComplaints_begin fun e he ↦ ?_, ?_⟩)
  · obtain rfl := Option.mem_def.1 he
    exact List.mem_cons_of_mem _ List.mem_cons_self
  · exact complain_begins (Node.begins_child hname)

theorem checkAssign_rooted (span : Span) (name : String) (target : Span) (value : Expr)
    (s : State) : (checkAssign name target value s).Rooted
      (Node.stmt (.assign span name target value)).Begins := by
  refine .file (List.forall_mem_append.2 ⟨complain_begins ?_, ?_⟩)
  · exact @Node.begins_child _ (.name target name) List.mem_cons_self
  · exact begins_expr (exprComplaints_begin _ value) (List.mem_cons_of_mem _ List.mem_cons_self)

mutual

theorem checkStmt_rooted : ∀ (stmt : Stmt) (s : State),
    (checkStmt stmt s).Rooted (Node.stmt stmt).Begins
  | .block span body, s => by
    refine ((checkAll_rooted body s.push).of_stmts fun stmt hstmt ↦ ?_).map State.pop
    rw [Node.children_block]
    exact List.mem_map_of_mem hstmt
  | .function span head parameters body, s => by
    have hchildren := Node.children_function span head parameters body
    refine .map (.andThen ((enterFunction_rooted head parameters s).of_child ?_)
      ((checkAll_rooted body _).of_stmts fun stmt hstmt ↦ ?_)) State.pop
    · rw [hchildren]
      exact List.mem_cons_self
    · rw [hchildren]
      exact List.mem_cons_of_mem _ (List.mem_map_of_mem hstmt)
  | .var span head initial, s => checkVariable_rooted span head initial s
  | .assign span name target value, s => checkAssign_rooted span name target value s
  | .conditional span condition thenBranch none, s => by
    refine .andThen (checkExpr_rooted ?_ s) (.map ((checkStmt_rooted thenBranch _).of_child
      (List.mem_cons_of_mem _ List.mem_cons_self)) State.pop)
    rintro e ⟨⟩
    exact List.mem_cons_self
  | .conditional span condition thenBranch (some elseBranch), s => by
    refine .andThen (.andThen (checkExpr_rooted ?_ s) (.map ((checkStmt_rooted thenBranch _).of_child
      (List.mem_cons_of_mem _ List.mem_cons_self)) State.pop)) (.map
        ((checkStmt_rooted elseBranch _).of_child
          (List.mem_cons_of_mem _ (List.mem_cons_of_mem _ List.mem_cons_self))) State.pop)
    rintro e ⟨⟩
    exact List.mem_cons_self
  | .loop span condition body, s => by
    refine .andThen (checkExpr_rooted ?_ s) (.map ((checkStmt_rooted body _).of_child
      (List.mem_cons_of_mem _ List.mem_cons_self)) State.pop)
    rintro e ⟨⟩
    exact List.mem_cons_self
  | .evaluate span value, s => checkExpr_rooted (by rintro e ⟨⟩; exact List.mem_cons_self) s
  | .return_ span value, s => checkExpr_rooted (by rintro e ⟨⟩; exact List.mem_cons_self) s
  | .print span ending value, s => by
    refine checkExpr_rooted (fun e he ↦ ?_) s
    obtain rfl := Option.mem_def.1 he
    exact List.mem_cons_self

theorem checkAll_rooted : ∀ (stmts : List Stmt) (s : State),
    (checkAll stmts s).Rooted fun l ↦ ∃ stmt ∈ stmts, (Node.stmt stmt).Begins l
  | [], s => .quiet s
  | stmt :: stmts, s => by
    refine .andThen ((checkStmt_rooted stmt s).mono fun l hl ↦ ?_)
      ((checkAll_rooted stmts _).mono fun l ⟨stmt', hstmt', hl⟩ ↦ ?_)
    · exact ⟨stmt, List.mem_cons_self, hl⟩
    · exact ⟨stmt', List.mem_cons_of_mem _ hstmt', hl⟩

end

end Names

/-! ### Types -/

namespace Types

section

variable {P : Location → Prop} {span : Span}

theorem inferUnary_begin {op : Operator} {operand : ScalarType} (h : P span.start) :
    ∀ c ∈ (inferUnary span op operand).complaints, P c.span.start := by
  unfold inferUnary
  split
  · exact fun c hc ↦ absurd hc List.not_mem_nil
  split
  · exact fun c hc ↦ absurd hc List.not_mem_nil
  · exact List.forall_mem_singleton.2 h

theorem operandComplaint_begin {op : Operator} {expected : ScalarType}
    {operand : Located ScalarType} (h : P operand.span.start) :
    ∀ c ∈ operandComplaint op expected operand, P c.span.start := by
  unfold operandComplaint
  split
  · exact List.forall_mem_singleton.2 h
  · exact fun c hc ↦ absurd hc List.not_mem_nil

theorem inferBinary_begin {op : Operator} {left right : Located ScalarType} (h : P span.start)
    (hleft : P left.span.start) (hright : P right.span.start) :
    ∀ c ∈ (inferBinary span op left right).complaints, P c.span.start := by
  unfold inferBinary
  split
  · exact fun c hc ↦ absurd hc List.not_mem_nil
  split
  · exact List.forall_mem_append.2
      ⟨operandComplaint_begin hleft, operandComplaint_begin hright⟩
  · split
    · exact fun c hc ↦ absurd hc List.not_mem_nil
    split
    · exact fun c hc ↦ absurd hc List.not_mem_nil
    · exact List.forall_mem_singleton.2 h
  · exact List.forall_mem_singleton.2 h

theorem argumentComplaints_begin : ∀ {arguments : List (Located ScalarType)}
    {parameters : List Declarator}, (∀ a ∈ arguments, P a.span.start) →
      ∀ c ∈ argumentComplaints arguments parameters, P c.span.start
  | [], _, _, _, hc => absurd hc (by rw [argumentComplaints.eq_def]; exact List.not_mem_nil)
  | _ :: _, [], _, _, hc => absurd hc (by rw [argumentComplaints.eq_def]; exact List.not_mem_nil)
  | argument :: arguments, parameter :: parameters, h, c, hc => by
    obtain ⟨hfirst, hrest⟩ := List.forall_mem_cons.1 h
    rw [argumentComplaints] at hc
    split at hc
    · rcases List.mem_cons.1 hc with rfl | hc
      · exact hfirst
      · exact argumentComplaints_begin hrest c hc
    · exact argumentComplaints_begin hrest c hc

theorem inferCall_begin {scopes : Scopes} {name : String} {arguments : List (Located ScalarType)}
    (h : P span.start) (harguments : ∀ a ∈ arguments, P a.span.start) :
    ∀ c ∈ (inferCall scopes span name arguments).complaints, P c.span.start := by
  unfold inferCall
  split
  · exact fun c hc ↦ absurd hc List.not_mem_nil
  split
  · exact fun c hc ↦ absurd hc List.not_mem_nil
  split
  · exact List.forall_mem_singleton.2 h
  · exact argumentComplaints_begin harguments

end

theorem inferAll_spans (scopes : Scopes) : ∀ (es : List Expr),
    ∀ a ∈ (inferAll scopes es).1, ∃ e ∈ es, a.span = e.span
  | [], _, ha => absurd ha List.not_mem_nil
  | e :: es, a, ha => by
    rcases List.mem_cons.1 ha with rfl | ha
    · exact ⟨e, List.mem_cons_self, rfl⟩
    · obtain ⟨e', he', hspan⟩ := inferAll_spans scopes es a ha
      exact ⟨e', List.mem_cons_of_mem _ he', hspan⟩

mutual

theorem infer_begin (scopes : Scopes) : ∀ (e : Expr),
    ∀ c ∈ (infer scopes e).complaints, (Node.expr e).Begins c.span.start
  | .literal .., _, hc => absurd hc List.not_mem_nil
  | .var .., _, hc => absurd hc List.not_mem_nil
  | .unary span op operand, c, hc => by
    rcases List.mem_append.1 hc with hc | hc
    · exact (infer_begin scopes operand c hc).of_child List.mem_cons_self
    · exact inferUnary_begin (Node.begins_self (.expr (.unary span op operand))) c hc
  | .binary span op left right, c, hc => by
    have hleft : Node.expr left ∈ (Node.expr (.binary span op left right)).children :=
      List.mem_cons_self
    have hright : Node.expr right ∈ (Node.expr (.binary span op left right)).children :=
      List.mem_cons_of_mem _ List.mem_cons_self
    rcases List.mem_append.1 hc with hc | hc
    · rcases List.mem_append.1 hc with hc | hc
      · exact (infer_begin scopes left c hc).of_child hleft
      · exact (infer_begin scopes right c hc).of_child hright
    · exact inferBinary_begin (Node.begins_self (.expr (.binary span op left right)))
        (Node.begins_child hleft) (Node.begins_child hright) c hc
  | .call span name arguments, c, hc => by
    have hchildren : ∀ e ∈ arguments,
        Node.expr e ∈ (Node.expr (.call span name arguments)).children := by
      intro e he
      rw [Node.children_call]
      exact List.mem_map_of_mem he
    rcases List.mem_append.1 hc with hc | hc
    · exact begins_exprs (inferAll_begin scopes arguments) hchildren c hc
    · refine inferCall_begin (Node.begins_self (.expr (.call span name arguments)))
        (fun a ha ↦ ?_) c hc
      obtain ⟨e, he, hspan⟩ := inferAll_spans scopes arguments a ha
      rw [hspan]
      exact Node.begins_child (hchildren e he)

theorem inferAll_begin (scopes : Scopes) : ∀ (es : List Expr),
    ∀ c ∈ (inferAll scopes es).2, ∃ e ∈ es, (Node.expr e).Begins c.span.start
  | [], _, hc => absurd hc List.not_mem_nil
  | e :: es, c, hc => by
    rcases List.mem_append.1 hc with hc | hc
    · exact ⟨e, List.mem_cons_self, infer_begin scopes e c hc⟩
    · obtain ⟨e', he', hbegins⟩ := inferAll_begin scopes es c hc
      exact ⟨e', List.mem_cons_of_mem _ he', hbegins⟩

end

theorem checkExpr_rooted {n : Node} {value : Option Expr}
    (hvalue : ∀ e ∈ value, .expr e ∈ n.children) (s : Scopes) :
    (checkExpr value s).Rooted n.Begins := by
  cases value with
  | none => exact .quiet s
  | some e => exact .file (begins_expr (infer_begin s e) (hvalue e rfl))

/-- What is asked of a value is asked where the value stands, or where the statement does that it is
part of. -/
theorem checkValue_begin {n : Node} {value : Expr} {ask : ScalarType → List Complaint} (s : Scopes)
    (hvalue : .expr value ∈ n.children) (hask : ∀ type, ∀ c ∈ ask type, n.Begins c.span.start) :
    ∀ c ∈ checkValue value ask s, n.Begins c.span.start :=
  List.forall_mem_append.2 ⟨begins_expr (infer_begin s value) hvalue, hask _⟩

theorem checkCondition_rooted {n : Node} {condition : Expr}
    (hcondition : .expr condition ∈ n.children) (s : Scopes) :
    (checkCondition condition s).Rooted n.Begins := by
  refine .file (checkValue_begin s hcondition fun type ↦ ?_)
  split
  · exact List.forall_mem_singleton.2 (Node.begins_child hcondition)
  · exact fun c hc ↦ absurd hc List.not_mem_nil

theorem checkVariable_rooted (span : Span) (head : Declarator) (initial : Option Expr)
    (s : Scopes) :
    (checkVariable head initial s).Rooted (Node.stmt (.var span head initial)).Begins := by
  cases initial with
  | none => exact .file fun c hc ↦ absurd hc List.not_mem_nil
  | some value =>
    have hvalue : Node.expr value ∈ (Node.stmt (.var span head (some value))).children :=
      List.mem_cons_of_mem _ List.mem_cons_self
    refine .file (checkValue_begin s hvalue fun type ↦ ?_)
    split
    · exact List.forall_mem_singleton.2 (Node.begins_child hvalue)
    · exact fun c hc ↦ absurd hc List.not_mem_nil

theorem checkAssign_rooted (span : Span) (name : String) (target : Span) (value : Expr)
    (s : Scopes) :
    (checkAssign name value s).Rooted (Node.stmt (.assign span name target value)).Begins := by
  have hvalue : Node.expr value ∈ (Node.stmt (.assign span name target value)).children :=
    List.mem_cons_of_mem _ List.mem_cons_self
  refine .file (checkValue_begin s hvalue fun type ↦ ?_)
  split
  · exact fun c hc ↦ absurd hc List.not_mem_nil
  · split
    · exact List.forall_mem_singleton.2 (Node.begins_child hvalue)
    · exact fun c hc ↦ absurd hc List.not_mem_nil

theorem checkReturn_rooted (span : Span) (value : Expr) (s : Scopes) :
    (checkReturn span value s).Rooted (Node.stmt (.return_ span value)).Begins := by
  have hself := Node.begins_self (.stmt (.return_ span value))
  refine .file (checkValue_begin s List.mem_cons_self fun type ↦ ?_)
  split
  · exact List.forall_mem_singleton.2 hself
  · split
    · exact List.forall_mem_singleton.2 hself
    · exact fun c hc ↦ absurd hc List.not_mem_nil

mutual

theorem checkStmt_rooted : ∀ (stmt : Stmt) (s : Scopes),
    (checkStmt stmt s).Rooted (Node.stmt stmt).Begins
  | .block span body, s => by
    refine ((checkAll_rooted body s.push).of_stmts fun stmt hstmt ↦ ?_).map Scopes.pop
    rw [Node.children_block]
    exact List.mem_map_of_mem hstmt
  | .function span head parameters body, s => by
    refine ((checkAll_rooted body _).of_stmts fun stmt hstmt ↦ ?_).map Scopes.pop
    rw [Node.children_function]
    exact List.mem_cons_of_mem _ (List.mem_map_of_mem hstmt)
  | .var span head initial, s => checkVariable_rooted span head initial s
  | .assign span name target value, s => checkAssign_rooted span name target value s
  | .conditional span condition thenBranch none, s =>
    .andThen (checkCondition_rooted List.mem_cons_self s) (.map
      ((checkStmt_rooted thenBranch _).of_child (List.mem_cons_of_mem _ List.mem_cons_self))
      Scopes.pop)
  | .conditional span condition thenBranch (some elseBranch), s =>
    .andThen (.andThen (checkCondition_rooted List.mem_cons_self s) (.map
      ((checkStmt_rooted thenBranch _).of_child (List.mem_cons_of_mem _ List.mem_cons_self))
      Scopes.pop)) (.map ((checkStmt_rooted elseBranch _).of_child
        (List.mem_cons_of_mem _ (List.mem_cons_of_mem _ List.mem_cons_self))) Scopes.pop)
  | .loop span condition body, s =>
    .andThen (checkCondition_rooted List.mem_cons_self s) (.map
      ((checkStmt_rooted body _).of_child (List.mem_cons_of_mem _ List.mem_cons_self)) Scopes.pop)
  | .evaluate span value, s => checkExpr_rooted (by rintro e ⟨⟩; exact List.mem_cons_self) s
  | .return_ span value, s => checkReturn_rooted span value s
  | .print span ending value, s => by
    refine checkExpr_rooted (fun e he ↦ ?_) s
    obtain rfl := Option.mem_def.1 he
    exact List.mem_cons_self

theorem checkAll_rooted : ∀ (stmts : List Stmt) (s : Scopes),
    (checkAll stmts s).Rooted fun l ↦ ∃ stmt ∈ stmts, (Node.stmt stmt).Begins l
  | [], s => .quiet s
  | stmt :: stmts, s => by
    refine .andThen ((checkStmt_rooted stmt s).mono fun l hl ↦ ?_)
      ((checkAll_rooted stmts _).mono fun l ⟨stmt', hstmt', hl⟩ ↦ ?_)
    · exact ⟨stmt, List.mem_cons_self, hl⟩
    · exact ⟨stmt', List.mem_cons_of_mem _ hstmt', hl⟩

end

end Types

end ScalarMips
