import ScalarMips.Proofs.ScopeLaws
import ScalarMips.Proofs.Unplaced

/-!
# Checks without positions

What the checks complain of does not depend on where things stand. A walk over a tree without
positions, from scopes without positions, ends in the state in which the walk over the tree itself
ends, without positions, and makes the same findings apart from the positions in them
(`Pass.Unplaces`). The relation is kept by the ways in which walks are put together, so it is proved
along the trees for each of the three checks.
-/

namespace ScalarMips

/-! ### Scopes -/

/-- What is known of a name, without positions. -/
def Identifier.unplaced (i : Identifier) : Identifier :=
  { i with parameters := i.parameters.map Declarator.unplaced }

@[simp] theorem Identifier.kind_unplaced (i : Identifier) : i.unplaced.kind = i.kind := rfl

/-- A frame without positions. -/
def Frame.unplaced (f : Frame) : Frame :=
  { f with bindings := f.bindings.map fun b ↦ (b.1, b.2.unplaced) }

theorem Frame.find?_unplaced (f : Frame) (name : String) :
    f.unplaced.find? name = (f.find? name).map Identifier.unplaced :=
  lookup_map_snd Identifier.unplaced f.bindings name

theorem Frame.isSome_find?_unplaced (f : Frame) (name : String) :
    (f.unplaced.find? name).isSome = (f.find? name).isSome := by
  rw [find?_unplaced, Option.isSome_map]

theorem Frame.modify_unplaced {change : Identifier → Identifier}
    (h : ∀ i, (change i).unplaced = change i.unplaced) (f : Frame) (name : String) :
    f.unplaced.modify name change = (f.modify name change).unplaced := by
  unfold modify unplaced
  simp only [List.map_map]
  congr 1
  refine List.map_congr_left fun b _ ↦ ?_
  show (b.1, if b.1 = name then change b.2.unplaced else b.2.unplaced) =
    (b.1, (if b.1 = name then change b.2 else b.2).unplaced)
  split
  · rw [h]
  · rfl

namespace Scopes

/-- Scopes without positions. -/
def unplaced (s : Scopes) : Scopes :=
  ⟨s.current.unplaced, s.outer.map Frame.unplaced⟩

theorem frames_unplaced (s : Scopes) : s.unplaced.frames = s.frames.map Frame.unplaced := rfl

theorem pop_unplaced (s : Scopes) : s.unplaced.pop = s.pop.unplaced := by
  obtain ⟨current, outer⟩ := s
  cases outer <;> rfl

theorem lookup_unplaced (s : Scopes) (name : String) :
    s.unplaced.lookup name = (s.lookup name).map Identifier.unplaced := by
  unfold lookup
  rw [frames_unplaced]
  induction s.frames with
  | nil => rfl
  | cons frame frames ih =>
    rw [List.map_cons, List.findSome?_cons, List.findSome?_cons, Frame.find?_unplaced, ih]
    cases frame.find? name <;> rfl

theorem lookupHere_unplaced (s : Scopes) (name : String) :
    s.unplaced.lookupHere name = (s.lookupHere name).map Identifier.unplaced :=
  Frame.find?_unplaced s.current name

theorem declare?_unplaced (s : Scopes) (name : String) (i : Identifier) :
    s.unplaced.declare? name i.unplaced = (s.declare? name i).map unplaced := by
  cases h : s.lookupHere name with
  | none =>
    have hfree : s.unplaced.lookupHere name = none := by
      rw [lookupHere_unplaced, h]
      rfl
    rw [declare?_of_free h, declare?_of_free hfree]
    simp [unplaced, Frame.unplaced]
  | some b =>
    have hbound : (s.unplaced.lookupHere name).isSome := by
      rw [lookupHere_unplaced, h]
      rfl
    rw [declare?_of_bound hbound, declare?_of_bound (by simp [h])]
    rfl

theorem declare_unplaced (s : Scopes) (name : String) (i : Identifier) :
    s.unplaced.declare name i.unplaced = (s.declare name i).unplaced := by
  unfold declare
  rw [declare?_unplaced]
  cases s.declare? name i <;> rfl

theorem modify_unplaced {change : Identifier → Identifier}
    (h : ∀ i, (change i).unplaced = change i.unplaced) (s : Scopes) (name : String) :
    s.unplaced.modify name change = (s.modify name change).unplaced := by
  have houter : ∀ frames : List Frame, modifyInnermost name change (frames.map Frame.unplaced) =
      (modifyInnermost name change frames).map Frame.unplaced := by
    intro frames
    induction frames with
    | nil => rfl
    | cons frame frames ih =>
      rw [List.map_cons, modifyInnermost, modifyInnermost, Frame.isSome_find?_unplaced]
      split
      · rw [Frame.modify_unplaced h]
        rfl
      · rw [ih]
        rfl
  unfold modify
  rw [show s.unplaced.current = s.current.unplaced from rfl, Frame.isSome_find?_unplaced]
  split
  · rw [Frame.modify_unplaced h]
    rfl
  · show (⟨_, modifyInnermost name change (s.outer.map Frame.unplaced)⟩ : Scopes) = _
    rw [houter]
    rfl

theorem markInitialized_unplaced (s : Scopes) (name : String) :
    s.unplaced.markInitialized name = (s.markInitialized name).unplaced := by
  have hmark : ∀ i : Identifier, Identifier.unplaced { i with initialized := true } =
      { i.unplaced with initialized := true } := fun _ ↦ rfl
  exact modify_unplaced hmark s name

theorem returnType?_unplaced (s : Scopes) : s.unplaced.returnType? = s.returnType? := by
  unfold returnType?
  rw [frames_unplaced, List.findSome?_map]
  rfl

theorem hasKind_unplaced (s : Scopes) (kind : Option IdentifierKind) (name : String) :
    s.unplaced.hasKind kind name = s.hasKind kind name := by
  cases kind with
  | none => rfl
  | some kind =>
    unfold hasKind
    rw [lookup_unplaced, Option.map_map]
    rfl

theorem visibleNames_unplaced (s : Scopes) (kind : Option IdentifierKind) :
    s.unplaced.visibleNames kind = s.visibleNames kind := by
  have hnames : ∀ frames : List Frame,
      ((frames.map Frame.unplaced).flatMap fun frame ↦ frame.bindings.map Prod.fst) =
        frames.flatMap fun frame ↦ frame.bindings.map Prod.fst := by
    intro frames
    rw [List.flatMap_map]
    exact congrArg (List.flatMap · frames) (funext fun frame ↦ List.map_map)
  unfold visibleNames
  rw [frames_unplaced, ← List.map_reverse, hnames, funext (hasKind_unplaced s kind)]

end Scopes

/-! ### Passes -/

/-- The issues that complaints are about, without positions. -/
def issues (complaints : List Complaint) : List Issue :=
  complaints.map Located.val

theorem issues_append (first second : List Complaint) :
    issues (first ++ second) = issues first ++ issues second :=
  List.map_append

/-- Whether there is a complaint does not depend on its position. -/
theorem issues_ite (c : Prop) [Decidable c] (span span' : Span) (issue : Issue) :
    issues (if c then [⟨span', issue⟩] else []) = issues (if c then [⟨span, issue⟩] else []) := by
  split <;> rfl

/-- What a finding is apart from positions. -/
def Finding.outline (f : Finding) : ErrorKind × List Issue :=
  (f.kind, issues f.complaints)

namespace Pass

variable {σ : Type} {u : σ → σ} {p p' : Pass σ}

/-- A walk ends in the state in which another one ends, without its positions, and makes the same
findings. -/
structure Unplaces (u : σ → σ) (p p' : Pass σ) : Prop where
  /-- The last state is that of the other walk without positions. -/
  state : p'.state = u p.state
  /-- The findings are the same. -/
  findings : p'.findings.map Finding.outline = p.findings.map Finding.outline

theorem unplaces_nil (state : σ) : Unplaces u { state } { state := u state } :=
  ⟨rfl, rfl⟩

theorem unplaces_file {kind : ErrorKind} {complaints complaints' : List Complaint}
    {state state' : σ} (hcomplaints : issues complaints' = issues complaints)
    (hstate : state' = u state) :
    Unplaces u (file kind complaints state) (file kind complaints' state') := by
  refine ⟨hstate, ?_⟩
  have hlength := congrArg List.length hcomplaints
  cases complaints with
  | nil =>
    cases complaints' with
    | nil => rfl
    | cons c complaints' => cases hlength
  | cons c complaints =>
    cases complaints' with
    | nil => cases hlength
    | cons c' complaints' => exact congrArg (fun i ↦ [(kind, i)]) hcomplaints

theorem Unplaces.andThen {second second' : σ → Pass σ} (h : Unplaces u p p')
    (hsecond : ∀ s, Unplaces u (second s) (second' (u s))) :
    Unplaces u (p.andThen second) (p'.andThen second') := by
  have hafter := hsecond p.state
  rw [← h.state] at hafter
  refine ⟨hafter.state, ?_⟩
  rw [findings_andThen, findings_andThen, List.map_append, List.map_append, h.findings,
    hafter.findings]

theorem Unplaces.map {f : σ → σ} (h : Unplaces u p p') (hf : ∀ s, f (u s) = u (f s)) :
    Unplaces u (p.map f) (p'.map f) :=
  ⟨(congrArg f h.state).trans (hf p.state), h.findings⟩

end Pass

/-! ### Global declarations -/

namespace Declarations

theorem length_calls_unplaced (e : Expr) : (calls e.unplaced).length = (calls e).length := by
  cases e with
  | literal span value => rfl
  | var span name => rfl
  | unary span op operand => exact length_calls_unplaced operand
  | binary span op left right =>
    rw [Expr.unplaced, calls, calls, List.length_append, List.length_append,
      length_calls_unplaced left, length_calls_unplaced right]
  | call span name arguments => rfl

theorem declareFunction_unplaces (head : Declarator) (parameters : List Declarator)
    (globals : Scopes) :
    Pass.Unplaces Scopes.unplaced (declareFunction head parameters globals)
      (declareFunction head.unplaced (parameters.map Declarator.unplaced) globals.unplaced) := by
  have hdeclare : globals.unplaced.declare? head.name
      { kind := .fn, type := head.type, parameters := parameters.map Declarator.unplaced } =
        (globals.declare? head.name { kind := .fn, type := head.type, parameters }).map
          Scopes.unplaced :=
    globals.declare?_unplaced head.name { kind := .fn, type := head.type, parameters }
  simp only [declareFunction, Declarator.name_unplaced, Declarator.type_unplaced, hdeclare]
  cases globals.declare? head.name { kind := .fn, type := head.type, parameters } with
  | none => exact Pass.unplaces_file rfl rfl
  | some globals => exact Pass.unplaces_nil globals

theorem checkStmt_unplaces (globals : Scopes) (stmt : Stmt) :
    Pass.Unplaces Scopes.unplaced (checkStmt globals stmt)
      (checkStmt globals.unplaced stmt.unplaced) := by
  cases stmt with
  | function span head parameters body => exact declareFunction_unplaces head parameters globals
  | var span head initial =>
    cases initial with
    | none => exact Pass.unplaces_nil globals
    | some initial =>
      have hissues : ∀ spans : List Span,
          issues (spans.map fun span ↦ ⟨span, .callInInitialValue⟩) =
            List.replicate spans.length .callInInitialValue := by
        intro spans
        rw [issues, List.map_map]
        exact List.map_const'
      refine Pass.unplaces_file ?_ rfl
      rw [hissues, hissues, length_calls_unplaced]
  | conditional span condition thenBranch elseBranch =>
    cases elseBranch <;> exact Pass.unplaces_file rfl rfl
  | _ => exact Pass.unplaces_file rfl rfl

theorem checkAll_unplaces (program : List Stmt) (globals : Scopes) :
    Pass.Unplaces Scopes.unplaced (checkAll program globals)
      (checkAll (Stmt.unplacedAll program) globals.unplaced) := by
  induction program generalizing globals with
  | nil => exact Pass.unplaces_nil globals
  | cons stmt program ih => exact (checkStmt_unplaces globals stmt).andThen ih

theorem check_unplaces (entry : String) (program : List Stmt) (globals : Scopes) :
    Pass.Unplaces Scopes.unplaced (check entry program globals)
      (check entry (Stmt.unplacedAll program) globals.unplaced) := by
  refine (checkAll_unplaces program globals).andThen fun globals ↦ ?_
  unfold checkEntry
  rw [Scopes.hasKind_unplaced]
  split
  · exact Pass.unplaces_nil globals
  · exact ⟨rfl, rfl⟩

end Declarations

/-! ### Names -/

namespace Names

theorem undeclared_unplaced (scopes : Scopes) (kind : IdentifierKind) (name : String) :
    undeclared scopes.unplaced kind name = undeclared scopes kind name := by
  rw [undeclared, undeclared, Scopes.visibleNames_unplaced]

theorem readIssue_unplaced (scopes : Scopes) (name : String) :
    readIssue scopes.unplaced name = readIssue scopes name := by
  unfold readIssue
  rw [Scopes.lookup_unplaced, undeclared_unplaced]
  cases scopes.lookup name <;> rfl

theorem callIssue_unplaced (scopes : Scopes) (name : String) :
    callIssue scopes.unplaced name = callIssue scopes name := by
  unfold callIssue
  rw [Scopes.lookup_unplaced, undeclared_unplaced]
  cases scopes.lookup name <;> rfl

theorem assignIssue_unplaced (scopes : Scopes) (name : String) :
    assignIssue scopes.unplaced name = assignIssue scopes name := by
  unfold assignIssue
  rw [Scopes.lookup_unplaced, undeclared_unplaced]
  cases scopes.lookup name <;> rfl

theorem issues_complain (span : Span) (issue : Option Issue) :
    issues (complain span issue) = issue.toList := by
  cases issue <;> rfl

mutual

theorem exprComplaints_unplaced (scopes : Scopes) : ∀ e : Expr,
    issues (exprComplaints scopes.unplaced e.unplaced) = issues (exprComplaints scopes e)
  | .literal .. => rfl
  | .var _ name => by
    rw [Expr.unplaced, exprComplaints, exprComplaints, readIssue_unplaced, issues_complain,
      issues_complain]
  | .unary _ _ operand => exprComplaints_unplaced scopes operand
  | .binary _ _ left right => by
    rw [Expr.unplaced, exprComplaints, exprComplaints, issues_append, issues_append,
      exprComplaints_unplaced scopes left, exprComplaints_unplaced scopes right]
  | .call _ name arguments => by
    rw [Expr.unplaced, exprComplaints, exprComplaints, issues_append, issues_append,
      callIssue_unplaced, issues_complain, issues_complain,
      exprsComplaints_unplacedAll scopes arguments]

theorem exprsComplaints_unplacedAll (scopes : Scopes) : ∀ es : List Expr,
    issues (exprsComplaints scopes.unplaced (Expr.unplacedAll es)) =
      issues (exprsComplaints scopes es)
  | [] => rfl
  | e :: es => by
    rw [Expr.unplacedAll, exprsComplaints, exprsComplaints, issues_append, issues_append,
      exprComplaints_unplaced scopes e, exprsComplaints_unplacedAll scopes es]

end

theorem optionComplaints_unplaced (scopes : Scopes) (value : Option Expr) :
    issues (optionComplaints scopes.unplaced (value.map Expr.unplaced)) =
      issues (optionComplaints scopes value) := by
  cases value with
  | none => rfl
  | some e => exact exprComplaints_unplaced scopes e

/-- What a walk knows, without positions. -/
def State.unplaced (s : State) : State :=
  { s with scopes := s.scopes.unplaced }

theorem State.pop_unplaced (s : State) : s.unplaced.pop = s.pop.unplaced :=
  congrArg (State.mk · s.pending) s.scopes.pop_unplaced

theorem checkExpr_unplaces (value : Option Expr) (s : State) :
    Pass.Unplaces State.unplaced (checkExpr value s)
      (checkExpr (value.map Expr.unplaced) s.unplaced) :=
  Pass.unplaces_file (optionComplaints_unplaced s.scopes value) rfl

theorem declareParameters_unplaced (parameters : List Declarator) (scopes : Scopes) :
    (declareParameters (parameters.map Declarator.unplaced) scopes.unplaced).1 =
        (declareParameters parameters scopes).1.unplaced ∧
      issues (declareParameters (parameters.map Declarator.unplaced) scopes.unplaced).2 =
        issues (declareParameters parameters scopes).2 := by
  induction parameters generalizing scopes with
  | nil => exact ⟨rfl, rfl⟩
  | cons p parameters ih =>
    have hdeclare : scopes.unplaced.declare? p.name { type := p.type, initialized := true } =
        (scopes.declare? p.name { type := p.type, initialized := true }).map Scopes.unplaced :=
      scopes.declare?_unplaced p.name { type := p.type, initialized := true }
    obtain ⟨hscopes, hcomplaints⟩ := ih scopes
    simp only [List.map_cons, declareParameters, Scopes.hasKind_unplaced,
      Declarator.name_unplaced, Declarator.type_unplaced, hdeclare]
    split
    · exact ⟨hscopes, congrArg (_ :: ·) hcomplaints⟩
    · cases scopes.declare? p.name { type := p.type, initialized := true } with
      | none => exact ⟨hscopes, congrArg (_ :: ·) hcomplaints⟩
      | some scopes => exact ih scopes

theorem enterFunction_unplaces (head : Declarator) (parameters : List Declarator) (s : State) :
    Pass.Unplaces State.unplaced (enterFunction head parameters s)
      (enterFunction head.unplaced (parameters.map Declarator.unplaced) s.unplaced) := by
  obtain ⟨hscopes, hcomplaints⟩ :=
    declareParameters_unplaced parameters (s.scopes.push (some head.type))
  refine Pass.unplaces_file ?_ ?_
  · rw [issues_append, issues_append]
    exact congrArg₂ (· ++ ·) (issues_ite (head.name ∈ s.pending) _ _ _) hcomplaints
  · show State.mk (Scopes.markInitialized _ head.name) _ = State.mk (Scopes.unplaced _) _
    rw [← Scopes.markInitialized_unplaced]
    exact congrArg (fun scopes ↦ State.mk (scopes.markInitialized head.name) _) hscopes

theorem declareVariable_unplaced (head : Declarator) (initialized : Bool) (s : State) :
    declareVariable head.unplaced initialized s.unplaced =
      ((declareVariable head initialized s).1.unplaced,
        (declareVariable head initialized s).2) := by
  have hdeclare : s.scopes.unplaced.declare head.name { type := head.type, initialized } =
      (s.scopes.declare head.name { type := head.type, initialized }).unplaced :=
    s.scopes.declare_unplaced head.name { type := head.type, initialized }
  have hhere : (s.scopes.unplaced.lookupHere head.name).any
      (fun i ↦ i.kind = .var || i.initialized) =
        (s.scopes.lookupHere head.name).any fun i ↦ i.kind = .var || i.initialized := by
    rw [Scopes.lookupHere_unplaced]
    cases s.scopes.lookupHere head.name <;> rfl
  have hvisible : (s.scopes.unplaced.lookup head.name).any
      (fun i ↦ i.kind = .fn && i.initialized) =
        (s.scopes.lookup head.name).any fun i ↦ i.kind = .fn && i.initialized := by
    rw [Scopes.lookup_unplaced]
    cases s.scopes.lookup head.name <;> rfl
  have hbound : (s.scopes.unplaced.lookupHere head.name).isSome =
      (s.scopes.lookupHere head.name).isSome := by
    rw [Scopes.lookupHere_unplaced, Option.isSome_map]
  simp only [declareVariable, State.unplaced, Declarator.name_unplaced, Declarator.type_unplaced,
    hhere, hvisible, hbound, hdeclare]
  split
  · rfl
  · split
    · rfl
    · split <;> rfl

theorem checkVariable_unplaces (head : Declarator) (initial : Option Expr) (s : State) :
    Pass.Unplaces State.unplaced (checkVariable head initial s)
      (checkVariable head.unplaced (initial.map Expr.unplaced) s.unplaced) := by
  have hdeclare := declareVariable_unplaced head initial.isSome s
  simp only [checkVariable, Option.isSome_map, hdeclare]
  refine Pass.unplaces_file ?_ rfl
  rw [issues_append, issues_append, issues_complain, issues_complain]
  exact congrArg (· ++ _) (optionComplaints_unplaced s.scopes initial)

theorem checkAssign_unplaces (name : String) (target target' : Span) (value : Expr) (s : State) :
    Pass.Unplaces State.unplaced (checkAssign name target value s)
      (checkAssign name target' value.unplaced s.unplaced) := by
  refine Pass.unplaces_file ?_ ?_
  · rw [issues_append, issues_append, issues_complain, issues_complain]
    exact congrArg₂ (· ++ ·) (congrArg Option.toList (assignIssue_unplaced s.scopes name))
      (exprComplaints_unplaced s.scopes value)
  · show State.mk (if s.scopes.unplaced.hasKind (some .var) name then
      s.scopes.unplaced.markInitialized name else s.scopes.unplaced) _ = _
    rw [Scopes.hasKind_unplaced, Scopes.markInitialized_unplaced, State.unplaced]
    split <;> rfl

mutual

/-- Without positions, a statement has the same issues with names. -/
theorem checkStmt_unplaces : ∀ (stmt : Stmt) (s : State),
    Pass.Unplaces State.unplaced (checkStmt stmt s) (checkStmt stmt.unplaced s.unplaced)
  | .block _ body, s => (checkAll_unplaces body s.push).map State.pop_unplaced
  | .function _ head parameters body, s =>
    ((enterFunction_unplaces head parameters s).andThen (checkAll_unplaces body)).map
      State.pop_unplaced
  | .var _ head initial, s => checkVariable_unplaces head initial s
  | .assign _ name target value, s => checkAssign_unplaces name target {} value s
  | .conditional _ condition thenBranch none, s =>
    (checkExpr_unplaces (some condition) s).andThen fun s ↦
      (checkStmt_unplaces thenBranch s.push).map State.pop_unplaced
  | .conditional _ condition thenBranch (some elseBranch), s =>
    ((checkExpr_unplaces (some condition) s).andThen fun s ↦
      (checkStmt_unplaces thenBranch s.push).map State.pop_unplaced).andThen fun s ↦
        (checkStmt_unplaces elseBranch s.push).map State.pop_unplaced
  | .loop _ condition body, s =>
    (checkExpr_unplaces (some condition) s).andThen fun s ↦
      (checkStmt_unplaces body s.push).map State.pop_unplaced
  | .evaluate _ value, s => checkExpr_unplaces (some value) s
  | .return_ _ value, s => checkExpr_unplaces (some value) s
  | .print _ _ value, s => checkExpr_unplaces value s

/-- Without positions, statements have the same issues with names. -/
theorem checkAll_unplaces : ∀ (stmts : List Stmt) (s : State),
    Pass.Unplaces State.unplaced (checkAll stmts s)
      (checkAll (Stmt.unplacedAll stmts) s.unplaced)
  | [], s => Pass.unplaces_nil s
  | stmt :: stmts, s => (checkStmt_unplaces stmt s).andThen (checkAll_unplaces stmts)

end

end Names

/-! ### Types -/

namespace Types

theorem variableType_unplaced (scopes : Scopes) (name : String) :
    variableType scopes.unplaced name = variableType scopes name := by
  unfold variableType
  rw [Scopes.lookup_unplaced]
  cases scopes.lookup name <;> rfl

theorem inferUnary_issues (span span' : Span) (op : Operator) (operand : ScalarType) :
    (inferUnary span' op operand).type = (inferUnary span op operand).type ∧
      issues (inferUnary span' op operand).complaints =
        issues (inferUnary span op operand).complaints := by
  unfold inferUnary
  split
  · exact ⟨rfl, rfl⟩
  · split <;> exact ⟨rfl, rfl⟩

theorem operandComplaint_issues (op : Operator) (expected : ScalarType)
    {operand operand' : Located ScalarType} (h : operand'.val = operand.val) :
    issues (operandComplaint op expected operand') =
      issues (operandComplaint op expected operand) := by
  unfold operandComplaint
  rw [h]
  exact issues_ite _ _ _ _

theorem inferBinary_issues (span span' : Span) (op : Operator)
    (left left' right right' : Located ScalarType) (hleft : left'.val = left.val)
    (hright : right'.val = right.val) :
    (inferBinary span' op left' right').type = (inferBinary span op left right).type ∧
      issues (inferBinary span' op left' right').complaints =
        issues (inferBinary span op left right).complaints := by
  unfold inferBinary
  rw [hleft, hright]
  split
  · exact ⟨rfl, rfl⟩
  · cases signature op with
    | uniform operand result =>
      refine ⟨rfl, ?_⟩
      rw [issues_append, issues_append, operandComplaint_issues op operand hleft,
        operandComplaint_issues op operand hright]
    | same =>
      simp only
      split
      · exact ⟨rfl, rfl⟩
      · split <;> exact ⟨rfl, rfl⟩
    | unsupported => exact ⟨rfl, rfl⟩

/-- Argument types without the positions of the arguments. -/
def types (arguments : List (Located ScalarType)) : List ScalarType :=
  arguments.map Located.val

theorem argumentComplaints_issues {arguments arguments' : List (Located ScalarType)}
    (h : types arguments' = types arguments) (parameters : List Declarator) :
    issues (argumentComplaints arguments' (parameters.map Declarator.unplaced)) =
      issues (argumentComplaints arguments parameters) := by
  induction arguments generalizing arguments' parameters with
  | nil =>
    obtain rfl : arguments' = [] := List.map_eq_nil_iff.1 h
    rfl
  | cons argument arguments ih =>
    obtain ⟨argument', arguments', rfl, hval, h⟩ := List.map_eq_cons_iff.1 h
    cases parameters with
    | nil => rfl
    | cons parameter parameters =>
      have hrest := ih h parameters
      simp only [List.map_cons, argumentComplaints, Declarator.type_unplaced,
        Declarator.name_unplaced, hval]
      split
      · exact congrArg (_ :: ·) hrest
      · exact hrest

theorem inferCall_issues (scopes : Scopes) (span span' : Span) (name : String)
    {arguments arguments' : List (Located ScalarType)} (h : types arguments' = types arguments) :
    (inferCall scopes.unplaced span' name arguments').type =
        (inferCall scopes span name arguments).type ∧
      issues (inferCall scopes.unplaced span' name arguments').complaints =
        issues (inferCall scopes span name arguments).complaints := by
  have hlength : arguments'.length = arguments.length := by
    simpa [types] using congrArg List.length h
  unfold inferCall
  rw [Scopes.lookup_unplaced]
  cases scopes.lookup name with
  | none => exact ⟨rfl, rfl⟩
  | some function =>
    simp only [Option.map_some, Identifier.unplaced, List.length_map, hlength]
    split
    · exact ⟨rfl, rfl⟩
    · split
      · exact ⟨rfl, rfl⟩
      · exact ⟨rfl, argumentComplaints_issues h function.parameters⟩

mutual

/-- Without positions, an expression has the same type and the same issues. -/
theorem infer_unplaced (scopes : Scopes) : ∀ e : Expr,
    (infer scopes.unplaced e.unplaced).type = (infer scopes e).type ∧
      issues (infer scopes.unplaced e.unplaced).complaints = issues (infer scopes e).complaints
  | .literal .. => ⟨rfl, rfl⟩
  | .var _ name => ⟨variableType_unplaced scopes name, rfl⟩
  | .unary span op operand => by
    obtain ⟨htype, hissues⟩ := infer_unplaced scopes operand
    obtain ⟨houter, houterIssues⟩ := inferUnary_issues span {} op (infer scopes operand).type
    simp only [Expr.unplaced, infer, htype, issues_append, hissues]
    exact ⟨houter, congrArg _ houterIssues⟩
  | .binary span op left right => by
    obtain ⟨hleft, hleftIssues⟩ := infer_unplaced scopes left
    obtain ⟨hright, hrightIssues⟩ := infer_unplaced scopes right
    obtain ⟨houter, houterIssues⟩ := inferBinary_issues span {} op
      ⟨left.span, _⟩ ⟨left.unplaced.span, _⟩ ⟨right.span, _⟩ ⟨right.unplaced.span, _⟩ hleft hright
    simp only [Expr.unplaced, infer, issues_append, hleftIssues, hrightIssues]
    exact ⟨houter, congrArg _ houterIssues⟩
  | .call span name arguments => by
    obtain ⟨htypes, hissues⟩ := inferAll_unplacedAll scopes arguments
    obtain ⟨houter, houterIssues⟩ := inferCall_issues scopes span {} name htypes
    simp only [Expr.unplaced, infer, issues_append, hissues]
    exact ⟨houter, congrArg _ houterIssues⟩

theorem inferAll_unplacedAll (scopes : Scopes) : ∀ es : List Expr,
    types (inferAll scopes.unplaced (Expr.unplacedAll es)).1 = types (inferAll scopes es).1 ∧
      issues (inferAll scopes.unplaced (Expr.unplacedAll es)).2 = issues (inferAll scopes es).2
  | [] => ⟨rfl, rfl⟩
  | e :: es => by
    obtain ⟨htype, hissues⟩ := infer_unplaced scopes e
    obtain ⟨htypes, hrest⟩ := inferAll_unplacedAll scopes es
    simp only [Expr.unplacedAll, inferAll, issues_append, hissues, hrest]
    exact ⟨congrArg₂ List.cons htype htypes, trivial⟩

end

theorem checkExpr_unplaces (value : Option Expr) (scopes : Scopes) :
    Pass.Unplaces Scopes.unplaced (checkExpr value scopes)
      (checkExpr (value.map Expr.unplaced) scopes.unplaced) := by
  cases value with
  | none => exact Pass.unplaces_nil scopes
  | some e => exact Pass.unplaces_file (infer_unplaced scopes e).2 rfl

/-- What is asked of the type of an expression is the same without positions. -/
theorem checkValue_issues (value : Expr) {ask ask' : ScalarType → List Complaint}
    (hask : ∀ type, issues (ask' type) = issues (ask type)) (scopes : Scopes) :
    issues (checkValue value.unplaced ask' scopes.unplaced) =
      issues (checkValue value ask scopes) := by
  obtain ⟨htype, hissues⟩ := infer_unplaced scopes value
  simp only [checkValue, issues_append, hissues, htype, hask]

theorem checkCondition_unplaces (condition : Expr) (scopes : Scopes) :
    Pass.Unplaces Scopes.unplaced (checkCondition condition scopes)
      (checkCondition condition.unplaced scopes.unplaced) := by
  refine Pass.unplaces_file (checkValue_issues condition (fun type ↦ ?_) scopes) rfl
  exact issues_ite _ _ _ _

theorem checkVariable_unplaces (head : Declarator) (initial : Option Expr) (scopes : Scopes) :
    Pass.Unplaces Scopes.unplaced (checkVariable head initial scopes)
      (checkVariable head.unplaced (initial.map Expr.unplaced) scopes.unplaced) := by
  have hdeclare : scopes.unplaced.declare head.name
      { type := head.type, initialized := initial.isSome } =
        (scopes.declare head.name { type := head.type, initialized := initial.isSome }).unplaced :=
    scopes.declare_unplaced head.name { type := head.type, initialized := initial.isSome }
  simp only [checkVariable, Declarator.name_unplaced, Declarator.type_unplaced, Option.isSome_map]
  refine Pass.unplaces_file ?_ hdeclare
  cases initial with
  | none => rfl
  | some value =>
    exact checkValue_issues value (fun type ↦ issues_ite _ _ _ _) scopes

theorem checkAssign_unplaces (name : String) (value : Expr) (scopes : Scopes) :
    Pass.Unplaces Scopes.unplaced (checkAssign name value scopes)
      (checkAssign name value.unplaced scopes.unplaced) := by
  refine Pass.unplaces_file (checkValue_issues value (fun type ↦ ?_) scopes) rfl
  rw [Scopes.lookup_unplaced]
  cases scopes.lookup name with
  | none => rfl
  | some target => exact issues_ite (target.kind = .var ∧ clashes type target.type) _ _ _

theorem checkReturn_unplaces (span span' : Span) (value : Expr) (scopes : Scopes) :
    Pass.Unplaces Scopes.unplaced (checkReturn span value scopes)
      (checkReturn span' value.unplaced scopes.unplaced) := by
  refine Pass.unplaces_file (checkValue_issues value (fun type ↦ ?_) scopes) rfl
  rw [Scopes.returnType?_unplaced]
  cases scopes.returnType? with
  | none => rfl
  | some expected => exact issues_ite _ _ _ _

theorem declareParameters_unplaced (parameters : List Declarator) (scopes : Scopes) :
    declareParameters (parameters.map Declarator.unplaced) scopes.unplaced =
      (declareParameters parameters scopes).unplaced := by
  induction parameters generalizing scopes with
  | nil => rfl
  | cons p parameters ih =>
    have hdeclare : scopes.unplaced.declare p.name { type := p.type, initialized := true } =
        (scopes.declare p.name { type := p.type, initialized := true }).unplaced :=
      scopes.declare_unplaced p.name { type := p.type, initialized := true }
    show declareParameters (parameters.map Declarator.unplaced)
      (scopes.unplaced.declare p.name { type := p.type, initialized := true }) = _
    rw [hdeclare]
    exact ih _

mutual

/-- Without positions, a statement has the same issues with types. -/
theorem checkStmt_unplaces : ∀ (stmt : Stmt) (s : Scopes),
    Pass.Unplaces Scopes.unplaced (checkStmt stmt s) (checkStmt stmt.unplaced s.unplaced)
  | .block _ body, s => (checkAll_unplaces body s.push).map Scopes.pop_unplaced
  | .function _ head parameters body, s => by
    have hparameters := declareParameters_unplaced parameters (s.push (some head.type))
    have hbody := checkAll_unplaces body (declareParameters parameters (s.push (some head.type)))
    rw [← hparameters] at hbody
    exact hbody.map Scopes.pop_unplaced
  | .var _ head initial, s => checkVariable_unplaces head initial s
  | .assign _ name _ value, s => checkAssign_unplaces name value s
  | .conditional _ condition thenBranch none, s =>
    (checkCondition_unplaces condition s).andThen fun s ↦
      (checkStmt_unplaces thenBranch s.push).map Scopes.pop_unplaced
  | .conditional _ condition thenBranch (some elseBranch), s =>
    ((checkCondition_unplaces condition s).andThen fun s ↦
      (checkStmt_unplaces thenBranch s.push).map Scopes.pop_unplaced).andThen fun s ↦
        (checkStmt_unplaces elseBranch s.push).map Scopes.pop_unplaced
  | .loop _ condition body, s =>
    (checkCondition_unplaces condition s).andThen fun s ↦
      (checkStmt_unplaces body s.push).map Scopes.pop_unplaced
  | .evaluate _ value, s => checkExpr_unplaces (some value) s
  | .return_ span value, s => checkReturn_unplaces span {} value s
  | .print _ _ value, s => checkExpr_unplaces value s

/-- Without positions, statements have the same issues with types. -/
theorem checkAll_unplaces : ∀ (stmts : List Stmt) (s : Scopes),
    Pass.Unplaces Scopes.unplaced (checkAll stmts s)
      (checkAll (Stmt.unplacedAll stmts) s.unplaced)
  | [], s => Pass.unplaces_nil s
  | stmt :: stmts, s => (checkStmt_unplaces stmt s).andThen (checkAll_unplaces stmts)

end

end Types

end ScalarMips
