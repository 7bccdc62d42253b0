import ScalarMips.Check.Names
import ScalarMips.Proofs.Grammatical
import ScalarMips.Proofs.ScopeLaws

/-!
# Scoped programs

A program in which every name is declared before it is used, and none twice in one scope, is called
*scoped*. The predicate is stated over scopes reduced to what each name stands for (`Kinds`), which
is all that the later passes share with the check of names.

Statements in which the check of names finds nothing are scoped (`Names.checkAll_scoped`).
-/

namespace ScalarMips

/-! ### Scopes reduced to kinds -/

/-- What names stand for, scope by scope, the innermost scope first. -/
abbrev Kinds : Type := List (List (String × IdentifierKind))

namespace Kinds

/-- What a name stands for: the innermost scope that has it decides. -/
def kind? (v : Kinds) (name : String) : Option IdentifierKind :=
  v.findSome? fun scope ↦ scope.lookup name

/-- What a name stands for in the current scope. -/
def here? (v : Kinds) (name : String) : Option IdentifierKind :=
  (v.headD []).lookup name

/-- The scopes after the declaration of a name in the current one. -/
def declare (v : Kinds) (name : String) (kind : IdentifierKind) : Kinds :=
  (v.headD [] ++ [(name, kind)]) :: v.tail

/-- The scopes after the declaration of several variables. -/
def declareAll (v : Kinds) (parameters : List Declarator) : Kinds :=
  parameters.foldl (fun v p ↦ v.declare p.name .var) v

/-- The scopes after a statement; only a variable declaration leaves something behind. -/
def after (v : Kinds) : Stmt → Kinds
  | .var _ head _ => v.declare head.name .var
  | _ => v

/-- All names of the current scope stand for variables. -/
def OnlyVars (v : Kinds) : Prop :=
  ∀ name kind, v.here? name = some kind → kind = .var

theorem kind?_push (v : Kinds) (name : String) : Kinds.kind? ([] :: v) name = v.kind? name := rfl

theorem kind?_singleton (scope : List (String × IdentifierKind)) (name : String) :
    Kinds.kind? [scope] name = scope.lookup name := by
  rw [kind?, List.findSome?_cons]
  cases scope.lookup name <;> rfl

theorem here?_declare {v : Kinds} {name : String} (h : v.here? name = none) (kind : IdentifierKind)
    (m : String) : (v.declare name kind).here? m = if m = name then some kind else v.here? m :=
  lookup_append_of_none h m

theorem OnlyVars.nil (v : Kinds) : OnlyVars ([] :: v) :=
  fun _ _ h ↦ nomatch h

theorem OnlyVars.declare {v : Kinds} (hv : v.OnlyVars) {name : String} (h : v.here? name = none) :
    (v.declare name .var).OnlyVars := by
  intro m kind hm
  rw [here?_declare h] at hm
  split at hm
  · exact (Option.some.inj hm).symm
  · exact hv m kind hm

end Kinds

namespace Scopes

/-- The scopes of a walk reduced to kinds. -/
abbrev kinds (s : Scopes) : Kinds := s.view Identifier.kind

theorem kinds_push (s : Scopes) (returnType : Option ScalarType) :
    (s.push returnType).kinds = [] :: s.kinds := rfl

theorem kinds_kind? (s : Scopes) (name : String) :
    s.kinds.kind? name = (s.lookup name).map Identifier.kind :=
  lookup_view s name

theorem kinds_here? (s : Scopes) (name : String) :
    s.kinds.here? name = (s.lookupHere name).map Identifier.kind :=
  lookupHere_view s name

theorem lookupHere_eq_none_iff {s : Scopes} {name : String} :
    s.lookupHere name = none ↔ s.kinds.here? name = none := by
  rw [kinds_here?, Option.map_eq_none_iff]

theorem kinds_declare {s : Scopes} {name : String} (h : s.kinds.here? name = none)
    (i : Identifier) : (s.declare name i).kinds = s.kinds.declare name i.kind :=
  view_declare_free (lookupHere_eq_none_iff.2 h) i

@[simp] theorem kinds_markInitialized (s : Scopes) (name : String) :
    (s.markInitialized name).kinds = s.kinds := by
  have hkind : ∀ i : Identifier, Identifier.kind { i with initialized := true } = i.kind :=
    fun _ ↦ rfl
  exact view_modify hkind s name

end Scopes

/-! ### Scoped trees -/

mutual

/-- Every name in an expression is declared and of the right kind. -/
def Expr.Scoped (v : Kinds) : Expr → Prop
  | .literal .. => True
  | .var _ name => v.kind? name = some .var
  | .unary _ _ operand => operand.Scoped v
  | .binary _ _ left right => left.Scoped v ∧ right.Scoped v
  | .call _ name arguments => v.kind? name = some .fn ∧ Expr.AllScoped v arguments

/-- Every name in several expressions is declared and of the right kind. -/
def Expr.AllScoped (v : Kinds) : List Expr → Prop
  | [] => True
  | e :: es => e.Scoped v ∧ Expr.AllScoped v es

end

/-- Every name in an expression, if there is one, is declared and of the right kind. -/
def Expr.OptionScoped (v : Kinds) : Option Expr → Prop
  | none => True
  | some e => e.Scoped v

mutual

/-- Every name in a statement is declared and of the right kind, and no scope declares a name
twice. -/
def Stmt.Scoped : Stmt → Kinds → Prop
  | .block _ body, v => Stmt.AllScoped body ([] :: v)
  | .function .., _ => False
  | .var _ head initial, v => Expr.OptionScoped v initial ∧ v.here? head.name = none
  | .assign _ name _ value, v => v.kind? name = some .var ∧ value.Scoped v
  | .conditional _ condition thenBranch none, v =>
    condition.Scoped v ∧ thenBranch.Scoped ([] :: v)
  | .conditional _ condition thenBranch (some elseBranch), v =>
    condition.Scoped v ∧ thenBranch.Scoped ([] :: v) ∧ elseBranch.Scoped ([] :: v)
  | .loop _ condition body, v => condition.Scoped v ∧ body.Scoped ([] :: v)
  | .evaluate _ value, v => value.Scoped v
  | .return_ _ value, v => value.Scoped v
  | .print _ _ value, v => Expr.OptionScoped v value
termination_by structural stmt => stmt

/-- Statements are scoped, each in the scopes that the ones before it leave. -/
def Stmt.AllScoped : List Stmt → Kinds → Prop
  | [], _ => True
  | stmt :: stmts, v => stmt.Scoped v ∧ Stmt.AllScoped stmts (v.after stmt)
termination_by structural stmts => stmts

end

/-- No two parameters have one name, and none has a name of the current scope. -/
def ParametersScoped : List Declarator → Kinds → Prop
  | [], _ => True
  | p :: parameters, v =>
    v.here? p.name = none ∧ ParametersScoped parameters (v.declare p.name .var)

/-- The declarations of a program are scoped, each in the scope that the ones before it leave. -/
def ProgramScoped : List Stmt → Kinds → Prop
  | [], _ => True
  | .function _ _ parameters body :: program, v =>
    (ParametersScoped parameters ([] :: v) ∧
      Stmt.AllScoped body (Kinds.declareAll ([] :: v) parameters)) ∧ ProgramScoped program v
  | .var _ head initial :: program, v =>
    (Expr.OptionScoped v initial ∧ v.here? head.name = none) ∧
      ProgramScoped program (v.declare head.name .var)
  | _ :: _, _ => False

namespace Names

/-! ### Expressions -/

theorem complain_eq_nil {span : Span} {issue : Option Issue} :
    complain span issue = [] ↔ issue = none := by
  cases issue <;> simp [complain]

theorem kind?_of_readIssue {scopes : Scopes} {name : String} (h : readIssue scopes name = none) :
    scopes.kinds.kind? name = some .var := by
  rw [Scopes.kinds_kind?]
  unfold readIssue at h
  split at h
  · cases h
  · rename_i identifier hlookup
    rw [hlookup]
    cases hkind : identifier.kind with
    | fn => simp [hkind] at h
    | var => simp [hkind]

theorem kind?_of_callIssue {scopes : Scopes} {name : String} (h : callIssue scopes name = none) :
    scopes.kinds.kind? name = some .fn := by
  rw [Scopes.kinds_kind?]
  unfold callIssue at h
  split at h
  · cases h
  · rename_i identifier hlookup
    rw [hlookup]
    cases hkind : identifier.kind with
    | fn => simp [hkind]
    | var => simp [hkind] at h

theorem kind?_of_assignIssue {scopes : Scopes} {name : String}
    (h : assignIssue scopes name = none) : scopes.kinds.kind? name = some .var := by
  rw [Scopes.kinds_kind?]
  unfold assignIssue at h
  split at h
  · cases h
  · rename_i identifier hlookup
    rw [hlookup]
    cases hkind : identifier.kind with
    | fn => simp [hkind] at h
    | var => simp [hkind]

mutual

theorem expr_scoped {scopes : Scopes} :
    ∀ e, exprComplaints scopes e = [] → e.Scoped scopes.kinds
  | .literal _ _, _ => trivial
  | .var _ _, h => kind?_of_readIssue (complain_eq_nil.1 h)
  | .unary _ _ operand, h => expr_scoped operand h
  | .binary _ _ left right, h => by
    obtain ⟨hl, hr⟩ := List.append_eq_nil_iff.1 h
    exact ⟨expr_scoped left hl, expr_scoped right hr⟩
  | .call _ _ arguments, h => by
    obtain ⟨hcall, hargs⟩ := List.append_eq_nil_iff.1 h
    exact ⟨kind?_of_callIssue (complain_eq_nil.1 hcall), exprs_scoped arguments hargs⟩

theorem exprs_scoped {scopes : Scopes} :
    ∀ es, exprsComplaints scopes es = [] → Expr.AllScoped scopes.kinds es
  | [], _ => trivial
  | e :: es, h => by
    obtain ⟨he, hes⟩ := List.append_eq_nil_iff.1 h
    exact ⟨expr_scoped e he, exprs_scoped es hes⟩

end

theorem option_scoped {scopes : Scopes} {value : Option Expr}
    (h : optionComplaints scopes value = []) : Expr.OptionScoped scopes.kinds value := by
  cases value with
  | none => trivial
  | some e => exact expr_scoped e h

theorem checkExpr_scoped {value : Option Expr} {s : State} (h : (checkExpr value s).findings = []) :
    Expr.OptionScoped s.scopes.kinds value :=
  option_scoped (Pass.findings_file_eq_nil.1 h)

/-! ### Declarations and assignments -/

/-- A declaration without complaint either binds the name in the current scope, where it was free,
or puts off a collision with a function of that scope which has not been reached. -/
theorem declareVariable_cases {head : Declarator} {initialized : Bool} {s after : State}
    (h : declareVariable head initialized s = (after, none)) :
    (s.scopes.lookupHere head.name = none ∧ after =
        { s with scopes := s.scopes.declare head.name { type := head.type, initialized } }) ∨
      ∃ i, s.scopes.lookupHere head.name = some i ∧ i.kind = .fn ∧ i.initialized = false ∧
        after = { s with pending := head.name :: s.pending } := by
  simp only [declareVariable] at h
  split at h
  · cases h
  · rename_i hhere
    split at h
    · cases h
    · split at h
      · rename_i hsome
        obtain ⟨i, hi⟩ := Option.isSome_iff_exists.1 hsome
        refine .inr ⟨i, hi, ?_⟩
        simp only [hi, Option.any_some, Bool.or_eq_true, decide_eq_true_eq, not_or] at hhere
        obtain ⟨hkind, hinit⟩ := hhere
        refine ⟨?_, by simpa using hinit, (Prod.mk.inj h).1.symm⟩
        cases hk : i.kind with
        | var => exact absurd hk hkind
        | fn => rfl
      · rename_i hnone
        refine .inl ⟨by simpa using hnone, (Prod.mk.inj h).1.symm⟩

theorem checkVariable_cases {head : Declarator} {initial : Option Expr} {s : State}
    (h : (checkVariable head initial s).findings = []) :
    Expr.OptionScoped s.scopes.kinds initial ∧
      declareVariable head initial.isSome s = ((checkVariable head initial s).state, none) := by
  unfold checkVariable at h ⊢
  rcases hd : declareVariable head initial.isSome s with ⟨after, issue⟩
  rw [hd] at h
  obtain ⟨hinitial, hissue⟩ := List.append_eq_nil_iff.1 (Pass.findings_file_eq_nil.1 h)
  rw [complain_eq_nil.1 hissue]
  exact ⟨option_scoped hinitial, rfl⟩

theorem checkAssign_cases {name : String} {target : Span} {value : Expr} {s : State}
    (h : (checkAssign name target value s).findings = []) :
    s.scopes.kinds.kind? name = some .var ∧ value.Scoped s.scopes.kinds := by
  obtain ⟨htarget, hvalue⟩ := List.append_eq_nil_iff.1 (Pass.findings_file_eq_nil.1 h)
  exact ⟨kind?_of_assignIssue (complain_eq_nil.1 htarget), expr_scoped value hvalue⟩

theorem kinds_checkAssign (name : String) (target : Span) (value : Expr) (s : State) :
    (checkAssign name target value s).state.scopes.kinds = s.scopes.kinds := by
  show Scopes.kinds (if _ then _ else _) = _
  split
  · exact Scopes.kinds_markInitialized _ _
  · rfl

/-! ### Statements -/

theorem kinds_push (s : State) (returnType : Option ScalarType) :
    (s.push returnType).scopes.kinds = [] :: s.scopes.kinds := rfl

/-- Leaving a scope after a walk that left the scopes around it alone. -/
theorem kinds_pop {s t : State} {v : Kinds} {scope : List (String × IdentifierKind)}
    (hs : s.scopes.kinds = v) (ht : t.scopes.kinds = scope :: v) : t.pop.scopes.kinds = v := by
  subst hs
  exact Scopes.view_pop ht

/-- A statement changes the kinds of the current scope only. -/
theorem exists_after_cons (scope : List (String × IdentifierKind)) (v : Kinds) (stmt : Stmt) :
    ∃ scope', Kinds.after (scope :: v) stmt = scope' :: v := by
  cases stmt with
  | var span head initial => exact ⟨scope ++ [(head.name, .var)], rfl⟩
  | _ => exact ⟨scope, rfl⟩

theorem exists_foldl_after_cons (stmts : List Stmt) :
    ∀ (scope : List (String × IdentifierKind)) (v : Kinds),
      ∃ scope', stmts.foldl Kinds.after (scope :: v) = scope' :: v := by
  induction stmts with
  | nil => exact fun scope v ↦ ⟨scope, rfl⟩
  | cons stmt stmts ih =>
    intro scope v
    obtain ⟨next, hnext⟩ := exists_after_cons scope v stmt
    rw [List.foldl_cons, hnext]
    exact ih next v

/-- The scopes after a branch, which has a scope of its own. -/
theorem kinds_branch {branch : Stmt} {s : State}
    (h : (checkStmt branch s.push).state.scopes.kinds = s.push.scopes.kinds.after branch) :
    (checkStmt branch s.push).state.pop.scopes.kinds = s.scopes.kinds := by
  obtain ⟨scope, hscope⟩ := exists_after_cons [] s.scopes.kinds branch
  exact kinds_pop rfl (h.trans hscope)

theorem onlyVars_after {v : Kinds} (hv : v.OnlyVars) {stmt : Stmt} (h : stmt.Scoped v) :
    (v.after stmt).OnlyVars := by
  cases stmt with
  | var span head initial => exact hv.declare h.2
  | _ => exact hv

/-- A local variable that is declared without complaint was free in its scope. -/
theorem checkVariable_scoped {head : Declarator} {initial : Option Expr} {s : State}
    (hlocal : s.scopes.kinds.OnlyVars) (h : (checkVariable head initial s).findings = []) :
    (Expr.OptionScoped s.scopes.kinds initial ∧ s.scopes.kinds.here? head.name = none) ∧
      (checkVariable head initial s).state.scopes.kinds =
        s.scopes.kinds.declare head.name .var := by
  obtain ⟨hinitial, hdeclared⟩ := checkVariable_cases h
  rcases declareVariable_cases hdeclared with ⟨hfree, hstate⟩ | ⟨i, hi, hkind, -, -⟩
  · have hfree := Scopes.lookupHere_eq_none_iff.1 hfree
    refine ⟨⟨hinitial, hfree⟩, ?_⟩
    rw [hstate]
    exact Scopes.kinds_declare hfree _
  · have hfn : s.scopes.kinds.here? head.name = some .fn := by
      rw [Scopes.kinds_here?, hi, Option.map_some, hkind]
    exact nomatch hlocal _ _ hfn

mutual

/-- A statement of a function body that is checked without complaint is scoped. -/
theorem checkStmt_scoped : ∀ (stmt : Stmt) (s : State), stmt.Plain →
    s.scopes.kinds.OnlyVars → (checkStmt stmt s).findings = [] →
      stmt.Scoped s.scopes.kinds ∧
        (checkStmt stmt s).state.scopes.kinds = s.scopes.kinds.after stmt
  | .block _ body, s, hplain, _, h => by
    rw [checkStmt] at h ⊢
    obtain ⟨hbody, hkinds⟩ := checkAll_scoped body s.push hplain (.nil _) h
    obtain ⟨scope, hscope⟩ := exists_foldl_after_cons body [] s.scopes.kinds
    exact ⟨hbody, kinds_pop rfl (hkinds.trans hscope)⟩
  | .function .., _, hplain, _, _ => hplain.elim
  | .var _ head initial, s, _, hlocal, h => by
    rw [checkStmt] at h ⊢
    exact checkVariable_scoped hlocal h
  | .assign _ name target value, s, _, _, h => by
    rw [checkStmt] at h ⊢
    exact ⟨checkAssign_cases h, kinds_checkAssign name target value s⟩
  | .conditional _ condition thenBranch none, s, hplain, _, h => by
    rw [checkStmt] at h ⊢
    obtain ⟨hcondition, hthen⟩ := Pass.findings_andThen_eq_nil.1 h
    obtain ⟨hscoped, hkinds⟩ := checkStmt_scoped thenBranch s.push hplain (.nil _) hthen
    exact ⟨⟨checkExpr_scoped hcondition, hscoped⟩, kinds_branch hkinds⟩
  | .conditional _ condition thenBranch (some elseBranch), s, hplain, _, h => by
    rw [checkStmt] at h ⊢
    obtain ⟨hfirst, helse⟩ := Pass.findings_andThen_eq_nil.1 h
    obtain ⟨hcondition, hthen⟩ := Pass.findings_andThen_eq_nil.1 hfirst
    obtain ⟨hscoped, hkinds⟩ := checkStmt_scoped thenBranch s.push hplain.1 (.nil _) hthen
    have hmiddle := kinds_branch hkinds
    -- The else branch starts from a state in which the then branch has marked what it assigns.
    obtain ⟨hscopedElse, hkindsElse⟩ := checkStmt_scoped elseBranch
      (checkStmt thenBranch s.push).state.pop.push hplain.2 (.nil _) helse
    have hend := kinds_branch hkindsElse
    rw [kinds_push, hmiddle] at hscopedElse
    exact ⟨⟨checkExpr_scoped hcondition, hscoped, hscopedElse⟩, hend.trans hmiddle⟩
  | .loop _ condition body, s, hplain, _, h => by
    rw [checkStmt] at h ⊢
    obtain ⟨hcondition, hbody⟩ := Pass.findings_andThen_eq_nil.1 h
    obtain ⟨hscoped, hkinds⟩ := checkStmt_scoped body s.push hplain (.nil _) hbody
    exact ⟨⟨checkExpr_scoped hcondition, hscoped⟩, kinds_branch hkinds⟩
  | .evaluate _ value, s, _, _, h => by
    rw [checkStmt] at h ⊢
    exact ⟨checkExpr_scoped h, rfl⟩
  | .return_ _ value, s, _, _, h => by
    rw [checkStmt] at h ⊢
    exact ⟨checkExpr_scoped h, rfl⟩
  | .print _ _ value, s, _, _, h => by
    rw [checkStmt] at h ⊢
    exact ⟨checkExpr_scoped h, rfl⟩

/-- Statements of a function body that are checked without complaint are scoped. -/
theorem checkAll_scoped : ∀ (stmts : List Stmt) (s : State), Stmt.AllPlain stmts →
    s.scopes.kinds.OnlyVars → (checkAll stmts s).findings = [] →
      Stmt.AllScoped stmts s.scopes.kinds ∧
        (checkAll stmts s).state.scopes.kinds = stmts.foldl Kinds.after s.scopes.kinds
  | [], _, _, _, _ => ⟨trivial, rfl⟩
  | stmt :: stmts, s, hplain, hlocal, h => by
    rw [checkAll] at h ⊢
    obtain ⟨hfirst, hrest⟩ := Pass.findings_andThen_eq_nil.1 h
    obtain ⟨hscoped, hkinds⟩ := checkStmt_scoped stmt s hplain.1 hlocal hfirst
    have hlocal' : ((checkStmt stmt s).state.scopes.kinds).OnlyVars := by
      rw [hkinds]
      exact onlyVars_after hlocal hscoped
    obtain ⟨hscopedRest, hkindsRest⟩ := checkAll_scoped stmts _ hplain.2 hlocal' hrest
    rw [hkinds] at hscopedRest hkindsRest
    exact ⟨⟨hscoped, hscopedRest⟩, hkindsRest⟩

end

end Names

end ScalarMips
