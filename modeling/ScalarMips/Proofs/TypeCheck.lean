import ScalarMips.Proofs.TypeInference

/-!
# The check of types decides the type system

On a program whose names are in order, the third check finds nothing exactly when the program is
well typed, and the types it gives to expressions are then the ones they have.

A statement leaves the scopes as they are, but for a declared variable (`Types.checkStmt_state`), so
both directions walk the statements with one environment.
-/

namespace ScalarMips

namespace Types

/-! ### What a statement leaves behind -/

/-- The scopes after a statement. -/
def stateAfter (s : Scopes) : Stmt → Scopes
  | .var _ head initial =>
    s.declare head.name { type := head.type, initialized := initial.isSome }
  | _ => s

theorem outer_declareParameters (parameters : List Declarator) :
    ∀ s : Scopes, (declareParameters parameters s).outer = s.outer := by
  induction parameters with
  | nil => exact fun _ ↦ rfl
  | cons p parameters ih =>
    intro s
    exact (ih _).trans (Scopes.outer_declare s _ _)

mutual

theorem checkStmt_state : ∀ (stmt : Stmt) (s : Scopes), (checkStmt stmt s).state = stateAfter s stmt
  | .block _ body, s => by
    rw [checkStmt]
    exact Scopes.pop_eq_of_outer (checkAll_outer body s.push)
  | .function _ head parameters body, s => by
    rw [checkStmt]
    refine Scopes.pop_eq_of_outer ((checkAll_outer body _).trans ?_)
    exact outer_declareParameters parameters _
  | .var .., s => by
    rw [checkStmt]
    rfl
  | .assign .., s => by
    rw [checkStmt]
    rfl
  | .conditional _ _ thenBranch none, s => by
    rw [checkStmt]
    exact branch_state thenBranch s
  | .conditional _ _ thenBranch (some elseBranch), s => by
    rw [checkStmt]
    show (checkStmt elseBranch (Scopes.push (checkStmt thenBranch s.push).state.pop)).state.pop = s
    rw [branch_state thenBranch s]
    exact branch_state elseBranch s
  | .loop _ _ body, s => by
    rw [checkStmt]
    exact branch_state body s
  | .evaluate .., s => by
    rw [checkStmt]
    rfl
  | .return_ .., s => by
    rw [checkStmt]
    rfl
  | .print _ _ value, s => by
    rw [checkStmt]
    cases value <;> rfl

theorem branch_state (branch : Stmt) (s : Scopes) : (checkStmt branch s.push).state.pop = s := by
  rw [checkStmt_state branch s.push]
  cases branch with
  | var span head initial => exact Scopes.pop_eq_of_outer (Scopes.outer_declare s.push _ _)
  | _ => rfl

theorem checkAll_outer : ∀ (stmts : List Stmt) (s : Scopes),
    (checkAll stmts s).state.outer = s.outer
  | [], _ => rfl
  | stmt :: stmts, s => by
    rw [checkAll]
    refine (checkAll_outer stmts _).trans ?_
    rw [checkStmt_state stmt s]
    cases stmt with
    | var span head initial => exact Scopes.outer_declare s _ _
    | _ => rfl

end

/-! ### Statements -/

/-- What the walk keeps at a place inside a function that returns `result`. -/
structure Inside (result : ScalarType) (s : Scopes) : Prop where
  /-- The visible names have the types of values. -/
  concrete : s.env.Concrete
  /-- The function around is known. -/
  returns : s.returnType? = some result

theorem Inside.push {result : ScalarType} {s : Scopes} (h : Inside result s) :
    Inside result s.push :=
  ⟨h.concrete, h.returns⟩

theorem env_stateAfter {stmt : Stmt} {s : Scopes} (hscoped : stmt.Scoped s.kinds) :
    (stateAfter s stmt).env = s.env.after stmt := by
  cases stmt with
  | var span head initial => exact Scopes.env_declare (Scopes.lookupHere_eq_none_iff.2 hscoped.2) _
  | _ => rfl

theorem kinds_stateAfter {stmt : Stmt} {s : Scopes} (hscoped : stmt.Scoped s.kinds) :
    (stateAfter s stmt).kinds = s.kinds.after stmt := by
  cases stmt with
  | var span head initial => exact Scopes.kinds_declare hscoped.2 _
  | _ => rfl

theorem Inside.stateAfter {result : ScalarType} {s : Scopes} (h : Inside result s) {stmt : Stmt}
    (hg : stmt.Grammatical) (hscoped : stmt.Scoped s.kinds) :
    Inside result (stateAfter s stmt) := by
  refine ⟨?_, ?_⟩
  · rw [env_stateAfter hscoped]
    cases stmt with
    | var span head initial => exact h.concrete.bind hg.1
    | _ => exact h.concrete
  · cases stmt with
    | var span head initial => exact (Scopes.returnType?_declare s _ _).trans h.returns
    | _ => exact h.returns

variable {result : ScalarType} {s : Scopes}

theorem checkExpr_iff (hs : s.env.Concrete) {e : Expr} (hg : e.Grammatical)
    (hscoped : e.Scoped s.kinds) :
    (checkExpr (some e) s).findings = [] ↔ ∃ type, HasType s.env e type :=
  Pass.findings_file_eq_nil.trans (infer_complaints_iff hs hg hscoped)

theorem checkCondition_iff (hs : s.env.Concrete) {e : Expr} (hg : e.Grammatical)
    (hscoped : e.Scoped s.kinds) :
    (checkCondition e s).findings = [] ↔ HasType s.env e .bool := by
  unfold checkCondition
  rw [Pass.findings_file_eq_nil, checkValue_eq_nil_iff hs hg hscoped]
  constructor
  · rintro ⟨type, htype, hask⟩
    have hconcrete := htype.isConcrete hs
    cases type with
    | int => cases hask
    | bool => exact htype
    | error => cases hconcrete
  · exact fun h ↦ ⟨.bool, h, rfl⟩

theorem checkVariable_iff (hs : s.env.Concrete) {head : Declarator} {value : Expr}
    (hg : value.Grammatical) (hscoped : value.Scoped s.kinds) :
    (checkVariable head (some value) s).findings = [] ↔ HasType s.env value head.type := by
  unfold checkVariable
  rw [Pass.findings_file_eq_nil, checkValue_eq_nil_iff hs hg hscoped]
  constructor
  · rintro ⟨type, htype, hask⟩
    split at hask
    · cases hask
    · rename_i hclash
      rwa [eq_of_not_clashes (htype.isConcrete hs) (by simpa using hclash)] at htype
  · exact fun h ↦ ⟨head.type, h, by simp⟩

theorem checkAssign_iff (hs : s.env.Concrete) {name : String} {value : Expr}
    (hg : value.Grammatical) (hname : s.kinds.kind? name = some .var)
    (hscoped : value.Scoped s.kinds) :
    (checkAssign name value s).findings = [] ↔
      ∃ type, s.env name = some (.var type) ∧ HasType s.env value type := by
  rw [Scopes.kinds_kind?] at hname
  obtain ⟨i, hi, hkind⟩ := Option.map_eq_some_iff.1 hname
  have henv : s.env name = some (.var i.type) := Scopes.env_eq_var.2 ⟨i, hi, hkind, rfl⟩
  unfold checkAssign
  rw [Pass.findings_file_eq_nil, checkValue_eq_nil_iff hs hg hscoped]
  simp only [hi, hkind, true_and]
  constructor
  · rintro ⟨type, htype, hask⟩
    split at hask
    · cases hask
    · rename_i hclash
      rw [eq_of_not_clashes (htype.isConcrete hs) (by simpa using hclash)] at htype
      exact ⟨i.type, henv, htype⟩
  · rintro ⟨type, hvar, htype⟩
    rw [henv] at hvar
    cases hvar
    exact ⟨i.type, htype, by simp⟩

theorem checkReturn_iff (hs : Inside result s) {span : Span} {value : Expr}
    (hg : value.Grammatical) (hscoped : value.Scoped s.kinds) :
    (checkReturn span value s).findings = [] ↔ HasType s.env value result := by
  unfold checkReturn
  rw [Pass.findings_file_eq_nil, checkValue_eq_nil_iff hs.concrete hg hscoped]
  simp only [hs.returns]
  constructor
  · rintro ⟨type, htype, hask⟩
    split at hask
    · cases hask
    · rename_i hclash
      rwa [eq_of_not_clashes (htype.isConcrete hs.concrete) (by simpa using hclash)] at htype
  · exact fun h ↦ ⟨result, h, by simp⟩

mutual

/-- A statement inside a function is checked without complaint exactly when it is well typed. -/
theorem checkStmt_iff {result : ScalarType} : ∀ (stmt : Stmt) (s : Scopes), stmt.Grammatical →
    stmt.Scoped s.kinds → Inside result s →
      ((checkStmt stmt s).findings = [] ↔ Typed result s.env stmt)
  | .block _ body, s, hg, hscoped, hs => by
    rw [checkStmt, Pass.findings_map, checkAll_iff body s.push hg hscoped hs.push]
    exact ⟨.block, fun h ↦ by cases h; assumption⟩
  | .function .., _, hg, _, _ => hg.elim
  | .var _ head none, s, _, _, _ => by
    rw [checkStmt]
    exact ⟨fun _ ↦ .declared, fun _ ↦ rfl⟩
  | .var _ head (some value), s, hg, hscoped, hs => by
    rw [checkStmt, checkVariable_iff hs.concrete hg.2 hscoped.1]
    exact ⟨.initialized, fun h ↦ by cases h; assumption⟩
  | .assign _ name _ value, s, hg, hscoped, hs => by
    rw [checkStmt, checkAssign_iff hs.concrete hg hscoped.1 hscoped.2]
    constructor
    · rintro ⟨type, hname, htype⟩
      exact .assign hname htype
    · intro h
      cases h with
      | assign hname htype => exact ⟨_, hname, htype⟩
  | .conditional _ condition thenBranch none, s, hg, hscoped, hs => by
    rw [checkStmt, Pass.findings_andThen_eq_nil, Pass.findings_map,
      checkCondition_iff hs.concrete hg.1 hscoped.1]
    have hthen := checkStmt_iff thenBranch s.push hg.2 hscoped.2 hs.push
    constructor
    · rintro ⟨hcondition, h⟩
      exact .when hcondition (hthen.1 h)
    · intro h
      cases h with
      | when hcondition h => exact ⟨hcondition, hthen.2 h⟩
  | .conditional _ condition thenBranch (some elseBranch), s, hg, hscoped, hs => by
    rw [checkStmt, Pass.findings_andThen_eq_nil, Pass.findings_andThen_eq_nil, Pass.findings_map,
      checkCondition_iff hs.concrete hg.1 hscoped.1]
    have hthen := checkStmt_iff thenBranch s.push hg.2.1 hscoped.2.1 hs.push
    have helse := checkStmt_iff elseBranch s.push hg.2.2 hscoped.2.2 hs.push
    show (_ ∧ (checkStmt thenBranch s.push).findings = []) ∧
      (checkStmt elseBranch (Scopes.push (checkStmt thenBranch s.push).state.pop)).findings = [] ↔ _
    rw [branch_state thenBranch s]
    constructor
    · rintro ⟨⟨hcondition, h⟩, h'⟩
      exact .choose hcondition (hthen.1 h) (helse.1 h')
    · intro h
      cases h with
      | choose hcondition h h' => exact ⟨⟨hcondition, hthen.2 h⟩, helse.2 h'⟩
  | .loop _ condition body, s, hg, hscoped, hs => by
    rw [checkStmt, Pass.findings_andThen_eq_nil, Pass.findings_map,
      checkCondition_iff hs.concrete hg.1 hscoped.1]
    have hbody := checkStmt_iff body s.push hg.2 hscoped.2 hs.push
    constructor
    · rintro ⟨hcondition, h⟩
      exact .loop hcondition (hbody.1 h)
    · intro h
      cases h with
      | loop hcondition h => exact ⟨hcondition, hbody.2 h⟩
  | .evaluate _ value, s, hg, hscoped, hs => by
    rw [checkStmt, checkExpr_iff hs.concrete hg hscoped]
    constructor
    · rintro ⟨type, h⟩
      exact .evaluate h
    · intro h
      cases h with
      | evaluate h => exact ⟨_, h⟩
  | .return_ _ value, s, hg, hscoped, hs => by
    rw [checkStmt, checkReturn_iff hs hg hscoped]
    exact ⟨.return_, fun h ↦ by cases h; assumption⟩
  | .print _ _ none, s, _, _, _ => by
    rw [checkStmt]
    exact ⟨fun _ ↦ .separate, fun _ ↦ rfl⟩
  | .print _ _ (some value), s, hg, hscoped, hs => by
    rw [checkStmt, checkExpr_iff hs.concrete hg hscoped]
    constructor
    · rintro ⟨type, h⟩
      exact .print h
    · intro h
      cases h with
      | print h => exact ⟨_, h⟩

/-- Statements inside a function are checked without complaint exactly when they are well typed. -/
theorem checkAll_iff {result : ScalarType} : ∀ (stmts : List Stmt) (s : Scopes),
    Stmt.AllGrammatical stmts → Stmt.AllScoped stmts s.kinds → Inside result s →
      ((checkAll stmts s).findings = [] ↔ TypedAll result s.env stmts)
  | [], _, _, _, _ => ⟨fun _ ↦ .nil, fun _ ↦ rfl⟩
  | stmt :: stmts, s, hg, hscoped, hs => by
    rw [checkAll, Pass.findings_andThen_eq_nil, checkStmt_iff stmt s hg.1 hscoped.1 hs,
      checkStmt_state stmt s]
    have hrest := checkAll_iff stmts (stateAfter s stmt) hg.2
      (by rw [kinds_stateAfter hscoped.1]; exact hscoped.2) (hs.stateAfter hg.1 hscoped.1)
    rw [hrest, env_stateAfter hscoped.1]
    constructor
    · rintro ⟨h, h'⟩
      exact .cons h h'
    · intro h
      cases h with
      | cons h h' => exact ⟨h, h'⟩

end

/-! ### Programs -/

theorem declareParameters_scoped : ∀ (parameters : List Declarator) (s : Scopes),
    ParametersScoped parameters s.kinds →
      (declareParameters parameters s).env = s.env.bindAll parameters ∧
        (declareParameters parameters s).kinds = s.kinds.declareAll parameters ∧
        (declareParameters parameters s).returnType? = s.returnType?
  | [], _, _ => ⟨rfl, rfl, rfl⟩
  | p :: parameters, s, h => by
    have hfree := Scopes.lookupHere_eq_none_iff.2 h.1
    obtain ⟨henv, hkinds, hreturn⟩ := declareParameters_scoped parameters
      (s.declare p.name { type := p.type, initialized := true })
      (by rw [Scopes.kinds_declare h.1]; exact h.2)
    rw [Scopes.env_declare hfree] at henv
    rw [Scopes.kinds_declare h.1] at hkinds
    rw [Scopes.returnType?_declare] at hreturn
    exact ⟨henv, hkinds, hreturn⟩

/-- The scopes in which the body of a function is checked. -/
theorem inside_function {head : Declarator} {parameters : List Declarator} {s : Scopes}
    (hg : ∀ p ∈ parameters, p.type.isConcrete)
    (hscoped : ParametersScoped parameters ([] :: s.kinds)) (hs : s.env.Concrete) :
    Inside head.type (declareParameters parameters (s.push (some head.type))) := by
  obtain ⟨henv, -, hreturn⟩ :=
    declareParameters_scoped parameters (s.push (some head.type)) hscoped
  refine ⟨?_, hreturn⟩
  rw [henv]
  exact Env.Concrete.bindAll parameters hs hg

theorem checkFunction_iff {span : Span} {head : Declarator} {parameters : List Declarator}
    {body : List Stmt} {s : Scopes} (hg : (Stmt.function span head parameters body).TopGrammatical)
    (hparameters : ParametersScoped parameters ([] :: s.kinds))
    (hbody : Stmt.AllScoped body (Kinds.declareAll ([] :: s.kinds) parameters))
    (hs : s.env.Concrete) :
    (checkStmt (.function span head parameters body) s).findings = [] ↔
      TypedAll head.type (s.env.bindAll parameters) body := by
  obtain ⟨henv, hkinds, -⟩ :=
    declareParameters_scoped parameters (s.push (some head.type)) hparameters
  rw [checkStmt, Pass.findings_map, checkAll_iff body _ hg.2.2 (by rw [hkinds]; exact hbody)
    (inside_function hg.2.1 hparameters hs), henv]
  exact Iff.rfl

/-- A program whose names are in order is checked without complaint exactly when its declarations
are well typed. -/
theorem checkAll_program_iff : ∀ (program : List Stmt) (s : Scopes), Grammatical program →
    ProgramScoped program s.kinds → s.env.Concrete →
      ((checkAll program s).findings = [] ↔ ProgramTyped s.env program)
  | [], _, _, _, _ => ⟨fun _ ↦ .nil, fun _ ↦ rfl⟩
  | stmt :: program, s, hg, hscoped, hs => by
    obtain ⟨hgFirst, hgRest⟩ := List.forall_mem_cons.1 hg
    rw [checkAll, Pass.findings_andThen_eq_nil, checkStmt_state stmt s]
    cases stmt with
    | function span head parameters body =>
      rw [checkFunction_iff hgFirst hscoped.1.1 hscoped.1.2 hs,
        checkAll_program_iff program (stateAfter s (.function span head parameters body)) hgRest
          hscoped.2 hs]
      constructor
      · rintro ⟨h, h'⟩
        exact .function h h'
      · intro h
        cases h with
        | function h h' => exact ⟨h, h'⟩
    | var span head initial =>
      obtain ⟨⟨hinitial, hfree⟩, hscopedRest⟩ := hscoped
      have hscopedVar : Stmt.Scoped (.var span head initial) s.kinds := ⟨hinitial, hfree⟩
      have henv := env_stateAfter hscopedVar
      have hrest := checkAll_program_iff program (stateAfter s (.var span head initial)) hgRest
        (by rw [kinds_stateAfter hscopedVar]; exact hscopedRest)
        (by rw [henv]; exact hs.bind hgFirst.1)
      rw [hrest, henv, checkStmt]
      cases initial with
      | none =>
        constructor
        · rintro ⟨-, h⟩
          exact .declared h
        · intro h
          cases h with
          | declared h => exact ⟨rfl, h⟩
      | some value =>
        rw [checkVariable_iff hs hgFirst.2 hinitial]
        constructor
        · rintro ⟨h, h'⟩
          exact .initialized h h'
        · intro h
          cases h with
          | initialized h h' => exact ⟨h, h'⟩
    | _ => exact hscoped.elim

/-! ### The types of all expressions -/

mutual

/-- The expressions that the check of a statement visits, parts of expressions included, each with
the scopes in which it is given a type. -/
def visits : Stmt → Scopes → List (Scopes × Expr)
  | .block _ body, s => visitsAll body s.push
  | .function _ head parameters body, s =>
    visitsAll body (declareParameters parameters (s.push (some head.type)))
  | .var _ _ initial, s => (Expr.optionParts initial).map (s, ·)
  | .assign _ _ _ value, s => value.parts.map (s, ·)
  | .conditional _ condition thenBranch none, s =>
    condition.parts.map (s, ·) ++ visits thenBranch s.push
  | .conditional _ condition thenBranch (some elseBranch), s =>
    condition.parts.map (s, ·) ++ visits thenBranch s.push ++
      visits elseBranch (checkStmt thenBranch s.push).state.pop.push
  | .loop _ condition body, s => condition.parts.map (s, ·) ++ visits body s.push
  | .evaluate _ value, s => value.parts.map (s, ·)
  | .return_ _ value, s => value.parts.map (s, ·)
  | .print _ _ value, s => (Expr.optionParts value).map (s, ·)
termination_by structural stmt => stmt

/-- The expressions that the check of statements visits, each with its scopes. -/
def visitsAll : List Stmt → Scopes → List (Scopes × Expr)
  | [], _ => []
  | stmt :: stmts, s => visits stmt s ++ visitsAll stmts (checkStmt stmt s).state
termination_by structural stmts => stmts

end

/-- The place of a visit in terms of environments. -/
def occurrence (visit : Scopes × Expr) : Env × Expr :=
  (visit.1.env, visit.2)

theorem map_occurrence (s : Scopes) (parts : List Expr) :
    (parts.map (s, ·)).map occurrence = parts.map (s.env, ·) := by
  rw [List.map_map]
  rfl

mutual

/-- The visits of a statement are its occurrences, in the order of the text. -/
theorem map_visits : ∀ (stmt : Stmt) (s : Scopes), stmt.Grammatical → stmt.Scoped s.kinds →
    (visits stmt s).map occurrence = stmt.occurrences s.env
  | .block _ body, s, hg, hscoped => by
    rw [visits, Stmt.occurrences]
    exact map_visitsAll body s.push hg hscoped
  | .function .., _, hg, _ => hg.elim
  | .var .., s, _, _ => by rw [visits, Stmt.occurrences, map_occurrence]
  | .assign .., s, _, _ => by rw [visits, Stmt.occurrences, map_occurrence]
  | .conditional _ condition thenBranch none, s, hg, hscoped => by
    rw [visits, Stmt.occurrences, List.map_append, map_occurrence,
      map_visits thenBranch s.push hg.2 hscoped.2]
    rfl
  | .conditional _ condition thenBranch (some elseBranch), s, hg, hscoped => by
    rw [visits, Stmt.occurrences, branch_state thenBranch s, List.map_append, List.map_append,
      map_occurrence, map_visits thenBranch s.push hg.2.1 hscoped.2.1,
      map_visits elseBranch s.push hg.2.2 hscoped.2.2]
    rfl
  | .loop _ condition body, s, hg, hscoped => by
    rw [visits, Stmt.occurrences, List.map_append, map_occurrence,
      map_visits body s.push hg.2 hscoped.2]
    rfl
  | .evaluate .., s, _, _ => by rw [visits, Stmt.occurrences, map_occurrence]
  | .return_ .., s, _, _ => by rw [visits, Stmt.occurrences, map_occurrence]
  | .print .., s, _, _ => by rw [visits, Stmt.occurrences, map_occurrence]

theorem map_visitsAll : ∀ (stmts : List Stmt) (s : Scopes), Stmt.AllGrammatical stmts →
    Stmt.AllScoped stmts s.kinds →
      (visitsAll stmts s).map occurrence = Stmt.occurrencesAll stmts s.env
  | [], _, _, _ => rfl
  | stmt :: stmts, s, hg, hscoped => by
    rw [visitsAll, Stmt.occurrencesAll, List.map_append, map_visits stmt s hg.1 hscoped.1,
      checkStmt_state stmt s, map_visitsAll stmts (stateAfter s stmt) hg.2
        (by rw [kinds_stateAfter hscoped.1]; exact hscoped.2), env_stateAfter hscoped.1]

end

theorem map_visitsAll_program : ∀ (program : List Stmt) (s : Scopes), Grammatical program →
    ProgramScoped program s.kinds →
      (visitsAll program s).map occurrence = Stmt.occurrencesAll program s.env
  | [], _, _, _ => rfl
  | stmt :: program, s, hg, hscoped => by
    obtain ⟨hgFirst, hgRest⟩ := List.forall_mem_cons.1 hg
    rw [visitsAll, Stmt.occurrencesAll, List.map_append, checkStmt_state stmt s]
    cases stmt with
    | function span head parameters body =>
      obtain ⟨henv, hkinds, -⟩ :=
        declareParameters_scoped parameters (s.push (some head.type)) hscoped.1.1
      rw [visits, Stmt.occurrences, map_visitsAll body _ hgFirst.2.2
        (by rw [hkinds]; exact hscoped.1.2), henv]
      exact congrArg _ (map_visitsAll_program program s hgRest hscoped.2)
    | var span head initial =>
      have hscopedVar : Stmt.Scoped (.var span head initial) s.kinds := hscoped.1
      rw [map_visits _ s hgFirst hscopedVar, map_visitsAll_program program _ hgRest
        (by rw [kinds_stateAfter hscopedVar]; exact hscoped.2), env_stateAfter hscopedVar]
    | _ => exact hscoped.elim

end Types

/-! ### Accepted programs -/

theorem env_bindings (program : List Stmt) :
    Scopes.env { current := { bindings := Declarations.bindings program } } =
      signatures program := by
  funext name
  show (Scopes.lookup ⟨_, []⟩ name).map Identifier.meaning = _
  rw [Scopes.lookup_global]
  show ((Declarations.bindings program).lookup name).map Identifier.meaning = _
  unfold Declarations.bindings signatures
  induction functionDecls program with
  | nil => rfl
  | cons f decls ih =>
    rw [List.map_cons, List.lookup_cons, List.find?_cons]
    by_cases hname : name = f.head.name
    · subst hname
      simp only [beq_self_eq_true, decide_true]
      rfl
    · have hne : ¬ f.head.name = name := fun h ↦ hname h.symm
      simp only [beq_false_of_ne hname, hne, decide_false]
      exact ih

theorem concrete_signatures {program : List Stmt} (hg : Grammatical program) :
    (signatures program).Concrete := by
  intro name meaning h
  obtain ⟨f, hf, rfl⟩ := Option.map_eq_some_iff.1 h
  obtain ⟨stmt, hstmt, hfunction⟩ := List.mem_filterMap.1 (List.mem_of_find?_eq_some hf)
  cases stmt with
  | function span head parameters body =>
    cases hfunction
    exact (hg _ hstmt).1
  | _ => cases hfunction

/-- The check of types accepts exactly the well-typed programs among those of the grammar that the
first two checks accept. -/
theorem types_findings_iff {program : List Stmt} {entry : String} (hg : Grammatical program)
    (hdeclarations : (Declarations.check entry program {}).findings = [])
    (hnames : (Names.checkAll program
      { scopes := (Declarations.check entry program {}).state }).findings = []) :
    (Types.checkAll program (Declarations.check entry program {}).state).findings = [] ↔
      WellTyped program := by
  have hscoped := scoped_of_accepted hg.unnested hdeclarations hnames
  obtain ⟨-, -, -, hstate⟩ := Declarations.check_cases hdeclarations
  have hconcrete := concrete_signatures hg
  rw [← env_bindings] at hconcrete
  rw [← kinds_bindings] at hscoped
  have hiff := Types.checkAll_program_iff program _ hg hscoped hconcrete
  rw [env_bindings] at hiff
  rw [hstate]
  exact hiff

/-- **The check of types decides the type system.** On a program read from tokens that the first two
checks accept, the third finds nothing exactly when the program is well typed. Then it visits every
expression in the environment in which the expression is typed, and gives it the one type that the
expression has there, which is never `error`. -/
theorem typeCheck_decides {tokens : List Token} {program : List Stmt} {entry : String}
    (hparse : parse tokens = .ok program)
    (hdeclarations : (Declarations.check entry program {}).findings = [])
    (hnames : (Names.checkAll program
      { scopes := (Declarations.check entry program {}).state }).findings = []) :
    ((Types.checkAll program (Declarations.check entry program {}).state).findings = [] ↔
        WellTyped program) ∧
      ((Types.checkAll program (Declarations.check entry program {}).state).findings = [] →
        (Types.visitsAll program (Declarations.check entry program {}).state).map
            Types.occurrence = Stmt.occurrencesAll program (signatures program) ∧
          ∀ visit ∈ Types.visitsAll program (Declarations.check entry program {}).state,
            (Types.infer visit.1 visit.2).type ≠ .error ∧
              ∀ type, HasType visit.1.env visit.2 type ↔
                type = (Types.infer visit.1 visit.2).type) := by
  have hg := parse_grammatical hparse
  have hiff := types_findings_iff hg hdeclarations hnames
  have hscoped := scoped_of_accepted hg.unnested hdeclarations hnames
  obtain ⟨-, -, -, hstate⟩ := Declarations.check_cases hdeclarations
  rw [← kinds_bindings] at hscoped
  have hvisits := Types.map_visitsAll_program program _ hg hscoped
  rw [env_bindings] at hvisits
  rw [hstate] at hiff ⊢
  refine ⟨hiff, fun h ↦ ⟨hvisits, fun visit hvisit ↦ ?_⟩⟩
  have hplace : Types.occurrence visit ∈ Stmt.occurrencesAll program (signatures program) :=
    hvisits ▸ List.mem_map_of_mem hvisit
  obtain ⟨henv, type, htype⟩ :=
    (hiff.1 h).forall_occurrences (concrete_signatures hg) hg _ hplace
  have hinfer : Types.infer visit.1 visit.2 = ⟨type, []⟩ := Types.infer_of_hasType henv htype
  rw [hinfer]
  refine ⟨?_, fun other ↦ ⟨fun hother ↦ ?_, fun heq ↦ heq ▸ htype⟩⟩
  · intro herror
    have hvalue := htype.isConcrete henv
    rw [show type = .error from herror] at hvalue
    cases hvalue
  · have hother := Types.infer_of_hasType henv hother
    rw [hinfer] at hother
    exact (congrArg Types.Inferred.type hother).symm

theorem typeCheck_decides_sample :
    parse Sample.tokens = .ok Sample.program ∧
      (Declarations.check "main" Sample.program {}).findings = [] ∧
      (Names.checkAll Sample.program
        { scopes := (Declarations.check "main" Sample.program {}).state }).findings = [] ∧
      WellTyped Sample.program := by
  have hdeclarations : (Declarations.check "main" Sample.program {}).findings = [] := by cbv
  have hnames : (Names.checkAll Sample.program
      { scopes := (Declarations.check "main" Sample.program {}).state }).findings = [] := by cbv
  have htypes : (Types.checkAll Sample.program
      (Declarations.check "main" Sample.program {}).state).findings = [] := by cbv
  exact ⟨Sample.parse_tokens, hdeclarations, hnames,
    (typeCheck_decides Sample.parse_tokens hdeclarations hnames).1.1 htypes⟩

end ScalarMips
