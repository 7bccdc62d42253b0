import ScalarMips.Check.Declarations
import ScalarMips.Proofs.Scoping

/-!
# What the check of names establishes

A program in which neither of the first two checks finds anything is scoped (`scoped_of_accepted`).

This needs an argument over the whole text. A global variable with the name of a function further
down is not reported where it stands but where the function does. So a name put off stays put off
until its function is reached (`Names.Stable`), and every function is reached.
-/

namespace ScalarMips

namespace Names

/-! ### What a walk keeps -/

/-- A property of states that nothing inside a function body can end. -/
structure Stable (Q : State → Prop) : Prop where
  push : ∀ s, Q s → Q s.push
  pop : ∀ s, Q s → Q s.pop
  declare : ∀ s name i, Q s → Q { s with scopes := s.scopes.declare name i }
  mark : ∀ s name, Q s → Q { s with scopes := s.scopes.markInitialized name }
  defer : ∀ s name, Q s → Q { s with pending := name :: s.pending }

theorem stable_reached (name : String) : Stable fun s ↦ s.scopes.Reached name where
  push _ h := by simpa only [State.push, Scopes.Reached, Scopes.global_push] using h
  pop _ h := by simpa only [State.pop, Scopes.Reached, Scopes.global_pop] using h
  declare _ m i h := h.declare m i
  mark _ m h := h.markInitialized m
  defer _ _ h := h

theorem stable_pending (name : String) : Stable fun s ↦ name ∈ s.pending where
  push _ h := h
  pop _ h := h
  declare _ _ _ h := h
  mark _ _ h := h
  defer _ _ h := List.mem_cons_of_mem _ h

namespace Stable

variable {Q : State → Prop}

theorem checkVariable (hQ : Stable Q) (head : Declarator) (initial : Option Expr) {s : State}
    (h : Q s) :
    Q (checkVariable head initial s).state := by
  show Q (declareVariable head initial.isSome s).1
  simp only [declareVariable]
  split
  · exact h
  · split
    · exact h
    · split
      · exact hQ.defer s _ h
      · exact hQ.declare s _ _ h

theorem checkAssign (hQ : Stable Q) (name : String) (target : Span) (value : Expr) {s : State}
    (h : Q s) : Q (checkAssign name target value s).state := by
  show Q { s with scopes := if _ then _ else _ }
  split
  · exact hQ.mark s name h
  · exact h

mutual

theorem checkStmt (hQ : Stable Q) : ∀ (stmt : Stmt) (s : State), stmt.Plain → Q s →
    Q (Names.checkStmt stmt s).state
  | .block _ body, s, hplain, h => by
    rw [Names.checkStmt]
    exact hQ.pop _ (checkAll hQ body _ hplain (hQ.push s h))
  | .function .., _, hplain, _ => hplain.elim
  | .var _ head initial, s, _, h => by
    rw [Names.checkStmt]
    exact hQ.checkVariable head initial h
  | .assign _ name target value, s, _, h => by
    rw [Names.checkStmt]
    exact hQ.checkAssign name target value h
  | .conditional _ _ thenBranch none, s, hplain, h => by
    rw [Names.checkStmt]
    exact hQ.pop _ (checkStmt hQ thenBranch _ hplain (hQ.push s h))
  | .conditional _ _ thenBranch (some elseBranch), s, hplain, h => by
    rw [Names.checkStmt]
    have hmiddle := hQ.pop _ (checkStmt hQ thenBranch _ hplain.1 (hQ.push s h))
    exact hQ.pop _ (checkStmt hQ elseBranch _ hplain.2 (hQ.push _ hmiddle))
  | .loop _ _ body, s, hplain, h => by
    rw [Names.checkStmt]
    exact hQ.pop _ (checkStmt hQ body _ hplain (hQ.push s h))
  | .evaluate _ _, s, _, h => by
    rw [Names.checkStmt]
    exact h
  | .return_ _ _, s, _, h => by
    rw [Names.checkStmt]
    exact h
  | .print _ _ _, s, _, h => by
    rw [Names.checkStmt]
    exact h

theorem checkAll (hQ : Stable Q) : ∀ (stmts : List Stmt) (s : State), Stmt.AllPlain stmts →
    Q s → Q (Names.checkAll stmts s).state
  | [], _, _, h => h
  | stmt :: stmts, s, hplain, h => by
    rw [Names.checkAll]
    exact checkAll hQ stmts _ hplain.2 (checkStmt hQ stmt s hplain.1 h)

end

end Stable

/-! ### Functions -/

/-- Parameters declared without complaint are scoped, and none has the name of a function. -/
theorem declareParameters_scoped : ∀ (parameters : List Declarator) (scopes after : Scopes),
    declareParameters parameters scopes = (after, []) →
      ParametersScoped parameters scopes.kinds ∧
        after.kinds = Kinds.declareAll scopes.kinds parameters ∧ after.outer = scopes.outer ∧
        ∀ name, scopes.kinds.kind? name = some .fn → after.lookupHere name = scopes.lookupHere name
  | [], scopes, after, h => by
    cases h
    exact ⟨trivial, rfl, rfl, fun _ _ ↦ rfl⟩
  | p :: parameters, scopes, after, h => by
    rw [declareParameters] at h
    split at h
    · cases (Prod.mk.inj h).2
    · rename_i hkind
      cases hhere : scopes.lookupHere p.name with
      | some i =>
        rw [Scopes.declare?_of_bound (by simp [hhere])] at h
        cases (Prod.mk.inj h).2
      | none =>
        rw [Scopes.declare?_of_free hhere, ← Scopes.declare_of_free hhere] at h
        obtain ⟨hrest, hkinds, houter, hfn⟩ := declareParameters_scoped parameters _ after h
        have hfree := Scopes.lookupHere_eq_none_iff.1 hhere
        rw [Scopes.kinds_declare hfree] at hrest hkinds
        refine ⟨⟨hfree, hrest⟩, hkinds, by rw [houter, Scopes.outer_declare], fun name hname ↦ ?_⟩
        have hne : name ≠ p.name := by
          rintro rfl
          rw [Scopes.kinds_kind?] at hname
          exact hkind (decide_eq_true hname)
        have hname' : (scopes.declare p.name { type := p.type, initialized := true }).kinds.kind?
            name = some .fn := by
          rw [Scopes.kinds_kind?, Scopes.lookup_declare hhere, if_neg hne, ← Scopes.kinds_kind?]
          exact hname
        rw [hfn name hname', Scopes.lookupHere_declare hhere, if_neg hne]

theorem exists_declareAll_cons (parameters : List Declarator) :
    ∀ (scope : List (String × IdentifierKind)) (v : Kinds),
      ∃ scope', Kinds.declareAll (scope :: v) parameters = scope' :: v := by
  induction parameters with
  | nil => exact fun scope v ↦ ⟨scope, rfl⟩
  | cons p parameters ih => exact fun scope v ↦ ih (scope ++ [(p.name, .var)]) v

theorem onlyVars_declareAll : ∀ (parameters : List Declarator) (v : Kinds), v.OnlyVars →
    ParametersScoped parameters v → (v.declareAll parameters).OnlyVars
  | [], _, hv, _ => hv
  | _ :: parameters, _, hv, h => onlyVars_declareAll parameters _ (hv.declare h.1) h.2

theorem declareParameters_reached {name : String} :
    ∀ (parameters : List Declarator) (scopes after : Scopes),
      declareParameters parameters scopes = (after, []) → scopes.Reached name → after.Reached name
  | [], _, _, h, hname => by
    cases h
    exact hname
  | p :: parameters, scopes, after, h, hname => by
    rw [declareParameters] at h
    split at h
    · cases (Prod.mk.inj h).2
    · cases hhere : scopes.lookupHere p.name with
      | some i =>
        rw [Scopes.declare?_of_bound (by simp [hhere])] at h
        cases (Prod.mk.inj h).2
      | none =>
        rw [Scopes.declare?_of_free hhere, ← Scopes.declare_of_free hhere] at h
        exact declareParameters_reached parameters _ after h (hname.declare _ _)

/-- What is known after a function was entered without complaint. -/
theorem enterFunction_scoped {head : Declarator} {parameters : List Declarator} {s : State}
    {scope : List (String × IdentifierKind)} (hkinds : s.scopes.kinds = [scope])
    (hbound : scope.lookup head.name = some .fn)
    (h : (enterFunction head parameters s).findings = []) :
    head.name ∉ s.pending ∧ ParametersScoped parameters ([] :: [scope]) ∧
      (enterFunction head parameters s).state.scopes.kinds =
        Kinds.declareAll ([] :: [scope]) parameters ∧
      (∀ name ∈ s.pending, name ∈ (enterFunction head parameters s).state.pending) ∧
      ∀ name, name = head.name ∨ s.scopes.Reached name →
        (enterFunction head parameters s).state.scopes.Reached name := by
  unfold enterFunction at h ⊢
  rcases hd : declareParameters parameters (s.scopes.push (some head.type)) with
    ⟨scopes, complaints⟩
  rw [hd] at h
  obtain ⟨hcollisions, rfl⟩ := List.append_eq_nil_iff.1 (Pass.findings_file_eq_nil.1 h)
  have hpending : head.name ∉ s.pending := fun hmem ↦ by
    rw [if_pos hmem] at hcollisions
    cases hcollisions
  obtain ⟨hparameters, hscopes, houter, hfn⟩ := declareParameters_scoped _ _ _ hd
  rw [Scopes.kinds_push, hkinds] at hparameters hscopes
  refine ⟨hpending, hparameters, (Scopes.kinds_markInitialized _ _).trans hscopes,
    fun name hname ↦ ?_, fun name hname ↦ ?_⟩
  · refine List.mem_filter.2 ⟨hname, ?_⟩
    exact decide_eq_true fun heq ↦ hpending (heq ▸ hname)
  · rcases hname with rfl | hname
    · -- No parameter has the name of the function, so the mark reaches the global scope.
      have hhere := hfn head.name (by
        rw [Scopes.kinds_push, hkinds]
        rw [Kinds.kind?_push, Kinds.kind?_singleton, hbound])
      obtain ⟨⟨current, outer⟩, pending⟩ := s
      obtain rfl : outer = [] := List.map_eq_nil_iff.1 (List.cons.inj hkinds).2
      refine Scopes.reached_markInitialized houter hhere ?_
      have hcurrent : current.view Identifier.kind = scope := (List.cons.inj hkinds).1
      rw [← hcurrent, Frame.lookup_view] at hbound
      obtain ⟨i, hi, -⟩ := Option.map_eq_some_iff.1 hbound
      exact Option.isSome_iff_exists.2 ⟨i, hi⟩
    · refine Scopes.Reached.markInitialized (declareParameters_reached _ _ _ hd ?_) _
      rwa [Scopes.Reached, Scopes.global_push]

/-- What a function checked without complaint is, and what is known after it. -/
theorem checkFunction_scoped {span : Span} {head : Declarator} {parameters : List Declarator}
    {body : List Stmt} {s : State} {scope : List (String × IdentifierKind)}
    (hbody : Stmt.AllPlain body) (hkinds : s.scopes.kinds = [scope])
    (hbound : scope.lookup head.name = some .fn)
    (h : (checkStmt (.function span head parameters body) s).findings = []) :
    head.name ∉ s.pending ∧
      (ParametersScoped parameters ([] :: [scope]) ∧
        Stmt.AllScoped body (Kinds.declareAll ([] :: [scope]) parameters)) ∧
      (checkStmt (.function span head parameters body) s).state.scopes.kinds = [scope] ∧
      (∀ name ∈ s.pending,
        name ∈ (checkStmt (.function span head parameters body) s).state.pending) ∧
      ∀ name, name = head.name ∨ s.scopes.Reached name →
        (checkStmt (.function span head parameters body) s).state.scopes.Reached name := by
  rw [checkStmt] at h ⊢
  obtain ⟨henter, hcheck⟩ := Pass.findings_andThen_eq_nil.1 h
  obtain ⟨hpending, hparameters, hkindsIn, hkeep, hreached⟩ :=
    enterFunction_scoped hkinds hbound henter
  have hlocal : (enterFunction head parameters s).state.scopes.kinds.OnlyVars := by
    rw [hkindsIn]
    exact onlyVars_declareAll parameters _ (.nil _) hparameters
  obtain ⟨hscoped, hkindsOut⟩ := checkAll_scoped body _ hbody hlocal hcheck
  rw [hkindsIn] at hscoped hkindsOut
  obtain ⟨inner, hinner⟩ := exists_declareAll_cons parameters [] [scope]
  obtain ⟨last, hlast⟩ := exists_foldl_after_cons body inner [scope]
  rw [hinner, hlast] at hkindsOut
  have hend : ∀ Q, Stable Q → Q (enterFunction head parameters s).state →
      Q (((enterFunction head parameters s).andThen (checkAll body)).map State.pop).state :=
    fun Q hQ hstart ↦ hQ.pop _ (hQ.checkAll body _ hbody hstart)
  exact ⟨hpending, ⟨hparameters, hscoped⟩, kinds_pop hkinds hkindsOut,
    fun name hname ↦ hend _ (stable_pending name) (hkeep name hname),
    fun name hname ↦ hend _ (stable_reached name) (hreached name hname)⟩

/-! ### Programs -/

theorem functionNames_cons_function (span : Span) (head : Declarator)
    (parameters : List Declarator) (body program : List Stmt) :
    functionNames (.function span head parameters body :: program) =
      head.name :: functionNames program := rfl

theorem functionNames_cons_var (span : Span) (head : Declarator) (initial : Option Expr)
    (program : List Stmt) :
    functionNames (.var span head initial :: program) = functionNames program := rfl

/-- A collision that was put off is reported when its function is reached. -/
theorem pending_reported {name : String} : ∀ (program : List Stmt) (s : State)
    (scope : List (String × IdentifierKind)), Unnested program →
    (∀ stmt ∈ program, stmt.IsDeclaration) → s.scopes.kinds = [scope] →
    (∀ name ∈ functionNames program, scope.lookup name = some .fn) →
    name ∈ s.pending → name ∈ functionNames program → (checkAll program s).findings ≠ []
  | [], _, _, _, _, _, _, _, hname => absurd hname List.not_mem_nil
  | stmt :: program, s, scope, hplain, hdecl, hkinds, hbound, hpending, hname => by
    intro h
    rw [checkAll] at h
    obtain ⟨hfirst, hrest⟩ := Pass.findings_andThen_eq_nil.1 h
    obtain ⟨hplainFirst, hplainRest⟩ := List.forall_mem_cons.1 hplain
    obtain ⟨hdeclFirst, hdeclRest⟩ := List.forall_mem_cons.1 hdecl
    cases stmt with
    | function span head parameters body =>
      rw [functionNames_cons_function] at hbound hname
      obtain ⟨hboundFirst, hboundRest⟩ := List.forall_mem_cons.1 hbound
      obtain ⟨hnot, -, hkinds', hkeep, -⟩ :=
        checkFunction_scoped hplainFirst hkinds hboundFirst hfirst
      rcases List.mem_cons.1 hname with rfl | hname
      · exact hnot hpending
      · exact pending_reported program _ scope hplainRest hdeclRest hkinds' hboundRest
          (hkeep name hpending) hname hrest
    | var span head initial =>
      rw [functionNames_cons_var] at hbound hname
      rw [checkStmt] at hfirst hrest
      obtain ⟨-, hdeclared⟩ := checkVariable_cases hfirst
      have hpending' := (stable_pending name).checkVariable head initial hpending
      rcases declareVariable_cases hdeclared with ⟨hfree, hstate⟩ | ⟨i, -, -, -, hstate⟩
      · have hfree := Scopes.lookupHere_eq_none_iff.1 hfree
        have hkinds' : (checkVariable head initial s).state.scopes.kinds =
            [scope ++ [(head.name, .var)]] := by
          rw [hstate, Scopes.kinds_declare hfree, hkinds]
          rfl
        refine pending_reported program _ _ hplainRest hdeclRest hkinds' (fun f hf ↦ ?_) hpending'
          hname hrest
        rw [List.lookup_append, hbound f hf]
        rfl
      · have hkinds' : (checkVariable head initial s).state.scopes.kinds = [scope] := by
          rw [hstate]
          exact hkinds
        exact pending_reported program _ scope hplainRest hdeclRest hkinds' hbound hpending' hname
          hrest
    | _ => exact hdeclFirst.elim

/-- A program checked without complaint is scoped, if its functions are known from the start and
each of them either lies ahead or has been reached. -/
theorem checkAll_programScoped : ∀ (program : List Stmt) (s : State)
    (scope : List (String × IdentifierKind)), Unnested program →
    (∀ stmt ∈ program, stmt.IsDeclaration) → s.scopes.kinds = [scope] →
    (∀ name ∈ functionNames program, scope.lookup name = some .fn) →
    (∀ name, scope.lookup name = some .fn →
      name ∈ functionNames program ∨ s.scopes.Reached name) →
    (checkAll program s).findings = [] → ProgramScoped program [scope]
  | [], _, _, _, _, _, _, _, _ => trivial
  | stmt :: program, s, scope, hplain, hdecl, hkinds, hbound, hahead, h => by
    rw [checkAll] at h
    obtain ⟨hfirst, hrest⟩ := Pass.findings_andThen_eq_nil.1 h
    obtain ⟨hplainFirst, hplainRest⟩ := List.forall_mem_cons.1 hplain
    obtain ⟨hdeclFirst, hdeclRest⟩ := List.forall_mem_cons.1 hdecl
    cases stmt with
    | function span head parameters body =>
      rw [functionNames_cons_function] at hbound hahead
      obtain ⟨hboundFirst, hboundRest⟩ := List.forall_mem_cons.1 hbound
      obtain ⟨-, hfunction, hkinds', -, hreached⟩ :=
        checkFunction_scoped hplainFirst hkinds hboundFirst hfirst
      refine ⟨hfunction, checkAll_programScoped program _ scope hplainRest hdeclRest hkinds'
        hboundRest (fun name hname ↦ ?_) hrest⟩
      rcases hahead name hname with hmem | hpast
      · rcases List.mem_cons.1 hmem with rfl | hmem
        · exact .inr (hreached _ (.inl rfl))
        · exact .inl hmem
      · exact .inr (hreached _ (.inr hpast))
    | var span head initial =>
      rw [functionNames_cons_var] at hbound hahead
      rw [checkStmt] at hfirst hrest
      obtain ⟨hinitial, hdeclared⟩ := checkVariable_cases hfirst
      rw [hkinds] at hinitial
      rcases declareVariable_cases hdeclared with ⟨hfree, hstate⟩ | ⟨i, hi, hfn, hinit, hstate⟩
      · have hfree := Scopes.lookupHere_eq_none_iff.1 hfree
        have hkinds' : (checkVariable head initial s).state.scopes.kinds =
            [scope ++ [(head.name, .var)]] := by
          rw [hstate, Scopes.kinds_declare hfree, hkinds]
          rfl
        rw [hkinds] at hfree
        refine ⟨⟨hinitial, hfree⟩, ?_⟩
        refine checkAll_programScoped program _ (scope ++ [(head.name, IdentifierKind.var)])
          hplainRest hdeclRest hkinds' (fun f hf ↦ ?_) (fun f hf ↦ ?_) hrest
        · rw [List.lookup_append, hbound f hf]
          rfl
        · have hscope : scope.lookup head.name = none := hfree
          rw [lookup_append_of_none hscope] at hf
          split at hf
          · cases hf
          · exact (hahead f hf).imp_right fun hpast ↦
              (stable_reached f).checkVariable head initial hpast
      · -- The collision was put off, so its function lies ahead and reports it.
        have hhere : scope.lookup head.name = some .fn := by
          have hhere := Scopes.kinds_here? s.scopes head.name
          rw [hkinds, hi, Option.map_some, hfn] at hhere
          exact hhere
        have hkinds' : (checkVariable head initial s).state.scopes.kinds = [scope] := by
          rw [hstate]
          exact hkinds
        rcases hahead head.name hhere with hmem | ⟨j, hj, hjinit⟩
        · have hpending : head.name ∈ (checkVariable head initial s).state.pending := by
            rw [hstate]
            exact List.mem_cons_self
          exact absurd hrest (pending_reported program _ scope hplainRest hdeclRest hkinds' hbound
            hpending hmem)
        · obtain ⟨⟨current, outer⟩, pending⟩ := s
          obtain rfl : outer = [] := List.map_eq_nil_iff.1 (List.cons.inj hkinds).2
          obtain rfl : i = j := Option.some.inj (hi.symm.trans hj)
          rw [hinit] at hjinit
          cases hjinit
    | _ => exact hdeclFirst.elim

end Names

namespace Declarations

/-! ### Global declarations -/

/-- What the first check knows of a function. -/
def identifier (f : FunctionDecl) : Identifier :=
  { kind := .fn, type := f.head.type, parameters := f.parameters }

/-- The global scope that the first check hands on: all functions in the order of the text. -/
def bindings (program : List Stmt) : List (String × Identifier) :=
  (functionDecls program).map fun f ↦ (f.head.name, identifier f)

theorem checkStmt_isDeclaration {globals : Scopes} {stmt : Stmt}
    (h : (checkStmt globals stmt).findings = []) : stmt.IsDeclaration := by
  cases stmt with
  | function => trivial
  | var => trivial
  | _ => exact absurd (Pass.findings_file_eq_nil.1 h) (List.cons_ne_nil _ _)

theorem declareFunction_cases {head : Declarator} {parameters : List Declarator} {globals : Scopes}
    (h : (declareFunction head parameters globals).findings = []) :
    globals.lookupHere head.name = none ∧ (declareFunction head parameters globals).state =
      globals.declare head.name { kind := .fn, type := head.type, parameters } := by
  unfold declareFunction at h ⊢
  cases hhere : globals.lookupHere head.name with
  | some i =>
    rw [Scopes.declare?_of_bound (by simp [hhere])] at h
    exact absurd (Pass.findings_file_eq_nil.1 h) (List.cons_ne_nil _ _)
  | none =>
    rw [Scopes.declare?_of_free hhere, Scopes.declare_of_free hhere]
    exact ⟨rfl, rfl⟩

/-- Without complaint, only declarations stand at the top level, no two functions have one name, and
the global scope is extended by the functions of the program. -/
theorem checkAll_cases : ∀ (program : List Stmt) (globals : Scopes),
    (checkAll program globals).findings = [] →
      (∀ stmt ∈ program, stmt.IsDeclaration) ∧ (functionNames program).Nodup ∧
        (∀ name ∈ functionNames program, globals.lookupHere name = none) ∧
        (checkAll program globals).state =
          { globals with
            current :=
              { globals.current with
                bindings := globals.current.bindings ++ bindings program } }
  | [], globals, _ => by
    refine ⟨fun _ h ↦ absurd h List.not_mem_nil, List.nodup_nil,
      fun _ h ↦ absurd h List.not_mem_nil, ?_⟩
    show globals = _
    simp [bindings, functionDecls]
  | stmt :: program, globals, h => by
    rw [checkAll] at h ⊢
    obtain ⟨hfirst, hrest⟩ := Pass.findings_andThen_eq_nil.1 h
    have hdecl := checkStmt_isDeclaration hfirst
    cases stmt with
    | function span head parameters body =>
      obtain ⟨hfree, hstate⟩ := declareFunction_cases hfirst
      have hstate' : (checkStmt globals (.function span head parameters body)).state = _ := hstate
      rw [hstate'] at hrest
      obtain ⟨hdecls, hnodup, hunbound, hend⟩ := checkAll_cases program _ hrest
      have hname : ∀ name ∈ functionNames program,
          name ≠ head.name ∧ globals.lookupHere name = none := by
        intro name hmem
        have hnone := hunbound name hmem
        rw [Scopes.lookupHere_declare hfree] at hnone
        split at hnone
        · cases hnone
        · exact ⟨‹_›, hnone⟩
      refine ⟨List.forall_mem_cons.2 ⟨hdecl, hdecls⟩, ?_, ?_, ?_⟩
      · exact List.nodup_cons.2 ⟨fun hmem ↦ (hname _ hmem).1 rfl, hnodup⟩
      · exact List.forall_mem_cons.2 ⟨hfree, fun name hmem ↦ (hname name hmem).2⟩
      · show (checkAll program (checkStmt globals _).state).state = _
        rw [hstate', hend, Scopes.declare_of_free hfree]
        simp [bindings, functionDecls, Stmt.function?, identifier]
    | var span head initial =>
      have hstate : (checkStmt globals (.var span head initial)).state = globals := by
        cases initial <;> rfl
      rw [hstate] at hrest
      obtain ⟨hdecls, hnodup, hunbound, hend⟩ := checkAll_cases program _ hrest
      refine ⟨List.forall_mem_cons.2 ⟨hdecl, hdecls⟩, hnodup, hunbound, ?_⟩
      show (checkAll program (checkStmt globals _).state).state = _
      rw [hstate, hend]
      rfl
    | _ => exact hdecl.elim

/-- The global scope of a program is the same whatever the entry point is. -/
theorem checkEntry_state (entry : String) (globals : Scopes) :
    (checkEntry entry globals).state = globals := by
  unfold checkEntry
  split <;> rfl

theorem exists_of_lookup_bindings {program : List Stmt} {name : String} {i : Identifier}
    (h : (bindings program).lookup name = some i) :
    ∃ f ∈ functionDecls program, f.head.name = name ∧ i = identifier f := by
  obtain ⟨before, after, hsplit, -⟩ := List.lookup_eq_some_iff.1 h
  have hmem : (name, i) ∈ bindings program := by
    rw [hsplit]
    exact List.mem_append_right _ List.mem_cons_self
  obtain ⟨f, hf, heq⟩ := List.mem_map.1 hmem
  obtain ⟨hname, hi⟩ := Prod.mk.inj heq
  exact ⟨f, hf, hname, hi.symm⟩

/-- What the first check establishes. -/
theorem check_cases {entry : String} {program : List Stmt}
    (h : (check entry program {}).findings = []) :
    (∀ stmt ∈ program, stmt.IsDeclaration) ∧ (functionNames program).Nodup ∧
      entry ∈ functionNames program ∧
      (check entry program {}).state = { current := { bindings := bindings program } } := by
  obtain ⟨hall, hentry⟩ := Pass.findings_andThen_eq_nil.1 h
  obtain ⟨hdecl, hnodup, -, hstate⟩ := checkAll_cases program {} hall
  have hend : (check entry program {}).state = { current := { bindings := bindings program } } :=
    (checkEntry_state entry _).trans hstate
  refine ⟨hdecl, hnodup, ?_, hend⟩
  rw [hstate] at hentry
  unfold checkEntry at hentry
  split at hentry
  · rename_i hkind
    obtain ⟨i, hi, -⟩ := Option.map_eq_some_iff.1 (of_decide_eq_true hkind)
    have hlookup : (bindings program).lookup entry = some i :=
      (Scopes.lookup_global _ entry).symm.trans hi
    obtain ⟨f, hf, hname, -⟩ := exists_of_lookup_bindings hlookup
    exact hname ▸ List.mem_map_of_mem hf
  · cases hentry

end Declarations

/-! ### Accepted programs -/

/-- The functions of a program, as the scope in which its checking starts. -/
def functionKinds (program : List Stmt) : List (String × IdentifierKind) :=
  (functionNames program).map fun name ↦ (name, .fn)

theorem lookup_functionKinds {program : List Stmt} {name : String} :
    (functionKinds program).lookup name = some .fn ↔ name ∈ functionNames program := by
  unfold functionKinds
  induction functionNames program with
  | nil => simp
  | cons f names ih =>
    rw [List.map_cons, List.lookup_cons, List.mem_cons]
    by_cases hname : name = f
    · simp [hname]
    · rw [beq_false_of_ne hname, ih]
      simp [hname]

theorem lookup_functionKinds_eq_none {program : List Stmt} {name : String}
    (h : name ∉ functionNames program) : (functionKinds program).lookup name = none := by
  refine List.lookup_eq_none_iff.2 fun p hp ↦ ?_
  obtain ⟨f, hf, rfl⟩ := List.mem_map.1 hp
  exact bne_iff_ne.2 fun heq ↦ h (heq ▸ hf)

theorem kinds_bindings (program : List Stmt) :
    Scopes.kinds { current := { bindings := Declarations.bindings program } } =
      [functionKinds program] := by
  show [List.map _ (Declarations.bindings program)] = _
  unfold Declarations.bindings functionKinds functionNames
  rw [List.map_map, List.map_map]
  rfl

/-- A program that the first two checks accept is scoped. -/
theorem scoped_of_accepted {entry : String} {program : List Stmt} (hplain : Unnested program)
    (hdeclarations : (Declarations.check entry program {}).findings = [])
    (hnames : (Names.checkAll program
      { scopes := (Declarations.check entry program {}).state }).findings = []) :
    ProgramScoped program [functionKinds program] := by
  obtain ⟨hdecl, -, -, hstate⟩ := Declarations.check_cases hdeclarations
  rw [hstate] at hnames
  refine Names.checkAll_programScoped program _ (functionKinds program) hplain hdecl
    (kinds_bindings program) (fun name hname ↦ lookup_functionKinds.2 hname)
    (fun name hname ↦ .inl (lookup_functionKinds.1 hname)) hnames

end ScalarMips
