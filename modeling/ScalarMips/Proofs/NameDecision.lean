import ScalarMips.Proofs.NameCheck
import ScalarMips.Proofs.NameTracking

/-!
# The check of names decides the rules

If nothing is wrong with the declarations of a program, the check of names finds nothing in it
exactly if the program keeps to the rules for names (`nameCheck_decides`).

Inside a function the rules are those for its body, with the function itself among those that must
not be hidden (`Names.checkFunction_decides`). At the top level they are taken up statement by
statement (`OrderlyProgram`). A global variable with the name of a function is against the rules in
whatever order they stand. If the function comes first, the check complains at the variable. If it
comes later, the name is put off until the function is reached (`Names.checkVariable_reported`).
-/

namespace ScalarMips

/-! ### Programs statement by statement -/

/-- No local variable has the name of its function, of one before it, or of one that has been
reached. -/
def LocalsApart (reached : List String) (program : List Stmt) : Prop :=
  ∀ before span head parameters body after,
    program = before ++ .function span head parameters body :: after →
      ∀ name ∈ Stmt.variablesAll body,
        name ∉ reached ∧ name ∉ functionNames before ∧ name ≠ head.name

theorem localsApart_nil {reached : List String} : LocalsApart reached [] := by
  intro before span head parameters body after hsplit
  cases before <;> cases hsplit

theorem localsApart_var {reached : List String} {program : List Stmt} {span : Span}
    {head : Declarator} {initial : Option Expr} :
    LocalsApart reached (.var span head initial :: program) ↔ LocalsApart reached program := by
  constructor
  · rintro h before span' head' parameters body after rfl
    exact h (.var span head initial :: before) span' head' parameters body after rfl
  · intro h before span' head' parameters body after hsplit
    cases before with
    | nil => cases (List.cons.inj hsplit).1
    | cons stmt before =>
      obtain ⟨rfl, hrest⟩ := List.cons.inj hsplit
      exact h before span' head' parameters body after hrest

theorem localsApart_function {reached : List String} {program : List Stmt} {span : Span}
    {head : Declarator} {parameters : List Declarator} {body : List Stmt} :
    LocalsApart reached (.function span head parameters body :: program) ↔
      (∀ name ∈ Stmt.variablesAll body, name ∉ head.name :: reached) ∧
        LocalsApart (head.name :: reached) program := by
  constructor
  · intro h
    refine ⟨fun name hname ↦ ?_, ?_⟩
    · obtain ⟨hreached, -, hhead⟩ := h [] span head parameters body program rfl name hname
      exact List.not_mem_cons_of_ne_of_not_mem hhead hreached
    · rintro before span' head' parameters' body' after rfl name hname
      obtain ⟨hreached, hbefore, hhead⟩ := h (.function span head parameters body :: before) span'
        head' parameters' body' after rfl name hname
      obtain ⟨hne, hbefore⟩ := List.ne_and_not_mem_of_not_mem_cons hbefore
      exact ⟨List.not_mem_cons_of_ne_of_not_mem hne hreached, hbefore, hhead⟩
  · rintro ⟨hbody, h⟩ before span' head' parameters' body' after hsplit name hname
    cases before with
    | nil =>
      obtain ⟨heq, -⟩ := List.cons.inj hsplit
      cases heq
      obtain ⟨hhead, hreached⟩ := List.ne_and_not_mem_of_not_mem_cons (hbody name hname)
      exact ⟨hreached, List.not_mem_nil, hhead⟩
    | cons stmt before =>
      obtain ⟨rfl, hrest⟩ := List.cons.inj hsplit
      obtain ⟨hreached, hbefore, hhead⟩ := h before span' head' parameters' body' after hrest name
        hname
      obtain ⟨hne, hreached⟩ := List.ne_and_not_mem_of_not_mem_cons hreached
      exact ⟨hreached, List.not_mem_cons_of_ne_of_not_mem hne hbefore, hhead⟩

/-- A function keeps to the rules, if `functions` are all functions of the program and `reached`
those before it. -/
structure OrderlyFunction (functions reached : List String) (given : Given) (β : Bindings) (k : Nat)
    (head : Declarator) (parameters : List Declarator) (body : List Stmt) : Prop where
  /-- No parameter has the name of a function. -/
  apart : ∀ x ∈ parameters, x.name ∉ functions
  /-- The body keeps to the rules, in the scope of the parameters. -/
  inside : Orderly (head.name :: reached) (parameters.map Declarator.name)
    (given.after (parameterEvents k parameters))
    (Stmt.outlineAll body (β.bindAll k parameters) (k + parameters.length))

/-- The rest of a program keeps to the rules, if `functions` are all its functions, `reached` those
before the rest, and `names` the global names so far. -/
structure OrderlyProgram (functions reached names : List String) (given : Given) (β : Bindings)
    (k : Nat) (program : List Stmt) : Prop where
  /-- The events can happen. -/
  allowed : Allowed given (Stmt.eventsAll program β k)
  /-- No global name is declared twice. -/
  distinct : (names ++ program.flatMap Stmt.ownNames).Nodup
  /-- No scope inside declares a name twice. -/
  inner : ∀ scope ∈ Stmt.scopesAll program, scope.Nodup
  /-- No parameter has the name of a function. -/
  parameters : ∀ f ∈ functionDecls program, ∀ x ∈ f.parameters, x.name ∉ functions
  /-- No local variable has the name of its function or of one before it. -/
  locals : LocalsApart reached program

section OrderlyProgram

variable {functions reached names : List String} {given given' : Given} {β : Bindings} {k : Nat}
  {program : List Stmt}

theorem orderlyProgram_nil (h : names.Nodup) :
    OrderlyProgram functions reached names given β k [] where
  allowed := allowed_nil
  distinct := (List.append_nil names).symm ▸ h
  inner := nofun
  parameters := nofun
  locals := localsApart_nil

theorem OrderlyProgram.congr (h : OrderlyProgram functions reached names given β k program)
    (heq : ∀ k, given (.var k) = given' (.var k)) :
    OrderlyProgram functions reached names given' β k program :=
  ⟨h.allowed.congr heq, h.distinct, h.inner, h.parameters, h.locals⟩

theorem orderlyProgram_var {span : Span} {head : Declarator} {initial : Option Expr} :
    OrderlyProgram functions reached names given β k (.var span head initial :: program) ↔
      Allowed given (Expr.optionEvents β initial) ∧
        OrderlyProgram functions reached (names ++ [head.name])
          (given.after [.declare k initial.isSome]) (β.bind head.name (.var k)) (k + 1)
          program := by
  have hallowed : Allowed given (Stmt.eventsAll (.var span head initial :: program) β k) ↔
      Allowed given (Expr.optionEvents β initial) ∧
        Allowed (given.after [.declare k initial.isSome])
          (Stmt.eventsAll program (β.bind head.name (.var k)) (k + 1)) := by
    show Allowed given (Expr.optionEvents β initial ++ [.declare k initial.isSome] ++ _) ↔ _
    rw [allowed_append, allowed_append, Given.after_append,
      Given.after_eq_self (Expr.given?_optionEvents initial)]
    exact and_congr_left' (and_iff_left (allowed_singleton.2 ⟨trivial, nofun⟩))
  have hdistinct : (names ++ List.flatMap Stmt.ownNames (.var span head initial :: program)) =
      names ++ [head.name] ++ program.flatMap Stmt.ownNames :=
    List.append_cons ..
  constructor
  · intro h
    obtain ⟨hinitial, hrest⟩ := hallowed.1 h.allowed
    exact ⟨hinitial, hrest, hdistinct ▸ h.distinct, h.inner, h.parameters,
      localsApart_var.1 h.locals⟩
  · rintro ⟨hinitial, h⟩
    exact ⟨hallowed.2 ⟨hinitial, h.allowed⟩, hdistinct ▸ h.distinct, h.inner, h.parameters,
      localsApart_var.2 h.locals⟩

theorem orderlyProgram_function {span : Span} {head : Declarator} {parameters : List Declarator}
    {body : List Stmt} :
    OrderlyProgram functions reached names given β k
        (.function span head parameters body :: program) ↔
      OrderlyFunction functions reached given β k head parameters body ∧
        OrderlyProgram functions (head.name :: reached) names
          (given.after ((Stmt.function span head parameters body).events β k)) β
          (k + (Stmt.function span head parameters body).variables.length) program := by
  constructor
  · rintro ⟨hallowed, hdistinct, hinner, hparameters, hlocals⟩
    obtain ⟨hfunction, hrest⟩ := allowed_append.1 hallowed
    obtain ⟨-, hbody⟩ := allowed_append.1 hfunction
    obtain ⟨hscope, hinner⟩ := List.forall_mem_cons.1 hinner
    obtain ⟨hinnerBody, hinner⟩ := List.forall_mem_append.1 hinner
    obtain ⟨hfirst, hparameters⟩ := List.forall_mem_cons.1 hparameters
    obtain ⟨hapart, hlocals⟩ := localsApart_function.1 hlocals
    exact ⟨⟨hfirst, ⟨hbody, hscope, hinnerBody, hapart⟩⟩,
      ⟨hrest, hdistinct, hinner, hparameters, hlocals⟩⟩
  · rintro ⟨⟨hfirst, ⟨hbody, hscope, hinnerBody, hapart⟩⟩,
      ⟨hrest, hdistinct, hinner, hparameters, hlocals⟩⟩
    have hfunction := allowed_append.2 ⟨allowed_parameterEvents given k parameters, hbody⟩
    exact ⟨allowed_append.2 ⟨hfunction, hrest⟩, hdistinct,
      List.forall_mem_cons.2 ⟨hscope, List.forall_mem_append.2 ⟨hinnerBody, hinner⟩⟩,
      List.forall_mem_cons.2 ⟨hfirst, hparameters⟩, localsApart_function.2 ⟨hapart, hlocals⟩⟩

end OrderlyProgram


namespace Names

variable {p : Point} {functions reached : List String}

/-! ### Functions -/

/-- Parameters can be declared if none has the name of a function and no two have one name. -/
theorem declareParameters_decides : ∀ (parameters : List Declarator) (p : Point) (scopes : Scopes),
    Follows scopes p → p.WellFormed reached → p.Sees functions →
      ((declareParameters parameters scopes).2 = [] ↔
        (∀ x ∈ parameters, x.name ∉ functions) ∧
          (p.names ++ parameters.map Declarator.name).Nodup) ∧
      ((declareParameters parameters scopes).2 = [] →
        Follows (declareParameters parameters scopes).1 (p.declareAll parameters))
  | [], p, scopes, hs, hp, _ =>
    ⟨⟨fun _ ↦ ⟨nofun, (List.append_nil p.names).symm ▸ hp.nodup_names⟩, fun _ ↦ rfl⟩, fun _ ↦ hs⟩
  | x :: parameters, p, scopes, hs, hp, hsees => by
    rw [declareParameters]
    by_cases hfunction : x.name ∈ functions
    · rw [if_pos (hs.hasKind_fn.2 ((hsees x.name).1 hfunction))]
      refine ⟨iff_of_false (List.cons_ne_nil _ _) ?_, fun h ↦ absurd h (List.cons_ne_nil _ _)⟩
      rintro ⟨h, -⟩
      exact h x List.mem_cons_self hfunction
    rw [if_neg fun h ↦ hfunction ((hsees x.name).2 (hs.hasKind_fn.1 h))]
    by_cases hname : x.name ∈ p.names
    · have hbound : (scopes.lookupHere x.name).isSome :=
        Option.isSome_iff_ne_none.2 fun hnone ↦ hs.lookupHere_eq_none.1 hnone hname
      rw [Scopes.declare?_of_bound hbound]
      refine ⟨iff_of_false (List.cons_ne_nil _ _) ?_, fun h ↦ absurd h (List.cons_ne_nil _ _)⟩
      rintro ⟨-, h⟩
      exact Point.notMem_names h List.mem_cons_self hname
    · have hfree := hs.lookupHere_eq_none.2 hname
      rw [Scopes.declare?_of_free hfree, ← Scopes.declare_of_free hfree]
      obtain ⟨hiff, hend⟩ := declareParameters_decides parameters (p.declare x.name true) _
        (hs.declare hp hname x.type true)
        (hp.declare hname (fun hmem ↦ hfunction (hp.reached_subset hsees hmem)) true)
        (hsees.declare hname hfunction true)
      rw [Point.names_declare, ← List.append_cons] at hiff
      refine ⟨hiff.trans (and_congr_left' ?_), hend⟩
      exact ⟨fun h ↦ List.forall_mem_cons.2 ⟨hfunction, h⟩, fun h ↦ (List.forall_mem_cons.1 h).2⟩

theorem enterFunction_eq {head : Declarator} {parameters : List Declarator} {s : State}
    (h : s.pending = []) :
    enterFunction head parameters s =
      .file .name (declareParameters parameters (s.scopes.push (some head.type))).2
        { scopes := (declareParameters parameters
            (s.scopes.push (some head.type))).1.markInitialized head.name } := by
  simp [enterFunction, h]

/-- The check of a function decides the rules for its parameters and its body. -/
theorem checkFunction_decides (span : Span) {head : Declarator} (parameters : List Declarator)
    {body : List Stmt} {s : State} {i : Nat} (hbody : Stmt.AllPlain body)
    (hs : Follows s.scopes p) (hpending : s.pending = []) (hp : p.WellFormed reached)
    (hsees : p.Sees functions) (hname : p.bindings head.name = some (.fn i)) :
    ((checkStmt (.function span head parameters body) s).findings = [] ↔
      OrderlyFunction functions reached p.given p.bindings p.next head parameters body) ∧
      ((checkStmt (.function span head parameters body) s).findings = [] →
        (p.afterFunction parameters i body).WellFormed (head.name :: reached) ∧
          Follows (checkStmt (.function span head parameters body) s).state.scopes
            (p.afterFunction parameters i body) ∧
          (checkStmt (.function span head parameters body) s).state.pending = []) := by
  obtain ⟨hiff, hfollows⟩ := declareParameters_decides parameters p.enter _
    (hs.push (some head.type)) hp.enter hsees
  rw [checkStmt, Pass.findings_map, Pass.findings_andThen_eq_nil, enterFunction_eq hpending,
    Pass.findings_file_eq_nil]
  generalize declareParameters parameters (s.scopes.push (some head.type)) = d at hiff hfollows ⊢
  obtain ⟨scopes, complaints⟩ := d
  by_cases hparameters : complaints = []
  · obtain ⟨hapart, hnodup⟩ := hiff.1 hparameters
    obtain ⟨hwf, hbound, hinside⟩ := hp.inFunction hsees hname hapart hnodup
    have hlocal : (p.inFunction parameters i).Local := (Point.Local.enter p).declareAll parameters
    have hstart : Follows (scopes.markInitialized head.name) (p.inFunction parameters i) :=
      (hfollows hparameters).give hwf hbound
    obtain ⟨hiffBody, hend⟩ := checkAll_decides body _ hbody hinside hlocal
      (State.mk (scopes.markInitialized head.name) []) hstart
    have horderly : OrderlyFunction functions reached p.given p.bindings p.next head parameters
        body ↔ Orderly (head.name :: reached) (p.inFunction parameters i).names
          (p.inFunction parameters i).given (Stmt.outlineAll body
            (p.inFunction parameters i).bindings (p.inFunction parameters i).next) := by
      rw [Point.names_inFunction, Point.bindings_inFunction hnodup, Point.next_inFunction]
      exact ⟨fun h ↦ h.inside.congr fun k ↦ (Point.given_inFunction_var k).symm,
        fun h ↦ ⟨hapart, h.congr Point.given_inFunction_var⟩⟩
    rw [horderly, ← hiffBody]
    refine ⟨⟨And.right, fun h ↦ ⟨hparameters, h⟩⟩, fun ⟨_, h⟩ ↦ ?_⟩
    obtain ⟨hfollowsEnd, hpendingEnd⟩ := hend h
    have houter : ((p.inFunction parameters i).afterAll body).outer = p.stack :=
      Point.outer_inFunction (i := i)
    exact ⟨hp.afterFunction hname hinside hbody (hiffBody.1 h).allowed.resolved,
      hfollowsEnd.pop houter rfl, hpendingEnd⟩
  · refine ⟨⟨fun h ↦ absurd h.1 hparameters, fun h ↦ ?_⟩, fun h ↦ absurd h.1 hparameters⟩
    exact absurd (hiff.2 ⟨h.apart, h.inside.distinct.of_append_left⟩) hparameters

/-! ### Programs -/

/-- A global variable whose name is taken is reported, if not at once then when the function with
its name is reached. -/
theorem checkVariable_reported (span : Span) {head : Declarator} (initial : Option Expr)
    {program : List Stmt} {s : State} (hplain : Unnested program)
    (hdecl : ∀ stmt ∈ program, stmt.IsDeclaration) (hs : Follows s.scopes p) (houter : p.outer = [])
    (hp : p.WellFormed reached) (hsees : p.Sees functions)
    (hfunctions : ∀ name, name ∈ functions ↔ name ∈ reached ∨ name ∈ functionNames program)
    (hname : head.name ∈ p.names) :
    (checkAll (.var span head initial :: program) s).findings ≠ [] := by
  intro h
  rw [checkAll, checkStmt] at h
  obtain ⟨hfirst, hrest⟩ := Pass.findings_andThen_eq_nil.1 h
  obtain ⟨-, hdeclared⟩ := checkVariable_cases hfirst
  rcases declareVariable_cases hdeclared with ⟨hfree, -⟩ | ⟨i, hi, hkind, hinitialized, hstate⟩
  · exact hs.lookupHere_eq_none.1 hfree hname
  · -- The name is that of a function further down, which is where it is reported.
    have hlookup := hs.lookupHere head.name
    rw [hi, ← Point.bindings_eq_lookup houter] at hlookup
    obtain ⟨site, hsite, hstatus⟩ := Option.map_eq_some_iff.1 hlookup.symm
    obtain ⟨hsiteKind, hgiven⟩ := Prod.mk.inj hstatus
    obtain ⟨j, rfl⟩ : ∃ j, site = .fn j := by
      cases site with
      | fn j => exact ⟨j, rfl⟩
      | var k => cases hsiteKind.trans hkind
    have hmem : head.name ∈ functionNames program := by
      refine ((hfunctions head.name).1 ((hsees head.name).2 ⟨j, hsite⟩)).resolve_left ?_
      intro hreached
      obtain ⟨j', hj', hgiven'⟩ := (hp.reached_iff head.name).1 hreached
      cases hsite.symm.trans hj'
      rw [hgiven, hinitialized] at hgiven'
      cases hgiven'
    have hpending : head.name ∈ (checkVariable head initial s).state.pending := by
      rw [hstate]
      exact List.mem_cons_self
    have hkinds : (checkVariable head initial s).state.scopes.kinds =
        [p.scope.map fun b ↦ (b.1, b.2.kind)] := by
      rw [hstate]
      exact hs.kinds.trans (by rw [Point.stack, houter]; rfl)
    refine pending_reported program _ _ hplain hdecl hkinds (fun f hf ↦ ?_) hpending hmem hrest
    obtain ⟨l, hl⟩ := (hsees f).1 ((hfunctions f).2 (.inr hf))
    rw [lookup_map_snd, ← Point.bindings_eq_lookup houter, hl]
    rfl

/-- The check of the rest of a program decides whether it keeps to the rules. -/
theorem checkProgram_decides : ∀ (program : List Stmt) (p : Point) (reached : List String)
    (s : State), Unnested program → (∀ stmt ∈ program, stmt.IsDeclaration) →
    Follows s.scopes p → s.pending = [] → p.outer = [] → p.WellFormed reached →
    p.Sees functions →
    (∀ name, name ∈ functions ↔ name ∈ reached ∨ name ∈ functionNames program) →
      ((checkAll program s).findings = [] ↔
        OrderlyProgram functions reached p.names p.given p.bindings p.next program)
  | [], p, _, _, _, _, _, _, _, hp, _, _ =>
    ⟨fun _ ↦ orderlyProgram_nil hp.nodup_names, fun _ ↦ rfl⟩
  | stmt :: program, p, reached, s, hplain, hdecl, hs, hpending, houter, hp, hsees, hfunctions => by
    obtain ⟨hplainFirst, hplainRest⟩ := List.forall_mem_cons.1 hplain
    obtain ⟨hdeclFirst, hdeclRest⟩ := List.forall_mem_cons.1 hdecl
    cases stmt with
    | function span head parameters body =>
      have hmem : head.name ∈ functions := (hfunctions head.name).2 (.inr List.mem_cons_self)
      obtain ⟨i, hname⟩ := (hsees head.name).1 hmem
      obtain ⟨hiff, hend⟩ := checkFunction_decides span parameters hplainFirst hs hpending hp hsees
        hname
      rw [checkAll, Pass.findings_andThen_eq_nil, orderlyProgram_function, ← hiff]
      refine and_congr_right fun hfirst ↦ ?_
      obtain ⟨hp', hs', hpending'⟩ := hend hfirst
      have hfunctions' : ∀ name, name ∈ functions ↔
          name ∈ head.name :: reached ∨ name ∈ functionNames program := by
        intro name
        rw [hfunctions name, functionNames_cons_function, List.mem_cons, List.mem_cons,
          or_left_comm, or_assoc]
      have hnodup := (hiff.1 hfirst).inside.distinct.of_append_left
      have hgiven : ∀ k, (p.afterFunction parameters i body).given (.var k) = _ :=
        Point.given_afterFunction_var hnodup span head
      rw [checkProgram_decides program (p.afterFunction parameters i body) (head.name :: reached) _
        hplainRest hdeclRest hs' hpending' houter hp' hsees hfunctions',
        Point.next_afterFunction span head]
      exact ⟨fun h ↦ h.congr hgiven, fun h ↦ h.congr fun k ↦ (hgiven k).symm⟩
    | var span head initial =>
      by_cases hname : head.name ∈ p.names
      · have hreported := checkVariable_reported span initial hplainRest hdeclRest hs houter hp
          hsees hfunctions hname
        refine ⟨fun h ↦ absurd h hreported, fun h ↦ ?_⟩
        exact absurd hname (Point.notMem_names h.distinct List.mem_cons_self)
      · have hnot : head.name ∉ functions := hsees.notMem houter hname
        have hreached : head.name ∉ reached := fun hmem ↦ hnot (hp.reached_subset hsees hmem)
        have hdeclared := declareVariable_free hs hp hname hreached initial.isSome
        have hstate : (checkVariable head initial s).state = _ := congrArg Prod.fst hdeclared
        have ih := checkProgram_decides program (p.declare head.name initial.isSome) reached
          { s with
            scopes := s.scopes.declare head.name
              { type := head.type, initialized := initial.isSome } }
          hplainRest hdeclRest (hs.declare hp hname head.type _) hpending houter
          (hp.declare hname hreached _) (hsees.declare hname hnot _) hfunctions
        rw [Point.names_declare, Point.bindings_declare hname] at ih
        rw [checkAll, checkStmt, Pass.findings_andThen_eq_nil, orderlyProgram_var,
          findings_checkVariable, optionComplaints_eq_nil hs, hstate, hdeclared]
        exact and_congr (and_iff_left rfl) ih
    | _ => exact hdeclFirst.elim

end Names

/-! ### The beginning of a program -/

namespace Point

/-- The beginning of a program, where all functions are visible. -/
def start (program : List Stmt) : Point where
  scope := (functionNames program).zipIdx.map fun b ↦ (b.1, .fn b.2)
  outer := []
  next := 0
  given := fun _ ↦ false

theorem lookup_zipIdx (names : List String) (j : Nat) (name : String) :
    ((names.zipIdx j).map fun b ↦ (b.1, Site.fn b.2)).lookup name =
      (names.idxOf? name).map fun i ↦ .fn (i + j) := by
  induction names generalizing j with
  | nil => rfl
  | cons n names ih =>
    rw [List.zipIdx_cons, List.map_cons, List.lookup_cons, List.idxOf?_cons, ih]
    by_cases hname : name = n
    · subst hname
      simp
    · rw [beq_false_of_ne hname]
      simp [Ne.symm hname, Function.comp_def, Nat.add_assoc, Nat.add_comm 1 j]

variable {program : List Stmt}

theorem names_start : (start program).names = functionNames program := by
  rw [names, start, List.map_map]
  exact List.zipIdx_map_fst 0 _

theorem bindings_start : (start program).bindings = .ofFunctions program := by
  funext name
  rw [bindings_eq_lookup rfl]
  exact lookup_zipIdx (functionNames program) 0 name

theorem sees_start : (start program).Sees (functionNames program) := by
  intro name
  rw [bindings_start, Bindings.ofFunctions, ← List.isSome_idxOf?]
  cases (functionNames program).idxOf? name <;> simp

theorem wellFormed_start (h : (functionNames program).Nodup) : (start program).WellFormed [] where
  names_nodup := by
    refine List.forall_mem_singleton.2 ?_
    show (start program).names.Nodup
    rwa [names_start]
  sites_nodup := by
    have hsites : (start program).stack.flatten.map Prod.snd =
        ((functionNames program).zipIdx.map Prod.snd).map Site.fn := by
      show List.map Prod.snd (List.flatten [_]) = _
      rw [List.flatten_singleton, start, List.map_map, List.map_map]
      rfl
    rw [hsites, List.zipIdx_map_snd]
    exact List.Nodup.map (fun _ _ ↦ Site.fn.inj) List.nodup_range'
  used b hb j hj := by
    obtain ⟨c, -, rfl⟩ := List.mem_map.1 (List.flatten_singleton ▸ hb)
    cases hj
  unvalued _ _ := rfl
  reached_iff name := ⟨nofun, fun ⟨_, _, h⟩ ↦ nomatch h⟩

end Point

theorem follows_start (program : List Stmt) :
    Follows { current := { bindings := Declarations.bindings program } } (.start program) := by
  have hcheck : (Declarations.bindings program).map (fun b ↦ (b.1, b.2.status)) =
      (functionNames program).map fun name ↦ (name, IdentifierKind.fn, false) := by
    rw [Declarations.bindings, functionNames, List.map_map, List.map_map]
    rfl
  have hrules : (Point.start program).scope.map (fun b ↦ (b.1, b.2.status fun _ ↦ false)) =
      (functionNames program).map fun name ↦ (name, IdentifierKind.fn, false) := by
    rw [← List.zipIdx_map_fst 0 (functionNames program), Point.start, List.map_map, List.map_map]
    rfl
  exact congrArg (fun scope ↦ [scope]) (hcheck.trans hrules.symm)

/-- The rules for names, taken up at the beginning of a program. -/
theorem wellNamed_iff {program : List Stmt} (h : (functionNames program).Nodup) :
    WellNamed program ↔ OrderlyProgram (functionNames program) [] (functionNames program)
      (fun _ ↦ false) (.ofFunctions program) 0 program := by
  have hvalued : ∀ before k, Given.after (fun _ ↦ false) before (.var k) = true ↔
      ∃ event ∈ before, event.given? = some (.var k) := by
    intro before k
    rw [Given.after_eq_true]
    exact or_iff_right nofun
  constructor
  · rintro ⟨hresolved, hgiven, hdistinct, hparameters, hglobals, hlocals⟩
    obtain ⟨hglobal, hinner⟩ := List.forall_mem_cons.1 hdistinct
    refine ⟨⟨hresolved, fun before k after hsplit ↦ ?_⟩, ?_, hinner, hparameters, ?_⟩
    · exact (hvalued before k).2 (hgiven before k after hsplit)
    · exact h.append hglobal fun name hname hmem ↦ hglobals name hmem hname
    · intro before span head parameters body after hsplit name hname
      exact ⟨List.not_mem_nil, hlocals before span head parameters body after hsplit name hname⟩
  · rintro ⟨⟨hresolved, hgiven⟩, hdistinct, hinner, hparameters, hlocals⟩
    refine ⟨hresolved, fun before k after hsplit ↦ ?_,
      List.forall_mem_cons.2 ⟨hdistinct.of_append_right, hinner⟩, hparameters, ?_, ?_⟩
    · exact (hvalued before k).1 (hgiven before k after hsplit)
    · intro name hname hmem
      exact List.disjoint_of_nodup_append hdistinct hmem hname
    · intro before span head parameters body after hsplit name hname
      exact (hlocals before span head parameters body after hsplit name hname).2

/-- The check of names finds nothing in a program exactly if the program keeps to the rules. -/
theorem nameCheck_decides {entry : String} {tokens : List Token} {program : List Stmt}
    (hparse : parse tokens = .ok program)
    (hdeclarations : (Declarations.check entry program {}).findings = []) :
    (Names.checkAll program
        { scopes := (Declarations.check entry program {}).state }).findings = [] ↔
      WellNamed program := by
  obtain ⟨hdecl, hnodup, -, hstate⟩ := Declarations.check_cases hdeclarations
  rw [hstate, wellNamed_iff hnodup]
  have hdecides := Names.checkProgram_decides program (.start program) []
    { scopes := { current := { bindings := Declarations.bindings program } } }
    (parse_grammatical hparse).unnested hdecl (follows_start program) rfl rfl
    (Point.wellFormed_start hnodup) Point.sees_start (fun name ↦ by simp)
  rw [Point.names_start, Point.bindings_start] at hdecides
  exact hdecides

theorem nameCheck_decides_sample :
    parse Sample.tokens = .ok Sample.program ∧
      (Declarations.check "main" Sample.program {}).findings = [] ∧ WellNamed Sample.program := by
  have hdeclarations : (Declarations.check "main" Sample.program {}).findings = [] := by cbv
  have hnames : (Names.checkAll Sample.program
      { scopes := (Declarations.check "main" Sample.program {}).state }).findings = [] := by cbv
  exact ⟨Sample.parse_tokens, hdeclarations,
    (nameCheck_decides Sample.parse_tokens hdeclarations).1 hnames⟩

end ScalarMips
