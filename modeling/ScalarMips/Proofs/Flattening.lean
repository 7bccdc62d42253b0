import ScalarMips.Proofs.FreshNames
import ScalarMips.Proofs.Grammatical
import ScalarMips.Proofs.NameCheck

/-!
# Renaming captures nothing

What the renaming does to a program that the checks accept. That only names change and that new
names are distinct is known already. What is left is that a use carries the name of its declaration
(`references_renameAll`): the scopes of the walk say of every visible name what lexical scoping says
(`Agrees`).

This is where the checks are needed. A declaration of a name that its scope already has would change
nothing in the scopes of the walk, and hide the earlier one for the rules of scoping.

Functions have to stand at the top level. The parser leaves them nowhere else, so nothing more is
asked of a program that was parsed (`captureFree_of_parse`).
-/

namespace ScalarMips

namespace Renaming

/-! ### The scopes of the walk -/

theorem outer_bind (entry : String) (kind : IdentifierKind) (name : String) (s : State) :
    (bind entry kind name s).2.scopes.outer = s.scopes.outer :=
  Scopes.outer_declare s.scopes name _

theorem outer_bindParameters (entry : String) : ∀ (parameters : List Declarator) (s : State),
    (bindParameters entry parameters s).2.scopes.outer = s.scopes.outer
  | [], _ => rfl
  | p :: parameters, s =>
    (outer_bindParameters entry parameters _).trans (outer_bind entry .var p.name s)

/-- The scopes after a statement; only a variable declaration leaves something behind. -/
def scopesAfter (entry : String) (s : State) : Stmt → Scopes
  | .var _ head _ => (bind entry .var head.name s).2.scopes
  | _ => s.scopes

theorem outer_scopesAfter (entry : String) (s : State) (stmt : Stmt) :
    (scopesAfter entry s stmt).outer = s.scopes.outer := by
  cases stmt with
  | var span head initial => exact outer_bind entry .var head.name s
  | _ => rfl

/-- The scopes after a branch, which has a scope of its own. -/
theorem scopes_branch {entry : String} {branch : Stmt} {s : State}
    (h : (renameStmt entry branch s.push).2.scopes = scopesAfter entry s.push branch) :
    (renameStmt entry branch s.push).2.pop.scopes = s.scopes := by
  refine Scopes.pop_eq_of_outer ?_
  rw [h, outer_scopesAfter]
  rfl

mutual

theorem scopes_renameStmt (entry : String) : ∀ (stmt : Stmt) (s : State),
    (renameStmt entry stmt s).2.scopes = scopesAfter entry s stmt
  | .block _ body, s => Scopes.pop_eq_of_outer (outer_renameAll entry body s.push)
  | .function _ head parameters body, s => by
    refine Scopes.pop_eq_of_outer ((outer_renameAll entry body _).trans ?_)
    exact outer_bindParameters entry parameters (s.push (some head.type))
  | .var .., _ => rfl
  | .assign .., _ => rfl
  | .conditional _ _ thenBranch none, s => scopes_branch (scopes_renameStmt entry thenBranch s.push)
  | .conditional _ _ thenBranch (some elseBranch), s => by
    have hthen := scopes_branch (scopes_renameStmt entry thenBranch s.push)
    have helse := scopes_branch
      (scopes_renameStmt entry elseBranch (renameStmt entry thenBranch s.push).2.pop.push)
    exact helse.trans hthen
  | .loop _ _ body, s => scopes_branch (scopes_renameStmt entry body s.push)
  | .evaluate .., _ => rfl
  | .return_ .., _ => rfl
  | .print .., _ => rfl

theorem outer_renameAll (entry : String) : ∀ (stmts : List Stmt) (s : State),
    (renameAll entry stmts s).2.scopes.outer = s.scopes.outer
  | [], _ => rfl
  | stmt :: stmts, s => by
    refine (outer_renameAll entry stmts _).trans ?_
    rw [scopes_renameStmt entry stmt s]
    exact outer_scopesAfter entry s stmt

end

theorem kinds_bind (entry : String) (kind : IdentifierKind) {name : String} {s : State}
    (h : s.scopes.kinds.here? name = none) :
    (bind entry kind name s).2.scopes.kinds = s.scopes.kinds.declare name kind :=
  Scopes.kinds_declare h _

theorem kinds_renameStmt {entry : String} {stmt : Stmt} {s : State}
    (h : stmt.Scoped s.scopes.kinds) :
    (renameStmt entry stmt s).2.scopes.kinds = s.scopes.kinds.after stmt := by
  rw [scopes_renameStmt]
  cases stmt with
  | var span head initial => exact kinds_bind entry .var h.2
  | _ => rfl

theorem kinds_bindParameters (entry : String) : ∀ (parameters : List Declarator) (s : State),
    ParametersScoped parameters s.scopes.kinds →
      (bindParameters entry parameters s).2.scopes.kinds =
        s.scopes.kinds.declareAll parameters
  | [], _, _ => rfl
  | p :: parameters, s, h => by
    have hfirst := kinds_bind entry .var h.1
    have hrest := h.2
    rw [← hfirst] at hrest
    refine (kinds_bindParameters entry parameters _ hrest).trans ?_
    rw [hfirst]
    rfl

/-! ### The scopes of the walk agree with lexical scoping -/

/-- A naming `ν` of sites gives every visible name of the walk the unique name it has there. -/
def Agrees (ν : Site → Option String) (scopes : Scopes) (β : Bindings) : Prop :=
  ∀ name, (scopes.lookup name).map Identifier.uniqueName = (β name).bind ν

/-- A naming of sites gives the variables from site `k` on the names of a list. -/
def Lists (ν : Site → Option String) (k : Nat) (names : List String) : Prop :=
  ∀ i u, names[i]? = some u → ν (.var (k + i)) = some u

variable {ν : Site → Option String} {β : Bindings} {k : Nat}

theorem Lists.head {name : String} {names : List String} (h : Lists ν k (name :: names)) :
    ν (.var k) = some name :=
  h 0 name rfl

theorem Lists.append (first : List String) {second : List String}
    (h : Lists ν k (first ++ second)) :
    Lists ν k first ∧ Lists ν (k + first.length) second := by
  refine ⟨fun i u hu ↦ ?_, fun i u hu ↦ ?_⟩
  · have hlt := (List.getElem?_eq_some_iff.1 hu).1
    exact h i u (by rw [List.getElem?_append_left hlt, hu])
  · have hsum : first.length + i - first.length = i := by omega
    have hlist := h (first.length + i) u (by
      rw [List.getElem?_append_right (by omega), hsum, hu])
    rwa [← Nat.add_assoc] at hlist

/-- A declaration that binds its name keeps the agreement. -/
theorem Agrees.bind {entry name : String} {s : State} (h : Agrees ν s.scopes β)
    (hfree : s.scopes.kinds.here? name = none)
    (hν : ν (.var k) = some (Renaming.bind entry .var name s).1) :
    Agrees ν (Renaming.bind entry .var name s).2.scopes (β.bind name (.var k)) := by
  rw [bind_var] at hν ⊢
  intro n
  rw [Scopes.lookup_declare (Scopes.lookupHere_eq_none_iff.2 hfree)]
  show _ = Option.bind (if n = name then _ else _) ν
  split
  · exact hν.symm
  · exact h n

theorem Agrees.bindParameters {entry : String} : ∀ (parameters : List Declarator) (s : State)
    (β : Bindings) (k : Nat), ParametersScoped parameters s.scopes.kinds → Agrees ν s.scopes β →
      Lists ν k ((Renaming.bindParameters entry parameters s).1.map Declarator.name) →
      Agrees ν (Renaming.bindParameters entry parameters s).2.scopes (β.bindAll k parameters)
  | [], _, _, _, _, h, _ => h
  | p :: parameters, s, β, k, hscoped, h, hν => by
    obtain ⟨hfirst, hrest⟩ := Lists.append [_] hν
    have hbound := Agrees.bind h hscoped.1 hfirst.head
    have hscopedRest := hscoped.2
    rw [← kinds_bind entry .var hscoped.1] at hscopedRest
    exact Agrees.bindParameters parameters _ _ (k + 1) hscopedRest hbound hrest

theorem Agrees.after {entry : String} {stmt : Stmt} {s : State} (h : Agrees ν s.scopes β)
    (hscoped : stmt.Scoped s.scopes.kinds)
    (hν : Lists ν k (renameStmt entry stmt s).1.variables) :
    Agrees ν (renameStmt entry stmt s).2.scopes (β.after k stmt) := by
  rw [scopes_renameStmt]
  cases stmt with
  | var span head initial => exact h.bind hscoped.2 hν.head
  | _ => exact h

/-! ### Uses -/

mutual

theorem references_renameExpr (scopes : Scopes) : ∀ e : Expr,
    (renameExpr scopes e).references = e.references.map (rename scopes)
  | .literal .. => rfl
  | .var .. => rfl
  | .unary _ _ operand => references_renameExpr scopes operand
  | .binary _ _ left right => by
    rw [renameExpr, Expr.references, references_renameExpr scopes left,
      references_renameExpr scopes right, Expr.references, List.map_append]
  | .call _ name arguments =>
    congrArg (rename scopes name :: ·) (references_renameExprs scopes arguments)

theorem references_renameExprs (scopes : Scopes) : ∀ es : List Expr,
    Expr.referencesAll (renameExprs scopes es) = (Expr.referencesAll es).map (rename scopes)
  | [] => rfl
  | e :: es => by
    rw [renameExprs, Expr.referencesAll, references_renameExpr scopes e,
      references_renameExprs scopes es, Expr.referencesAll, List.map_append]

end

end Renaming

mutual

/-- Every name used in a scoped expression is declared. -/
theorem Expr.Scoped.isSome_kind? {v : Kinds} : ∀ {e : Expr}, e.Scoped v →
    ∀ name ∈ e.references, (v.kind? name).isSome
  | .literal .., _, _, hname => absurd hname List.not_mem_nil
  | .var .., h, name, hname => by
    obtain rfl := List.mem_singleton.1 hname
    rw [show v.kind? name = some .var from h]
    rfl
  | .unary _ _ operand, h, name, hname => Expr.Scoped.isSome_kind? (e := operand) h name hname
  | .binary .., h, name, hname => by
    rcases List.mem_append.1 hname with hname | hname
    · exact h.1.isSome_kind? name hname
    · exact h.2.isSome_kind? name hname
  | .call .., h, name, hname => by
    rcases List.mem_cons.1 hname with rfl | hname
    · rw [h.1]
      rfl
    · exact h.2.isSome_kind? name hname

theorem Expr.AllScoped.isSome_kind? {v : Kinds} : ∀ {es : List Expr}, Expr.AllScoped v es →
    ∀ name ∈ Expr.referencesAll es, (v.kind? name).isSome
  | [], _, _, hname => absurd hname List.not_mem_nil
  | _ :: _, h, name, hname => by
    rcases List.mem_append.1 hname with hname | hname
    · exact h.1.isSome_kind? name hname
    · exact h.2.isSome_kind? name hname

end

namespace Renaming

variable {ν : Site → Option String} {β : Bindings} {k : Nat}

/-- A name that is declared is renamed to the name of the site it means. -/
theorem Agrees.rename {scopes : Scopes} (h : Agrees ν scopes β) {name : String}
    (hname : (scopes.kinds.kind? name).isSome) :
    some (Renaming.rename scopes name) = (β name).bind ν := by
  rw [Scopes.kinds_kind?, Option.isSome_map] at hname
  obtain ⟨i, hi⟩ := Option.isSome_iff_exists.1 hname
  rw [← h name, Renaming.rename, hi]
  rfl

theorem Agrees.references {scopes : Scopes} (h : Agrees ν scopes β) {e : Expr}
    (hscoped : e.Scoped scopes.kinds) :
    (renameExpr scopes e).references.map some = (e.references.map β).map (Option.bind · ν) := by
  rw [references_renameExpr, List.map_map, List.map_map]
  exact List.map_congr_left fun name hname ↦ h.rename (hscoped.isSome_kind? name hname)

theorem Agrees.optionReferences {scopes : Scopes} (h : Agrees ν scopes β) {value : Option Expr}
    (hscoped : Expr.OptionScoped scopes.kinds value) :
    (Expr.optionReferences (value.map (renameExpr scopes))).map some =
      ((Expr.optionReferences value).map β).map (Option.bind · ν) := by
  cases value with
  | none => rfl
  | some e => exact h.references hscoped

mutual

/-- In a renamed statement every use carries the name of the site it means. -/
theorem references_renameStmt (entry : String) : ∀ (stmt : Stmt) (s : State) (β : Bindings)
    (k : Nat), stmt.Scoped s.scopes.kinds → Agrees ν s.scopes β →
    Lists ν k (renameStmt entry stmt s).1.variables →
      (renameStmt entry stmt s).1.references.map some =
        (stmt.resolve β k).map (Option.bind · ν)
  | .block _ body, s, β, k, hscoped, h, hν =>
    references_renameAll entry body s.push β k hscoped h hν
  | .function .., _, _, _, hscoped, _, _ => hscoped.elim
  | .var .., s, β, k, hscoped, h, _ => h.optionReferences hscoped.1
  | .assign _ name target value, s, β, k, hscoped, h, _ => by
    have hname : (s.scopes.kinds.kind? name).isSome := Option.isSome_iff_exists.2 ⟨_, hscoped.1⟩
    rw [renameStmt, Stmt.references, Stmt.resolve, List.map_cons, List.map_cons,
      h.rename hname, h.references hscoped.2]
  | .conditional _ condition thenBranch none, s, β, k, hscoped, h, hν => by
    have hthen := references_renameStmt entry thenBranch s.push β k hscoped.2 h hν
    show List.map some ((renameExpr s.scopes condition).references ++ Stmt.references _) = _
    rw [Stmt.resolve, List.map_append, List.map_append, h.references hscoped.1, hthen]
  | .conditional _ condition thenBranch (some elseBranch), s, β, k, hscoped, h, hν => by
    obtain ⟨hνThen, hνElse⟩ := Lists.append (Stmt.variables _) hν
    rw [length_variables_renameStmt] at hνElse
    have hthen := references_renameStmt entry thenBranch s.push β k hscoped.2.1 h hνThen
    -- The else branch starts in the scopes in which the conditional statement stands.
    have hback := scopes_branch (scopes_renameStmt entry thenBranch s.push)
    have helse := references_renameStmt entry elseBranch
      (renameStmt entry thenBranch s.push).2.pop.push β (k + thenBranch.variables.length)
      (by rw [State.push, hback]; exact hscoped.2.2) (by rw [State.push, hback]; exact h) hνElse
    show List.map some ((renameExpr s.scopes condition).references ++ Stmt.references _ ++
      Stmt.references _) = _
    rw [Stmt.resolve, List.map_append, List.map_append, List.map_append, List.map_append,
      h.references hscoped.1, hthen, helse]
  | .loop _ condition body, s, β, k, hscoped, h, hν => by
    have hbody := references_renameStmt entry body s.push β k hscoped.2 h hν
    show List.map some ((renameExpr s.scopes condition).references ++ Stmt.references _) = _
    rw [Stmt.resolve, List.map_append, List.map_append, h.references hscoped.1, hbody]
  | .evaluate .., s, β, k, hscoped, h, _ => h.references hscoped
  | .return_ .., s, β, k, hscoped, h, _ => h.references hscoped
  | .print .., s, β, k, hscoped, h, _ => h.optionReferences hscoped

/-- In renamed statements every use carries the name of the site it means. -/
theorem references_renameAll (entry : String) : ∀ (stmts : List Stmt) (s : State) (β : Bindings)
    (k : Nat), Stmt.AllScoped stmts s.scopes.kinds → Agrees ν s.scopes β →
    Lists ν k (Stmt.variablesAll (renameAll entry stmts s).1) →
      (Stmt.referencesAll (renameAll entry stmts s).1).map some =
        (Stmt.resolveAll stmts β k).map (Option.bind · ν)
  | [], _, _, _, _, _, _ => rfl
  | stmt :: stmts, s, β, k, hscoped, h, hν => by
    obtain ⟨hνFirst, hνRest⟩ := Lists.append (Stmt.variables _) hν
    rw [length_variables_renameStmt] at hνRest
    have hfirst := references_renameStmt entry stmt s β k hscoped.1 h hνFirst
    have hrest := references_renameAll entry stmts (renameStmt entry stmt s).2 (β.after k stmt)
      (k + stmt.variables.length) (by rw [kinds_renameStmt hscoped.1]; exact hscoped.2)
      (h.after hscoped.1 hνFirst) hνRest
    show List.map some (Stmt.references _ ++ Stmt.referencesAll _) = _
    rw [Stmt.resolveAll, List.map_append, List.map_append, hfirst, hrest]

end

/-! ### Programs -/

/-- In a renamed program every use carries the name of the site it means. -/
theorem references_program (entry : String) : ∀ (program : List Stmt) (s : State) (β : Bindings)
    (k : Nat), ProgramScoped program s.scopes.kinds → Agrees ν s.scopes β →
    Lists ν k (Stmt.variablesAll (renameAll entry program s).1) →
      (Stmt.referencesAll (renameAll entry program s).1).map some =
        (Stmt.resolveAll program β k).map (Option.bind · ν)
  | [], _, _, _, _, _, _ => rfl
  | stmt :: program, s, β, k, hscoped, h, hν => by
    obtain ⟨hνFirst, hνRest⟩ := Lists.append (Stmt.variables _) hν
    rw [length_variables_renameStmt] at hνRest
    show List.map some (Stmt.references _ ++ Stmt.referencesAll _) = _
    rw [Stmt.resolveAll, List.map_append, List.map_append]
    cases stmt with
    | function span head parameters body =>
      obtain ⟨⟨hparameters, hbody⟩, hprogram⟩ := hscoped
      obtain ⟨hνParameters, hνBody⟩ := Lists.append (List.map _ _) hνFirst
      have hlength : ((bindParameters entry parameters (s.push (some head.type))).1.map
          Declarator.name).length = parameters.length := by
        have hunnamed :=
          congrArg List.length (unnamed_bindParameters entry parameters (s.push (some head.type)))
        simpa using hunnamed
      rw [hlength] at hνBody
      have hkinds := kinds_bindParameters entry parameters (s.push (some head.type))
        hparameters
      have hfirst := references_renameAll entry body _ _ (k + parameters.length)
        (by rw [hkinds]; exact hbody)
        (Agrees.bindParameters parameters (s.push (some head.type)) β k hparameters h hνParameters)
        hνBody
      have hback := scopes_renameStmt entry (.function span head parameters body) s
      have hrest := references_program entry program _ β _ (by rw [hback]; exact hprogram)
        (by rw [hback]; exact h) hνRest
      rw [hrest]
      exact congrArg (· ++ _) hfirst
    | var span head initial =>
      obtain ⟨hvar, hprogram⟩ := hscoped
      have hscopedVar : (Stmt.var span head initial).Scoped s.scopes.kinds := hvar
      have hfirst := references_renameStmt entry (.var span head initial) s β k hscopedVar h hνFirst
      have hrest := references_program entry program _ (β.after k (.var span head initial)) _
        (by rw [kinds_renameStmt hscopedVar]; exact hprogram) (h.after hscopedVar hνFirst) hνRest
      rw [hfirst, hrest]
    | _ => exact hscoped.elim

/-! ### Functions -/

/-- The state after functions of the given names have been bound. -/
def bindNames (entry : String) (names : List String) (s : State) : State :=
  names.foldl (fun s name ↦ (bind entry .fn name s).2) s

theorem bindFunctions_eq (entry : String) : ∀ (program : List Stmt) (s : State),
    bindFunctions entry program s = bindNames entry (functionNames program) s
  | [], _ => rfl
  | stmt :: program, s => by
    cases stmt with
    | function span head parameters body => exact bindFunctions_eq entry program _
    | _ => exact bindFunctions_eq entry program s

theorem lookup_bind_fn {entry name : String} {s : State}
    (hfree : s.scopes.kinds.here? name = none) (m : String) :
    ((bind entry .fn name s).2.scopes.lookup m).map Identifier.uniqueName =
      if m = name then some (bind entry .fn name s).1
      else (s.scopes.lookup m).map Identifier.uniqueName := by
  show Option.map _ ((s.scopes.declare name _).lookup m) = _
  rw [Scopes.lookup_declare (Scopes.lookupHere_eq_none_iff.2 hfree)]
  split <;> rfl

/-- The entry point keeps its name, and every other function gets a new one. -/
theorem bind_fn_spec (entry name : String) (s : State) :
    s.counter ≤ (bind entry .fn name s).2.counter ∧
      ((bind entry .fn name s).1 = entry ↔ name = entry) ∧
      (name ≠ entry → ∃ n, (bind entry .fn name s).1 = numbered name n ∧ s.counter ≤ n ∧
        n < (bind entry .fn name s).2.counter) := by
  by_cases hname : name = entry
  · have hbind : (bind entry .fn name s).1 = name ∧
        (bind entry .fn name s).2.counter = s.counter := by
      simp [bind, hname]
    rw [hbind.1, hbind.2]
    exact ⟨Nat.le_refl _, Iff.rfl, fun hne ↦ absurd hname hne⟩
  · have hbind : (bind entry .fn name s).1 = (fresh entry name s.counter).1 ∧
        (bind entry .fn name s).2.counter = (fresh entry name s.counter).2 := by
      simp [bind, hname]
    obtain ⟨hentry, n, hn, hle, hlt⟩ := fresh_spec entry name s.counter
    rw [hbind.1, hbind.2]
    exact ⟨by omega, ⟨fun h ↦ absurd h hentry, fun h ↦ absurd h hname⟩, fun _ ↦ ⟨n, hn, hle, hlt⟩⟩

/-- What functions mean once all of them are bound: names that were free before get new names, all
different, and all other names mean what they did. -/
theorem bindNames_spec (entry : String) : ∀ (names : List String) (s : State), names.Nodup →
    (∀ name ∈ names, s.scopes.kinds.here? name = none) →
      s.counter ≤ (bindNames entry names s).counter ∧
      (names.map (rename (bindNames entry names s).scopes)).Nodup ∧
      (∀ name ∈ names, (rename (bindNames entry names s).scopes name = entry ↔ name = entry) ∧
        (name ≠ entry → ∃ n, rename (bindNames entry names s).scopes name = numbered name n ∧
          s.counter ≤ n ∧ n < (bindNames entry names s).counter)) ∧
      ∀ name ∉ names, ((bindNames entry names s).scopes.lookup name).map Identifier.uniqueName =
        (s.scopes.lookup name).map Identifier.uniqueName
  | [], s, _, _ => by
    refine ⟨Nat.le_refl _, List.nodup_nil, fun _ h ↦ absurd h List.not_mem_nil, fun _ _ ↦ rfl⟩
  | f :: names, s, hnodup, hfree => by
    obtain ⟨hf, hnodup⟩ := List.nodup_cons.1 hnodup
    obtain ⟨hfirst, hfree⟩ := List.forall_mem_cons.1 hfree
    have hfree' : ∀ name ∈ names, (bind entry .fn f s).2.scopes.kinds.here? name = none := by
      intro name hname
      have hne : name ≠ f := fun h ↦ hf (h ▸ hname)
      rw [kinds_bind entry .fn hfirst, Kinds.here?_declare hfirst, if_neg hne]
      exact hfree name hname
    obtain ⟨hle, hdistinct, hnames, hothers⟩ :=
      bindNames_spec entry names (bind entry .fn f s).2 hnodup hfree'
    obtain ⟨hleFirst, hentryFirst, hnumberFirst⟩ := bind_fn_spec entry f s
    -- The later functions do not change what `f` means.
    have hrename : rename (bindNames entry (f :: names) s).scopes f = (bind entry .fn f s).1 := by
      show Option.getD (((bindNames entry names (bind entry .fn f s).2).scopes.lookup f).map
        Identifier.uniqueName) f = _
      rw [hothers f hf, lookup_bind_fn hfirst, if_pos rfl]
      rfl
    refine ⟨Nat.le_trans hleFirst hle, ?_, ?_, ?_⟩
    · rw [List.map_cons, hrename]
      refine List.nodup_cons.2 ⟨fun hmem ↦ ?_, hdistinct⟩
      obtain ⟨g, hg, heq⟩ := List.mem_map.1 hmem
      obtain ⟨hentry, hnumber⟩ := hnames g hg
      have hne : g ≠ f := fun h ↦ hf (h ▸ hg)
      by_cases hg' : g = entry
      · have hfe : f = entry := hentryFirst.1 (heq.symm.trans (hentry.2 hg'))
        exact hne (hg'.trans hfe.symm)
      · obtain ⟨n, hn, hlo, -⟩ := hnumber hg'
        have hfe : f ≠ entry := fun h ↦ hg' (hentry.1 (heq.trans (hentryFirst.2 h)))
        obtain ⟨m, hm, -, hhi⟩ := hnumberFirst hfe
        have hnumbers : n = m := eq_of_numbered (hn.symm.trans (heq.trans hm))
        omega
    · refine List.forall_mem_cons.2 ⟨?_, fun g hg ↦ ?_⟩
      · rw [hrename]
        refine ⟨hentryFirst, fun hfe ↦ ?_⟩
        obtain ⟨n, hn, hlo, hhi⟩ := hnumberFirst hfe
        exact ⟨n, hn, hlo, Nat.lt_of_lt_of_le hhi hle⟩
      · obtain ⟨hentry, hnumber⟩ := hnames g hg
        refine ⟨hentry, fun hge ↦ ?_⟩
        obtain ⟨n, hn, hlo, hhi⟩ := hnumber hge
        exact ⟨n, hn, Nat.le_trans hleFirst hlo, hhi⟩
    · intro name hname
      obtain ⟨hne, hname⟩ := not_or.1 (mt List.mem_cons.2 hname)
      refine (hothers name hname).trans ?_
      rw [lookup_bind_fn hfirst, if_neg hne]

theorem kinds_bindNames (entry : String) : ∀ (names : List String) (s : State)
    (scope : List (String × IdentifierKind)), names.Nodup → s.scopes.kinds = [scope] →
    (∀ name ∈ names, scope.lookup name = none) →
      (bindNames entry names s).scopes.kinds = [scope ++ names.map (·, .fn)]
  | [], _, scope, _, hkinds, _ => by
    rw [List.map_nil, List.append_nil]
    exact hkinds
  | f :: names, s, scope, hnodup, hkinds, hfree => by
    obtain ⟨hf, hnodup⟩ := List.nodup_cons.1 hnodup
    obtain ⟨hfirst, hfree⟩ := List.forall_mem_cons.1 hfree
    have hhere : s.scopes.kinds.here? f = none := by
      rw [hkinds]
      exact hfirst
    have hkinds' : (bind entry .fn f s).2.scopes.kinds = [scope ++ [(f, .fn)]] := by
      rw [kinds_bind entry .fn hhere, hkinds]
      rfl
    have hrest := kinds_bindNames entry names (bind entry .fn f s).2 _ hnodup hkinds' (by
      intro name hname
      have hne : name ≠ f := fun h ↦ hf (h ▸ hname)
      rw [lookup_append_of_none hfirst, if_neg hne]
      exact hfree name hname)
    refine hrest.trans ?_
    rw [List.append_assoc]
    rfl

/-- Functions are declared under the names they were bound to; no global variable hides them. -/
theorem functionNames_renameAll (entry : String) : ∀ (program : List Stmt) (s : State),
    ProgramScoped program s.scopes.kinds →
    (∀ f ∈ functionNames program, (s.scopes.kinds.here? f).isSome) →
      functionNames (renameAll entry program s).1 =
        (functionNames program).map (rename s.scopes)
  | [], _, _, _ => rfl
  | stmt :: program, s, hscoped, hbound => by
    cases stmt with
    | function span head parameters body =>
      have hback := scopes_renameStmt entry (.function span head parameters body) s
      have hrest := functionNames_renameAll entry program
        (renameStmt entry (.function span head parameters body) s).2
        (by rw [hback]; exact hscoped.2)
        (by rw [hback]; exact fun f hf ↦ hbound f (List.mem_cons_of_mem _ hf))
      rw [hback] at hrest
      exact congrArg (rename s.scopes head.name :: ·) hrest
    | var span head initial =>
      obtain ⟨hvar, hprogram⟩ := hscoped
      have hkinds := kinds_bind entry .var hvar.2
      have hne : ∀ f ∈ functionNames program, f ≠ head.name := by
        rintro f hf rfl
        have hsome := hbound head.name hf
        rw [hvar.2] at hsome
        cases hsome
      have hrest := functionNames_renameAll entry program (bind entry .var head.name s).2
        (by rw [hkinds]; exact hprogram) (by
          intro f hf
          rw [hkinds, Kinds.here?_declare hvar.2, if_neg (hne f hf)]
          exact hbound f hf)
      refine hrest.trans (List.map_congr_left fun f hf ↦ ?_)
      rw [bind_var, rename, Scopes.lookup_declare (Scopes.lookupHere_eq_none_iff.2 hvar.2),
        if_neg (hne f hf)]
      rfl
    | _ => exact hscoped.elim

/-! ### Flattened programs -/

section Flattened

variable {entry : String} {program : List Stmt}

/-- The walk starts in the scope of the functions, the one that the checks start in. -/
theorem kinds_bindFunctions (hnodup : (functionNames program).Nodup) :
    (bindFunctions entry program {}).scopes.kinds = [functionKinds program] := by
  rw [bindFunctions_eq]
  exact kinds_bindNames entry (functionNames program) {} [] hnodup rfl fun _ _ ↦ rfl

theorem functionNames_flatten (entry : String) (hnodup : (functionNames program).Nodup)
    (hscoped : ProgramScoped program [functionKinds program]) :
    functionNames (flatten entry program) =
      (functionNames program).map (rename (bindFunctions entry program {}).scopes) := by
  refine functionNames_renameAll entry program _ ?_ fun f hf ↦ ?_
  · rw [kinds_bindFunctions hnodup]
    exact hscoped
  · rw [kinds_bindFunctions hnodup]
    exact Option.isSome_iff_exists.2 ⟨.fn, lookup_functionKinds.2 hf⟩

theorem rename_bindFunctions (entry : String) (hnodup : (functionNames program).Nodup) :
    ((functionNames program).map (rename (bindFunctions entry program {}).scopes)).Nodup ∧
      ∀ f ∈ functionNames program,
        (rename (bindFunctions entry program {}).scopes f = entry ↔ f = entry) ∧
        (f ≠ entry → ∃ n, rename (bindFunctions entry program {}).scopes f = numbered f n ∧
          n < (bindFunctions entry program {}).counter) := by
  rw [bindFunctions_eq]
  obtain ⟨-, hdistinct, hnames, -⟩ :=
    bindNames_spec entry (functionNames program) {} hnodup fun _ _ ↦ rfl
  refine ⟨hdistinct, fun f hf ↦ ?_⟩
  obtain ⟨hentry, hnumber⟩ := hnames f hf
  refine ⟨hentry, fun hne ↦ ?_⟩
  obtain ⟨n, hn, -, hlt⟩ := hnumber hne
  exact ⟨n, hn, hlt⟩

theorem variables_flatten (entry : String) (program : List Stmt) :
    ∃ hi, Generated entry (bindFunctions entry program {}).counter hi
      (Stmt.variablesAll (flatten entry program)) :=
  ⟨_, renameAll_generated entry program (bindFunctions entry program {})⟩

/-- All declarations of a flattened program have different names. -/
theorem nodup_flatten (entry : String) (hnodup : (functionNames program).Nodup)
    (hscoped : ProgramScoped program [functionKinds program]) :
    (functionNames (flatten entry program) ++
      Stmt.variablesAll (flatten entry program)).Nodup := by
  obtain ⟨hdistinct, hnames⟩ := rename_bindFunctions entry hnodup
  obtain ⟨hi, hvariables⟩ := variables_flatten entry program
  rw [functionNames_flatten entry hnodup hscoped]
  refine List.nodup_append.2 ⟨hdistinct, hvariables.nodup, fun u hu w hw heq ↦ ?_⟩
  subst heq
  obtain ⟨f, hf, rfl⟩ := List.mem_map.1 hu
  obtain ⟨hentry, hnumber⟩ := hnames f hf
  obtain ⟨name, m, hm, hle, -⟩ := hvariables.numbered _ hw
  have hne : f ≠ entry := fun h ↦ hvariables.ne_entry _ hw (hentry.2 h)
  obtain ⟨n, hn, hlt⟩ := hnumber hne
  have hnumbers : n = m := eq_of_numbered (hn.symm.trans hm)
  omega

/-- Where the walk starts, functions mean the names they are declared under in the end. -/
theorem agrees_bindFunctions (hnodup : (functionNames program).Nodup)
    (hscoped : ProgramScoped program [functionKinds program]) :
    Agrees (Site.name? (flatten entry program)) (bindFunctions entry program {}).scopes
      (.ofFunctions program) := by
  intro name
  have hkind := Scopes.kinds_kind? (bindFunctions entry program {}).scopes name
  rw [kinds_bindFunctions hnodup, Kinds.kind?_singleton] at hkind
  show _ = (((functionNames program).idxOf? name).map Site.fn).bind _
  by_cases hname : name ∈ functionNames program
  · rw [lookup_functionKinds.2 hname] at hkind
    obtain ⟨i, hi, -⟩ := Option.map_eq_some_iff.1 hkind.symm
    obtain ⟨j, hj⟩ := Option.isSome_iff_exists.1 (List.isSome_idxOf?.2 hname)
    obtain ⟨hlt, hget, -⟩ := List.idxOf?_eq_some_iff.1 hj
    have hj' : (functionNames program)[j]? = some name := List.getElem?_eq_some_iff.2 ⟨hlt, hget⟩
    have hnew : Site.name? (flatten entry program) (.fn j) =
        some (rename (bindFunctions entry program {}).scopes name) := by
      show (functionNames (flatten entry program))[j]? = _
      rw [functionNames_flatten entry hnodup hscoped, List.getElem?_map, hj']
      rfl
    rw [hj, Option.map_some, Option.bind_some, hnew, rename, hi]
    rfl
  · rw [lookup_functionKinds_eq_none hname] at hkind
    rw [List.idxOf?_eq_none_iff.2 hname, Option.map_eq_none_iff.1 hkind.symm]
    rfl

end Flattened

/-- A program is another one with different names, of which none captures a use of another one. -/
structure CaptureFree (entry : String) (program flat : List Stmt) : Prop where
  /-- Nothing but names is different. -/
  unnamed : Stmt.unnamedAll flat = Stmt.unnamedAll program
  /-- All declarations have different names. -/
  nodup : (functionNames flat ++ Stmt.variablesAll flat).Nodup
  /-- There is an entry point. -/
  entry_mem : entry ∈ functionNames program
  /-- The entry point keeps its name, and no other function gets it. -/
  entry_functions : ∀ i : Nat, (functionNames flat)[i]? = some entry ↔
    (functionNames program)[i]? = some entry
  /-- No variable gets the name of the entry point. -/
  entry_variables : entry ∉ Stmt.variablesAll flat
  /-- A use of a name carries the name of the declaration that the used name means. -/
  references : (Stmt.referencesAll flat).map some =
    (resolutions program).map (Option.bind · (Site.name? flat))

theorem captureFree_of_unnested {entry : String} {program : List Stmt} (hplain : Unnested program)
    (hdeclarations : (Declarations.check entry program {}).findings = [])
    (hnames : (Names.checkAll program
      { scopes := (Declarations.check entry program {}).state }).findings = []) :
    CaptureFree entry program (flatten entry program) := by
  obtain ⟨-, hnodup, hentry, -⟩ := Declarations.check_cases hdeclarations
  have hscoped := scoped_of_accepted hplain hdeclarations hnames
  obtain ⟨hi, hvariables⟩ := variables_flatten entry program
  refine ⟨unnamedAll_flatten entry program, nodup_flatten entry hnodup hscoped, hentry, fun i ↦ ?_,
    fun hmem ↦ hvariables.ne_entry entry hmem rfl, ?_⟩
  · rw [functionNames_flatten entry hnodup hscoped, List.getElem?_map, Option.map_eq_some_iff]
    obtain ⟨-, hrename⟩ := rename_bindFunctions entry hnodup
    constructor
    · rintro ⟨f, hf, heq⟩
      rw [hf, (hrename f (List.mem_of_getElem? hf)).1.1 heq]
    · exact fun hf ↦ ⟨entry, hf, (hrename entry (List.mem_of_getElem? hf)).1.2 rfl⟩
  · refine references_program entry program _ _ 0 ?_ (agrees_bindFunctions hnodup hscoped)
      fun i u hu ↦ ?_
    · rw [kinds_bindFunctions hnodup]
      exact hscoped
    · rw [Nat.zero_add]
      exact hu

/-- The functions of a program that was parsed stand at the top level. -/
theorem captureFree_of_parse {entry : String} {tokens : List Token} {program : List Stmt}
    (hparse : parse tokens = .ok program)
    (hdeclarations : (Declarations.check entry program {}).findings = [])
    (hnames : (Names.checkAll program
      { scopes := (Declarations.check entry program {}).state }).findings = []) :
    CaptureFree entry program (flatten entry program) :=
  captureFree_of_unnested (parse_grammatical hparse).unnested hdeclarations hnames

end Renaming

/-- **Flattening is a renaming that captures nothing.** For a program whose functions all stand at
the top level and which the first two checks accept, the flattened program differs from it only in
names; all its declarations have different names, and exactly the entry point has the name of the
entry point; and every use of a name carries the name of the declaration that the used name means by
the rules of scoping. -/
theorem flatten_captureFree {entry : String} {program : List Stmt} (hplain : Unnested program)
    (hdeclarations : (Declarations.check entry program {}).findings = [])
    (hnames : (Names.checkAll program
      { scopes := (Declarations.check entry program {}).state }).findings = []) :
    Stmt.unnamedAll (Renaming.flatten entry program) = Stmt.unnamedAll program ∧
      (functionNames (Renaming.flatten entry program) ++
        Stmt.variablesAll (Renaming.flatten entry program)).Nodup ∧
      entry ∈ functionNames program ∧
      (∀ i : Nat, (functionNames (Renaming.flatten entry program))[i]? = some entry ↔
        (functionNames program)[i]? = some entry) ∧
      entry ∉ Stmt.variablesAll (Renaming.flatten entry program) ∧
      (Stmt.referencesAll (Renaming.flatten entry program)).map some =
        (resolutions program).map
          (Option.bind · (Site.name? (Renaming.flatten entry program))) := by
  have h := Renaming.captureFree_of_unnested hplain hdeclarations hnames
  exact ⟨h.unnamed, h.nodup, h.entry_mem, h.entry_functions, h.entry_variables,
    h.references⟩

/-- A program in which one name is declared in four scopes, started from a function whose name is
the one that the global variable would be given:

```
int x = 1;
fun int x_1() {
  int x = x + f(x);
  { x = x; int x = x; x = f(x); }
  return x;
}
fun int f(int x) { return x; }
```
-/
def Sample.shadowing : List Stmt :=
  let x : Expr := .var {} "x"
  let f : Expr := .call {} "f" [x]
  [.var {} ⟨"x", .int, {}⟩ (some (number 1)),
    .function {} ⟨"x_1", .int, {}⟩ []
      [.var {} ⟨"x", .int, {}⟩ (some (.binary {} .plus x f)),
        .block {} [.assign {} "x" {} x, .var {} ⟨"x", .int, {}⟩ (some x), .assign {} "x" {} f],
        .return_ {} x],
    .function {} ⟨"f", .int, {}⟩ [⟨"x", .int, {}⟩] [.return_ {} x]]

theorem flatten_captureFree_shadowing :
    Unnested Sample.shadowing ∧
      (Declarations.check "x_1" Sample.shadowing {}).findings = [] ∧
      (Names.checkAll Sample.shadowing
        { scopes := (Declarations.check "x_1" Sample.shadowing {}).state }).findings = [] ∧
      resolutions Sample.shadowing =
        [some (.var 0), some (.fn 1), some (.var 0), some (.var 1), some (.var 1), some (.var 1),
          some (.var 2), some (.fn 1), some (.var 2), some (.var 1), some (.var 3)] ∧
      (Stmt.referencesAll (Renaming.flatten "x_1" Sample.shadowing)).map some =
        (resolutions Sample.shadowing).map
          (Option.bind · (Site.name? (Renaming.flatten "x_1" Sample.shadowing))) := by
  have hplain : Unnested Sample.shadowing := by
    simp [Unnested, Sample.shadowing, Stmt.Unnested, Stmt.Plain, Stmt.AllPlain]
  have hdeclarations : (Declarations.check "x_1" Sample.shadowing {}).findings = [] := by cbv
  have hnames : (Names.checkAll Sample.shadowing
      { scopes := (Declarations.check "x_1" Sample.shadowing {}).state }).findings = [] := by cbv
  obtain ⟨-, -, -, -, -, huses⟩ := flatten_captureFree hplain hdeclarations hnames
  exact ⟨hplain, hdeclarations, hnames, by cbv, huses⟩

end ScalarMips
