import ScalarMips.Proofs.Acceptance
import ScalarMips.Proofs.ConstantCode
import ScalarMips.Proofs.ControlFlow
import ScalarMips.Proofs.ExactConstants
import ScalarMips.Proofs.SymbolTables
import ScalarMips.Proofs.TypeSafety

/-!
# Initial values of global variables

The layout stores with every global variable the folded value of its initializer, over the table as
it is at that moment and with the names that flattening gave. For an accepted program this is the
exact value of the initializer as it was written, where names stand for the stored values of the
global variables before (`build_initialValues`).

Flattening and the layout are followed together along the top level (`Tracked`): a name that means a
global variable has been given a unique name, and under that name the table holds the value that the
declaration at the same place of the text has stored.
-/

namespace ScalarMips

open Layout Renaming

/-- The initial values of the first variables of a table, by the names they are declared with. -/
def initialValues (heads : List Declarator) (table : SymbolTable) :
    List (String × Option Int32) :=
  (heads.map Declarator.name).zip (table.vars.map Symbol.initial?)

/-- What a name stands for after some declarations: the stored value of the global variable, or zero
if it has none. -/
def storedValue (before : List Stmt) (table : SymbolTable) (name : String) : Option Int :=
  ((initialValues (globalDecls before) table).lookup name).map fun value ↦ (value.getD 0).toInt

/-! ### Flattening and layout together -/

/-- Names of global variables lead to their values on two ways: through the unique name into the
table, and through the place of the declaration. -/
structure Tracked (s : State) (Γ : Env) (table : SymbolTable) (heads : List Declarator) :
    Prop where
  /-- The variables of the table are those declared so far. -/
  count : table.vars.length = heads.length
  /-- Every variable has one value on both ways. -/
  found : ∀ name type, Γ name = some (.var type) → ∃ offset value,
    table.find? (rename s.scopes name) =
        some (.var (rename s.scopes name) type offset value) ∧
      (initialValues heads table).lookup name = some value
  /-- The declared names are in use in the current scope. -/
  visible : ∀ head ∈ heads, s.scopes.kinds.here? head.name ≠ none

variable {entry : String} {s : State} {Γ : Env} {table : SymbolTable} {heads : List Declarator}

theorem find?_grow {symbol : Option Symbol} {name : String} {found : Symbol}
    (h : table.find? name = some found) : (grow table symbol).find? name = some found := by
  unfold SymbolTable.find? at h ⊢
  rw [grow, List.find?_append, h, Option.some_or]

theorem find?_grow_self {symbol : Symbol} (h : symbol.name ∉ table.symbols.map Symbol.name) :
    (grow table (some symbol)).find? symbol.name = some symbol := by
  have hnone : table.symbols.find? (fun s ↦ s.name = symbol.name) = none :=
    List.find?_eq_none.2 fun s hs hname ↦
      h (List.mem_map.2 ⟨s, hs, of_decide_eq_true hname⟩)
  rw [SymbolTable.find?, grow, List.find?_append, hnone, Option.none_or]
  exact List.find?_cons_of_pos (decide_eq_true rfl)

/-- A function is entered. -/
theorem Tracked.function (h : Tracked s Γ table heads) {s' : State} (hscopes : s'.scopes = s.scopes)
    (name : String) (type : ScalarType) (locals : List Symbol) :
    Tracked s' Γ (grow table (some (.function name type locals))) heads := by
  have hvars := vars_grow_function table name type locals
  refine ⟨?_, fun x type' hx ↦ ?_, ?_⟩
  · rw [hvars]
    exact h.count
  · obtain ⟨offset, value, hfind, hvalue⟩ := h.found x type' hx
    rw [hscopes, initialValues, hvars]
    exact ⟨offset, value, find?_grow hfind, hvalue⟩
  · rw [hscopes]
    exact h.visible

/-- A variable is entered under a new unique name. -/
theorem Tracked.bind (h : Tracked s Γ table heads) {head : Declarator}
    (hfree : s.scopes.kinds.here? head.name = none)
    (hunique : (Renaming.bind entry .var head.name s).1 ∉ table.symbols.map Symbol.name)
    (offset : UInt32) (value : Option Int32) :
    Tracked (Renaming.bind entry .var head.name s).2 (Γ.bind head.name (.var head.type))
      (grow table (some (.var (Renaming.bind entry .var head.name s).1 head.type offset value)))
      (heads ++ [head]) := by
  have hlookup := Scopes.lookup_declare (Scopes.lookupHere_eq_none_iff.2 hfree)
    (i := { kind := .var, initialized := true, uniqueName := (fresh entry head.name s.counter).1 })
  rw [bind_var] at hunique ⊢
  generalize fresh entry head.name s.counter = unique at hlookup hunique ⊢
  have hvars := vars_grow_var table unique.1 head.type offset value
  have hvalues : initialValues (heads ++ [head])
      (grow table (some (.var unique.1 head.type offset value))) =
        initialValues heads table ++ [(head.name, value)] := by
    rw [initialValues, hvars, List.map_append, List.map_append,
      List.zip_append (by rw [List.length_map, List.length_map, h.count])]
    rfl
  refine ⟨?_, fun x type hx ↦ ?_, fun d hd ↦ ?_⟩
  · rw [hvars, List.length_append, List.length_append, h.count]
    rfl
  · rw [hvalues, rename, hlookup, List.lookup_append]
    unfold Env.bind at hx
    split at hx
    · rename_i hname
      subst hname
      cases hx
      have hnone : (initialValues heads table).lookup head.name = none := by
        refine List.lookup_eq_none_iff.2 fun p hp ↦ bne_iff_ne.2 fun heq ↦ ?_
        obtain ⟨d, hd, hname⟩ := List.mem_map.1 (List.of_mem_zip hp).1
        exact h.visible d hd (hname.trans heq.symm ▸ hfree)
      rw [if_pos rfl, hnone]
      exact ⟨offset, value, find?_grow_self hunique, by simp⟩
    · rename_i hname
      obtain ⟨offset', value', hfind, hvalue⟩ := h.found x type hx
      rw [if_neg hname]
      refine ⟨offset', value', find?_grow hfind, ?_⟩
      rw [hvalue, Option.some_or]
  · rw [Scopes.kinds_declare hfree, Kinds.here?_declare hfree]
    split
    · exact Option.some_ne_none _
    · rename_i hname
      rcases List.mem_append.1 hd with hd | hd
      · exact h.visible d hd
      · exact absurd (congrArg Declarator.name (List.mem_singleton.1 hd)) hname

theorem renameAll_append (entry : String) : ∀ (first rest : List Stmt) (s : State),
    (renameAll entry (first ++ rest) s).1 =
      (renameAll entry first s).1 ++ (renameAll entry rest (renameAll entry first s).2).1
  | [], _, _ => rfl
  | stmt :: first, rest, s =>
    congrArg ((renameStmt entry stmt s).1 :: ·)
      (renameAll_append entry first rest (renameStmt entry stmt s).2)

/-- The table after the declarations of a program have been entered. -/
def filled (table : SymbolTable) (program : List Stmt) : SymbolTable :=
  { table with symbols := table.symbols ++ entries topEntry table program }

theorem filled_cons (table : SymbolTable) (stmt : Stmt) (program : List Stmt) :
    filled table (stmt :: program) = filled (grow table (topEntry table stmt)) program := by
  simp [filled, grow, entries]

theorem filled_append : ∀ (first rest : List Stmt) (table : SymbolTable),
    filled table (first ++ rest) = filled (filled table first) rest
  | [], rest, table => by simp [filled, entries]
  | stmt :: first, rest, table => by
    rw [List.cons_append, filled_cons, filled_append first rest, filled_cons]

/-- The walk through the declarations before some place. What is left of the program is still well
typed and scoped. -/
theorem tracked_renameAll : ∀ (before rest : List Stmt) (s : State) (Γ : Env) (table : SymbolTable)
    (heads : List Declarator), ProgramTyped Γ (before ++ rest) →
    ProgramScoped (before ++ rest) s.scopes.kinds → Tracked s Γ table heads →
    (table.symbols.map Symbol.name ++ topNames (renameAll entry before s).1).Nodup →
      ∃ Γ', ProgramTyped Γ' rest ∧
        Tracked (renameAll entry before s).2 Γ' (filled table (renameAll entry before s).1)
          (heads ++ globalDecls before)
  | [], rest, s, Γ, table, heads, htyped, _, h, _ => by
    refine ⟨Γ, htyped, ?_⟩
    simpa [filled, entries, renameAll, globalDecls] using h
  | .function span head parameters body :: before, rest, s, Γ, table, heads,
      .function _ hrest, hscoped, h, hnodup => by
    have hscopes : (renameStmt entry (.function span head parameters body) s).2.scopes = s.scopes :=
      scopes_renameStmt _ _ _
    have hafter := h.function hscopes
    rw [renameAll, filled_cons]
    refine tracked_renameAll before rest
      (renameStmt entry (.function span head parameters body) s).2 Γ _ heads hrest ?_
      (hafter _ _ _) ?_
    · rw [hscopes]
      exact hscoped.2
    · rw [names_grow, List.append_assoc]
      exact hnodup
  | .var span head initial :: before, rest, s, Γ, table, heads, htyped, hscoped, h, hnodup => by
    have hfree := hscoped.1.2
    have hunique : (Renaming.bind entry .var head.name s).1 ∉ table.symbols.map Symbol.name :=
      fun hmem ↦ (List.nodup_append.1 hnodup).2.2 _ hmem _ List.mem_cons_self rfl
    have hrest : ProgramTyped (Γ.bind head.name (.var head.type)) (before ++ rest) := by
      cases htyped with
      | declared hrest => exact hrest
      | initialized _ hrest => exact hrest
    have hafter := h.bind hfree hunique
    have hkinds := kinds_bind entry .var hfree
    rw [renameAll, filled_cons]
    obtain ⟨Γ', htyped', htracked⟩ := tracked_renameAll before rest
      (renameStmt entry (.var span head initial) s).2 _ _ (heads ++ [head]) hrest
      (hkinds ▸ hscoped.2) (hafter _ _) (by
        rw [names_grow, List.append_assoc]
        exact hnodup)
    refine ⟨Γ', htyped', ?_⟩
    rw [List.append_assoc] at htracked
    exact htracked

/-! ### Initializers -/

/-- The initial values of an accepted program call nothing. -/
theorem calls_of_accepted : ∀ {program : List Stmt} {globals : Scopes},
    (Declarations.checkAll program globals).findings = [] →
      ∀ {span : Span} {head : Declarator} {e : Expr}, .var span head (some e) ∈ program →
        Declarations.calls e = []
  | [], _, _, _, _, _, hmem => absurd hmem List.not_mem_nil
  | stmt :: program, globals, h, span, head, e, hmem => by
    obtain ⟨hfirst, hrest⟩ := Pass.findings_andThen_eq_nil.1 h
    rcases List.mem_cons.1 hmem with rfl | hmem
    · exact List.map_eq_nil_iff.1 (Pass.findings_file_eq_nil.1 hfirst)
    · exact calls_of_accepted hrest hmem

/-- The new names of an initializer are those of variables in the table. -/
theorem Tracked.foldable (h : Tracked s Γ table heads) : ∀ {e : Expr} {type : ScalarType},
    HasType Γ e type → Declarations.calls e = [] →
      Constant.Foldable table (renameExpr s.scopes e)
  | .literal .., _, _, _ => List.forall_mem_singleton.2 trivial
  | .var .., _, .var hname, _ => by
    obtain ⟨offset, value, hfind, -⟩ := h.found _ _ hname
    exact List.forall_mem_singleton.2 ⟨_, offset, value, hfind⟩
  | .unary _ op operand, _, htyped, hcalls => by
    obtain ⟨hop, type, hoperand⟩ := htyped.operand
    exact List.forall_mem_cons.2 ⟨hop, h.foldable hoperand hcalls⟩
  | .binary _ op left right, _, htyped, hcalls => by
    obtain ⟨hop, type, type', hleft, hright⟩ := htyped.operands
    obtain ⟨hcallsLeft, hcallsRight⟩ := List.append_eq_nil_iff.1 hcalls
    exact List.forall_mem_cons.2 ⟨hop, List.forall_mem_append.2
      ⟨h.foldable hleft hcallsLeft, h.foldable hright hcallsRight⟩⟩
  | .call .., _, _, hcalls => absurd hcalls (List.cons_ne_nil _ _)

/-- Renaming keeps the exact value, if the names that have types keep theirs. -/
theorem exact_renameExpr {known known' : String → Option Int} {scopes : Scopes}
    (h : ∀ name type, Γ name = some (.var type) → known' (rename scopes name) = known name) :
    ∀ {e : Expr} {type : ScalarType}, HasType Γ e type →
      Constant.exact known' (renameExpr scopes e) = Constant.exact known e
  | .literal .., _, _ => rfl
  | .var .., _, .var hname => by rw [renameExpr, Constant.exact, Constant.exact, h _ _ hname]
  | .unary _ op operand, _, htyped => by
    obtain ⟨-, type, hoperand⟩ := htyped.operand
    rw [renameExpr, Constant.exact, Constant.exact, exact_renameExpr h hoperand]
  | .binary _ op left right, _, htyped => by
    obtain ⟨-, type, type', hleft, hright⟩ := htyped.operands
    rw [renameExpr, Constant.exact, Constant.exact, exact_renameExpr h hleft,
      exact_renameExpr h hright]
  | .call .., _, _ => rfl

/-- The layout of a program without failures is the empty table with all its declarations. -/
theorem build_eq_filled {program : List Stmt} (h : (Layout.build program {}).failures = []) :
    (Layout.build program {}).table = filled {} program := by
  rw [build_eq_runSteps] at h ⊢
  exact runSteps_table enters_putStmt _ _ h

theorem failures_build_append : ∀ (first rest : List Stmt) (table : SymbolTable),
    (Layout.build (first ++ rest) table).failures =
      (Layout.build first table).failures ++
        (Layout.build rest (Layout.build first table).table).failures
  | [], _, _ => rfl
  | stmt :: first, rest, table => by
    show (putStmt table stmt).failures ++ (Layout.build (first ++ rest) _).failures =
      ((putStmt table stmt).failures ++ (Layout.build first _).failures) ++ _
    rw [failures_build_append first rest, List.append_assoc]
    rfl

theorem vars_filled (table : SymbolTable) (program : List Stmt) :
    (filled table program).vars =
      table.vars ++ (entries topEntry table program).filter Symbol.isVar :=
  List.filter_append _ _

/-- Truth values start as zero or one. -/
theorem truthful_build {entry : String} {program : List Stmt} (h : Flattened entry program) :
    (Layout.build program {}).table.Truthful := by
  obtain ⟨-, hstored⟩ := h.stored
  have hinitialized := Semantics.build_initialized program [] _ h.grammatical h.wellTyped h.distinct
    (fun _ _ ↦ List.not_mem_nil) (fun name type hname ↦ by
      obtain ⟨f, -, -, hm⟩ := exists_of_signatures hname
      cases hm)
  intro symbol hsymbol htype
  obtain ⟨hmem, hvar⟩ := List.mem_filter.1 hsymbol
  have hnames := Generate.names_vars h.wellTyped.isDeclaration h.distinct hstored
  obtain ⟨head, hhead, hname⟩ := List.mem_map.1 (hnames ▸ List.mem_map_of_mem hsymbol)
  obtain ⟨v, hv, hofType⟩ := hinitialized head hhead
  obtain ⟨offset, value, hfind⟩ := hstored.global head hhead
  have hnodup : ((Layout.build program {}).table.symbols.map Symbol.name).Nodup :=
    hstored.names ▸ h.distinct.topNames
  have hself : (Layout.build program {}).table.find? symbol.name = some symbol :=
    find?_of_nodup Symbol.name hnodup hmem
  obtain rfl : symbol = .var head.name head.type offset value :=
    Option.some.inj (hself.symm.trans (hname ▸ hfind))
  rw [Constant.variableValue, hfind] at hv
  obtain rfl := Option.some.inj hv
  have htruth := Generate.isTruth_iff.1 (hofType htype)
  cases value with
  | none => exact List.mem_cons_self
  | some v =>
    rcases htruth with rfl | rfl <;> simp [Symbol.initial?]

theorem tracked_bindFunctions (entry : String) (program : List Stmt) :
    Tracked (bindFunctions entry program {}) (signatures program) {} [] := by
  refine ⟨rfl, fun name type hname ↦ ?_, fun _ hhead ↦ absurd hhead List.not_mem_nil⟩
  obtain ⟨f, -, -, hmeaning⟩ := exists_of_signatures hname
  cases hmeaning

theorem length_renameAll (entry : String) (stmts : List Stmt) (s : State) :
    (renameAll entry stmts s).1.length = stmts.length := by
  induction stmts generalizing s with
  | nil => rfl
  | cons stmt stmts ih => exact congrArg (· + 1) (ih (renameStmt entry stmt s).2)

/-- The values that names stand for do not depend on later declarations. -/
theorem Tracked.storedValue_eq {before : List Stmt} (h : Tracked s Γ table (globalDecls before))
    (program : List Stmt) {name : String} {type : ScalarType}
    (hname : Γ name = some (.var type)) :
    Constant.knownValue table (rename s.scopes name) =
      storedValue before (filled table program) name := by
  obtain ⟨offset, value, hfind, hvalue⟩ := h.found name type hname
  have hvalues : initialValues (globalDecls before) (filled table program) =
      initialValues (globalDecls before) table := by
    rw [initialValues, vars_filled, List.map_append, ← List.append_nil (List.map _ _),
      List.zip_append (by rw [List.length_map, List.length_map, h.count]), List.zip_nil_left,
      List.append_nil]
    rfl
  rw [Constant.knownValue, Constant.variableValue, hfind, storedValue, hvalues, hvalue]
  rfl

/-- The declaration of a global variable in an accepted program is flattened to another one. The
types before it are those that the table holds when it comes to be entered. -/
theorem exists_tracked {entry : String} {before after : List Stmt} {span : Span}
    {head : Declarator} {e : Expr}
    (hg : Grammatical (before ++ .var span head (some e) :: after))
    (h : Accepted entry (before ++ .var span head (some e) :: after)) :
    ∃ flat unique s Γ rest,
      flatten entry (before ++ .var span head (some e) :: after) =
        flat ++ .var span { head with name := unique } (some (renameExpr s.scopes e)) :: rest ∧
      flat.length = before.length ∧ (Layout.build flat {}).table = filled {} flat ∧
      HasType Γ e head.type ∧ Tracked s Γ (filled {} flat) (globalDecls before) := by
  have hscoped := h.scoped hg.unnested
  have hflat := flattened_of_accepted hg h
  generalize hs : bindFunctions entry (before ++ .var span head (some e) :: after) {} = s
  have hnone := hflat.stored.1
  have hnames := hflat.distinct.topNames
  have hprogram : flatten entry (before ++ .var span head (some e) :: after) =
      (renameAll entry before s).1 ++
        (renameAll entry (.var span head (some e) :: after) (renameAll entry before s).2).1 := by
    rw [flatten, hs, renameAll_append]
  rw [hprogram, topNames, List.filterMap_append] at hnames
  rw [hprogram, failures_build_append] at hnone
  obtain ⟨Γ, htyped, htracked⟩ := tracked_renameAll before (.var span head (some e) :: after) s _ {}
    [] (h.wellTyped hg) (by rw [← hs, kinds_bindFunctions h.nodup]; exact hscoped)
    (hs ▸ tracked_bindFunctions entry _) (List.nodup_append.1 hnames).1
  cases htyped with
  | initialized hvalue _ =>
    exact ⟨_, _, _, Γ, _, hprogram, length_renameAll entry before s,
      build_eq_filled (List.append_eq_nil_iff.1 hnone).1, hvalue, htracked⟩

/-- **Global initial values are the values of their initializers.** For an accepted program, the
value stored with a global variable is the exact value of its initializer, where the names of
earlier global variables stand for their stored values. It is missing only if some division in the
initializer is not defined. The layout folds an initializer whose names are all variables of the
table at that moment, which calls nothing and whose operators are all in their places. -/
theorem build_initialValues {entry : String} {tokens : List Token} {program : List Stmt}
    (hparse : parse tokens = .ok program) (h : Accepted entry program) :
    (Layout.build (flatten entry program) {}).table.Truthful ∧
      ∀ before after span head e, program = before ++ .var span head (some e) :: after →
        ∃ name renamed offset value,
          (flatten entry program)[before.length]? =
            some (.var span { head with name } (some renamed)) ∧
          Constant.Foldable (Layout.build ((flatten entry program).take before.length) {}).table
            renamed ∧
          (Layout.build (flatten entry program) {}).table.vars[(globalDecls before).length]? =
            some (.var name head.type offset value) ∧
          (∀ v, value = some v → Constant.exact
            (storedValue before (Layout.build (flatten entry program) {}).table) e =
              .ok v.toInt) ∧
          (value = none →
            Constant.exact (storedValue before (Layout.build (flatten entry program) {}).table) e =
              .error .division ∧
            Constant.DividesBadly
              (storedValue before (Layout.build (flatten entry program) {}).table) e) := by
  have hg := parse_grammatical hparse
  have hflat := flattened_of_accepted hg h
  refine ⟨truthful_build hflat, ?_⟩
  rintro before after span head e rfl
  have hmem : Stmt.var span head (some e) ∈ before ++ .var span head (some e) :: after :=
    List.mem_append_right _ List.mem_cons_self
  have hcalls := calls_of_accepted (Pass.findings_andThen_eq_nil.1 h.declarations).1 hmem
  obtain ⟨flat, unique, s, Γ, rest, hprogram, hlength, hplace, hvalue, htracked⟩ :=
    exists_tracked hg h
  have hcount : (filled {} flat).vars.length = (globalDecls before).length := htracked.count
  have hfoldable := htracked.foldable hvalue hcalls
  have hagrees := hfoldable.agrees
  have hknown := fun x type (hname : Γ x = some (.var type)) ↦ htracked.storedValue_eq
    (.var span { head with name := unique } (some (renameExpr s.scopes e)) :: rest) hname
  rw [exact_renameExpr hknown hvalue] at hagrees
  rw [build_eq_filled hflat.stored.1, hprogram, filled_append, List.take_left' hlength, hplace]
  refine ⟨unique, _, (filled {} flat).localSize,
    Constant.fold (filled {} flat) (renameExpr s.scopes e), ?_, hfoldable, ?_, ?_, ?_⟩
  · rw [← hlength, List.getElem?_append_right (Nat.le_refl _), Nat.sub_self]
    rfl
  · rw [filled_cons, vars_filled, topEntry, vars_grow_var, List.append_assoc,
      List.getElem?_append_right (Nat.le_of_eq hcount), hcount, Nat.sub_self]
    rfl
  · intro v hv
    rw [hv] at hagrees
    exact hagrees.some
  · intro hv
    rw [hv] at hagrees
    exact ⟨hagrees.none, Constant.dividesBadly_of_exact hagrees.none⟩

namespace Sample

/-- The tokens of global variables of both types, one of which has no value:

```
int a = 3 - 10; bool b = a < 0; int c = a / 0; int d = a % 4 - c;
fun int main() { return d; }
``` -/
def initializedTokens : List Token :=
  [word .int, name "a", mark .equals, digits "3", mark .minus, digits "10", mark .semicolon,
    word .bool, name "b", mark .equals, name "a", mark .less, digits "0", mark .semicolon,
    word .int, name "c", mark .equals, name "a", mark .slash, digits "0", mark .semicolon,
    word .int, name "d", mark .equals, name "a", mark .percent, digits "4", mark .minus, name "c",
    mark .semicolon,
    word .fun_, word .int, name "main", mark .leftParen, mark .rightParen, mark .leftBrace,
    word .return_, name "d", mark .semicolon, mark .rightBrace,
    ⟨.endOfFile, "", {}⟩]

/-- The tree of these tokens. -/
def initialized : List Stmt :=
  [.var {} ⟨"a", .int, {}⟩ (some (.binary {} .minus (number 3) (number 10))),
    .var {} ⟨"b", .bool, {}⟩ (some (.binary {} .less (.var {} "a") (number 0))),
    .var {} ⟨"c", .int, {}⟩ (some (.binary {} .divide (.var {} "a") (number 0))),
    .var {} ⟨"d", .int, {}⟩ (some (.binary {} .minus
      (.binary {} .modulo (.var {} "a") (number 4)) (.var {} "c"))),
    .function {} ⟨"main", .int, {}⟩ [] [.return_ {} (.var {} "d")]]

end Sample

theorem build_initialValues_initialized :
    parse Sample.initializedTokens = .ok Sample.initialized ∧ Accepted "main" Sample.initialized ∧
      (Layout.build (flatten "main" Sample.initialized) {}).table.Truthful ∧
      (Layout.build (flatten "main" Sample.initialized) {}).table.vars.map Symbol.initial? =
        [some (-7), some 1, none, some (-3)] ∧
      Constant.DividesBadly (storedValue (Sample.initialized.take 2)
        (Layout.build (flatten "main" Sample.initialized) {}).table)
          (.binary {} .divide (.var {} "a") (Sample.number 0)) := by
  have hparse : parse Sample.initializedTokens = .ok Sample.initialized := by cbv
  have haccepted : Accepted "main" Sample.initialized := ⟨by cbv, by cbv, by cbv⟩
  have hvalues : (Layout.build (flatten "main" Sample.initialized) {}).table.vars.map
      Symbol.initial? = [some (-7), some 1, none, some (-3)] := by cbv
  obtain ⟨htruthful, hglobals⟩ := build_initialValues hparse haccepted
  obtain ⟨name, renamed, offset, value, -, -, hvar, -, hbad⟩ :=
    hglobals (Sample.initialized.take 2) (Sample.initialized.drop 3) {} ⟨"c", .int, {}⟩ _ rfl
  have hvalue : value = none := by
    have hplace := congrArg (·[2]?) hvalues
    change (Layout.build (flatten "main" Sample.initialized) {}).table.vars[2]? = _ at hvar
    rw [List.getElem?_map, hvar] at hplace
    exact Option.some.inj hplace
  exact ⟨hparse, haccepted, htruthful, hvalues, (hbad hvalue).2⟩

end ScalarMips
