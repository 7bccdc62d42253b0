import Mathlib.Data.List.Basic
import ScalarMips.Proofs.Storage

/-!
# What symbol tables hold

The layout of any program, whatever its names, types and nesting. Parameters, local variables and
top-level declarations are entered in the same way: one step after another, and a step either puts
a symbol with a new name at the end or fails (`Enters`). What a whole run does follows from what a
step does, once for all three.

A program is `Placeable` if no table gets two symbols of one name, no variable is left without a
type and no function stands inside a function. Exactly then the layout has no failures
(`build_tabulates`), and its tables hold the declarations of the program, each one once and in the
order of the text, with offsets that grow by one word.
-/

namespace ScalarMips

/-! ### Declarations in the order of the text -/

mutual

/-- A statement and the statements inside it, in the order of the text. The body of a function
inside another one is left out. -/
def Stmt.preorder : Stmt → List Stmt
  | .block span body => .block span body :: Stmt.preorderAll body
  | .conditional span condition thenBranch none =>
    .conditional span condition thenBranch none :: thenBranch.preorder
  | .conditional span condition thenBranch (some elseBranch) =>
    .conditional span condition thenBranch (some elseBranch) ::
      (thenBranch.preorder ++ elseBranch.preorder)
  | .loop span condition body => .loop span condition body :: body.preorder
  | .function span head parameters body => [.function span head parameters body]
  | .var span head initial => [.var span head initial]
  | .assign span name target value => [.assign span name target value]
  | .evaluate span value => [.evaluate span value]
  | .return_ span value => [.return_ span value]
  | .print span ending value => [.print span ending value]
termination_by structural stmt => stmt

/-- Statements and the statements inside them, in the order of the text. -/
def Stmt.preorderAll : List Stmt → List Stmt
  | [] => []
  | stmt :: stmts => stmt.preorder ++ Stmt.preorderAll stmts
termination_by structural stmts => stmts

end

/-- The variables declared anywhere in the body of a function, in the order of the text. -/
def FunctionDecl.locals (f : FunctionDecl) : List Declarator :=
  (Stmt.preorderAll f.body).filterMap Stmt.variable?

namespace Layout

/-- A function that can be laid out. -/
structure PlaceableFunction (f : FunctionDecl) : Prop where
  /-- Its parameters and local variables have different names. -/
  names : (f.parameters.map Declarator.name ++ f.locals.map Declarator.name).Nodup
  /-- Its local variables have the type of a value. -/
  types : ∀ d ∈ f.locals, d.type.isConcrete
  /-- No function stands inside it. -/
  flat : ∀ stmt ∈ Stmt.preorderAll f.body, stmt.function? = none

/-- A program that can be laid out. -/
structure Placeable (program : List Stmt) : Prop where
  /-- Its functions and global variables have different names. -/
  names : (topNames program).Nodup
  /-- Its global variables have the type of a value. -/
  types : ∀ d ∈ globalDecls program, d.type.isConcrete
  /-- Its functions can be laid out. -/
  functions : ∀ f ∈ functionDecls program, PlaceableFunction f

/-! ### The expected tables -/

/-- The offset of the `j`-th of some words of `w` bytes, which wraps at 32 bits. -/
def offsetAt (w : UInt32) (j : Nat) : UInt32 :=
  .ofNat (j * w.toNat)

/-- The symbols of a function: its parameters and then the variables declared in its body, each
sequence with offsets of its own. -/
def functionSymbols (w : UInt32) (f : FunctionDecl) : List Symbol :=
  f.parameters.mapIdx (fun j p ↦ .parameter p.name p.type (offsetAt w j)) ++
    f.locals.mapIdx fun j d ↦ .var d.name d.type (offsetAt w j) none

/-- The symbol of a declaration of the top level. -/
inductive Entry (w : UInt32) : Stmt → Symbol → Prop where
  | var {span : Span} {head : Declarator} {initial : Option Expr} {offset : UInt32}
    {value : Option Int32} :
    Entry w (.var span head initial) (.var head.name head.type offset value)
  | function {span : Span} {head : Declarator} {parameters : List Declarator} {body : List Stmt} :
    Entry w (.function span head parameters body)
      (.function head.name head.type (functionSymbols w ⟨head, parameters, body⟩))

/-- A table that holds what a program declares, and nothing else. -/
structure Tabulated (w : UInt32) (program : List Stmt) (table : SymbolTable) : Prop where
  /-- Its words have the given size. -/
  wordSize : table.wordSize = w
  /-- It lists the declarations of the top level in the order of the text. -/
  entries : List.Forall₂ (Entry w) (program.filter fun stmt ↦ stmt.declaredName?.isSome)
    table.symbols
  /-- Its variables have the offsets of words that follow each other. -/
  offsets : table.vars.map Symbol.offset = (List.range table.vars.length).map (offsetAt w)

/-! ### Entering one after another -/

section Steps

variable {α φ : Type} {step : SymbolTable → α → Progress φ} {name : α → Option String}
  {valid : α → Prop} {entry : SymbolTable → α → Option Symbol}

/-- Steps one after another. -/
def runSteps (step : SymbolTable → α → Progress φ) : List α → SymbolTable → Progress φ
  | [], table => ⟨table, []⟩
  | x :: xs, table => (step table x).andThen (runSteps step xs)

/-- A table with one more symbol, if there is one. -/
def grow (table : SymbolTable) (symbol : Option Symbol) : SymbolTable :=
  { table with symbols := table.symbols ++ symbol.toList }

/-- The symbols that steps put at the end of a table. -/
def entries (entry : SymbolTable → α → Option Symbol) : SymbolTable → List α → List Symbol
  | _, [] => []
  | table, x :: xs => (entry table x).toList ++ entries entry (grow table (entry table x)) xs

/-- The steps enter the symbols of valid declarations whose names are new. -/
structure Enters (step : SymbolTable → α → Progress φ) (name : α → Option String)
    (valid : α → Prop) (entry : SymbolTable → α → Option Symbol) : Prop where
  /-- A symbol has the name of its declaration. -/
  named : ∀ table x, (entry table x).map Symbol.name = name x
  /-- A step fails exactly if the declaration is not valid or its name is in use. -/
  failures : ∀ table x, (step table x).failures = [] ↔
    valid x ∧ ∀ u ∈ name x, u ∉ table.symbols.map Symbol.name
  /-- A step that does not fail puts the symbol at the end. -/
  table : ∀ table x, (step table x).failures = [] →
    (step table x).table = grow table (entry table x)

theorem grow_none (table : SymbolTable) : grow table none = table := by
  rw [grow, Option.toList_none, List.append_nil]

theorem vars_grow_var (table : SymbolTable) (name : String) (type : ScalarType) (offset : UInt32)
    (initial : Option Int32) : (grow table (some (.var name type offset initial))).vars =
      table.vars ++ [.var name type offset initial] := by
  rw [SymbolTable.vars, grow, List.filter_append]
  rfl

theorem vars_grow_function (table : SymbolTable) (name : String) (type : ScalarType)
    (locals : List Symbol) :
    (grow table (some (.function name type locals))).vars = table.vars := by
  rw [SymbolTable.vars, grow, List.filter_append]
  exact List.append_nil _

theorem names_grow {table : SymbolTable} {symbol : Option Symbol} :
    (grow table symbol).symbols.map Symbol.name =
      table.symbols.map Symbol.name ++ (symbol.map Symbol.name).toList := by
  cases symbol <;> simp [grow]

theorem runSteps_failures (h : Enters step name valid entry) :
    ∀ (xs : List α) (table : SymbolTable), (table.symbols.map Symbol.name).Nodup →
      ((runSteps step xs table).failures = [] ↔
        (∀ x ∈ xs, valid x) ∧ (table.symbols.map Symbol.name ++ xs.filterMap name).Nodup)
  | [], table, hnodup => by simpa [runSteps] using hnodup
  | x :: xs, table, hnodup => by
    have hnames : table.symbols.map Symbol.name ++ (x :: xs).filterMap name =
        (table.symbols.map Symbol.name ++ (name x).toList) ++ xs.filterMap name := by
      cases hx : name x <;> simp [hx]
    have hfree : (∀ u ∈ name x, u ∉ table.symbols.map Symbol.name) ↔
        (table.symbols.map Symbol.name ++ (name x).toList).Nodup := by
      cases name x with
      | none => simpa using hnodup
      | some u =>
        rw [Option.toList_some, List.nodup_append_comm, List.singleton_append, List.nodup_cons,
          and_iff_left hnodup]
        simp
    have hrun : (runSteps step (x :: xs) table).failures = [] ↔
        (step table x).failures = [] ∧ (runSteps step xs (step table x).table).failures = [] := by
      simp [runSteps, Progress.andThen]
    rw [hrun, hnames, List.forall_mem_cons]
    constructor
    · rintro ⟨hfirst, hrest⟩
      obtain ⟨hvalid, hnew⟩ := (h.failures table x).1 hfirst
      have hnodup' := hfree.1 hnew
      rw [h.table table x hfirst] at hrest
      rw [← h.named table x, ← names_grow] at hnodup' ⊢
      obtain ⟨hvalids, hall⟩ := (runSteps_failures h xs _ hnodup').1 hrest
      exact ⟨⟨hvalid, hvalids⟩, hall⟩
    · rintro ⟨⟨hvalid, hvalids⟩, hall⟩
      have hnodup' := hall.sublist (List.sublist_append_left _ _)
      have hfirst := (h.failures table x).2 ⟨hvalid, hfree.2 hnodup'⟩
      rw [← h.named table x, ← names_grow] at hnodup' hall
      refine ⟨hfirst, ?_⟩
      rw [h.table table x hfirst]
      exact (runSteps_failures h xs _ hnodup').2 ⟨hvalids, hall⟩

theorem runSteps_table (h : Enters step name valid entry) :
    ∀ (xs : List α) (table : SymbolTable), (runSteps step xs table).failures = [] →
      (runSteps step xs table).table =
        { table with symbols := table.symbols ++ entries entry table xs }
  | [], table, _ => by simp [runSteps, entries]
  | x :: xs, table, hnone => by
    obtain ⟨hfirst, hrest⟩ := List.append_eq_nil_iff.1 hnone
    have htable := h.table table x hfirst
    have hrun : (runSteps step (x :: xs) table).table =
      (runSteps step xs (step table x).table).table := rfl
    rw [hrun, runSteps_table h xs _ hrest, htable]
    simp [grow, entries]

theorem names_entries (h : Enters step name valid entry) :
    ∀ (xs : List α) (table : SymbolTable),
      (entries entry table xs).map Symbol.name = xs.filterMap name
  | [], _ => rfl
  | x :: xs, table => by
    have hfirst : (entry table x).toList.map Symbol.name = (name x).toList := by
      rw [← h.named table x]
      cases entry table x <;> rfl
    rw [entries, List.map_append, hfirst, names_entries h xs]
    cases hx : name x <;> simp [hx]

/-- Steps that change nothing one by one change nothing together. -/
theorem runSteps_idle {table : SymbolTable} :
    ∀ xs : List α, (∀ x ∈ xs, (step table x).table = table) → (runSteps step xs table).table = table
  | [], _ => rfl
  | x :: xs, h => by
    obtain ⟨hfirst, hrest⟩ := List.forall_mem_cons.1 h
    have hrun : (runSteps step (x :: xs) table).table =
      (runSteps step xs (step table x).table).table := rfl
    rw [hrun, hfirst, runSteps_idle xs hrest]

theorem contains_iff {table : SymbolTable} {u : String} :
    table.contains u = true ↔ u ∈ table.symbols.map Symbol.name := by
  rw [SymbolTable.contains, SymbolTable.find?, List.find?_isSome, List.mem_map]
  simp

theorem ofPut_put?_used {table : SymbolTable} {symbol : Symbol} {fault : φ}
    (h : symbol.name ∈ table.symbols.map Symbol.name) :
    Progress.ofPut table (table.put? symbol) fault = ⟨table, [fault]⟩ := by
  rw [SymbolTable.put?, if_pos (contains_iff.2 h)]
  rfl

theorem ofPut_put?_failures {table : SymbolTable} {symbol : Symbol} {fault : φ} :
    (Progress.ofPut table (table.put? symbol) fault).failures = [] ↔
      symbol.name ∉ table.symbols.map Symbol.name := by
  constructor
  · intro hnone hmem
    rw [ofPut_put?_used hmem] at hnone
    cases hnone
  · intro hfree
    rw [put?_of_free hfree]
    rfl

theorem ofPut_put?_table {table : SymbolTable} {symbol : Symbol} {fault : φ}
    (h : (Progress.ofPut table (table.put? symbol) fault).failures = []) :
    (Progress.ofPut table (table.put? symbol) fault).table = grow table (some symbol) := by
  rw [put?_of_free (ofPut_put?_failures.1 h)]
  rfl

end Steps

/-! ### Parameters -/

/-- Enters one parameter. -/
def putParameter (table : SymbolTable) (p : Declarator) : Progress LayoutFault :=
  .ofPut table (table.putParameter? p.name p.type) (.duplicateParameter p.name)

theorem putParameters_eq_runSteps : ∀ parameters : List Declarator,
    putParameters parameters = runSteps putParameter parameters
  | [] => rfl
  | p :: parameters => by
    funext table
    rw [putParameters, runSteps, putParameters_eq_runSteps parameters, putParameter]

/-- The symbol of a parameter. -/
def parameterEntry (table : SymbolTable) (p : Declarator) : Option Symbol :=
  some (.parameter p.name p.type table.parameterSize)

theorem enters_putParameter :
    Enters putParameter (fun p ↦ some p.name) (fun _ ↦ True) parameterEntry where
  named _ _ := rfl
  failures table p := by
    simpa [putParameter, SymbolTable.putParameter?, Symbol.name] using ofPut_put?_failures
  table table p h := ofPut_put?_table h

theorem words_eq (table : SymbolTable) (n : Nat) : table.words n = offsetAt table.wordSize n := by
  rw [SymbolTable.words, offsetAt, UInt32.ofNat_mul, UInt32.ofNat_toNat]

theorem entries_parameterEntry : ∀ (parameters : List Declarator) (table : SymbolTable),
    entries parameterEntry table parameters = parameters.mapIdx fun j p ↦
      .parameter p.name p.type (offsetAt table.wordSize (table.parameters.length + j))
  | [], _ => rfl
  | p :: parameters, table => by
    have hcount : (grow table (parameterEntry table p)).parameters.length =
        table.parameters.length + 1 := by
      rw [SymbolTable.parameters, grow, List.filter_append, List.length_append]
      rfl
    rw [entries, entries_parameterEntry parameters, List.mapIdx_cons, hcount]
    simp only [parameterEntry, SymbolTable.parameterSize, words_eq, Option.toList_some,
      List.singleton_append, Nat.add_assoc, Nat.add_comm 1]
    rfl

/-! ### Local variables -/

theorem putLocals_eq_runSteps : ∀ ds : List Declared, putLocals ds = runSteps putLocal ds
  | [] => rfl
  | d :: ds => by
    funext table
    rw [putLocals, runSteps, putLocals_eq_runSteps ds]

/-- The symbol of a local variable. -/
def localEntry (table : SymbolTable) : Declared → Option Symbol
  | .var name type => some (.var name type table.localSize none)
  | .function _ => none

/-- The name of a declaration that has a symbol. -/
def Declared.variable? : Declared → Option String
  | .var name _ => some name
  | .function _ => none

theorem enters_putLocal :
    Enters putLocal Declared.variable? Declared.IsVariable localEntry where
  named _ d := by cases d <;> rfl
  failures table d := by
    cases d with
    | function name => simp [putLocal, Declared.IsVariable]
    | var name type =>
      rw [putLocal]
      split
      next htype =>
        rw [SymbolTable.putVar?, ofPut_put?_failures]
        simp [Declared.IsVariable, Declared.variable?, Symbol.name, htype]
      next htype => simp [Declared.IsVariable, htype]
  table table d h := by
    cases d with
    | function name => cases h
    | var name type =>
      rw [putLocal] at h ⊢
      split at h
      next htype =>
        rw [if_pos htype]
        exact ofPut_put?_table h
      next => cases h

/-- What a statement declares where it stands. -/
def Stmt.declared? : Stmt → Option Declared
  | .var _ head _ => some (.var head.name head.type)
  | .function _ head _ _ => some (.function head.name)
  | _ => none

mutual

theorem declared_eq : ∀ stmt : Stmt, declared stmt = stmt.preorder.filterMap Stmt.declared?
  | .block _ body => declaredAll_eq body
  | .conditional _ _ thenBranch none => declared_eq thenBranch
  | .conditional _ _ thenBranch (some elseBranch) => by
    rw [declared, declared_eq thenBranch, declared_eq elseBranch, ← List.filterMap_append]
    rfl
  | .loop _ _ body => declared_eq body
  | .function .. => rfl
  | .var .. => rfl
  | .assign .. => rfl
  | .evaluate .. => rfl
  | .return_ .. => rfl
  | .print .. => rfl

/-- The walk through a body meets its declarations in the order of the text. -/
theorem declaredAll_eq : ∀ stmts : List Stmt,
    declaredAll stmts = (Stmt.preorderAll stmts).filterMap Stmt.declared?
  | [] => rfl
  | stmt :: stmts => by
    rw [declaredAll, Stmt.preorderAll, List.filterMap_append, declared_eq stmt,
      declaredAll_eq stmts]

end

theorem isVariable_declared_iff (stmts : List Stmt) :
    (∀ d ∈ stmts.filterMap Stmt.declared?, d.IsVariable) ↔
      (∀ d ∈ stmts.filterMap Stmt.variable?, d.type.isConcrete) ∧
        ∀ stmt ∈ stmts, stmt.function? = none := by
  induction stmts with
  | nil => simp
  | cons stmt stmts ih =>
    cases stmt with
    | var span head initial =>
      show (∀ d ∈ .var head.name head.type :: stmts.filterMap Stmt.declared?, d.IsVariable) ↔
        (∀ d ∈ head :: stmts.filterMap Stmt.variable?, d.type.isConcrete) ∧ _
      rw [List.forall_mem_cons, List.forall_mem_cons, List.forall_mem_cons, ih, and_assoc]
      exact and_congr_right fun _ ↦ and_congr_right fun _ ↦ (and_iff_right rfl).symm
    | function span head parameters body =>
      refine ⟨fun h ↦ (h _ List.mem_cons_self).elim, fun h ↦ ?_⟩
      exact absurd (h.2 _ List.mem_cons_self) nofun
    | _ =>
      refine ih.trans (and_congr_right fun _ ↦ ⟨fun h ↦ ?_, fun h ↦ ?_⟩)
      · exact List.forall_mem_cons.2 ⟨rfl, h⟩
      · exact (List.forall_mem_cons.1 h).2

theorem variable?_declared (stmts : List Stmt) :
    (stmts.filterMap Stmt.declared?).filterMap Declared.variable? =
      (stmts.filterMap Stmt.variable?).map Declarator.name := by
  rw [List.filterMap_filterMap, List.map_filterMap]
  refine List.filterMap_congr fun stmt _ ↦ ?_
  cases stmt <;> rfl

theorem entries_localEntry (stmts : List Stmt) (table : SymbolTable) :
    entries localEntry table (stmts.filterMap Stmt.declared?) =
      (stmts.filterMap Stmt.variable?).mapIdx fun j d ↦
        .var d.name d.type (offsetAt table.wordSize (table.vars.length + j)) none := by
  induction stmts generalizing table with
  | nil => rfl
  | cons stmt stmts ih =>
    cases stmt with
    | var span head initial =>
      have hrest := ih (grow table (localEntry table (.var head.name head.type)))
      have hcount : (grow table (localEntry table (.var head.name head.type))).vars.length =
          table.vars.length + 1 := by
        rw [localEntry, vars_grow_var, List.length_append, List.length_singleton]
      show entries localEntry table (.var head.name head.type :: stmts.filterMap Stmt.declared?) =
        (head :: stmts.filterMap Stmt.variable?).mapIdx _
      rw [entries, hrest, List.mapIdx_cons, hcount]
      simp only [localEntry, SymbolTable.localSize, words_eq, Option.toList_some,
        List.singleton_append, Nat.add_assoc, Nat.add_comm 1]
      rfl
    | function span head parameters body =>
      show entries localEntry (grow table none) (stmts.filterMap Stmt.declared?) = _
      rw [grow_none]
      exact ih table
    | _ => exact ih table

/-! ### Functions -/

/-- Enters the parameters and local variables of a function into its own table. -/
def putFrame (w : UInt32) (f : FunctionDecl) : Progress LayoutFault :=
  (putParameters f.parameters { wordSize := w }).andThen (putLocals (declaredAll f.body))

theorem table_putParameters {w : UInt32} {parameters : List Declarator}
    (h : (putParameters parameters { wordSize := w }).failures = []) :
    (putParameters parameters { wordSize := w }).table = ⟨w, parameters.mapIdx fun j p ↦
      .parameter p.name p.type (offsetAt w j)⟩ := by
  rw [putParameters_eq_runSteps] at h ⊢
  rw [runSteps_table enters_putParameter _ _ h, entries_parameterEntry]
  simp [SymbolTable.parameters]

theorem names_parameters (w : UInt32) (parameters : List Declarator) :
    (parameters.mapIdx fun j p ↦ Symbol.parameter p.name p.type (offsetAt w j)).map Symbol.name =
      parameters.map Declarator.name := by
  refine List.ext_getElem (by simp) fun j _ _ ↦ ?_
  simp [Symbol.name]

theorem vars_parameters (w : UInt32) (parameters : List Declarator) :
    (SymbolTable.mk w (parameters.mapIdx fun j p ↦
      .parameter p.name p.type (offsetAt w j))).vars = [] := by
  refine List.filter_eq_nil_iff.2 fun symbol hsymbol ↦ ?_
  obtain ⟨j, hj, rfl⟩ := List.mem_mapIdx.1 hsymbol
  exact Bool.false_ne_true

/-- The table of a function is built exactly if the function can be laid out. -/
theorem putFrame_failures {w : UInt32} {f : FunctionDecl} :
    (putFrame w f).failures = [] ↔ PlaceableFunction f := by
  have hfirst : (putParameters f.parameters { wordSize := w }).failures = [] ↔
      (f.parameters.map Declarator.name).Nodup := by
    rw [putParameters_eq_runSteps, runSteps_failures enters_putParameter _ _ (by simp)]
    simp
  have hrest : (f.parameters.map Declarator.name).Nodup →
      ((putLocals (declaredAll f.body)
        (putParameters f.parameters { wordSize := w }).table).failures = [] ↔
        ((∀ d ∈ f.locals, d.type.isConcrete) ∧
          ∀ stmt ∈ Stmt.preorderAll f.body, stmt.function? = none) ∧
        (f.parameters.map Declarator.name ++ f.locals.map Declarator.name).Nodup) := by
    intro hnodup
    rw [table_putParameters (hfirst.2 hnodup), putLocals_eq_runSteps,
      runSteps_failures enters_putLocal _ _ (by rwa [names_parameters]), names_parameters,
      declaredAll_eq, isVariable_declared_iff, variable?_declared]
    rfl
  have hfailures : (putFrame w f).failures = [] ↔
      (putParameters f.parameters { wordSize := w }).failures = [] ∧
        (putLocals (declaredAll f.body)
          (putParameters f.parameters { wordSize := w }).table).failures = [] :=
    List.append_eq_nil_iff
  rw [hfailures, hfirst]
  constructor
  · rintro ⟨hnodup, hlocals⟩
    obtain ⟨⟨htypes, hflat⟩, hnames⟩ := (hrest hnodup).1 hlocals
    exact ⟨hnames, htypes, hflat⟩
  · intro h
    have hnodup := h.names.sublist (List.sublist_append_left _ _)
    exact ⟨hnodup, (hrest hnodup).2 ⟨⟨h.types, h.flat⟩, h.names⟩⟩

theorem putFrame_table {w : UInt32} {f : FunctionDecl} (h : PlaceableFunction f) :
    (putFrame w f).table = ⟨w, functionSymbols w f⟩ := by
  obtain ⟨hfirst, hrest⟩ := List.append_eq_nil_iff.1 (putFrame_failures.2 h)
  have htable : (putFrame w f).table = (putLocals (declaredAll f.body)
    (putParameters f.parameters { wordSize := w }).table).table := rfl
  rw [table_putParameters hfirst, putLocals_eq_runSteps] at hrest
  rw [htable, table_putParameters hfirst, putLocals_eq_runSteps,
    runSteps_table enters_putLocal _ _ hrest, declaredAll_eq, entries_localEntry, vars_parameters]
  simp only [List.length_nil, Nat.zero_add]
  rfl

theorem putFunction_failures {head : Declarator} {parameters : List Declarator}
    {body : List Stmt} {table : SymbolTable} :
    (putFunction head parameters body table).failures = [] ↔
      PlaceableFunction ⟨head, parameters, body⟩ ∧
        head.name ∉ table.symbols.map Symbol.name := by
  rw [putFunction]
  split
  next hused => simpa using fun _ ↦ contains_iff.1 hused
  next hfree =>
    rw [contains_iff] at hfree
    rw [and_iff_left hfree, ← putFrame_failures (w := table.wordSize), List.map_eq_nil_iff]
    rfl

theorem putFunction_table {head : Declarator} {parameters : List Declarator}
    {body : List Stmt} {table : SymbolTable}
    (h : (putFunction head parameters body table).failures = []) :
    (putFunction head parameters body table).table = grow table (some (.function head.name head.type
      (functionSymbols table.wordSize ⟨head, parameters, body⟩))) := by
  obtain ⟨hplaceable, hfree⟩ := putFunction_failures.1 h
  have hinner := putFrame_table (w := table.wordSize) hplaceable
  rw [putFunction, if_neg (by rwa [contains_iff])]
  show (table.putFunction? head.name head.type (putFrame table.wordSize
    ⟨head, parameters, body⟩).table.symbols).getD table = _
  rw [hinner, SymbolTable.putFunction?, put?_of_free hfree]
  rfl

/-! ### The top level -/

/-- A statement of the top level that can be entered into a table without its name. -/
def PlaceableStmt : Stmt → Prop
  | .var _ head _ => head.type.isConcrete
  | .function _ head parameters body => PlaceableFunction ⟨head, parameters, body⟩
  | _ => True

/-- The symbol of a statement of the top level. -/
def topEntry (table : SymbolTable) : Stmt → Option Symbol
  | .var _ head initial =>
    some (.var head.name head.type table.localSize (initial.bind (Constant.fold table)))
  | .function _ head parameters body =>
    some (.function head.name head.type
      (functionSymbols table.wordSize ⟨head, parameters, body⟩))
  | _ => none

theorem build_eq_runSteps : ∀ program : List Stmt, build program = runSteps putStmt program
  | [] => rfl
  | stmt :: program => by
    funext table
    rw [build, runSteps, build_eq_runSteps program]

theorem putGlobal_of_concrete {head : Declarator} (h : head.type.isConcrete)
    (initial : Option Expr) (table : SymbolTable) :
    putGlobal head initial table = .ofPut table
      (table.put? (.var head.name head.type table.localSize (initial.bind (Constant.fold table))))
      (failure "" (.duplicateName head.name)) :=
  if_pos h

theorem putGlobal_failures {head : Declarator} {initial : Option Expr} {table : SymbolTable} :
    (putGlobal head initial table).failures = [] ↔
      head.type.isConcrete ∧ head.name ∉ table.symbols.map Symbol.name := by
  by_cases htype : head.type.isConcrete
  · rw [putGlobal_of_concrete htype, ofPut_put?_failures]
    exact (and_iff_right htype).symm
  · simp [putGlobal, htype]

theorem putGlobal_table {head : Declarator} {initial : Option Expr} {table : SymbolTable}
    (h : (putGlobal head initial table).failures = []) :
    (putGlobal head initial table).table = grow table (some (.var head.name head.type
      table.localSize (initial.bind (Constant.fold table)))) := by
  have hconcrete := (putGlobal_failures.1 h).1
  rw [putGlobal_of_concrete hconcrete] at h ⊢
  exact ofPut_put?_table h

theorem enters_putStmt : Enters putStmt Stmt.declaredName? PlaceableStmt topEntry where
  named _ stmt := by cases stmt <;> rfl
  failures table stmt := by
    cases stmt with
    | var span head initial =>
      rw [putStmt, putGlobal_failures]
      simp [PlaceableStmt, Stmt.declaredName?]
    | function span head parameters body =>
      rw [putStmt, putFunction_failures]
      simp [PlaceableStmt, Stmt.declaredName?]
    | _ => simp [putStmt, PlaceableStmt, Stmt.declaredName?]
  table table stmt h := by
    cases stmt with
    | var span head initial => exact putGlobal_table h
    | function span head parameters body => exact putFunction_table h
    | _ => exact (grow_none table).symm

theorem placeable_iff {program : List Stmt} :
    Placeable program ↔ (∀ stmt ∈ program, PlaceableStmt stmt) ∧ (topNames program).Nodup := by
  constructor
  · refine fun h ↦ ⟨fun stmt hstmt ↦ ?_, h.names⟩
    cases stmt with
    | var span head initial => exact h.types _ (List.mem_filterMap.2 ⟨_, hstmt, rfl⟩)
    | function span head parameters body =>
      exact h.functions _ (List.mem_filterMap.2 ⟨_, hstmt, rfl⟩)
    | _ => trivial
  · refine fun h ↦ ⟨h.2, fun d hd ↦ ?_, fun f hf ↦ ?_⟩
    · obtain ⟨stmt, hstmt, hvar⟩ := List.mem_filterMap.1 hd
      cases stmt with
      | var span head initial =>
        cases hvar
        exact h.1 _ hstmt
      | _ => cases hvar
    · obtain ⟨stmt, hstmt, hfunction⟩ := List.mem_filterMap.1 hf
      cases stmt with
      | function span head parameters body =>
        cases hfunction
        exact h.1 _ hstmt
      | _ => cases hfunction

theorem forall₂_entries : ∀ (program : List Stmt) (table : SymbolTable),
    List.Forall₂ (Entry table.wordSize) (program.filter fun stmt ↦ stmt.declaredName?.isSome)
      (entries topEntry table program)
  | [], _ => .nil
  | stmt :: program, table => by
    have hrest := forall₂_entries program (grow table (topEntry table stmt))
    cases stmt with
    | var span head initial => exact .cons .var hrest
    | function span head parameters body => exact .cons .function hrest
    | _ => simpa [entries, topEntry, grow, Stmt.declaredName?] using hrest

/-- The variables of a program have the offsets of the words after those of the table. -/
theorem offsets_entries : ∀ (program : List Stmt) (table : SymbolTable),
    ((entries topEntry table program).filter Symbol.isVar).map Symbol.offset =
      (List.range' table.vars.length
        ((entries topEntry table program).filter Symbol.isVar).length).map
          (offsetAt table.wordSize)
  | [], _ => rfl
  | stmt :: program, table => by
    have hrest := offsets_entries program (grow table (topEntry table stmt))
    cases stmt with
    | var span head initial =>
      have hcount : (grow table (topEntry table (.var span head initial))).vars.length =
          table.vars.length + 1 := by
        rw [topEntry, vars_grow_var, List.length_append, List.length_singleton]
      rw [hcount] at hrest
      show table.localSize :: ((entries topEntry (grow table _) program).filter _).map _ =
        offsetAt _ _ :: _
      rw [hrest, SymbolTable.localSize, words_eq]
      rfl
    | function span head parameters body =>
      rw [topEntry, vars_grow_function] at hrest
      exact hrest
    | _ => simpa [entries, topEntry, grow_none] using hrest

/-- A program that has been laid out is not laid out again: every declaration finds its name in use,
and neither the table nor a table inside it changes. -/
theorem build_again {program : List Stmt} {table : SymbolTable}
    (h : ∀ u ∈ topNames program, u ∈ table.symbols.map Symbol.name) :
    (build program table).table = table := by
  rw [build_eq_runSteps]
  refine runSteps_idle program fun stmt hstmt ↦ ?_
  cases stmt with
  | var span head initial =>
    have hused := h head.name (List.mem_filterMap.2 ⟨_, hstmt, rfl⟩)
    by_cases htype : head.type.isConcrete
    · rw [putStmt, putGlobal_of_concrete htype, ofPut_put?_used hused]
    · simp [putStmt, putGlobal, htype]
  | function span head parameters body =>
    have hused := contains_iff.2 (h head.name (List.mem_filterMap.2 ⟨_, hstmt, rfl⟩))
    rw [putStmt, putFunction, if_pos hused]
  | _ => rfl

/-- The layout of a program into an empty table has no failures exactly if the program can be laid
out. Its table then holds the declarations of the program, and laying the program out once more
changes nothing. -/
theorem build_tabulates (w : UInt32) (program : List Stmt) :
    ((build program { wordSize := w }).failures = [] ↔ Placeable program) ∧
      (Placeable program →
        Tabulated w program (build program { wordSize := w }).table ∧
        (build program (build program { wordSize := w }).table).table =
          (build program { wordSize := w }).table) := by
  have hfailures : (build program { wordSize := w }).failures = [] ↔ Placeable program := by
    rw [build_eq_runSteps, runSteps_failures enters_putStmt _ _ (by simp), placeable_iff]
    rfl
  refine ⟨hfailures, fun hplaceable ↦ ?_⟩
  have htable : (build program { wordSize := w }).table =
      ⟨w, entries topEntry { wordSize := w } program⟩ := by
    have hnone := hfailures.2 hplaceable
    rw [build_eq_runSteps] at hnone ⊢
    rw [runSteps_table enters_putStmt _ _ hnone]
    rfl
  have hentries := forall₂_entries program { wordSize := w }
  rw [htable]
  refine ⟨⟨rfl, hentries, ?_⟩, build_again fun u hu ↦ ?_⟩
  · rw [List.range_eq_range']
    exact offsets_entries program { wordSize := w }
  · rwa [names_entries enters_putStmt]

/-- Variables in both branches of a conditional statement and in a loop, beside global ones. -/
def Sample.nested : List Stmt :=
  [.var {} ⟨"g", .int, {}⟩ (some (.literal {} ⟨.int, 3, false⟩)),
    .function {} ⟨"f", .int, {}⟩ [⟨"a", .int, {}⟩, ⟨"b", .bool, {}⟩]
      [.conditional {} (.var {} "b") (.block {} [.var {} ⟨"x", .int, {}⟩ none])
          (some (.block {} [.var {} ⟨"y", .bool, {}⟩ none])),
        .loop {} (.var {} "b") (.block {} [.var {} ⟨"z", .int, {}⟩ none]),
        .return_ {} (.var {} "a")],
    .var {} ⟨"h", .bool, {}⟩ none]

theorem build_tabulates_nested :
    (build Sample.nested {}).failures = [] ∧
      Tabulated 4 Sample.nested (build Sample.nested {}).table ∧
      (build Sample.nested (build Sample.nested {}).table).table =
        (build Sample.nested {}).table := by
  have hfailures : (build Sample.nested {}).failures = [] := by cbv
  obtain ⟨hiff, htable⟩ := build_tabulates 4 Sample.nested
  exact ⟨hfailures, htable (hiff.1 hfailures)⟩

end Layout

end ScalarMips
