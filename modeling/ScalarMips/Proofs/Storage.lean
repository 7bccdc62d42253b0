import ScalarMips.Layout.Build
import ScalarMips.Proofs.FlatTyping

/-!
# Storage of flattened programs

What the symbol tables of a program hold if all its declarations have different names. Nothing can
fail then, and the tables are known exactly: the table of a function lists its parameters and then
its variables, each sequence with offsets that grow by one word (`frameSymbols`), and the global
table lists the declarations of the top level (`Stored`).
-/

namespace ScalarMips

/-! ### Top-level declarations -/

/-- The variable that a statement declares. -/
def Stmt.variable? : Stmt → Option Declarator
  | .var _ head _ => some head
  | _ => none

/-- The global variables of a program in the order of the text. -/
def globalDecls (program : List Stmt) : List Declarator :=
  program.filterMap Stmt.variable?

/-- The name that a statement declares for the statements around it. -/
def Stmt.declaredName? : Stmt → Option String
  | .function _ head _ _ => some head.name
  | .var _ head _ => some head.name
  | _ => none

/-- The names of the functions and global variables of a program in the order of the text. -/
def topNames (program : List Stmt) : List String :=
  program.filterMap Stmt.declaredName?

/-- The names of the parameters and local variables of a function. -/
def FunctionDecl.variables (f : FunctionDecl) : List String :=
  f.parameters.map Declarator.name ++ Stmt.variablesAll f.body

/-- All declarations of a program have different names. -/
def Distinct (program : List Stmt) : Prop :=
  (functionNames program ++ Stmt.variablesAll program).Nodup

theorem mem_of_mem_topNames {u : String} : ∀ {program : List Stmt}, u ∈ topNames program →
    u ∈ functionNames program ++ Stmt.variablesAll program
  | [], h => absurd h List.not_mem_nil
  | stmt :: program, h => by
    have hrest : u ∈ topNames program →
        u ∈ functionNames (stmt :: program) ++ Stmt.variablesAll (stmt :: program) := by
      intro hmem
      rcases List.mem_append.1 (mem_of_mem_topNames hmem) with hmem | hmem
      · refine List.mem_append_left _ ?_
        cases stmt with
        | function => exact List.mem_cons_of_mem _ hmem
        | _ => exact hmem
      · exact List.mem_append_right _ (List.mem_append_right _ hmem)
    cases stmt with
    | function span head parameters body =>
      rcases List.mem_cons.1 h with rfl | hmem
      · exact List.mem_append_left _ List.mem_cons_self
      · exact hrest hmem
    | var span head initial =>
      rcases List.mem_cons.1 h with rfl | hmem
      · exact List.mem_append_right _ (List.mem_append_left _ List.mem_cons_self)
      · exact hrest hmem
    | _ => exact hrest h

theorem Distinct.tail {stmt : Stmt} {program : List Stmt} (h : Distinct (stmt :: program)) :
    Distinct program := by
  refine List.Nodup.sublist (List.Sublist.append ?_ (List.sublist_append_right _ _)) h
  cases stmt with
  | function => exact List.sublist_cons_self _ _
  | _ => exact List.Sublist.refl _

/-- No later declaration of the top level has the name of the first one. -/
theorem Distinct.head {stmt : Stmt} {program : List Stmt} (h : Distinct (stmt :: program))
    {name : String} (hname : stmt.declaredName? = some name) : name ∉ topNames program := by
  intro hmem
  have hmem := mem_of_mem_topNames hmem
  have hnodup : (functionNames (stmt :: program) ++ Stmt.variablesAll (stmt :: program)).Nodup := h
  cases stmt with
  | function span head parameters body =>
    cases hname
    refine (List.nodup_cons.1 hnodup).1 ?_
    rcases List.mem_append.1 hmem with hmem | hmem
    · exact List.mem_append_left _ hmem
    · exact List.mem_append_right _ (List.mem_append_right _ hmem)
  | var span head initial =>
    cases hname
    obtain ⟨-, hvariables, hdisjoint⟩ := List.nodup_append.1 hnodup
    rcases List.mem_append.1 hmem with hmem | hmem
    · exact hdisjoint _ hmem _ (List.mem_append_left _ List.mem_cons_self) rfl
    · exact (List.nodup_cons.1 hvariables).1 hmem
  | _ => cases hname

/-- If the names of the top level are not in a table, later ones are not in it after the first. -/
theorem Distinct.free_tail {stmt : Stmt} {program : List Stmt} (h : Distinct (stmt :: program))
    {symbols : List Symbol} {symbol : Symbol} (hname : stmt.declaredName? = some symbol.name)
    (hfree : ∀ u ∈ topNames (stmt :: program), u ∉ symbols.map Symbol.name) :
    ∀ u ∈ topNames program, u ∉ (symbols ++ [symbol]).map Symbol.name := by
  intro u hu hmem
  rw [List.map_append] at hmem
  rcases List.mem_append.1 hmem with hmem | hmem
  · refine hfree u ?_ hmem
    unfold ScalarMips.topNames at hu ⊢
    rw [List.filterMap_cons, hname]
    exact List.mem_cons_of_mem _ hu
  · obtain rfl : u = symbol.name := List.mem_singleton.1 hmem
    exact h.head hname hu

theorem Distinct.topNames : ∀ {program : List Stmt}, Distinct program → (topNames program).Nodup
  | [], _ => List.nodup_nil
  | stmt :: program, h => by
    have hrest := Distinct.topNames h.tail
    cases stmt with
    | function span head parameters body => exact List.nodup_cons.2 ⟨h.head rfl, hrest⟩
    | var span head initial => exact List.nodup_cons.2 ⟨h.head rfl, hrest⟩
    | _ => exact hrest

theorem sublist_variablesAll {f : FunctionDecl} : ∀ {program : List Stmt},
    f ∈ functionDecls program → f.variables.Sublist (Stmt.variablesAll program)
  | [], h => absurd h List.not_mem_nil
  | stmt :: program, h => by
    have hrest : f ∈ functionDecls program →
        f.variables.Sublist (Stmt.variablesAll (stmt :: program)) := fun hmem ↦
      (sublist_variablesAll hmem).trans (List.sublist_append_right _ _)
    cases stmt with
    | function span head parameters body =>
      rcases List.mem_cons.1 h with rfl | hmem
      · exact List.sublist_append_left _ _
      · exact hrest hmem
    | _ => exact hrest h

theorem Distinct.variables {program : List Stmt} (h : Distinct program) {f : FunctionDecl}
    (hf : f ∈ functionDecls program) : f.variables.Nodup :=
  (List.nodup_append.1 h).2.1.sublist (sublist_variablesAll hf)

/-- What is declared at the top level is a function or a global variable. -/
theorem mem_of_topNames {program : List Stmt} {name : String} (h : name ∈ topNames program) :
    name ∈ functionNames program ∨ name ∈ (globalDecls program).map Declarator.name := by
  obtain ⟨stmt, hstmt, hname⟩ := List.mem_filterMap.1 h
  cases stmt with
  | function span head parameters body =>
    cases hname
    exact .inl (List.mem_map.2
      ⟨⟨head, parameters, body⟩, List.mem_filterMap.2 ⟨_, hstmt, rfl⟩, rfl⟩)
  | var span head initial =>
    cases hname
    exact .inr (List.mem_map.2 ⟨head, List.mem_filterMap.2 ⟨_, hstmt, rfl⟩, rfl⟩)
  | _ => cases hname

theorem sublist_globals (program : List Stmt) :
    ((globalDecls program).map Declarator.name).Sublist (Stmt.variablesAll program) := by
  induction program with
  | nil => exact List.Sublist.refl _
  | cons stmt program ih =>
    cases stmt with
    | var span head initial => exact ih.cons_cons _
    | _ => exact ih.trans (List.sublist_append_right _ _)

theorem mem_variablesAll_of_global {program : List Stmt} {head : Declarator}
    (h : head ∈ globalDecls program) : head.name ∈ Stmt.variablesAll program :=
  (sublist_globals program).subset (List.mem_map_of_mem h)

/-- No variable of a function has the name of a global variable. -/
theorem Distinct.global_notMem {program : List Stmt} (h : Distinct program) {f : FunctionDecl}
    (hf : f ∈ functionDecls program) {head : Declarator} (hhead : head ∈ globalDecls program) :
    head.name ∉ f.variables := by
  intro hmem
  induction program with
  | nil => exact absurd hf List.not_mem_nil
  | cons stmt program ih =>
    obtain ⟨-, hvariables, -⟩ := List.nodup_append.1 h
    obtain ⟨-, -, hdisjoint⟩ := List.nodup_append.1 hvariables
    cases stmt with
    | function span name parameters body =>
      rcases List.mem_cons.1 hf with rfl | hf
      · exact hdisjoint _ hmem _ (mem_variablesAll_of_global hhead) rfl
      · exact ih h.tail hf hhead
    | var span other initial =>
      rcases List.mem_cons.1 hhead with rfl | hhead
      · have hrest : f ∈ functionDecls program := hf
        exact hdisjoint _ List.mem_cons_self _ ((sublist_variablesAll hrest).subset hmem) rfl
      · exact ih h.tail hf hhead
    | _ => exact ih h.tail hf hhead

namespace Layout

/-! ### The declarations of a body -/

/-- The name of a declaration. -/
def Declared.name : Declared → String
  | var name _ => name
  | function name => name

/-- A declaration of a variable that has the type of a value. -/
def Declared.IsVariable : Declared → Prop
  | var _ type => type.isConcrete
  | function _ => False

mutual

/-- A statement of the grammar declares nothing but variables. -/
theorem declared_spec : ∀ stmt : Stmt, stmt.Grammatical →
    (∀ d ∈ declared stmt, d.IsVariable) ∧ (declared stmt).map Declared.name = stmt.variables
  | .block _ body, h => declaredAll_spec body h
  | .function .., h => h.elim
  | .var .., h => ⟨fun d hd ↦ (List.mem_singleton.1 hd) ▸ h.1, rfl⟩
  | .conditional _ _ thenBranch none, h => declared_spec thenBranch h.2
  | .conditional _ _ thenBranch (some elseBranch), h => by
    obtain ⟨hthen, hthenNames⟩ := declared_spec thenBranch h.2.1
    obtain ⟨helse, helseNames⟩ := declared_spec elseBranch h.2.2
    rw [declared, Stmt.variables, List.map_append, hthenNames, helseNames]
    exact ⟨List.forall_mem_append.2 ⟨hthen, helse⟩, rfl⟩
  | .loop _ _ body, h => declared_spec body h.2
  | .assign .., _ => ⟨fun _ hd ↦ absurd hd List.not_mem_nil, rfl⟩
  | .evaluate .., _ => ⟨fun _ hd ↦ absurd hd List.not_mem_nil, rfl⟩
  | .return_ .., _ => ⟨fun _ hd ↦ absurd hd List.not_mem_nil, rfl⟩
  | .print .., _ => ⟨fun _ hd ↦ absurd hd List.not_mem_nil, rfl⟩

theorem declaredAll_spec : ∀ stmts : List Stmt, Stmt.AllGrammatical stmts →
    (∀ d ∈ declaredAll stmts, d.IsVariable) ∧
      (declaredAll stmts).map Declared.name = Stmt.variablesAll stmts
  | [], _ => ⟨fun _ hd ↦ absurd hd List.not_mem_nil, rfl⟩
  | stmt :: stmts, h => by
    obtain ⟨hfirst, hfirstNames⟩ := declared_spec stmt h.1
    obtain ⟨hrest, hrestNames⟩ := declaredAll_spec stmts h.2
    rw [declaredAll, Stmt.variablesAll, List.map_append, hfirstNames, hrestNames]
    exact ⟨List.forall_mem_append.2 ⟨hfirst, hrest⟩, rfl⟩

end

/-! ### The table of a function -/

theorem contains_eq_false {t : SymbolTable} {name : String}
    (h : name ∉ t.symbols.map Symbol.name) : t.contains name = false := by
  have hnone : t.find? name = none := by
    refine List.find?_eq_none.2 fun s hs ↦ ?_
    rw [decide_eq_true_eq]
    exact fun heq ↦ h (heq ▸ List.mem_map_of_mem hs)
  rw [SymbolTable.contains, hnone]
  rfl

/-- A symbol with a new name is put at the end. -/
theorem put?_of_free {t : SymbolTable} {symbol : Symbol}
    (h : symbol.name ∉ t.symbols.map Symbol.name) :
    t.put? symbol = some { t with symbols := t.symbols ++ [symbol] } := by
  rw [SymbolTable.put?, contains_eq_false h]
  rfl

/-- The symbols of parameters, the first one `n` words after the start. -/
def parameterSymbols (n : Nat) : List Declarator → List Symbol
  | [] => []
  | p :: parameters =>
    .parameter p.name p.type (UInt32.ofNat n * 4) :: parameterSymbols (n + 1) parameters

/-- The symbols of local variables, the first one `n` words after the start. -/
def localSymbols (n : Nat) : List Declared → List Symbol
  | [] => []
  | .var name type :: declared =>
    .var name type (UInt32.ofNat n * 4) none :: localSymbols (n + 1) declared
  | .function _ :: declared => localSymbols n declared

/-- The symbols of a function: its parameters and then all variables of its body. -/
def frameSymbols (f : FunctionDecl) : List Symbol :=
  parameterSymbols 0 f.parameters ++ localSymbols 0 (declaredAll f.body)

theorem names_parameterSymbols : ∀ (parameters : List Declarator) (n : Nat),
    (parameterSymbols n parameters).map Symbol.name = parameters.map Declarator.name
  | [], _ => rfl
  | p :: parameters, n => congrArg (p.name :: ·) (names_parameterSymbols parameters (n + 1))

theorem names_localSymbols : ∀ (declared : List Declared) (n : Nat),
    (∀ d ∈ declared, d.IsVariable) →
      (localSymbols n declared).map Symbol.name = declared.map Declared.name
  | [], _, _ => rfl
  | .var name _ :: declared, n, h =>
    congrArg (name :: ·) (names_localSymbols declared (n + 1) (List.forall_mem_cons.1 h).2)
  | .function _ :: _, _, h => (List.forall_mem_cons.1 h).1.elim

theorem names_frameSymbols {f : FunctionDecl} (h : Stmt.AllGrammatical f.body) :
    (frameSymbols f).map Symbol.name = f.variables := by
  obtain ⟨hvariables, hnames⟩ := declaredAll_spec f.body h
  rw [frameSymbols, List.map_append, names_parameterSymbols, names_localSymbols _ _ hvariables,
    hnames, FunctionDecl.variables]

theorem putParameters_eq : ∀ (parameters : List Declarator) (symbols : List Symbol) (n : Nat),
    (SymbolTable.mk 4 symbols).parameters.length = n →
    (symbols.map Symbol.name ++ parameters.map Declarator.name).Nodup →
      putParameters parameters ⟨4, symbols⟩ =
        ⟨⟨4, symbols ++ parameterSymbols n parameters⟩, []⟩
  | [], symbols, _, _, _ => by
    rw [parameterSymbols, List.append_nil]
    rfl
  | p :: parameters, symbols, n, hn, hnodup => by
    have hfree : p.name ∉ symbols.map Symbol.name := fun hmem ↦
      (List.nodup_append.1 hnodup).2.2 _ hmem _ List.mem_cons_self rfl
    have hput : SymbolTable.putParameter? ⟨4, symbols⟩ p.name p.type =
        some ⟨4, symbols ++ [Symbol.parameter p.name p.type (.ofNat n * 4)]⟩ := by
      rw [← hn]
      exact put?_of_free hfree
    have hlength : (SymbolTable.mk 4 (symbols ++
        [Symbol.parameter p.name p.type (.ofNat n * 4)])).parameters.length = n + 1 := by
      rw [SymbolTable.parameters, List.filter_append, List.length_append]
      exact congrArg (· + 1) hn
    have hnodup' : ((symbols ++ [Symbol.parameter p.name p.type (.ofNat n * 4)]).map Symbol.name ++
        parameters.map Declarator.name).Nodup := by
      rw [List.map_append, List.append_assoc]
      exact hnodup
    have hrest := putParameters_eq parameters _ (n + 1) hlength hnodup'
    rw [List.append_assoc] at hrest
    rw [putParameters, hput]
    show Progress.mk (putParameters parameters ⟨4, symbols ++ [_]⟩).table
      (putParameters parameters ⟨4, symbols ++ [_]⟩).failures = _
    rw [hrest]
    rfl

theorem putLocals_eq : ∀ (declared : List Declared) (symbols : List Symbol) (n : Nat),
    (SymbolTable.mk 4 symbols).vars.length = n → (∀ d ∈ declared, d.IsVariable) →
    (symbols.map Symbol.name ++ declared.map Declared.name).Nodup →
      putLocals declared ⟨4, symbols⟩ = ⟨⟨4, symbols ++ localSymbols n declared⟩, []⟩
  | [], symbols, _, _, _, _ => by
    rw [localSymbols, List.append_nil]
    rfl
  | .function _ :: _, _, _, _, h, _ => (List.forall_mem_cons.1 h).1.elim
  | .var name type :: declared, symbols, n, hn, h, hnodup => by
    obtain ⟨htype, hvariables⟩ := List.forall_mem_cons.1 h
    have hfree : name ∉ symbols.map Symbol.name := fun hmem ↦
      (List.nodup_append.1 hnodup).2.2 _ hmem _ List.mem_cons_self rfl
    have hput : SymbolTable.putVar? ⟨4, symbols⟩ name type none =
        some ⟨4, symbols ++ [Symbol.var name type (.ofNat n * 4) none]⟩ := by
      rw [← hn]
      exact put?_of_free hfree
    have hlength : (SymbolTable.mk 4
        (symbols ++ [Symbol.var name type (.ofNat n * 4) none])).vars.length = n + 1 := by
      rw [SymbolTable.vars, List.filter_append, List.length_append]
      exact congrArg (· + 1) hn
    have hnodup' : ((symbols ++ [Symbol.var name type (.ofNat n * 4) none]).map Symbol.name ++
        declared.map Declared.name).Nodup := by
      rw [List.map_append, List.append_assoc]
      exact hnodup
    have hrest := putLocals_eq declared _ (n + 1) hlength hvariables hnodup'
    rw [List.append_assoc] at hrest
    rw [putLocals, putLocal, if_pos (show type.isConcrete = true from htype), hput]
    show Progress.mk (putLocals declared ⟨4, symbols ++ [_]⟩).table
      (putLocals declared ⟨4, symbols ++ [_]⟩).failures = _
    rw [hrest]
    rfl

theorem vars_parameterSymbols : ∀ (parameters : List Declarator) (n : Nat),
    (SymbolTable.mk 4 (parameterSymbols n parameters)).vars = []
  | [], _ => rfl
  | _ :: parameters, n => vars_parameterSymbols parameters (n + 1)

/-- The table of a function of the grammar whose variables have different names. -/
theorem putFunction_eq {f : FunctionDecl} {symbols : List Symbol}
    (hbody : Stmt.AllGrammatical f.body) (hfree : f.head.name ∉ symbols.map Symbol.name)
    (hnodup : f.variables.Nodup) :
    putFunction f.head f.parameters f.body ⟨4, symbols⟩ =
      ⟨⟨4, symbols ++ [Symbol.function f.head.name f.head.type (frameSymbols f)]⟩, []⟩ := by
  obtain ⟨hvariables, hnames⟩ := declaredAll_spec f.body hbody
  have hparameters := putParameters_eq f.parameters [] 0 rfl (List.nodup_append.1 hnodup).1
  have hlocals := putLocals_eq (declaredAll f.body) (parameterSymbols 0 f.parameters) 0
    (by rw [vars_parameterSymbols]; rfl) hvariables (by
      rw [names_parameterSymbols, hnames]
      exact hnodup)
  have hinner : (putParameters f.parameters ⟨4, []⟩).andThen (putLocals (declaredAll f.body)) =
      ⟨⟨4, frameSymbols f⟩, []⟩ := by
    rw [hparameters]
    show Progress.mk (putLocals _ ⟨4, parameterSymbols 0 f.parameters⟩).table
      (putLocals _ ⟨4, parameterSymbols 0 f.parameters⟩).failures = _
    rw [hlocals]
    rfl
  have hput : SymbolTable.putFunction? ⟨4, symbols⟩ f.head.name f.head.type (frameSymbols f) =
      some _ := put?_of_free hfree
  have hcontains : SymbolTable.contains ⟨4, symbols⟩ f.head.name = false := contains_eq_false hfree
  rw [putFunction, hcontains, hinner]
  show Progress.mk (Option.getD (SymbolTable.putFunction? ⟨4, symbols⟩ f.head.name f.head.type
    (frameSymbols f)) _) [] = _
  rw [hput]
  rfl

/-! ### The global table -/

theorem putGlobal_eq {head : Declarator} {symbols : List Symbol} (htype : head.type.isConcrete)
    (hfree : head.name ∉ symbols.map Symbol.name) (initial : Option Expr) :
    putGlobal head initial ⟨4, symbols⟩ =
      ⟨⟨4, symbols ++ [Symbol.var head.name head.type (SymbolTable.localSize ⟨4, symbols⟩)
        (initial.bind (Constant.fold ⟨4, symbols⟩))]⟩, []⟩ := by
  have hput : SymbolTable.putVar? ⟨4, symbols⟩ head.name head.type
    (initial.bind (Constant.fold ⟨4, symbols⟩)) = some _ := put?_of_free hfree
  rw [putGlobal, if_pos htype]
  show Progress.ofPut _ (SymbolTable.putVar? ⟨4, symbols⟩ head.name head.type _) _ = _
  rw [hput]
  rfl

/-- What the global table of a program holds. -/
structure Stored (program : List Stmt) (table : SymbolTable) : Prop where
  /-- Words have four bytes. -/
  wordSize : table.wordSize = 4
  /-- The declarations of the top level are listed in the order of the text. -/
  names : table.symbols.map Symbol.name = topNames program
  /-- Every function is found with the table of its parameters and variables. -/
  function : ∀ f ∈ functionDecls program,
    table.find? f.head.name = some (.function f.head.name f.head.type (frameSymbols f))
  /-- Every global variable is found. -/
  global : ∀ head ∈ globalDecls program,
    ∃ offset initial, table.find? head.name = some (.var head.name head.type offset initial)

theorem build_eq : ∀ (program : List Stmt) (symbols : List Symbol), Grammatical program →
    (∀ stmt ∈ program, stmt.IsDeclaration) → Distinct program →
    (∀ u ∈ topNames program, u ∉ symbols.map Symbol.name) →
      ∃ added, build program ⟨4, symbols⟩ = ⟨⟨4, symbols ++ added⟩, []⟩ ∧
        added.map Symbol.name = topNames program ∧
        (∀ f ∈ functionDecls program,
          .function f.head.name f.head.type (frameSymbols f) ∈ added) ∧
        ∀ head ∈ globalDecls program,
          ∃ offset initial, .var head.name head.type offset initial ∈ added
  | [], symbols, _, _, _, _ => by
    refine ⟨[], ?_, rfl, fun _ h ↦ absurd h List.not_mem_nil, fun _ h ↦ absurd h List.not_mem_nil⟩
    rw [List.append_nil]
    rfl
  | stmt :: program, symbols, hg, hdecl, hdistinct, hfree => by
    obtain ⟨hgFirst, hgRest⟩ := List.forall_mem_cons.1 hg
    obtain ⟨hdeclFirst, hdeclRest⟩ := List.forall_mem_cons.1 hdecl
    -- One symbol is put at the end, and the rest of the program goes on with the longer table.
    have hstep : ∀ symbol : Symbol, stmt.declaredName? = some symbol.name →
        putStmt ⟨4, symbols⟩ stmt = ⟨⟨4, symbols ++ [symbol]⟩, []⟩ →
        ∃ added, build (stmt :: program) ⟨4, symbols⟩ = ⟨⟨4, symbols ++ symbol :: added⟩, []⟩ ∧
          added.map Symbol.name = topNames program ∧
          (∀ f ∈ functionDecls program,
            .function f.head.name f.head.type (frameSymbols f) ∈ added) ∧
          ∀ head ∈ globalDecls program,
            ∃ offset initial, .var head.name head.type offset initial ∈ added := by
      intro symbol hname hput
      obtain ⟨added, hbuild, hadded⟩ :=
        build_eq program (symbols ++ [symbol]) hgRest hdeclRest hdistinct.tail
          (hdistinct.free_tail hname hfree)
      refine ⟨added, ?_, hadded⟩
      rw [build, hput]
      show Progress.mk (build program _).table (build program _).failures = _
      rw [hbuild, List.append_assoc]
      rfl
    cases stmt with
    | function span head parameters body =>
      have hname : head.name ∉ symbols.map Symbol.name := hfree _ List.mem_cons_self
      have hnodup := hdistinct.variables (f := ⟨head, parameters, body⟩) List.mem_cons_self
      obtain ⟨added, hbuild, hnames, hfunctions, hglobals⟩ :=
        hstep _ rfl (putFunction_eq hgFirst.2.2 hname hnodup)
      refine ⟨_, hbuild, congrArg (head.name :: ·) hnames, ?_, fun g hg ↦ ?_⟩
      · exact List.forall_mem_cons.2
          ⟨List.mem_cons_self, fun f hf ↦ List.mem_cons_of_mem _ (hfunctions f hf)⟩
      · obtain ⟨offset, initial, hmem⟩ := hglobals g hg
        exact ⟨offset, initial, List.mem_cons_of_mem _ hmem⟩
    | var span head initial =>
      have hname : head.name ∉ symbols.map Symbol.name := hfree _ List.mem_cons_self
      obtain ⟨added, hbuild, hnames, hfunctions, hglobals⟩ :=
        hstep _ rfl (putGlobal_eq hgFirst.1 hname initial)
      refine ⟨_, hbuild, congrArg (head.name :: ·) hnames,
        fun f hf ↦ List.mem_cons_of_mem _ (hfunctions f hf), ?_⟩
      refine List.forall_mem_cons.2 ⟨⟨_, _, List.mem_cons_self⟩, fun g hg ↦ ?_⟩
      obtain ⟨offset, initial, hmem⟩ := hglobals g hg
      exact ⟨offset, initial, List.mem_cons_of_mem _ hmem⟩
    | _ => exact hdeclFirst.elim

/-- Laying out the storage of a flattened program succeeds. -/
theorem build_stored {program : List Stmt} (hg : Grammatical program)
    (hdecl : ∀ stmt ∈ program, stmt.IsDeclaration) (hdistinct : Distinct program) :
    (build program {}).failures = [] ∧ Stored program (build program {}).table := by
  obtain ⟨added, hbuild, hnames, hfunctions, hglobals⟩ :=
    build_eq program [] hg hdecl hdistinct fun _ _ ↦ List.not_mem_nil
  have hempty : build program {} = ⟨⟨4, added⟩, []⟩ := hbuild
  have hnodup : (added.map Symbol.name).Nodup := hnames ▸ hdistinct.topNames
  rw [hempty]
  refine ⟨rfl, rfl, hnames, fun f hf ↦ find?_of_nodup Symbol.name hnodup (hfunctions f hf),
    fun head hhead ↦ ?_⟩
  obtain ⟨offset, initial, hmem⟩ := hglobals head hhead
  exact ⟨offset, initial, find?_of_nodup Symbol.name hnodup hmem⟩

end Layout

end ScalarMips
