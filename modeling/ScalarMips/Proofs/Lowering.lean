import ScalarMips.Proofs.Acceptance
import ScalarMips.Proofs.Storage

/-!
# Accepted programs are always lowered

Layout and generation record a failure wherever a tree breaks a promise of the earlier passes. On
the flattening of an accepted program nothing is recorded. `Flattened` gathers what is known of such
a tree: it is well typed and all its declarations have different names. From the second the tables
can be filled (`Layout.build_stored`), and then every name that the types speak of is found in them
(`Context.Covers`), which is all that generation asks for.
-/

namespace ScalarMips

/-! ### Flattened programs -/

/-- What is known of a program whose names have been made unique. -/
structure Flattened (entry : String) (program : List Stmt) : Prop where
  /-- It is a tree of the grammar. -/
  grammatical : Grammatical program
  /-- It is well typed. -/
  wellTyped : WellTyped program
  /-- All its declarations have different names. -/
  distinct : Distinct program
  /-- It has the entry point. -/
  entry_mem : entry ∈ functionNames program
  /-- All names but that of the entry point are numbered. -/
  numbered : ∀ u ∈ functionNames program ++ Stmt.variablesAll program,
    u = entry ∨ ∃ name n, u = Renaming.numbered name n

theorem flattened_of_accepted {entry : String} {program : List Stmt} (hg : Grammatical program)
    (h : Accepted entry program) : Flattened entry (Renaming.flatten entry program) := by
  have hscoped := h.scoped hg.unnested
  have hnames := Renaming.functionNames_flatten entry h.nodup hscoped
  obtain ⟨-, hrename⟩ := Renaming.rename_bindFunctions entry h.nodup
  refine ⟨hg.flatten entry, Renaming.flatten_wellTyped h.nodup hscoped (h.wellTyped hg),
    Renaming.nodup_flatten entry h.nodup hscoped, ?_, fun u hu ↦ ?_⟩
  · rw [hnames]
    exact List.mem_map.2 ⟨entry, h.entry_mem, (hrename entry h.entry_mem).1.2 rfl⟩
  · rcases List.mem_append.1 hu with hu | hu
    · rw [hnames] at hu
      obtain ⟨f, hf, rfl⟩ := List.mem_map.1 hu
      obtain ⟨hentry, hnumber⟩ := hrename f hf
      by_cases hfe : f = entry
      · exact .inl (hentry.2 hfe)
      · obtain ⟨n, hn, -⟩ := hnumber hfe
        exact .inr ⟨f, n, hn⟩
    · obtain ⟨hi, hvariables⟩ := Renaming.variables_flatten entry program
      obtain ⟨name, n, hn, -⟩ := hvariables.numbered u hu
      exact .inr ⟨name, n, hn⟩

theorem ProgramTyped.isDeclaration : ∀ {program : List Stmt} {Γ : Env}, ProgramTyped Γ program →
    ∀ stmt ∈ program, stmt.IsDeclaration
  | [], _, _ => fun _ h ↦ absurd h List.not_mem_nil
  | _ :: _, _, .function _ hrest => List.forall_mem_cons.2 ⟨trivial, hrest.isDeclaration⟩
  | _ :: _, _, .declared hrest => List.forall_mem_cons.2 ⟨trivial, hrest.isDeclaration⟩
  | _ :: _, _, .initialized _ hrest => List.forall_mem_cons.2 ⟨trivial, hrest.isDeclaration⟩

theorem Flattened.stored {entry : String} {program : List Stmt} (h : Flattened entry program) :
    (Layout.build program {}).failures = [] ∧
      Layout.Stored program (Layout.build program {}).table :=
  Layout.build_stored h.grammatical h.wellTyped.isDeclaration h.distinct

namespace Generate

variable {c : Context} {Γ : Env}

/-! ### Expressions -/

/-- The tables have what the environment speaks of. -/
def Context.Covers (c : Context) (Γ : Env) : Prop :=
  ∀ name meaning, Γ name = some meaning →
    match meaning with
    | .var _ => (c.address? name).isSome
    | .function .. => ∃ type locals, c.globals.find? name = some (.function name type locals)

theorem Context.Covers.bind (h : c.Covers Γ) {name : String} (hname : (c.address? name).isSome)
    (type : ScalarType) : c.Covers (Γ.bind name (.var type)) := by
  intro n meaning hn
  unfold Env.bind at hn
  split at hn
  · rename_i heq
    cases hn
    rw [heq]
    exact hname
  · exact h n meaning hn

theorem Context.Covers.bindAll : ∀ (parameters : List Declarator) (Γ : Env), c.Covers Γ →
    (∀ p ∈ parameters, (c.address? p.name).isSome) → c.Covers (Γ.bindAll parameters)
  | [], _, h, _ => h
  | p :: parameters, _, h, hp => by
    obtain ⟨hfirst, hrest⟩ := List.forall_mem_cons.1 hp
    exact Covers.bindAll parameters _ (h.bind hfirst p.type) hrest

theorem isSome_unaryCode? {op : Operator} (h : op.IsUnary) : (unaryCode? op).isSome := by
  rcases h with rfl | rfl | rfl <;> rfl

theorem isSome_binaryCode? {op : Operator} (h : op ≠ .not) : (binaryCode? op).isSome := by
  cases op with
  | not => exact absurd rfl h
  | _ => rfl

mutual

/-- A well-typed expression has code. -/
theorem faults_expr (hc : c.Covers Γ) : ∀ {e : Expr} {type : ScalarType}, HasType Γ e type →
    (expr c e).faults = []
  | .literal .., _, .literal hvalue => by
    rw [expr, if_pos hvalue]
    rfl
  | .var .., _, .var hname => by
    obtain ⟨address, haddress⟩ := Option.isSome_iff_exists.1 (hc _ _ hname)
    rw [expr, haddress]
    rfl
  | .unary _ op operand, _, h => by
    obtain ⟨hop, t, hoperand⟩ := h.operand
    obtain ⟨code, hcode⟩ := Option.isSome_iff_exists.1 (isSome_unaryCode? hop)
    rw [expr, hcode, Emission.faults_append, faults_expr hc hoperand]
    rfl
  | .binary _ op left right, _, h => by
    obtain ⟨hop, l, r, hl, hr⟩ := h.operands
    obtain ⟨code, hcode⟩ := Option.isSome_iff_exists.1 (isSome_binaryCode? hop)
    rw [expr, hcode, Emission.faults_append, Emission.faults_append, faults_expr hc hl,
      faults_expr hc hr]
    rfl
  | .call _ name arguments, _, .call hname harguments => by
    obtain ⟨type, locals, hfind⟩ := hc _ _ hname
    rw [expr, hfind, Emission.faults_append, faults_arguments hc harguments]
    rfl

theorem faults_arguments (hc : c.Covers Γ) : ∀ {es : List Expr} {types : List ScalarType},
    HaveTypes Γ es types → (argumentsCode c es).faults = []
  | [], _, .nil => rfl
  | e :: es, _, .cons he hes => by
    rw [argumentsCode, Emission.faults_append, faults_arguments hc hes, faults_expr hc he]
    rfl

end

/-! ### Statements -/

theorem faults_remark (c : Context) (s : Stmt) : (remark c s).faults = [] := by
  unfold remark
  split <;> rfl

theorem faults_store (hc : c.Covers Γ) {name : String} (hname : (c.address? name).isSome)
    {value : Option Expr} (hvalue : ∀ e, value = some e → ∃ type, HasType Γ e type) :
    (storeCode c name value).faults = [] := by
  obtain ⟨address, haddress⟩ := Option.isSome_iff_exists.1 hname
  unfold storeCode
  rw [haddress]
  cases value with
  | none => rfl
  | some e =>
    obtain ⟨type, he⟩ := hvalue e rfl
    show (expr c e).faults ++ [] = []
    rw [faults_expr hc he]
    rfl

theorem faults_condition (hc : c.Covers Γ) {condition : Expr} {type : ScalarType}
    (h : HasType Γ condition type) (otherwise : String) :
    (conditionCode c condition otherwise).faults = [] := by
  show (expr c condition).faults ++ [] = []
  rw [faults_expr hc h]
  rfl

theorem faults_print (hc : c.Covers Γ) (ending : PrintEnd) {value : Option Expr}
    (hvalue : ∀ e, value = some e → ∃ type, HasType Γ e type) :
    (printCode c ending value).faults = [] := by
  cases value with
  | none => rfl
  | some e =>
    obtain ⟨type, he⟩ := hvalue e rfl
    show ((expr c e).faults ++ []) ++ [] = []
    rw [faults_expr hc he]
    rfl

theorem Context.Covers.after (hc : c.Covers Γ) {stmt : Stmt}
    (h : ∀ u ∈ stmt.variables, (c.address? u).isSome) : c.Covers (Γ.after stmt) := by
  cases stmt with
  | var span head initial => exact hc.bind (h head.name List.mem_cons_self) head.type
  | _ => exact hc

mutual

/-- A well-typed statement whose variables are stored has code. -/
theorem faults_stmt {result : ScalarType} : ∀ {stmt : Stmt} {Γ : Env} (n : UInt32),
    Typed result Γ stmt → c.Covers Γ → (∀ u ∈ stmt.variables, (c.address? u).isSome) →
      (Generate.stmt c stmt n).faults = []
  | .block .., _, n, .block hbody, hc, hstored => by
    rw [Generate.stmt, Emission.faults_append, faults_remark, faults_stmts n hbody hc hstored]
    rfl
  | .var _ head none, _, _, .declared, hc, hstored => by
    have hstore := @faults_store c _ hc _ (hstored head.name List.mem_cons_self) none nofun
    rw [Generate.stmt, Emission.faults_append, faults_remark, hstore]
    rfl
  | .var _ head (some value), _, _, .initialized hvalue, hc, hstored => by
    have hstore := @faults_store c _ hc _ (hstored head.name List.mem_cons_self) (some value)
      fun _ h ↦ ⟨_, Option.some.inj h ▸ hvalue⟩
    rw [Generate.stmt, Emission.faults_append, faults_remark, hstore]
    rfl
  | .assign _ name _ value, _, _, .assign hname hvalue, hc, _ => by
    rw [Generate.stmt, Emission.faults_append, faults_remark,
      faults_store hc (hc _ _ hname) fun _ h ↦ ⟨_, Option.some.inj h ▸ hvalue⟩]
    rfl
  | .conditional _ _ thenBranch none, _, n, .when hcondition hthen, hc, hstored => by
    have hthen := faults_stmt (n + 1) hthen hc hstored
    simp only [Generate.stmt, Emission.faults_append, faults_remark,
      faults_condition hc hcondition, hthen]
    rfl
  | .conditional _ _ thenBranch (some elseBranch), _, n, .choose hcondition hthen helse, hc,
      hstored => by
    obtain ⟨hstoredThen, hstoredElse⟩ := List.forall_mem_append.1 hstored
    have hthen := faults_stmt (n + 1) hthen hc hstoredThen
    have helse := faults_stmt (n + 1 + UInt32.ofNat (branchCount thenBranch)) helse hc hstoredElse
    simp only [Generate.stmt, Emission.faults_append, faults_remark,
      faults_condition hc hcondition, hthen, helse]
    rfl
  | .loop .., _, n, .loop hcondition hbody, hc, hstored => by
    have hbody := faults_stmt (n + 1) hbody hc hstored
    simp only [Generate.stmt, Emission.faults_append, faults_remark,
      faults_condition hc hcondition, hbody]
    rfl
  | .evaluate .., _, _, .evaluate hvalue, hc, _ => by
    rw [Generate.stmt, Emission.faults_append, Emission.faults_append, faults_remark,
      faults_expr hc hvalue]
    rfl
  | .return_ .., _, _, .return_ hvalue, hc, _ => by
    rw [Generate.stmt, Emission.faults_append, Emission.faults_append, faults_remark,
      faults_expr hc hvalue]
    rfl
  | .print _ ending none, _, _, .separate, hc, _ => by
    rw [Generate.stmt, Emission.faults_append, faults_remark,
      @faults_print c _ hc ending none nofun]
    rfl
  | .print _ ending (some value), _, _, .print hvalue, hc, _ => by
    rw [Generate.stmt, Emission.faults_append, faults_remark,
      faults_print hc ending fun _ h ↦ ⟨_, Option.some.inj h ▸ hvalue⟩]
    rfl

/-- Well-typed statements whose variables are stored have code. -/
theorem faults_stmts {result : ScalarType} : ∀ {body : List Stmt} {Γ : Env} (n : UInt32),
    TypedAll result Γ body → c.Covers Γ → (∀ u ∈ Stmt.variablesAll body, (c.address? u).isSome) →
      (stmts c body n).faults = []
  | [], _, _, .nil, _, _ => rfl
  | stmt :: body, _, n, .cons hfirst hrest, hc, hstored => by
    obtain ⟨hstoredFirst, hstoredRest⟩ := List.forall_mem_append.1 hstored
    rw [stmts, Emission.faults_append, faults_stmt n hfirst hc hstoredFirst,
      faults_stmts _ hrest (hc.after hstoredFirst) hstoredRest]
    rfl

end

/-! ### Programs -/

/-- The global table has what the environment speaks of. -/
def Tabled (table : SymbolTable) (Γ : Env) : Prop :=
  ∀ name meaning, Γ name = some meaning →
    match meaning with
    | .var _ => ∃ type offset initial, table.find? name = some (.var name type offset initial)
    | .function .. => ∃ type locals, table.find? name = some (.function name type locals)

theorem Tabled.bind {table : SymbolTable} (h : Tabled table Γ) {name : String}
    (hname : ∃ type offset initial, table.find? name = some (.var name type offset initial))
    (type : ScalarType) : Tabled table (Γ.bind name (.var type)) := by
  intro n meaning hn
  unfold Env.bind at hn
  split at hn
  · rename_i heq
    cases hn
    rw [heq]
    exact hname
  · exact h n meaning hn

theorem tabled_signatures {program : List Stmt} {table : SymbolTable}
    (h : Layout.Stored program table) : Tabled table (signatures program) := by
  intro name meaning hname
  obtain ⟨f, hf, rfl, rfl⟩ := exists_of_signatures hname
  exact ⟨_, _, h.function f hf⟩

end Generate

namespace Layout

theorem mem_parameterSymbols {s : Symbol} : ∀ (parameters : List Declarator) (n : Nat),
    s ∈ parameterSymbols n parameters → ∃ name type offset, s = .parameter name type offset
  | [], _, h => absurd h List.not_mem_nil
  | _ :: parameters, n, h => by
    rcases List.mem_cons.1 h with rfl | h
    · exact ⟨_, _, _, rfl⟩
    · exact mem_parameterSymbols parameters (n + 1) h

theorem mem_localSymbols {s : Symbol} : ∀ (declared : List Declared) (n : Nat),
    s ∈ localSymbols n declared → ∃ name type offset, s = .var name type offset none
  | [], _, h => absurd h List.not_mem_nil
  | .function _ :: declared, n, h => mem_localSymbols declared n h
  | .var .. :: declared, n, h => by
    rcases List.mem_cons.1 h with rfl | h
    · exact ⟨_, _, _, rfl⟩
    · exact mem_localSymbols declared (n + 1) h

/-- A function has nothing but parameters and variables. -/
theorem mem_frameSymbols {f : FunctionDecl} {s : Symbol} (h : s ∈ frameSymbols f) :
    (∃ name type offset, s = .parameter name type offset) ∨
      ∃ name type offset, s = .var name type offset none :=
  (List.mem_append.1 h).imp (mem_parameterSymbols _ _) (mem_localSymbols _ _)

end Layout

namespace Generate

/-- The context in which the code of a function is generated. -/
def Context.ofFunction (table : SymbolTable) (f : FunctionDecl) (annotate : Bool) : Context :=
  ⟨table, ⟨table.wordSize, Layout.frameSymbols f⟩, f.head.name, annotate⟩

/-- Every variable of a function has an address in it. -/
theorem isSome_address?_of_mem {table : SymbolTable} {f : FunctionDecl} {annotate : Bool}
    (hbody : Stmt.AllGrammatical f.body) {name : String} (h : name ∈ f.variables) :
    ((Context.ofFunction table f annotate).address? name).isSome := by
  rw [← Layout.names_frameSymbols hbody] at h
  obtain ⟨s, hs, hname⟩ := List.mem_map.1 h
  have hfind : (SymbolTable.mk table.wordSize (Layout.frameSymbols f)).find? name ≠ none := by
    intro hnone
    exact List.find?_eq_none.1 hnone s hs (decide_eq_true hname)
  obtain ⟨found, hfound⟩ := Option.ne_none_iff_exists'.1 hfind
  unfold Context.address? Context.ofFunction
  rw [hfound]
  rcases Layout.mem_frameSymbols (List.mem_of_find?_eq_some hfound) with
    ⟨_, _, _, rfl⟩ | ⟨_, _, _, rfl⟩
  · rfl
  · rfl

/-- Every global variable has an address in every function, unless the function hides it by a
variable of its own, which then has one. -/
theorem isSome_address?_of_global {table : SymbolTable} {f : FunctionDecl} {annotate : Bool}
    {name : String}
    (h : ∃ type offset initial, table.find? name = some (.var name type offset initial)) :
    ((Context.ofFunction table f annotate).address? name).isSome := by
  obtain ⟨type, offset, initial, hfind⟩ := h
  unfold Context.address? Context.ofFunction
  cases hfound : (SymbolTable.mk table.wordSize (Layout.frameSymbols f)).find? name with
  | none =>
    rw [hfind]
    rfl
  | some s =>
    rcases Layout.mem_frameSymbols (List.mem_of_find?_eq_some hfound) with
      ⟨_, _, _, rfl⟩ | ⟨_, _, _, rfl⟩
    · rfl
    · rfl

theorem covers_of_tabled {table : SymbolTable} {f : FunctionDecl} {annotate : Bool}
    (h : Tabled table Γ) : (Context.ofFunction table f annotate).Covers Γ := by
  intro name meaning hname
  have htabled := h name meaning hname
  cases meaning with
  | var type => exact isSome_address?_of_global htabled
  | function parameters result => exact htabled

/-- The table of a function as generation finds it. -/
theorem locals?_eq {program : List Stmt} {table : SymbolTable} (h : Layout.Stored program table)
    {f : FunctionDecl} (hf : f ∈ functionDecls program) :
    table.locals? f.head.name = some ⟨table.wordSize, Layout.frameSymbols f⟩ := by
  rw [SymbolTable.locals?, h.function f hf]
  rfl

/-- A well-typed function has code. -/
theorem faults_function {table : SymbolTable} {f : FunctionDecl} {annotate : Bool}
    (hbody : Stmt.AllGrammatical f.body) (hΓ : Tabled table Γ)
    (h : TypedAll f.head.type (Γ.bindAll f.parameters) f.body) (entry : String) (n : UInt32) :
    (function (Context.ofFunction table f annotate) entry f.body n).faults = [] := by
  have hvariables : ∀ u ∈ f.variables,
      ((Context.ofFunction table f annotate).address? u).isSome :=
    fun u hu ↦ isSome_address?_of_mem hbody hu
  obtain ⟨hparameters, hlocals⟩ := List.forall_mem_append.1 hvariables
  have hcovers := Context.Covers.bindAll f.parameters Γ (covers_of_tabled hΓ)
    (List.forall_mem_map.1 hparameters)
  have hstmts := faults_stmts n h hcovers hlocals
  simp only [function, Emission.faults_append, hstmts]
  rfl

/-- A well-typed program whose declarations are stored has code. -/
theorem failures_functions (table : SymbolTable) (options : Options) : ∀ {program : List Stmt}
    {Γ : Env} (n : UInt32), ProgramTyped Γ program → Grammatical program → Tabled table Γ →
    (∀ f ∈ functionDecls program,
      table.locals? f.head.name = some ⟨table.wordSize, Layout.frameSymbols f⟩) →
    (∀ head ∈ globalDecls program,
      ∃ type offset initial, table.find? head.name = some (.var head.name type offset initial)) →
      (functions table options program n).failures = []
  | [], _, _, .nil, _, _, _, _ => rfl
  | .function span head parameters body :: program, _, n, .function hbody hrest, hg, hΓ, hlocals,
      hglobals => by
    obtain ⟨hgFirst, hgRest⟩ := List.forall_mem_cons.1 hg
    obtain ⟨hlocalsFirst, hlocalsRest⟩ := List.forall_mem_cons.1 hlocals
    have hfirst :
        (topLevel table options n (.function span head parameters body)).failures = [] := by
      rw [topLevel, hlocalsFirst]
      exact congrArg (List.map _)
        (faults_function (f := ⟨head, parameters, body⟩) hgFirst.2.2 hΓ hbody options.entry n)
    rw [functions]
    show _ ++ _ = []
    rw [hfirst, failures_functions table options _ hrest hgRest hΓ hlocalsRest hglobals]
    rfl
  | .var span head none :: program, _, n, .declared hrest, hg, hΓ, hlocals, hglobals => by
    obtain ⟨hglobal, hglobalsRest⟩ := List.forall_mem_cons.1 hglobals
    show [] ++ (functions table options program _).failures = []
    exact failures_functions table options _ hrest (List.forall_mem_cons.1 hg).2
      (hΓ.bind hglobal head.type) hlocals hglobalsRest
  | .var span head (some value) :: program, _, n, .initialized _ hrest, hg, hΓ, hlocals,
      hglobals => by
    obtain ⟨hglobal, hglobalsRest⟩ := List.forall_mem_cons.1 hglobals
    show [] ++ (functions table options program _).failures = []
    exact failures_functions table options _ hrest (List.forall_mem_cons.1 hg).2
      (hΓ.bind hglobal head.type) hlocals hglobalsRest

/-- Generation succeeds on a flattened program. -/
theorem program_eq_ok {entry : String} {stmts : List Stmt} (h : Flattened entry stmts)
    (annotate : Bool) :
    program (Layout.build stmts {}).table { entry, annotate } stmts =
      .ok (dataSection (Layout.build stmts {}).table ++ preamble entry ++
        (functions (Layout.build stmts {}).table { entry, annotate } stmts 0).code) := by
  obtain ⟨-, hstored⟩ := h.stored
  obtain ⟨f, hf, hentry⟩ := List.mem_map.1 h.entry_mem
  have hlocals := locals?_eq hstored hf
  rw [hentry] at hlocals
  have hfailures := failures_functions (Layout.build stmts {}).table { entry, annotate } 0
    h.wellTyped h.grammatical (tabled_signatures hstored) (fun f hf ↦ locals?_eq hstored hf)
    fun head hhead ↦ ⟨head.type, hstored.global head hhead⟩
  have hsize : ¬ (4 : UInt32) ≠ (Layout.build stmts {}).table.wordSize := by
    rw [hstored.wordSize]
    decide
  unfold program
  rw [if_neg hsize, hlocals]
  show (if List.isEmpty (functions _ _ stmts 0).failures = true then _ else _) = _
  rw [hfailures]
  rfl

end Generate

/-! ### Compilation -/

/-- Lowering succeeds on the flattening of every program of the grammar that the checks accept. -/
theorem Compile.lower_eq {settings : Settings} {program : List Stmt} (hg : Grammatical program)
    (h : Accepted settings.entry program) :
    ∃ symbols code,
      Generate.program (Layout.build (Renaming.flatten settings.entry program) {}).table
          { entry := settings.entry, annotate := settings.annotate }
          (Renaming.flatten settings.entry program) = .ok code ∧
        Compile.lower settings program = .compiled program.length symbols code.text := by
  have hflat := flattened_of_accepted hg h
  have hok := Generate.program_eq_ok hflat settings.annotate
  refine ⟨if settings.dumpSymbols then
    (Layout.build (Renaming.flatten settings.entry program) {}).table.describe else "", _, hok, ?_⟩
  unfold Compile.lower
  simp only [hflat.stored.1, List.isEmpty_nil, hok]
  rfl

/-- A compilation that succeeds has gone through all stages. -/
theorem exists_of_succeeded {settings : Settings} {source : String}
    (h : (compile settings source).succeeded) :
    ∃ program code, parse (lex source).tokens = .ok program ∧ Accepted settings.entry program ∧
      Generate.program (Layout.build (Renaming.flatten settings.entry program) {}).table
          { entry := settings.entry, annotate := settings.annotate }
          (Renaming.flatten settings.entry program) = .ok code ∧
        (compile settings source).assembly = code.text := by
  unfold compile at h ⊢
  simp only at h ⊢
  split at h
  · cases h
  · split at h
    · cases h
    · rename_i hfault _ program hparse
      split at h
      · rename_i hcount
        have haccepted := countProblems_check.1 hcount
        obtain ⟨symbols, code, hcode, hlower⟩ :=
          Compile.lower_eq (parse_grammatical hparse) haccepted
        refine ⟨program, code, hparse, haccepted, hcode, ?_⟩
        simp only [hcount, hlower]
        rfl
      · cases h

/-- A text that can be read and whose program is accepted is compiled. -/
theorem succeeded_of_accepted {settings : Settings} {source : String} {program : List Stmt}
    (hlex : (lex source).fault = none) (hparse : parse (lex source).tokens = .ok program)
    (h : Accepted settings.entry program) : (compile settings source).succeeded := by
  obtain ⟨symbols, code, -, hlower⟩ := Compile.lower_eq (parse_grammatical hparse) h
  unfold compile
  simp only [hlex, hparse, countProblems_check.2 h, if_pos, hlower]
  rfl

/-- **Checked programs always lower.** Compiling any text with any settings records no failure of
lowering. Either there are reports, the way ended at one of the first three stages and there is no
assembly, or there are none, the way was gone to its end and the assembly is that of the generated
code. In other words, on the flattening of any program read from tokens that the three checks
accept, neither layout nor generation records anything. -/
theorem compile_lowers (settings : Settings) (source : String) :
    (compile settings source).failures = [] ∧ (compile settings source).stage ≠ .lowering ∧
      (((compile settings source).reports ≠ [] ∧
          (compile settings source).stage ∈ [.lexing, .parsing, .checking] ∧
          (compile settings source).assembly = "") ∨
        ((compile settings source).reports = [] ∧ (compile settings source).stage = .complete ∧
          ∃ program code, parse (lex source).tokens = .ok program ∧
            Accepted settings.entry program ∧
            Generate.program (Layout.build (Renaming.flatten settings.entry program) {}).table
                { entry := settings.entry, annotate := settings.annotate }
                (Renaming.flatten settings.entry program) = .ok code ∧
            (compile settings source).assembly = code.text)) ∧
      ∀ tokens program, parse tokens = .ok program → Accepted settings.entry program →
        (Layout.build (Renaming.flatten settings.entry program) {}).failures = [] ∧
          ∃ code, Generate.program
            (Layout.build (Renaming.flatten settings.entry program) {}).table
            { entry := settings.entry, annotate := settings.annotate }
            (Renaming.flatten settings.entry program) = .ok code := by
  have hlowers : ∀ tokens program, parse tokens = .ok program → Accepted settings.entry program →
      (Layout.build (Renaming.flatten settings.entry program) {}).failures = [] ∧
        ∃ code, Generate.program
          (Layout.build (Renaming.flatten settings.entry program) {}).table
          { entry := settings.entry, annotate := settings.annotate }
          (Renaming.flatten settings.entry program) = .ok code := by
    intro tokens program hparse haccepted
    have hflat := flattened_of_accepted (parse_grammatical hparse) haccepted
    exact ⟨hflat.stored.1, _, Generate.program_eq_ok hflat settings.annotate⟩
  unfold compile
  simp only
  split
  · exact ⟨rfl, nofun, .inl ⟨List.cons_ne_nil _ _, List.mem_cons_self, rfl⟩, hlowers⟩
  · split
    · exact ⟨rfl, nofun,
        .inl ⟨List.cons_ne_nil _ _, List.mem_cons_of_mem _ List.mem_cons_self, rfl⟩, hlowers⟩
    · rename_i program hparse
      split
      · rename_i hcount
        have haccepted := countProblems_check.1 hcount
        obtain ⟨symbols, code, hcode, hlower⟩ :=
          Compile.lower_eq (parse_grammatical hparse) haccepted
        rw [hlower]
        exact ⟨rfl, nofun, .inr ⟨rfl, rfl, program, code, hparse, haccepted, hcode, rfl⟩, hlowers⟩
      · rename_i hcount
        have hreports : Compile.check settings.entry (Source.lines source) program ≠ [] := by
          intro hnil
          rw [hnil] at hcount
          exact hcount rfl
        exact ⟨rfl, nofun, .inl ⟨hreports,
          List.mem_cons_of_mem _ (List.mem_cons_of_mem _ List.mem_cons_self), rfl⟩, hlowers⟩

end ScalarMips
