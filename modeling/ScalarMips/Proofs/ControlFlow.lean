import ScalarMips.Proofs.UniqueLabels

/-!
# Closed control flow

Where the code of a program can go. An assembly consists of words of data, a jump to the entry point
and a block for every function (`Assembly`). It is closed if every jump and every branch stays in
its block, every call goes to the opening label of a block and every labelled operand is a word of
data, and if all these labels are defined just once (`Assembly.Closed`).

A piece of code is confined to labels and tables if all that its instructions refer to is among them
(`Confined`). The code of an expression refers to no label of its own; that of a statement refers to
labels that it defines itself and to the exit of the function around it. So a function is confined
to its own names, and since no name is defined twice (`nodup_names`), the assembly of every accepted
program is closed (`compile_closed`).
-/

namespace ScalarMips

/-! ### What instructions refer to -/

/-- The label that a branch or a jump goes to. -/
def Instruction.target? : Instruction → Option String
  | beq _ _ label | j label => some label
  | _ => none

/-- The label that is called. -/
def Instruction.callee? : Instruction → Option String
  | jal label => some label
  | _ => none

/-- The label of the word that is loaded or stored. -/
def Instruction.operand? : Instruction → Option String
  | lw _ (.label name) | sw _ (.label name) => some name
  | _ => none

/-! ### The parts of an assembly -/

/-- The code of a function: its opening label and what follows it. -/
structure Block where
  /-- The opening label. -/
  name : String
  /-- What follows. -/
  body : Code

/-- The code of a block, which an empty line sets off. -/
def Block.code (b : Block) : Code :=
  .blank :: .label b.name :: b.body

/-- The parts of an assembly. -/
structure Assembly where
  /-- The function to start with. -/
  entry : String
  /-- The words of data. -/
  words : List (String × Int32)
  /-- The blocks of the functions. -/
  blocks : List Block

namespace Assembly

/-- The code with the given parts. -/
def code (a : Assembly) : Code :=
  (.directive ".data" :: a.words.map fun (name, value) ↦ .word name value) ++
    Generate.preamble a.entry ++ a.blocks.flatMap Block.code

/-- A label is defined exactly once. -/
def Defines (a : Assembly) (label : String) : Prop :=
  (Code.names a.code).count label = 1

/-- Nothing outside of an assembly is referred to, and no jump leaves its block. Only the jump to
the entry point stands outside of all blocks. -/
structure Closed (a : Assembly) : Prop where
  /-- Branches and jumps stay in their block. -/
  jump : ∀ block ∈ a.blocks, ∀ i ∈ Code.instructions block.code, ∀ label,
    i.target? = some label → a.Defines label ∧ label ∈ Code.names block.code
  /-- Calls go to the opening labels of blocks. -/
  call : ∀ i ∈ Code.instructions a.code, ∀ label,
    i.callee? = some label → a.Defines label ∧ label ∈ a.blocks.map Block.name
  /-- Labelled operands are words of data. -/
  operand : ∀ i ∈ Code.instructions a.code, ∀ label,
    i.operand? = some label → a.Defines label ∧ label ∈ a.words.map Prod.fst

end Assembly

namespace Generate

/-- All that an instruction refers to is there: the target of a jump among some labels, and callees
and operands in the global table. -/
def Refers (c : Context) (labels : List String) : Instruction → Prop
  | .beq _ _ label | .j label => label ∈ labels
  | .jal name => ∃ type locals, c.globals.find? name = some (.function name type locals)
  | .lw _ (.label name) | .sw _ (.label name) =>
    ∃ type offset initial, c.globals.find? name = some (.var name type offset initial)
  | _ => True

/-- All that a piece of code refers to is there. -/
def Confined (c : Context) (labels : List String) (code : Code) : Prop :=
  ∀ i ∈ Code.instructions code, Refers c labels i

variable {c : Context} {labels : List String}

theorem Refers.target {i : Instruction} (h : Refers c labels i) {label : String}
    (hlabel : i.target? = some label) : label ∈ labels := by
  unfold Instruction.target? at hlabel
  split at hlabel <;> cases hlabel <;> exact h

theorem Refers.callee {i : Instruction} (h : Refers c labels i) {name : String}
    (hname : i.callee? = some name) :
    ∃ type locals, c.globals.find? name = some (.function name type locals) := by
  unfold Instruction.callee? at hname
  split at hname <;> cases hname
  exact h

theorem Refers.operand {i : Instruction} (h : Refers c labels i) {name : String}
    (hname : i.operand? = some name) :
    ∃ type offset initial, c.globals.find? name = some (.var name type offset initial) := by
  unfold Instruction.operand? at hname
  split at hname <;> cases hname <;> exact h

theorem Refers.mono {more : List String} {i : Instruction} (h : Refers c labels i)
    (hsub : labels ⊆ more) : Refers c more i := by
  unfold Refers at h ⊢
  split at h <;> first | exact hsub h | exact h

theorem Confined.mono {more : List String} {code : Code} (h : Confined c labels code)
    (hsub : labels ⊆ more) : Confined c more code :=
  fun i hi ↦ (h i hi).mono hsub

/-- A part of some code stays confined when the names of the whole code are known. -/
theorem Confined.within {exit : String} {more : List String} {code : Code}
    (h : Confined c (exit :: labels) code) (hsub : labels ⊆ more) :
    Confined c (exit :: more) code :=
  h.mono (List.cons_subset_cons exit hsub)

@[simp] theorem confined_append {first second : Code} :
    Confined c labels (first ++ second) ↔ Confined c labels first ∧ Confined c labels second := by
  unfold Confined
  rw [Code.instructions_append, List.forall_mem_append]

theorem instructions_ofInstructions (block : List Instruction) :
    Code.instructions (Emission.ofInstructions block).code = block := by
  induction block with
  | nil => rfl
  | cons i block ih => exact congrArg (i :: ·) ih

@[simp] theorem confined_instructions {block : List Instruction} :
    Confined c labels (Emission.ofInstructions block).code ↔ ∀ i ∈ block, Refers c labels i := by
  rw [Confined, instructions_ofInstructions]

@[simp] theorem confined_label (name : String) : Confined c labels (Emission.label name).code :=
  fun _ h ↦ absurd h List.not_mem_nil

@[simp] theorem confined_fault (fault : EmissionFault) :
    Confined c labels (Emission.fault fault).code :=
  fun _ h ↦ absurd h List.not_mem_nil

@[simp] theorem confined_remark (s : Stmt) : Confined c labels (remark c s).code := by
  unfold remark
  split <;> exact fun _ h ↦ absurd h List.not_mem_nil

theorem name_of_find? {table : SymbolTable} {name : String} {s : Symbol}
    (h : table.find? name = some s) : s.name = name := by
  simpa using List.find?_some h

/-- The variables of a function are found through the frame pointer, and only global ones by a
label. -/
theorem operand_of_address? {name label : String} (h : c.address? name = some (.label label)) :
    ∃ type offset initial, c.globals.find? label = some (.var label type offset initial) := by
  unfold Context.address? at h
  split at h
  · cases h
  · cases h
  · split at h
    · rename_i symbol type offset initial hfind
      cases h
      cases name_of_find? hfind
      exact ⟨type, offset, initial, hfind⟩
    · cases h

theorem refers_lw {name : String} {address : Address} (h : c.address? name = some address)
    (r : Register) : Refers c labels (.lw r address) := by
  cases address with
  | label name => exact operand_of_address? h
  | above | below => trivial

theorem refers_sw {name : String} {address : Address} (h : c.address? name = some address)
    (r : Register) : Refers c labels (.sw r address) := by
  cases address with
  | label name => exact operand_of_address? h
  | above | below => trivial

@[simp] theorem refers_push (r : Register) : ∀ i ∈ c.push r, Refers c labels i := by
  simp [Context.push, Refers]

@[simp] theorem refers_pop (r : Register) : ∀ i ∈ c.pop r, Refers c labels i := by
  simp [Context.pop, Refers]

/-! ### Expressions -/

theorem refers_unaryCode? {op : Operator} {code : List Instruction}
    (h : unaryCode? op = some code) : ∀ i ∈ code, Refers c labels i := by
  cases op <;> cases h <;> simp [Refers]

theorem refers_binaryCode? {op : Operator} {code : List Instruction}
    (h : binaryCode? op = some code) : ∀ i ∈ code, Refers c labels i := by
  cases op <;> cases h <;> simp [Refers]

theorem refers_callCode {name : String} {type : ScalarType} {locals : List Symbol}
    (h : c.globals.find? name = some (.function name type locals)) (n : Nat) :
    ∀ i ∈ callCode c name n, Refers c labels i := by
  have hcall : Refers c labels (.jal name) := ⟨type, locals, h⟩
  unfold callCode
  rw [List.cons_append, List.forall_mem_cons, List.forall_mem_append]
  refine ⟨hcall, ?_, refers_push .v0⟩
  split <;> simp [Refers]

theorem find?_function {t : SymbolTable} {name found : String} {type : ScalarType}
    {locals : List Symbol} (h : t.find? name = some (.function found type locals)) :
    t.find? name = some (.function name type locals) := by
  cases name_of_find? h
  exact h

mutual

/-- The code of an expression does not jump. -/
theorem confined_expr (c : Context) (labels : List String) : ∀ e : Expr,
    Confined c labels (expr c e).code
  | .literal _ value => by
    rw [expr]
    split
    · rw [confined_instructions, List.forall_mem_cons]
      exact ⟨trivial, refers_push .t0⟩
    · exact confined_fault _
  | .var _ name => by
    rw [expr]
    split
    · rename_i address haddress
      rw [confined_instructions, List.forall_mem_cons]
      exact ⟨refers_lw haddress .t0, refers_push .t0⟩
    · exact confined_fault _
  | .unary _ op operand => by
    have hoperand := confined_expr c labels operand
    rw [expr]
    split
    · rename_i code hcode
      rw [Emission.code_append, confined_append, confined_instructions, List.forall_mem_append,
        List.forall_mem_append]
      exact ⟨hoperand, ⟨refers_pop .t0, refers_unaryCode? hcode⟩, refers_push .t0⟩
    · exact confined_append.2 ⟨hoperand, confined_fault _⟩
  | .binary _ op left right => by
    have hleft := confined_expr c labels left
    have hright := confined_expr c labels right
    rw [expr]
    split
    · rename_i code hcode
      simp only [Emission.code_append, confined_append, confined_instructions,
        List.forall_mem_append]
      exact ⟨⟨hleft, hright⟩, ⟨⟨refers_pop .t1, refers_pop .t0⟩, refers_binaryCode? hcode⟩,
        refers_push .t0⟩
    · exact confined_append.2 ⟨confined_append.2 ⟨hleft, hright⟩, confined_fault _⟩
  | .call _ name arguments => by
    rw [expr]
    split
    · rename_i hfind
      rw [Emission.code_append, confined_append, confined_instructions]
      exact ⟨confined_arguments c labels arguments, refers_callCode (find?_function hfind) _⟩
    · exact confined_fault _

theorem confined_arguments (c : Context) (labels : List String) : ∀ es : List Expr,
    Confined c labels (argumentsCode c es).code
  | [] => fun _ h ↦ absurd h List.not_mem_nil
  | e :: es =>
    confined_append.2 ⟨confined_arguments c labels es, confined_expr c labels e⟩

end

/-! ### Statements -/

theorem confined_store (name : String) (value : Option Expr) :
    Confined c labels (storeCode c name value).code := by
  unfold storeCode
  split
  · exact confined_fault _
  · rename_i address value haddress
    rw [Emission.code_append, confined_append, confined_instructions, List.forall_mem_append]
    refine ⟨confined_expr c labels value, refers_pop .t0, ?_⟩
    simpa using refers_sw haddress .t0
  · rename_i address haddress
    simpa using refers_sw haddress .zero

theorem confined_condition {otherwise : String} (condition : Expr) (h : otherwise ∈ labels) :
    Confined c labels (conditionCode c condition otherwise).code := by
  rw [conditionCode, Emission.code_append, confined_append, confined_instructions,
    List.forall_mem_append]
  exact ⟨confined_expr c labels condition, refers_pop .t0, by simpa [Refers] using h⟩

theorem confined_print (ending : PrintEnd) (value : Option Expr) :
    Confined c labels (printCode c ending value).code := by
  have hending : ∀ i ∈ (endCharacter? ending).elim [] characterCode, Refers c labels i := by
    cases ending <;> simp [endCharacter?, characterCode, serviceCode, Refers]
  cases value with
  | none =>
    refine confined_append.2 ⟨fun _ h ↦ absurd h List.not_mem_nil, ?_⟩
    exact confined_instructions.2 hending
  | some value =>
    refine confined_append.2 ⟨confined_append.2 ⟨confined_expr c labels value, ?_⟩, ?_⟩
    · rw [confined_instructions, List.forall_mem_append]
      exact ⟨refers_pop .a0, by simp [serviceCode, Refers]⟩
    · exact confined_instructions.2 hending

mutual

/-- A statement jumps to labels that it defines itself, and to the exit of the function. -/
theorem confined_stmt (c : Context) : ∀ (s : Stmt) (n : UInt32),
    Confined c (exitLabel c.function :: Code.names (stmt c s n).code) (stmt c s n).code
  | .block _ body, n => by
    rw [stmt, Emission.code_append, confined_append, Code.names_append, names_remark]
    exact ⟨confined_remark _, confined_stmts c body n⟩
  | .function .., n => by
    rw [stmt, Emission.code_append, confined_append]
    exact ⟨confined_remark _, confined_fault _⟩
  | .var .., n => by
    rw [stmt, Emission.code_append, confined_append]
    exact ⟨confined_remark _, confined_store _ _⟩
  | .assign .., n => by
    rw [stmt, Emission.code_append, confined_append]
    exact ⟨confined_remark _, confined_store _ _⟩
  | .conditional _ condition thenBranch none, n => by
    have hthen := confined_stmt c thenBranch (n + 1)
    simp only [stmt, Emission.code_append, confined_append, Code.names_append, names_remark,
      names_condition, names_instructions, names_label, confined_instructions, List.nil_append,
      List.append_nil, confined_remark, confined_label, true_and, and_true]
    exact ⟨⟨confined_condition condition (by simp), hthen.within (by simp)⟩, by simp [Refers]⟩
  | .conditional _ condition thenBranch (some elseBranch), n => by
    have hthen := confined_stmt c thenBranch (n + 1)
    have helse := confined_stmt c elseBranch (n + 1 + UInt32.ofNat (branchCount thenBranch))
    simp only [stmt, Emission.code_append, confined_append, Code.names_append, names_remark,
      names_condition, names_instructions, names_label, confined_instructions, List.nil_append,
      List.append_nil, confined_remark, confined_label, true_and, and_true]
    exact ⟨⟨⟨confined_condition condition (by simp), hthen.within (by simp)⟩, by simp [Refers]⟩,
      helse.within fun label hlabel ↦ by simp [hlabel]⟩
  | .loop _ condition body, n => by
    have hbody := confined_stmt c body (n + 1)
    simp only [stmt, Emission.code_append, confined_append, Code.names_append, names_remark,
      names_condition, names_instructions, names_label, confined_instructions, List.nil_append,
      List.append_nil, confined_remark, confined_label, true_and, and_true]
    exact ⟨⟨confined_condition condition (by simp), hbody.within (by simp)⟩, by simp [Refers]⟩
  | .evaluate _ value, n => by
    rw [stmt, Emission.code_append, Emission.code_append, confined_append, confined_append]
    exact ⟨⟨confined_remark _, confined_expr c _ value⟩, by simp [Refers]⟩
  | .return_ _ value, n => by
    rw [stmt, Emission.code_append, Emission.code_append, confined_append, confined_append,
      confined_instructions, List.forall_mem_append]
    exact ⟨⟨confined_remark _, confined_expr c _ value⟩, refers_pop .v0, by simp [Refers]⟩
  | .print .., n => by
    rw [stmt, Emission.code_append, confined_append]
    exact ⟨confined_remark _, confined_print _ _⟩

theorem confined_stmts (c : Context) : ∀ (body : List Stmt) (n : UInt32),
    Confined c (exitLabel c.function :: Code.names (stmts c body n).code) (stmts c body n).code
  | [], _ => fun _ h ↦ absurd h List.not_mem_nil
  | first :: rest, n => by
    have hfirst := confined_stmt c first n
    have hrest := confined_stmts c rest (n + UInt32.ofNat (branchCount first))
    rw [stmts, Emission.code_append, confined_append, Code.names_append]
    exact ⟨hfirst.within (List.subset_append_left _ _), hrest.within (List.subset_append_right _ _)⟩

end

/-- A function does not jump out of its code. -/
theorem confined_function (c : Context) (entry : String) (body : List Stmt) (n : UInt32) :
    Confined c (Code.names (function c entry body n).code) (function c entry body n).code := by
  have hbody := confined_stmts c body n
  have hprologue : ∀ i ∈ prologue c, Refers c (Code.names (function c entry body n).code) i := by
    unfold prologue
    split <;> simp [Refers]
  have hend : ∀ i ∈ if c.function = entry then serviceCode .exit else epilogue c,
      Refers c (Code.names (function c entry body n).code) i := by
    split <;> simp [serviceCode, epilogue, Refers]
  have hsub : exitLabel c.function :: Code.names (stmts c body n).code ⊆
      Code.names (function c entry body n).code := by
    rw [names_function]
    simp
  rw [function]
  simp only [Emission.code_append, confined_append, confined_instructions, confined_label,
    and_true]
  exact ⟨⟨⟨fun _ h ↦ absurd h List.not_mem_nil, hprologue⟩, hbody.mono hsub⟩, hend⟩

/-! ### Programs -/

variable {table : SymbolTable} {options : Options} {program : List Stmt}

/-- The code of a function opens with its name. -/
theorem function_eq_block (c : Context) (entry : String) (body : List Stmt) (n : UInt32) :
    ∃ rest, (function c entry body n).code = Block.code ⟨c.function, rest⟩ := by
  simp only [function, Emission.code_append, List.append_assoc]
  exact ⟨_, rfl⟩

/-- The code of a program is that of its functions, one after the other, and each of them is
confined to its own names. -/
theorem exists_functions (options : Options) (hdecl : ∀ stmt ∈ program, stmt.IsDeclaration)
    (hlocals : LocalsFound table program) (n : UInt32) :
    ∃ blocks : List Block, (functions table options program n).code = blocks.flatMap Block.code ∧
      blocks.map Block.name = functionNames program ∧
      ∀ block ∈ blocks, ∃ c : Context, c.globals = table ∧
        Confined c (Code.names block.code) block.code := by
  induction program generalizing n with
  | nil => exact ⟨[], rfl, rfl, fun _ h ↦ absurd h List.not_mem_nil⟩
  | cons first rest ih =>
    obtain ⟨hfirst, hrest⟩ := List.forall_mem_cons.1 hdecl
    cases first with
    | function span head parameters body =>
      obtain ⟨hlocalsFirst, hlocalsRest⟩ := List.forall_mem_cons.1 hlocals
      have hcode := topLevel_function options n span ⟨head, parameters, body⟩ hlocalsFirst
      obtain ⟨blocks, hblocks, hnames, hconfined⟩ := ih hrest hlocalsRest
        (n + UInt32.ofNat (topLevelBranches table (.function span head parameters body)))
      let c := Context.ofFunction table ⟨head, parameters, body⟩ options.annotate
      obtain ⟨inner, hinner⟩ := function_eq_block c options.entry body n
      have hblock := confined_function c options.entry body n
      rw [hinner] at hblock
      exact ⟨⟨head.name, inner⟩ :: blocks, congrArg₂ (· ++ ·) (hcode.trans hinner) hblocks,
        congrArg (head.name :: ·) hnames, List.forall_mem_cons.2 ⟨⟨c, rfl, hblock⟩, hconfined⟩⟩
    | var span head initial => exact ih hrest hlocals _
    | _ => exact hfirst.elim

/-- The words of data are those of the global variables, in the order of the text. -/
theorem names_vars (hdecl : ∀ stmt ∈ program, stmt.IsDeclaration) (hdistinct : Distinct program)
    (hstored : Layout.Stored program table) :
    table.vars.map Symbol.name = (globalDecls program).map Declarator.name := by
  have hsymbols : (table.symbols.map Symbol.name).Nodup := hstored.names ▸ hdistinct.topNames
  -- Whether a symbol is a variable can be told from its name.
  let isVar (name : String) : Bool := (table.find? name).any Symbol.isVar
  have hvars : table.vars.map Symbol.name = (table.symbols.map Symbol.name).filter isVar := by
    rw [List.filter_map]
    refine congrArg _ (List.filter_congr fun s hs ↦ ?_)
    have hfind : table.find? s.name = some s := find?_of_nodup Symbol.name hsymbols hs
    simp [isVar, hfind]
  rw [hvars, hstored.names]
  have hfunction := hstored.function
  have hglobal := hstored.global
  clear hvars hsymbols hstored hdistinct
  induction program with
  | nil => rfl
  | cons first rest ih =>
    obtain ⟨hfirst, hrest⟩ := List.forall_mem_cons.1 hdecl
    cases first with
    | function span head parameters body =>
      obtain ⟨hfind, hfunctions⟩ := List.forall_mem_cons.1 hfunction
      have hname : ¬ isVar head.name := by
        simp [isVar, hfind, Symbol.isVar]
      exact (List.filter_cons_of_neg hname).trans (ih hrest hfunctions hglobal)
    | var span head initial =>
      obtain ⟨⟨offset, value, hfind⟩, hglobals⟩ := List.forall_mem_cons.1 hglobal
      have hname : isVar head.name := by
        simp [isVar, hfind, Symbol.isVar]
      exact (List.filter_cons_of_pos hname).trans (congrArg _ (ih hrest hfunction hglobals))
    | _ => exact hfirst.elim

theorem mem_functionNames (hstored : Layout.Stored program table) {name : String}
    {type : ScalarType} {locals : List Symbol}
    (h : table.find? name = some (.function name type locals)) : name ∈ functionNames program := by
  have hmem : name ∈ table.symbols.map Symbol.name :=
    List.mem_map.2 ⟨_, List.mem_of_find?_eq_some h, rfl⟩
  rw [hstored.names] at hmem
  refine (mem_of_topNames hmem).resolve_right fun hglobal ↦ ?_
  obtain ⟨head, hhead, rfl⟩ := List.mem_map.1 hglobal
  obtain ⟨offset, initial, hfind⟩ := hstored.global head hhead
  cases h.symm.trans hfind

theorem mem_vars {name : String} {type : ScalarType} {offset : UInt32} {initial : Option Int32}
    (h : table.find? name = some (.var name type offset initial)) :
    name ∈ table.vars.map Symbol.name :=
  List.mem_map.2 ⟨_, List.mem_filter.2 ⟨List.mem_of_find?_eq_some h, rfl⟩, rfl⟩

end Generate

/-! ### Assemblies -/

namespace Assembly

open Generate

theorem names_code (a : Assembly) : Code.names a.code =
    a.words.map Prod.fst ++ a.blocks.flatMap fun block ↦ Code.names block.code := by
  have hwords : ∀ words : List (String × Int32),
      Code.names (words.map fun (name, value) ↦ .word name value) = words.map Prod.fst := by
    intro words
    induction words with
    | nil => rfl
    | cons word words ih => exact congrArg (word.1 :: ·) ih
  have hblocks : ∀ blocks : List Block, Code.names (blocks.flatMap Block.code) =
      blocks.flatMap fun block ↦ Code.names block.code := by
    intro blocks
    induction blocks with
    | nil => rfl
    | cons block blocks ih => rw [List.flatMap_cons, Code.names_append, ih, List.flatMap_cons]
  have hpreamble : Code.names (preamble a.entry) = [] := rfl
  rw [code, Code.names_append, Code.names_append, hpreamble, List.append_nil, hblocks]
  exact congrArg (· ++ _) (hwords a.words)

/-- An instruction is the jump to the entry point or stands in a block. -/
theorem mem_instructions (a : Assembly) {i : Instruction} (h : i ∈ Code.instructions a.code) :
    i = .j a.entry ∨ ∃ block ∈ a.blocks, i ∈ Code.instructions block.code := by
  obtain ⟨line, hline, hi⟩ := List.mem_filterMap.1 h
  rcases List.mem_append.1 hline with hline | hline
  · rcases List.mem_append.1 hline with hline | hline
    · rcases List.mem_cons.1 hline with rfl | hline
      · cases hi
      · obtain ⟨word, -, rfl⟩ := List.mem_map.1 hline
        cases hi
    · simp only [preamble, List.mem_cons, List.not_mem_nil, or_false] at hline
      rcases hline with rfl | rfl | rfl | rfl
      · cases hi
      · cases hi
      · cases hi
      · exact .inl (Option.some.inj hi).symm
  · obtain ⟨block, hblock, hline⟩ := List.mem_flatMap.1 hline
    exact .inr ⟨block, hblock, List.mem_filterMap.2 ⟨line, hline, hi⟩⟩

/-- The assembly of a program whose storage is laid out. -/
def ofTable (entry : String) (table : SymbolTable) (blocks : List Block) : Assembly :=
  ⟨entry, table.vars.map fun s ↦ (s.name, s.initial?.getD 0), blocks⟩

theorem code_ofTable (entry : String) (table : SymbolTable) (blocks : List Block) :
    (ofTable entry table blocks).code =
      dataSection table ++ preamble entry ++ blocks.flatMap Block.code := by
  rw [code, ofTable, List.map_map]
  rfl

theorem words_ofTable (entry : String) (table : SymbolTable) (blocks : List Block) :
    (ofTable entry table blocks).words.map Prod.fst = table.vars.map Symbol.name :=
  List.map_map

/-- An assembly is closed if its blocks are confined to their own names and to tables that list its
words and blocks. -/
theorem closed_of_confined {a : Assembly} {table : SymbolTable} (hnames : (Code.names a.code).Nodup)
    (hfunctions : ∀ name type locals, table.find? name = some (.function name type locals) →
      name ∈ a.blocks.map Block.name)
    (hvars : ∀ name type offset initial, table.find? name = some (.var name type offset initial) →
      name ∈ a.words.map Prod.fst)
    (hblocks : ∀ block ∈ a.blocks, ∃ c : Context, c.globals = table ∧
      Confined c (Code.names block.code) block.code) : a.Closed := by
  have hdefines : ∀ label ∈ Code.names a.code, a.Defines label := fun label hlabel ↦
    List.count_eq_one_of_mem hnames hlabel
  have hsub : ∀ block ∈ a.blocks, ∀ label ∈ Code.names block.code, label ∈ Code.names a.code := by
    intro block hblock label hlabel
    rw [names_code]
    exact List.mem_append_right _ (List.mem_flatMap.2 ⟨block, hblock, hlabel⟩)
  refine ⟨fun block hblock i hi label hlabel ↦ ?_, fun i hi label hlabel ↦ ?_,
    fun i hi label hlabel ↦ ?_⟩
  · obtain ⟨c, -, hconfined⟩ := hblocks block hblock
    have hmem := (hconfined i hi).target hlabel
    exact ⟨hdefines label (hsub block hblock label hmem), hmem⟩
  · rcases a.mem_instructions hi with rfl | ⟨block, hblock, hi⟩
    · cases hlabel
    · obtain ⟨c, rfl, hconfined⟩ := hblocks block hblock
      obtain ⟨type, locals, hfind⟩ := (hconfined i hi).callee hlabel
      have hmem := hfunctions label type locals hfind
      obtain ⟨called, hcalled, rfl⟩ := List.mem_map.1 hmem
      exact ⟨hdefines _ (hsub called hcalled _ List.mem_cons_self), hmem⟩
  · rcases a.mem_instructions hi with rfl | ⟨block, hblock, hi⟩
    · cases hlabel
    · obtain ⟨c, rfl, hconfined⟩ := hblocks block hblock
      obtain ⟨type, offset, initial, hfind⟩ := (hconfined i hi).operand hlabel
      have hmem := hvars label type offset initial hfind
      refine ⟨hdefines label ?_, hmem⟩
      rw [names_code]
      exact List.mem_append_left _ hmem

end Assembly

/-! ### Names in the text and in the assembly -/

/-- Global variables get the names of the text with a number. -/
theorem Renaming.globals_renameAll (entry : String) (program : List Stmt) (s : State) :
    List.Forall₂ (fun name label ↦ ∃ n, label = numbered name n)
      ((globalDecls program).map Declarator.name)
      ((globalDecls (renameAll entry program s).1).map Declarator.name) := by
  induction program generalizing s with
  | nil => exact .nil
  | cons stmt program ih =>
    have hrest := ih (renameStmt entry stmt s).2
    cases stmt with
    | var span head initial =>
      obtain ⟨-, n, hn, -⟩ := fresh_spec entry head.name s.counter
      exact .cons ⟨n, hn⟩ hrest
    | conditional span condition thenBranch elseBranch => cases elseBranch <;> exact hrest
    | _ => exact hrest

/-- Functions other than the entry point get the names of the text with a number. -/
theorem functions_flatten {entry : String} {program : List Stmt} (hg : Grammatical program)
    (h : Accepted entry program) :
    List.Forall₂ (fun name label ↦
        name = entry ∧ label = entry ∨ name ≠ entry ∧ ∃ n, label = Renaming.numbered name n)
      (functionNames program) (functionNames (Renaming.flatten entry program)) := by
  obtain ⟨-, hrename⟩ := Renaming.rename_bindFunctions entry h.nodup
  rw [Renaming.functionNames_flatten entry h.nodup (h.scoped hg.unnested),
    List.forall₂_map_right_iff, List.forall₂_same]
  intro name hname
  obtain ⟨hentry, hnumber⟩ := hrename name hname
  by_cases heq : name = entry
  · exact .inl ⟨heq, hentry.2 heq⟩
  · obtain ⟨n, hn, -⟩ := hnumber heq
    exact .inr ⟨heq, n, hn⟩

/-! ### Compilations -/

open Generate

/-- **Control flow is closed.** The assembly of an accepted program has a word of data for every
global variable and a block for every function, in the order of the text. Every branch and jump goes
to a label of its own block, every call to the opening label of a block, every labelled operand is a
word of data, and each of these labels is defined exactly once. -/
theorem compile_closed {settings : Settings} {source : String} {program : List Stmt}
    (hentry : settings.entry = "main") (h : (compile settings source).succeeded)
    (hparse : parse (lex source).tokens = .ok program)
    (hn : (programBranches program).length < 2 ^ 32) :
    ∃ a : Assembly, a.entry = "main" ∧ (compile settings source).assembly = Code.text a.code ∧
      a.Closed ∧
      List.Forall₂ (fun name label ↦
          name = "main" ∧ label = "main" ∨ name ≠ "main" ∧ ∃ n, label = Renaming.numbered name n)
        (functionNames program) (a.blocks.map Block.name) ∧
      List.Forall₂ (fun name label ↦ ∃ n, label = Renaming.numbered name n)
        ((globalDecls program).map Declarator.name) (a.words.map Prod.fst) := by
  obtain ⟨program', code, hparse', haccepted, hcode, hassembly⟩ := exists_of_succeeded h
  obtain rfl : program = program' := Except.ok.inj (hparse.symm.trans hparse')
  rw [hentry] at haccepted hcode
  have hg := parse_grammatical hparse
  have hflat := flattened_of_accepted hg haccepted
  rw [program_eq_ok hflat] at hcode
  cases hcode
  obtain ⟨-, hstored⟩ := hflat.stored
  generalize (Layout.build (Renaming.flatten "main" program) {}).table = table at hassembly hstored
  have hdecl := hflat.wellTyped.isDeclaration
  have hlocals : LocalsFound table _ := fun f hf ↦ locals?_eq hstored hf
  obtain ⟨blocks, hblocks, hnames, hconfined⟩ :=
    exists_functions { annotate := settings.annotate } hdecl hlocals 0
  have hcode := Assembly.code_ofTable "main" table blocks
  have hwords := Assembly.words_ofTable "main" table blocks
  rw [← hblocks] at hcode
  refine ⟨.ofTable "main" table blocks, rfl, ?_, ?_, ?_, ?_⟩
  · rw [hassembly, hcode]
  · refine Assembly.closed_of_confined ?_ (fun name type locals hfind ↦ ?_)
      (fun name type offset initial hfind ↦ ?_) hconfined
    · rw [hcode]
      refine nodup_names (by decide) hflat hstored ?_
      rw [← length_programBranches hdecl hlocals, programBranches_flatten]
      exact Nat.le_of_lt hn
    · exact hnames ▸ mem_functionNames hstored hfind
    · exact hwords ▸ mem_vars hfind
  · exact hnames ▸ functions_flatten hg haccepted
  · rw [hwords, names_vars hdecl hflat.distinct hstored]
    exact Renaming.globals_renameAll "main" program _

/-- Functions that call each other, a loop and a global variable. -/
def Sample.calling : String :=
  "int n = 3;\nfun bool odd() { if (n == 0) return false; n = n - 1; return !odd(); }\n" ++
    "fun int main() { while (odd()) n = 4; return n; }\n"

theorem compile_closed_calling :
    (compile {} Sample.calling).succeeded ∧
      ∃ a : Assembly, (compile {} Sample.calling).assembly = Code.text a.code ∧ a.Closed ∧
        a.blocks.length = 2 ∧ a.words.length = 1 := by
  have hlex : (lex Sample.calling).fault = none := by cbv
  have hprogram : ∃ program, parse (lex Sample.calling).tokens = .ok program ∧
      Accepted "main" program ∧ programBranches program = [.conditional, .loop] ∧
      functionNames program = ["odd", "main"] ∧
      (globalDecls program).map Declarator.name = ["n"] := by
    exact ⟨_, by cbv, ⟨by cbv, by cbv, by cbv⟩, by cbv, by cbv, by cbv⟩
  obtain ⟨program, hparse, haccepted, hbranches, hfunctions, hglobals⟩ := hprogram
  have hsucceeded : (compile {} Sample.calling).succeeded :=
    succeeded_of_accepted hlex hparse haccepted
  obtain ⟨a, -, hassembly, hclosed, hblocks, hwords⟩ :=
    compile_closed rfl hsucceeded hparse (by rw [hbranches]; decide)
  have hblocks := hblocks.length_eq
  have hwords := hwords.length_eq
  rw [hfunctions, List.length_map] at hblocks
  rw [hglobals, List.length_map] at hwords
  exact ⟨hsucceeded, a, hassembly, hclosed, hblocks.symm, hwords.symm⟩

end ScalarMips
