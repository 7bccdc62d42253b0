import ScalarMips.Proofs.Labels
import ScalarMips.Proofs.Semantics

/-!
# Where things are

The places of functions, global variables and local variables when the code of a flattened program
is loaded. `Linked` gathers what is known of such a program: the code of every function is there,
and every global variable is a word of data. `Cell` says which word of the stack belongs to a
parameter or local variable of a running function, and the addresses that generation chose are those
of the cells (`Linked.locate_cell`).
-/

namespace ScalarMips

open Generate

/-! ### Targets -/

/-- A program in a machine: what code was generated from, and where it was put. -/
structure Target where
  /-- The code with its addresses. -/
  image : Image
  /-- The memory for the stack. -/
  stack : Stack
  /-- The global table. -/
  table : SymbolTable
  /-- The program. -/
  program : List Stmt
  /-- The name of the entry point. -/
  entry : String
  /-- Whether statements are preceded by comments. -/
  annotate : Bool

namespace Target

variable (t : Target)

/-- The context in which the code of a function was generated. -/
def context (f : FunctionDecl) : Context :=
  Context.ofFunction t.table f t.annotate

/-- The address of a word on the stack. -/
def slot (k : Nat) : Word :=
  t.stack.slot k

/-- What the generated program should be. -/
def options : Options where
  entry := t.entry
  annotate := t.annotate

/-- The code of the program. -/
def code : Code :=
  dataSection t.table ++ preamble t.entry ++ (functions t.table t.options t.program 0).code

end Target

/-- The code of a program is in a machine that has room for it. -/
structure Linked (t : Target) : Prop where
  /-- Everything has an address of its own. -/
  fits : t.image.Fits t.stack
  /-- No name is defined twice. -/
  names : (Code.names t.image.code).Nodup
  /-- The tables hold the declarations of the program. -/
  stored : Layout.Stored t.program t.table
  /-- All declarations have different names. -/
  distinct : Distinct t.program
  /-- Functions are trees of the grammar. -/
  grammatical : ∀ f ∈ functionDecls t.program, Stmt.AllGrammatical f.body
  /-- The code starts with a jump to the entry point. -/
  start : t.image.At 0 [.instruction (.j t.entry)]
  /-- The code has every function. -/
  function : ∀ f ∈ functionDecls t.program,
    ∃ i n, t.image.At i (Generate.function (t.context f) t.entry f.body n).code
  /-- Every global variable is a word of data with its initial value. -/
  global : ∀ (k : Nat) (s : Symbol), t.table.vars[k]? = some s →
    t.image.code.words[k]? = some (s.name, s.initial?.getD 0)

/-! ### Functions and global variables -/

theorem size_dataSection (table : SymbolTable) : Code.size (dataSection table) = 0 := by
  have hwords : ∀ symbols : List Symbol,
      Code.size (symbols.map fun s ↦ .word s.name (s.initial?.getD 0)) = 0 := by
    intro symbols
    induction symbols with
    | nil => rfl
    | cons s symbols ih => exact ih
  exact hwords table.vars

theorem words_dataSection (table : SymbolTable) :
    Code.words (dataSection table) = table.vars.map fun s ↦ (s.name, s.initial?.getD 0) := by
  have hwords : ∀ symbols : List Symbol,
      Code.words (symbols.map fun s ↦ .word s.name (s.initial?.getD 0)) =
        symbols.map fun s ↦ (s.name, s.initial?.getD 0) := by
    intro symbols
    induction symbols with
    | nil => rfl
    | cons s symbols ih => exact congrArg ((s.name, s.initial?.getD 0) :: ·) ih
  exact hwords table.vars

/-- The code of a program has the code of each of its functions. -/
theorem exists_function {table : SymbolTable} {options : Options} {program : List Stmt}
    (hdecl : ∀ stmt ∈ program, stmt.IsDeclaration) (hlocals : LocalsFound table program)
    {f : FunctionDecl} (hf : f ∈ functionDecls program) (n : UInt32) :
    ∃ before after m, (functions table options program n).code =
      before ++
        (Generate.function (.ofFunction table f options.annotate) options.entry f.body m).code
        ++ after := by
  induction program generalizing n with
  | nil => exact absurd hf List.not_mem_nil
  | cons first rest ih =>
    obtain ⟨hfirst, hrest⟩ := List.forall_mem_cons.1 hdecl
    have hcode : (functions table options (first :: rest) n).code =
        (topLevel table options n first).code ++ (functions table options rest
          (n + UInt32.ofNat (topLevelBranches table first))).code := rfl
    have htail : LocalsFound table rest → f ∈ functionDecls rest → ∃ before after m,
        (functions table options (first :: rest) n).code = before ++
          (Generate.function (.ofFunction table f options.annotate) options.entry f.body m).code ++
            after := by
      intro hlocals hf
      obtain ⟨before, after, m, hcode'⟩ := ih hrest hlocals hf _
      refine ⟨(topLevel table options n first).code ++ before, after, m, ?_⟩
      rw [hcode, hcode']
      simp only [List.append_assoc]
    cases first with
    | function span head parameters body =>
      obtain ⟨hlocalsFirst, hlocalsRest⟩ := List.forall_mem_cons.1 hlocals
      rcases List.mem_cons.1 hf with rfl | hf
      · rw [hcode]
        have hfunction :=
          topLevel_function options n span ⟨head, parameters, body⟩ hlocalsFirst
        exact ⟨[], _, n, congrArg (· ++ _) hfunction⟩
      · exact htail hlocalsRest hf
    | var span head initial => exact htail hlocals hf
    | _ => exact hfirst.elim

theorem Grammatical.body {program : List Stmt} (h : Grammatical program) {f : FunctionDecl}
    (hf : f ∈ functionDecls program) : Stmt.AllGrammatical f.body := by
  obtain ⟨stmt, hstmt, hfunction⟩ := List.mem_filterMap.1 hf
  cases stmt with
  | function span head parameters body =>
    cases hfunction
    exact (h _ hstmt).2.2
  | _ => cases hfunction

/-- The code of a flattened program is linked wherever there is room for it. -/
theorem linked_of_flattened {t : Target} (h : Flattened t.entry t.program)
    (hentry : '_' ∉ t.entry.toList) (htable : t.table = (Layout.build t.program {}).table)
    (hcode : t.image.code = t.code) (hfits : t.image.Fits t.stack) : Linked t := by
  have hstored : Layout.Stored t.program t.table := htable ▸ h.stored.2
  have hlocals : LocalsFound t.table t.program := fun f hf ↦ locals?_eq hstored hf
  have hdecl := h.wellTyped.isDeclaration
  -- Every branch has an instruction of its own, so the numbers suffice for all that fits in memory.
  have hbranches : branchTotal t.table t.program ≤ 2 ^ 32 := by
    have hbound := @branchTotal_le_size t.table t.options t.program hdecl hlocals 0
    have hsize := hfits.size_le
    rw [hcode, Target.code, Code.size_append] at hsize
    omega
  refine ⟨hfits, ?_, hstored, h.distinct, ?_, ?_, ?_, ?_⟩
  · rw [hcode]
    exact nodup_names hentry h hstored hbranches
  · exact fun f hf ↦ h.grammatical.body hf
  · refine ⟨dataSection t.table ++ [.blank, .directive ".text", .directive (".globl " ++ t.entry)],
      (functions t.table t.options t.program 0).code, ?_, ?_⟩
    · rw [hcode, Target.code, preamble]
      simp only [List.append_assoc, List.cons_append, List.nil_append]
    · rw [Code.size_append, size_dataSection]
      rfl
  · intro f hf
    obtain ⟨before, after, m, hfunction⟩ :=
      @exists_function t.table t.options t.program hdecl hlocals f hf 0
    refine ⟨_, m, dataSection t.table ++ preamble t.entry ++ before, after, ?_, rfl⟩
    rw [hcode, Target.code, hfunction]
    simp only [List.append_assoc]
    rfl
  · intro k s hs
    have hlt : k < (Code.words (dataSection t.table)).length := by
      rw [words_dataSection, List.length_map]
      exact (List.getElem?_eq_some_iff.1 hs).1
    rw [hcode, Target.code, Code.words_append, Code.words_append, List.append_assoc,
      List.getElem?_append_left hlt, words_dataSection, List.getElem?_map, hs]
    rfl

/-- A function is found under its name. -/
theorem Linked.symbol_function {t : Target} (h : Linked t) {f : FunctionDecl}
    (hf : f ∈ functionDecls t.program) : ∃ i, t.image.symbol? f.head.name = some (.text i) := by
  obtain ⟨i, n, hat⟩ := h.function f hf
  have hlabel := (((((hat.left).left).left).left).right)
  exact ⟨_, Image.At.symbol? h.names hlabel⟩

/-! ### Cells -/

/-- The word of the stack that belongs to a variable of a function that was called with `a` words on
the stack. The first argument is the last word that the caller pushed; the variables come after the
two saved registers. -/
inductive Cell (f : FunctionDecl) (a : Nat) (name : String) : Nat → Prop where
  | parameter {j k : Nat} : (f.parameters.map Declarator.name)[j]? = some name → k + j = a →
    Cell f a name k
  | var {i : Nat} : (Stmt.variablesAll f.body)[i]? = some name → Cell f a name (a + 3 + i)

namespace Cell

variable {f : FunctionDecl} {a k : Nat} {name : String}

/-- Every variable has a cell. -/
theorem exists_of_mem (h : name ∈ f.variables) (ha : f.parameters.length ≤ a) :
    ∃ k, Cell f a name k := by
  rcases List.mem_append.1 h with h | h
  · obtain ⟨j, hj⟩ := List.getElem?_of_mem h
    have hlt := (List.getElem?_eq_some_iff.1 hj).1
    rw [List.length_map] at hlt
    exact ⟨a - j, .parameter hj (by omega)⟩
  · obtain ⟨i, hi⟩ := List.getElem?_of_mem h
    exact ⟨_, .var hi⟩

theorem mem (h : Cell f a name k) : name ∈ f.variables := by
  cases h with
  | parameter hj _ => exact List.mem_append_left _ (List.mem_of_getElem? hj)
  | var hi => exact List.mem_append_right _ (List.mem_of_getElem? hi)

/-- Variables do not share cells. -/
theorem eq_of_cell {name' : String} (h : Cell f a name k) (h' : Cell f a name' k) :
    name = name' := by
  cases h with
  | @parameter j _ hj hk =>
    cases h' with
    | @parameter j' _ hj' hk' =>
      obtain rfl : j = j' := by omega
      exact Option.some.inj (hj.symm.trans hj')
    | var => omega
  | @var i hi =>
    -- The case split needs a variable for the cell.
    generalize hcell : a + 3 + i = k' at h'
    cases h' with
    | parameter => omega
    | @var i' hi' =>
      obtain rfl : i = i' := by omega
      exact Option.some.inj (hi.symm.trans hi')

/-- Cells are on the stack, and neither where registers are saved nor below the arguments. -/
theorem bounds (h : Cell f a name k) (ha : f.parameters.length ≤ a) :
    1 ≤ k ∧ k ≤ Semantics.bodyDepth f a ∧ a < k + f.parameters.length ∧ k ≠ a + 1 ∧ k ≠ a + 2 := by
  unfold Semantics.bodyDepth
  cases h with
  | parameter hj hk =>
    have hlt := (List.getElem?_eq_some_iff.1 hj).1
    rw [List.length_map] at hlt
    omega
  | var hi =>
    have hlt := (List.getElem?_eq_some_iff.1 hi).1
    omega

end Cell

namespace Layout

theorem mem_parameterSymbols_of_getElem? {name : String} : ∀ (parameters : List Declarator)
    (n : Nat) {j : Nat}, (parameters.map Declarator.name)[j]? = some name →
      ∃ type, .parameter name type (UInt32.ofNat (n + j) * 4) ∈ parameterSymbols n parameters
  | [], _, _, h => absurd h nofun
  | p :: parameters, n, 0, h => by
    cases h
    exact ⟨_, List.mem_cons_self⟩
  | p :: parameters, n, j + 1, h => by
    obtain ⟨type, hmem⟩ := mem_parameterSymbols_of_getElem? parameters (n + 1) (j := j) h
    rw [Nat.add_assoc, Nat.add_comm 1] at hmem
    exact ⟨type, List.mem_cons_of_mem _ hmem⟩

theorem mem_localSymbols_of_getElem? {name : String} : ∀ (declared : List Declared) (n : Nat)
    {i : Nat}, (∀ d ∈ declared, d.IsVariable) → (declared.map Declared.name)[i]? = some name →
      ∃ type, .var name type (UInt32.ofNat (n + i) * 4) none ∈ localSymbols n declared
  | [], _, _, _, h => absurd h nofun
  | .function _ :: _, _, _, hvariables, _ => (List.forall_mem_cons.1 hvariables).1.elim
  | .var _ _ :: declared, n, 0, _, h => by
    cases h
    exact ⟨_, List.mem_cons_self⟩
  | .var _ _ :: declared, n, i + 1, hvariables, h => by
    obtain ⟨type, hmem⟩ := mem_localSymbols_of_getElem? declared (n + 1) (i := i)
      (List.forall_mem_cons.1 hvariables).2 h
    rw [Nat.add_assoc, Nat.add_comm 1] at hmem
    exact ⟨type, List.mem_cons_of_mem _ hmem⟩

end Layout

/-! ### Slots -/

namespace Generate.Context

/-- The address of a parameter or local variable in a frame whose frame pointer is `fp`. -/
def slot? (c : Context) (fp : Word) (name : String) : Option Word :=
  match c.address? name with
  | some (.above offset .fp) => some (fp + offset.toBitVec)
  | some (.below offset .fp) => some (fp - offset.toBitVec)
  | _ => none

/-- An operand in the frame stands for its slot, if a word can be there. -/
theorem locate?_of_slot? {c : Context} (image : Image) {m : Machine} {name : String} {p : Word}
    (h : c.slot? (m.get .fp) name = some p) :
    ∃ address, c.address? name = some address ∧ image.locate? m address = Image.aligned? p := by
  unfold slot? at h
  split at h
  · rename_i haddress
    cases h
    exact ⟨_, haddress, rfl⟩
  · rename_i haddress
    cases h
    exact ⟨_, haddress, rfl⟩
  · cases h

variable {table : SymbolTable} {f : FunctionDecl} {annotate : Bool} {a k : Nat} {name : String}

/-- What a function declares is found in its own table. -/
theorem find?_ofFunction (hbody : Stmt.AllGrammatical f.body) (hnodup : f.variables.Nodup)
    {s : Symbol} (hs : s ∈ Layout.frameSymbols f) :
    (ofFunction table f annotate).locals.find? s.name = some s := by
  have hnames := Layout.names_frameSymbols hbody
  exact find?_of_nodup Symbol.name (hnames ▸ hnodup) hs

/-- The parameters are above the two saved registers, the first one nearest to them. -/
theorem address?_parameter (hbody : Stmt.AllGrammatical f.body) (hnodup : f.variables.Nodup)
    {j : Nat} (hj : (f.parameters.map Declarator.name)[j]? = some name) :
    (ofFunction table f annotate).address? name =
      some (.above ((ofFunction table f annotate).savedSize + UInt32.ofNat j * 4) .fp) := by
  obtain ⟨type, hmem⟩ := Layout.mem_parameterSymbols_of_getElem? f.parameters 0 hj
  rw [Nat.zero_add] at hmem
  have hfind : (ofFunction table f annotate).locals.find? name = _ :=
    find?_ofFunction hbody hnodup (List.mem_append_left _ hmem)
  rw [address?, hfind]

/-- The local variables are below the saved frame pointer, the first one nearest to it. -/
theorem address?_local (hbody : Stmt.AllGrammatical f.body) (hnodup : f.variables.Nodup)
    {i : Nat} (hi : (Stmt.variablesAll f.body)[i]? = some name) :
    (ofFunction table f annotate).address? name =
      some (.below ((ofFunction table f annotate).wordSize + UInt32.ofNat i * 4) .fp) := by
  obtain ⟨hvariables, hnames⟩ := Layout.declaredAll_spec f.body hbody
  rw [← hnames] at hi
  obtain ⟨type, hmem⟩ := Layout.mem_localSymbols_of_getElem? _ 0 hvariables hi
  rw [Nat.zero_add] at hmem
  have hfind : (ofFunction table f annotate).locals.find? name = _ :=
    find?_ofFunction hbody hnodup (List.mem_append_right _ hmem)
  rw [address?, hfind]

/-- The slot of a parameter is above the two saved registers. -/
theorem slot?_parameter (hword : table.wordSize = 4) (hbody : Stmt.AllGrammatical f.body)
    (hnodup : f.variables.Nodup) {j : Nat}
    (hj : (f.parameters.map Declarator.name)[j]? = some name) (fp : Word) :
    (ofFunction table f annotate).slot? fp name =
      some (fp + BitVec.ofNat 32 (4 * 2) + BitVec.ofNat 32 (4 * j)) := by
  have hsaved : (ofFunction table f annotate).savedSize.toBitVec = BitVec.ofNat 32 (4 * 2) := by
    show (table.words 2).toBitVec = _
    rw [SymbolTable.words, hword]
    exact Stack.toBitVec_words 2
  rw [slot?, address?_parameter hbody hnodup hj]
  show some (fp + _) = _
  rw [UInt32.toBitVec_add, hsaved, Stack.toBitVec_words, BitVec.add_assoc]

/-- The slot of a local variable is below the saved frame pointer. -/
theorem slot?_local (hword : table.wordSize = 4) (hbody : Stmt.AllGrammatical f.body)
    (hnodup : f.variables.Nodup) {i : Nat} (hi : (Stmt.variablesAll f.body)[i]? = some name)
    (fp : Word) :
    (ofFunction table f annotate).slot? fp name =
      some (fp - BitVec.ofNat 32 (4 * 1) - BitVec.ofNat 32 (4 * i)) := by
  have hbelow : (ofFunction table f annotate).wordSize.toBitVec = BitVec.ofNat 32 (4 * 1) :=
    congrArg UInt32.toBitVec hword
  rw [slot?, address?_local hbody hnodup hi]
  show some (fp - _) = _
  rw [UInt32.toBitVec_add, hbelow, Stack.toBitVec_words, BitVec.sub_sub]

/-- The slot of a variable is its cell. -/
theorem slot?_cell (hword : table.wordSize = 4) (hbody : Stmt.AllGrammatical f.body)
    (hnodup : f.variables.Nodup) {stack : Stack} (hcell : Cell f a name k) :
    (ofFunction table f annotate).slot? (stack.slot (a + 2)) name = some (stack.slot k) := by
  cases hcell with
  | @parameter j _ hj hk =>
    obtain rfl : a = k + j := hk.symm
    rw [slot?_parameter hword hbody hnodup hj, Stack.slot_add, Stack.slot_add]
  | var hi => rw [slot?_local hword hbody hnodup hi, Stack.slot_sub, Stack.slot_sub]

end Generate.Context

namespace Linked

variable {t : Target} {f : FunctionDecl} {a k : Nat} {name : String}

theorem wordSize (h : Linked t) (f : FunctionDecl) : (t.context f).wordSize = 4 :=
  h.stored.wordSize

theorem words (h : Linked t) (n : Nat) :
    (t.table.words n).toBitVec = BitVec.ofNat 32 (4 * n) := by
  rw [SymbolTable.words, h.stored.wordSize, Stack.toBitVec_words]

theorem find?_frameSymbols (h : Linked t) (hf : f ∈ functionDecls t.program) {s : Symbol}
    (hs : s ∈ Layout.frameSymbols f) : (t.context f).locals.find? s.name = some s :=
  Context.find?_ofFunction (h.grammatical f hf) (h.distinct.variables hf) hs

/-- The address of a variable is that of its cell. -/
theorem locate_cell (h : Linked t) (hf : f ∈ functionDecls t.program) {m : Machine}
    (hfp : m.get .fp = t.slot (a + 2)) (hcell : Cell f a name k) :
    ∃ address, (t.context f).address? name = some address ∧
      t.image.locate? m address = some (t.slot k) := by
  have hslot : (t.context f).slot? (t.slot (a + 2)) name = some (t.slot k) :=
    Context.slot?_cell h.stored.wordSize (h.grammatical f hf) (h.distinct.variables hf) hcell
  rw [← hfp] at hslot
  obtain ⟨address, haddress, hlocate⟩ := Context.locate?_of_slot? t.image hslot
  exact ⟨address, haddress, hlocate.trans (h.fits.aligned_slot k)⟩

/-- A global variable is no variable of a function. -/
theorem global_notMem (h : Linked t) (hf : f ∈ functionDecls t.program) {s : Symbol}
    (hs : s ∈ t.table.vars) : s.name ∉ f.variables := by
  have htop : s.name ∈ topNames t.program :=
    h.stored.names ▸ List.mem_map_of_mem (List.mem_filter.1 hs).1
  rcases mem_of_topNames htop with hfunction | hglobal
  · obtain ⟨-, -, hdisjoint⟩ := List.nodup_append.1 (nodup_declared h.stored h.distinct)
    exact absurd rfl (hdisjoint _ (List.mem_map_of_mem hs) _ hfunction)
  · obtain ⟨head, hhead, hname⟩ := List.mem_map.1 hglobal
    exact hname ▸ h.distinct.global_notMem hf hhead

/-- The address of a global variable is that of its word of data. -/
theorem locate_global (h : Linked t) (hf : f ∈ functionDecls t.program) {s : Symbol}
    (hs : t.table.vars[k]? = some s) (hsname : s.name = name) (m : Machine) :
    ∃ address, (t.context f).address? name = some address ∧
      t.image.locate? m address = some (t.image.address (.data k)) := by
  have hname : name ∉ f.variables := hsname ▸ h.global_notMem hf (List.mem_of_getElem? hs)
  have hwords := h.global k s hs
  have hlt := (List.getElem?_eq_some_iff.1 hwords).1
  have haligned := h.fits.aligned_data k hlt
  -- The table of the function is asked first, and does not have the name.
  have hnone : (t.context f).locals.find? name = none := by
    refine List.find?_eq_none.2 fun s' hs' ↦ ?_
    rw [decide_eq_true_eq]
    rintro rfl
    exact hname (Layout.names_frameSymbols (h.grammatical f hf) ▸ List.mem_map_of_mem hs')
  have hsymbols : (t.table.symbols.map Symbol.name).Nodup :=
    h.stored.names ▸ h.distinct.topNames
  obtain ⟨hmem, hvar⟩ := List.mem_filter.1 (List.mem_of_getElem? hs)
  have hfind : t.table.find? name = some s := hsname ▸ find?_of_nodup Symbol.name hsymbols hmem
  refine ⟨.label name, ?_, ?_⟩
  · have hglobals : (t.context f).globals.find? name = some s := hfind
    rw [Context.address?, hnone, hglobals]
    cases s with
    | var name' => exact congrArg (some ∘ Address.label) hsname
    | _ => cases hvar
  · rw [Image.locate?, ← hsname, Image.symbol?_word h.names hwords]
    exact if_pos haligned

end Linked

end ScalarMips
