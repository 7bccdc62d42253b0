import ScalarMips.Proofs.ControlFlow
import ScalarMips.Proofs.ListingLines
import ScalarMips.Proofs.SymbolTables

/-!
# Annotated code

Annotating a program adds comments to its assembly and does nothing else
(`program_annotated`): the same programs have code, and those that have none fail for the same
reasons; and when the lines that start like comments are deleted from the text, what is left is the
text without annotations. The deleted lines are the remarks on the statements in the functions, each
statement before those inside it.

`Annotates` compares the code with annotations with the code without them, one emission after the
other. That the comments can be told from all other lines in the text rests on the names: the code
of a function refers to nothing but its own labels and the global table (`confined_function`), so if
the names of the table are words then all names are, and no line of code looks like a comment.
-/

namespace ScalarMips

/-- What is said of a statement before its code: its kind and the line on which it begins. -/
def Stmt.note (s : Stmt) : String :=
  s.kindName ++ " (line " ++ Numeral.ofSize s.span.start.line ++ ")"

namespace Generate

/-! ### Emissions with comments -/

/-- An emission is another one with some comments between its lines. -/
structure Annotates (e plain : Emission) (notes : List String) : Prop where
  /-- They have the same faults. -/
  faults : e.faults = plain.faults
  /-- Without its comments, the code is the other one. -/
  code : e.code.filter (fun line ↦ !line.isComment) = plain.code
  /-- The comments are the given ones. -/
  comments : e.code.filter Line.isComment = notes.map .comment
  /-- There are no orders to the assembler. -/
  directives : ∀ text, .directive text ∉ e.code

namespace Annotates

variable {e e' plain plain' : Emission} {notes notes' : List String}

theorem append (h : Annotates e plain notes) (h' : Annotates e' plain' notes') :
    Annotates (e ++ e') (plain ++ plain') (notes ++ notes') where
  faults := congrArg₂ (· ++ ·) h.faults h'.faults
  code := by
    rw [Emission.code_append, List.filter_append, h.code, h'.code]
    rfl
  comments := by
    rw [Emission.code_append, List.filter_append, h.comments, h'.comments, List.map_append]
  directives text hmem :=
    (List.mem_append.1 hmem).elim (h.directives text) (h'.directives text)

/-- What has no comments can be added behind. -/
theorem append_plain (h : Annotates e plain notes) (h' : Annotates e' plain' []) :
    Annotates (e ++ e') (plain ++ plain') notes :=
  List.append_nil notes ▸ h.append h'

theorem ofInstructions (block : List Instruction) :
    Annotates (.ofInstructions block) (.ofInstructions block) [] where
  faults := rfl
  code := List.filter_eq_self.2 (List.forall_mem_map.2 fun _ _ ↦ rfl)
  comments := List.filter_eq_nil_iff.2 (List.forall_mem_map.2 fun _ _ ↦ Bool.false_ne_true)
  directives text hmem := by
    obtain ⟨i, -, hi⟩ := List.mem_map.1 hmem
    cases hi

theorem label (name : String) : Annotates (.label name) (.label name) [] where
  faults := rfl
  code := rfl
  comments := rfl
  directives text hmem := by cases List.mem_singleton.1 hmem

theorem fault (fault : EmissionFault) : Annotates (.fault fault) (.fault fault) [] where
  faults := rfl
  code := rfl
  comments := rfl
  directives _ := List.not_mem_nil

theorem empty : Annotates {} {} [] where
  faults := rfl
  code := rfl
  comments := rfl
  directives _ := List.not_mem_nil

end Annotates

/-- The same context with or without annotations. -/
def Context.annotated (c : Context) (b : Bool) : Context :=
  { c with annotate := b }

theorem globals_annotated (c : Context) (b : Bool) : (c.annotated b).globals = c.globals := rfl

theorem address?_annotated (c : Context) (b : Bool) (name : String) :
    (c.annotated b).address? name = c.address? name := rfl

theorem annotates_remark (c : Context) (s : Stmt) :
    Annotates (remark (c.annotated true) s) (remark (c.annotated false) s) [s.note] where
  faults := rfl
  code := rfl
  comments := rfl
  directives text hmem := by cases List.mem_singleton.1 hmem

/-! ### Expressions -/

mutual

theorem annotates_expr (c : Context) : ∀ e : Expr,
    Annotates (expr (c.annotated true) e) (expr (c.annotated false) e) []
  | .literal _ value => by
    rw [expr, expr]
    split
    · exact .ofInstructions _
    · exact .fault _
  | .var _ name => by
    rw [expr, expr, address?_annotated, address?_annotated]
    cases c.address? name with
    | some address => exact .ofInstructions _
    | none => exact .fault _
  | .unary _ op operand => by
    have hoperand := annotates_expr c operand
    rw [expr, expr]
    cases unaryCode? op with
    | some code => exact hoperand.append_plain (.ofInstructions _)
    | none => exact hoperand.append_plain (.fault _)
  | .binary _ op left right => by
    have hoperands := (annotates_expr c left).append_plain (annotates_expr c right)
    rw [expr, expr]
    cases binaryCode? op with
    | some code => exact hoperands.append_plain (.ofInstructions _)
    | none => exact hoperands.append_plain (.fault _)
  | .call _ name arguments => by
    have harguments := annotates_arguments c arguments
    rw [expr, expr, globals_annotated, globals_annotated]
    split
    · exact harguments.append_plain (.ofInstructions _)
    · exact .fault _

theorem annotates_arguments (c : Context) : ∀ es : List Expr,
    Annotates (argumentsCode (c.annotated true) es) (argumentsCode (c.annotated false) es) []
  | [] => .empty
  | e :: es => (annotates_arguments c es).append_plain (annotates_expr c e)

end

theorem annotates_store (c : Context) (name : String) (value : Option Expr) :
    Annotates (storeCode (c.annotated true) name value)
      (storeCode (c.annotated false) name value) [] := by
  unfold storeCode
  rw [address?_annotated, address?_annotated]
  cases c.address? name with
  | none => exact .fault _
  | some address =>
    cases value with
    | none => exact .ofInstructions _
    | some value => exact (annotates_expr c value).append_plain (.ofInstructions _)

theorem annotates_condition (c : Context) (condition : Expr) (otherwise : String) :
    Annotates (conditionCode (c.annotated true) condition otherwise)
      (conditionCode (c.annotated false) condition otherwise) [] :=
  (annotates_expr c condition).append_plain (.ofInstructions _)

theorem annotates_print (c : Context) (ending : PrintEnd) (value : Option Expr) :
    Annotates (printCode (c.annotated true) ending value)
      (printCode (c.annotated false) ending value) [] := by
  cases value with
  | none => exact Annotates.empty.append_plain (.ofInstructions _)
  | some value =>
    exact ((annotates_expr c value).append_plain (.ofInstructions _)).append_plain
      (.ofInstructions _)

/-! ### Statements -/

mutual

/-- The comments in the code of a statement are the notes on it and on the statements inside. -/
theorem annotates_stmt (c : Context) : ∀ (s : Stmt) (n : UInt32),
    Annotates (stmt (c.annotated true) s n) (stmt (c.annotated false) s n)
      (s.preorder.map Stmt.note)
  | .block _ body, n => by
    rw [stmt, stmt, Stmt.preorder]
    exact (annotates_remark c _).append (annotates_stmts c body n)
  | .function .., n => by
    rw [stmt, stmt, Stmt.preorder]
    exact (annotates_remark c _).append_plain (.fault _)
  | .var .., n => by
    rw [stmt, stmt, Stmt.preorder]
    exact (annotates_remark c _).append_plain (annotates_store c _ _)
  | .assign .., n => by
    rw [stmt, stmt, Stmt.preorder]
    exact (annotates_remark c _).append_plain (annotates_store c _ _)
  | .conditional _ condition thenBranch none, n => by
    have hthen := annotates_stmt c thenBranch (n + 1)
    rw [stmt, stmt, Stmt.preorder]
    exact (((((annotates_remark c _).append_plain (annotates_condition c condition _)).append
      hthen).append_plain (.ofInstructions _)).append_plain (.label _)).append_plain (.label _)
  | .conditional _ condition thenBranch (some elseBranch), n => by
    have hthen := annotates_stmt c thenBranch (n + 1)
    have helse := annotates_stmt c elseBranch (n + 1 + UInt32.ofNat (branchCount thenBranch))
    rw [stmt, stmt, Stmt.preorder, List.map_cons, List.map_append]
    exact ((((((annotates_remark c _).append_plain (annotates_condition c condition _)).append
      hthen).append_plain (.ofInstructions _)).append_plain (.label _)).append helse).append_plain
      (.label _)
  | .loop _ condition body, n => by
    have hbody := annotates_stmt c body (n + 1)
    rw [stmt, stmt, Stmt.preorder]
    exact (((((annotates_remark c _).append_plain (.label _)).append_plain
      (annotates_condition c condition _)).append hbody).append_plain
      (.ofInstructions _)).append_plain (.label _)
  | .evaluate _ value, n => by
    rw [stmt, stmt, Stmt.preorder]
    exact ((annotates_remark c _).append_plain (annotates_expr c value)).append_plain
      (.ofInstructions _)
  | .return_ _ value, n => by
    rw [stmt, stmt, Stmt.preorder]
    exact ((annotates_remark c _).append_plain (annotates_expr c value)).append_plain
      (.ofInstructions _)
  | .print .., n => by
    rw [stmt, stmt, Stmt.preorder]
    exact (annotates_remark c _).append_plain (annotates_print c _ _)

theorem annotates_stmts (c : Context) : ∀ (body : List Stmt) (n : UInt32),
    Annotates (stmts (c.annotated true) body n) (stmts (c.annotated false) body n)
      ((Stmt.preorderAll body).map Stmt.note)
  | [], _ => .empty
  | first :: rest, n => by
    rw [stmts, stmts, Stmt.preorderAll, List.map_append]
    exact (annotates_stmt c first n).append (annotates_stmts c rest _)

end

/-! ### Functions -/

theorem annotates_function (c : Context) (entry : String) (body : List Stmt) (n : UInt32) :
    Annotates (function (c.annotated true) entry body n) (function (c.annotated false) entry body n)
      ((Stmt.preorderAll body).map Stmt.note) := by
  have hopening : Annotates ({ code := [.blank] } ++ .label c.function)
      ({ code := [.blank] } ++ .label c.function) [] :=
    ⟨rfl, rfl, rfl, fun text h ↦ by simp [Emission.label] at h⟩
  exact (((hopening.append_plain (.ofInstructions _)).append
    (annotates_stmts c body n)).append_plain (.label _)).append_plain (.ofInstructions _)

/-! ### Names in code -/

theorem isWord_exitLabel {name : String} (h : IsWord name) : IsWord (exitLabel name) :=
  h.append (by decide)

theorem isWord_branchLabels (kinds : List BranchKind) (n : Nat) :
    ∀ label ∈ branchLabels kinds n, IsWord label := by
  have hlabel (kind place : String) (hkind : IsWord kind) (hplace : IsWord place) (n : UInt32) :
      IsWord (branchLabel kind n place) :=
    ((((hkind.append (by decide)).append (isWord_ofSize n)).append (by decide)).append hplace)
  have hnone : ∀ label ∈ ([] : List String), IsWord label :=
    fun _ h ↦ absurd h List.not_mem_nil
  induction kinds generalizing n with
  | nil => exact hnone
  | cons kind kinds ih =>
    rw [branchLabels, List.forall_mem_append]
    refine ⟨?_, ih (n + 1)⟩
    cases kind with
    | conditional =>
      simp only [BranchKind.labels, List.forall_mem_cons]
      exact ⟨hlabel _ _ (by decide) (by decide) _, hlabel _ _ (by decide) (by decide) _, hnone⟩
    | loop =>
      simp only [BranchKind.labels, List.forall_mem_cons]
      exact ⟨hlabel _ _ (by decide) (by decide) _, hlabel _ _ (by decide) (by decide) _, hnone⟩

/-- All names that a function defines are words if its own name is one. -/
theorem isWord_names_function {c : Context} (h : IsWord c.function) (entry : String)
    (body : List Stmt) (n : UInt32) :
    ∀ name ∈ Code.names (function c entry body n).code, IsWord name := by
  have hperm := names_stmts c body n.toNat
  rw [UInt32.ofNat_toNat] at hperm
  rw [names_function, List.forall_mem_cons, List.forall_mem_append, List.forall_mem_singleton]
  exact ⟨h, fun name hname ↦ isWord_branchLabels _ _ name (hperm.mem_iff.1 hname),
    isWord_exitLabel h⟩

variable {c : Context} {labels : List String}

theorem isWord_of_find? {table : SymbolTable} (htable : ∀ s ∈ table.symbols, IsWord s.name)
    {name : String} {s : Symbol} (h : table.find? name = some s) : IsWord name :=
  name_of_find? h ▸ htable s (List.mem_of_find?_eq_some h)

theorem isWord_of_locals? {table : SymbolTable} (htable : ∀ s ∈ table.symbols, IsWord s.name)
    {name : String} {locals : SymbolTable} (h : table.locals? name = some locals) :
    IsWord name := by
  obtain ⟨symbols, hsymbols, -⟩ := Option.map_eq_some_iff.1 h
  obtain ⟨s, hfind, -⟩ := Option.bind_eq_some_iff.1 hsymbols
  exact isWord_of_find? htable hfind

/-- What an instruction works on is written on one line. -/
theorem lineEnd_notMem_operands {i : Instruction} (h : Refers c labels i)
    (hlabels : ∀ label ∈ labels, IsWord label) (htable : ∀ s ∈ c.globals.symbols, IsWord s.name) :
    '\n' ∉ i.mnemonic.operands.toList := by
  have hword {name : String} (hname : IsWord name) : '\n' ∉ name.toList := hname.notMem (by decide)
  have hoperand (address : Address) (haddress : ∀ name, address = .label name →
      ∃ type offset initial, c.globals.find? name = some (.var name type offset initial)) :
      '\n' ∉ address.text.toList := by
    refine lineEnd_notMem_address fun name hname ↦ ?_
    obtain ⟨type, offset, initial, hfind⟩ := haddress name hname
    exact isWord_of_find? htable hfind
  cases i with
  | li target value =>
    simpa [Instruction.mnemonic] using ⟨lineEnd_notMem_register target, lineEnd_notMem_ofWord value⟩
  | lw target address =>
    have haddress := hoperand address fun name hname ↦ by
      subst hname
      exact h
    simpa [Instruction.mnemonic] using ⟨lineEnd_notMem_register target, haddress⟩
  | sw source address =>
    have haddress := hoperand address fun name hname ↦ by
      subst hname
      exact h
    simpa [Instruction.mnemonic] using ⟨lineEnd_notMem_register source, haddress⟩
  | immediate op target source amount =>
    simpa [Instruction.mnemonic] using ⟨lineEnd_notMem_register target,
      lineEnd_notMem_register source, lineEnd_notMem_ofSize amount⟩
  | beq left right label =>
    simpa [Instruction.mnemonic] using ⟨lineEnd_notMem_register left, lineEnd_notMem_register right,
      hword (hlabels label h)⟩
  | j label => exact hword (hlabels label h)
  | jal name =>
    obtain ⟨type, locals, hfind⟩ := h
    exact hword (isWord_of_find? htable hfind)
  | _ => simp [Instruction.mnemonic, lineEnd_notMem_register]

theorem lineEnd_notMem_note (s : Stmt) : '\n' ∉ s.note.toList := by
  have hkind : '\n' ∉ s.kindName.toList := by
    cases s with
    | print span ending value => cases ending <;> simp [Stmt.kindName]
    | _ => simp [Stmt.kindName]
  simpa [Stmt.note] using ⟨hkind, lineEnd_notMem_ofSize s.span.start.line⟩

/-- All lines of an annotated function are clear. -/
theorem clear_function (hname : IsWord c.function) (htable : ∀ s ∈ c.globals.symbols, IsWord s.name)
    (entry : String) (body : List Stmt) (n : UInt32) :
    ∀ line ∈ (function (c.annotated true) entry body n).code,
      (line.map Instruction.mnemonic).Clear := by
  have hannotates := annotates_function c entry body n
  have hnames := isWord_names_function (c := c.annotated true) hname entry body n
  have hconfined := confined_function (c.annotated true) entry body n
  intro line hline
  cases line with
  | directive text => exact absurd hline (hannotates.directives text)
  | label name => exact Line.clear_label (hnames name (List.mem_filterMap.2 ⟨_, hline, rfl⟩))
  | word name value => exact Line.clear_word (hnames name (List.mem_filterMap.2 ⟨_, hline, rfl⟩)) _
  | instruction i =>
    have hrefers := hconfined i (List.mem_filterMap.2 ⟨_, hline, rfl⟩)
    exact Line.clear_instruction (lineEnd_notMem_operands hrefers hnames htable)
  | comment text =>
    have hmem : .comment text ∈ ((Stmt.preorderAll body).map Stmt.note).map Line.comment :=
      hannotates.comments ▸ List.mem_filter.2 ⟨hline, rfl⟩
    rw [List.map_map] at hmem
    obtain ⟨s, -, hs⟩ := List.mem_map.1 hmem
    cases hs
    exact Line.clear_comment (lineEnd_notMem_note s)
  | blank => exact Line.clear_blank

/-! ### Programs -/

/-- The notes on the statements in the functions of a program. -/
def programNotes (program : List Stmt) : List String :=
  (functionDecls program).flatMap fun f ↦ (Stmt.preorderAll f.body).map Stmt.note

/-- An output is another one with some comments between its lines. -/
structure Output.Annotates (o plain : Output) (notes : List String) : Prop where
  /-- They fail for the same reasons. -/
  failures : o.failures = plain.failures
  /-- Without its comments, the code is the other one. -/
  code : o.code.filter (fun line ↦ !line.isComment) = plain.code
  /-- If they do not fail, the comments are the given ones. -/
  comments : plain.failures = [] → o.code.filter Line.isComment = notes.map .comment
  /-- All lines are clear. -/
  clear : ∀ line ∈ o.code, (line.map Instruction.mnemonic).Clear

theorem Output.Annotates.append {o o' plain plain' : Output} {notes notes' : List String}
    (h : o.Annotates plain notes) (h' : o'.Annotates plain' notes') :
    Output.Annotates ⟨o.code ++ o'.code, o.failures ++ o'.failures⟩
      ⟨plain.code ++ plain'.code, plain.failures ++ plain'.failures⟩ (notes ++ notes') where
  failures := congrArg₂ (· ++ ·) h.failures h'.failures
  code := by rw [List.filter_append, h.code, h'.code]
  comments hnone := by
    obtain ⟨hfirst, hrest⟩ := List.append_eq_nil_iff.1 hnone
    rw [List.filter_append, h.comments hfirst, h'.comments hrest, List.map_append]
  clear := List.forall_mem_append.2 ⟨h.clear, h'.clear⟩

/-- The emissions inside a function as outputs. -/
theorem Output.Annotates.output {e plain : Emission} {notes : List String} (function : String)
    (h : Generate.Annotates e plain notes)
    (hclear : ∀ line ∈ e.code, (line.map Instruction.mnemonic).Clear) :
    Output.Annotates (e.output function) (plain.output function) notes where
  failures := congrArg (List.map _) h.faults
  code := h.code
  comments _ := h.comments
  clear := hclear

/-- A declaration without code. -/
theorem Output.Annotates.empty : Output.Annotates {} {} [] where
  failures := rfl
  code := rfl
  comments _ := rfl
  clear _ h := absurd h List.not_mem_nil

/-- A statement for which there is no code. -/
theorem Output.Annotates.fault (fault : EmissionFault) (notes : List String) :
    Output.Annotates ((Emission.fault fault).output "") ((Emission.fault fault).output "")
      notes where
  failures := rfl
  code := rfl
  comments h := absurd h (List.cons_ne_nil _ _)
  clear _ h := absurd h List.not_mem_nil

section Programs

variable {table : SymbolTable} (htable : ∀ s ∈ table.symbols, IsWord s.name) (options : Options)

include htable

theorem annotates_topLevel (n : UInt32) (s : Stmt) :
    Output.Annotates (topLevel table { options with annotate := true } n s)
      (topLevel table { options with annotate := false } n s) (programNotes [s]) := by
  cases s with
  | function span head parameters body =>
    rw [topLevel, topLevel]
    cases hlocals : table.locals? head.name with
    | none => exact .fault _ _
    | some locals =>
      have hname : IsWord head.name := isWord_of_locals? htable hlocals
      have hnotes : programNotes [.function span head parameters body] =
          (Stmt.preorderAll body).map Stmt.note := by
        simp [programNotes, functionDecls, Stmt.function?]
      let c : Context := ⟨table, locals, head.name, false⟩
      rw [hnotes]
      exact .output head.name (annotates_function c options.entry body n)
        (clear_function (c := c) hname htable options.entry body n)
  | var span head initial => exact .empty
  | _ => exact .fault _ _

theorem annotates_functions (program : List Stmt) (n : UInt32) :
    Output.Annotates (functions table { options with annotate := true } program n)
      (functions table { options with annotate := false } program n) (programNotes program) := by
  induction program generalizing n with
  | nil => exact .empty
  | cons first rest ih =>
    have hnotes : programNotes (first :: rest) = programNotes [first] ++ programNotes rest := by
      rw [← List.singleton_append, programNotes, functionDecls, List.filterMap_append,
        List.flatMap_append]
      rfl
    rw [hnotes]
    exact (annotates_topLevel htable options n first).append (ih _)

end Programs

theorem clear_dataSection {table : SymbolTable} (htable : ∀ s ∈ table.symbols, IsWord s.name) :
    ∀ line ∈ dataSection table, (line.map Instruction.mnemonic).Clear := by
  rw [dataSection, List.forall_mem_cons, List.forall_mem_map]
  exact ⟨Line.clear_directive (by decide) (by decide),
    fun s hs ↦ Line.clear_word (htable s (List.mem_filter.1 hs).1) _⟩

theorem clear_preamble {entry : String} (h : IsWord entry) :
    ∀ line ∈ preamble entry, (line.map Instruction.mnemonic).Clear := by
  have hentry := h.notMem (c := '\n') (by decide)
  have hglobal : (Line.directive (".globl " ++ entry)).Clear :=
    Line.clear_directive (by simpa using hentry) (by simp)
  have hjump : (Line.instruction (Instruction.j entry).mnemonic).Clear :=
    Line.clear_instruction hentry
  simp only [preamble, List.forall_mem_cons]
  exact ⟨Line.clear_blank, Line.clear_directive (by decide) (by decide), hglobal, hjump,
    fun _ h ↦ absurd h List.not_mem_nil⟩

/-- There are no comments before the first function. -/
theorem annotates_opening {table : SymbolTable} (htable : ∀ s ∈ table.symbols, IsWord s.name)
    {entry : String} (hentry : IsWord entry) :
    Output.Annotates ⟨dataSection table ++ preamble entry, []⟩
      ⟨dataSection table ++ preamble entry, []⟩ [] := by
  have hnone : ∀ line ∈ dataSection table ++ preamble entry, line.isComment = false := by
    rw [List.forall_mem_append, dataSection, List.forall_mem_cons, List.forall_mem_map]
    refine ⟨⟨rfl, fun _ _ ↦ rfl⟩, ?_⟩
    simp [preamble, Line.isComment]
  exact
    { failures := rfl
      code := List.filter_eq_self.2 fun line hline ↦ by
        rw [hnone line hline]
        rfl
      comments := fun _ ↦ List.filter_eq_nil_iff.2 fun line hline ↦ by
        rw [hnone line hline]
        exact Bool.false_ne_true
      clear := List.forall_mem_append.2 ⟨clear_dataSection htable, clear_preamble hentry⟩ }

/-- **Annotations are comments and nothing else.** If the names of the table are words, a program
has annotated code if it has code at all, and fails for the same reasons otherwise. Without the
lines that start like comments, the annotated text is the other one, and these lines are the notes
on the statements in the functions of the program. -/
theorem program_annotated {table : SymbolTable} (htable : ∀ s ∈ table.symbols, IsWord s.name)
    (options : Options) (stmts : List Stmt) :
    (program table { options with annotate := true } stmts).map (fun code ↦
        (Listing.withoutRemarks code.text, Listing.remarks code.text)) =
      (program table { options with annotate := false } stmts).map fun code ↦
        (code.text, (programNotes stmts).map ("    # " ++ ·)) := by
  have hfunctions := annotates_functions htable options stmts 0
  rw [program, program]
  split
  · rfl
  cases hlocals : table.locals? options.entry with
  | none => rfl
  | some locals =>
    have hentry : IsWord options.entry := isWord_of_locals? htable hlocals
    have hprogram := (annotates_opening htable hentry).append hfunctions
    simp only [Option.isNone_some, Bool.false_eq_true, if_false, hfunctions.failures]
    cases hfailures : (functions table { options with annotate := false } stmts 0).failures with
    | cons failure failures => rfl
    | nil =>
      have hcode := hprogram.code
      have hremarks := hprogram.comments hfailures
      dsimp only at hcode hremarks
      simp only [List.isEmpty_nil, if_true, Except.map]
      rw [Code.withoutRemarks_text hprogram.clear, Code.remarks_text hprogram.clear, hcode,
        hremarks, List.map_map]
      rfl

theorem program_annotated_nested :
    (∀ s ∈ (Layout.build Layout.Sample.nested {}).table.symbols, IsWord s.name) ∧
      programNotes Layout.Sample.nested = ["if (line 1)", "block (line 1)", "variable (line 1)",
        "block (line 1)", "variable (line 1)", "while (line 1)", "block (line 1)",
        "variable (line 1)", "return (line 1)"] ∧
      (program (Layout.build Layout.Sample.nested {}).table { entry := "f" }
        Layout.Sample.nested).isOk ∧
      (program (Layout.build Layout.Sample.nested {}).table { entry := "f", annotate := true }
          Layout.Sample.nested).map (fun code ↦
            (Listing.withoutRemarks code.text, Listing.remarks code.text)) =
        (program (Layout.build Layout.Sample.nested {}).table { entry := "f" }
          Layout.Sample.nested).map fun code ↦
            (code.text, (programNotes Layout.Sample.nested).map ("    # " ++ ·)) := by
  have htable : ∀ s ∈ (Layout.build Layout.Sample.nested {}).table.symbols, IsWord s.name := by
    decide +kernel
  have hok : (program (Layout.build Layout.Sample.nested {}).table { entry := "f" }
      Layout.Sample.nested).isOk := by
    cbv
  exact ⟨htable, by cbv, hok, program_annotated htable { entry := "f" } Layout.Sample.nested⟩

end Generate

end ScalarMips
