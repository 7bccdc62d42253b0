import ScalarMips.Proofs.Lowering
import ScalarMips.Proofs.Respelling

/-!
# The code of trees with other names

Trees that correspond have the same code, provided that the names of functions and global variables
are the same. The names of local variables are only looked up, never written: what is written is
their addresses (`address?_respelled`).

Faults do mention names, so what is compared is the code alone.
-/

namespace ScalarMips.Generate

variable {R : String → String → Prop} {c c' : Context}

/-! ### Contexts -/

/-- Contexts of functions of one name, in tables whose symbols correspond; statements are not
annotated. -/
structure Context.Respelled (R : String → String → Prop) (c c' : Context) : Prop where
  /-- Names are paired off one to one. -/
  unique : Relator.BiUnique R
  /-- The same functions and global variables are stored. -/
  globals : c.globals.Respelled (Fixed R) c'.globals
  /-- The same parameters and local variables are stored, under names that correspond. -/
  locals : c.locals.Respelled R c'.locals
  /-- The functions have one name. -/
  function : c.function = c'.function
  /-- Statements are not annotated in the first context. -/
  plain : c.annotate = false
  /-- Statements are not annotated in the second context. -/
  plain' : c'.annotate = false

namespace Context.Respelled

theorem wordSize (h : c.Respelled R c') : c.wordSize = c'.wordSize :=
  h.globals.wordSize

theorem words (h : c.Respelled R c') (n : Nat) : c.globals.words n = c'.globals.words n := by
  rw [SymbolTable.words, SymbolTable.words, h.globals.wordSize]

theorem savedSize (h : c.Respelled R c') : c.savedSize = c'.savedSize :=
  h.words savedWords

theorem push (h : c.Respelled R c') (source : Register) : c.push source = c'.push source := by
  rw [Context.push, Context.push, h.wordSize]

theorem pop (h : c.Respelled R c') (target : Register) : c.pop target = c'.pop target := by
  rw [Context.pop, Context.pop, h.wordSize]

/-- Names that correspond are found in the global tables together, and then they are the same. -/
theorem find_global (h : c.Respelled R c') {u u' : String} (hu : R u u') :
    (c.globals.find? u = none ∧ c'.globals.find? u' = none) ∨
      ∃ s s', c.globals.find? u = some s ∧ c'.globals.find? u' = some s' ∧
        s.Respelled (Fixed R) s' ∧ u = u' := by
  rcases h.globals.find? h.unique (fun _ _ h ↦ h.1) hu with
    hnone | ⟨s, s', hfind, hfind', hs⟩
  · exact .inl hnone
  · have hname : s.name = u := by simpa using List.find?_some hfind
    have hname' : s'.name = u' := by simpa using List.find?_some hfind'
    exact .inr ⟨s, s', hfind, hfind', hs, hname ▸ hname' ▸ hs.name.2⟩

/-- Variables whose names correspond are stored at one address. -/
theorem address? (h : c.Respelled R c') {u u' : String} (hu : R u u') :
    c.address? u = c'.address? u' := by
  -- What is not found among the local variables is treated as if there were none.
  have hglobal : Context.address? { c with locals := {} } u =
      Context.address? { c' with locals := {} } u' := by
    rcases h.find_global hu with ⟨hfind, hfind'⟩ | ⟨s, s', hfind, hfind', hs, -⟩
    · simp only [Context.address?, hfind, hfind']
      rfl
    · simp only [Context.address?, hfind, hfind']
      cases hs with
      | var hname => exact congrArg (fun name ↦ some (Address.label name)) hname.2
      | _ => rfl
  unfold Context.address?
  rcases h.locals.find? h.unique (fun _ _ h ↦ h) hu with
    ⟨hfind, hfind'⟩ | ⟨s, s', hfind, hfind', hs⟩
  · rw [hfind, hfind']
    exact hglobal
  · rw [hfind, hfind', h.savedSize, h.wordSize]
    cases hs with
    | function => exact hglobal
    | _ => rfl

end Context.Respelled

/-! ### Expressions -/

theorem length_respelled : ∀ {es es' : List Expr}, Expr.AllRespelled R es es' →
    es.length = es'.length
  | [], _, .nil => rfl
  | _ :: _, _, .cons _ hes => congrArg (· + 1) (length_respelled hes)

mutual

theorem code_expr (hc : c.Respelled R c') : ∀ {e e' : Expr}, e.Respelled R e' →
    (expr c e).code = (expr c' e').code
  | .literal .., _, .literal => by rw [expr, expr, hc.push]
  | .var _ name, .var _ name', .var hname => by
    rw [expr, expr, hc.address? hname, hc.push]
    cases c'.address? name' <;> rfl
  | .unary _ op operand, _, .unary hoperand => by
    rw [expr, expr, hc.push, hc.pop]
    cases unaryCode? op <;> exact congrArg (· ++ _) (code_expr hc hoperand)
  | .binary _ op left right, _, .binary hleft hright => by
    rw [expr, expr, hc.push, hc.pop, hc.pop]
    cases binaryCode? op <;>
      simp only [Emission.code_append, code_expr hc hleft, code_expr hc hright]
  | .call _ name arguments, .call _ name' arguments', .call hname harguments => by
    rw [expr, expr]
    rcases hc.find_global hname with ⟨hfind, hfind'⟩ | ⟨s, s', hfind, hfind', hs, rfl⟩
    · rw [hfind, hfind']
      rfl
    · rw [hfind, hfind']
      cases hs with
      | function =>
        simp only [Emission.code_append, code_arguments hc harguments, callCode, hc.words,
          hc.push, length_respelled harguments]
      | _ => rfl

theorem code_arguments (hc : c.Respelled R c') : ∀ {es es' : List Expr},
    Expr.AllRespelled R es es' → (argumentsCode c es).code = (argumentsCode c' es').code
  | [], _, .nil => rfl
  | _ :: _, _, .cons he hes => by
    rw [argumentsCode, argumentsCode, Emission.code_append, Emission.code_append,
      code_arguments hc hes, code_expr hc he]

end

/-! ### Statements -/

theorem code_condition (hc : c.Respelled R c') {condition condition' : Expr}
    (h : condition.Respelled R condition') (otherwise : String) :
    (conditionCode c condition otherwise).code = (conditionCode c' condition' otherwise).code := by
  rw [conditionCode, conditionCode, Emission.code_append, Emission.code_append, code_expr hc h,
    hc.pop]

theorem code_store (hc : c.Respelled R c') {name name' : String} (hname : R name name')
    {value value' : Option Expr} (h : Option.Rel (Expr.Respelled R) value value') :
    (storeCode c name value).code = (storeCode c' name' value').code := by
  unfold storeCode
  rw [hc.address? hname, hc.pop]
  cases h with
  | none => cases c'.address? name' <;> rfl
  | some he =>
    cases c'.address? name' with
    | none => rfl
    | some address => exact congrArg (· ++ _) (code_expr hc he)

theorem code_print (hc : c.Respelled R c') (ending : PrintEnd) {value value' : Option Expr}
    (h : Option.Rel (Expr.Respelled R) value value') :
    (printCode c ending value).code = (printCode c' ending value').code := by
  cases h with
  | none => rfl
  | some he => simp only [printCode, Emission.code_append, code_expr hc he, hc.pop]

mutual

theorem branchCount_respelled : ∀ {s s' : Stmt}, s.Respelled R s' → branchCount s = branchCount s'
  | .block .., _, .block hbody => branchCountAll_respelled hbody
  | .conditional .., _, .when _ hthen => congrArg (1 + ·) (branchCount_respelled hthen)
  | .conditional .., _, .choose _ hthen helse =>
    congrArg₂ (1 + · + ·) (branchCount_respelled hthen) (branchCount_respelled helse)
  | .loop .., _, .loop _ hbody => congrArg (1 + ·) (branchCount_respelled hbody)
  | .var .., _, .var .. => rfl
  | .assign .., _, .assign .. => rfl
  | .evaluate .., _, .evaluate _ => rfl
  | .return_ .., _, .return_ _ => rfl
  | .print .., _, .print _ => rfl

theorem branchCountAll_respelled : ∀ {ss ss' : List Stmt}, Stmt.AllRespelled R ss ss' →
    branchCountAll ss = branchCountAll ss'
  | [], _, .nil => rfl
  | _ :: _, _, .cons hs hss =>
    congrArg₂ (· + ·) (branchCount_respelled hs) (branchCountAll_respelled hss)

end

mutual

/-- Statements that correspond have the same code. -/
theorem code_stmt (hc : c.Respelled R c') : ∀ {s s' : Stmt}, s.Respelled R s' → ∀ n : UInt32,
    (stmt c s n).code = (stmt c' s' n).code
  | .block .., _, .block hbody, n => by
    simp only [stmt, Emission.code_append, remark_eq_empty hc.plain, remark_eq_empty hc.plain',
      code_stmts hc hbody n]
  | .var .., _, .var hhead hinitial, n => by
    simp only [stmt, Emission.code_append, remark_eq_empty hc.plain, remark_eq_empty hc.plain',
      code_store hc hhead.1 hinitial]
  | .assign .., _, .assign hname hvalue, n => by
    simp only [stmt, Emission.code_append, remark_eq_empty hc.plain, remark_eq_empty hc.plain',
      code_store hc hname (.some hvalue)]
  | .conditional .., _, .when hcondition hthen, n => by
    simp only [stmt, Emission.code_append, remark_eq_empty hc.plain, remark_eq_empty hc.plain',
      code_condition hc hcondition, code_stmt hc hthen]
  | .conditional .., _, .choose hcondition hthen helse, n => by
    simp only [stmt, Emission.code_append, remark_eq_empty hc.plain, remark_eq_empty hc.plain',
      code_condition hc hcondition, code_stmt hc hthen, code_stmt hc helse,
      branchCount_respelled hthen]
  | .loop .., _, .loop hcondition hbody, n => by
    simp only [stmt, Emission.code_append, remark_eq_empty hc.plain, remark_eq_empty hc.plain',
      code_condition hc hcondition, code_stmt hc hbody]
  | .evaluate .., _, .evaluate hvalue, n => by
    simp only [stmt, Emission.code_append, remark_eq_empty hc.plain, remark_eq_empty hc.plain',
      code_expr hc hvalue, hc.wordSize]
  | .return_ .., _, .return_ hvalue, n => by
    simp only [stmt, Emission.code_append, remark_eq_empty hc.plain, remark_eq_empty hc.plain',
      code_expr hc hvalue, hc.pop, hc.function]
  | .print .., _, .print hvalue, n => by
    simp only [stmt, Emission.code_append, remark_eq_empty hc.plain, remark_eq_empty hc.plain',
      code_print hc _ hvalue]

theorem code_stmts (hc : c.Respelled R c') : ∀ {ss ss' : List Stmt}, Stmt.AllRespelled R ss ss' →
    ∀ n : UInt32, (stmts c ss n).code = (stmts c' ss' n).code
  | [], _, .nil, _ => rfl
  | _ :: _, _, .cons hs hss, n => by
    rw [stmts, stmts, Emission.code_append, Emission.code_append, code_stmt hc hs,
      branchCount_respelled hs, code_stmts hc hss]

end

/-! ### Programs -/

theorem code_function (hc : c.Respelled R c') {body body' : List Stmt}
    (h : Stmt.AllRespelled R body body') (entry : String) (n : UInt32) :
    (function c entry body n).code = (function c' entry body' n).code := by
  have hprologue : prologue c = prologue c' := by
    rw [prologue, prologue, hc.savedSize, hc.wordSize, hc.locals.localSize]
  have hepilogue : epilogue c = epilogue c' := by
    rw [epilogue, epilogue, hc.savedSize, hc.wordSize]
  simp only [function, Emission.code_append, hprologue, hepilogue, hc.function,
    code_stmts hc h n]

/-- Functions that correspond have the same code, in tables that have them. -/
theorem code_functions (hR : Relator.BiUnique R) {t t' : SymbolTable}
    (ht : t.Respelled (Fixed R) t') (options : Options) (ho : options.annotate = false)
    {program program' : List Stmt} (h : ProgramRespelled R program program')
    (hlocals : ∀ f ∈ functionDecls program,
      t.locals? f.head.name = some ⟨t.wordSize, Layout.frameSymbols f⟩)
    (hlocals' : ∀ f ∈ functionDecls program',
      t'.locals? f.head.name = some ⟨t'.wordSize, Layout.frameSymbols f⟩) (n : UInt32) :
    (functions t options program n).code = (functions t' options program' n).code := by
  induction h generalizing n with
  | nil => rfl
  | @function _ _ head head' parameters parameters' body body' _ _ hhead hparameters hbody _ ih =>
    obtain ⟨hfirst, hrest⟩ := List.forall_mem_cons.1 hlocals
    obtain ⟨hfirst', hrest'⟩ := List.forall_mem_cons.1 hlocals'
    have hcontext : (Context.ofFunction t ⟨head, parameters, body⟩ options.annotate).Respelled R
        (Context.ofFunction t' ⟨head', parameters', body'⟩ options.annotate) :=
      ⟨hR, ht, ⟨ht.wordSize, Layout.frameSymbols_respelled hparameters hbody⟩, hhead.2, ho, ho⟩
    rw [functions, functions, topLevel, topLevel, topLevelBranches, topLevelBranches, hfirst,
      hfirst']
    have hcode := code_function hcontext hbody options.entry n
    have hbranches := branchCountAll_respelled hbody
    simp only [Option.isSome_some, if_true, hbranches, ih hrest hrest']
    exact congrArg (· ++ _) hcode
  | var _ _ _ ih =>
    exact congrArg ([] ++ ·) (ih hlocals hlocals' _)

/-- The words of the global variables are the same in tables that have the same ones. -/
theorem dataSection_respelled {t t' : SymbolTable} (ht : t.Respelled (Fixed R) t') :
    dataSection t = dataSection t' := by
  have hvars := ht.vars
  unfold dataSection
  generalize t.vars = symbols at hvars ⊢
  generalize t'.vars = symbols' at hvars ⊢
  refine congrArg (Line.directive ".data" :: ·) ?_
  induction hvars with
  | nil => rfl
  | @cons s s' _ _ hs _ ih =>
    have hinitial : s.initial? = s'.initial? := by
      cases hs <;> rfl
    rw [List.map_cons, List.map_cons, ih, hinitial, hs.name.2]

end ScalarMips.Generate
