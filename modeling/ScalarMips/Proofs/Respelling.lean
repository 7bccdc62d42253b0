import ScalarMips.Proofs.Storage
import ScalarMips.Proofs.Unplaced

/-!
# Trees with other names

Two trees can be the same apart from positions and from names, which correspond to each other by
some relation. A tree is given by what is left of it without names and positions together with the
names at its declarations and uses, so such trees can be recognised by these lists
(`programRespelled_of_names`).

If the relation pairs names off one to one, a look-up on one side finds what the corresponding
look-up finds on the other. The storage of corresponding programs is therefore laid out in the same
way (`Layout.build_respelled`, `Layout.frameSymbols_respelled`).
-/

namespace ScalarMips

variable {R : String → String → Prop}

/-! ### Trees -/

mutual

/-- Expressions that are the same apart from positions and from names, which correspond. -/
inductive Expr.Respelled (R : String → String → Prop) : Expr → Expr → Prop where
  | literal {span span' : Span} {value : Literal} :
    Expr.Respelled R (.literal span value) (.literal span' value)
  | var {span span' : Span} {name name' : String} :
    R name name' → Expr.Respelled R (.var span name) (.var span' name')
  | unary {span span' : Span} {op : Operator} {operand operand' : Expr} :
    Expr.Respelled R operand operand' →
      Expr.Respelled R (.unary span op operand) (.unary span' op operand')
  | binary {span span' : Span} {op : Operator} {left right left' right' : Expr} :
    Expr.Respelled R left left' → Expr.Respelled R right right' →
      Expr.Respelled R (.binary span op left right) (.binary span' op left' right')
  | call {span span' : Span} {name name' : String} {arguments arguments' : List Expr} :
    R name name' → Expr.AllRespelled R arguments arguments' →
      Expr.Respelled R (.call span name arguments) (.call span' name' arguments')

/-- Expressions that correspond, one by one. -/
inductive Expr.AllRespelled (R : String → String → Prop) : List Expr → List Expr → Prop where
  | nil : Expr.AllRespelled R [] []
  | cons {e e' : Expr} {es es' : List Expr} :
    Expr.Respelled R e e' → Expr.AllRespelled R es es' →
      Expr.AllRespelled R (e :: es) (e' :: es')

end

/-- Declarations of one type under names that correspond. -/
def Declarator.Respelled (R : String → String → Prop) (d d' : Declarator) : Prop :=
  R d.name d'.name ∧ d.type = d'.type

mutual

/-- Statements inside of functions that are the same apart from positions and from names, which
correspond. -/
inductive Stmt.Respelled (R : String → String → Prop) : Stmt → Stmt → Prop where
  | block {span span' : Span} {body body' : List Stmt} :
    Stmt.AllRespelled R body body' → Stmt.Respelled R (.block span body) (.block span' body')
  | var {span span' : Span} {head head' : Declarator} {initial initial' : Option Expr} :
    head.Respelled R head' → Option.Rel (Expr.Respelled R) initial initial' →
      Stmt.Respelled R (.var span head initial) (.var span' head' initial')
  | assign {span span' target target' : Span} {name name' : String} {value value' : Expr} :
    R name name' → value.Respelled R value' →
      Stmt.Respelled R (.assign span name target value) (.assign span' name' target' value')
  | when {span span' : Span} {condition condition' : Expr} {thenBranch thenBranch' : Stmt} :
    condition.Respelled R condition' → Stmt.Respelled R thenBranch thenBranch' →
      Stmt.Respelled R (.conditional span condition thenBranch none)
        (.conditional span' condition' thenBranch' none)
  | choose {span span' : Span} {condition condition' : Expr}
    {thenBranch elseBranch thenBranch' elseBranch' : Stmt} :
    condition.Respelled R condition' → Stmt.Respelled R thenBranch thenBranch' →
    Stmt.Respelled R elseBranch elseBranch' →
      Stmt.Respelled R (.conditional span condition thenBranch (some elseBranch))
        (.conditional span' condition' thenBranch' (some elseBranch'))
  | loop {span span' : Span} {condition condition' : Expr} {body body' : Stmt} :
    condition.Respelled R condition' → Stmt.Respelled R body body' →
      Stmt.Respelled R (.loop span condition body) (.loop span' condition' body')
  | evaluate {span span' : Span} {value value' : Expr} :
    value.Respelled R value' → Stmt.Respelled R (.evaluate span value) (.evaluate span' value')
  | return_ {span span' : Span} {value value' : Expr} :
    value.Respelled R value' → Stmt.Respelled R (.return_ span value) (.return_ span' value')
  | print {span span' : Span} {ending : PrintEnd} {value value' : Option Expr} :
    Option.Rel (Expr.Respelled R) value value' →
      Stmt.Respelled R (.print span ending value) (.print span' ending value')

/-- Statements that correspond, one by one. -/
inductive Stmt.AllRespelled (R : String → String → Prop) : List Stmt → List Stmt → Prop where
  | nil : Stmt.AllRespelled R [] []
  | cons {stmt stmt' : Stmt} {stmts stmts' : List Stmt} :
    Stmt.Respelled R stmt stmt' → Stmt.AllRespelled R stmts stmts' →
      Stmt.AllRespelled R (stmt :: stmts) (stmt' :: stmts')

end

/-- Names that correspond and are the same. -/
def Fixed (R : String → String → Prop) (u u' : String) : Prop :=
  R u u' ∧ u = u'

/-- Programs that are the same apart from positions and from the names of local variables and
parameters, which correspond. -/
inductive ProgramRespelled (R : String → String → Prop) : List Stmt → List Stmt → Prop where
  | nil : ProgramRespelled R [] []
  | function {span span' : Span} {head head' : Declarator}
    {parameters parameters' : List Declarator} {body body' program program' : List Stmt} :
    Fixed R head.name head'.name →
    List.Forall₂ (Declarator.Respelled R) parameters parameters' →
    Stmt.AllRespelled R body body' → ProgramRespelled R program program' →
      ProgramRespelled R (.function span head parameters body :: program)
        (.function span' head' parameters' body' :: program')
  | var {span span' : Span} {head head' : Declarator} {initial initial' : Option Expr}
    {program program' : List Stmt} :
    head.Respelled (Fixed R) head' → Option.Rel (Expr.Respelled R) initial initial' →
    ProgramRespelled R program program' →
      ProgramRespelled R (.var span head initial :: program)
        (.var span' head' initial' :: program')

/-! ### Recognising corresponding trees

Names are taken from the front of the lists; what a tree leaves of them belongs to the trees after
it. -/

mutual

theorem Expr.respelled_of_names : ∀ (e e' : Expr) {us us' : List String},
    e.unnamed.unplaced = e'.unnamed.unplaced →
    List.Forall₂ R (e.references ++ us) (e'.references ++ us') →
      e.Respelled R e' ∧ List.Forall₂ R us us'
  | .literal .., e', _, _, h, hnames => by
    cases e' with
    | literal =>
      cases h
      exact ⟨.literal, hnames⟩
    | _ => cases h
  | .var .., e', _, _, h, hnames => by
    cases e' with
    | var =>
      obtain ⟨hname, hrest⟩ := List.forall₂_cons.1 hnames
      exact ⟨.var hname, hrest⟩
    | _ => cases h
  | .unary _ op operand, e', _, _, h, hnames => by
    cases e' with
    | unary _ op' operand' =>
      obtain ⟨-, rfl, hoperand⟩ := Expr.unary.inj h
      obtain ⟨hoperand, hrest⟩ := Expr.respelled_of_names operand operand' hoperand hnames
      exact ⟨.unary hoperand, hrest⟩
    | _ => cases h
  | .binary _ op left right, e', _, _, h, hnames => by
    cases e' with
    | binary _ op' left' right' =>
      obtain ⟨-, rfl, hleft, hright⟩ := Expr.binary.inj h
      rw [Expr.references, Expr.references, List.append_assoc, List.append_assoc] at hnames
      obtain ⟨hleft, hnames⟩ := Expr.respelled_of_names left left' hleft hnames
      obtain ⟨hright, hrest⟩ := Expr.respelled_of_names right right' hright hnames
      exact ⟨.binary hleft hright, hrest⟩
    | _ => cases h
  | .call _ _ arguments, e', _, _, h, hnames => by
    cases e' with
    | call _ _ arguments' =>
      obtain ⟨-, -, harguments⟩ := Expr.call.inj h
      obtain ⟨hname, hnames⟩ := List.forall₂_cons.1 hnames
      obtain ⟨harguments, hrest⟩ :=
        Expr.allRespelled_of_names arguments arguments' harguments hnames
      exact ⟨.call hname harguments, hrest⟩
    | _ => cases h

theorem Expr.allRespelled_of_names : ∀ (es es' : List Expr) {us us' : List String},
    Expr.unplacedAll (Expr.unnamedAll es) = Expr.unplacedAll (Expr.unnamedAll es') →
    List.Forall₂ R (Expr.referencesAll es ++ us) (Expr.referencesAll es' ++ us') →
      Expr.AllRespelled R es es' ∧ List.Forall₂ R us us'
  | [], [], _, _, _, hnames => ⟨.nil, hnames⟩
  | [], _ :: _, _, _, h, _ => by cases h
  | _ :: _, [], _, _, h, _ => by cases h
  | e :: es, e' :: es', _, _, h, hnames => by
    obtain ⟨he, hes⟩ := List.cons.inj h
    rw [Expr.referencesAll, Expr.referencesAll, List.append_assoc, List.append_assoc] at hnames
    obtain ⟨he, hnames⟩ := Expr.respelled_of_names e e' he hnames
    obtain ⟨hes, hrest⟩ := Expr.allRespelled_of_names es es' hes hnames
    exact ⟨.cons he hes, hrest⟩

end

theorem Expr.optionRespelled_of_names {value value' : Option Expr} {us us' : List String}
    (h : (value.map Expr.unnamed).map Expr.unplaced = (value'.map Expr.unnamed).map Expr.unplaced)
    (hnames : List.Forall₂ R (Expr.optionReferences value ++ us)
      (Expr.optionReferences value' ++ us')) :
    Option.Rel (Expr.Respelled R) value value' ∧ List.Forall₂ R us us' := by
  cases value with
  | none =>
    cases value' with
    | none => exact ⟨.none, hnames⟩
    | some e' => cases h
  | some e =>
    cases value' with
    | none => cases h
    | some e' =>
      obtain ⟨he, hrest⟩ := Expr.respelled_of_names e e' (Option.some.inj h) hnames
      exact ⟨.some he, hrest⟩

theorem Declarator.type_of_unnamed {d d' : Declarator}
    (h : d.unnamed.unplaced = d'.unnamed.unplaced) : d.type = d'.type := by
  show d.unnamed.unplaced.type = d'.unnamed.unplaced.type
  rw [h]

theorem Declarator.respelled_of_names : ∀ (ds ds' : List Declarator) {us us' : List String},
    (ds.map Declarator.unnamed).map Declarator.unplaced =
      (ds'.map Declarator.unnamed).map Declarator.unplaced →
    List.Forall₂ R (ds.map Declarator.name ++ us) (ds'.map Declarator.name ++ us') →
      List.Forall₂ (Declarator.Respelled R) ds ds' ∧ List.Forall₂ R us us'
  | [], [], _, _, _, hnames => ⟨.nil, hnames⟩
  | [], _ :: _, _, _, h, _ => by cases h
  | _ :: _, [], _, _, h, _ => by cases h
  | d :: ds, d' :: ds', _, _, h, hnames => by
    obtain ⟨hd, hds⟩ := List.cons.inj h
    obtain ⟨hname, hnames⟩ := List.forall₂_cons.1 hnames
    obtain ⟨hds, hrest⟩ := Declarator.respelled_of_names ds ds' hds hnames
    exact ⟨.cons ⟨hname, type_of_unnamed hd⟩ hds, hrest⟩

mutual

theorem Stmt.respelled_of_names : ∀ (s s' : Stmt) {vs vs' us us' : List String}, s.Plain →
    s.unnamed.unplaced = s'.unnamed.unplaced →
    List.Forall₂ R (s.variables ++ vs) (s'.variables ++ vs') →
    List.Forall₂ R (s.references ++ us) (s'.references ++ us') →
      s.Respelled R s' ∧ List.Forall₂ R vs vs' ∧ List.Forall₂ R us us'
  | .block _ body, s', _, _, _, _, hplain, h, hvariables, hnames => by
    cases s' with
    | block _ body' =>
      obtain ⟨-, hbody⟩ := Stmt.block.inj h
      obtain ⟨hbody, hrest⟩ := Stmt.allRespelled_of_names body body' hplain hbody hvariables hnames
      exact ⟨.block hbody, hrest⟩
    | conditional _ _ _ elseBranch' => cases elseBranch' <;> cases h
    | _ => cases h
  | .function .., _, _, _, _, _, hplain, _, _, _ => hplain.elim
  | .var _ head initial, s', _, _, _, _, _, h, hvariables, hnames => by
    cases s' with
    | var _ head' initial' =>
      obtain ⟨-, hhead, hinitial⟩ := Stmt.var.inj h
      obtain ⟨hname, hvariables⟩ := List.forall₂_cons.1 hvariables
      obtain ⟨hinitial, hrest⟩ := Expr.optionRespelled_of_names hinitial hnames
      exact ⟨.var ⟨hname, Declarator.type_of_unnamed hhead⟩ hinitial, hvariables, hrest⟩
    | conditional _ _ _ elseBranch' => cases elseBranch' <;> cases h
    | _ => cases h
  | .assign _ _ _ value, s', _, _, _, _, _, h, hvariables, hnames => by
    cases s' with
    | assign _ _ _ value' =>
      obtain ⟨-, -, -, hvalue⟩ := Stmt.assign.inj h
      obtain ⟨hname, hnames⟩ := List.forall₂_cons.1 hnames
      obtain ⟨hvalue, hrest⟩ := Expr.respelled_of_names value value' hvalue hnames
      exact ⟨.assign hname hvalue, hvariables, hrest⟩
    | conditional _ _ _ elseBranch' => cases elseBranch' <;> cases h
    | _ => cases h
  | .conditional _ condition thenBranch none, s', _, _, _, _, hplain, h, hvariables, hnames => by
    cases s' with
    | conditional _ condition' thenBranch' elseBranch' =>
      cases elseBranch' with
      | none =>
        obtain ⟨-, hcondition, hthen, -⟩ := Stmt.conditional.inj h
        rw [Stmt.references, Stmt.references, List.append_assoc, List.append_assoc] at hnames
        obtain ⟨hcondition, hnames⟩ :=
          Expr.respelled_of_names condition condition' hcondition hnames
        obtain ⟨hthen, hrest⟩ :=
          Stmt.respelled_of_names thenBranch thenBranch' hplain hthen hvariables hnames
        exact ⟨.when hcondition hthen, hrest⟩
      | some _ => cases (Stmt.conditional.inj h).2.2.2
    | _ => cases h
  | .conditional _ condition thenBranch (some elseBranch), s', _, _, _, _, hplain, h, hvariables,
      hnames => by
    cases s' with
    | conditional _ condition' thenBranch' elseBranch' =>
      cases elseBranch' with
      | none => cases (Stmt.conditional.inj h).2.2.2
      | some elseBranch' =>
        obtain ⟨-, hcondition, hthen, helse⟩ := Stmt.conditional.inj h
        rw [Stmt.references, Stmt.references, List.append_assoc, List.append_assoc,
          List.append_assoc, List.append_assoc] at hnames
        rw [Stmt.variables, Stmt.variables, List.append_assoc, List.append_assoc] at hvariables
        obtain ⟨hcondition, hnames⟩ :=
          Expr.respelled_of_names condition condition' hcondition hnames
        obtain ⟨hthen, hvariables, hnames⟩ :=
          Stmt.respelled_of_names thenBranch thenBranch' hplain.1 hthen hvariables hnames
        obtain ⟨helse, hrest⟩ := Stmt.respelled_of_names elseBranch elseBranch' hplain.2
          (Option.some.inj helse) hvariables hnames
        exact ⟨.choose hcondition hthen helse, hrest⟩
    | _ => cases h
  | .loop _ condition body, s', _, _, _, _, hplain, h, hvariables, hnames => by
    cases s' with
    | loop _ condition' body' =>
      obtain ⟨-, hcondition, hbody⟩ := Stmt.loop.inj h
      rw [Stmt.references, Stmt.references, List.append_assoc, List.append_assoc] at hnames
      obtain ⟨hcondition, hnames⟩ :=
        Expr.respelled_of_names condition condition' hcondition hnames
      obtain ⟨hbody, hrest⟩ :=
        Stmt.respelled_of_names body body' hplain hbody hvariables hnames
      exact ⟨.loop hcondition hbody, hrest⟩
    | conditional _ _ _ elseBranch' => cases elseBranch' <;> cases h
    | _ => cases h
  | .evaluate _ value, s', _, _, _, _, _, h, hvariables, hnames => by
    cases s' with
    | evaluate _ value' =>
      obtain ⟨-, hvalue⟩ := Stmt.evaluate.inj h
      obtain ⟨hvalue, hrest⟩ := Expr.respelled_of_names value value' hvalue hnames
      exact ⟨.evaluate hvalue, hvariables, hrest⟩
    | conditional _ _ _ elseBranch' => cases elseBranch' <;> cases h
    | _ => cases h
  | .return_ _ value, s', _, _, _, _, _, h, hvariables, hnames => by
    cases s' with
    | return_ _ value' =>
      obtain ⟨-, hvalue⟩ := Stmt.return_.inj h
      obtain ⟨hvalue, hrest⟩ := Expr.respelled_of_names value value' hvalue hnames
      exact ⟨.return_ hvalue, hvariables, hrest⟩
    | conditional _ _ _ elseBranch' => cases elseBranch' <;> cases h
    | _ => cases h
  | .print _ _ value, s', _, _, _, _, _, h, hvariables, hnames => by
    cases s' with
    | print _ _ value' =>
      obtain ⟨-, rfl, hvalue⟩ := Stmt.print.inj h
      obtain ⟨hvalue, hrest⟩ := Expr.optionRespelled_of_names hvalue hnames
      exact ⟨.print hvalue, hvariables, hrest⟩
    | conditional _ _ _ elseBranch' => cases elseBranch' <;> cases h
    | _ => cases h

theorem Stmt.allRespelled_of_names : ∀ (ss ss' : List Stmt) {vs vs' us us' : List String},
    Stmt.AllPlain ss →
    Stmt.unplacedAll (Stmt.unnamedAll ss) = Stmt.unplacedAll (Stmt.unnamedAll ss') →
    List.Forall₂ R (Stmt.variablesAll ss ++ vs) (Stmt.variablesAll ss' ++ vs') →
    List.Forall₂ R (Stmt.referencesAll ss ++ us) (Stmt.referencesAll ss' ++ us') →
      Stmt.AllRespelled R ss ss' ∧ List.Forall₂ R vs vs' ∧ List.Forall₂ R us us'
  | [], [], _, _, _, _, _, _, hvariables, hnames => ⟨.nil, hvariables, hnames⟩
  | [], _ :: _, _, _, _, _, _, h, _, _ => by cases h
  | _ :: _, [], _, _, _, _, _, h, _, _ => by cases h
  | s :: ss, s' :: ss', _, _, _, _, hplain, h, hvariables, hnames => by
    obtain ⟨hs, hss⟩ := List.cons.inj h
    rw [Stmt.variablesAll, Stmt.variablesAll, List.append_assoc, List.append_assoc] at hvariables
    rw [Stmt.referencesAll, Stmt.referencesAll, List.append_assoc, List.append_assoc] at hnames
    obtain ⟨hs, hvariables, hnames⟩ :=
      Stmt.respelled_of_names s s' hplain.1 hs hvariables hnames
    obtain ⟨hss, hrest⟩ := Stmt.allRespelled_of_names ss ss' hplain.2 hss hvariables hnames
    exact ⟨.cons hs hss, hrest⟩

end

/-- Programs correspond if they are the same without names and positions, the same functions and
global variables are named in them, and all other names correspond. -/
theorem programRespelled_of_names : ∀ (program program' : List Stmt), Unnested program →
    (∀ stmt ∈ program, stmt.IsDeclaration) →
    Stmt.unplacedAll (Stmt.unnamedAll program) = Stmt.unplacedAll (Stmt.unnamedAll program') →
    List.Forall₂ (Fixed R) (functionNames program) (functionNames program') →
    (globalDecls program).map Declarator.name = (globalDecls program').map Declarator.name →
    List.Forall₂ R (Stmt.variablesAll program) (Stmt.variablesAll program') →
    List.Forall₂ R (Stmt.referencesAll program) (Stmt.referencesAll program') →
      ProgramRespelled R program program'
  | [], [], _, _, _, _, _, _, _ => .nil
  | [], _ :: _, _, _, h, _, _, _, _ => by cases h
  | _ :: _, [], _, _, h, _, _, _, _ => by cases h
  | stmt :: program, stmt' :: program', hplain, hdecl, h, hfunctions, hglobals, hvariables,
      hnames => by
    obtain ⟨hstmt, hprogram⟩ := List.cons.inj h
    obtain ⟨hplainFirst, hplainRest⟩ := List.forall_mem_cons.1 hplain
    obtain ⟨hdeclFirst, hdeclRest⟩ := List.forall_mem_cons.1 hdecl
    cases stmt with
    | function _ head parameters body =>
      cases stmt' with
      | function _ head' parameters' body' =>
        obtain ⟨-, -, hparameters, hbody⟩ := Stmt.function.inj hstmt
        obtain ⟨hhead, hfunctions⟩ := List.forall₂_cons.1 hfunctions
        rw [Stmt.variablesAll, Stmt.variablesAll, Stmt.variables, Stmt.variables,
          List.append_assoc, List.append_assoc] at hvariables
        obtain ⟨hparameters, hvariables⟩ :=
          Declarator.respelled_of_names parameters parameters' hparameters hvariables
        obtain ⟨hbody, hvariables, hnames⟩ :=
          Stmt.allRespelled_of_names body body' hplainFirst hbody hvariables hnames
        exact .function hhead hparameters hbody (programRespelled_of_names program program'
          hplainRest hdeclRest hprogram hfunctions hglobals hvariables hnames)
      | conditional _ _ _ elseBranch' => cases elseBranch' <;> cases hstmt
      | _ => cases hstmt
    | var _ head initial =>
      cases stmt' with
      | var _ head' initial' =>
        obtain ⟨-, hhead, hinitial⟩ := Stmt.var.inj hstmt
        obtain ⟨hsame, hglobals⟩ := List.cons.inj hglobals
        obtain ⟨hname, hvariables⟩ := List.forall₂_cons.1 hvariables
        obtain ⟨hinitial, hnames⟩ := Expr.optionRespelled_of_names hinitial hnames
        exact .var ⟨⟨hname, hsame⟩, Declarator.type_of_unnamed hhead⟩ hinitial
          (programRespelled_of_names program program' hplainRest hdeclRest hprogram hfunctions
            hglobals hvariables hnames)
      | conditional _ _ _ elseBranch' => cases elseBranch' <;> cases hstmt
      | _ => cases hstmt
    | _ => exact hdeclFirst.elim

/-! ### Symbols -/

/-- Symbols that are the same apart from names, which correspond. What is in the table of a function
is not compared. -/
inductive Symbol.Respelled (R : String → String → Prop) : Symbol → Symbol → Prop where
  | var {name name' : String} {type : ScalarType} {offset : UInt32} {initial : Option Int32} :
    R name name' →
      Symbol.Respelled R (.var name type offset initial) (.var name' type offset initial)
  | parameter {name name' : String} {type : ScalarType} {offset : UInt32} :
    R name name' → Symbol.Respelled R (.parameter name type offset) (.parameter name' type offset)
  | function {name name' : String} {type type' : ScalarType} {locals locals' : List Symbol} :
    R name name' → Symbol.Respelled R (.function name type locals) (.function name' type' locals')

theorem Symbol.Respelled.name {s s' : Symbol} (h : s.Respelled R s') : R s.name s'.name := by
  cases h <;> assumption

namespace SymbolTable

/-- Tables with words of one size and with symbols that correspond. -/
structure Respelled (R : String → String → Prop) (t t' : SymbolTable) : Prop where
  /-- Words have the same size. -/
  wordSize : t.wordSize = t'.wordSize
  /-- The symbols correspond, one by one. -/
  symbols : List.Forall₂ (Symbol.Respelled R) t.symbols t'.symbols

variable {S : String → String → Prop} {t t' : SymbolTable}

/-- Names that correspond are found together. -/
theorem Respelled.find? (h : t.Respelled S t') (hR : Relator.BiUnique R)
    (hS : ∀ u u', S u u' → R u u') {u u' : String} (hu : R u u') :
    (t.find? u = none ∧ t'.find? u' = none) ∨
      ∃ s s', t.find? u = some s ∧ t'.find? u' = some s' ∧ s.Respelled S s' := by
  have hsymbols := h.symbols
  unfold SymbolTable.find?
  generalize t.symbols = symbols at hsymbols ⊢
  generalize t'.symbols = symbols' at hsymbols ⊢
  induction hsymbols with
  | nil => exact .inl ⟨rfl, rfl⟩
  | @cons s s' _ _ hs _ ih =>
    -- Names are paired off, so the first symbol is the one on both sides or on neither.
    have heq : s.name = u ↔ s'.name = u' := Relator.rel_eq hR (hS _ _ hs.name) hu
    by_cases hname : s.name = u
    · rw [List.find?_cons_of_pos (by simpa using hname),
        List.find?_cons_of_pos (by simpa using heq.1 hname)]
      exact .inr ⟨s, s', rfl, rfl, hs⟩
    · rw [List.find?_cons_of_neg (by simpa using hname),
        List.find?_cons_of_neg (by simpa using mt heq.2 hname)]
      exact ih

theorem Respelled.vars (h : t.Respelled S t') :
    List.Forall₂ (Symbol.Respelled S) t.vars t'.vars := by
  refine List.rel_filter ?_ h.symbols
  intro s s' hs
  cases hs <;> rfl

theorem Respelled.localSize (h : t.Respelled S t') : t.localSize = t'.localSize := by
  rw [SymbolTable.localSize, SymbolTable.localSize, words, words, h.wordSize,
    h.vars.length_eq]

/-- Symbols that correspond are put at the end, or their names are in use on both sides. -/
theorem Respelled.put (h : t.Respelled S t') (hR : Relator.BiUnique R)
    (hS : ∀ u u', S u u' → R u u') {s s' : Symbol} (hs : s.Respelled S s') :
    ((t.put? s).getD t).Respelled S ((t'.put? s').getD t') := by
  have hcontains : t.contains s.name = t'.contains s'.name := by
    unfold contains
    rcases h.find? hR hS (hS _ _ hs.name) with ⟨hfind, hfind'⟩ | ⟨_, _, hfind, hfind', -⟩
    · rw [hfind, hfind']
    · rw [hfind, hfind']
      rfl
  unfold put?
  rw [hcontains]
  split
  · exact h
  · exact ⟨h.wordSize, List.rel_append h.symbols (.cons hs .nil)⟩

end SymbolTable

/-! ### Constant values -/

namespace Constant

/-- Expressions that correspond have the same value over the same global variables. -/
theorem fold_respelled {t t' : SymbolTable} (ht : t.Respelled (Fixed R) t')
    (hR : Relator.BiUnique R) (e : Expr) {e' : Expr} (h : e.Respelled R e') :
    fold t e = fold t' e' := by
  cases e with
  | literal span value =>
    cases h
    rfl
  | var span name =>
    cases h with
    | var hname =>
      unfold fold variableValue
      rcases ht.find? hR (fun _ _ h ↦ h.1) hname with
        ⟨hfind, hfind'⟩ | ⟨_, _, hfind, hfind', hs⟩
      · rw [hfind, hfind']
      · rw [hfind, hfind']
        cases hs <;> rfl
  | unary span op operand =>
    cases h with
    | unary hoperand => rw [fold, fold, fold_respelled ht hR operand hoperand]
  | binary span op left right =>
    cases h with
    | binary hleft hright =>
      rw [fold, fold, fold_respelled ht hR left hleft, fold_respelled ht hR right hright]
  | call span name arguments =>
    cases h
    rfl

end Constant

/-! ### Layout -/

namespace Layout

/-- A function is entered into the table by its name alone. -/
theorem table_putFunction (head : Declarator) (parameters : List Declarator) (body : List Stmt)
    (t : SymbolTable) :
    ∃ locals, (putFunction head parameters body t).table =
      (t.put? (.function head.name head.type locals)).getD t := by
  refine ⟨((putParameters parameters { wordSize := t.wordSize }).andThen
    (putLocals (declaredAll body))).table.symbols, ?_⟩
  unfold putFunction
  split
  · rename_i hcontains
    show t = Option.getD (if t.contains head.name then none else _) t
    rw [if_pos hcontains]
    rfl
  · rfl

theorem Progress.table_ofPut {φ : Type} (t : SymbolTable) (inserted : Option SymbolTable)
    (failure : φ) : (ofPut t inserted failure).table = inserted.getD t := by
  cases inserted <;> rfl

theorem table_putGlobal (head : Declarator) (initial : Option Expr) (t : SymbolTable) :
    (putGlobal head initial t).table = if head.type.isConcrete then
      (t.put? (.var head.name head.type t.localSize (initial.bind (Constant.fold t)))).getD t
    else t := by
  unfold putGlobal
  split
  · exact Progress.table_ofPut t _ _
  · rfl

/-- The global variables and functions of corresponding programs are entered in the same way. -/
theorem build_respelled (hR : Relator.BiUnique R) {program program' : List Stmt}
    (h : ProgramRespelled R program program') : ∀ {t t' : SymbolTable},
    t.Respelled (Fixed R) t' →
      (build program t).table.Respelled (Fixed R) (build program' t').table := by
  have hfixed : ∀ u u', Fixed R u u' → R u u' := fun _ _ h ↦ h.1
  induction h with
  | nil => exact fun ht ↦ ht
  | @function _ _ head head' parameters parameters' body body' _ _ hhead _ _ _ ih =>
    intro t t' ht
    refine ih ?_
    obtain ⟨locals, htable⟩ := table_putFunction head parameters body t
    obtain ⟨locals', htable'⟩ := table_putFunction head' parameters' body' t'
    rw [putStmt, putStmt, htable, htable']
    exact ht.put hR hfixed (.function hhead)
  | @var _ _ head head' initial initial' _ _ hhead hinitial _ ih =>
    intro t t' ht
    refine ih ?_
    have hvalue : initial.bind (Constant.fold t) = initial'.bind (Constant.fold t') := by
      cases hinitial with
      | none => rfl
      | some he => exact Constant.fold_respelled ht hR _ he
    rw [putStmt, putStmt, table_putGlobal, table_putGlobal, hvalue, ht.localSize, hhead.2]
    split
    · exact ht.put hR hfixed (.var hhead.1)
    · exact ht

/-- Variables of a body that are declared with one type under names that correspond. -/
inductive Declared.Respelled (R : String → String → Prop) : Declared → Declared → Prop where
  | var {name name' : String} {type : ScalarType} :
    R name name' → Declared.Respelled R (.var name type) (.var name' type)

mutual

theorem declared_respelled : ∀ {s s' : Stmt}, s.Respelled R s' →
    List.Forall₂ (Declared.Respelled R) (declared s) (declared s')
  | .block .., _, .block hbody => declaredAll_respelled hbody
  | .var _ head _, .var _ head' _, .var hhead _ => by
    rw [declared, declared, hhead.2]
    exact .cons (.var hhead.1) .nil
  | .assign .., _, .assign .. => .nil
  | .conditional .., _, .when _ hthen => by
    rw [declared, declared]
    exact declared_respelled hthen
  | .conditional .., _, .choose _ hthen helse =>
    List.rel_append (declared_respelled hthen) (declared_respelled helse)
  | .loop .., _, .loop _ hbody => by
    rw [declared, declared]
    exact declared_respelled hbody
  | .evaluate .., _, .evaluate _ => .nil
  | .return_ .., _, .return_ _ => .nil
  | .print .., _, .print _ => .nil

theorem declaredAll_respelled : ∀ {ss ss' : List Stmt}, Stmt.AllRespelled R ss ss' →
    List.Forall₂ (Declared.Respelled R) (declaredAll ss) (declaredAll ss')
  | [], _, .nil => .nil
  | _ :: _, _, .cons hs hss => List.rel_append (declared_respelled hs) (declaredAll_respelled hss)

end

theorem parameterSymbols_respelled {parameters parameters' : List Declarator}
    (h : List.Forall₂ (Declarator.Respelled R) parameters parameters') : ∀ n : Nat,
    List.Forall₂ (Symbol.Respelled R) (parameterSymbols n parameters)
      (parameterSymbols n parameters') := by
  induction h with
  | nil => exact fun _ ↦ .nil
  | cons hp _ ih =>
    intro n
    rw [parameterSymbols, parameterSymbols, hp.2]
    exact .cons (.parameter hp.1) (ih (n + 1))

theorem localSymbols_respelled {declared declared' : List Declared}
    (h : List.Forall₂ (Declared.Respelled R) declared declared') : ∀ n : Nat,
    List.Forall₂ (Symbol.Respelled R) (localSymbols n declared) (localSymbols n declared') := by
  induction h with
  | nil => exact fun _ ↦ .nil
  | cons hd _ ih =>
    intro n
    cases hd with
    | var hname => exact .cons (.var hname) (ih (n + 1))

/-- The tables of corresponding functions correspond. -/
theorem frameSymbols_respelled {f f' : FunctionDecl}
    (hparameters : List.Forall₂ (Declarator.Respelled R) f.parameters f'.parameters)
    (hbody : Stmt.AllRespelled R f.body f'.body) :
    List.Forall₂ (Symbol.Respelled R) (frameSymbols f) (frameSymbols f') :=
  List.rel_append (parameterSymbols_respelled hparameters 0)
    (localSymbols_respelled (declaredAll_respelled hbody) 0)

end Layout

end ScalarMips
