import ScalarMips.Proofs.Lowering
import ScalarMips.Proofs.SoundFrames

/-!
# Runs of well-typed programs

The reference semantics stops with `Stop.malformed` where a tree is not a program: at a name that
does not exist, a call with the wrong number of arguments, or a connective of what is not a truth
value. A well-typed program whose names are unique never gets there (`runProgram_ne_malformed`),
whatever the limit and the fuel. So the only runs without a meaning are those that are undefined on
purpose.

The proof is an induction on the fuel in which all states are sound. It starts with the initial
values of the global variables, which are constants of the right types (`build_initialized`).
-/

namespace ScalarMips.Semantics

variable {program : List Stmt} {Γ : Env} {frame : Locals} {w : World}

/-! ### Runs -/

/-- A statement has ended as its type says: a returned value has the type that the function returns,
and the state is as good as before. -/
structure Ends (program : List Stmt) (result : ScalarType) (Γ : Env) (outcome : Outcome) :
    Prop where
  /-- The returned value. -/
  returned : ∀ v, outcome.1 = some v → OfType result v
  /-- The frame. -/
  sound : Sound program Γ outcome.2.1
  /-- The global variables. -/
  proper : Proper program outcome.2.2

/-- The scope of what a statement declares is left. -/
theorem Ends.leave {result : ScalarType} {stmt : Stmt} {outcome : Outcome}
    (h : Ends program result (Γ.after stmt) outcome) (hfresh : Fresh Γ stmt.variables) :
    Ends program result Γ outcome :=
  ⟨h.returned, h.sound.leave hfresh, h.proper⟩

theorem safe_read {name : String} {type : ScalarType} (hname : Γ name = some (.var type))
    (h : Sound program Γ frame) (hw : Proper program w) :
    Safe (read frame w name) (OfType type) := by
  unfold read
  rcases h.var name type hname with ⟨value, hvalue, htype⟩ | ⟨hnone, head, hhead, rfl, rfl⟩
  · rw [hvalue]
    cases value with
    | some v => exact htype v rfl
    | none => exact nofun
  · obtain ⟨v, hv, htype⟩ := hw head hhead
    rw [hnone, hv]
    exact htype

variable {s : Setup} {result : ScalarType}

/-- A visible function is found. -/
theorem find?_of_function (hs : s.functions = functionDecls program) (h : Sound program Γ frame)
    {name : String} {parameters : List ScalarType}
    (hname : Γ name = some (.function parameters result)) :
    ∃ f ∈ functionDecls program, s.find? name = some f ∧
      f.parameters.map Declarator.type = parameters ∧ f.head.type = result := by
  obtain ⟨f, hfind, hmeaning⟩ := Option.map_eq_some_iff.1 (h.function name _ _ hname)
  cases hmeaning
  refine ⟨f, List.mem_of_find?_eq_some hfind, ?_, rfl, rfl⟩
  rw [Setup.find?, hs, hfind]

theorem passes_of_types : ∀ {parameters : List Declarator} {values : List Int32},
    List.Forall₂ OfType (parameters.map Declarator.type) values →
      List.Forall₂ Passes parameters (values.map some)
  | [], [], .nil => .nil
  | _ :: _, _ :: _, .cons hvalue hvalues => by
    refine .cons (fun v hv ↦ ?_) (passes_of_types hvalues)
    cases hv
    exact hvalue

theorem passes_none (parameters : List Declarator) :
    List.Forall₂ Passes parameters (List.replicate parameters.length none) := by
  induction parameters with
  | nil => exact .nil
  | cons p parameters ih => exact .cons nofun ih

mutual

theorem safe_expr (hs : s.functions = functionDecls program) (hp : Checked program) :
    ∀ (fuel d : Nat) (frame : Locals) (w : World) (e : Expr) (Γ : Env) (type : ScalarType),
      HasType Γ e type → Sound program Γ frame → Proper program w →
        Safe (expr s fuel d frame w e) fun r ↦ OfType type r.1 ∧ Proper program r.2
  | 0, _, _, _, _, _, _, _, _, _ => by
    rw [expr]
    exact nofun
  | fuel + 1, d, frame, w, e, Γ, type, h, hframe, hw => by
    have hexpr := fun d w e type h hw ↦ safe_expr hs hp fuel d frame w e Γ type h hframe hw
    -- Both operands of a binary operator are evaluated, and then the operator is applied.
    have hbinary : ∀ {span op left right l r}, HasType Γ left l → HasType Γ right r →
        (∀ x y, OfType l x → OfType r y → Safe (binary op x y) (OfType type)) →
          Safe (expr s (fuel + 1) d frame w (.binary span op left right))
            fun r ↦ OfType type r.1 ∧ Proper program r.2 := by
      intro span op left right l r hl hr hop
      rw [expr]
      refine .bind (hexpr d w left l hl hw) fun x hx ↦ ?_
      refine .bind (hexpr (d + 1) x.2 right r hr hx.2) fun y hy ↦ ?_
      exact .bind (hop x.1 y.1 hx.1 hy.1) fun v hv ↦ ⟨hv, hy.2⟩
    cases h with
    | @literal span value hvalue =>
      rw [expr]
      refine .bind (safe_reserve s _) fun _ _ ↦ ?_
      rw [if_pos hvalue]
      exact ⟨ofType_literal value, hw⟩
    | var hname =>
      rw [expr]
      refine .bind (safe_reserve s _) fun _ _ ↦ ?_
      exact .bind (safe_read hname hframe hw) fun v hv ↦ ⟨hv, hw⟩
    | sign hop hoperand =>
      rw [expr]
      refine .bind (hexpr d w _ _ hoperand hw) fun x hx ↦ ?_
      exact .bind (safe_sign hop x.1) fun v hv ↦ ⟨hv, hx.2⟩
    | negation hoperand =>
      rw [expr]
      refine .bind (hexpr d w _ _ hoperand hw) fun x hx ↦ ?_
      exact .bind (safe_negation hx.1) fun v hv ↦ ⟨hv, hx.2⟩
    | arithmetic hop hl hr => exact hbinary hl hr fun x y _ _ ↦ safe_arithmetic hop x y
    | comparison hop hl hr =>
      exact hbinary hl hr fun x y _ _ ↦ safe_comparison (List.mem_append_left _ hop) x y
    | logic hop hl hr => exact hbinary hl hr fun x y hx hy ↦ safe_logic hop hx hy
    | equality hop hl hr =>
      exact hbinary hl hr fun x y _ _ ↦ safe_comparison (List.mem_append_right _ hop) x y
    | call hname harguments =>
      obtain ⟨f, hf, hfind, rfl, rfl⟩ := find?_of_function hs hframe hname
      rw [expr, hfind]
      refine .bind (safe_exprs hs hp fuel d frame w _ Γ _ harguments hframe hw) fun r hr ↦ ?_
      exact (safe_call hs hp fuel _ r.2 f _ hf (passes_of_types hr.1) hr.2).mono fun _ h ↦ h.2

theorem safe_exprs (hs : s.functions = functionDecls program) (hp : Checked program) :
    ∀ (fuel d : Nat) (frame : Locals) (w : World) (es : List Expr) (Γ : Env)
      (types : List ScalarType), HaveTypes Γ es types → Sound program Γ frame → Proper program w →
        Safe (exprs s fuel d frame w es) fun r ↦
          List.Forall₂ OfType types r.1 ∧ Proper program r.2
  | 0, _, _, _, _, _, _, _, _, _ => by
    rw [exprs]
    exact nofun
  | fuel + 1, d, frame, w, es, Γ, types, h, hframe, hw => by
    cases h with
    | nil =>
      rw [exprs]
      exact ⟨.nil, hw⟩
    | cons he hes =>
      rw [exprs]
      refine .bind (safe_exprs hs hp fuel d frame w _ Γ _ hes hframe hw) fun r hr ↦ ?_
      refine .bind (safe_expr hs hp fuel _ frame r.2 _ Γ _ he hframe hr.2) fun v hv ↦ ?_
      exact ⟨.cons hv.1 hr.1, hv.2⟩

theorem safe_call (hs : s.functions = functionDecls program) (hp : Checked program) :
    ∀ (fuel a : Nat) (w : World) (f : FunctionDecl) (values : List (Option Int32)),
      f ∈ functionDecls program → List.Forall₂ Passes f.parameters values → Proper program w →
        Safe (call s fuel a w f values) fun r ↦
          f.head.name ≠ s.entry ∧ OfType f.head.type r.1 ∧ Proper program r.2
  | 0, _, _, _, _, _, _, _ => by
    rw [call]
    exact nofun
  | fuel + 1, a, w, f, values, hf, hvalues, hw => by
    obtain ⟨Γ, hΓ, hbody⟩ := hp.typed f hf
    have hnodup := (List.nodup_append.1 (hp.distinct.variables hf)).1
    rw [call, if_pos hvalues.length_eq.symm]
    refine .bind (safe_reserve s _) fun _ _ ↦ ?_
    refine .bind (safe_stmts hs hp fuel _ _ w f.body _ _ hbody (hΓ.enter hnodup hvalues) hw
      (hp.fresh hf hΓ)) fun o ho ↦ ?_
    obtain ⟨returned, frame, w'⟩ := o
    simp only
    split
    · exact nofun
    · rename_i hentry
      cases returned with
      | some v => exact ⟨hentry, ho.returned v rfl, ho.proper⟩
      | none => exact nofun

theorem safe_stmt (hs : s.functions = functionDecls program) (hp : Checked program) :
    ∀ (fuel d : Nat) (frame : Locals) (w : World) (st : Stmt) (Γ : Env) (result : ScalarType),
      Typed result Γ st → Sound program Γ frame → Proper program w → Fresh Γ st.variables →
        Safe (stmt s fuel d frame w st) (Ends program result (Γ.after st))
  | 0, _, _, _, _, _, _, _, _, _, _ => by
    rw [stmt]
    exact nofun
  | fuel + 1, d, frame, w, st, Γ, result, h, hframe, hw, hfresh => by
    have hexpr := fun e type h ↦ safe_expr hs hp fuel d frame w e Γ type h hframe hw
    -- A branch or a body is a scope of its own.
    have hscope := fun branch frame w h hframe hw hfresh ↦
      (safe_stmt hs hp fuel d frame w branch Γ result h hframe hw hfresh).mono
        fun o ho ↦ ho.leave hfresh
    cases h with
    | block hbody =>
      simp only [stmt]
      exact safe_stmts hs hp fuel d frame w _ Γ result hbody hframe hw hfresh
    | declared =>
      simp only [stmt]
      exact ⟨nofun, hframe.bind _ (ofType_zero _), hw⟩
    | initialized hvalue =>
      simp only [stmt]
      exact .bind (hexpr _ _ hvalue) fun v hv ↦ ⟨nofun, hframe.bind _ hv.1, hv.2⟩
    | assign hname hvalue =>
      simp only [stmt]
      -- The assignment goes to the frame if the name is in it, and to a global variable otherwise.
      rcases hframe.var _ _ hname with ⟨value, hlocal, -⟩ | ⟨hnone, head, hhead, rfl, rfl⟩
      · rw [hlocal, Option.isSome_some, if_pos rfl]
        exact .bind (hexpr _ _ hvalue) fun v hv ↦ ⟨nofun, hframe.set hname hv.1, hv.2⟩
      · obtain ⟨u, hu, -⟩ := hw head hhead
        rw [hnone, hu, if_neg nofun, Option.isSome_some, if_pos rfl]
        exact .bind (hexpr _ _ hvalue) fun v hv ↦
          ⟨nofun, hframe, hv.2.set hp.distinct hhead hv.1⟩
    | when hcondition hthen =>
      simp only [stmt]
      refine .bind (hexpr _ _ hcondition) fun v hv ↦ ?_
      split
      · exact hscope _ _ v.2 hthen hframe hv.2 hfresh
      · exact ⟨nofun, hframe, hv.2⟩
    | choose hcondition hthen helse =>
      simp only [stmt]
      refine .bind (hexpr _ _ hcondition) fun v hv ↦ ?_
      split
      · exact hscope _ _ v.2 hthen hframe hv.2 hfresh.left
      · exact hscope _ _ v.2 helse hframe hv.2 hfresh.right
    | @loop Γ span condition body hcondition hbody =>
      -- The second time the variables of the body are already in the frame, but they are not
      -- visible, so the frame is as sound as the first time.
      simp only [stmt]
      refine .bind (hexpr _ _ hcondition) fun v hv ↦ ?_
      split
      · refine .bind (hscope _ _ v.2 hbody hframe hv.2 hfresh) fun o ho ↦ ?_
        obtain ⟨returned, frame', w'⟩ := o
        cases returned with
        | some u => exact ho
        | none =>
          exact safe_stmt hs hp fuel d frame' w' (.loop span condition body) Γ result
            (.loop hcondition hbody) ho.sound ho.proper hfresh
      · exact ⟨nofun, hframe, hv.2⟩
    | evaluate hvalue =>
      simp only [stmt]
      exact .bind (hexpr _ _ hvalue) fun v hv ↦ ⟨nofun, hframe, hv.2⟩
    | return_ hvalue =>
      simp only [stmt]
      refine .bind (hexpr _ _ hvalue) fun v hv ↦ ⟨fun u hu ↦ ?_, hframe, hv.2⟩
      cases hu
      exact hv.1
    | separate =>
      simp only [stmt]
      exact ⟨nofun, hframe, hw⟩
    | print hvalue =>
      simp only [stmt]
      exact .bind (hexpr _ _ hvalue) fun v hv ↦ ⟨nofun, hframe, hv.2⟩

theorem safe_stmts (hs : s.functions = functionDecls program) (hp : Checked program) :
    ∀ (fuel d : Nat) (frame : Locals) (w : World) (body : List Stmt) (Γ : Env)
      (result : ScalarType), TypedAll result Γ body → Sound program Γ frame → Proper program w →
        Fresh Γ (Stmt.variablesAll body) →
          Safe (stmts s fuel d frame w body) (Ends program result Γ)
  | 0, _, _, _, _, _, _, _, _, _, _ => by
    rw [stmts]
    exact nofun
  | fuel + 1, d, frame, w, body, Γ, result, h, hframe, hw, hfresh => by
    cases h with
    | nil =>
      rw [stmts]
      exact ⟨nofun, hframe, hw⟩
    | cons hfirst hrest =>
      rw [stmts]
      refine .bind (safe_stmt hs hp fuel d frame w _ Γ result hfirst hframe hw hfresh.left)
        fun o ho ↦ ?_
      obtain ⟨returned, frame', w'⟩ := o
      cases returned with
      | some v => exact ho.leave hfresh.left
      | none =>
        refine (safe_stmts hs hp fuel d frame' w' _ _ result hrest ho.sound ho.proper
          hfresh.after).mono fun o ho' ↦ ?_
        exact ho'.leave hfresh.left

end

/-! ### Initial values -/

/-- Every visible variable is in a table, with an initial value of its type. -/
def Initialized (Γ : Env) (symbols : List Symbol) : Prop :=
  ∀ name type, Γ name = some (.var type) → ∃ offset initial,
    symbols.find? (fun s ↦ s.name = name) = some (.var name type offset initial) ∧
      OfType type (initial.getD 0)

/-- The value of a constant expression has its type. Operators that give truth values give zero or
one, whatever their operands are, so no induction is needed. -/
theorem ofType_fold {table : SymbolTable} (h : Initialized Γ table.symbols) {e : Expr}
    {type : ScalarType} (he : HasType Γ e type) {v : Int32}
    (hv : Constant.fold table e = some v) : OfType type v := by
  have htruth : ∀ {span op left right},
      op ∈ ([Operator.less, .lessEqual, .greater, .greaterEqual] ++ [Operator.equal, .notEqual]) ++
        [Operator.and, .or] →
        Constant.fold table (.binary span op left right) = some v → OfType .bool v := by
    intro span op left right hop hv
    obtain ⟨l, -, hv⟩ := Option.bind_eq_some_iff.1 hv
    obtain ⟨r, -, hv⟩ := Option.bind_eq_some_iff.1 hv
    obtain ⟨b, hb⟩ := exists_truth hop l r
    rw [hb] at hv
    cases hv
    exact ofType_wordOfBool _ _
  cases he with
  | literal _ =>
    cases hv
    exact ofType_literal _
  | var hname =>
    obtain ⟨offset, initial, hfind, hinitial⟩ := h _ _ hname
    rw [Constant.fold, Constant.variableValue, SymbolTable.find?, hfind] at hv
    cases hv
    exact hinitial
  | negation _ =>
    obtain ⟨x, -, hx⟩ := Option.bind_eq_some_iff.1 hv
    cases hx
    exact ofType_wordOfBool _ _
  | comparison hop _ _ => exact htruth (List.mem_append_left _ (List.mem_append_left _ hop)) hv
  | logic hop _ _ => exact htruth (List.mem_append_right _ hop) hv
  | equality hop _ _ => exact htruth (List.mem_append_left _ (List.mem_append_right _ hop)) hv
  | sign | arithmetic => exact ofType_int v
  | call => cases hv

theorem Initialized.append {symbols : List Symbol} (h : Initialized Γ symbols)
    (added : List Symbol) : Initialized Γ (symbols ++ added) := by
  intro name type hname
  obtain ⟨offset, initial, hfind, hinitial⟩ := h name type hname
  refine ⟨offset, initial, ?_, hinitial⟩
  rw [List.find?_append, hfind]
  rfl

/-- A variable is put at the end of a table in which its name is free. -/
theorem Initialized.bind {symbols : List Symbol} (h : Initialized Γ symbols) {name : String}
    (hfree : name ∉ symbols.map Symbol.name) (type : ScalarType) (offset : UInt32)
    {initial : Option Int32} (hinitial : OfType type (initial.getD 0)) :
    Initialized (Γ.bind name (.var type)) (symbols ++ [Symbol.var name type offset initial]) := by
  intro other type' hother
  simp only [Env.bind] at hother
  split at hother
  · rename_i heq
    cases hother
    subst heq
    have hnone : symbols.find? (fun s ↦ s.name = other) = none :=
      List.find?_eq_none.2 fun s hs hname ↦
        hfree (List.mem_map.2 ⟨s, hs, of_decide_eq_true hname⟩)
    refine ⟨offset, initial, ?_, hinitial⟩
    rw [List.find?_append, hnone, Option.none_or]
    exact List.find?_cons_of_pos (decide_eq_true rfl)
  · exact h.append _ other type' hother

/-- The initial value of a global variable has its type. -/
theorem ofType_initial {span : Span} {head : Declarator} {initial : Option Expr}
    {symbols : List Symbol} (hp : ProgramTyped Γ (.var span head initial :: program))
    (h : Initialized Γ symbols) :
    OfType head.type ((initial.bind (Constant.fold ⟨4, symbols⟩)).getD 0) ∧
      ProgramTyped (Γ.bind head.name (.var head.type)) program := by
  cases hp with
  | declared hrest => exact ⟨ofType_zero _, hrest⟩
  | @initialized _ _ _ value _ hvalue hrest =>
    refine ⟨?_, hrest⟩
    rw [Option.bind_some]
    cases hfold : Constant.fold ⟨4, symbols⟩ value with
    | none => exact ofType_zero _
    | some v => exact ofType_fold h hvalue hfold

/-- Global variables start with values of their types. -/
theorem build_initialized : ∀ (program : List Stmt) (symbols : List Symbol) (Γ : Env),
    Grammatical program → ProgramTyped Γ program → Distinct program →
    (∀ u ∈ topNames program, u ∉ symbols.map Symbol.name) → Initialized Γ symbols →
      ∀ head ∈ globalDecls program, ∃ v,
        Constant.variableValue (Layout.build program ⟨4, symbols⟩).table head.name = some v ∧
          OfType head.type v
  | [], _, _, _, _, _, _, _ => fun _ h ↦ absurd h List.not_mem_nil
  | stmt :: program, symbols, Γ, hg, hp, hdistinct, hfree, h => by
    obtain ⟨hgFirst, hgRest⟩ := List.forall_mem_cons.1 hg
    -- One symbol is put at the end, and the rest of the program goes on with the longer table.
    have hstep : ∀ symbol : Symbol, Layout.putStmt ⟨4, symbols⟩ stmt =
        ⟨⟨4, symbols ++ [symbol]⟩, []⟩ → (Layout.build (stmt :: program) ⟨4, symbols⟩).table =
          (Layout.build program ⟨4, symbols ++ [symbol]⟩).table := by
      intro symbol hput
      rw [Layout.build, hput]
      rfl
    cases stmt with
    | function span head parameters body =>
      cases hp with
      | function _ hrest =>
        have hname : head.name ∉ symbols.map Symbol.name := hfree _ List.mem_cons_self
        have hnodup := hdistinct.variables (f := ⟨head, parameters, body⟩) List.mem_cons_self
        rw [hstep _ (Layout.putFunction_eq hgFirst.2.2 hname hnodup)]
        exact build_initialized program _ Γ hgRest hrest hdistinct.tail
          (hdistinct.free_tail rfl hfree) (h.append _)
    | var span head initial =>
      have hname : head.name ∉ symbols.map Symbol.name := hfree _ List.mem_cons_self
      obtain ⟨hinitial, hrest⟩ := ofType_initial hp h
      have hbound := h.bind hname head.type (SymbolTable.localSize ⟨4, symbols⟩) hinitial
      let symbol : Symbol := .var head.name head.type (SymbolTable.localSize ⟨4, symbols⟩)
        (initial.bind (Constant.fold ⟨4, symbols⟩))
      have hfree' : ∀ u ∈ topNames program, u ∉ (symbols ++ [symbol]).map Symbol.name :=
        hdistinct.free_tail rfl hfree
      rw [hstep symbol (Layout.putGlobal_eq hgFirst.1 hname initial)]
      refine List.forall_mem_cons.2 ⟨?_, ?_⟩
      · -- What is laid out later comes behind, so the variable is still the first with its name.
        obtain ⟨added, hbuild, -⟩ := Layout.build_eq program _ hgRest hrest.isDeclaration
          hdistinct.tail hfree'
        obtain ⟨offset, value, hfind, hvalue⟩ :=
          hbound.append added head.name head.type (if_pos rfl)
        rw [hbuild, Constant.variableValue, SymbolTable.find?, hfind]
        exact ⟨_, rfl, hvalue⟩
      · exact build_initialized program _ _ hgRest hrest hdistinct.tail hfree' hbound
    | _ => cases hp

/-! ### Programs -/

/-- A global variable becomes visible. -/
theorem Sound.global (h : Sound program Γ fun _ ↦ none) {head : Declarator}
    (hhead : head ∈ globalDecls program) :
    Sound program (Γ.bind head.name (.var head.type)) fun _ ↦ none := by
  constructor
  · intro name type hname
    simp only [Env.bind] at hname
    split at hname
    · rename_i heq
      cases hname
      exact .inr ⟨rfl, head, hhead, heq.symm, rfl⟩
    · exact h.var name type hname
  · intro name parameters result hname
    simp only [Env.bind] at hname
    split at hname
    · cases hname
    · exact h.function name parameters result hname

theorem exists_typedAll {rest : List Stmt} (hrest : ProgramTyped Γ rest)
    (hglobals : ∀ head ∈ globalDecls rest, head ∈ globalDecls program)
    (h : Sound program Γ fun _ ↦ none) {f : FunctionDecl} (hf : f ∈ functionDecls rest) :
    ∃ Γ, (Sound program Γ fun _ ↦ none) ∧
      TypedAll f.head.type (Γ.bindAll f.parameters) f.body := by
  induction hrest with
  | nil => exact absurd hf List.not_mem_nil
  | @function Γ _ _ _ _ _ hbody _ ih =>
    rcases List.mem_cons.1 hf with rfl | hf
    · exact ⟨Γ, h, hbody⟩
    · exact ih hglobals h hf
  | declared _ ih =>
    obtain ⟨hhead, hglobals⟩ := List.forall_mem_cons.1 hglobals
    exact ih hglobals (h.global hhead) hf
  | initialized _ _ ih =>
    obtain ⟨hhead, hglobals⟩ := List.forall_mem_cons.1 hglobals
    exact ih hglobals (h.global hhead) hf

theorem checked_of_flattened {entry : String} (h : Flattened entry program) :
    Checked program := by
  refine ⟨h.distinct, fun f hf ↦ exists_typedAll h.wellTyped (fun _ hhead ↦ hhead) ⟨?_, ?_⟩ hf⟩
  · intro name type hname
    obtain ⟨f, -, -, hm⟩ := exists_of_signatures hname
    cases hm
  · exact fun _ _ _ hname ↦ hname

/-- **Well-typed programs are programs.** Whatever the limit and the fuel, a run of a flattened
program that was laid out does not end for want of a meaning, except where the semantics says so. -/
theorem runProgram_ne_malformed {entry : String} (h : Flattened entry program)
    (limit : Option Nat) (fuel : Nat) :
    runProgram program entry (Layout.build program {}).table limit fuel ≠ .malformed := by
  obtain ⟨f, hf, hname⟩ := List.mem_map.1 h.entry_mem
  have hfind : Setup.find? ⟨functionDecls program, entry, limit⟩ entry = some f :=
    hname ▸ find?_of_distinct h.distinct hf entry limit
  have hproper : Proper program ⟨Constant.variableValue (Layout.build program {}).table, ""⟩ := by
    refine build_initialized program [] _ h.grammatical h.wellTyped h.distinct
      (fun _ _ ↦ List.not_mem_nil) fun name type hname ↦ ?_
    obtain ⟨f, -, -, hm⟩ := exists_of_signatures hname
    cases hm
  have hvalues : List.Forall₂ Passes f.parameters (List.replicate f.parameters.length none) :=
    passes_none f.parameters
  have hsafe := safe_call (s := ⟨functionDecls program, entry, limit⟩) rfl
    (checked_of_flattened h) fuel f.parameters.length _ f _ hf hvalues hproper
  rw [runProgram, run]
  simp only [hfind]
  split
  · rename_i stop hstop
    rwa [hstop] at hsafe
  · rename_i r hr
    rw [hr] at hsafe
    exact absurd hname hsafe.1

end ScalarMips.Semantics
