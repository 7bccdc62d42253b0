import ScalarMips.Proofs.StackDiscipline
import ScalarMips.Proofs.TypeSafety

/-!
# Calls in well-typed functions

Code is generated for every call in a well-typed function (`exists_reached_stmts`), and every call
that code is generated for has an argument for every parameter of the function that it calls
(`Reached.length_arguments`). The types say so of any call in a typed tree; what is left is that
typing goes from a part to the parts inside (`Part.TypedIn.inner`). So arguments are not larger than
the frame that they become a part of (`TypedAll.callsFit`).
-/

namespace ScalarMips

variable {program : List Stmt} {Γ : Env} {result : ScalarType}

/-! ### Visible functions -/

/-- The functions that are visible in an environment are those of a program. -/
def Env.Calls (Γ : Env) (program : List Stmt) : Prop :=
  ∀ name parameters result, Γ name = some (.function parameters result) →
    signatures program name = some (.function parameters result)

namespace Env.Calls

theorem bindAll (h : Γ.Calls program) (parameters : List Declarator) :
    (Γ.bindAll parameters).Calls program := by
  intro name types result hname
  rcases Semantics.bindAll_eq_some hname with ⟨_, _, _, hm⟩ | ⟨-, hname⟩
  · cases hm
  · exact h name types result hname

theorem after (h : Γ.Calls program) (stmt : Stmt) : (Γ.after stmt).Calls program := by
  cases stmt with
  | var span head initial => exact h.bindAll [head]
  | _ => exact h

end Env.Calls

theorem HaveTypes.length_eq {es : List Expr} {types : List ScalarType}
    (h : HaveTypes Γ es types) : es.length = types.length := by
  induction es generalizing types with
  | nil =>
    cases h
    rfl
  | cons e es ih =>
    cases h with
    | cons _ h => exact congrArg (· + 1) (ih h)

/-- A call has an argument for every parameter of a function of the program. -/
theorem HasType.exists_function (hΓ : Γ.Calls program) {span : Span} {name : String}
    {arguments : List Expr} {type : ScalarType} (h : HasType Γ (.call span name arguments) type) :
    ∃ f ∈ functionDecls program, f.head.name = name ∧
      arguments.length = f.parameters.length := by
  cases h with
  | call hname harguments =>
    obtain ⟨f, hf, rfl, hmeaning⟩ := exists_of_signatures (hΓ _ _ _ hname)
    cases hmeaning
    exact ⟨f, hf, rfl, harguments.length_eq.trans (List.length_map _)⟩

/-! ### Sizes of arguments -/

/-- The parameters of every function of a program have a size below 32 bits. -/
def ParametersFit (program : List Stmt) (wordSize : UInt32) : Prop :=
  ∀ f ∈ functionDecls program, f.parameters.length * wordSize.toNat < 2 ^ 32

variable {wordSize : UInt32}

mutual

theorem HasType.callsFit (hfits : ParametersFit program wordSize) (hΓ : Γ.Calls program) :
    ∀ {e : Expr} {type : ScalarType}, HasType Γ e type → e.CallsFit wordSize
  | .literal .., _, _ => trivial
  | .var .., _, _ => trivial
  | .unary .., _, h => by
    obtain ⟨-, _, hoperand⟩ := h.operand
    have hcalls := hoperand.callsFit hfits hΓ
    exact hcalls
  | .binary .., _, h => by
    obtain ⟨-, _, _, hl, hr⟩ := h.operands
    exact ⟨hl.callsFit hfits hΓ, hr.callsFit hfits hΓ⟩
  | .call .., _, h => by
    obtain ⟨f, hf, -, hlength⟩ := h.exists_function hΓ
    refine ⟨hlength ▸ hfits f hf, ?_⟩
    cases h with
    | call _ harguments => exact harguments.callsFit hfits hΓ

theorem HaveTypes.callsFit (hfits : ParametersFit program wordSize) (hΓ : Γ.Calls program) :
    ∀ {es : List Expr} {types : List ScalarType}, HaveTypes Γ es types →
      Expr.AllCallsFit wordSize es
  | [], _, _ => trivial
  | _ :: _, _, .cons h hs => ⟨h.callsFit hfits hΓ, hs.callsFit hfits hΓ⟩

end

mutual

theorem Typed.callsFit (hfits : ParametersFit program wordSize) : ∀ {stmt : Stmt} {Γ : Env},
    Typed result Γ stmt → Γ.Calls program → stmt.CallsFit wordSize
  | .block .., _, .block h, hΓ => h.callsFit hfits hΓ
  | .var _ _ none, _, .declared, _ => trivial
  | .var _ _ (some _), _, .initialized h, hΓ => h.callsFit hfits hΓ
  | .assign .., _, .assign _ h, hΓ => h.callsFit hfits hΓ
  | .conditional _ _ _ none, _, .when hcondition h, hΓ =>
    ⟨hcondition.callsFit hfits hΓ, h.callsFit hfits hΓ⟩
  | .conditional _ _ _ (some _), _, .choose hcondition h h', hΓ =>
    ⟨hcondition.callsFit hfits hΓ, h.callsFit hfits hΓ, h'.callsFit hfits hΓ⟩
  | .loop .., _, .loop hcondition h, hΓ =>
    ⟨hcondition.callsFit hfits hΓ, h.callsFit hfits hΓ⟩
  | .evaluate .., _, .evaluate h, hΓ => h.callsFit hfits hΓ
  | .return_ .., _, .return_ h, hΓ => h.callsFit hfits hΓ
  | .print _ _ none, _, .separate, _ => trivial
  | .print _ _ (some _), _, .print h, hΓ => h.callsFit hfits hΓ

theorem TypedAll.callsFit (hfits : ParametersFit program wordSize) :
    ∀ {stmts : List Stmt} {Γ : Env}, TypedAll result Γ stmts → Γ.Calls program →
      Stmt.AllCallsFit wordSize stmts
  | [], _, _, _ => trivial
  | _ :: _, _, .cons h hs, hΓ => ⟨h.callsFit hfits hΓ, hs.callsFit hfits (hΓ.after _)⟩

end

/-! ### Calls of a tree -/

mutual

/-- The calls in an expression. -/
def Expr.calls : Expr → List Expr
  | .literal .. => []
  | .var .. => []
  | .unary _ _ operand => operand.calls
  | .binary _ _ left right => left.calls ++ right.calls
  | .call span name arguments => .call span name arguments :: Expr.callsAll arguments

/-- The calls in expressions. -/
def Expr.callsAll : List Expr → List Expr
  | [] => []
  | e :: es => e.calls ++ Expr.callsAll es

end

/-- The calls in an expression, if there is one. -/
def Expr.optionCalls : Option Expr → List Expr
  | none => []
  | some e => e.calls

mutual

/-- The calls in a statement. -/
def Stmt.calls : Stmt → List Expr
  | .block _ body => Stmt.callsAll body
  | .function _ _ _ body => Stmt.callsAll body
  | .var _ _ initial => Expr.optionCalls initial
  | .assign _ _ _ value => value.calls
  | .conditional _ condition thenBranch none => condition.calls ++ thenBranch.calls
  | .conditional _ condition thenBranch (some elseBranch) =>
    condition.calls ++ thenBranch.calls ++ elseBranch.calls
  | .loop _ condition body => condition.calls ++ body.calls
  | .evaluate _ value => value.calls
  | .return_ _ value => value.calls
  | .print _ _ value => Expr.optionCalls value
termination_by structural stmt => stmt

/-- The calls in statements. -/
def Stmt.callsAll : List Stmt → List Expr
  | [] => []
  | stmt :: stmts => stmt.calls ++ Stmt.callsAll stmts
termination_by structural stmts => stmts

end

namespace Generate

variable {c : Context} {call : Expr}

/-- What is inside of an inner part is inside of the outer one. -/
theorem exists_inside {p q : Part} {front : Code} (hmem : (front, q) ∈ p.inner c)
    (h : ∃ before, Reached c q before (.expr call)) :
    ∃ before, Reached c p before (.expr call) := by
  obtain ⟨before, hreached⟩ := h
  exact ⟨front ++ before, .inside hmem hreached⟩

mutual

/-- Code is generated for every call in an expression. -/
theorem exists_reached_expr : ∀ {e : Expr}, call ∈ e.calls →
    ∃ before, Reached c (.expr e) before (.expr call)
  | .literal .., h => absurd h List.not_mem_nil
  | .var .., h => absurd h List.not_mem_nil
  | .unary .., h => exists_inside (.head _) (exists_reached_expr h)
  | .binary .., h => by
    rcases List.mem_append.1 h with h | h
    · exact exists_inside (.head _) (exists_reached_expr h)
    · exact exists_inside (.tail _ (.head _)) (exists_reached_expr h)
  | .call .., h => by
    rcases List.mem_cons.1 h with rfl | h
    · exact ⟨[], .self _⟩
    · exact exists_inside (.head _) (exists_reached_arguments h)

theorem exists_reached_arguments : ∀ {es : List Expr}, call ∈ Expr.callsAll es →
    ∃ before, Reached c (.arguments es) before (.expr call)
  | [], h => absurd h List.not_mem_nil
  | _ :: _, h => by
    rcases List.mem_append.1 h with h | h
    · exact exists_inside (.tail _ (.head _)) (exists_reached_expr h)
    · exact exists_inside (.head _) (exists_reached_arguments h)

end

mutual

/-- Code is generated for every call in a well-typed statement. -/
theorem exists_reached_stmt : ∀ {s : Stmt} {Γ : Env} (n : UInt32), Typed result Γ s →
    call ∈ s.calls → ∃ before, Reached c (.stmt s n) before (.expr call)
  | .block .., _, n, .block hbody, h => exists_inside (.head _) (exists_reached_stmts n hbody h)
  | .var _ _ none, _, _, .declared, h => absurd h List.not_mem_nil
  | .var _ _ (some _), _, _, .initialized _, h => exists_inside (.head _) (exists_reached_expr h)
  | .assign .., _, _, .assign _ _, h => exists_inside (.head _) (exists_reached_expr h)
  | .conditional _ _ _ none, _, n, .when _ hthen, h => by
    rcases List.mem_append.1 h with h | h
    · exact exists_inside (.head _) (exists_reached_expr h)
    · exact exists_inside (.tail _ (.head _)) (exists_reached_stmt (n + 1) hthen h)
  | .conditional _ _ _ (some _), _, n, .choose _ hthen helse, h => by
    rcases List.mem_append.1 h with h | h
    · rcases List.mem_append.1 h with h | h
      · exact exists_inside (.head _) (exists_reached_expr h)
      · exact exists_inside (.tail _ (.head _)) (exists_reached_stmt (n + 1) hthen h)
    · exact exists_inside (.tail _ (.tail _ (.head _))) (exists_reached_stmt _ helse h)
  | .loop .., _, n, .loop _ hbody, h => by
    rcases List.mem_append.1 h with h | h
    · exact exists_inside (.head _) (exists_reached_expr h)
    · exact exists_inside (.tail _ (.head _)) (exists_reached_stmt (n + 1) hbody h)
  | .evaluate .., _, _, .evaluate _, h => exists_inside (.head _) (exists_reached_expr h)
  | .return_ .., _, _, .return_ _, h => exists_inside (.head _) (exists_reached_expr h)
  | .print _ _ none, _, _, .separate, h => absurd h List.not_mem_nil
  | .print _ _ (some _), _, _, .print _, h => exists_inside (.head _) (exists_reached_expr h)

theorem exists_reached_stmts : ∀ {ss : List Stmt} {Γ : Env} (n : UInt32), TypedAll result Γ ss →
    call ∈ Stmt.callsAll ss → ∃ before, Reached c (.stmts ss n) before (.expr call)
  | [], _, _, _, h => absurd h List.not_mem_nil
  | _ :: _, _, n, .cons hfirst hrest, h => by
    rcases List.mem_append.1 h with h | h
    · exact exists_inside (.head _) (exists_reached_stmt n hfirst h)
    · exact exists_inside (.tail _ (.head _)) (exists_reached_stmts _ hrest h)

end

/-! ### Parts -/

/-- A part is well typed in a function that returns a given type. -/
def Part.TypedIn (result : ScalarType) (Γ : Env) : Part → Prop
  | expr e => ∃ type, HasType Γ e type
  | arguments es => ∃ types, HaveTypes Γ es types
  | stmt s _ => Typed result Γ s
  | stmts ss _ => TypedAll result Γ ss

/-- The parts directly inside a well-typed part are well typed. -/
theorem Part.TypedIn.inner {p q : Part} {before : Code} (h : p.TypedIn result Γ)
    (hΓ : Γ.Calls program) (hmem : (before, q) ∈ p.inner c) :
    ∃ Δ : Env, Δ.Calls program ∧ q.TypedIn result Δ := by
  cases p with
  | expr e =>
    obtain ⟨type, h⟩ := h
    cases e with
    | literal => cases hmem
    | var => cases hmem
    | unary span op operand =>
      obtain ⟨-, rfl⟩ := Prod.mk.inj (List.mem_singleton.1 hmem)
      exact ⟨Γ, hΓ, h.operand.2⟩
    | binary span op left right =>
      obtain ⟨-, l, r, hl, hr⟩ := h.operands
      rcases List.mem_pair.1 hmem with hmem | hmem
      · obtain ⟨-, rfl⟩ := Prod.mk.inj hmem
        exact ⟨Γ, hΓ, l, hl⟩
      · obtain ⟨-, rfl⟩ := Prod.mk.inj hmem
        exact ⟨Γ, hΓ, r, hr⟩
    | call span name es =>
      obtain ⟨-, rfl⟩ := Prod.mk.inj (List.mem_singleton.1 hmem)
      cases h with
      | call _ harguments => exact ⟨Γ, hΓ, _, harguments⟩
  | arguments es =>
    obtain ⟨types, h⟩ := h
    cases h with
    | nil => cases hmem
    | cons hfirst hrest =>
      rcases List.mem_pair.1 hmem with hmem | hmem
      · obtain ⟨-, rfl⟩ := Prod.mk.inj hmem
        exact ⟨Γ, hΓ, _, hrest⟩
      · obtain ⟨-, rfl⟩ := Prod.mk.inj hmem
        exact ⟨Γ, hΓ, _, hfirst⟩
  | stmt s n =>
    have hvalue : ∀ {e : Expr} {type : ScalarType}, HasType Γ e type →
        ∃ Δ : Env, Δ.Calls program ∧ (Part.expr e).TypedIn result Δ :=
      fun he ↦ ⟨Γ, hΓ, _, he⟩
    cases h with
    | block hbody =>
      obtain ⟨-, rfl⟩ := Prod.mk.inj (List.mem_singleton.1 hmem)
      exact ⟨Γ, hΓ, hbody⟩
    | declared => cases hmem
    | separate => cases hmem
    | initialized he | assign _ he | evaluate he | return_ he | print he =>
      obtain ⟨-, rfl⟩ := Prod.mk.inj (List.mem_singleton.1 hmem)
      exact hvalue he
    | when hcondition hthen | loop hcondition hthen =>
      rcases List.mem_pair.1 hmem with hmem | hmem
      · obtain ⟨-, rfl⟩ := Prod.mk.inj hmem
        exact hvalue hcondition
      · obtain ⟨-, rfl⟩ := Prod.mk.inj hmem
        exact ⟨Γ, hΓ, hthen⟩
    | choose hcondition hthen helse =>
      rcases List.mem_cons.1 hmem with hmem | hmem
      · obtain ⟨-, rfl⟩ := Prod.mk.inj hmem
        exact hvalue hcondition
      · rcases List.mem_pair.1 hmem with hmem | hmem
        · obtain ⟨-, rfl⟩ := Prod.mk.inj hmem
          exact ⟨Γ, hΓ, hthen⟩
        · obtain ⟨-, rfl⟩ := Prod.mk.inj hmem
          exact ⟨Γ, hΓ, helse⟩
  | stmts ss n =>
    cases h with
    | nil => cases hmem
    | cons hfirst hrest =>
      rcases List.mem_pair.1 hmem with hmem | hmem
      · obtain ⟨-, rfl⟩ := Prod.mk.inj hmem
        exact ⟨Γ, hΓ, hfirst⟩
      · obtain ⟨-, rfl⟩ := Prod.mk.inj hmem
        exact ⟨_, hΓ.after _, hrest⟩

/-- A call inside of a well-typed part has an argument for every parameter. -/
theorem Reached.length_arguments {p : Part} {before : Code} {span : Span} {name : String}
    {arguments : List Expr} (hreached : Reached c p before (.expr (.call span name arguments)))
    (hp : p.TypedIn result Γ) (hΓ : Γ.Calls program) :
    ∃ f ∈ functionDecls program, f.head.name = name ∧
      arguments.length = f.parameters.length := by
  generalize hcall : Part.expr (.call span name arguments) = q at hreached
  induction hreached generalizing Γ with
  | self p =>
    subst hcall
    obtain ⟨type, h⟩ := hp
    exact h.exists_function hΓ
  | inside hmem _ ih =>
    obtain ⟨Δ, hΔ, hq⟩ := hp.inner hΓ hmem
    exact ih hq hΔ hcall

end Generate

end ScalarMips
