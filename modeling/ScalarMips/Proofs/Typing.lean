import ScalarMips.Proofs.Grammatical

/-!
# The type system

The rules by which a program is well typed, said without a checker. An environment gives every
visible name its meaning. Later declarations hide earlier ones of the same name, and a scope is left
by going back to the environment in which it was entered, so no stack of scopes appears.

In an environment of values the type of an expression is that of a value (`HasType.isConcrete`).

`occurrences` lists every expression of a program, parts of expressions included, with the
environment it is typed in.
-/

namespace ScalarMips

/-! ### Environments -/

/-- What a name stands for. -/
inductive Meaning where
  /-- A variable of a type. -/
  | var (type : ScalarType)
  /-- A function with the types of its parameters and the one it returns. -/
  | function (parameters : List ScalarType) (result : ScalarType)
  deriving DecidableEq

/-- The type of a variable, or the one a function returns. -/
def Meaning.type : Meaning → ScalarType
  | var type => type
  | function _ result => result

/-- What a function stands for. -/
def FunctionDecl.meaning (f : FunctionDecl) : Meaning :=
  .function (f.parameters.map Declarator.type) f.head.type

/-- The meanings of the visible names. -/
def Env : Type := String → Option Meaning

namespace Env

/-- A name gets a meaning; one that it had before is hidden. -/
def bind (Γ : Env) (name : String) (meaning : Meaning) : Env :=
  fun n ↦ if n = name then some meaning else Γ n

/-- The declared names become variables, from the first to the last. -/
def bindAll (Γ : Env) (parameters : List Declarator) : Env :=
  parameters.foldl (fun Γ p ↦ Γ.bind p.name (.var p.type)) Γ

/-- The environment after a statement; only a variable declaration leaves something behind. -/
def after (Γ : Env) : Stmt → Env
  | .var _ head _ => Γ.bind head.name (.var head.type)
  | _ => Γ

/-- Every name has the type of a value. -/
def Concrete (Γ : Env) : Prop :=
  ∀ name meaning, Γ name = some meaning → meaning.type.isConcrete

theorem Concrete.bind {Γ : Env} (h : Γ.Concrete) {name : String} {meaning : Meaning}
    (hmeaning : meaning.type.isConcrete) : (Γ.bind name meaning).Concrete := by
  intro n m hm
  unfold Env.bind at hm
  split at hm
  · cases hm
    exact hmeaning
  · exact h n m hm

theorem Concrete.bindAll : ∀ (parameters : List Declarator) {Γ : Env}, Γ.Concrete →
    (∀ p ∈ parameters, p.type.isConcrete) → (Γ.bindAll parameters).Concrete
  | [], _, h, _ => h
  | _ :: parameters, _, h, hp => by
    obtain ⟨hfirst, hrest⟩ := List.forall_mem_cons.1 hp
    exact Concrete.bindAll parameters (h.bind hfirst) hrest

end Env

/-! ### Expressions -/

mutual

/-- An expression has a type. -/
inductive HasType (Γ : Env) : Expr → ScalarType → Prop where
  /-- A literal has its own type. -/
  | literal {span : Span} {value : Literal} :
    value.type.isConcrete → HasType Γ (.literal span value) value.type
  /-- A variable has the type it was declared with. -/
  | var {span : Span} {name : String} {type : ScalarType} :
    Γ name = some (.var type) → HasType Γ (.var span name) type
  /-- The sign of an integer is an integer. -/
  | sign {span : Span} {op : Operator} {operand : Expr} :
    op ∈ [.plus, .minus] → HasType Γ operand .int → HasType Γ (.unary span op operand) .int
  /-- A truth value can be negated. -/
  | negation {span : Span} {operand : Expr} :
    HasType Γ operand .bool → HasType Γ (.unary span .not operand) .bool
  /-- Arithmetic is on integers and gives an integer. -/
  | arithmetic {span : Span} {op : Operator} {left right : Expr} :
    op ∈ [.plus, .minus, .times, .divide, .modulo] → HasType Γ left .int → HasType Γ right .int →
      HasType Γ (.binary span op left right) .int
  /-- Integers can be compared. -/
  | comparison {span : Span} {op : Operator} {left right : Expr} :
    op ∈ [.less, .lessEqual, .greater, .greaterEqual] → HasType Γ left .int →
      HasType Γ right .int → HasType Γ (.binary span op left right) .bool
  /-- Truth values can be combined. -/
  | logic {span : Span} {op : Operator} {left right : Expr} :
    op ∈ [.and, .or] → HasType Γ left .bool → HasType Γ right .bool →
      HasType Γ (.binary span op left right) .bool
  /-- Two values of one type can be tested for equality. -/
  | equality {span : Span} {op : Operator} {left right : Expr} {type : ScalarType} :
    op ∈ [.equal, .notEqual] → HasType Γ left type → HasType Γ right type →
      HasType Γ (.binary span op left right) .bool
  /-- A call has an argument of the right type for every parameter. -/
  | call {span : Span} {name : String} {arguments : List Expr} {parameters : List ScalarType}
    {result : ScalarType} :
    Γ name = some (.function parameters result) → HaveTypes Γ arguments parameters →
      HasType Γ (.call span name arguments) result

/-- Expressions have types, one for each. -/
inductive HaveTypes (Γ : Env) : List Expr → List ScalarType → Prop where
  | nil : HaveTypes Γ [] []
  | cons {e : Expr} {es : List Expr} {type : ScalarType} {types : List ScalarType} :
    HasType Γ e type → HaveTypes Γ es types → HaveTypes Γ (e :: es) (type :: types)

end

/-- The operand of a unary operator has a type. -/
theorem HasType.operand {Γ : Env} {span : Span} {op : Operator} {operand : Expr}
    {type : ScalarType} (h : HasType Γ (.unary span op operand) type) :
    op.IsUnary ∧ ∃ t, HasType Γ operand t := by
  cases h with
  | sign hop hoperand =>
    rcases List.mem_cons.1 hop with rfl | hop
    · exact ⟨.inl rfl, _, hoperand⟩
    · obtain rfl := List.mem_singleton.1 hop
      exact ⟨.inr (.inl rfl), _, hoperand⟩
  | negation hoperand => exact ⟨.inr (.inr rfl), _, hoperand⟩

/-- The operands of a binary operator have types. -/
theorem HasType.operands {Γ : Env} {span : Span} {op : Operator} {left right : Expr}
    {type : ScalarType} (h : HasType Γ (.binary span op left right) type) :
    op ≠ .not ∧ ∃ l r, HasType Γ left l ∧ HasType Γ right r := by
  cases h with
  | arithmetic hop hl hr => exact ⟨by rintro rfl; simp at hop, _, _, hl, hr⟩
  | comparison hop hl hr => exact ⟨by rintro rfl; simp at hop, _, _, hl, hr⟩
  | logic hop hl hr => exact ⟨by rintro rfl; simp at hop, _, _, hl, hr⟩
  | equality hop hl hr => exact ⟨by rintro rfl; simp at hop, _, _, hl, hr⟩

/-- The type of an expression is that of a value. -/
theorem HasType.isConcrete {Γ : Env} (hΓ : Γ.Concrete) {e : Expr} {type : ScalarType}
    (h : HasType Γ e type) : type.isConcrete := by
  cases h with
  | literal hvalue => exact hvalue
  | var hname => exact hΓ _ _ hname
  | call hname _ => exact hΓ _ _ hname
  | _ => rfl

/-! ### Statements -/

mutual

/-- A statement in a function that returns a given type is well typed. -/
inductive Typed (result : ScalarType) : Env → Stmt → Prop where
  | block {Γ : Env} {span : Span} {body : List Stmt} :
    TypedAll result Γ body → Typed result Γ (.block span body)
  | declared {Γ : Env} {span : Span} {head : Declarator} :
    Typed result Γ (.var span head none)
  /-- An initial value has the declared type. It does not see the variable. -/
  | initialized {Γ : Env} {span : Span} {head : Declarator} {value : Expr} :
    HasType Γ value head.type → Typed result Γ (.var span head (some value))
  | assign {Γ : Env} {span target : Span} {name : String} {value : Expr} {type : ScalarType} :
    Γ name = some (.var type) → HasType Γ value type →
      Typed result Γ (.assign span name target value)
  | when {Γ : Env} {span : Span} {condition : Expr} {thenBranch : Stmt} :
    HasType Γ condition .bool → Typed result Γ thenBranch →
      Typed result Γ (.conditional span condition thenBranch none)
  | choose {Γ : Env} {span : Span} {condition : Expr} {thenBranch elseBranch : Stmt} :
    HasType Γ condition .bool → Typed result Γ thenBranch → Typed result Γ elseBranch →
      Typed result Γ (.conditional span condition thenBranch (some elseBranch))
  | loop {Γ : Env} {span : Span} {condition : Expr} {body : Stmt} :
    HasType Γ condition .bool → Typed result Γ body → Typed result Γ (.loop span condition body)
  | evaluate {Γ : Env} {span : Span} {value : Expr} {type : ScalarType} :
    HasType Γ value type → Typed result Γ (.evaluate span value)
  | return_ {Γ : Env} {span : Span} {value : Expr} :
    HasType Γ value result → Typed result Γ (.return_ span value)
  | separate {Γ : Env} {span : Span} {ending : PrintEnd} :
    Typed result Γ (.print span ending none)
  | print {Γ : Env} {span : Span} {ending : PrintEnd} {value : Expr} {type : ScalarType} :
    HasType Γ value type → Typed result Γ (.print span ending (some value))

/-- Statements are well typed, each in the environment that the ones before it leave. -/
inductive TypedAll (result : ScalarType) : Env → List Stmt → Prop where
  | nil {Γ : Env} : TypedAll result Γ []
  | cons {Γ : Env} {stmt : Stmt} {stmts : List Stmt} :
    Typed result Γ stmt → TypedAll result (Γ.after stmt) stmts →
      TypedAll result Γ (stmt :: stmts)

end

/-! ### Programs -/

/-- The declarations of a program are well typed, each in the environment that the ones before it
leave. -/
inductive ProgramTyped : Env → List Stmt → Prop where
  | nil {Γ : Env} : ProgramTyped Γ []
  | function {Γ : Env} {span : Span} {head : Declarator} {parameters : List Declarator}
    {body program : List Stmt} :
    TypedAll head.type (Γ.bindAll parameters) body → ProgramTyped Γ program →
      ProgramTyped Γ (.function span head parameters body :: program)
  | declared {Γ : Env} {span : Span} {head : Declarator} {program : List Stmt} :
    ProgramTyped (Γ.bind head.name (.var head.type)) program →
      ProgramTyped Γ (.var span head none :: program)
  | initialized {Γ : Env} {span : Span} {head : Declarator} {value : Expr} {program : List Stmt} :
    HasType Γ value head.type → ProgramTyped (Γ.bind head.name (.var head.type)) program →
      ProgramTyped Γ (.var span head (some value) :: program)

/-- The functions of a program, which are visible everywhere. -/
def signatures (program : List Stmt) : Env :=
  fun name ↦ ((functionDecls program).find? fun f ↦ f.head.name = name).map FunctionDecl.meaning

/-- A program is well typed. -/
def WellTyped (program : List Stmt) : Prop :=
  ProgramTyped (signatures program) program

/-! ### Occurrences -/

mutual

/-- An expression and all its parts, from the outside to the inside. -/
def Expr.parts : Expr → List Expr
  | .literal span value => [.literal span value]
  | .var span name => [.var span name]
  | .unary span op operand => .unary span op operand :: operand.parts
  | .binary span op left right => .binary span op left right :: (left.parts ++ right.parts)
  | .call span name arguments => .call span name arguments :: Expr.partsAll arguments

/-- Expressions and all their parts. -/
def Expr.partsAll : List Expr → List Expr
  | [] => []
  | e :: es => e.parts ++ Expr.partsAll es

end

/-- An expression and all its parts, if there is one. -/
def Expr.optionParts : Option Expr → List Expr
  | none => []
  | some e => e.parts

mutual

/-- The expressions in a statement, each with the environment it is typed in. -/
def Stmt.occurrences : Stmt → Env → List (Env × Expr)
  | .block _ body, Γ => Stmt.occurrencesAll body Γ
  | .function _ _ parameters body, Γ => Stmt.occurrencesAll body (Γ.bindAll parameters)
  | .var _ _ initial, Γ => (Expr.optionParts initial).map (Γ, ·)
  | .assign _ _ _ value, Γ => value.parts.map (Γ, ·)
  | .conditional _ condition thenBranch none, Γ =>
    condition.parts.map (Γ, ·) ++ thenBranch.occurrences Γ
  | .conditional _ condition thenBranch (some elseBranch), Γ =>
    condition.parts.map (Γ, ·) ++ thenBranch.occurrences Γ ++ elseBranch.occurrences Γ
  | .loop _ condition body, Γ => condition.parts.map (Γ, ·) ++ body.occurrences Γ
  | .evaluate _ value, Γ => value.parts.map (Γ, ·)
  | .return_ _ value, Γ => value.parts.map (Γ, ·)
  | .print _ _ value, Γ => (Expr.optionParts value).map (Γ, ·)
termination_by structural stmt => stmt

/-- The expressions in statements, each with the environment it is typed in. -/
def Stmt.occurrencesAll : List Stmt → Env → List (Env × Expr)
  | [], _ => []
  | stmt :: stmts, Γ => stmt.occurrences Γ ++ Stmt.occurrencesAll stmts (Γ.after stmt)
termination_by structural stmts => stmts

end

/-! ### Every part of a well-typed tree has a type -/

mutual

theorem HasType.exists_of_mem_parts {Γ : Env} : ∀ {e : Expr} {type : ScalarType},
    HasType Γ e type → ∀ p ∈ e.parts, ∃ type, HasType Γ p type
  | .literal .., _, h, p, hp => ⟨_, (List.mem_singleton.1 hp) ▸ h⟩
  | .var .., _, h, p, hp => ⟨_, (List.mem_singleton.1 hp) ▸ h⟩
  | .unary _ _ operand, type, h, p, hp => by
    rcases List.mem_cons.1 hp with rfl | hpart
    · exact ⟨type, h⟩
    · obtain ⟨-, t, hoperand⟩ := h.operand
      exact hoperand.exists_of_mem_parts p hpart
  | .binary _ _ left right, type, h, p, hp => by
    rcases List.mem_cons.1 hp with rfl | hp
    · exact ⟨type, h⟩
    · obtain ⟨-, l, r, hl, hr⟩ := h.operands
      rcases List.mem_append.1 hp with hp | hp
      · exact hl.exists_of_mem_parts p hp
      · exact hr.exists_of_mem_parts p hp
  | .call .., type, h, p, hp => by
    rcases List.mem_cons.1 hp with rfl | hp
    · exact ⟨type, h⟩
    · cases h with
      | call _ h => exact h.exists_of_mem_parts p hp

theorem HaveTypes.exists_of_mem_parts {Γ : Env} : ∀ {es : List Expr} {types : List ScalarType},
    HaveTypes Γ es types → ∀ p ∈ Expr.partsAll es, ∃ type, HasType Γ p type
  | [], _, _, p, hp => absurd hp List.not_mem_nil
  | _ :: _, _, .cons h hs, p, hp => by
    rcases List.mem_append.1 hp with hp | hp
    · exact h.exists_of_mem_parts p hp
    · exact hs.exists_of_mem_parts p hp

end

/-- A place of an expression: only values are visible there, and the expression has a type. -/
def Env.TypedAt (occurrence : Env × Expr) : Prop :=
  occurrence.1.Concrete ∧ ∃ type, HasType occurrence.1 occurrence.2 type

theorem HasType.forall_parts {Γ : Env} (hΓ : Γ.Concrete) {e : Expr} {type : ScalarType}
    (h : HasType Γ e type) : ∀ o ∈ e.parts.map (Γ, ·), Env.TypedAt o := by
  intro o ho
  obtain ⟨p, hp, rfl⟩ := List.mem_map.1 ho
  exact ⟨hΓ, h.exists_of_mem_parts p hp⟩

theorem Env.Concrete.after {Γ : Env} (hΓ : Γ.Concrete) {stmt : Stmt} (hg : stmt.Grammatical) :
    (Γ.after stmt).Concrete := by
  cases stmt with
  | var span head initial => exact hΓ.bind hg.1
  | _ => exact hΓ

mutual

theorem Typed.forall_occurrences {result : ScalarType} : ∀ {stmt : Stmt} {Γ : Env},
    Typed result Γ stmt → Γ.Concrete → stmt.Grammatical →
      ∀ o ∈ stmt.occurrences Γ, Env.TypedAt o
  | .block .., _, .block h, hΓ, hg => by
    rw [Stmt.occurrences]
    exact h.forall_occurrences hΓ hg
  | .var _ _ none, _, .declared, _, _ => fun _ h ↦ absurd h List.not_mem_nil
  | .var _ _ (some _), _, .initialized h, hΓ, _ => h.forall_parts hΓ
  | .assign .., _, .assign _ h, hΓ, _ => h.forall_parts hΓ
  | .conditional _ _ _ none, _, .when hcondition h, hΓ, hg => by
    rw [Stmt.occurrences]
    exact List.forall_mem_append.2 ⟨hcondition.forall_parts hΓ, h.forall_occurrences hΓ hg.2⟩
  | .conditional _ _ _ (some _), _, .choose hcondition h h', hΓ, hg => by
    rw [Stmt.occurrences]
    exact List.forall_mem_append.2 ⟨List.forall_mem_append.2
      ⟨hcondition.forall_parts hΓ, h.forall_occurrences hΓ hg.2.1⟩,
      h'.forall_occurrences hΓ hg.2.2⟩
  | .loop .., _, .loop hcondition h, hΓ, hg => by
    rw [Stmt.occurrences]
    exact List.forall_mem_append.2 ⟨hcondition.forall_parts hΓ, h.forall_occurrences hΓ hg.2⟩
  | .evaluate .., _, .evaluate h, hΓ, _ => h.forall_parts hΓ
  | .return_ .., _, .return_ h, hΓ, _ => h.forall_parts hΓ
  | .print _ _ none, _, .separate, _, _ => fun _ h ↦ absurd h List.not_mem_nil
  | .print _ _ (some _), _, .print h, hΓ, _ => h.forall_parts hΓ

theorem TypedAll.forall_occurrences {result : ScalarType} : ∀ {stmts : List Stmt} {Γ : Env},
    TypedAll result Γ stmts → Γ.Concrete → Stmt.AllGrammatical stmts →
      ∀ o ∈ Stmt.occurrencesAll stmts Γ, Env.TypedAt o
  | [], _, _, _, _ => fun _ h ↦ absurd h List.not_mem_nil
  | _ :: _, _, .cons h hs, hΓ, hg => by
    rw [Stmt.occurrencesAll]
    exact List.forall_mem_append.2
      ⟨h.forall_occurrences hΓ hg.1, hs.forall_occurrences (hΓ.after hg.1) hg.2⟩

end

theorem ProgramTyped.forall_occurrences : ∀ {program : List Stmt} {Γ : Env},
    ProgramTyped Γ program → Γ.Concrete → Grammatical program →
      ∀ o ∈ Stmt.occurrencesAll program Γ, Env.TypedAt o
  | [], _, _, _, _ => fun _ h ↦ absurd h List.not_mem_nil
  | _ :: _, _, .function h hs, hΓ, hg => by
    obtain ⟨hfirst, hrest⟩ := List.forall_mem_cons.1 hg
    rw [Stmt.occurrencesAll, Stmt.occurrences]
    exact List.forall_mem_append.2
      ⟨h.forall_occurrences (.bindAll _ hΓ hfirst.2.1) hfirst.2.2, hs.forall_occurrences hΓ hrest⟩
  | _ :: _, _, .declared hs, hΓ, hg => by
    obtain ⟨hfirst, hrest⟩ := List.forall_mem_cons.1 hg
    rw [Stmt.occurrencesAll]
    exact List.forall_mem_append.2
      ⟨fun _ h ↦ absurd h List.not_mem_nil, hs.forall_occurrences (hΓ.bind hfirst.1) hrest⟩
  | _ :: _, _, .initialized h hs, hΓ, hg => by
    obtain ⟨hfirst, hrest⟩ := List.forall_mem_cons.1 hg
    rw [Stmt.occurrencesAll]
    exact List.forall_mem_append.2
      ⟨h.forall_parts hΓ, hs.forall_occurrences (hΓ.bind hfirst.1) hrest⟩

end ScalarMips
