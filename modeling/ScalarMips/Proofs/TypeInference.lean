import ScalarMips.Check.Types
import ScalarMips.Proofs.NameCheck
import ScalarMips.Proofs.Typing

/-!
# Inference finds the types

On an expression whose names are in order, inference has no complaint exactly when the expression
has a type, and then it gives that type (`Types.infer_complaints_iff`).

The check says nothing about an expression of type `error`, and many places give that type without a
complaint. Soundness therefore rests on scoping as well as on the rules: where every name is
declared and of the right kind, an expression without a complaint never has type `error`
(`Types.hasType_of_infer`). Completeness needs no scoping (`Types.infer_of_hasType`).
-/

namespace ScalarMips

/-- What a binding stands for. -/
def Identifier.meaning (i : Identifier) : Meaning :=
  match i.kind with
  | .var => .var i.type
  | .fn => .function (i.parameters.map Declarator.type) i.type

/-- The environment of a place in a program. -/
def Scopes.env (s : Scopes) : Env :=
  fun name ↦ (s.lookup name).map Identifier.meaning

theorem Scopes.env_declare {s : Scopes} {name : String} (h : s.lookupHere name = none)
    (i : Identifier) : (s.declare name i).env = s.env.bind name i.meaning := by
  funext n
  show ((s.declare name i).lookup n).map Identifier.meaning = _
  rw [lookup_declare h, Env.bind]
  split <;> rfl

theorem Scopes.env_eq_var {s : Scopes} {name : String} {type : ScalarType} :
    s.env name = some (.var type) ↔
      ∃ i, s.lookup name = some i ∧ i.kind = .var ∧ i.type = type := by
  constructor
  · intro h
    obtain ⟨i, hi, hmeaning⟩ := Option.map_eq_some_iff.1 h
    refine ⟨i, hi, ?_⟩
    cases hkind : i.kind with
    | var => simpa [Identifier.meaning, hkind] using hmeaning
    | fn => simp [Identifier.meaning, hkind] at hmeaning
  · rintro ⟨i, hi, hkind, rfl⟩
    show (s.lookup name).map Identifier.meaning = _
    rw [hi, Option.map_some, Identifier.meaning, hkind]

theorem Scopes.env_eq_function {s : Scopes} {name : String} {parameters : List ScalarType}
    {result : ScalarType} : s.env name = some (.function parameters result) ↔
      ∃ i, s.lookup name = some i ∧ i.kind = .fn ∧ i.parameters.map Declarator.type = parameters ∧
        i.type = result := by
  constructor
  · intro h
    obtain ⟨i, hi, hmeaning⟩ := Option.map_eq_some_iff.1 h
    refine ⟨i, hi, ?_⟩
    cases hkind : i.kind with
    | var => simp [Identifier.meaning, hkind] at hmeaning
    | fn => simpa [Identifier.meaning, hkind] using hmeaning
  · rintro ⟨i, hi, hkind, rfl, rfl⟩
    show (s.lookup name).map Identifier.meaning = _
    rw [hi, Option.map_some, Identifier.meaning, hkind]

namespace Types

/-! ### Completeness on expressions -/

theorem variableType_eq {s : Scopes} {name : String} {type : ScalarType}
    (h : s.env name = some (.var type)) : variableType s name = type := by
  obtain ⟨i, hi, hkind, rfl⟩ := Scopes.env_eq_var.1 h
  rw [variableType, hi]
  exact if_pos hkind

@[simp] theorem clashes_self (type : ScalarType) : clashes type type = false := by
  simp [clashes]

theorem argumentComplaints_eq_nil : ∀ {arguments : List (Located ScalarType)}
    {parameters : List Declarator},
    arguments.map Located.val = parameters.map Declarator.type →
      argumentComplaints arguments parameters = []
  | [], _, _ => by simp [argumentComplaints]
  | argument :: arguments, [], h => by cases h
  | argument :: arguments, p :: parameters, h => by
    obtain ⟨hfirst, hrest⟩ := List.cons.inj h
    rw [argumentComplaints, hfirst, clashes_self, argumentComplaints_eq_nil hrest]
    rfl

theorem inferCall_eq {s : Scopes} {span : Span} {name : String} {parameters : List ScalarType}
    {result : ScalarType} {arguments : List (Located ScalarType)}
    (h : s.env name = some (.function parameters result))
    (harguments : arguments.map Located.val = parameters) :
    inferCall s span name arguments = ⟨result, []⟩ := by
  obtain ⟨i, hi, hkind, rfl, rfl⟩ := Scopes.env_eq_function.1 h
  have hlength : i.parameters.length = arguments.length := by
    simpa using (congrArg List.length harguments).symm
  rw [inferCall, hi]
  simp only [hkind, hlength, ne_eq, not_true_eq_false, if_false]
  rw [argumentComplaints_eq_nil harguments]

/-- A binary operator on operands of concrete types that its signature allows. -/
theorem inferBinary_uniform {span : Span} {op : Operator} {operand result : ScalarType}
    (hop : signature op = .uniform operand result) (hoperand : operand.isConcrete)
    (left right : Span) :
    inferBinary span op ⟨left, operand⟩ ⟨right, operand⟩ = ⟨result, []⟩ := by
  simp [inferBinary, hop, hoperand, operandComplaint]

theorem inferBinary_same {span : Span} {op : Operator} {operand : ScalarType}
    (hop : signature op = .same) (hoperand : operand.isConcrete) (left right : Span) :
    inferBinary span op ⟨left, operand⟩ ⟨right, operand⟩ = ⟨.bool, []⟩ := by
  simp [inferBinary, hop, hoperand]

mutual

/-- An expression that has a type is given that type, without complaint. -/
theorem infer_of_hasType {s : Scopes} (hs : s.env.Concrete) : ∀ {e : Expr} {type : ScalarType},
    HasType s.env e type → infer s e = ⟨type, []⟩
  | .literal .., _, .literal _ => rfl
  | .var .., _, .var h => by rw [infer, variableType_eq h]
  | .unary _ op _, _, .sign hop h => by
    rw [infer, infer_of_hasType hs h]
    have hunary : unaryType op = .int := by
      simp only [List.mem_cons, List.not_mem_nil, or_false] at hop
      rcases hop with rfl | rfl <;> rfl
    simp [inferUnary, hunary, ScalarType.isConcrete]
  | .unary _ _ _, _, .negation h => by
    rw [infer, infer_of_hasType hs h]
    rfl
  | .binary _ op _ _, _, .arithmetic hop hl hr => by
    rw [infer, infer_of_hasType hs hl, infer_of_hasType hs hr]
    have hsignature : signature op = .uniform .int .int := by
      revert hop
      cases op <;> decide
    simp only [inferBinary_uniform hsignature rfl]
    rfl
  | .binary _ op _ _, _, .comparison hop hl hr => by
    rw [infer, infer_of_hasType hs hl, infer_of_hasType hs hr]
    have hsignature : signature op = .uniform .int .bool := by
      revert hop
      cases op <;> decide
    simp only [inferBinary_uniform hsignature rfl]
    rfl
  | .binary _ op _ _, _, .logic hop hl hr => by
    rw [infer, infer_of_hasType hs hl, infer_of_hasType hs hr]
    have hsignature : signature op = .uniform .bool .bool := by
      revert hop
      cases op <;> decide
    simp only [inferBinary_uniform hsignature rfl]
    rfl
  | .binary _ op _ _, _, .equality hop hl hr => by
    rw [infer, infer_of_hasType hs hl, infer_of_hasType hs hr]
    have hsignature : signature op = .same := by
      revert hop
      cases op <;> decide
    simp only [inferBinary_same hsignature (hl.isConcrete hs)]
    rfl
  | .call _ _ _, _, .call hname harguments => by
    obtain ⟨htypes, hcomplaints⟩ := inferAll_of_haveTypes hs harguments
    rw [infer]
    simp only [inferCall_eq hname htypes, hcomplaints]
    rfl

theorem inferAll_of_haveTypes {s : Scopes} (hs : s.env.Concrete) :
    ∀ {es : List Expr} {types : List ScalarType}, HaveTypes s.env es types →
      (inferAll s es).1.map Located.val = types ∧ (inferAll s es).2 = []
  | [], _, .nil => ⟨rfl, rfl⟩
  | _ :: _, _, .cons h hs' => by
    obtain ⟨htypes, hcomplaints⟩ := inferAll_of_haveTypes hs hs'
    rw [inferAll, infer_of_hasType hs h]
    exact ⟨congrArg _ htypes, hcomplaints⟩

end

/-! ### Soundness on expressions -/

theorem eq_of_not_clashes {actual expected : ScalarType} (hactual : actual.isConcrete)
    (h : clashes actual expected = false) : actual = expected := by
  simpa [clashes, hactual] using h

theorem inferUnary_cases {span : Span} {op : Operator} {operand : ScalarType}
    (hoperand : operand.isConcrete) (h : (inferUnary span op operand).complaints = []) :
    operand = unaryType op ∧ (inferUnary span op operand).type = unaryType op := by
  unfold inferUnary at h ⊢
  rw [if_neg (by simp [hoperand])] at h ⊢
  split at h
  · rename_i heq
    rw [if_pos heq]
    exact ⟨heq, rfl⟩
  · cases h

theorem operandComplaint_eq_nil {op : Operator} {expected : ScalarType}
    {operand : Located ScalarType} (hoperand : operand.val.isConcrete)
    (h : operandComplaint op expected operand = []) : operand.val = expected := by
  unfold operandComplaint at h
  split at h
  · cases h
  · rename_i hclash
    exact eq_of_not_clashes hoperand (by simpa using hclash)

/-- A binary operator without complaint: its signature allows the operands. -/
theorem inferBinary_cases {span : Span} {op : Operator} {left right : Located ScalarType}
    (hleft : left.val.isConcrete) (hright : right.val.isConcrete)
    (h : (inferBinary span op left right).complaints = []) :
    (∃ operand, signature op = .uniform operand (inferBinary span op left right).type ∧
        left.val = operand ∧ right.val = operand) ∨
      signature op = .same ∧ left.val = right.val ∧
        (inferBinary span op left right).type = .bool := by
  unfold inferBinary at h ⊢
  rw [if_neg (by simp [hleft])] at h ⊢
  split at h
  · rename_i operand result hop
    obtain ⟨hl, hr⟩ := List.append_eq_nil_iff.1 h
    have hl := operandComplaint_eq_nil hleft hl
    have hr := operandComplaint_eq_nil hright hr
    exact .inl ⟨operand, by simp [hop, hl, hr]⟩
  · rename_i hop
    rw [if_neg (by simp [hleft, hright])] at h ⊢
    split at h
    · rename_i heq
      rw [if_pos heq]
      exact .inr ⟨hop, heq, rfl⟩
    · cases h
  · cases h

/-- A binary operator applied to operands that its signature allows. -/
theorem hasType_uniform {Γ : Env} {span : Span} {op : Operator} {left right : Expr}
    {operand result : ScalarType} (hop : signature op = .uniform operand result)
    (hl : HasType Γ left operand) (hr : HasType Γ right operand) :
    HasType Γ (.binary span op left right) result := by
  cases op with
  | plus | minus | times | divide | modulo =>
    cases hop
    exact .arithmetic (by decide) hl hr
  | less | lessEqual | greater | greaterEqual =>
    cases hop
    exact .comparison (by decide) hl hr
  | and | or =>
    cases hop
    exact .logic (by decide) hl hr
  | not | equal | notEqual => cases hop

theorem hasType_same {Γ : Env} {span : Span} {op : Operator} {left right : Expr}
    {operand : ScalarType} (hop : signature op = .same) (hl : HasType Γ left operand)
    (hr : HasType Γ right operand) : HasType Γ (.binary span op left right) .bool := by
  cases op with
  | equal | notEqual => exact .equality (by decide) hl hr
  | _ => cases hop

theorem hasType_unary {Γ : Env} {span : Span} {op : Operator} {operand : Expr} (hop : op.IsUnary)
    (h : HasType Γ operand (unaryType op)) :
    HasType Γ (.unary span op operand) (unaryType op) := by
  rcases hop with rfl | rfl | rfl
  · exact .sign (by decide) h
  · exact .sign (by decide) h
  · exact .negation h

theorem map_val_eq_of_argumentComplaints : ∀ {arguments : List (Located ScalarType)}
    {parameters : List Declarator}, arguments.length = parameters.length →
    (∀ a ∈ arguments, a.val.isConcrete) → argumentComplaints arguments parameters = [] →
      arguments.map Located.val = parameters.map Declarator.type
  | [], [], _, _, _ => rfl
  | [], _ :: _, h, _, _ => by cases h
  | _ :: _, [], h, _, _ => by cases h
  | a :: arguments, p :: parameters, hlength, hconcrete, h => by
    obtain ⟨hfirst, hrest⟩ := List.forall_mem_cons.1 hconcrete
    rw [argumentComplaints] at h
    split at h
    · cases h
    · rename_i hclash
      have htypes := map_val_eq_of_argumentComplaints (Nat.succ.inj hlength) hrest h
      rw [List.map_cons, List.map_cons, htypes,
        eq_of_not_clashes hfirst (by simpa using hclash)]

theorem inferCall_cases {s : Scopes} {span : Span} {name : String}
    {arguments : List (Located ScalarType)} (hname : s.kinds.kind? name = some .fn)
    (hconcrete : ∀ a ∈ arguments, a.val.isConcrete)
    (h : (inferCall s span name arguments).complaints = []) :
    s.env name = some (.function (arguments.map Located.val)
      (inferCall s span name arguments).type) := by
  rw [Scopes.kinds_kind?] at hname
  obtain ⟨i, hi, hkind⟩ := Option.map_eq_some_iff.1 hname
  refine Scopes.env_eq_function.2 ⟨i, hi, hkind, ?_⟩
  rw [inferCall, hi] at h ⊢
  simp only [hkind, ne_eq, not_true_eq_false, if_false] at h ⊢
  split at h
  · cases h
  · rename_i hlength
    rw [if_neg hlength]
    have hlength : arguments.length = i.parameters.length := by
      simpa [eq_comm] using hlength
    exact ⟨(map_val_eq_of_argumentComplaints hlength hconcrete h).symm, rfl⟩

mutual

/-- Where names are in order, an expression without complaint has the type it is given. -/
theorem hasType_of_infer {s : Scopes} (hs : s.env.Concrete) : ∀ e : Expr, e.Grammatical →
    e.Scoped s.kinds → (infer s e).complaints = [] → HasType s.env e (infer s e).type
  | .literal _ _, hg, _, _ => .literal hg
  | .var _ name, _, hscoped, _ => by
    have hkind : s.kinds.kind? name = some .var := hscoped
    rw [Scopes.kinds_kind?] at hkind
    obtain ⟨i, hi, hkind⟩ := Option.map_eq_some_iff.1 hkind
    have henv : s.env name = some (.var i.type) := Scopes.env_eq_var.2 ⟨i, hi, hkind, rfl⟩
    rw [infer, variableType_eq henv]
    exact .var henv
  | .unary _ op operand, hg, hscoped, h => by
    rw [infer] at h ⊢
    obtain ⟨hinner, houter⟩ := List.append_eq_nil_iff.1 h
    have htyped := hasType_of_infer hs operand hg.2 hscoped hinner
    obtain ⟨hoperand, htype⟩ := inferUnary_cases (htyped.isConcrete hs) houter
    rw [hoperand] at htyped
    show HasType _ _ (inferUnary _ op _).type
    rw [htype]
    exact hasType_unary hg.1 htyped
  | .binary _ op left right, hg, hscoped, h => by
    rw [infer] at h ⊢
    obtain ⟨hinner, houter⟩ := List.append_eq_nil_iff.1 h
    obtain ⟨hleft, hright⟩ := List.append_eq_nil_iff.1 hinner
    have hl := hasType_of_infer hs left hg.2.1 hscoped.1 hleft
    have hr := hasType_of_infer hs right hg.2.2 hscoped.2 hright
    rcases inferBinary_cases (hl.isConcrete hs) (hr.isConcrete hs) houter with
      ⟨operand, hop, hlt, hrt⟩ | ⟨hop, heq, htype⟩
    · rw [show (infer s left).type = operand from hlt] at hl
      rw [show (infer s right).type = operand from hrt] at hr
      exact hasType_uniform hop hl hr
    · rw [show (infer s left).type = (infer s right).type from heq] at hl
      show HasType _ _ (inferBinary _ op _ _).type
      rw [htype]
      exact hasType_same hop hl hr
  | .call _ name arguments, hg, hscoped, h => by
    rw [infer] at h ⊢
    obtain ⟨hinner, houter⟩ := List.append_eq_nil_iff.1 h
    obtain ⟨htypes, hconcrete⟩ := haveTypes_of_inferAll hs arguments hg hscoped.2 hinner
    exact .call (inferCall_cases hscoped.1 hconcrete houter) htypes

theorem haveTypes_of_inferAll {s : Scopes} (hs : s.env.Concrete) : ∀ es : List Expr,
    Expr.AllGrammatical es → Expr.AllScoped s.kinds es → (inferAll s es).2 = [] →
      HaveTypes s.env es ((inferAll s es).1.map Located.val) ∧
        ∀ a ∈ (inferAll s es).1, a.val.isConcrete
  | [], _, _, _ => ⟨.nil, fun _ h ↦ absurd h List.not_mem_nil⟩
  | e :: es, hg, hscoped, h => by
    rw [inferAll] at h ⊢
    obtain ⟨hfirst, hrest⟩ := List.append_eq_nil_iff.1 h
    have htyped := hasType_of_infer hs e hg.1 hscoped.1 hfirst
    obtain ⟨htypes, hconcrete⟩ := haveTypes_of_inferAll hs es hg.2 hscoped.2 hrest
    exact ⟨.cons htyped htypes, List.forall_mem_cons.2 ⟨htyped.isConcrete hs, hconcrete⟩⟩

end

/-- Where names are in order, an expression has no complaint exactly when it has a type. -/
theorem infer_complaints_iff {s : Scopes} (hs : s.env.Concrete) {e : Expr} (hg : e.Grammatical)
    (hscoped : e.Scoped s.kinds) :
    (infer s e).complaints = [] ↔ ∃ type, HasType s.env e type := by
  constructor
  · exact fun h ↦ ⟨_, hasType_of_infer hs e hg hscoped h⟩
  · rintro ⟨type, h⟩
    rw [infer_of_hasType hs h]

/-- Asking something of the type of an expression that has one. -/
theorem checkValue_eq_nil_iff {s : Scopes} (hs : s.env.Concrete) {e : Expr} (hg : e.Grammatical)
    (hscoped : e.Scoped s.kinds) {ask : ScalarType → List Complaint} :
    checkValue e ask s = [] ↔ ∃ type, HasType s.env e type ∧ ask type = [] := by
  unfold checkValue
  rw [List.append_eq_nil_iff]
  constructor
  · rintro ⟨hcomplaints, hask⟩
    exact ⟨_, hasType_of_infer hs e hg hscoped hcomplaints, hask⟩
  · rintro ⟨type, htype, hask⟩
    rw [infer_of_hasType hs htype]
    exact ⟨rfl, hask⟩

end Types

end ScalarMips
