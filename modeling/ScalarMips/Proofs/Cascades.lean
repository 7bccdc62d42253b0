import Mathlib
import ScalarMips.Proofs.Lexical
import ScalarMips.Proofs.TypeInference

/-!
# One complaint about one mistake

Inference does not let one mistake in an expression without calls cause a second complaint further
up (`infer_does_not_cascade`): no part that is complained about is inside another one.

Every complaint blames one part of the expression. `blamed` lists those parts, in the order of the
complaints, by the ways that lead to them; what the complaints say of them is `Blames`. The theorem
rests on the fact that an expression is given the type of a value exactly if there is no complaint
about any part of it and all its names stand for variables (`isConcrete_infer_iff`): an operand is
blamed for its type only if it has that of a value, so nothing inside it is blamed.
-/

namespace ScalarMips

/-! ### Parts of expressions -/

namespace Expr

/-- Where a part of an expression stands in it. -/
inductive Branch where
  | operand
  | left
  | right
  deriving DecidableEq

/-- The part to which a way leads. -/
def at? : Expr → List Branch → Option Expr
  | e, [] => some e
  | unary _ _ operand, .operand :: way => operand.at? way
  | binary _ _ left _, .left :: way => left.at? way
  | binary _ _ _ right, .right :: way => right.at? way
  | _, _ :: _ => none

/-- Expressions in which nothing is called. -/
inductive CallFree : Expr → Prop
  | literal (span : Span) (value : Literal) : CallFree (.literal span value)
  | var (span : Span) (name : String) : CallFree (.var span name)
  | unary (span : Span) (op : Operator) {operand : Expr} (h : CallFree operand) :
    CallFree (.unary span op operand)
  | binary (span : Span) (op : Operator) {left right : Expr} (hl : CallFree left)
    (hr : CallFree right) : CallFree (.binary span op left right)

/-- Two ways lead to different parts, neither of them inside the other. -/
def Branch.Apart (p q : List Branch) : Prop :=
  ¬ p <+: q ∧ ¬ q <+: p

namespace Branch

theorem Apart.symm {p q : List Branch} (h : Apart p q) : Apart q p :=
  And.symm h

theorem apart_cons_iff {b : Branch} {p q : List Branch} : Apart (b :: p) (b :: q) ↔ Apart p q := by
  rw [Apart, Apart, List.prefix_cons_inj, List.prefix_cons_inj]

theorem apart_of_ne {b c : Branch} (h : b ≠ c) (p q : List Branch) : Apart (b :: p) (c :: q) :=
  ⟨fun hpq ↦ h (List.cons_prefix_cons.1 hpq).1, fun hqp ↦ h (List.cons_prefix_cons.1 hqp).1.symm⟩

theorem pairwise_map_cons {ways : List (List Branch)} (h : ways.Pairwise Apart) (b : Branch) :
    (ways.map (b :: ·)).Pairwise Apart :=
  List.pairwise_map.2 (h.imp apart_cons_iff.2)

end Branch

end Expr

/-- The types that a complaint speaks of. -/
def Issue.types : Issue → List ScalarType
  | .initialValue _ expected actual | .assignedValue _ expected actual
  | .returnedValue expected actual | .unaryOperand _ expected actual
  | .binaryOperand _ expected actual | .argument _ expected actual => [expected, actual]
  | .mixedOperands _ left right => [left, right]
  | .integerCondition => [.bool, .int]
  | _ => []

theorem ScalarType.isConcrete_iff {type : ScalarType} :
    type.isConcrete ↔ type = .int ∨ type = .bool := by
  cases type <;> decide

namespace Types

open ScalarMips.Expr (Branch)
open ScalarMips.Expr.Branch (Apart)

variable {s : Scopes} {e : Expr} {op : Operator} {span : Span}

/-! ### Types of values -/

/-- The variables of some scopes have types of values. -/
def Settled (s : Scopes) : Prop :=
  ∀ name i, s.lookup name = some i → i.kind = .var → i.type.isConcrete

/-- A name stands for a variable. -/
def IsVariable (s : Scopes) (name : String) : Prop :=
  ∃ i, s.lookup name = some i ∧ i.kind = .var

theorem isConcrete_variableType_iff (hs : Settled s) {name : String} :
    (variableType s name).isConcrete ↔ IsVariable s name := by
  unfold variableType IsVariable
  cases h : s.lookup name with
  | none => simp [ScalarType.isConcrete]
  | some i =>
    by_cases hkind : i.kind = .var
    · simp [hkind, hs name i h hkind]
    · simp [hkind, ScalarType.isConcrete]

theorem isConcrete_unaryType (op : Operator) : (unaryType op).isConcrete := by
  cases op <;> rfl

theorem isConcrete_of_signature {operand result : ScalarType}
    (h : signature op = .uniform operand result) : operand.isConcrete ∧ result.isConcrete := by
  cases op <;> cases h <;> exact ⟨rfl, rfl⟩

/-- A unary operator yields a value if it is given one and has nothing to complain about. -/
theorem isConcrete_inferUnary_iff {operand : ScalarType} :
    (inferUnary span op operand).type.isConcrete ↔
      operand.isConcrete ∧ (inferUnary span op operand).complaints = [] := by
  constructor
  · intro h
    unfold inferUnary at h ⊢
    split at h
    · cases h
    · rename_i hoperand
      split at h
      · rename_i heq
        rw [if_neg hoperand, if_pos heq]
        exact ⟨not_not.1 hoperand, rfl⟩
      · cases h
  · rintro ⟨hoperand, h⟩
    rw [(inferUnary_cases hoperand h).2]
    exact isConcrete_unaryType op

/-- A binary operator yields a value if it is given two and has nothing to complain about. -/
theorem isConcrete_inferBinary_iff {left right : Located ScalarType} :
    (inferBinary span op left right).type.isConcrete ↔
      left.val.isConcrete ∧ right.val.isConcrete ∧
        (inferBinary span op left right).complaints = [] := by
  constructor
  · intro h
    unfold inferBinary at h ⊢
    split at h
    · cases h
    · rename_i hsome
      rw [if_neg hsome]
      split at h
      · rename_i operand result hop
        split at h
        · rename_i heq
          obtain ⟨hl, hr⟩ := heq
          have hoperand := (isConcrete_of_signature hop).1
          simp [operandComplaint, hl, hr, hoperand]
        · cases h
      · split at h
        · cases h
        · rename_i hboth
          split at h
          · rename_i heq
            rw [if_neg hboth, if_pos heq]
            simpa using hboth
          · cases h
      · cases h
  · rintro ⟨hl, hr, h⟩
    obtain ⟨operand, hop, -⟩ | ⟨-, -, htype⟩ := inferBinary_cases hl hr h
    · exact (isConcrete_of_signature hop).2
    · rw [htype]
      rfl

/-- An expression is given the type of a value if there is no complaint about any part of it and
its names stand for variables. -/
theorem isConcrete_infer_iff (hs : Settled s) (hcalls : e.CallFree) (hg : e.Grammatical) :
    (infer s e).type.isConcrete ↔
      (infer s e).complaints = [] ∧ ∀ name ∈ e.references, IsVariable s name := by
  induction hcalls with
  | literal span value =>
    exact iff_of_true hg ⟨rfl, nofun⟩
  | var span name =>
    rw [Expr.references, List.forall_mem_singleton, ← isConcrete_variableType_iff hs]
    exact (and_iff_right rfl).symm
  | unary span op h ih =>
    rw [infer, isConcrete_inferUnary_iff, ih hg.2, List.append_eq_nil_iff, Expr.references]
    exact and_right_comm
  | binary span op hl hr ihl ihr =>
    rw [infer, isConcrete_inferBinary_iff, ihl hg.2.1, ihr hg.2.2, List.append_eq_nil_iff,
      List.append_eq_nil_iff, Expr.references, List.forall_mem_append]
    -- The same five conditions, grouped by operands and by complaints and names.
    tauto

/-! ### Who is blamed -/

/-- The operands that a binary operator blames, or the whole expression. -/
def blamedHere (op : Operator) (left right : ScalarType) : List (List Branch) :=
  match signature op with
  | .uniform operand _ =>
    (if clashes left operand then [[.left]] else []) ++
      (if clashes right operand then [[.right]] else [])
  | .same => if left.isConcrete && clashes right left then [[]] else []
  | .unsupported => if left.isConcrete || right.isConcrete then [[]] else []

/-- The ways to the parts of an expression that the complaints are about. -/
def blamed (s : Scopes) : Expr → List (List Branch)
  | .unary _ op operand =>
    (blamed s operand).map (.operand :: ·) ++
      if clashes (infer s operand).type (unaryType op) then [[]] else []
  | .binary _ op left right =>
    (blamed s left).map (.left :: ·) ++ (blamed s right).map (.right :: ·) ++
      blamedHere op (infer s left).type (infer s right).type
  | _ => []

/-- A complaint blames the part to which a way leads. Nothing is wrong inside of that part, and the
type it is blamed for is that of a value, but not the one asked for. -/
inductive Blames (s : Scopes) (e : Expr) : List Branch → Complaint → Prop
  /-- A unary operator blames the whole expression. -/
  | unary {way : List Branch} {span : Span} {op : Operator} {operand : Expr} {actual : ScalarType}
    (part : e.at? way = some (.unary span op operand)) (sound : infer s operand = ⟨actual, []⟩)
    (clash : clashes actual (unaryType op)) :
    Blames s e way ⟨span, .unaryOperand op (unaryType op) actual⟩
  /-- An equality blames the whole expression. -/
  | same {way : List Branch} {span : Span} {op : Operator} {left right : Expr}
    {first second : ScalarType} (part : e.at? way = some (.binary span op left right))
    (asks : signature op = .same) (soundLeft : infer s left = ⟨first, []⟩)
    (soundRight : infer s right = ⟨second, []⟩) (value : first.isConcrete)
    (clash : clashes second first) : Blames s e way ⟨span, .mixedOperands op first second⟩
  /-- Any other binary operator blames its left operand ... -/
  | left {way : List Branch} {span : Span} {op : Operator} {left right : Expr}
    {expected result actual : ScalarType} (part : e.at? way = some (.binary span op left right))
    (asks : signature op = .uniform expected result) (sound : infer s left = ⟨actual, []⟩)
    (clash : clashes actual expected) :
    Blames s e (way ++ [.left]) ⟨left.span, .binaryOperand op expected actual⟩
  /-- ... or its right operand. -/
  | right {way : List Branch} {span : Span} {op : Operator} {left right : Expr}
    {expected result actual : ScalarType} (part : e.at? way = some (.binary span op left right))
    (asks : signature op = .uniform expected result) (sound : infer s right = ⟨actual, []⟩)
    (clash : clashes actual expected) :
    Blames s e (way ++ [.right]) ⟨right.span, .binaryOperand op expected actual⟩

/-- What is blamed in a part is blamed in the whole. -/
theorem Blames.under {part : Expr} {b : Branch} (hpart : ∀ way, e.at? (b :: way) = part.at? way)
    {way : List Branch} {c : Complaint} (h : Blames s part way c) : Blames s e (b :: way) c := by
  cases h with
  | unary part sound clash => exact .unary ((hpart _).trans part) sound clash
  | same part asks soundLeft soundRight value clash =>
    exact .same ((hpart _).trans part) asks soundLeft soundRight value clash
  | left part asks sound clash =>
    rw [← List.cons_append]
    exact .left ((hpart _).trans part) asks sound clash
  | right part asks sound clash =>
    rw [← List.cons_append]
    exact .right ((hpart _).trans part) asks sound clash

theorem Blames.under_all {part : Expr} {b : Branch} (hpart : ∀ way, e.at? (b :: way) = part.at? way)
    {ways : List (List Branch)} {complaints : List Complaint}
    (h : List.Forall₂ (Blames s part) ways complaints) :
    List.Forall₂ (Blames s e) (ways.map (b :: ·)) complaints :=
  List.forall₂_map_left_iff.2 (h.imp fun _ _ ↦ Blames.under hpart)

theorem isConcrete_of_clashes {actual expected : ScalarType} (h : clashes actual expected) :
    actual.isConcrete := by
  rw [clashes, Bool.and_eq_true] at h
  exact h.1

/-- The types that are reported are types of values. -/
theorem Blames.isConcrete {way : List Branch} {c : Complaint} (h : Blames s e way c) :
    ∀ type ∈ c.val.types, type.isConcrete := by
  cases h with
  | unary _ _ clash => simp [Issue.types, isConcrete_unaryType, isConcrete_of_clashes clash]
  | same _ _ _ _ value clash => simp [Issue.types, value, isConcrete_of_clashes clash]
  | left _ asks _ clash | right _ asks _ clash =>
    simp [Issue.types, (isConcrete_of_signature asks).1, isConcrete_of_clashes clash]

/-- The type of a value is inferred without complaint. -/
theorem infer_eq_of_isConcrete (hs : Settled s) (hcalls : e.CallFree) (hg : e.Grammatical)
    (h : (infer s e).type.isConcrete) : infer s e = ⟨(infer s e).type, []⟩ :=
  congrArg (Inferred.mk _) ((isConcrete_infer_iff hs hcalls hg).1 h).1

/-! ### The complaints of one operator -/

theorem complaints_inferUnary (span : Span) (op : Operator) (operand : ScalarType) :
    (inferUnary span op operand).complaints =
      if clashes operand (unaryType op) then [⟨span, .unaryOperand op (unaryType op) operand⟩]
      else [] := by
  unfold inferUnary clashes
  by_cases hoperand : operand.isConcrete
  · by_cases heq : operand = unaryType op
    · simp [heq, isConcrete_unaryType]
    · simp [hoperand, heq]
  · simp [hoperand]

theorem complaints_inferBinary_uniform {operand result : ScalarType}
    (hop : signature op = .uniform operand result) (left right : Located ScalarType) :
    (inferBinary span op left right).complaints =
      operandComplaint op operand left ++ operandComplaint op operand right := by
  unfold inferBinary
  split
  · rename_i hnone
    simp [operandComplaint, clashes, hnone]
  · rw [hop]

theorem complaints_inferBinary_same (hop : signature op = .same) (left right : Located ScalarType) :
    (inferBinary span op left right).complaints =
      if left.val.isConcrete && clashes right.val left.val then
        [⟨span, .mixedOperands op left.val right.val⟩]
      else [] := by
  unfold inferBinary clashes
  rw [hop]
  by_cases hl : left.val.isConcrete
  · by_cases hr : right.val.isConcrete
    · by_cases heq : left.val = right.val
      · simp [hr, heq]
      · simp [hl, hr, heq, Ne.symm heq]
    · simp [hl, hr]
  · simp [hl]

/-- One blamed part for the one complaint, if there is one. -/
theorem forall₂_ite {α β : Type} {R : α → β → Prop} {b : Bool} {x : α} {y : β} (h : b → R x y) :
    List.Forall₂ R (if b then [x] else []) (if b then [y] else []) := by
  cases b with
  | false => exact .nil
  | true => exact .cons (h rfl) .nil

/-- The parts that a binary operator blames itself, complaint by complaint. -/
theorem forall₂_blamedHere {left right : Expr} (hop : op ≠ .not)
    (hleft : (infer s left).type.isConcrete → infer s left = ⟨(infer s left).type, []⟩)
    (hright : (infer s right).type.isConcrete → infer s right = ⟨(infer s right).type, []⟩) :
    List.Forall₂ (Blames s (.binary span op left right))
      (blamedHere op (infer s left).type (infer s right).type)
      (inferBinary span op ⟨left.span, (infer s left).type⟩
        ⟨right.span, (infer s right).type⟩).complaints := by
  cases hsignature : signature op with
  | uniform operand result =>
    rw [complaints_inferBinary_uniform hsignature]
    simp only [blamedHere, hsignature]
    refine List.rel_append (forall₂_ite fun hclash ↦ ?_) (forall₂_ite fun hclash ↦ ?_)
    · show Blames s _ ([] ++ [.left]) _
      exact .left rfl hsignature (hleft (isConcrete_of_clashes hclash)) hclash
    · show Blames s _ ([] ++ [.right]) _
      exact .right rfl hsignature (hright (isConcrete_of_clashes hclash)) hclash
  | same =>
    rw [complaints_inferBinary_same hsignature]
    simp only [blamedHere, hsignature]
    refine forall₂_ite fun h ↦ ?_
    obtain ⟨hvalue, hclash⟩ := Bool.and_eq_true_iff.1 h
    exact .same rfl hsignature (hleft hvalue) (hright (isConcrete_of_clashes hclash)) hvalue hclash
  | unsupported => cases op <;> simp_all [signature]

/-! ### The complaints of an expression -/

/-- Every complaint blames one part, in their order. -/
theorem forall₂_blamed (hs : Settled s) (hcalls : e.CallFree) (hg : e.Grammatical) :
    List.Forall₂ (Blames s e) (blamed s e) (infer s e).complaints := by
  induction hcalls with
  | literal span value => exact .nil
  | var span name => exact .nil
  | unary span op h ih =>
    refine List.rel_append (Blames.under_all (fun _ ↦ rfl) (ih hg.2)) ?_
    -- The operator's own complaint comes last.
    rw [complaints_inferUnary]
    refine forall₂_ite fun hclash ↦ ?_
    exact .unary rfl (infer_eq_of_isConcrete hs h hg.2 (isConcrete_of_clashes hclash)) hclash
  | binary span op hl hr ihl ihr =>
    refine List.rel_append (List.rel_append (Blames.under_all (fun _ ↦ rfl) (ihl hg.2.1))
      (Blames.under_all (fun _ ↦ rfl) (ihr hg.2.2))) ?_
    exact forall₂_blamedHere hg.1 (infer_eq_of_isConcrete hs hl hg.2.1)
      (infer_eq_of_isConcrete hs hr hg.2.2)

/-- Nothing is blamed inside of an expression that has the type of a value. -/
theorem blamed_eq_nil (hs : Settled s) (hcalls : e.CallFree) (hg : e.Grammatical)
    (h : (infer s e).type.isConcrete) : blamed s e = [] := by
  have hforall := forall₂_blamed hs hcalls hg
  rw [((isConcrete_infer_iff hs hcalls hg).1 h).1] at hforall
  exact List.forall₂_nil_right_iff.1 hforall

/-- What a binary operator blames has the type of a value, or its operands have. -/
theorem mem_blamedHere {left right : ScalarType} (hop : op ≠ .not) {way : List Branch}
    (h : way ∈ blamedHere op left right) :
    way = [.left] ∧ left.isConcrete ∨ way = [.right] ∧ right.isConcrete ∨
      way = [] ∧ left.isConcrete ∧ right.isConcrete := by
  unfold blamedHere at h
  split at h
  · rw [List.mem_append, List.mem_ite_nil_right, List.mem_ite_nil_right, List.mem_singleton,
      List.mem_singleton] at h
    exact h.imp (fun h ↦ ⟨h.2, isConcrete_of_clashes h.1⟩)
      fun h ↦ .inl ⟨h.2, isConcrete_of_clashes h.1⟩
  · rw [List.mem_ite_nil_right, List.mem_singleton, Bool.and_eq_true] at h
    exact .inr (.inr ⟨h.2, h.1.1, isConcrete_of_clashes h.1.2⟩)
  · rename_i hsignature
    cases op <;> simp_all [signature]

theorem pairwise_blamedHere (op : Operator) (left right : ScalarType) :
    (blamedHere op left right).Pairwise Apart := by
  unfold blamedHere
  split
  · split <;> split <;> simp [Expr.Branch.apart_of_ne]
  · split <;> simp
  · split <;> simp

/-- The blamed parts are different, and none is inside another. -/
theorem pairwise_blamed (hs : Settled s) (hcalls : e.CallFree) (hg : e.Grammatical) :
    (blamed s e).Pairwise Apart := by
  induction hcalls with
  | literal span value => exact .nil
  | var span name => exact .nil
  | unary span op h ih =>
    refine List.pairwise_append.2
      ⟨Expr.Branch.pairwise_map_cons (ih hg.2) .operand, by split <;> simp, fun p hp q hq ↦ ?_⟩
    -- The whole expression is blamed only if nothing inside of it is.
    obtain ⟨hclash, -⟩ := List.mem_ite_nil_right.1 hq
    rw [blamed_eq_nil hs h hg.2 (isConcrete_of_clashes hclash)] at hp
    cases hp
  | @binary span op left right hl hr ihl ihr =>
    refine List.pairwise_append.2 ⟨List.pairwise_append.2 ⟨?_, ?_, fun p hp q hq ↦ ?_⟩,
      pairwise_blamedHere op _ _, fun p hp q hq ↦ ?_⟩
    · exact Expr.Branch.pairwise_map_cons (ihl hg.2.1) .left
    · exact Expr.Branch.pairwise_map_cons (ihr hg.2.2) .right
    · obtain ⟨p, -, rfl⟩ := List.mem_map.1 hp
      obtain ⟨q, -, rfl⟩ := List.mem_map.1 hq
      exact Expr.Branch.apart_of_ne (by decide) p q
    · -- An operand is blamed only if nothing inside of it is; the other operand is elsewhere.
      have hleft : (infer s left).type.isConcrete → blamed s left = [] :=
        blamed_eq_nil hs hl hg.2.1
      have hright : (infer s right).type.isConcrete → blamed s right = [] :=
        blamed_eq_nil hs hr hg.2.2
      obtain hp | hp := List.mem_append.1 hp
      · obtain ⟨p, hp, rfl⟩ := List.mem_map.1 hp
        obtain ⟨-, hvalue⟩ | ⟨rfl, -⟩ | ⟨-, hvalue, -⟩ := mem_blamedHere hg.1 hq
        · exact absurd hp (hleft hvalue ▸ List.not_mem_nil)
        · exact Expr.Branch.apart_of_ne (by decide) p []
        · exact absurd hp (hleft hvalue ▸ List.not_mem_nil)
      · obtain ⟨p, hp, rfl⟩ := List.mem_map.1 hp
        obtain ⟨rfl, -⟩ | ⟨-, hvalue⟩ | ⟨-, -, hvalue⟩ := mem_blamedHere hg.1 hq
        · exact Expr.Branch.apart_of_ne (by decide) p []
        · exact absurd hp (hright hvalue ▸ List.not_mem_nil)
        · exact absurd hp (hright hvalue ▸ List.not_mem_nil)

/-- The types that are reported are types of values. -/
theorem isConcrete_of_mem_complaints (hs : Settled s) (hcalls : e.CallFree) (hg : e.Grammatical) :
    ∀ c ∈ (infer s e).complaints, ∀ type ∈ c.val.types, type.isConcrete := by
  have hblames := forall₂_blamed hs hcalls hg
  generalize blamed s e = ways, (infer s e).complaints = complaints at hblames
  induction hblames with
  | nil => exact nofun
  | cons hfirst _ ih => exact List.forall_mem_cons.2 ⟨hfirst.isConcrete, ih⟩

/-- In an expression without calls every complaint blames one part; the blamed parts are different,
and none of them is inside another one. Only types of values are reported. The expression has no
type if and only if there is a complaint or a name that does not stand for a variable. -/
theorem infer_does_not_cascade (s : Scopes) (e : Expr)
    (hs : ∀ name i, s.lookup name = some i → i.kind = .var → i.type.isConcrete)
    (hcalls : e.CallFree) (hg : e.Grammatical) :
    List.Forall₂ (Blames s e) (blamed s e) (infer s e).complaints ∧
      (blamed s e).Pairwise Apart ∧
      (∀ c ∈ (infer s e).complaints, ∀ type ∈ c.val.types, type = .int ∨ type = .bool) ∧
      ((infer s e).type = .error ↔ (infer s e).complaints ≠ [] ∨
        ∃ name ∈ e.references, ¬ ∃ i, s.lookup name = some i ∧ i.kind = .var) := by
  refine ⟨forall₂_blamed hs hcalls hg, pairwise_blamed hs hcalls hg, fun c hc type htype ↦ ?_, ?_⟩
  · exact ScalarType.isConcrete_iff.1 (isConcrete_of_mem_complaints hs hcalls hg c hc type htype)
  · have herror : (infer s e).type = .error ↔ ¬ (infer s e).type.isConcrete := by
      simp [ScalarType.isConcrete]
    rw [herror, isConcrete_infer_iff hs hcalls hg, not_and_or]
    simp only [not_forall, exists_prop]
    rfl

end Types

/-- The scope of an integer variable `x`. -/
def Sample.counting : Scopes :=
  ⟨{ bindings := [("x", { type := .int, initialized := true })] }, []⟩

/-- The expression `(1 + true) == y && x`. -/
def Sample.mistaken : Expr :=
  .binary {} .and
    (.binary {} .equal
      (.binary {} .plus (.literal {} ⟨.int, 1, false⟩) (.literal {} ⟨.bool, 0, true⟩))
      (.var {} "y"))
    (.var {} "x")

namespace Types

/-- Both complaints are about operands; the equality and its operands, which have no type, are not
complained about. -/
theorem infer_does_not_cascade_mistaken :
    blamed Sample.counting Sample.mistaken = [[.left, .left, .right], [.right]] ∧
      (blamed Sample.counting Sample.mistaken).Pairwise Expr.Branch.Apart ∧
      (infer Sample.counting Sample.mistaken).type = .error := by
  have hs : Settled Sample.counting := by
    intro name i h _
    simp only [Scopes.lookup, Scopes.frames, Sample.counting, List.findSome?_singleton,
      Frame.find?, List.lookup_cons, List.lookup_nil] at h
    split at h
    · cases h
      rfl
    · cases h
  have hcalls : Sample.mistaken.CallFree :=
    .binary _ _ (.binary _ _ (.binary _ _ (.literal _ _) (.literal _ _)) (.var _ _)) (.var _ _)
  have hg : Sample.mistaken.Grammatical := by
    simp [Sample.mistaken, Expr.Grammatical, ScalarType.isConcrete]
  obtain ⟨-, happart, -, herror⟩ :=
    infer_does_not_cascade Sample.counting Sample.mistaken hs hcalls hg
  exact ⟨by decide +kernel, happart, herror.2 (.inl (by decide +kernel))⟩

end Types

end ScalarMips
