import ScalarMips.Proofs.Semantics

/-!
# How much stack a run needs

Every run of the reference semantics has a peak, which is the largest number of words that are ever
on the stack. If there is room for the peak, the limit changes nothing; with less room the run ends
for want of stack (`exists_peak`). So the runs without a limit are those on a stack that is large
enough.

A computation has a peak (`HasPeak`) if its parts have one: that of a sequence is the larger of the
two. The rest is an induction on the fuel along the definition of the semantics.
-/

namespace ScalarMips.Semantics

/-- The same program with another limit. -/
def Setup.within (s : Setup) (limit : Option Nat) : Setup :=
  { s with limit }

/-- A computation needs some number of words on the stack, and no more. -/
def HasPeak {α : Type} (c : Option Nat → Except Stop α) : Prop :=
  ∃ peak, ∀ n, c (some n) = if peak ≤ n then c none else .error .outOfStack

namespace HasPeak

variable {α β : Type}

/-- What does not use the stack needs no words. -/
theorem const (r : Except Stop α) : HasPeak fun _ ↦ r :=
  ⟨0, fun n ↦ (if_pos (Nat.zero_le n)).symm⟩

theorem reserve (s : Setup) (n : Nat) : HasPeak fun limit ↦ (s.within limit).reserve n :=
  ⟨n, fun _ ↦ rfl⟩

theorem bind {c : Option Nat → Except Stop α} {next : α → Option Nat → Except Stop β}
    (h : HasPeak c) (hnext : ∀ value, HasPeak (next value)) :
    HasPeak fun limit ↦ c limit >>= fun value ↦ next value limit := by
  obtain ⟨peak, hpeak⟩ := h
  cases hnone : c none with
  | error stop =>
    refine ⟨peak, fun n ↦ ?_⟩
    simp only [hpeak n, hnone]
    split <;> rfl
  | ok value =>
    obtain ⟨peak', hpeak'⟩ := hnext value
    -- With less room than the first part needs, the second one is not reached.
    refine ⟨max peak peak', fun n ↦ ?_⟩
    simp only [hpeak n, hnone]
    by_cases hn : peak ≤ n
    · have hmax : max peak peak' ≤ n ↔ peak' ≤ n := by omega
      simp only [if_pos hn, hmax]
      exact hpeak' n
    · have hmax : ¬ max peak peak' ≤ n := by omega
      simp only [if_neg hn, if_neg hmax]
      rfl

theorem ite {p : Prop} [Decidable p] {c c' : Option Nat → Except Stop α} (h : HasPeak c)
    (h' : HasPeak c') : HasPeak fun limit ↦ if p then c limit else c' limit := by
  by_cases hp : p
  · simpa only [if_pos hp] using h
  · simpa only [if_neg hp] using h'

end HasPeak

mutual

theorem hasPeak_expr (s : Setup) : ∀ (fuel d : Nat) (frame : Locals) (w : World) (e : Expr),
    HasPeak fun limit ↦ expr (s.within limit) fuel d frame w e
  | 0, _, _, _, _ => by
    simp only [expr]
    exact .const _
  | fuel + 1, d, frame, w, e => by
    cases e with
    | literal span value =>
      simp only [expr]
      exact .bind (.reserve s _) fun _ ↦ .const _
    | var span name =>
      simp only [expr]
      exact .bind (.reserve s _) fun _ ↦ .const _
    | unary span op operand =>
      simp only [expr]
      exact .bind (hasPeak_expr s fuel d frame w operand) fun _ ↦ .const _
    | binary span op left right =>
      simp only [expr]
      refine .bind (hasPeak_expr s fuel d frame w left) fun l ↦ ?_
      exact .bind (hasPeak_expr s fuel (d + 1) frame l.2 right) fun _ ↦ .const _
    | call span name arguments =>
      have hfind : ∀ limit, (s.within limit).find? name = s.find? name := fun _ ↦ rfl
      simp only [expr, hfind]
      cases s.find? name with
      | none => exact .const _
      | some f =>
        refine .bind (hasPeak_exprs s fuel d frame w arguments) fun r ↦ ?_
        exact hasPeak_call s fuel _ r.2 f (r.1.map some)

theorem hasPeak_exprs (s : Setup) : ∀ (fuel d : Nat) (frame : Locals) (w : World)
    (es : List Expr), HasPeak fun limit ↦ exprs (s.within limit) fuel d frame w es
  | 0, _, _, _, _ => by
    simp only [exprs]
    exact .const _
  | fuel + 1, d, frame, w, es => by
    cases es with
    | nil =>
      simp only [exprs]
      exact .const _
    | cons e es =>
      simp only [exprs]
      refine .bind (hasPeak_exprs s fuel d frame w es) fun r ↦ ?_
      exact .bind (hasPeak_expr s fuel (d + es.length) frame r.2 e) fun _ ↦ .const _

theorem hasPeak_call (s : Setup) : ∀ (fuel a : Nat) (w : World) (f : FunctionDecl)
    (values : List (Option Int32)), HasPeak fun limit ↦ call (s.within limit) fuel a w f values
  | 0, _, _, _, _ => by
    simp only [call]
    exact .const _
  | fuel + 1, a, w, f, values => by
    have hentry : ∀ limit, (s.within limit).entry = s.entry := fun _ ↦ rfl
    simp only [call, hentry]
    refine .ite (.bind (.reserve s _) fun _ ↦ ?_) (.const _)
    exact .bind (hasPeak_stmts s fuel (bodyDepth f a) (.enter f.parameters values) w f.body)
      fun _ ↦ .const _

theorem hasPeak_stmt (s : Setup) : ∀ (fuel d : Nat) (frame : Locals) (w : World) (st : Stmt),
    HasPeak fun limit ↦ stmt (s.within limit) fuel d frame w st
  | 0, _, _, _, _ => by
    simp only [stmt]
    exact .const _
  | fuel + 1, d, frame, w, st => by
    have hexpr := fun e ↦ hasPeak_expr s fuel d frame w e
    match st with
    | .block span body =>
      simp only [stmt]
      exact hasPeak_stmts s fuel d frame w body
    | .function .. | .var _ _ none | .print _ _ none =>
      simp only [stmt]
      exact .const _
    | .var _ _ (some value) | .evaluate _ value | .return_ _ value | .print _ _ (some value) =>
      simp only [stmt]
      exact .bind (hexpr value) fun _ ↦ .const _
    | .assign span name target value =>
      simp only [stmt]
      exact .ite (.bind (hexpr value) fun _ ↦ .const _)
        (.ite (.bind (hexpr value) fun _ ↦ .const _) (.const _))
    | .conditional span condition thenBranch elseBranch =>
      simp only [stmt]
      refine .bind (hexpr condition) fun v ↦ .ite (hasPeak_stmt s fuel d frame v.2 thenBranch) ?_
      cases elseBranch with
      | some elseBranch => exact hasPeak_stmt s fuel d frame v.2 elseBranch
      | none => exact .const _
    | .loop span condition body =>
      simp only [stmt]
      refine .bind (hexpr condition) fun v ↦ .ite (.bind ?_ fun o ↦ ?_) (.const _)
      · exact hasPeak_stmt s fuel d frame v.2 body
      · cases o.1 with
        | some value => exact .const _
        | none => exact hasPeak_stmt s fuel d o.2.1 o.2.2 (.loop span condition body)

theorem hasPeak_stmts (s : Setup) : ∀ (fuel d : Nat) (frame : Locals) (w : World)
    (body : List Stmt), HasPeak fun limit ↦ stmts (s.within limit) fuel d frame w body
  | 0, _, _, _, _ => by
    simp only [stmts]
    exact .const _
  | fuel + 1, d, frame, w, body => by
    cases body with
    | nil =>
      simp only [stmts]
      exact .const _
    | cons first rest =>
      simp only [stmts]
      refine .bind (hasPeak_stmt s fuel d frame w first) fun o ↦ ?_
      cases o.1 with
      | some value => exact .const _
      | none => exact hasPeak_stmts s fuel d o.2.1 o.2.2 rest

end

/-- **Every run has a peak.** With room for that many words on the stack it ends as without a limit,
and with less it runs out of stack. -/
theorem exists_peak (program : List Stmt) (entry : String) (globals : SymbolTable) (fuel : Nat) :
    ∃ peak, ∀ n, runProgram program entry globals (some n) fuel =
      if peak ≤ n then runProgram program entry globals none fuel else .outOfStack := by
  let s : Setup := ⟨functionDecls program, entry, none⟩
  have hfind : ∀ limit,
      Setup.find? ⟨functionDecls program, entry, limit⟩ entry = s.find? entry := fun _ ↦ rfl
  simp only [runProgram, run, hfind]
  cases s.find? entry with
  | none => exact ⟨0, fun n ↦ (if_pos (Nat.zero_le n)).symm⟩
  | some f =>
    obtain ⟨peak, hpeak⟩ := hasPeak_call s fuel f.parameters.length
      ⟨Constant.variableValue globals, ""⟩ f (List.replicate f.parameters.length none)
    refine ⟨peak, fun n ↦ ?_⟩
    simp only [Setup.within, s] at hpeak
    simp only [hpeak n]
    by_cases hn : peak ≤ n
    · simp only [if_pos hn]
    · simp only [if_neg hn]

end ScalarMips.Semantics
