import ScalarMips.Renaming
import ScalarMips.Proofs.Lexical

/-!
# New names

What the renaming does to any program. Only names change (`Renaming.unnamedAll_flatten`), and the
new names of declarations are distinct: every name is made with a number from a counter that only
grows, and the number can be read off the name (`eq_of_numbered`). `Renaming.Generated` says which
numbers a list of names is made with, so lists made one after the other have no name in common.
-/

namespace ScalarMips

/-! ### Numbered names -/

/-- A text splits in only one way at a separator that does not occur behind it. -/
theorem eq_of_append_separator {c : Char} {xs ys ds es : List Char} (hd : c ∉ ds) (he : c ∉ es)
    (h : xs ++ c :: ds = ys ++ c :: es) : xs = ys ∧ ds = es := by
  rcases List.append_eq_append_iff.1 h with ⟨zs, hy, hzs⟩ | ⟨zs, hx, hzs⟩
  · cases zs with
    | nil => exact ⟨by simpa using hy.symm, by simpa using hzs⟩
    | cons z zs =>
      have hmem : ds = zs ++ c :: es := (List.cons.inj hzs).2
      exact absurd (hmem ▸ List.mem_append_right zs List.mem_cons_self) hd
  · cases zs with
    | nil => exact ⟨by simpa using hx, by simpa using hzs.symm⟩
    | cons z zs =>
      have hmem : es = zs ++ c :: ds := (List.cons.inj hzs).2
      exact absurd (hmem ▸ List.mem_append_right zs List.mem_cons_self) he

theorem separator_notMem_repr (n : Nat) : '_' ∉ n.repr.toList := by
  intro h
  rw [Nat.toList_repr] at h
  have hdigit := Nat.isDigit_of_mem_toDigits (by decide) (by decide) h
  exact absurd hdigit (by decide)

theorem eq_of_toList_repr {n m : Nat} (h : n.repr.toList = m.repr.toList) : n = m := by
  rw [Nat.toList_repr, Nat.toList_repr] at h
  have hvalues := congrArg (Nat.ofDigitChars 10 · 0) h
  simpa only [Nat.ofDigitChars_toDigits (b := 10) (by decide) (by decide)] using hvalues

namespace Renaming

theorem toList_numbered (name : String) (n : Nat) :
    (numbered name n).toList = name.toList ++ '_' :: n.repr.toList := by
  simp [numbered]

/-- The number can be read off a numbered name. -/
theorem eq_of_numbered {a b : String} {n m : Nat} (h : numbered a n = numbered b m) : n = m := by
  have hlists := congrArg String.toList h
  rw [toList_numbered, toList_numbered] at hlists
  exact eq_of_toList_repr
    (eq_of_append_separator (separator_notMem_repr n) (separator_notMem_repr m) hlists).2

/-- A new name is not that of the entry point, and its number lies between the two counters. -/
theorem fresh_spec (entry name : String) (n : Nat) :
    (fresh entry name n).1 ≠ entry ∧
      ∃ m, (fresh entry name n).1 = numbered name m ∧ n ≤ m ∧ m < (fresh entry name n).2 := by
  unfold fresh
  split
  · rename_i hentry
    refine ⟨fun h ↦ ?_, n + 1, rfl, by omega, by omega⟩
    have hnumber : n + 1 = n := eq_of_numbered (h.trans hentry.symm)
    omega
  · rename_i hentry
    exact ⟨hentry, n, rfl, by omega, by omega⟩

/-- Distinct names that were made while the counter went from `lo` to `hi`. -/
structure Generated (entry : String) (lo hi : Nat) (names : List String) : Prop where
  /-- The counter grows. -/
  le : lo ≤ hi
  /-- No name was made twice. -/
  nodup : names.Nodup
  /-- No name is that of the entry point. -/
  ne_entry : ∀ u ∈ names, u ≠ entry
  /-- Every name has a number between the two counters. -/
  numbered : ∀ u ∈ names, ∃ name n, u = numbered name n ∧ lo ≤ n ∧ n < hi

namespace Generated

variable {entry : String} {lo mid hi : Nat} {first second : List String}

theorem nil (entry : String) (n : Nat) : Generated entry n n [] where
  le := Nat.le_refl n
  nodup := List.nodup_nil
  ne_entry _ h := absurd h List.not_mem_nil
  numbered _ h := absurd h List.not_mem_nil

theorem fresh (entry name : String) (n : Nat) :
    Generated entry n (fresh entry name n).2 [(fresh entry name n).1] := by
  obtain ⟨hentry, m, hm, hle, hlt⟩ := fresh_spec entry name n
  have hnodup : [(Renaming.fresh entry name n).1].Nodup :=
    List.nodup_cons.2 ⟨List.not_mem_nil, List.nodup_nil⟩
  refine ⟨by omega, hnodup, fun u hu ↦ ?_, fun u hu ↦ ?_⟩
  · obtain rfl := List.mem_singleton.1 hu
    exact hentry
  · obtain rfl := List.mem_singleton.1 hu
    exact ⟨name, m, hm, hle, hlt⟩

/-- Names made while the counter grew further are different from those made before. -/
theorem disjoint (h : Generated entry lo mid first) (h' : Generated entry mid hi second) :
    ∀ u ∈ first, u ∉ second := by
  intro u hu hu'
  obtain ⟨a, n, hn, -, hlt⟩ := h.numbered u hu
  obtain ⟨b, m, hm, hle, -⟩ := h'.numbered u hu'
  have hnumber : n = m := eq_of_numbered (hn.symm.trans hm)
  omega

theorem append (h : Generated entry lo mid first) (h' : Generated entry mid hi second) :
    Generated entry lo hi (first ++ second) where
  le := Nat.le_trans h.le h'.le
  nodup := List.nodup_append.2
    ⟨h.nodup, h'.nodup, fun u hu w hw heq ↦ h.disjoint h' u hu (heq ▸ hw)⟩
  ne_entry := List.forall_mem_append.2 ⟨h.ne_entry, h'.ne_entry⟩
  numbered := by
    have hle := h.le
    have hle' := h'.le
    refine List.forall_mem_append.2 ⟨fun u hu ↦ ?_, fun u hu ↦ ?_⟩
    · obtain ⟨name, n, hn, hlo, hhi⟩ := h.numbered u hu
      exact ⟨name, n, hn, hlo, by omega⟩
    · obtain ⟨name, n, hn, hlo, hhi⟩ := h'.numbered u hu
      exact ⟨name, n, hn, by omega, hhi⟩

theorem cons {name : String} (h : Generated entry lo mid [name])
    (h' : Generated entry mid hi second) : Generated entry lo hi (name :: second) :=
  h.append h'

end Generated

/-! ### New names are distinct -/

theorem bind_var (entry name : String) (s : State) :
    bind entry .var name s =
      ((fresh entry name s.counter).1,
        ⟨s.scopes.declare name
          { kind := .var, initialized := true, uniqueName := (fresh entry name s.counter).1 },
          (fresh entry name s.counter).2⟩) := rfl

theorem bind_generated (entry name : String) (s : State) :
    Generated entry s.counter (bind entry .var name s).2.counter [(bind entry .var name s).1] :=
  Generated.fresh entry name s.counter

theorem bindParameters_generated (entry : String) : ∀ (parameters : List Declarator) (s : State),
    Generated entry s.counter (bindParameters entry parameters s).2.counter
      ((bindParameters entry parameters s).1.map Declarator.name)
  | [], s => .nil entry s.counter
  | p :: parameters, s =>
    (bind_generated entry p.name s).cons (bindParameters_generated entry parameters _)

mutual

/-- The variables that a renamed statement declares have names made by the walk. -/
theorem renameStmt_generated (entry : String) : ∀ (stmt : Stmt) (s : State),
    Generated entry s.counter (renameStmt entry stmt s).2.counter
      (renameStmt entry stmt s).1.variables
  | .block _ body, s => renameAll_generated entry body s.push
  | .function _ head parameters body, s =>
    (bindParameters_generated entry parameters (s.push (some head.type))).append
      (renameAll_generated entry body _)
  | .var _ head _, s => bind_generated entry head.name s
  | .conditional _ _ thenBranch none, s => renameStmt_generated entry thenBranch s.push
  | .conditional _ _ thenBranch (some elseBranch), s =>
    (renameStmt_generated entry thenBranch s.push).append
      (renameStmt_generated entry elseBranch (renameStmt entry thenBranch s.push).2.pop.push)
  | .loop _ _ body, s => renameStmt_generated entry body s.push
  | .assign .., s => .nil entry s.counter
  | .evaluate .., s => .nil entry s.counter
  | .return_ .., s => .nil entry s.counter
  | .print .., s => .nil entry s.counter

/-- The variables that renamed statements declare have names made by the walk. -/
theorem renameAll_generated (entry : String) : ∀ (stmts : List Stmt) (s : State),
    Generated entry s.counter (renameAll entry stmts s).2.counter
      (Stmt.variablesAll (renameAll entry stmts s).1)
  | [], s => .nil entry s.counter
  | stmt :: stmts, s =>
    (renameStmt_generated entry stmt s).append (renameAll_generated entry stmts _)

end

/-! ### Only names change -/

mutual

theorem unnamed_renameExpr (scopes : Scopes) : ∀ e : Expr,
    (renameExpr scopes e).unnamed = e.unnamed
  | .literal .. => rfl
  | .var .. => rfl
  | .unary _ _ operand => by
    rw [renameExpr, Expr.unnamed, unnamed_renameExpr scopes operand, Expr.unnamed]
  | .binary _ _ left right => by
    rw [renameExpr, Expr.unnamed, unnamed_renameExpr scopes left, unnamed_renameExpr scopes right,
      Expr.unnamed]
  | .call _ _ arguments => by
    rw [renameExpr, Expr.unnamed, unnamedAll_renameExprs scopes arguments, Expr.unnamed]

theorem unnamedAll_renameExprs (scopes : Scopes) : ∀ es : List Expr,
    Expr.unnamedAll (renameExprs scopes es) = Expr.unnamedAll es
  | [] => rfl
  | e :: es => by
    rw [renameExprs, Expr.unnamedAll, unnamed_renameExpr scopes e, unnamedAll_renameExprs scopes es,
      Expr.unnamedAll]

end

theorem unnamed_map_renameExpr (scopes : Scopes) (value : Option Expr) :
    (value.map (renameExpr scopes)).map Expr.unnamed = value.map Expr.unnamed := by
  rw [Option.map_map]
  exact congrFun (congrArg Option.map (funext (unnamed_renameExpr scopes))) value

theorem unnamed_bindParameters (entry : String) : ∀ (parameters : List Declarator) (s : State),
    (bindParameters entry parameters s).1.map Declarator.unnamed =
      parameters.map Declarator.unnamed
  | [], _ => rfl
  | p :: parameters, _ =>
    congrArg (p.unnamed :: ·) (unnamed_bindParameters entry parameters _)

mutual

theorem unnamed_renameStmt (entry : String) : ∀ (stmt : Stmt) (s : State),
    (renameStmt entry stmt s).1.unnamed = stmt.unnamed
  | .block span body, s => congrArg (Stmt.block span) (unnamedAll_renameAll entry body s.push)
  | .function span head parameters body, s => by
    have hparameters := unnamed_bindParameters entry parameters (s.push (some head.type))
    have hbody := unnamedAll_renameAll entry body
      (bindParameters entry parameters (s.push (some head.type))).2
    show Stmt.function span head.unnamed _ _ = Stmt.function span head.unnamed _ _
    rw [hparameters, hbody]
  | .var span head initial, s =>
    congrArg (Stmt.var span head.unnamed) (unnamed_map_renameExpr s.scopes initial)
  | .assign span _ target value, s =>
    congrArg (Stmt.assign span "" target) (unnamed_renameExpr s.scopes value)
  | .conditional span condition thenBranch none, s => by
    have hcondition := unnamed_renameExpr s.scopes condition
    have hthen := unnamed_renameStmt entry thenBranch s.push
    show Stmt.conditional span _ _ none = Stmt.conditional span _ _ none
    rw [hcondition, hthen]
  | .conditional span condition thenBranch (some elseBranch), s => by
    have hcondition := unnamed_renameExpr s.scopes condition
    have hthen := unnamed_renameStmt entry thenBranch s.push
    have helse := unnamed_renameStmt entry elseBranch
      (renameStmt entry thenBranch s.push).2.pop.push
    show Stmt.conditional span _ _ (some _) = Stmt.conditional span _ _ (some _)
    rw [hcondition, hthen, helse]
  | .loop span condition body, s => by
    have hcondition := unnamed_renameExpr s.scopes condition
    have hbody := unnamed_renameStmt entry body s.push
    show Stmt.loop span _ _ = Stmt.loop span _ _
    rw [hcondition, hbody]
  | .evaluate span value, s => congrArg (Stmt.evaluate span) (unnamed_renameExpr s.scopes value)
  | .return_ span value, s => congrArg (Stmt.return_ span) (unnamed_renameExpr s.scopes value)
  | .print span ending value, s =>
    congrArg (Stmt.print span ending) (unnamed_map_renameExpr s.scopes value)

theorem unnamedAll_renameAll (entry : String) : ∀ (stmts : List Stmt) (s : State),
    Stmt.unnamedAll (renameAll entry stmts s).1 = Stmt.unnamedAll stmts
  | [], _ => rfl
  | stmt :: stmts, s => by
    have hstmt := unnamed_renameStmt entry stmt s
    have hstmts := unnamedAll_renameAll entry stmts (renameStmt entry stmt s).2
    show Stmt.unnamed _ :: Stmt.unnamedAll _ = Stmt.unnamed stmt :: Stmt.unnamedAll stmts
    rw [hstmt, hstmts]

end

/-- Renaming changes nothing but names. -/
theorem unnamedAll_flatten (entry : String) (program : List Stmt) :
    Stmt.unnamedAll (flatten entry program) = Stmt.unnamedAll program :=
  unnamedAll_renameAll entry program _

end Renaming

mutual

/-- How many variables a statement declares does not depend on names. -/
theorem Stmt.length_variables_unnamed : ∀ stmt : Stmt,
    stmt.unnamed.variables.length = stmt.variables.length
  | .block _ body => Stmt.length_variablesAll_unnamed body
  | .function _ _ parameters body => by
    rw [Stmt.unnamed, Stmt.variables, Stmt.variables, List.length_append, List.length_append,
      Stmt.length_variablesAll_unnamed body, List.length_map, List.length_map, List.length_map]
  | .var .. => rfl
  | .conditional _ _ thenBranch none => Stmt.length_variables_unnamed thenBranch
  | .conditional _ _ thenBranch (some elseBranch) => by
    rw [Stmt.unnamed, Stmt.variables, Stmt.variables, List.length_append, List.length_append,
      Stmt.length_variables_unnamed thenBranch, Stmt.length_variables_unnamed elseBranch]
  | .loop _ _ body => Stmt.length_variables_unnamed body
  | .assign .. => rfl
  | .evaluate .. => rfl
  | .return_ .. => rfl
  | .print .. => rfl

theorem Stmt.length_variablesAll_unnamed : ∀ stmts : List Stmt,
    (Stmt.variablesAll (Stmt.unnamedAll stmts)).length = (Stmt.variablesAll stmts).length
  | [] => rfl
  | stmt :: stmts => by
    rw [Stmt.unnamedAll, Stmt.variablesAll, Stmt.variablesAll, List.length_append,
      List.length_append, Stmt.length_variables_unnamed stmt,
      Stmt.length_variablesAll_unnamed stmts]

end

theorem Renaming.length_variables_renameStmt (entry : String) (stmt : Stmt) (s : State) :
    (renameStmt entry stmt s).1.variables.length = stmt.variables.length := by
  rw [← Stmt.length_variables_unnamed, unnamed_renameStmt, Stmt.length_variables_unnamed]

end ScalarMips
