import ScalarMips.Proofs.Flattening
import ScalarMips.Proofs.Typing

/-!
# Flattening keeps types

A well-typed program is well typed after its names were made unique, and it is still one of the
grammar. The later passes therefore need to be studied on flattened programs only.

The environment of a renamed statement is carried along with that of the original one (`Carries`):
what a name means before is what its unique name means after. A new name must not hide an old one in
the new environment, so the walk is also known to have made all visible names earlier (`Older`).
-/

namespace ScalarMips

/-! ### The grammar does not depend on names -/

mutual

theorem Expr.grammatical_unnamed : ∀ e : Expr, e.unnamed.Grammatical ↔ e.Grammatical
  | .literal .. => Iff.rfl
  | .var .. => Iff.rfl
  | .unary _ _ operand => and_congr_right fun _ ↦ Expr.grammatical_unnamed operand
  | .binary _ _ left right => and_congr_right fun _ ↦
    and_congr (Expr.grammatical_unnamed left) (Expr.grammatical_unnamed right)
  | .call _ _ arguments => Expr.allGrammatical_unnamed arguments

theorem Expr.allGrammatical_unnamed : ∀ es : List Expr,
    Expr.AllGrammatical (Expr.unnamedAll es) ↔ Expr.AllGrammatical es
  | [] => Iff.rfl
  | e :: es => and_congr (Expr.grammatical_unnamed e) (Expr.allGrammatical_unnamed es)

end

theorem Expr.optionGrammatical_unnamed (value : Option Expr) :
    Expr.OptionGrammatical (value.map Expr.unnamed) ↔ Expr.OptionGrammatical value := by
  cases value with
  | none => exact Iff.rfl
  | some e => exact Expr.grammatical_unnamed e

mutual

theorem Stmt.grammatical_unnamed : ∀ stmt : Stmt, stmt.unnamed.Grammatical ↔ stmt.Grammatical
  | .block _ body => Stmt.allGrammatical_unnamed body
  | .function .. => Iff.rfl
  | .var _ _ initial => and_congr_right fun _ ↦ Expr.optionGrammatical_unnamed initial
  | .assign _ _ _ value => Expr.grammatical_unnamed value
  | .conditional _ condition thenBranch none =>
    and_congr (Expr.grammatical_unnamed condition) (Stmt.grammatical_unnamed thenBranch)
  | .conditional _ condition thenBranch (some elseBranch) =>
    and_congr (Expr.grammatical_unnamed condition)
      (and_congr (Stmt.grammatical_unnamed thenBranch) (Stmt.grammatical_unnamed elseBranch))
  | .loop _ condition body =>
    and_congr (Expr.grammatical_unnamed condition) (Stmt.grammatical_unnamed body)
  | .evaluate _ value => Expr.grammatical_unnamed value
  | .return_ _ value => Expr.grammatical_unnamed value
  | .print _ _ value => Expr.optionGrammatical_unnamed value

theorem Stmt.allGrammatical_unnamed : ∀ stmts : List Stmt,
    Stmt.AllGrammatical (Stmt.unnamedAll stmts) ↔ Stmt.AllGrammatical stmts
  | [] => Iff.rfl
  | stmt :: stmts => and_congr (Stmt.grammatical_unnamed stmt) (Stmt.allGrammatical_unnamed stmts)

end

theorem Stmt.topGrammatical_unnamed (stmt : Stmt) :
    stmt.unnamed.TopGrammatical ↔ stmt.TopGrammatical := by
  cases stmt with
  | function span head parameters body =>
    refine and_congr_right fun _ ↦ and_congr ?_ (Stmt.allGrammatical_unnamed body)
    exact List.forall_mem_map
  | conditional span condition thenBranch elseBranch =>
    cases elseBranch <;> exact Stmt.grammatical_unnamed _
  | _ => exact Stmt.grammatical_unnamed _

theorem grammatical_unnamedAll : ∀ program : List Stmt,
    Grammatical (Stmt.unnamedAll program) ↔ Grammatical program
  | [] => Iff.rfl
  | stmt :: program => by
    unfold Grammatical
    rw [Stmt.unnamedAll, List.forall_mem_cons, List.forall_mem_cons, Stmt.topGrammatical_unnamed]
    exact and_congr_right fun _ ↦ grammatical_unnamedAll program

theorem Grammatical.flatten {program : List Stmt} (h : Grammatical program) (entry : String) :
    Grammatical (Renaming.flatten entry program) := by
  rw [← grammatical_unnamedAll, Renaming.unnamedAll_flatten, grammatical_unnamedAll]
  exact h

/-! ### What functions mean does not depend on names -/

theorem meanings_unnamedAll : ∀ program : List Stmt,
    (functionDecls (Stmt.unnamedAll program)).map FunctionDecl.meaning =
      (functionDecls program).map FunctionDecl.meaning
  | [] => rfl
  | stmt :: program => by
    cases stmt with
    | function span head parameters body =>
      have hparameters : (parameters.map Declarator.unnamed).map Declarator.type =
          parameters.map Declarator.type := by
        rw [List.map_map]
        rfl
      have hmeaning : FunctionDecl.meaning ⟨head.unnamed, parameters.map Declarator.unnamed,
          Stmt.unnamedAll body⟩ = FunctionDecl.meaning ⟨head, parameters, body⟩ :=
        congrArg (Meaning.function · head.type) hparameters
      show FunctionDecl.meaning _ :: _ = FunctionDecl.meaning _ :: _
      rw [hmeaning]
      exact congrArg _ (meanings_unnamedAll program)
    | conditional span condition thenBranch elseBranch =>
      cases elseBranch <;> exact meanings_unnamedAll program
    | _ => exact meanings_unnamedAll program

/-- An element of a list in which no key occurs twice is found by its key. -/
theorem find?_of_nodup {α : Type} (key : α → String) : ∀ {as : List α}, (as.map key).Nodup →
    ∀ {a : α}, a ∈ as → as.find? (fun b ↦ key b = key a) = some a
  | [], _, _, ha => absurd ha List.not_mem_nil
  | b :: as, hnodup, a, ha => by
    obtain ⟨hb, hnodup⟩ := List.nodup_cons.1 hnodup
    rw [List.find?_cons]
    rcases List.mem_cons.1 ha with rfl | ha
    · rw [decide_eq_true rfl]
    · have hne : key b ≠ key a := fun heq ↦ hb (heq ▸ List.mem_map_of_mem ha)
      rw [decide_eq_false hne]
      exact find?_of_nodup key hnodup ha

theorem signatures_of_mem {program : List Stmt} (hnodup : (functionNames program).Nodup)
    {f : FunctionDecl} (hf : f ∈ functionDecls program) :
    signatures program f.head.name = some f.meaning := by
  have hfind := find?_of_nodup (fun f : FunctionDecl ↦ f.head.name) hnodup hf
  rw [signatures, hfind]
  rfl

theorem exists_of_signatures {program : List Stmt} {name : String} {m : Meaning}
    (h : signatures program name = some m) :
    ∃ f ∈ functionDecls program, f.head.name = name ∧ m = f.meaning := by
  obtain ⟨f, hf, rfl⟩ := Option.map_eq_some_iff.1 h
  exact ⟨f, List.mem_of_find?_eq_some hf, by simpa using List.find?_some hf, rfl⟩

namespace Renaming

variable {entry : String} {s : State} {Γ Δ : Env}

/-! ### Environments of renamed trees -/

/-- A name that was made before the counter reached `n`, or the entry point. -/
def Older (entry : String) (n : Nat) (u : String) : Prop :=
  u = entry ∨ ∃ name m, u = numbered name m ∧ m < n

theorem Older.mono {n m : Nat} {u : String} (h : Older entry n u) (hle : n ≤ m) :
    Older entry m u := by
  rcases h with hentry | ⟨name, k, hk, hlt⟩
  · exact .inl hentry
  · exact .inr ⟨name, k, hk, Nat.lt_of_lt_of_le hlt hle⟩

/-- A new name is none of the older ones. -/
theorem Older.ne_fresh {n : Nat} {u : String} (h : Older entry n u) (name : String) :
    u ≠ (fresh entry name n).1 := by
  obtain ⟨hentry, m, hm, hle, -⟩ := fresh_spec entry name n
  rcases h with rfl | ⟨other, k, hk, hlt⟩
  · exact hentry.symm
  · intro heq
    have hnumbers : k = m := eq_of_numbered (hk.symm.trans (heq.trans hm))
    omega

/-- What a name means in one environment, its unique name means in the other. -/
structure Carries (entry : String) (s : State) (Γ Δ : Env) : Prop where
  /-- Every name with a meaning is visible, and its unique name has that meaning. -/
  meaning : ∀ name m, Γ name = some m →
    ∃ i, s.scopes.lookup name = some i ∧ Δ i.uniqueName = some m
  /-- All visible unique names were made before. -/
  older : ∀ name i, s.scopes.lookup name = some i → Older entry s.counter i.uniqueName

theorem Carries.rename (h : Carries entry s Γ Δ) {name : String} {m : Meaning}
    (hname : Γ name = some m) : Δ (Renaming.rename s.scopes name) = some m := by
  obtain ⟨i, hi, hm⟩ := h.meaning name m hname
  rw [Renaming.rename, hi]
  exact hm

/-- A walk that comes back to the scopes it started in has carried nothing away. -/
theorem Carries.back {t : State} (h : Carries entry s Γ Δ) (hscopes : t.scopes = s.scopes)
    (hle : s.counter ≤ t.counter) : Carries entry t Γ Δ where
  meaning := by
    rw [hscopes]
    exact h.meaning
  older name i hi := by
    rw [hscopes] at hi
    exact (h.older name i hi).mono hle

theorem Carries.push (h : Carries entry s Γ Δ) (returnType : Option ScalarType) :
    Carries entry (s.push returnType) Γ Δ :=
  ⟨h.meaning, h.older⟩

/-- A declaration gives a name and its new name the same meaning. -/
theorem Carries.bind (h : Carries entry s Γ Δ) {name : String} (m : Meaning)
    (hfree : s.scopes.kinds.here? name = none) :
    Carries entry (Renaming.bind entry .var name s).2 (Γ.bind name m)
      (Δ.bind (Renaming.bind entry .var name s).1 m) := by
  have hlookup := Scopes.lookup_declare (Scopes.lookupHere_eq_none_iff.2 hfree)
    (i := { kind := .var, initialized := true, uniqueName := (fresh entry name s.counter).1 })
  rw [bind_var]
  refine ⟨fun n m' hm' ↦ ?_, fun n i hi ↦ ?_⟩
  · rw [hlookup]
    unfold Env.bind at hm' ⊢
    split at hm'
    · rename_i hn
      rw [if_pos hn]
      exact ⟨_, rfl, (if_pos rfl).trans hm'⟩
    · rename_i hn
      obtain ⟨i, hi, hmi⟩ := h.meaning n m' hm'
      rw [if_neg hn]
      exact ⟨i, hi, (if_neg ((h.older n i hi).ne_fresh name)).trans hmi⟩
  · rw [hlookup] at hi
    obtain ⟨-, k, hk, hle, hlt⟩ := fresh_spec entry name s.counter
    split at hi
    · cases hi
      exact .inr ⟨name, k, hk, hlt⟩
    · exact (h.older n i hi).mono (Nat.le_of_lt (Nat.lt_of_le_of_lt hle hlt))

theorem Carries.bindAll : ∀ (parameters : List Declarator) (s : State) (Γ Δ : Env),
    ParametersScoped parameters s.scopes.kinds → Carries entry s Γ Δ →
      Carries entry (bindParameters entry parameters s).2 (Γ.bindAll parameters)
        (Δ.bindAll (bindParameters entry parameters s).1)
  | [], _, _, _, _, h => h
  | p :: parameters, s, Γ, Δ, hscoped, h => by
    have hrest := hscoped.2
    rw [← kinds_bind entry .var hscoped.1] at hrest
    exact Carries.bindAll parameters _ _ _ hrest (h.bind (.var p.type) hscoped.1)

theorem Carries.after {stmt : Stmt} (h : Carries entry s Γ Δ)
    (hscoped : stmt.Scoped s.scopes.kinds) :
    Carries entry (renameStmt entry stmt s).2 (Γ.after stmt)
      (Δ.after (renameStmt entry stmt s).1) := by
  cases stmt with
  | var span head initial => exact h.bind (.var head.type) hscoped.2
  | conditional span condition thenBranch elseBranch =>
    cases elseBranch <;> exact h.back (scopes_renameStmt _ _ _) (renameStmt_generated _ _ _).le
  | _ => exact h.back (scopes_renameStmt _ _ _) (renameStmt_generated _ _ _).le

/-! ### Renamed trees are well typed -/

mutual

theorem renameExpr_hasType (h : Carries entry s Γ Δ) : ∀ {e : Expr} {type : ScalarType},
    HasType Γ e type → HasType Δ (renameExpr s.scopes e) type
  | .literal .., _, .literal hvalue => .literal hvalue
  | .var .., _, .var hname => .var (h.rename hname)
  | .unary .., _, .sign hop hoperand => .sign hop (renameExpr_hasType h hoperand)
  | .unary .., _, .negation hoperand => .negation (renameExpr_hasType h hoperand)
  | .binary .., _, .arithmetic hop hl hr =>
    .arithmetic hop (renameExpr_hasType h hl) (renameExpr_hasType h hr)
  | .binary .., _, .comparison hop hl hr =>
    .comparison hop (renameExpr_hasType h hl) (renameExpr_hasType h hr)
  | .binary .., _, .logic hop hl hr =>
    .logic hop (renameExpr_hasType h hl) (renameExpr_hasType h hr)
  | .binary .., _, .equality hop hl hr =>
    .equality hop (renameExpr_hasType h hl) (renameExpr_hasType h hr)
  | .call .., _, .call hname harguments =>
    .call (h.rename hname) (renameExprs_haveTypes h harguments)

theorem renameExprs_haveTypes (h : Carries entry s Γ Δ) :
    ∀ {es : List Expr} {types : List ScalarType},
      HaveTypes Γ es types → HaveTypes Δ (renameExprs s.scopes es) types
  | [], _, .nil => .nil
  | _ :: _, _, .cons he hes => .cons (renameExpr_hasType h he) (renameExprs_haveTypes h hes)

end

mutual

theorem renameStmt_typed {result : ScalarType} : ∀ (stmt : Stmt) (s : State) (Γ Δ : Env),
    Typed result Γ stmt → stmt.Scoped s.scopes.kinds → Carries entry s Γ Δ →
      Typed result Δ (renameStmt entry stmt s).1
  | .block _ body, s, Γ, Δ, .block hbody, hscoped, h =>
    .block (renameAll_typed body s.push Γ Δ hbody hscoped (h.push none))
  | .var _ _ none, _, _, _, .declared, _, _ => .declared
  | .var _ _ (some _), _, _, _, .initialized hvalue, _, h =>
    .initialized (renameExpr_hasType h hvalue)
  | .assign .., _, _, _, .assign hname hvalue, _, h =>
    .assign (h.rename hname) (renameExpr_hasType h hvalue)
  | .conditional _ _ thenBranch none, s, Γ, Δ, .when hcondition hthen, hscoped, h =>
    .when (renameExpr_hasType h hcondition)
      (renameStmt_typed thenBranch s.push Γ Δ hthen hscoped.2 (h.push none))
  | .conditional _ condition thenBranch (some elseBranch), s, Γ, Δ, .choose hcondition hthen helse,
      hscoped, h => by
    have hback := scopes_branch (scopes_renameStmt entry thenBranch s.push)
    have hle : s.counter ≤ (renameStmt entry thenBranch s.push).2.pop.counter :=
      (renameStmt_generated entry thenBranch s.push).le
    refine .choose (renameExpr_hasType h hcondition)
      (renameStmt_typed thenBranch s.push Γ Δ hthen hscoped.2.1 (h.push none)) ?_
    refine renameStmt_typed elseBranch (renameStmt entry thenBranch s.push).2.pop.push Γ Δ helse ?_
      ((h.back hback hle).push none)
    rw [State.push, hback]
    exact hscoped.2.2
  | .loop _ _ body, s, Γ, Δ, .loop hcondition hbody, hscoped, h =>
    .loop (renameExpr_hasType h hcondition)
      (renameStmt_typed body s.push Γ Δ hbody hscoped.2 (h.push none))
  | .evaluate .., _, _, _, .evaluate hvalue, _, h => .evaluate (renameExpr_hasType h hvalue)
  | .return_ .., _, _, _, .return_ hvalue, _, h => .return_ (renameExpr_hasType h hvalue)
  | .print _ _ none, _, _, _, .separate, _, _ => .separate
  | .print _ _ (some _), _, _, _, .print hvalue, _, h => .print (renameExpr_hasType h hvalue)

theorem renameAll_typed {result : ScalarType} : ∀ (stmts : List Stmt) (s : State) (Γ Δ : Env),
    TypedAll result Γ stmts → Stmt.AllScoped stmts s.scopes.kinds → Carries entry s Γ Δ →
      TypedAll result Δ (renameAll entry stmts s).1
  | [], _, _, _, .nil, _, _ => .nil
  | stmt :: stmts, s, Γ, Δ, .cons hfirst hrest, hscoped, h => by
    refine .cons (renameStmt_typed stmt s Γ Δ hfirst hscoped.1 h) ?_
    refine renameAll_typed stmts _ _ _ hrest ?_ (h.after hscoped.1)
    rw [kinds_renameStmt hscoped.1]
    exact hscoped.2

end

theorem renameAll_programTyped : ∀ (program : List Stmt) (s : State) (Γ Δ : Env),
    ProgramTyped Γ program → ProgramScoped program s.scopes.kinds → Carries entry s Γ Δ →
      ProgramTyped Δ (renameAll entry program s).1
  | [], _, _, _, .nil, _, _ => .nil
  | .function span head parameters body :: program, s, Γ, Δ, .function hbody hrest, hscoped, h => by
    obtain ⟨⟨hparameters, hscopedBody⟩, hprogram⟩ := hscoped
    have hback := scopes_renameStmt entry (.function span head parameters body) s
    have hle := (renameStmt_generated entry (.function span head parameters body) s).le
    refine .function ?_ ?_
    · refine renameAll_typed body _ _ _ hbody ?_
        (Carries.bindAll parameters (s.push (some head.type)) Γ Δ hparameters (h.push _))
      rw [kinds_bindParameters entry parameters (s.push (some head.type)) hparameters]
      exact hscopedBody
    · refine renameAll_programTyped program
        (renameStmt entry (.function span head parameters body) s).2 Γ Δ hrest ?_ (h.back hback hle)
      rw [hback]
      exact hprogram
  | .var span head initial :: program, s, Γ, Δ, htyped, hscoped, h => by
    obtain ⟨hvar, hprogram⟩ := hscoped
    have hafter := h.bind (.var head.type) hvar.2
    rw [← kinds_bind entry .var hvar.2] at hprogram
    cases htyped with
    | declared hrest => exact .declared (renameAll_programTyped program _ _ _ hrest hprogram hafter)
    | initialized hvalue hrest =>
      exact .initialized (renameExpr_hasType h hvalue)
        (renameAll_programTyped program _ _ _ hrest hprogram hafter)

/-! ### Programs -/

/-- Where the walk starts, it carries the functions of a program over to those of the flattened
one. -/
theorem carries_bindFunctions {program : List Stmt} (hnodup : (functionNames program).Nodup)
    (hscoped : ProgramScoped program [functionKinds program]) :
    Carries entry (bindFunctions entry program {}) (signatures program)
      (signatures (flatten entry program)) := by
  have hnames := functionNames_flatten entry hnodup hscoped
  have hmeanings : (functionDecls (flatten entry program)).map FunctionDecl.meaning =
      (functionDecls program).map FunctionDecl.meaning := by
    rw [← meanings_unnamedAll, unnamedAll_flatten, meanings_unnamedAll]
  have hnodup' := (List.nodup_append.1 (nodup_flatten entry hnodup hscoped)).1
  obtain ⟨-, hrename⟩ := rename_bindFunctions entry hnodup
  have hkinds : ∀ name, (functionKinds program).lookup name =
      ((bindFunctions entry program {}).scopes.lookup name).map Identifier.kind := fun name ↦ by
    rw [← Scopes.kinds_kind?, kinds_bindFunctions hnodup, Kinds.kind?_singleton]
  refine ⟨fun name m hm ↦ ?_, fun name i hi ↦ ?_⟩
  · obtain ⟨f, hf, rfl, rfl⟩ := exists_of_signatures hm
    have hkind := hkinds f.head.name
    rw [lookup_functionKinds.2 (List.mem_map_of_mem hf)] at hkind
    obtain ⟨i, hi, -⟩ := Option.map_eq_some_iff.1 hkind.symm
    -- The function at the same place of the flattened program has the new name.
    obtain ⟨j, hj⟩ := List.getElem?_of_mem hf
    have hmeaning : ((functionDecls (flatten entry program)).map FunctionDecl.meaning)[j]? =
        some f.meaning := by
      rw [hmeanings, List.getElem?_map, hj]
      rfl
    have hname : (functionNames (flatten entry program))[j]? = some i.uniqueName := by
      rw [hnames, functionNames, List.map_map, List.getElem?_map, hj]
      show some (rename (bindFunctions entry program {}).scopes f.head.name) = _
      rw [rename, hi]
      rfl
    rw [List.getElem?_map] at hmeaning
    obtain ⟨g, hg, hgf⟩ := Option.map_eq_some_iff.1 hmeaning
    rw [functionNames, List.getElem?_map, hg] at hname
    have hsignature := signatures_of_mem hnodup' (List.mem_of_getElem? hg)
    rw [show g.head.name = i.uniqueName from Option.some.inj hname, hgf] at hsignature
    exact ⟨i, hi, hsignature⟩
  · have hmem : name ∈ functionNames program := by
      have hkind := hkinds name
      by_cases hmem : name ∈ functionNames program
      · exact hmem
      · rw [lookup_functionKinds_eq_none hmem, hi] at hkind
        cases hkind
    obtain ⟨hentry, hnumber⟩ := hrename name hmem
    rw [rename, hi] at hentry hnumber
    by_cases hname : name = entry
    · exact .inl (hentry.2 hname)
    · obtain ⟨n, hn, hlt⟩ := hnumber hname
      exact .inr ⟨name, n, hn, hlt⟩

/-- Flattening keeps a program well typed. -/
theorem flatten_wellTyped {program : List Stmt} (hnodup : (functionNames program).Nodup)
    (hscoped : ProgramScoped program [functionKinds program]) (h : WellTyped program) :
    WellTyped (flatten entry program) := by
  refine renameAll_programTyped program _ _ _ h ?_ (carries_bindFunctions hnodup hscoped)
  rw [kinds_bindFunctions hnodup]
  exact hscoped

end Renaming

end ScalarMips
