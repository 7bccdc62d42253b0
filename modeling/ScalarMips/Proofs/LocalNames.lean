import ScalarMips.Proofs.RespelledCode
import ScalarMips.Proofs.UniqueLabels

/-!
# Local names do not reach the assembly

How local variables and parameters are spelled decides nothing, as long as every name means the same
declaration (`LocallyRespelled`). Unique names carry a number that depends on how many declarations
came before and not on their names, so functions and global variables get the same unique names in
both programs (`globals_renameAll_eq`), and by the rules of scoping the names at any other place are
those of the same declaration (`Counterparts`). The flattened programs therefore correspond to each
other (`respelled_flatten`), and corresponding programs have the same code.
-/

namespace ScalarMips

/-- Two programs that are the same apart from positions and from how local variables and parameters
are spelled, and in which every name means the same declaration. -/
structure LocallyRespelled (program program' : List Stmt) : Prop where
  /-- Without names and positions they are the same. -/
  shape : Stmt.unplacedAll (Stmt.unnamedAll program) = Stmt.unplacedAll (Stmt.unnamedAll program')
  /-- Functions have the same names. -/
  functions : functionNames program = functionNames program'
  /-- Global variables have the same names. -/
  globals : (globalDecls program).map Declarator.name = (globalDecls program').map Declarator.name
  /-- Every use of a name means the same declaration. -/
  resolutions : resolutions program = resolutions program'

/-! ### How many variables are declared -/

mutual

theorem Stmt.variables_unplaced : ∀ stmt : Stmt, stmt.unplaced.variables = stmt.variables
  | .block _ body => Stmt.variablesAll_unplaced body
  | .function _ _ parameters body => by
    rw [Stmt.unplaced, Stmt.variables, Stmt.variables, Stmt.variablesAll_unplaced body,
      List.map_map]
    rfl
  | .var .. => rfl
  | .conditional _ _ thenBranch none => Stmt.variables_unplaced thenBranch
  | .conditional _ _ thenBranch (some elseBranch) =>
    congrArg₂ (· ++ ·) (Stmt.variables_unplaced thenBranch) (Stmt.variables_unplaced elseBranch)
  | .loop _ _ body => Stmt.variables_unplaced body
  | .assign .. => rfl
  | .evaluate .. => rfl
  | .return_ .. => rfl
  | .print .. => rfl

theorem Stmt.variablesAll_unplaced : ∀ stmts : List Stmt,
    Stmt.variablesAll (Stmt.unplacedAll stmts) = Stmt.variablesAll stmts
  | [] => rfl
  | stmt :: stmts =>
    congrArg₂ (· ++ ·) (Stmt.variables_unplaced stmt) (Stmt.variablesAll_unplaced stmts)

end

theorem Stmt.length_variables_of_shape {s s' : Stmt}
    (h : s.unnamed.unplaced = s'.unnamed.unplaced) : s.variables.length = s'.variables.length := by
  rw [← Stmt.length_variables_unnamed s, ← Stmt.variables_unplaced, h, Stmt.variables_unplaced,
    Stmt.length_variables_unnamed]

theorem Stmt.length_variablesAll_of_shape {ss ss' : List Stmt}
    (h : Stmt.unplacedAll (Stmt.unnamedAll ss) = Stmt.unplacedAll (Stmt.unnamedAll ss')) :
    (Stmt.variablesAll ss).length = (Stmt.variablesAll ss').length := by
  rw [← Stmt.length_variablesAll_unnamed ss, ← Stmt.variablesAll_unplaced, h,
    Stmt.variablesAll_unplaced, Stmt.length_variablesAll_unnamed]

/-! ### Numbers

If the name of the entry point has no separator in it, no number is skipped. -/

namespace Renaming

variable {entry : String}

theorem fresh_eq (hentry : '_' ∉ entry.toList) (name : String) (n : Nat) :
    fresh entry name n = (numbered name n, n + 1) := by
  have hne : numbered name n ≠ entry := by
    rintro rfl
    rw [toList_numbered] at hentry
    exact hentry (List.mem_append_right _ List.mem_cons_self)
  rw [fresh, if_neg hne]

theorem counter_bind (hentry : '_' ∉ entry.toList) (name : String) (s : State) :
    (bind entry .var name s).2.counter = s.counter + 1 := by
  rw [bind_var, fresh_eq hentry]

theorem counter_bindParameters (hentry : '_' ∉ entry.toList) (parameters : List Declarator)
    (s : State) :
    (bindParameters entry parameters s).2.counter = s.counter + parameters.length := by
  induction parameters generalizing s with
  | nil => rfl
  | cons p parameters ih =>
    refine (ih (bind entry .var p.name s).2).trans ?_
    rw [counter_bind hentry, List.length_cons]
    omega

mutual

/-- Every variable that a statement declares takes one number. -/
theorem counter_renameStmt (hentry : '_' ∉ entry.toList) : ∀ (stmt : Stmt) (s : State),
    (renameStmt entry stmt s).2.counter = s.counter + stmt.variables.length
  | .block _ body, s => counter_renameAll hentry body s.push
  | .function _ head parameters body, s => by
    refine (counter_renameAll hentry body _).trans ?_
    rw [counter_bindParameters hentry, Stmt.variables, List.length_append, List.length_map,
      ← Nat.add_assoc]
    rfl
  | .var _ head _, s => counter_bind hentry head.name s
  | .conditional _ _ thenBranch none, s => counter_renameStmt hentry thenBranch s.push
  | .conditional _ _ thenBranch (some elseBranch), s => by
    have hthen : (renameStmt entry thenBranch s.push).2.counter =
        s.counter + thenBranch.variables.length := counter_renameStmt hentry thenBranch s.push
    refine (counter_renameStmt hentry elseBranch
      (renameStmt entry thenBranch s.push).2.pop.push).trans ?_
    show (renameStmt entry thenBranch s.push).2.counter + _ = _
    rw [hthen, Stmt.variables, List.length_append, Nat.add_assoc]
  | .loop _ _ body, s => counter_renameStmt hentry body s.push
  | .assign .., _ => rfl
  | .evaluate .., _ => rfl
  | .return_ .., _ => rfl
  | .print .., _ => rfl

theorem counter_renameAll (hentry : '_' ∉ entry.toList) : ∀ (stmts : List Stmt) (s : State),
    (renameAll entry stmts s).2.counter = s.counter + (Stmt.variablesAll stmts).length
  | [], _ => rfl
  | stmt :: stmts, s => by
    refine (counter_renameAll hentry stmts (renameStmt entry stmt s).2).trans ?_
    rw [counter_renameStmt hentry stmt s, Stmt.variablesAll, List.length_append, Nat.add_assoc]

end

/-- Global variables of one name and with as many declarations before them get one unique name. -/
theorem globals_renameAll_eq (hentry : '_' ∉ entry.toList) : ∀ (program program' : List Stmt)
    (s s' : State), s.counter = s'.counter → (∀ stmt ∈ program, stmt.IsDeclaration) →
    Stmt.unplacedAll (Stmt.unnamedAll program) = Stmt.unplacedAll (Stmt.unnamedAll program') →
    (globalDecls program).map Declarator.name = (globalDecls program').map Declarator.name →
      (globalDecls (renameAll entry program s).1).map Declarator.name =
        (globalDecls (renameAll entry program' s').1).map Declarator.name
  | [], [], _, _, _, _, _, _ => rfl
  | [], _ :: _, _, _, _, _, h, _ => by cases h
  | _ :: _, [], _, _, _, _, h, _ => by cases h
  | stmt :: program, stmt' :: program', s, s', hcounter, hdecl, h, hglobals => by
    obtain ⟨hstmt, hprogram⟩ := List.cons.inj h
    obtain ⟨hdeclFirst, hdeclRest⟩ := List.forall_mem_cons.1 hdecl
    -- As many numbers are taken on both sides, so the counters stay equal.
    have hafter : (renameStmt entry stmt s).2.counter = (renameStmt entry stmt' s').2.counter := by
      rw [counter_renameStmt hentry, counter_renameStmt hentry, hcounter,
        Stmt.length_variables_of_shape hstmt]
    have hrest := globals_renameAll_eq hentry program program' _ _ hafter hdeclRest hprogram
    cases stmt with
    | function =>
      cases stmt' with
      | function => exact hrest hglobals
      | conditional _ _ _ elseBranch' => cases elseBranch' <;> cases hstmt
      | _ => cases hstmt
    | var _ head initial =>
      cases stmt' with
      | var _ head' initial' =>
        obtain ⟨hname, hglobals⟩ := List.cons.inj hglobals
        have hnew : (bind entry .var head.name s).1 = (bind entry .var head'.name s').1 := by
          rw [bind_var, bind_var, fresh_eq hentry, fresh_eq hentry, hname, hcounter]
        exact congrArg₂ List.cons hnew (hrest hglobals)
      | conditional _ _ _ elseBranch' => cases elseBranch' <;> cases hstmt
      | _ => cases hstmt
    | _ => exact hdeclFirst.elim

end Renaming

/-! ### Names of the same declaration -/

/-- Two names that two programs give to the same declaration. -/
def Counterparts (program program' : List Stmt) (u u' : String) : Prop :=
  ∃ site : Site, site.name? program = some u ∧ site.name? program' = some u'

theorem Distinct.site_eq {program : List Stmt} (h : Distinct program) {a b : Site} {u : String}
    (ha : a.name? program = some u) (hb : b.name? program = some u) : a = b := by
  obtain ⟨hfunctions, hvariables, hdisjoint⟩ := List.nodup_append.1 h
  cases a with
  | fn i =>
    cases b with
    | fn j =>
      have hlt := (List.getElem?_eq_some_iff.1 ha).1
      exact congrArg Site.fn ((List.getElem?_inj hlt hfunctions).1 (ha.trans hb.symm))
    | var l =>
      exact absurd rfl (hdisjoint u (List.mem_of_getElem? ha) u (List.mem_of_getElem? hb))
  | var k =>
    cases b with
    | fn j =>
      exact absurd rfl (hdisjoint u (List.mem_of_getElem? hb) u (List.mem_of_getElem? ha))
    | var l =>
      have hlt := (List.getElem?_eq_some_iff.1 ha).1
      exact congrArg Site.var ((List.getElem?_inj hlt hvariables).1 (ha.trans hb.symm))

/-- If all declarations have different names, their names are paired off one to one. -/
theorem biUnique_counterparts {program program' : List Stmt} (h : Distinct program)
    (h' : Distinct program') : Relator.BiUnique (Counterparts program program') := by
  constructor
  · rintro u w v ⟨a, hu, ha⟩ ⟨b, hw, hb⟩
    obtain rfl := h'.site_eq ha hb
    exact Option.some.inj (hu.symm.trans hw)
  · rintro v u w ⟨a, ha, hu⟩ ⟨b, hb, hw⟩
    obtain rfl := h.site_eq ha hb
    exact Option.some.inj (hu.symm.trans hw)

section Counterparts

variable {program program' : List Stmt}

theorem counterparts_variables
    (h : (Stmt.variablesAll program).length = (Stmt.variablesAll program').length) :
    List.Forall₂ (Counterparts program program') (Stmt.variablesAll program)
      (Stmt.variablesAll program') := by
  refine List.forall₂_iff_get.2 ⟨h, fun k hk hk' ↦ ⟨.var k, ?_, ?_⟩⟩
  · exact List.getElem?_eq_getElem hk
  · exact List.getElem?_eq_getElem hk'

theorem counterparts_functions (h : functionNames program = functionNames program') :
    List.Forall₂ (Fixed (Counterparts program program')) (functionNames program)
      (functionNames program') := by
  rw [← h, List.forall₂_same]
  intro f hf
  obtain ⟨i, hi⟩ := List.mem_iff_getElem?.1 hf
  have hi' : (functionNames program')[i]? = some f := h ▸ hi
  exact ⟨⟨.fn i, hi, hi'⟩, rfl⟩

/-- Names that stand for the same sites, one by one, are counterparts. -/
theorem counterparts_of_sites : ∀ {sites : List (Option Site)} {us us' : List String},
    us.map some = sites.map (Option.bind · (Site.name? program)) →
    us'.map some = sites.map (Option.bind · (Site.name? program')) →
      List.Forall₂ (Counterparts program program') us us'
  | [], [], [], _, _ => .nil
  | [], _ :: _, _, h, _ => by cases h
  | [], _, _ :: _, _, h => by cases h
  | _ :: _, [], _, h, _ => by cases h
  | _ :: _, _, [], _, h => by cases h
  | site :: sites, u :: us, u' :: us', h, h' => by
    obtain ⟨hu, hus⟩ := List.cons.inj h
    obtain ⟨hu', hus'⟩ := List.cons.inj h'
    refine .cons ?_ (counterparts_of_sites hus hus')
    cases site with
    | none => cases hu
    | some site => exact ⟨site, hu.symm, hu'.symm⟩

end Counterparts

/-! ### Flattened programs -/

section Flattened

variable {entry : String} {program program' : List Stmt}

/-- Every use of a name in a flattened program carries the name of the declaration it means. -/
theorem references_flatten (hg : Grammatical program) (h : Accepted entry program) :
    (Stmt.referencesAll (Renaming.flatten entry program)).map some =
      (resolutions program).map
        (Option.bind · (Site.name? (Renaming.flatten entry program))) := by
  have hscoped := h.scoped hg.unnested
  refine Renaming.references_program entry program _ _ 0 ?_
    (Renaming.agrees_bindFunctions h.nodup hscoped) fun k u hu ↦ ?_
  · rw [Renaming.kinds_bindFunctions h.nodup]
    exact hscoped
  · rw [Nat.zero_add]
    exact hu

theorem functionNames_flatten_eq (hg : Grammatical program) (hg' : Grammatical program')
    (h : Accepted entry program) (h' : Accepted entry program')
    (hnames : functionNames program = functionNames program') :
    functionNames (Renaming.flatten entry program) =
      functionNames (Renaming.flatten entry program') := by
  rw [Renaming.functionNames_flatten entry h.nodup (h.scoped hg.unnested),
    Renaming.functionNames_flatten entry h'.nodup (h'.scoped hg'.unnested),
    Renaming.bindFunctions_eq, Renaming.bindFunctions_eq, hnames]

/-- Programs that differ only in local names correspond to each other when they are flattened. -/
theorem respelled_flatten (hentry : '_' ∉ entry.toList) (hg : Grammatical program)
    (hg' : Grammatical program') (h : Accepted entry program) (h' : Accepted entry program')
    (hlocal : LocallyRespelled program program') :
    ProgramRespelled
      (Counterparts (Renaming.flatten entry program) (Renaming.flatten entry program'))
      (Renaming.flatten entry program) (Renaming.flatten entry program') := by
  have hflat := flattened_of_accepted hg h
  have hshape : Stmt.unplacedAll (Stmt.unnamedAll (Renaming.flatten entry program)) =
      Stmt.unplacedAll (Stmt.unnamedAll (Renaming.flatten entry program')) := by
    rw [Renaming.unnamedAll_flatten, Renaming.unnamedAll_flatten, hlocal.shape]
  have hcounter : (Renaming.bindFunctions entry program {}).counter =
      (Renaming.bindFunctions entry program' {}).counter := by
    rw [Renaming.bindFunctions_eq, Renaming.bindFunctions_eq, hlocal.functions]
  -- The uses mean the same sites, and each carries the name of its site.
  have hreferences := references_flatten hg' h'
  rw [← hlocal.resolutions] at hreferences
  exact programRespelled_of_names _ _ hflat.grammatical.unnested hflat.wellTyped.isDeclaration
    hshape (counterparts_functions (functionNames_flatten_eq hg hg' h h' hlocal.functions))
    (Renaming.globals_renameAll_eq hentry program program' _ _ hcounter
      (h.wellTyped hg).isDeclaration hlocal.shape hlocal.globals)
    (counterparts_variables (Stmt.length_variablesAll_of_shape hshape))
    (counterparts_of_sites (references_flatten hg h) hreferences)

/-- Flattened programs that correspond have the same code. -/
theorem Generate.program_respelled {code code' : Code} (h : Flattened entry program)
    (h' : Flattened entry program')
    (hrespelled : ProgramRespelled (Counterparts program program') program program')
    (hcode : Generate.program (Layout.build program {}).table { entry } program = .ok code)
    (hcode' : Generate.program (Layout.build program' {}).table { entry } program' = .ok code') :
    code = code' := by
  have hR := biUnique_counterparts h.distinct h'.distinct
  have htable : (Layout.build program {}).table.Respelled (Fixed (Counterparts program program'))
      (Layout.build program' {}).table :=
    Layout.build_respelled hR hrespelled ⟨rfl, .nil⟩
  have hdata := dataSection_respelled htable
  have hfunctions := code_functions hR htable { entry } rfl hrespelled
    (fun f hf ↦ locals?_eq h.stored.2 hf) (fun f hf ↦ locals?_eq h'.stored.2 hf) 0
  rw [program_eq_ok h] at hcode
  rw [program_eq_ok h'] at hcode'
  rw [← Except.ok.inj hcode, ← Except.ok.inj hcode', hdata, hfunctions]

end Flattened

/-! ### Compilations -/

/-- **Local names do not reach the assembly.** Two texts that are compiled with the default entry
point and without annotations, and whose programs are the same apart from how local variables and
parameters are spelled, every name meaning the same declaration, have the same assembly. -/
theorem compile_locallyRespelled {settings : Settings} {source source' : String}
    {program program' : List Stmt} (hentry : settings.entry = "main")
    (hannotate : settings.annotate = false) (h : (compile settings source).succeeded)
    (h' : (compile settings source').succeeded)
    (hparse : parse (lex source).tokens = .ok program)
    (hparse' : parse (lex source').tokens = .ok program')
    (hlocal : LocallyRespelled program program') :
    (compile settings source).assembly = (compile settings source').assembly := by
  obtain ⟨program₁, code, hread, haccepted, hcode, hassembly⟩ := exists_of_succeeded h
  obtain ⟨program₂, code', hread', haccepted', hcode', hassembly'⟩ := exists_of_succeeded h'
  obtain rfl : program = program₁ := Except.ok.inj (hparse.symm.trans hread)
  obtain rfl : program' = program₂ := Except.ok.inj (hparse'.symm.trans hread')
  have hg := parse_grammatical hparse
  have hg' := parse_grammatical hparse'
  have hplain : '_' ∉ settings.entry.toList := by
    rw [hentry]
    decide
  rw [hannotate] at hcode hcode'
  rw [hassembly, hassembly', Generate.program_respelled (flattened_of_accepted hg haccepted)
    (flattened_of_accepted hg' haccepted')
    (respelled_flatten hplain hg hg' haccepted haccepted' hlocal) hcode hcode']

/-- Local variables and parameters with names of their own. -/
def Sample.plainNames : String :=
  "int x = 1;\nfun int f(int a) { { int b = a; x = b; } return a; }\n" ++
    "fun int main() { int c = f(x); return c; }"

/-- The same program with local names that hide a parameter and a global variable. -/
def Sample.hidingNames : String :=
  "int x = 1;\nfun int f(int y) { { int y = y; x = y; } return y; }\n" ++
    "fun int main() { int x = f(x); return x; }"

theorem compile_locallyRespelled_hiding :
    (compile {} Sample.plainNames).succeeded ∧ (compile {} Sample.hidingNames).succeeded ∧
      (∃ program program', parse (lex Sample.plainNames).tokens = .ok program ∧
        parse (lex Sample.hidingNames).tokens = .ok program' ∧
        LocallyRespelled program program' ∧
        Stmt.variablesAll program = ["x", "a", "b", "c"] ∧
        Stmt.variablesAll program' = ["x", "y", "y", "x"]) ∧
      (compile {} Sample.plainNames).assembly = (compile {} Sample.hidingNames).assembly := by
  have hlex : (lex Sample.plainNames).fault = none := by cbv
  have hlex' : (lex Sample.hidingNames).fault = none := by cbv
  have hprogram : ∃ program program', parse (lex Sample.plainNames).tokens = .ok program ∧
      parse (lex Sample.hidingNames).tokens = .ok program' ∧ Accepted "main" program ∧
      Accepted "main" program' ∧ LocallyRespelled program program' ∧
      Stmt.variablesAll program = ["x", "a", "b", "c"] ∧
      Stmt.variablesAll program' = ["x", "y", "y", "x"] :=
    ⟨_, _, by cbv, by cbv, ⟨by cbv, by cbv, by cbv⟩, ⟨by cbv, by cbv, by cbv⟩,
      ⟨by cbv, by cbv, by cbv, by cbv⟩, by cbv, by cbv⟩
  obtain ⟨program, program', hparse, hparse', haccepted, haccepted', hlocal, hnames⟩ := hprogram
  have h : (compile {} Sample.plainNames).succeeded := succeeded_of_accepted hlex hparse haccepted
  have h' : (compile {} Sample.hidingNames).succeeded :=
    succeeded_of_accepted hlex' hparse' haccepted'
  exact ⟨h, h', ⟨program, program', hparse, hparse', hlocal, hnames⟩,
    compile_locallyRespelled rfl rfl h h' hparse hparse' hlocal⟩

end ScalarMips
