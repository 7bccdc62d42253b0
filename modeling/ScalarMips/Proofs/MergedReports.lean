import ScalarMips.Proofs.Acceptance

/-!
# The merged reports of the checks

What compilation reports of a program that parses is what the three checks report, sorted by line
without disturbing the order on a line, and the number of problems is the sum of what the checks
have counted (`compile_merges`).

A check counts problems as it files them and does not look at its findings again. That count and
findings agree is a property of single statements that walks inherit (`Pass.closed_counted`); the
missing entry point, which is filed apart from all statements, is counted apart as well.
-/

namespace ScalarMips

/-! ### Counted problems -/

namespace Pass

variable {σ : Type}

/-- The reports of what a walk has found. -/
def reports (source : List String) (p : Pass σ) : List Report :=
  p.findings.map (Finding.report source)

/-- A walk has counted the complaints in its findings. -/
def Counted (p : Pass σ) : Prop :=
  p.count = (p.findings.flatMap Finding.complaints).length

theorem closed_counted : Closed (@Counted σ) where
  quiet _ := rfl
  file _ complaints _ := by
    cases complaints with
    | nil => rfl
    | cons c complaints => exact (congrArg List.length (List.append_nil _)).symm
  andThen {first second} h h' := by
    show first.count + (second first.state).count = _
    rw [h, h', findings_andThen, List.flatMap_append, List.length_append]
  map _ h := h

theorem countProblems_map_report (source : List String) (findings : List Finding) :
    Report.countProblems (findings.map (Finding.report source)) =
      (findings.flatMap Finding.complaints).length := by
  induction findings with
  | nil => rfl
  | cons f findings ih =>
    rw [Report.countProblems] at ih ⊢
    rw [List.map_cons, List.flatMap_cons, List.flatMap_cons, List.length_append,
      List.length_append, ih, problems_report, List.length_map]

/-- The reports of a walk have as many problems as it has counted. -/
theorem Counted.count_eq {p : Pass σ} (h : p.Counted) (source : List String) :
    p.count = Report.countProblems (p.reports source) :=
  h.trans (countProblems_map_report source p.findings).symm

/-- The reports of a walk are of at least one problem each. -/
theorem Filed.problems_ne_nil {p : Pass σ} (h : p.Filed) (source : List String) :
    ∀ r ∈ p.reports source, r.problems ≠ [] := by
  refine List.forall_mem_map.2 fun f hf hnil ↦ h f hf ?_
  rw [problems_report] at hnil
  exact List.map_eq_nil_iff.1 hnil

end Pass

theorem Declarations.counted_check (entry : String) (program : List Stmt) (globals : Scopes) :
    (check entry program globals).Counted := by
  refine Pass.closed_counted.andThen (closed_checkAll Pass.closed_counted program globals) ?_
  unfold checkEntry
  split <;> rfl

/-! ### Merging -/

namespace Report

/-- Lists of reports merged into one by their lines. -/
structure Merges (lists : List (List Report)) (merged : List Report) : Prop where
  /-- No report is lost and none is made up. -/
  perm : merged.Perm lists.flatten
  /-- The lines on which the reports start do not decrease. -/
  ordered : merged.Pairwise fun r s ↦ r.startLine ≤ s.startLine
  /-- Reports that start on one line are in the order of the lists, and then in that of their own
  list. -/
  stable : ∀ line, merged.filter (fun r ↦ r.startLine = line) =
    lists.flatten.filter fun r ↦ r.startLine = line

theorem merges_merge (lists : List (List Report)) : Merges lists (merge lists) where
  perm := sortOn_perm startLine lists.flatten
  ordered := pairwise_sortOn startLine lists.flatten
  stable line := filter_sortOn startLine line lists.flatten

theorem countProblems_append (first second : List Report) :
    countProblems (first ++ second) = countProblems first + countProblems second := by
  rw [countProblems, List.flatMap_append, List.length_append]
  rfl

theorem countProblems_perm {first second : List Report} (h : first.Perm second) :
    countProblems first = countProblems second :=
  (h.flatMap_right problems).length_eq

end Report

/-! ### The three checks -/

namespace Compile

/-- The check of the global declarations of a program. -/
def declarations (entry : String) (program : List Stmt) : Pass Scopes :=
  Declarations.check entry program {}

/-- The check of the names in a program, with its functions declared. -/
def names (entry : String) (program : List Stmt) : Pass Names.State :=
  Names.checkAll program { scopes := (declarations entry program).state }

/-- The check of the types in a program, with its functions declared. -/
def types (entry : String) (program : List Stmt) : Pass Scopes :=
  Types.checkAll program (declarations entry program).state

variable (entry : String) (source : List String) (program : List Stmt)

/-- The reports of the checks, in the order of the checks. -/
def reports : List (List Report) :=
  [(declarations entry program).reports source, (names entry program).reports source,
    (types entry program).reports source]

theorem merges_check : Report.Merges (reports entry source program) (check entry source program) :=
  Report.merges_merge _

theorem problems_ne_nil : ∀ r ∈ check entry source program, r.problems ≠ [] := by
  intro r hr
  obtain ⟨list, hlist, hr⟩ :=
    List.mem_flatten.1 ((merges_check entry source program).perm.subset hr)
  have hdeclarations := (Declarations.filed_check entry program {}).problems_ne_nil source
  have hnames := (Names.closed_checkAll Pass.closed_filed program
    { scopes := (declarations entry program).state }).problems_ne_nil source
  have htypes := (Types.closed_checkAll Pass.closed_filed program
    (declarations entry program).state).problems_ne_nil source
  rcases List.mem_cons.1 hlist with rfl | hlist
  · exact hdeclarations r hr
  rcases List.mem_cons.1 hlist with rfl | hlist
  · exact hnames r hr
  · obtain rfl := List.mem_singleton.1 hlist
    exact htypes r hr

/-- A program is accepted if its checks report nothing. -/
theorem accepted_iff : Accepted entry program ↔ ∀ list ∈ reports entry source program, list = [] := by
  constructor
  · rintro ⟨hdeclarations, hnames, htypes⟩ list hlist
    rcases List.mem_cons.1 hlist with rfl | hlist
    · exact List.map_eq_nil_iff.2 hdeclarations
    rcases List.mem_cons.1 hlist with rfl | hlist
    · exact List.map_eq_nil_iff.2 hnames
    · obtain rfl := List.mem_singleton.1 hlist
      exact List.map_eq_nil_iff.2 htypes
  · intro h
    exact
      { declarations := List.map_eq_nil_iff.1 (h _ List.mem_cons_self)
        names := List.map_eq_nil_iff.1 (h _ (List.mem_cons_of_mem _ List.mem_cons_self))
        types := List.map_eq_nil_iff.1 <|
          h _ (List.mem_cons_of_mem _ (List.mem_cons_of_mem _ List.mem_cons_self)) }

theorem check_of_accepted (h : Accepted entry program) : check entry source program = [] := by
  refine List.eq_nil_iff_forall_not_mem.2 fun r hr ↦ problems_ne_nil entry source program r hr ?_
  exact countProblems_eq_zero.1 (countProblems_check.2 h) r hr

theorem reports_lower (settings : Settings) : (lower settings program).reports = [] := by
  simp only [lower]
  split
  · split <;> rfl
  · rfl

end Compile

open Compile

/-- Whether a program is lowered or not, the reports of its compilation are those of the checks. -/
theorem reports_of_ok {settings : Settings} {source : String} {program : List Stmt}
    (hlex : (lex source).fault = none) (hparse : parse (lex source).tokens = .ok program) :
    (compile settings source).reports =
      Compile.check settings.entry (Source.lines source) program := by
  rw [compile_of_ok hlex hparse]
  split
  · rename_i hzero
    rw [reports_lower, check_of_accepted _ _ _ (countProblems_check.1 hzero)]
  · rfl

/-- The number of problems is what the checks have counted. -/
theorem problemCount_of_ok {settings : Settings} {source : String} {program : List Stmt}
    (hlex : (lex source).fault = none) (hparse : parse (lex source).tokens = .ok program) :
    (compile settings source).problemCount = (declarations settings.entry program).count +
      (names settings.entry program).count + (types settings.entry program).count := by
  have hfirst :=
    (Declarations.counted_check settings.entry program {}).count_eq (Source.lines source)
  have hsecond := (Names.closed_checkAll Pass.closed_counted program
    { scopes := (declarations settings.entry program).state }).count_eq (Source.lines source)
  have hthird := (Types.closed_checkAll Pass.closed_counted program
    (declarations settings.entry program).state).count_eq (Source.lines source)
  have hperm := Report.countProblems_perm
    (merges_check settings.entry (Source.lines source) program).perm
  rw [Outcome.problemCount, reports_of_ok hlex hparse, hperm, Compile.reports, List.flatten_cons,
    List.flatten_cons, List.flatten_cons, List.flatten_nil, List.append_nil,
    Report.countProblems_append, Report.countProblems_append, ← Nat.add_assoc]
  exact congrArg₂ _ (congrArg₂ _ hfirst.symm hsecond.symm) hthird.symm

/-- **The merged report is complete, ordered and correctly counted.** For a source that parses, the
reports of the compilation are those of the three checks, all of them and no others. They stand in
the order of the lines on which they start; on one line those about declarations come before those
about names and these before those about types, and what one check reports stays in its order. Every
report has a problem. Each check has counted as many problems as its reports have, and the number of
problems of the compilation is the sum of the three counts. The program is lowered exactly when no
check has reported anything. -/
theorem compile_merges {settings : Settings} {source : String} {program : List Stmt}
    (hlex : (lex source).fault = none) (hparse : parse (lex source).tokens = .ok program) :
    let lines := Source.lines source
    let first := declarations settings.entry program
    let second := names settings.entry program
    let third := types settings.entry program
    Report.Merges [first.reports lines, second.reports lines, third.reports lines]
        (compile settings source).reports ∧
      (∀ r ∈ (compile settings source).reports, r.problems ≠ []) ∧
      (compile settings source).problemCount = first.count + second.count + third.count ∧
      first.count = Report.countProblems (first.reports lines) ∧
      second.count = Report.countProblems (second.reports lines) ∧
      third.count = Report.countProblems (third.reports lines) ∧
      if first.reports lines = [] ∧ second.reports lines = [] ∧ third.reports lines = [] then
        compile settings source = lower settings program
      else (compile settings source).stage = .checking := by
  intro lines first second third
  have hreports := @reports_of_ok settings source program hlex hparse
  have hmerges := merges_check settings.entry lines program
  have hfirst := (Declarations.counted_check settings.entry program {}).count_eq lines
  have hsecond := (Names.closed_checkAll Pass.closed_counted program
    { scopes := first.state }).count_eq lines
  have hthird := (Types.closed_checkAll Pass.closed_counted program first.state).count_eq lines
  have haccepted : (first.reports lines = [] ∧ second.reports lines = [] ∧
      third.reports lines = []) ↔ Accepted settings.entry program := by
    rw [accepted_iff settings.entry lines program]
    simp [Compile.reports, first, second, third]
  refine ⟨hreports ▸ hmerges, hreports ▸ problems_ne_nil settings.entry lines program,
    problemCount_of_ok hlex hparse, hfirst, hsecond, hthird, ?_⟩
  rw [compile_of_ok hlex hparse]
  split <;> rename_i hempty
  · rw [if_pos (countProblems_check.2 (haccepted.1 hempty))]
  · rw [if_neg (mt countProblems_check.1 (mt haccepted.2 hempty))]
    rfl

namespace Sample

/-- There is no entry point, an initial value calls a function, and one line has a statement with
two undeclared names before one that returns a truth value as a number. -/
def unchecked : String :=
  "int a = f();\nfun int f() \x7b\n  b = c; return true;\n\x7d\n"

end Sample

theorem compile_merges_mistaken :
    ∃ program, (lex Sample.unchecked).fault = none ∧
      parse (lex Sample.unchecked).tokens = .ok program ∧
      let lines := Source.lines Sample.unchecked
      let first := declarations "main" program
      let second := names "main" program
      let third := types "main" program
      (first.count = 2 ∧ second.count = 2 ∧ third.count = 1) ∧
        Report.Merges [first.reports lines, second.reports lines, third.reports lines]
          (compile {} Sample.unchecked).reports ∧
        (∀ r ∈ (compile {} Sample.unchecked).reports, r.problems ≠ []) ∧
        (compile {} Sample.unchecked).problemCount = first.count + second.count + third.count ∧
        first.count = Report.countProblems (first.reports lines) ∧
        second.count = Report.countProblems (second.reports lines) ∧
        third.count = Report.countProblems (third.reports lines) ∧
        if first.reports lines = [] ∧ second.reports lines = [] ∧ third.reports lines = [] then
          compile {} Sample.unchecked = lower {} program
        else (compile {} Sample.unchecked).stage = .checking := by
  have hlex : (lex Sample.unchecked).fault = none := by cbv
  obtain ⟨program, hparse, hcounts⟩ : ∃ program,
      parse (lex Sample.unchecked).tokens = .ok program ∧ (declarations "main" program).count = 2 ∧
        (names "main" program).count = 2 ∧ (types "main" program).count = 1 :=
    ⟨_, by cbv, by cbv, by cbv, by cbv⟩
  exact ⟨program, hlex, hparse, hcounts, @compile_merges {} Sample.unchecked program hlex hparse⟩

end ScalarMips
