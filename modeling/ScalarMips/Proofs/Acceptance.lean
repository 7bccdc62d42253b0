import ScalarMips.Compile
import ScalarMips.Proofs.TypeCheck

/-!
# Accepted programs

A program is accepted if none of the three checks finds anything. Compilation looks at a number
instead: how many problems there are in the merged reports of the checks. The two agree
(`countProblems_check`), because a finding is only ever made of at least one complaint (`Filed`) and
merging neither loses nor invents reports.
-/

namespace ScalarMips

/-- No check finds anything in a program. -/
structure Accepted (entry : String) (program : List Stmt) : Prop where
  /-- Only declarations stand at the top level, and there is an entry point. -/
  declarations : (Declarations.check entry program {}).findings = []
  /-- Names are declared before they are used. -/
  names : (Names.checkAll program
    { scopes := (Declarations.check entry program {}).state }).findings = []
  /-- Types are as their places ask for. -/
  types : (Types.checkAll program (Declarations.check entry program {}).state).findings = []

/-! ### Properties of walks -/

namespace Pass

variable {σ : Type} {p : Pass σ}

/-- A property of walks that is kept by the ways in which walks are put together. -/
structure Closed (P : Pass σ → Prop) : Prop where
  /-- It holds of a walk that looks at nothing. -/
  quiet : ∀ state, P { state }
  /-- It holds of looking at one statement. -/
  file : ∀ kind complaints state, P (file kind complaints state)
  /-- It holds of two walks one after the other if it holds of both. -/
  andThen : ∀ {first : Pass σ} {second : σ → Pass σ}, P first → P (second first.state) →
    P (first.andThen second)
  /-- It does not depend on what becomes of the state. -/
  map : ∀ {p : Pass σ} (f : σ → σ), P p → P (p.map f)

end Pass

namespace Declarations

variable {P : Pass Scopes → Prop} (hP : Pass.Closed P)
include hP

theorem closed_checkStmt (globals : Scopes) (stmt : Stmt) : P (checkStmt globals stmt) := by
  cases stmt with
  | function span head parameters body =>
    show P (declareFunction head parameters globals)
    unfold declareFunction
    split
    · exact hP.quiet _
    · exact hP.file _ _ _
  | var span head initial =>
    cases initial with
    | none => exact hP.quiet _
    | some initial => exact hP.file _ _ _
  | _ => exact hP.file _ _ _

theorem closed_checkAll (program : List Stmt) (globals : Scopes) :
    P (checkAll program globals) := by
  induction program generalizing globals with
  | nil => exact hP.quiet globals
  | cons stmt program ih => exact hP.andThen (closed_checkStmt hP globals stmt) (ih _)

end Declarations

namespace Names

variable {P : Pass State → Prop} (hP : Pass.Closed P)
include hP

mutual

theorem closed_checkStmt : ∀ (stmt : Stmt) (s : State), P (checkStmt stmt s)
  | .block _ body, s => hP.map State.pop (closed_checkAll body s.push)
  | .function _ _ _ body, _ =>
    hP.map State.pop (hP.andThen (hP.file _ _ _) (closed_checkAll body _))
  | .var .., _ => hP.file _ _ _
  | .assign .., _ => hP.file _ _ _
  | .conditional _ _ thenBranch none, _ =>
    hP.andThen (hP.file _ _ _) (hP.map State.pop (closed_checkStmt thenBranch _))
  | .conditional _ _ thenBranch (some elseBranch), _ => by
    refine hP.andThen (hP.andThen (hP.file _ _ _) ?_) ?_
    · exact hP.map State.pop (closed_checkStmt thenBranch _)
    · exact hP.map State.pop (closed_checkStmt elseBranch _)
  | .loop _ _ body, _ => hP.andThen (hP.file _ _ _) (hP.map State.pop (closed_checkStmt body _))
  | .evaluate .., _ => hP.file _ _ _
  | .return_ .., _ => hP.file _ _ _
  | .print .., _ => hP.file _ _ _

theorem closed_checkAll : ∀ (stmts : List Stmt) (s : State), P (checkAll stmts s)
  | [], s => hP.quiet s
  | stmt :: stmts, s => hP.andThen (closed_checkStmt stmt s) (closed_checkAll stmts _)

end

end Names

namespace Types

variable {P : Pass Scopes → Prop} (hP : Pass.Closed P)
include hP

theorem closed_checkExpr (value : Option Expr) (scopes : Scopes) : P (checkExpr value scopes) := by
  cases value with
  | none => exact hP.quiet scopes
  | some value => exact hP.file _ _ _

mutual

theorem closed_checkStmt : ∀ (stmt : Stmt) (s : Scopes), P (checkStmt stmt s)
  | .block _ body, s => hP.map Scopes.pop (closed_checkAll body s.push)
  | .function _ _ _ body, _ => hP.map Scopes.pop (closed_checkAll body _)
  | .var .., _ => hP.file _ _ _
  | .assign .., _ => hP.file _ _ _
  | .conditional _ _ thenBranch none, _ =>
    hP.andThen (hP.file _ _ _) (hP.map Scopes.pop (closed_checkStmt thenBranch _))
  | .conditional _ _ thenBranch (some elseBranch), _ => by
    refine hP.andThen (hP.andThen (hP.file _ _ _) ?_) ?_
    · exact hP.map Scopes.pop (closed_checkStmt thenBranch _)
    · exact hP.map Scopes.pop (closed_checkStmt elseBranch _)
  | .loop _ _ body, _ => hP.andThen (hP.file _ _ _) (hP.map Scopes.pop (closed_checkStmt body _))
  | .evaluate .., s => closed_checkExpr hP _ s
  | .return_ .., _ => hP.file _ _ _
  | .print _ _ value, s => closed_checkExpr hP value s

theorem closed_checkAll : ∀ (stmts : List Stmt) (s : Scopes), P (checkAll stmts s)
  | [], s => hP.quiet s
  | stmt :: stmts, s => hP.andThen (closed_checkStmt stmt s) (closed_checkAll stmts _)

end

end Types

/-! ### Findings have complaints -/

namespace Pass

variable {σ : Type}

/-- Every finding of a walk has a complaint. -/
def Filed (p : Pass σ) : Prop :=
  ∀ f ∈ p.findings, f.complaints ≠ []

theorem closed_filed : Closed (@Filed σ) where
  quiet _ _ h := absurd h List.not_mem_nil
  file kind complaints state f hf := by
    cases complaints with
    | nil => exact absurd hf List.not_mem_nil
    | cons c complaints =>
      obtain rfl := List.mem_singleton.1 hf
      exact List.cons_ne_nil c complaints
  andThen h h' := List.forall_mem_append.2 ⟨h, h'⟩
  map _ h := h

end Pass

theorem Declarations.filed_check (entry : String) (program : List Stmt) (globals : Scopes) :
    (check entry program globals).Filed := by
  refine Pass.closed_filed.andThen (closed_checkAll Pass.closed_filed program globals) ?_
  unfold checkEntry
  split
  · exact Pass.closed_filed.quiet _
  · intro f hf
    obtain rfl := List.mem_singleton.1 hf
    exact List.cons_ne_nil _ _

/-! ### Counting problems -/

theorem problems_quoting (kind : ErrorKind) (problems : List Problem) (source : List String) :
    (Report.quoting kind problems source).problems = problems := by
  simp only [Report.quoting]
  split <;> rfl

theorem problems_report (source : List String) (f : Finding) :
    (f.report source).problems = f.complaints.map Complaint.problem := by
  unfold Finding.report
  split
  · exact problems_quoting _ _ _
  · rfl

theorem countProblems_eq_zero {reports : List Report} :
    Report.countProblems reports = 0 ↔ ∀ r ∈ reports, r.problems = [] := by
  rw [Report.countProblems, List.length_eq_zero_iff, List.flatMap_eq_nil_iff]

/-- Merged reports are those that were made, in another order. -/
theorem mem_merge {passes : List (List Report)} {r : Report} :
    r ∈ Report.merge passes ↔ ∃ reports ∈ passes, r ∈ reports := by
  rw [Report.merge, (Report.sortOn_perm Report.startLine passes.flatten).mem_iff, List.mem_flatten]

/-- A walk whose reports have no problem has found nothing. -/
theorem findings_eq_nil_of_problems {σ : Type} {p : Pass σ} (hp : p.Filed) {source : List String}
    (h : ∀ r ∈ p.findings.map (Finding.report source), r.problems = []) : p.findings = [] := by
  refine List.eq_nil_iff_forall_not_mem.2 fun f hf ↦ ?_
  have hproblems := h _ (List.mem_map_of_mem hf)
  rw [problems_report] at hproblems
  exact hp f hf (List.map_eq_nil_iff.1 hproblems)

/-- The checks report no problem exactly when the program is accepted. -/
theorem countProblems_check {entry : String} {source : List String} {program : List Stmt} :
    Report.countProblems (Compile.check entry source program) = 0 ↔ Accepted entry program := by
  rw [countProblems_eq_zero]
  constructor
  · intro h
    have hpass : ∀ findings ∈ [(Declarations.check entry program {}).findings,
        (Names.checkAll program
          { scopes := (Declarations.check entry program {}).state }).findings,
        (Types.checkAll program (Declarations.check entry program {}).state).findings],
        ∀ r ∈ findings.map (Finding.report source), r.problems = [] := by
      intro findings hfindings r hr
      exact h r (mem_merge.2 ⟨_, List.mem_map_of_mem hfindings, hr⟩)
    refine ⟨?_, ?_, ?_⟩
    · exact findings_eq_nil_of_problems (Declarations.filed_check entry program {})
        (hpass _ List.mem_cons_self)
    · exact findings_eq_nil_of_problems (Names.closed_checkAll Pass.closed_filed program _)
        (hpass _ (List.mem_cons_of_mem _ List.mem_cons_self))
    · exact findings_eq_nil_of_problems (Types.closed_checkAll Pass.closed_filed program _)
        (hpass _ (List.mem_cons_of_mem _ (List.mem_cons_of_mem _ List.mem_cons_self)))
  · rintro ⟨hdeclarations, hnames, htypes⟩ r hr
    obtain ⟨reports, hreports, hr⟩ := mem_merge.1 hr
    rw [hdeclarations, hnames, htypes] at hreports
    obtain ⟨findings, hfindings, rfl⟩ := List.mem_map.1 hreports
    have hnil : findings = [] := by simpa using hfindings
    rw [hnil] at hr
    exact absurd hr List.not_mem_nil

/-! ### How far a source gets -/

theorem compile_of_fault {settings : Settings} {source : String} {fault : Located LexFault}
    (hlex : (lex source).fault = some fault) :
    compile settings source = .unreadable
      (Compile.single .lex fault.span fault.val.message (Source.lines source)) := by
  simp only [compile, hlex]

theorem compile_of_error {settings : Settings} {source : String} {fault : Located ParseFault}
    (hlex : (lex source).fault = none) (hparse : parse (lex source).tokens = .error fault) :
    compile settings source = .malformed
      (Compile.single .parse fault.span fault.val.message (Source.lines source)) := by
  simp only [compile, hlex, hparse]

theorem compile_of_ok {settings : Settings} {source : String} {program : List Stmt}
    (hlex : (lex source).fault = none) (hparse : parse (lex source).tokens = .ok program) :
    compile settings source =
      if Report.countProblems (Compile.check settings.entry (Source.lines source) program) = 0 then
        Compile.lower settings program
      else
        .rejected program.length
          (Compile.check settings.entry (Source.lines source) program) := by
  simp only [compile, hlex, hparse]

/-! ### What is known of an accepted program -/

section Accepted

variable {entry : String} {program : List Stmt}

theorem Accepted.nodup (h : Accepted entry program) : (functionNames program).Nodup :=
  (Declarations.check_cases h.declarations).2.1

theorem Accepted.entry_mem (h : Accepted entry program) : entry ∈ functionNames program :=
  (Declarations.check_cases h.declarations).2.2.1

theorem Accepted.scoped (h : Accepted entry program) (hplain : Unnested program) :
    ProgramScoped program [functionKinds program] :=
  scoped_of_accepted hplain h.declarations h.names

theorem Accepted.wellTyped (h : Accepted entry program) (hg : Grammatical program) :
    WellTyped program :=
  (types_findings_iff hg h.declarations h.names).1 h.types

end Accepted

end ScalarMips
