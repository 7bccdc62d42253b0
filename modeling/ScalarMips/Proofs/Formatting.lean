import ScalarMips.Proofs.Acceptance
import ScalarMips.Proofs.UnplacedChecks
import ScalarMips.Proofs.UnplacedReading

/-!
# The formatting of a source text

Blanks, comments and line breaks decide where tokens stand and nothing else. Two source texts with
the same tokens are therefore compiled alike (`Outcome.Alike`): up to the same stage, with the same
problems, and to the same assembly. Only the order of the reports, which follows the lines of the
text, and the lines that they quote may differ.

Each stage has been compared with the same stage on a tree without positions (`parse_unplaced`,
`outlines_unplacedAll`, `lower_unplacedAll`), and two texts with the same tokens have the same tree
without positions.
-/

namespace ScalarMips

/-! ### Notices -/

/-- The kind and the message of every problem in some reports. -/
def Report.notices (reports : List Report) : List (ErrorKind × String) :=
  reports.flatMap fun r ↦ r.problems.map fun p ↦ (r.kind, p.message)

theorem countProblems_eq_length (reports : List Report) :
    Report.countProblems reports = (Report.notices reports).length := by
  simp [Report.countProblems, Report.notices, List.length_flatMap]

/-- The kind and the message of every complaint in a finding that is outlined. -/
def noticesOf (outline : ErrorKind × List Issue) : List (ErrorKind × String) :=
  outline.2.map fun issue ↦ (outline.1, issue.message)

theorem kind_quoting (kind : ErrorKind) (problems : List Problem) (source : List String) :
    (Report.quoting kind problems source).kind = kind := by
  simp only [Report.quoting]
  split <;> rfl

theorem kind_report (source : List String) (f : Finding) : (f.report source).kind = f.kind := by
  unfold Finding.report
  split
  · exact kind_quoting _ _ _
  · rfl

theorem notices_report (source : List String) (findings : List Finding) :
    Report.notices (findings.map (Finding.report source)) =
      (findings.map Finding.outline).flatMap noticesOf := by
  rw [Report.notices, List.flatMap_map, List.flatMap_map]
  refine congrArg (List.flatMap · findings) (funext fun f ↦ ?_)
  rw [problems_report, kind_report, noticesOf, Finding.outline, issues, List.map_map, List.map_map]
  rfl

/-! ### Checks -/

namespace Compile

/-- What the checks find in a program, apart from positions. -/
def outlines (entry : String) (program : List Stmt) : List (ErrorKind × List Issue) :=
  let declarations := Declarations.check entry program {}
  let names := Names.checkAll program { scopes := declarations.state }
  let types := Types.checkAll program declarations.state
  declarations.findings.map Finding.outline ++ names.findings.map Finding.outline ++
    types.findings.map Finding.outline

theorem outlines_unplacedAll (entry : String) (program : List Stmt) :
    outlines entry (Stmt.unplacedAll program) = outlines entry program := by
  have hdeclarations := Declarations.check_unplaces entry program {}
  have hnames := Names.checkAll_unplaces program
    { scopes := (Declarations.check entry program {}).state }
  have htypes := Types.checkAll_unplaces program (Declarations.check entry program {}).state
  have hstate : (Declarations.check entry (Stmt.unplacedAll program) {}).state =
      (Declarations.check entry program {}).state.unplaced := hdeclarations.state
  simp only [outlines, hstate]
  exact congrArg₂ (· ++ ·) (congrArg₂ (· ++ ·) hdeclarations.findings hnames.findings)
    htypes.findings

/-- The problems that the checks report are those that they find. -/
theorem notices_check (entry : String) (source : List String) (program : List Stmt) :
    (Report.notices (check entry source program)).Perm
      ((outlines entry program).flatMap noticesOf) := by
  have hmerge := (Report.sortOn_perm Report.startLine
    ([(Declarations.check entry program {}).findings,
      (Names.checkAll program { scopes := (Declarations.check entry program {}).state }).findings,
      (Types.checkAll program (Declarations.check entry program {}).state).findings].map
        fun findings ↦ findings.map (Finding.report source)).flatten).flatMap_right
    fun r ↦ r.problems.map fun p ↦ (r.kind, p.message)
  refine hmerge.trans (.of_eq ?_)
  rw [← List.map_flatten]
  refine (notices_report source _).trans ?_
  simp [outlines]

end Compile

/-! ### Compilations -/

namespace Outcome

/-- The kind and the message of every problem that was found. -/
def notices (o : Outcome) : Multiset (ErrorKind × String) :=
  Report.notices o.reports

/-- Two compilations end alike. -/
structure Alike (o o' : Outcome) : Prop where
  /-- They reach the same stage. -/
  stage : o.stage = o'.stage
  /-- They find the same number of problems. -/
  problemCount : o.problemCount = o'.problemCount
  /-- They find the same problems. -/
  notices : o.notices = o'.notices
  /-- They fail to lower the program for the same reasons. -/
  failures : o.failures = o'.failures
  /-- They find the same number of declarations. -/
  declarations : o.declarations = o'.declarations
  /-- They describe the symbol tables in the same way. -/
  symbols : o.symbols = o'.symbols
  /-- They make the same assembly. -/
  assembly : o.assembly = o'.assembly

theorem Alike.refl (o : Outcome) : Alike o o :=
  ⟨rfl, rfl, rfl, rfl, rfl, rfl, rfl⟩

end Outcome

theorem notices_single (kind : ErrorKind) (span : Span) (message : String) (source : List String) :
    Report.notices [Compile.single kind span message source] = [(kind, message)] := by
  simp [Report.notices, Compile.single, problems_quoting, kind_quoting]

/-- Refusals with the same fault are alike. -/
theorem alike_malformed {fault fault' : Located ParseFault} (h : fault.val = fault'.val)
    (source source' : List String) :
    Outcome.Alike (.malformed (Compile.single .parse fault.span fault.val.message source))
      (.malformed (Compile.single .parse fault'.span fault'.val.message source')) := by
  have hnotices : Report.notices [Compile.single .parse fault.span fault.val.message source] =
      Report.notices [Compile.single .parse fault'.span fault'.val.message source'] := by
    rw [notices_single, notices_single, h]
  refine ⟨rfl, ?_, congrArg Multiset.ofList hnotices, rfl, rfl, rfl, rfl⟩
  have hlength := congrArg List.length hnotices
  rwa [← countProblems_eq_length, ← countProblems_eq_length] at hlength

/-- Programs that differ in positions are compiled alike. -/
theorem alike_of_unplacedAll {settings : Settings} (hs : settings.annotate = false)
    {program program' : List Stmt} (h : Stmt.unplacedAll program = Stmt.unplacedAll program')
    (source source' : List String) :
    Outcome.Alike
      (if Report.countProblems (Compile.check settings.entry source program) = 0 then
        Compile.lower settings program
      else .rejected program.length (Compile.check settings.entry source program))
      (if Report.countProblems (Compile.check settings.entry source' program') = 0 then
        Compile.lower settings program'
      else .rejected program'.length (Compile.check settings.entry source' program')) := by
  have houtlines : Compile.outlines settings.entry program =
      Compile.outlines settings.entry program' := by
    rw [← Compile.outlines_unplacedAll, h, Compile.outlines_unplacedAll]
  have hnotices : (Report.notices (Compile.check settings.entry source program)).Perm
      (Report.notices (Compile.check settings.entry source' program')) := by
    refine (Compile.notices_check settings.entry source program).trans ?_
    rw [houtlines]
    exact (Compile.notices_check settings.entry source' program').symm
  have hcount := hnotices.length_eq
  rw [← countProblems_eq_length, ← countProblems_eq_length] at hcount
  have hlower : Compile.lower settings program = Compile.lower settings program' := by
    rw [← Compile.lower_unplacedAll hs, h, Compile.lower_unplacedAll hs]
  have hlength : program.length = program'.length := by
    rw [← Stmt.length_unplacedAll, h, Stmt.length_unplacedAll]
  rw [hcount]
  split
  · rw [hlower]
    exact .refl _
  · exact ⟨rfl, hcount, Multiset.coe_eq_coe.2 hnotices, rfl, hlength, rfl, rfl⟩

/-- Two lists of tokens that agree in kinds and texts are the same without positions. -/
theorem unplaced_eq_of_spelling {tokens tokens' : List Token}
    (h : tokens.map (fun t ↦ (t.kind, t.text)) = tokens'.map fun t ↦ (t.kind, t.text)) :
    tokens.map Token.unplaced = tokens'.map Token.unplaced := by
  have hmap : ∀ ts : List Token, ts.map Token.unplaced =
      (ts.map fun t ↦ (t.kind, t.text)).map fun spelling ↦ ⟨spelling.1, spelling.2, {}⟩ := by
    intro ts
    rw [List.map_map]
    rfl
  rw [hmap, h, ← hmap]

/-- **Formatting does not matter.** Two source texts that can be cut into tokens of the same kinds
and texts are compiled alike, as long as statements are not annotated with their lines. -/
theorem compile_alike {settings : Settings} {source source' : String}
    (hs : settings.annotate = false) (hlex : (lex source).fault = none)
    (hlex' : (lex source').fault = none)
    (htokens : (lex source).tokens.map (fun t ↦ (t.kind, t.text)) =
      (lex source').tokens.map fun t ↦ (t.kind, t.text)) :
    Outcome.Alike (compile settings source) (compile settings source') := by
  have hparse := parse_unplaced (lex source).tokens
  rw [unplaced_eq_of_spelling htokens, parse_unplaced] at hparse
  cases hread : parse (lex source).tokens with
  | error fault =>
    cases hread' : parse (lex source').tokens with
    | error fault' =>
      rw [hread, hread'] at hparse
      rw [compile_of_error hlex hread, compile_of_error hlex' hread']
      exact alike_malformed (Except.error.inj hparse).symm _ _
    | ok program' =>
      rw [hread, hread'] at hparse
      cases hparse
  | ok program =>
    cases hread' : parse (lex source').tokens with
    | error fault' =>
      rw [hread, hread'] at hparse
      cases hparse
    | ok program' =>
      rw [hread, hread'] at hparse
      rw [compile_of_ok hlex hread, compile_of_ok hlex' hread']
      exact alike_of_unplacedAll hs (Except.ok.inj hparse).symm _ _

/-- A program with two problems, on one line. -/
def Sample.cramped : String := "fun int main(){return x+true;}"

/-- The same program on several lines, with comments. -/
def Sample.spacious : String :=
  "/* a program\n*/ fun int main ( ) // starts here\n  { return x  +  true ; }\n"

theorem compile_alike_spacious :
    (lex Sample.cramped).fault = none ∧ (lex Sample.spacious).fault = none ∧
      (lex Sample.cramped).tokens.map (fun t ↦ (t.kind, t.text)) =
        (lex Sample.spacious).tokens.map (fun t ↦ (t.kind, t.text)) ∧
      Outcome.Alike (compile {} Sample.cramped) (compile {} Sample.spacious) := by
  have hlex : (lex Sample.cramped).fault = none := by cbv
  have hlex' : (lex Sample.spacious).fault = none := by cbv
  have htokens : (lex Sample.cramped).tokens.map (fun t ↦ (t.kind, t.text)) =
      (lex Sample.spacious).tokens.map fun t ↦ (t.kind, t.text) := by cbv
  exact ⟨hlex, hlex', htokens, compile_alike rfl hlex hlex' htokens⟩

end ScalarMips
