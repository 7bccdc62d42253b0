import ScalarMips.CommandLine.Session
import ScalarMips.Proofs.Lowering

/-!
# What a run touches

A run of the compiler writes its output file and nothing else, and it writes that file only when
nothing can go wrong any more (`run_tidy`). A run that fails says so on the standard error and,
unless an output file was named, leaves the standard output alone; a compilation without an output
file prints the assembly there and nothing else.

All of this holds wherever paths lead. Several may lead to one file, and the output may be the file
that was read. A run that has to quote lines for ever does not end, and is the only kind that does
not.

Where progress is printed is decided in one place: all that is printed before the end of a run is
one text in the log (`beside_eq_log`, `Plan.Complains`), which keeps it off the stream of the
assembly.
-/

namespace ScalarMips

/-! ### The assembly and the symbol tables -/

/-- The assembly is the same whether or not the symbol tables are described. -/
theorem assembly_lower_dumpSymbols (settings : Settings) (dump : Bool) (program : List Stmt) :
    (Compile.lower { settings with dumpSymbols := dump } program).assembly =
      (Compile.lower settings program).assembly := by
  unfold Compile.lower
  dsimp only
  split
  · split <;> rfl
  · rfl

theorem assembly_compile_dumpSymbols (settings : Settings) (dump : Bool) (source : String) :
    (compile { settings with dumpSymbols := dump } source).assembly =
      (compile settings source).assembly := by
  unfold compile
  dsimp only
  split
  · rfl
  · split
    · rfl
    · split
      · exact assembly_lower_dumpSymbols settings dump _
      · rfl

namespace CommandLine

/-! ### Lines -/

/-- A text that ends with a line that is not empty. -/
def EndsLine (text : String) : Prop :=
  ∃ front line, text = front ++ line ++ "\n" ∧ line ≠ "" ∧ '\n' ∉ line.toList

theorem EndsLine.append {text : String} (h : EndsLine text) (before : String) :
    EndsLine (before ++ text) := by
  obtain ⟨front, line, rfl, hne, hline⟩ := h
  exact ⟨before ++ front, line, by simp only [String.append_assoc], hne, hline⟩

theorem endsLine_of_line (line : String) (hne : line ≠ "") (hline : '\n' ∉ line.toList) :
    EndsLine (line ++ "\n") :=
  ⟨"", line, by rw [String.empty_append], hne, hline⟩

theorem endsLine_message (e : UsageError) : EndsLine (e.message ++ "\n") := by
  cases e with
  | unknownOption argument =>
    have hquote := (endsLine_of_line "'." (by decide) (by decide)).append
      ("BAD-E1001 UnknownOption: unrecognised option '" ++ argument)
    rwa [← String.append_assoc] at hquote
  | missingOutput => exact endsLine_of_line _ (by decide +kernel) (by decide +kernel)
  | missingInput => exact endsLine_of_line _ (by decide +kernel) (by decide +kernel)
  | multipleInputs => exact endsLine_of_line _ (by decide +kernel) (by decide +kernel)
  | emptyEntry => exact endsLine_of_line _ (by decide +kernel) (by decide +kernel)

theorem endsLine_quoted (before : String) : EndsLine (before ++ "'.\n") :=
  (endsLine_of_line "'." (by decide) (by decide)).append before

theorem endsLine_haltText (outcome : Outcome) : EndsLine (haltText outcome) :=
  (endsLine_of_line "." (by decide) (by decide)).append _

/-! ### Streams -/

@[simp] theorem Transcript.out_append (first second : Transcript) :
    (first ++ second).out = first.out ++ second.out := rfl

@[simp] theorem Transcript.err_append (first second : Transcript) :
    (first ++ second).err = first.err ++ second.err := rfl

namespace Options

variable (o : Options)

theorem log_append (first second : String) :
    o.log first ++ o.log second = o.log (first ++ second) := by
  unfold log
  split
  · exact congrArg (Transcript.mk · (first ++ second)) String.empty_append
  · exact congrArg (Transcript.mk (first ++ second)) String.empty_append

theorem log_empty : o.log "" = {} := by
  unfold log
  split <;> rfl

theorem progress_eq_log (text : String) :
    o.progress text = o.log (if o.quiet then "" else text) := by
  unfold progress
  split
  · rw [log_empty]
  · rfl

theorem toStdout_iff : o.toStdout = true ↔ o.output = "" := by
  simp [toStdout]

theorem out_log {o : Options} (h : o.output = "") (text : String) : (o.log text).out = "" := by
  rw [log, if_pos (o.toStdout_iff.2 h)]
  rfl

theorem err_log {o : Options} (h : o.output = "") (text : String) : (o.log text).err = text := by
  rw [log, if_pos (o.toStdout_iff.2 h)]
  rfl

end Options

/-! ### Plans -/

/-- What is printed beside the assembly of a program. -/
def besideText (o : Options) (outcome : Outcome) : String :=
  (if o.quiet then "" else startText o) ++
    (if o.quiet then ""
      else "[notice] Checked " ++ outcome.declarations.repr ++ " top-level declarations.\n") ++
    if o.dumpSymbols then "[debug] Symbol tables:\n" ++ outcome.symbols else ""

/-- A plan that prints something, complains and ends. -/
def Plan.Complains (p : Plan) (o : Options) : Prop :=
  ∃ before complaint, EndsLine complaint ∧ p = .stop ⟨1, o.log before ++ .complain complaint⟩

theorem complains_of_none (o : Options) : (compilePlan o none).Complains o :=
  ⟨_, _, endsLine_quoted _, by rw [← o.progress_eq_log]; rfl⟩

/-- The reports have a text if the lines of each of them are quoted in the end. -/
theorem exists_texts_iff {reports : List Report} :
    (∃ texts, reports.mapM Report.render = some texts) ↔
      reports.all fun report ↦ report.lines.isSome := by
  induction reports with
  | nil => exact iff_of_true ⟨[], rfl⟩ rfl
  | cons report reports ih =>
    rw [List.all_cons, Bool.and_eq_true, ← ih, List.mapM_cons, Report.render]
    cases report.lines with
    | none => exact iff_of_false (by rintro ⟨_, ⟨⟩⟩) (fun h ↦ absurd h.1 Bool.false_ne_true)
    | some lines => cases reports.mapM Report.render <;> simp

theorem exists_reportText_iff {outcome : Outcome} :
    (∃ text, reportText outcome = some text) ↔ outcome.ends := by
  rw [Outcome.ends, ← exists_texts_iff, reportText]
  cases outcome.reports.mapM Report.render <;> simp

theorem ends_of_succeeded {outcome : Outcome} (h : outcome.succeeded) : outcome.ends := by
  cases outcome with
  | compiled => rfl
  | _ => cases h

/-- A compilation that fails in the end is complained about. -/
theorem complains_of_ends {o : Options} {source : String} (hends : (compile o.settings source).ends)
    (h : ¬ (compile o.settings source).succeeded) : (compilePlan o (some source)).Complains o := by
  have hstop (complaint : String) (outcome : Outcome) :
      (Plan.stop ⟨1, o.progress (startText o) ++
        .complain (complaint ++ haltText outcome)⟩).Complains o :=
    ⟨_, _, (endsLine_haltText outcome).append complaint, by rw [← o.progress_eq_log]⟩
  obtain ⟨text, htext⟩ := exists_reportText_iff.2 hends
  cases hcompile : compile o.settings source with
  | compiled declarations symbols assembly =>
    rw [hcompile] at h
    exact absurd rfl h
  | unlowered declarations symbols failures =>
    simp only [compilePlan, hcompile]
    exact hstop _ _
  | _ =>
    rw [hcompile] at htext
    simp only [compilePlan, hcompile, htext]
    exact hstop _ _

theorem compilePlan_of_not_ends {o : Options} {source : String}
    (h : ¬ (compile o.settings source).ends) : compilePlan o (some source) = .endless := by
  have htext : reportText (compile o.settings source) = none := by
    by_contra hsome
    exact h (exists_reportText_iff.1 (Option.ne_none_iff_exists'.1 hsome))
  cases hcompile : compile o.settings source with
  | compiled declarations symbols assembly => exact absurd (by rw [hcompile]; rfl) h
  | unlowered declarations symbols failures => exact absurd (by rw [hcompile]; rfl) h
  | _ =>
    rw [hcompile] at htext
    simp only [compilePlan, hcompile, htext]

/-- What is printed up to the assembly goes to the log. -/
theorem beside_eq_log (o : Options) (declarations : Nat) (symbols assembly : String) :
    o.progress (startText o) ++
        o.progress ("[notice] Checked " ++ declarations.repr ++ " top-level declarations.\n") ++
        (if o.dumpSymbols then o.log ("[debug] Symbol tables:\n" ++ symbols) else {}) =
      o.log (besideText o (.compiled declarations symbols assembly)) := by
  have hdump : (if o.dumpSymbols then o.log ("[debug] Symbol tables:\n" ++ symbols) else {}) =
      o.log (if o.dumpSymbols then "[debug] Symbol tables:\n" ++ symbols else "") := by
    split
    · rfl
    · rw [o.log_empty]
  rw [hdump, o.progress_eq_log, o.progress_eq_log, o.log_append, o.log_append]
  rfl

theorem compilePlan_of_succeeded {o : Options} {source : String}
    (h : (compile o.settings source).succeeded) :
    compilePlan o (some source) =
      if o.output = "" then
        .stop ⟨0, o.log (besideText o (compile o.settings source)) ++
          .print (compile o.settings source).assembly⟩
      else .write o.output (compile o.settings source).assembly
        ⟨0, o.log (besideText o (compile o.settings source) ++
          if o.quiet then "" else "[notice] Assembly written to " ++ o.output ++ ".\n")⟩
        ⟨1, o.log (besideText o (compile o.settings source)) ++
          .complain ("BAD-E3001 OutputWriteFailed: unable to open '" ++ o.output ++ "'.\n")⟩ := by
  cases hcompile : compile o.settings source with
  | compiled declarations symbols assembly =>
    simp only [compilePlan, hcompile, deliver, beside_eq_log o declarations symbols assembly,
      o.toStdout_iff]
    rw [o.progress_eq_log, o.log_append]
    rfl
  | _ =>
    rw [hcompile] at h
    cases h

/-! ### Files -/

namespace Files

variable {File : Type} [DecidableEq File] (files : Files File) (file : File) (content : String)

/-- A file that was written has the new content. -/
@[simp] theorem write_self : files.write file content file = some content :=
  if_pos rfl

/-- Every other file has the old one. -/
theorem write_of_ne {other : File} (h : other ≠ file) :
    files.write file content other = files other :=
  if_neg h

end Files

/-! ### Runs -/

/-- The options ask for a compilation. -/
def Options.Compiles (o : Options) : Prop :=
  o.help = false ∧ o.version = false

section

variable {File : Type} (paths : Paths File) (arguments : List String) (files : Files File)

/-- The arguments ask for a compilation that does not come to an end. -/
def Hangs : Prop :=
  ∃ o source, Options.parse arguments = .ok o ∧ o.Compiles ∧
    files.read? paths o.input = some source ∧ ¬ (compile o.settings source).ends

/-- The arguments ask for something that can be done. -/
def Succeeds : Prop :=
  ∃ o, Options.parse arguments = .ok o ∧
    (o.Compiles → ∃ source, files.read? paths o.input = some source ∧
      (compile o.settings source).succeeded ∧
      (o.output ≠ "" → ∃ file, paths.target? o.output = some file))

/-- A run that ends in some way has touched nothing but its output. -/
structure Tidy (ending : Ending) (after : Files File) : Prop where
  /-- It succeeds exactly if what the arguments ask for can be done. -/
  exit : ending.exit = 0 ↔ Succeeds paths arguments files
  /-- If it fails, all files are as they were. -/
  failed_files : ending.exit ≠ 0 → after = files
  /-- If it fails, it says so on the standard error. -/
  failed_err : ending.exit ≠ 0 → EndsLine ending.transcript.err
  /-- If it fails, it prints nothing on the standard output, unless an output file was named. -/
  failed_out : ending.exit ≠ 0 → ending.transcript.out = "" ∨
    ∃ o, Options.parse arguments = .ok o ∧ o.output ≠ ""
  /-- If it shows the help text or the version, all files are as they were. -/
  served : ∀ o, Options.parse arguments = .ok o → ¬ o.Compiles → after = files
  /-- If it compiles into a file, the file holds the assembly of what the input was before, and all
  other files are as they were. -/
  written : ∀ o, Options.parse arguments = .ok o → o.Compiles → o.output ≠ "" → ending.exit = 0 →
    ∃ source file, files.read? paths o.input = some source ∧
      (compile o.settings source).succeeded ∧ paths.target? o.output = some file ∧
      after file = some (compile o.settings source).assembly ∧
      ∀ other, other ≠ file → after other = files other
  /-- If it compiles without an output file, all files are as they were, the assembly is all that
  is printed on the standard output, whatever else is asked for, and all else is on the standard
  error. -/
  printed : ∀ o, Options.parse arguments = .ok o → o.Compiles → o.output = "" → ending.exit = 0 →
    ∃ source, files.read? paths o.input = some source ∧ (compile o.settings source).succeeded ∧
      after = files ∧
      (∀ dump, ending.transcript.out =
        (compile { entry := o.entry, dumpSymbols := dump, annotate := o.annotate }
          source).assembly) ∧
      ending.transcript.err = besideText o (compile o.settings source)

end

section

variable {File : Type} {paths : Paths File} {arguments : List String} {files : Files File}
  {o : Options}

/-- A run that could not have succeeded is tidy if it complains. -/
theorem tidy_of_failure {t : Transcript} (hfails : ¬ Succeeds paths arguments files)
    (herr : EndsLine t.err)
    (hout : t.out = "" ∨ ∃ o, Options.parse arguments = .ok o ∧ o.output ≠ "") :
    Tidy paths arguments files ⟨1, t⟩ files where
  exit := iff_of_false (by simp) hfails
  failed_files _ := rfl
  failed_err _ := herr
  failed_out _ := hout
  served _ _ _ := rfl
  written _ _ _ _ h := absurd h (by simp)
  printed _ _ _ _ h := absurd h (by simp)

theorem tidy_of_complaint {complaint : String} (hparse : Options.parse arguments = .ok o)
    (hfails : ¬ Succeeds paths arguments files) (hline : EndsLine complaint) (before : String) :
    Tidy paths arguments files ⟨1, o.log before ++ .complain complaint⟩ files := by
  refine tidy_of_failure hfails (hline.append _) ?_
  by_cases hout : o.output = ""
  · exact .inl (by rw [Transcript.out_append, Options.out_log hout]; rfl)
  · exact .inr ⟨o, hparse, hout⟩

theorem succeeds_iff (hparse : Options.parse arguments = .ok o) (hcompiles : o.Compiles) :
    Succeeds paths arguments files ↔ ∃ source, files.read? paths o.input = some source ∧
      (compile o.settings source).succeeded ∧
      (o.output ≠ "" → ∃ file, paths.target? o.output = some file) := by
  unfold Succeeds
  rw [hparse]
  constructor
  · rintro ⟨_, ⟨⟩, h⟩
    exact h hcompiles
  · exact fun h ↦ ⟨o, rfl, fun _ ↦ h⟩

theorem hangs_iff (hparse : Options.parse arguments = .ok o) (hcompiles : o.Compiles) :
    Hangs paths arguments files ↔ ∃ source, files.read? paths o.input = some source ∧
      ¬ (compile o.settings source).ends := by
  unfold Hangs
  rw [hparse]
  constructor
  · rintro ⟨_, source, ⟨⟩, -, h⟩
    exact ⟨source, h⟩
  · rintro ⟨source, h⟩
    exact ⟨o, source, rfl, hcompiles, h⟩

/-- A request for the help text or the version. -/
theorem tidy_of_served {text : String} (hparse : Options.parse arguments = .ok o)
    (hserved : ¬ o.Compiles) : Tidy paths arguments files ⟨0, .print text⟩ files where
  exit := iff_of_true rfl ⟨o, hparse, fun h ↦ absurd h hserved⟩
  failed_files h := absurd rfl h
  failed_err h := absurd rfl h
  failed_out h := absurd rfl h
  served _ _ _ := rfl
  written o' hparse' h := by
    cases hparse.symm.trans hparse'
    exact absurd h hserved
  printed o' hparse' h := by
    cases hparse.symm.trans hparse'
    exact absurd h hserved

/-- A compilation that prints the assembly. -/
theorem tidy_of_printed {source : String} (hparse : Options.parse arguments = .ok o)
    (hcompiles : o.Compiles) (hout : o.output = "")
    (hread : files.read? paths o.input = some source)
    (hsucceeded : (compile o.settings source).succeeded) :
    Tidy paths arguments files ⟨0, o.log (besideText o (compile o.settings source)) ++
      .print (compile o.settings source).assembly⟩ files where
  exit := iff_of_true rfl
    ((succeeds_iff hparse hcompiles).2 ⟨source, hread, hsucceeded, fun h ↦ absurd hout h⟩)
  failed_files h := absurd rfl h
  failed_err h := absurd rfl h
  failed_out h := absurd rfl h
  served _ _ _ := rfl
  written o' hparse' _ h := by
    cases hparse.symm.trans hparse'
    exact absurd hout h
  printed o' hparse' _ _ _ := by
    cases hparse.symm.trans hparse'
    refine ⟨source, hread, hsucceeded, rfl, fun dump ↦ ?_, ?_⟩
    · rw [Transcript.out_append, Options.out_log hout]
      exact String.empty_append.trans (assembly_compile_dumpSymbols o.settings dump source).symm
    · rw [Transcript.err_append, Options.err_log hout]
      exact String.append_empty

/-- A compilation that writes the assembly to a file. -/
theorem tidy_of_written [DecidableEq File] {source : String} {file : File} {t : Transcript}
    (hparse : Options.parse arguments = .ok o) (hcompiles : o.Compiles) (hout : o.output ≠ "")
    (hread : files.read? paths o.input = some source)
    (hsucceeded : (compile o.settings source).succeeded)
    (htarget : paths.target? o.output = some file) :
    Tidy paths arguments files ⟨0, t⟩
      (files.write file (compile o.settings source).assembly) where
  exit := iff_of_true rfl
    ((succeeds_iff hparse hcompiles).2 ⟨source, hread, hsucceeded, fun _ ↦ ⟨file, htarget⟩⟩)
  failed_files h := absurd rfl h
  failed_err h := absurd rfl h
  failed_out h := absurd rfl h
  served o' hparse' h := by
    cases hparse.symm.trans hparse'
    exact absurd hcompiles h
  written o' hparse' _ _ _ := by
    cases hparse.symm.trans hparse'
    exact ⟨source, file, hread, hsucceeded, htarget, files.write_self file _,
      fun _ ↦ files.write_of_ne file _⟩
  printed o' hparse' _ h := by
    cases hparse.symm.trans hparse'
    exact absurd h hout

/-- The plan of arguments that ask for a compilation. -/
theorem plan_of_compiles (hparse : Options.parse arguments = .ok o) (hcompiles : o.Compiles)
    (read : String → Option String) : plan arguments read = compilePlan o (read o.input) := by
  simp [plan, hparse, hcompiles.1, hcompiles.2]

variable [DecidableEq File]

/-- Arguments that are no options. -/
theorem exists_tidy_of_error {e : UsageError} (hparse : Options.parse arguments = .error e) :
    ∃ ending after, run paths arguments files = some (ending, after) ∧
      Tidy paths arguments files ending after := by
  have hrun : run paths arguments files = some (⟨1, .complain (e.message ++ "\n")⟩, files) := by
    simp only [run, plan, hparse]
  have hfails : ¬ Succeeds paths arguments files := fun ⟨_, ho, _⟩ ↦ by
    cases hparse.symm.trans ho
  exact ⟨_, _, hrun, tidy_of_failure hfails (endsLine_message e) (.inl rfl)⟩

/-- Arguments that ask for the help text or the version. -/
theorem exists_tidy_of_not_compiles (hparse : Options.parse arguments = .ok o)
    (hserved : ¬ o.Compiles) :
    ∃ ending after, run paths arguments files = some (ending, after) ∧
      Tidy paths arguments files ending after := by
  have hrun : ∃ text, run paths arguments files = some (⟨0, .print text⟩, files) := by
    cases hhelp : o.help with
    | true => exact ⟨helpText, by simp [run, plan, hparse, hhelp]⟩
    | false =>
      cases hversion : o.version with
      | true => exact ⟨versionText, by simp [run, plan, hparse, hhelp, hversion]⟩
      | false => exact absurd ⟨hhelp, hversion⟩ hserved
  obtain ⟨text, hrun⟩ := hrun
  exact ⟨_, _, hrun, tidy_of_served hparse hserved⟩

/-- A compilation that comes to an end without assembly, or has no input. -/
theorem exists_tidy_of_complains (hparse : Options.parse arguments = .ok o)
    (hcompiles : o.Compiles) (hfails : ¬ Succeeds paths arguments files)
    (hplan : (compilePlan o (files.read? paths o.input)).Complains o) :
    ∃ ending after, run paths arguments files = some (ending, after) ∧
      Tidy paths arguments files ending after := by
  obtain ⟨before, complaint, hline, hplan⟩ := hplan
  rw [run, plan_of_compiles hparse hcompiles, hplan]
  exact ⟨_, _, rfl, tidy_of_complaint hparse hfails hline before⟩

/-- A compilation that has assembly to deliver. -/
theorem exists_tidy_of_succeeded {source : String} (hparse : Options.parse arguments = .ok o)
    (hcompiles : o.Compiles) (hread : files.read? paths o.input = some source)
    (hsucceeded : (compile o.settings source).succeeded) :
    ∃ ending after, run paths arguments files = some (ending, after) ∧
      Tidy paths arguments files ending after := by
  rw [run, plan_of_compiles hparse hcompiles, hread, compilePlan_of_succeeded hsucceeded]
  by_cases hout : o.output = ""
  · rw [if_pos hout]
    exact ⟨_, _, rfl, tidy_of_printed hparse hcompiles hout hread hsucceeded⟩
  · rw [if_neg hout]
    dsimp only
    cases htarget : paths.target? o.output with
    | some file =>
      exact ⟨_, _, rfl, tidy_of_written hparse hcompiles hout hread hsucceeded htarget⟩
    | none =>
      have hfails : ¬ Succeeds paths arguments files := by
        rw [succeeds_iff hparse hcompiles, htarget]
        rintro ⟨_, -, -, hfile⟩
        obtain ⟨file, hfile⟩ := hfile hout
        cases hfile
      exact ⟨_, _, rfl, tidy_of_complaint hparse hfails (endsLine_quoted _) _⟩

/-- **A run touches nothing but its output.** Wherever paths lead, a run that is asked for a
compilation without an end does not end, and every other run ends and is tidy. -/
theorem run_tidy (paths : Paths File) (arguments : List String) (files : Files File) :
    (Hangs paths arguments files ∧ run paths arguments files = none) ∨
      (¬ Hangs paths arguments files ∧ ∃ ending after,
        run paths arguments files = some (ending, after) ∧
          Tidy paths arguments files ending after) := by
  cases hparse : Options.parse arguments with
  | error e =>
    refine .inr ⟨fun ⟨_, _, ho, _⟩ ↦ ?_, exists_tidy_of_error hparse⟩
    cases hparse.symm.trans ho
  | ok o =>
    by_cases hcompiles : o.Compiles
    · rw [hangs_iff hparse hcompiles]
      cases hread : files.read? paths o.input with
      | none =>
        have hfails : ¬ Succeeds paths arguments files := by
          rw [succeeds_iff hparse hcompiles, hread]
          rintro ⟨_, ⟨⟩, -⟩
        exact .inr ⟨by rintro ⟨_, ⟨⟩, -⟩,
          exists_tidy_of_complains hparse hcompiles hfails (hread ▸ complains_of_none o)⟩
      | some source =>
        by_cases hends : (compile o.settings source).ends
        · refine .inr ⟨by rintro ⟨_, ⟨⟩, hnever⟩; exact hnever hends, ?_⟩
          by_cases hsucceeded : (compile o.settings source).succeeded
          · exact exists_tidy_of_succeeded hparse hcompiles hread hsucceeded
          · have hfails : ¬ Succeeds paths arguments files := by
              rw [succeeds_iff hparse hcompiles, hread]
              rintro ⟨_, ⟨⟩, h, -⟩
              exact hsucceeded h
            exact exists_tidy_of_complains hparse hcompiles hfails
              (hread ▸ complains_of_ends hends hsucceeded)
        · have hrun : run paths arguments files = none := by
            rw [run, plan_of_compiles hparse hcompiles, hread, compilePlan_of_not_ends hends]
          exact .inl ⟨⟨source, rfl, hends⟩, hrun⟩
    · refine .inr ⟨fun ⟨o', _, ho', hcompiles', _⟩ ↦ ?_,
        exists_tidy_of_not_compiles hparse hcompiles⟩
      cases hparse.symm.trans ho'
      exact hcompiles hcompiles'

end

namespace Sample

/-- Paths on which a dot and a slash in front of a name make no difference. -/
def dotted : Paths String :=
  let name path := ((Options.following? "./" path).getD path)
  { source? := fun path ↦ some (name path), target? := fun path ↦ some (name path) }

/-- The shortest program. -/
def shortest : String := "fun int main() \x7b return 0; \x7d"

/-- A file with a program, beside another one. -/
def programFiles : Files String :=
  fun name ↦ if name = "p" then some shortest else if name = "q" then some "kept" else none

end Sample

/-- The output is the input file under another name. What it holds in the end is the assembly of
what it held before. -/
theorem run_tidy_overwriting :
    ∃ ending after,
      run Sample.dotted ["-o", "./p", "p"] Sample.programFiles = some (ending, after) ∧
      Tidy Sample.dotted ["-o", "./p", "p"] Sample.programFiles ending after ∧ ending.exit = 0 ∧
      after "p" = some (compile {} Sample.shortest).assembly ∧ after "q" = some "kept" := by
  have hparse : Options.parse ["-o", "./p", "p"] = .ok { input := "p", output := "./p" } := by cbv
  have hread : Sample.programFiles.read? Sample.dotted "p" = some Sample.shortest := by cbv
  have htarget : Sample.dotted.target? "./p" = some "p" := by cbv
  have hlex : (lex Sample.shortest).fault = none := by cbv
  obtain ⟨program, hprogram, haccepted⟩ : ∃ program,
      parse (lex Sample.shortest).tokens = .ok program ∧ Accepted "main" program :=
    ⟨_, by cbv, ⟨by cbv, by cbv, by cbv⟩⟩
  have hsucceeded : (compile {} Sample.shortest).succeeded :=
    succeeded_of_accepted hlex hprogram haccepted
  obtain ⟨⟨o, source, ho, -, hsource, hnever⟩, -⟩ | ⟨-, ending, after, hrun, htidy⟩ :=
    run_tidy Sample.dotted ["-o", "./p", "p"] Sample.programFiles
  · cases hparse.symm.trans ho
    cases hread.symm.trans hsource
    exact absurd (ends_of_succeeded hsucceeded) hnever
  · have hexit : ending.exit = 0 := htidy.exit.2
      ⟨_, hparse, fun _ ↦ ⟨_, hread, hsucceeded, fun _ ↦ ⟨_, htarget⟩⟩⟩
    obtain ⟨source, file, hsource, -, hfile, hwritten, hkept⟩ :=
      htidy.written _ hparse ⟨rfl, rfl⟩ (by decide) hexit
    cases hread.symm.trans hsource
    cases htarget.symm.trans hfile
    exact ⟨ending, after, hrun, htidy, hexit, hwritten, hkept "q" (by decide)⟩

end CommandLine

end ScalarMips
