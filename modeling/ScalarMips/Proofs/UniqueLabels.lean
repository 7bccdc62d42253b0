import ScalarMips.Proofs.Labels

/-!
# The labels of an assembly

Which labels a compilation defines, said of the source text. There are those of the global variables
and functions, whose names the renaming has made, an exit for every function, and two labels for
every conditional statement and every loop. The branches are counted in the text, since renaming
changes no more than names (`programBranches_flatten`).

The entry point keeps its name, and nothing keeps that name apart from the labels that are made up
later. Unless it is one of them, no label is defined twice (`compile_labels`). It can be one:
a function `f` gets the exit `f_0_exit`, and another one of that name can be the entry point
(`compile_labels_clash`).
-/

namespace ScalarMips

open Generate

/-! ### Branches have no names -/

mutual

theorem branches_unnamed : ∀ s : Stmt, branches s.unnamed = branches s
  | .block _ body => branchesAll_unnamed body
  | .conditional _ _ thenBranch none => congrArg (_ :: ·) (branches_unnamed thenBranch)
  | .conditional _ _ thenBranch (some elseBranch) => by
    rw [Stmt.unnamed, branches, branches, branches_unnamed thenBranch, branches_unnamed elseBranch]
  | .loop _ _ body => congrArg (_ :: ·) (branches_unnamed body)
  | .function .. => rfl
  | .var .. => rfl
  | .assign .. => rfl
  | .evaluate .. => rfl
  | .return_ .. => rfl
  | .print .. => rfl

theorem branchesAll_unnamed : ∀ body : List Stmt, branchesAll (Stmt.unnamedAll body) =
    branchesAll body
  | [] => rfl
  | first :: rest => by
    rw [Stmt.unnamedAll, branchesAll, branchesAll, branches_unnamed first, branchesAll_unnamed rest]

end

theorem programBranches_unnamedAll (program : List Stmt) :
    programBranches (Stmt.unnamedAll program) = programBranches program := by
  induction program with
  | nil => rfl
  | cons first rest ih =>
    cases first with
    | function span head parameters body =>
      exact congrArg₂ (· ++ ·) (branchesAll_unnamed body) ih
    | conditional span condition thenBranch elseBranch => cases elseBranch <;> exact ih
    | _ => exact ih

theorem programBranches_flatten (entry : String) (program : List Stmt) :
    programBranches (Renaming.flatten entry program) = programBranches program := by
  rw [← programBranches_unnamedAll, Renaming.unnamedAll_flatten, programBranches_unnamedAll]

/-! ### Compilations -/

/-- **Where labels can clash.** A compilation that succeeds gives the assembly of a code that
defines exactly the names of global variables and functions, the exits of the functions and the
labels of the branches in the text. If the branches can be numbered with words, no name is defined
twice exactly when the name of the entry point is neither an exit nor the label of a branch. -/
theorem compile_labels {settings : Settings} {source : String}
    (h : (compile settings source).succeeded) :
    ∃ program code flat labels, parse (lex source).tokens = .ok program ∧
      flat = Renaming.flatten settings.entry program ∧
      labels = (functionNames flat).map exitLabel ++ branchLabels (programBranches program) 0 ∧
      (compile settings source).assembly = Code.text code ∧
      (Code.names code).Perm (((Layout.build flat {}).table.vars.map Symbol.name) ++
        functionNames flat ++ labels) ∧
      ((programBranches program).length < 2 ^ 32 →
        ((Code.names code).Nodup ↔ settings.entry ∉ labels)) := by
  obtain ⟨program, code, hparse, haccepted, hcode, hassembly⟩ := exists_of_succeeded h
  have hflat := flattened_of_accepted (parse_grammatical hparse) haccepted
  have hlabels : innerLabels (Renaming.flatten settings.entry program) =
      (functionNames (Renaming.flatten settings.entry program)).map exitLabel ++
        branchLabels (programBranches program) 0 := by
    rw [innerLabels, programBranches_flatten]
  rw [program_eq_ok hflat] at hcode
  cases hcode
  refine ⟨program, _, _, _, hparse, rfl, hlabels, hassembly, names_program hflat hflat.stored.2,
    fun hn ↦ nodup_names_iff hflat hflat.stored.2 ?_⟩
  rw [programBranches_flatten]
  exact Nat.le_of_lt hn

/-- A loop in the entry point. -/
def Sample.looping : String := "fun int main() { while (true) {} }"

theorem compile_labels_loop :
    (compile {} Sample.looping).succeeded ∧
      ∃ code, (compile {} Sample.looping).assembly = Code.text code ∧
        (Code.names code).Perm ["main", "main_exit", "while_0_start", "while_0_end"] ∧
        (Code.names code).Nodup := by
  have hlex : (lex Sample.looping).fault = none := by cbv
  have hprogram : ∃ program, parse (lex Sample.looping).tokens = .ok program ∧
      Accepted "main" program ∧ programBranches program = [.loop] ∧
      functionNames (Renaming.flatten "main" program) = ["main"] ∧
      (Layout.build (Renaming.flatten "main" program) {}).table.vars = [] := by
    exact ⟨_, by cbv, ⟨by cbv, by cbv, by cbv⟩, by cbv, by cbv, by cbv⟩
  obtain ⟨program, hparse, haccepted, hbranches, hfunctions, hvars⟩ := hprogram
  have hsucceeded : (compile {} Sample.looping).succeeded :=
    succeeded_of_accepted hlex hparse haccepted
  obtain ⟨program', code, flat, labels, hparse', rfl, rfl, hassembly, hnames, hnodup⟩ :=
    compile_labels hsucceeded
  obtain rfl : program = program' := Except.ok.inj (hparse.symm.trans hparse')
  rw [hbranches, hfunctions] at hnames hnodup
  rw [hvars] at hnames
  exact ⟨hsucceeded, code, hassembly, hnames, (hnodup (by decide)).2 (by decide)⟩

/-- Two functions, the second of which has the name that the exit of the first one gets. -/
def Sample.clashing : String :=
  "fun int f() { return 0; }\nfun int f_0_exit() { return 0; }\n"

/-- The exit of a function and the entry point can have one name. -/
theorem compile_labels_clash :
    (compile { entry := "f_0_exit" } Sample.clashing).succeeded ∧
      ∃ code, (compile { entry := "f_0_exit" } Sample.clashing).assembly = Code.text code ∧
        Code.names code = ["f_0", "f_0_exit", "f_0_exit", "f_0_exit_exit"] := by
  have hlex : (lex Sample.clashing).fault = none := by cbv
  have hprogram : ∃ program, parse (lex Sample.clashing).tokens = .ok program ∧
      Accepted "f_0_exit" program ∧
      (Generate.program (Layout.build (Renaming.flatten "f_0_exit" program) {}).table
        { entry := "f_0_exit" } (Renaming.flatten "f_0_exit" program)).toOption.map Code.names =
          some ["f_0", "f_0_exit", "f_0_exit", "f_0_exit_exit"] :=
    ⟨_, by cbv, ⟨by cbv, by cbv, by cbv⟩, by cbv⟩
  obtain ⟨program, hparse, haccepted, hnames⟩ := hprogram
  have hsucceeded : (compile { entry := "f_0_exit" } Sample.clashing).succeeded :=
    succeeded_of_accepted hlex hparse haccepted
  obtain ⟨program', code, hparse', -, hcode, hassembly⟩ := exists_of_succeeded hsucceeded
  obtain rfl : program = program' := Except.ok.inj (hparse.symm.trans hparse')
  simp only [hcode, Except.toOption, Option.map_some, Option.some.injEq] at hnames
  exact ⟨hsucceeded, code, hassembly, hnames⟩

end ScalarMips
