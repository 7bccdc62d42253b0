import ScalarMips.Proofs.Execution
import ScalarMips.Proofs.Lowering

/-!
# The names that generated code defines

The names are those of global variables and functions, the exits of the functions and the labels of
branches: two for every conditional statement and every loop, which are numbered in the order of the
text (`branchLabels`). What follows the last separator of a name tells the kinds apart (`Ends`): a
number, the word of an exit, or the word of a place in a branch. The labels of branches have
different numbers (`Branches`), like the names that the renaming makes.

So no name is defined twice in the code of a flattened program, as long as the branches can be
numbered with words and the entry point, the only name that is not made up, is not that of an exit
or a branch (`nodup_names_iff`).
-/

namespace ScalarMips.Generate

/-! ### The end of a name -/

/-- What follows the last separator of a name. -/
def Ends (name : String) (last : List Char) : Prop :=
  '_' ∉ last ∧ ∃ start, name.toList = start ++ '_' :: last

theorem Ends.unique {name : String} {a b : List Char} (ha : Ends name a) (hb : Ends name b) :
    a = b := by
  obtain ⟨ha, start, hname⟩ := ha
  obtain ⟨hb, start', hname'⟩ := hb
  exact (eq_of_append_separator ha hb (hname.symm.trans hname')).2

theorem ends_numbered (name : String) (n : Nat) :
    Ends (Renaming.numbered name n) n.repr.toList :=
  ⟨separator_notMem_repr n, name.toList, Renaming.toList_numbered name n⟩

theorem toList_exitLabel (f : String) :
    (exitLabel f).toList = f.toList ++ '_' :: ['e', 'x', 'i', 't'] := by
  simp [exitLabel]

theorem ends_exitLabel (f : String) : Ends (exitLabel f) ['e', 'x', 'i', 't'] :=
  ⟨by decide, f.toList, toList_exitLabel f⟩

theorem eq_of_exitLabel {f g : String} (h : exitLabel f = exitLabel g) : f = g := by
  have hlists := congrArg String.toList h
  rw [toList_exitLabel, toList_exitLabel] at hlists
  exact String.toList_injective (List.append_cancel_right hlists)

theorem toList_branchLabel (kind place : String) (n : UInt32) :
    (branchLabel kind n place).toList =
      (kind.toList ++ '_' :: n.toNat.repr.toList) ++ '_' :: place.toList := by
  simp [branchLabel, Numeral.ofSize]

/-- The number can be read off the label of a branch. -/
theorem eq_of_branchLabel {kind kind' place place' : String} {n m : UInt32}
    (hplace : '_' ∉ place.toList) (hplace' : '_' ∉ place'.toList)
    (h : branchLabel kind n place = branchLabel kind' m place') : n = m ∧ place = place' := by
  have hlists := congrArg String.toList h
  rw [toList_branchLabel, toList_branchLabel] at hlists
  obtain ⟨hstart, hlast⟩ := eq_of_append_separator hplace hplace' hlists
  have hdigits :=
    (eq_of_append_separator (separator_notMem_repr _) (separator_notMem_repr _) hstart).2
  exact ⟨UInt32.toNat_inj.1 (eq_of_toList_repr hdigits), String.toList_injective hlast⟩

/-- A number ends in a digit and no word does. -/
theorem repr_ne_word {n : Nat} {c : Char} {word : List Char} (h : c.isDigit = false) :
    n.repr.toList ≠ c :: word := by
  intro heq
  have hmem : c ∈ n.repr.toList := heq ▸ List.mem_cons_self
  rw [Nat.toList_repr] at hmem
  have hdigit := Nat.isDigit_of_mem_toDigits (by decide) (by decide) hmem
  rw [h] at hdigit
  cases hdigit

/-! ### Labels of branches -/

/-- The words for the places in a branch. -/
def places : List String := ["else", "end", "start"]

theorem separator_notMem_place {place : String} (h : place ∈ places) : '_' ∉ place.toList := by
  simp only [places, List.mem_cons, List.not_mem_nil, or_false] at h
  rcases h with rfl | rfl | rfl <;> decide

/-- Distinct labels of branches that are numbered from `lo` up to `hi`. -/
structure Branches (lo hi : Nat) (names : List String) : Prop where
  /-- No label is there twice. -/
  nodup : names.Nodup
  /-- Every label has a number between the bounds. -/
  numbered : ∀ u ∈ names, ∃ kind n, ∃ place ∈ places,
    u = branchLabel kind (UInt32.ofNat n) place ∧ lo ≤ n ∧ n < hi

namespace Branches

variable {lo mid hi : Nat} {first second names : List String}

theorem nil (lo hi : Nat) : Branches lo hi [] :=
  ⟨List.nodup_nil, fun _ h ↦ absurd h List.not_mem_nil⟩

/-- Labels with different numbers are different. -/
theorem append (h : Branches lo mid first) (h' : Branches mid hi second) (hlo : lo ≤ mid)
    (hmid : mid ≤ hi) (hhi : hi ≤ 2 ^ 32) : Branches lo hi (first ++ second) := by
  refine ⟨List.nodup_append.2 ⟨h.nodup, h'.nodup, fun u hu v hv heq ↦ ?_⟩, fun u hu ↦ ?_⟩
  · obtain ⟨kind, n, place, hplace, rfl, -, hn⟩ := h.numbered u hu
    obtain ⟨kind', m, place', hplace', rfl, hm, hm'⟩ := h'.numbered v hv
    have hnumbers := (eq_of_branchLabel (separator_notMem_place hplace)
      (separator_notMem_place hplace') heq).1
    have hvalues := congrArg UInt32.toNat hnumbers
    simp only [UInt32.toNat_ofNat'] at hvalues
    omega
  · rcases List.mem_append.1 hu with hu | hu
    · obtain ⟨kind, n, place, hplace, hlabel, hn, hn'⟩ := h.numbered u hu
      exact ⟨kind, n, place, hplace, hlabel, hn, by omega⟩
    · obtain ⟨kind, n, place, hplace, hlabel, hn, hn'⟩ := h'.numbered u hu
      exact ⟨kind, n, place, hplace, hlabel, by omega, hn'⟩

/-- The two labels of one branch. -/
theorem pair (kind : String) (n : Nat) {a b : String} (ha : a ∈ places) (hb : b ∈ places)
    (hne : a ≠ b) :
    Branches n (n + 1)
      [branchLabel kind (UInt32.ofNat n) a, branchLabel kind (UInt32.ofNat n) b] := by
  have hlabels : branchLabel kind (UInt32.ofNat n) a ≠ branchLabel kind (UInt32.ofNat n) b :=
    fun heq ↦ hne
      (eq_of_branchLabel (separator_notMem_place ha) (separator_notMem_place hb) heq).2
  refine ⟨by simpa using hlabels, fun u hu ↦ ?_⟩
  rcases List.mem_cons.1 hu with rfl | hu
  · exact ⟨kind, n, a, ha, rfl, by omega, by omega⟩
  · exact ⟨kind, n, b, hb, List.mem_singleton.1 hu, by omega, by omega⟩

end Branches

/-- What has labels of its own in a function. -/
inductive BranchKind where
  /-- A conditional statement. -/
  | conditional
  /-- A loop. -/
  | loop
  deriving DecidableEq

/-- The labels of a branch: where its other part begins, or where the loop goes back to, and where
it ends. -/
def BranchKind.labels (n : UInt32) : BranchKind → List String
  | conditional => [branchLabel "if" n "else", branchLabel "if" n "end"]
  | loop => [branchLabel "while" n "start", branchLabel "while" n "end"]

/-- The labels of branches that are numbered from `n` on. -/
def branchLabels : List BranchKind → Nat → List String
  | [], _ => []
  | kind :: kinds, n => kind.labels (UInt32.ofNat n) ++ branchLabels kinds (n + 1)

theorem branchLabels_append (first second : List BranchKind) (n : Nat) :
    branchLabels (first ++ second) n =
      branchLabels first n ++ branchLabels second (n + first.length) := by
  induction first generalizing n with
  | nil => rfl
  | cons kind first ih =>
    rw [List.cons_append, branchLabels, branchLabels, ih, List.append_assoc, List.length_cons,
      Nat.add_right_comm, Nat.add_assoc n]

/-- There are as many numbers as words. -/
theorem branches_branchLabels (kinds : List BranchKind) {n : Nat} (h : n + kinds.length ≤ 2 ^ 32) :
    Branches n (n + kinds.length) (branchLabels kinds n) := by
  induction kinds generalizing n with
  | nil => exact .nil _ _
  | cons kind kinds ih =>
    rw [List.length_cons, Nat.add_comm kinds.length, ← Nat.add_assoc] at h ⊢
    refine Branches.append ?_ (ih h) (Nat.le_succ n) (Nat.le_add_right _ _) h
    cases kind with
    | conditional => exact .pair "if" n (by decide) (by decide) (by decide)
    | loop => exact .pair "while" n (by decide) (by decide) (by decide)

mutual

/-- The conditional statements and loops in a statement, in the order of the text. A nested function
is not entered. -/
def branches : Stmt → List BranchKind
  | .block _ body => branchesAll body
  | .conditional _ _ thenBranch none => .conditional :: branches thenBranch
  | .conditional _ _ thenBranch (some elseBranch) =>
    .conditional :: (branches thenBranch ++ branches elseBranch)
  | .loop _ _ body => .loop :: branches body
  | .function .. => []
  | .var .. => []
  | .assign .. => []
  | .evaluate .. => []
  | .return_ .. => []
  | .print .. => []
termination_by structural stmt => stmt

/-- The conditional statements and loops in statements. -/
def branchesAll : List Stmt → List BranchKind
  | [] => []
  | stmt :: stmts => branches stmt ++ branchesAll stmts
termination_by structural stmts => stmts

end

mutual

@[simp] theorem length_branches : ∀ s : Stmt, (branches s).length = branchCount s
  | .block _ body => length_branchesAll body
  | .conditional _ _ thenBranch none => by
    rw [branches, branchCount, List.length_cons, length_branches thenBranch, Nat.add_comm]
  | .conditional _ _ thenBranch (some elseBranch) => by
    rw [branches, branchCount, List.length_cons, List.length_append, length_branches thenBranch,
      length_branches elseBranch]
    omega
  | .loop _ _ body => by
    rw [branches, branchCount, List.length_cons, length_branches body, Nat.add_comm]
  | .function .. => rfl
  | .var .. => rfl
  | .assign .. => rfl
  | .evaluate .. => rfl
  | .return_ .. => rfl
  | .print .. => rfl

@[simp] theorem length_branchesAll : ∀ body : List Stmt,
    (branchesAll body).length = branchCountAll body
  | [] => rfl
  | first :: rest => by
    rw [branchesAll, branchCountAll, List.length_append, length_branches first,
      length_branchesAll rest]

end

/-- The conditional statements and loops in the functions of a program. -/
def programBranches (program : List Stmt) : List BranchKind :=
  (functionDecls program).flatMap fun f ↦ branchesAll f.body

/-! ### Expressions and statements -/

theorem names_instructions (block : List Instruction) :
    Code.names (Emission.ofInstructions block).code = [] := by
  induction block with
  | nil => rfl
  | cons _ _ ih => exact ih

theorem names_label (name : String) : Code.names (Emission.label name).code = [name] := rfl

theorem names_remark (c : Context) (s : Stmt) : Code.names (remark c s).code = [] := by
  unfold remark
  split <;> rfl

mutual

theorem names_expr (c : Context) : ∀ e : Expr, Code.names (expr c e).code = []
  | .literal _ value => by
    rw [expr]
    split
    · exact names_instructions _
    · rfl
  | .var _ name => by
    rw [expr]
    split
    · exact names_instructions _
    · rfl
  | .unary _ op operand => by
    rw [expr]
    split
    · rw [Emission.code_append, Code.names_append, names_expr c operand, names_instructions]
      rfl
    · rw [Emission.code_append, Code.names_append, names_expr c operand]
      rfl
  | .binary _ op left right => by
    rw [expr]
    split
    · rw [Emission.code_append, Emission.code_append, Code.names_append, Code.names_append,
        names_expr c left, names_expr c right, names_instructions]
      rfl
    · rw [Emission.code_append, Emission.code_append, Code.names_append, Code.names_append,
        names_expr c left, names_expr c right]
      rfl
  | .call _ name arguments => by
    rw [expr]
    split
    · rw [Emission.code_append, Code.names_append, names_arguments c arguments, names_instructions]
      rfl
    · rfl

theorem names_arguments (c : Context) : ∀ es : List Expr, Code.names (argumentsCode c es).code = []
  | [] => rfl
  | e :: es => by
    rw [argumentsCode, Emission.code_append, Code.names_append, names_arguments c es,
      names_expr c e]
    rfl

end

theorem names_store (c : Context) (name : String) (value : Option Expr) :
    Code.names (storeCode c name value).code = [] := by
  unfold storeCode
  split
  · rfl
  · rw [Emission.code_append, Code.names_append, names_expr, names_instructions]
    rfl
  · exact names_instructions _

theorem names_condition (c : Context) (condition : Expr) (otherwise : String) :
    Code.names (conditionCode c condition otherwise).code = [] := by
  rw [conditionCode, Emission.code_append, Code.names_append, names_expr, names_instructions]
  rfl

theorem names_print (c : Context) (ending : PrintEnd) (value : Option Expr) :
    Code.names (printCode c ending value).code = [] := by
  cases value with
  | none =>
    rw [printCode, Emission.code_append, Code.names_append, names_instructions]
    rfl
  | some value =>
    simp only [printCode, Emission.code_append, Code.names_append, names_expr, names_instructions]
    rfl

/-- The labels of a conditional statement stand before and after its second branch. -/
theorem perm_branch (a b : String) (first second : List String) :
    ([a, b] ++ first ++ second).Perm (first ++ [a] ++ second ++ [b]) := by
  have hmiddle : (first ++ [a] ++ second).Perm (a :: (first ++ second)) := by
    rw [List.append_assoc]
    exact List.perm_middle
  have hlast := (hmiddle.append_right [b]).trans (List.perm_append_singleton b _)
  exact ((List.Perm.swap b a _).trans hlast.symm)

mutual

/-- The labels of a statement that is generated for the number `n`. A branch takes its number before
what is inside of it. -/
theorem names_stmt (c : Context) : ∀ (s : Stmt) (n : Nat),
    (Code.names (stmt c s (UInt32.ofNat n)).code).Perm (branchLabels (branches s) n)
  | .block _ body, n => by
    rw [stmt, Emission.code_append, Code.names_append, names_remark]
    exact names_stmts c body n
  | .function .., n => by
    rw [stmt, Emission.code_append, Code.names_append, names_remark]
    exact .nil
  | .var .., n => by
    rw [stmt, Emission.code_append, Code.names_append, names_remark, names_store]
    exact .nil
  | .assign .., n => by
    rw [stmt, Emission.code_append, Code.names_append, names_remark, names_store]
    exact .nil
  | .conditional _ _ thenBranch none, n => by
    have hthen := names_stmt c thenBranch (n + 1)
    rw [UInt32.ofNat_add] at hthen
    simp only [stmt, Emission.code_append, Code.names_append, names_remark, names_condition,
      names_instructions, names_label, List.nil_append, List.append_nil]
    rw [branches, branchLabels, List.append_assoc]
    exact (hthen.append_right _).trans List.perm_append_comm
  | .conditional _ _ thenBranch (some elseBranch), n => by
    have hthen := names_stmt c thenBranch (n + 1)
    have helse := names_stmt c elseBranch (n + 1 + branchCount thenBranch)
    simp only [UInt32.ofNat_add] at hthen helse
    simp only [stmt, Emission.code_append, Code.names_append, names_remark, names_condition,
      names_instructions, names_label, List.nil_append, List.append_nil]
    rw [branches, branchLabels, branchLabels_append, length_branches, ← List.append_assoc]
    refine .trans ?_ (perm_branch _ _ _ _).symm
    exact ((hthen.append_right _).append helse).append_right _
  | .loop _ _ body, n => by
    have hbody := names_stmt c body (n + 1)
    rw [UInt32.ofNat_add] at hbody
    simp only [stmt, Emission.code_append, Code.names_append, names_remark, names_condition,
      names_instructions, names_label, List.nil_append, List.append_nil]
    rw [branches, branchLabels, List.append_assoc]
    exact .cons _ ((hbody.append_right _).trans List.perm_append_comm)
  | .evaluate .., n => by
    rw [stmt, Emission.code_append, Emission.code_append, Code.names_append, Code.names_append,
      names_remark, names_expr, names_instructions]
    exact .nil
  | .return_ .., n => by
    rw [stmt, Emission.code_append, Emission.code_append, Code.names_append, Code.names_append,
      names_remark, names_expr, names_instructions]
    exact .nil
  | .print .., n => by
    rw [stmt, Emission.code_append, Code.names_append, names_remark, names_print]
    exact .nil

theorem names_stmts (c : Context) : ∀ (body : List Stmt) (n : Nat),
    (Code.names (stmts c body (UInt32.ofNat n)).code).Perm (branchLabels (branchesAll body) n)
  | [], _ => .nil
  | first :: rest, n => by
    have hrest := names_stmts c rest (n + branchCount first)
    rw [UInt32.ofNat_add] at hrest
    rw [stmts, Emission.code_append, Code.names_append, branchesAll, branchLabels_append,
      length_branches]
    exact (names_stmt c first n).append hrest

end

/-! ### There are not more branches than instructions -/

theorem size_instructions (block : List Instruction) :
    Code.size (Emission.ofInstructions block).code = block.length :=
  Code.size_map block

theorem ofInstructions_append (first second : List Instruction) :
    (Emission.ofInstructions (first ++ second)).code =
      (Emission.ofInstructions first).code ++ (Emission.ofInstructions second).code :=
  List.map_append

theorem size_emission_label (name : String) : Code.size (Emission.label name).code = 0 := rfl

mutual

theorem branchCount_le_size (c : Context) : ∀ (s : Stmt) (n : UInt32),
    branchCount s ≤ Code.size (stmt c s n).code
  | .block _ body, n => by
    have hbody := branchCountAll_le_size c body n
    rw [branchCount, stmt, Emission.code_append, Code.size_append]
    omega
  | .conditional _ _ thenBranch none, n => by
    have hthen := branchCount_le_size c thenBranch (n + 1)
    simp only [branchCount, stmt, Emission.code_append, Code.size_append, size_instructions,
      List.length_singleton]
    omega
  | .conditional _ _ thenBranch (some elseBranch), n => by
    have hthen := branchCount_le_size c thenBranch (n + 1)
    have helse := branchCount_le_size c elseBranch
      (n + 1 + UInt32.ofNat (branchCount thenBranch))
    simp only [branchCount, stmt, Emission.code_append, Code.size_append, size_instructions,
      List.length_singleton]
    omega
  | .loop _ _ body, n => by
    have hbody := branchCount_le_size c body (n + 1)
    simp only [branchCount, stmt, Emission.code_append, Code.size_append, size_instructions,
      List.length_singleton]
    omega
  | .function .., _ => Nat.zero_le _
  | .var .., _ => Nat.zero_le _
  | .assign .., _ => Nat.zero_le _
  | .evaluate .., _ => Nat.zero_le _
  | .return_ .., _ => Nat.zero_le _
  | .print .., _ => Nat.zero_le _

theorem branchCountAll_le_size (c : Context) : ∀ (body : List Stmt) (n : UInt32),
    branchCountAll body ≤ Code.size (stmts c body n).code
  | [], _ => Nat.zero_le _
  | first :: rest, n => by
    have hfirst := branchCount_le_size c first n
    have hrest := branchCountAll_le_size c rest (n + UInt32.ofNat (branchCount first))
    rw [branchCountAll, stmts, Emission.code_append, Code.size_append]
    omega

end

/-- How many numbers the branch labels of a program take. -/
def branchTotal (globals : SymbolTable) : List Stmt → Nat
  | [] => 0
  | first :: rest => topLevelBranches globals first + branchTotal globals rest

/-! ### Programs -/

variable {table : SymbolTable} {options : Options} {program : List Stmt}

/-- The tables of all functions are found. -/
def LocalsFound (table : SymbolTable) (program : List Stmt) : Prop :=
  ∀ f ∈ functionDecls program,
    table.locals? f.head.name = some ⟨table.wordSize, Layout.frameSymbols f⟩

theorem topLevel_function (options : Options) (n : UInt32) (span : Span) (f : FunctionDecl)
    (h : table.locals? f.head.name = some ⟨table.wordSize, Layout.frameSymbols f⟩) :
    (topLevel table options n (.function span f.head f.parameters f.body)).code =
      (function (Context.ofFunction table f options.annotate) options.entry f.body n).code := by
  rw [topLevel, h]
  rfl

theorem topLevelBranches_function (span : Span) (f : FunctionDecl)
    (h : table.locals? f.head.name = some ⟨table.wordSize, Layout.frameSymbols f⟩) :
    topLevelBranches table (.function span f.head f.parameters f.body) = branchCountAll f.body := by
  rw [topLevelBranches, h]
  rfl

theorem names_function (c : Context) (entry : String) (body : List Stmt) (n : UInt32) :
    Code.names (function c entry body n).code =
      c.function :: (Code.names (stmts c body n).code ++ [exitLabel c.function]) := by
  simp only [function, Emission.code_append, Code.names_append, names_instructions, names_label,
    List.append_nil, List.append_assoc, List.nil_append]
  rfl

theorem branchTotal_le_size (hdecl : ∀ stmt ∈ program, stmt.IsDeclaration)
    (hlocals : LocalsFound table program) (n : UInt32) :
    branchTotal table program ≤ Code.size (functions table options program n).code := by
  induction program generalizing n with
  | nil => exact Nat.zero_le _
  | cons first rest ih =>
    obtain ⟨hfirst, hrest⟩ := List.forall_mem_cons.1 hdecl
    show _ ≤ Code.size (_ ++ _)
    rw [branchTotal, Code.size_append]
    cases first with
    | function span head parameters body =>
      obtain ⟨hlocalsFirst, hlocalsRest⟩ := List.forall_mem_cons.1 hlocals
      have hbranches := topLevelBranches_function span ⟨head, parameters, body⟩ hlocalsFirst
      have hcode := topLevel_function options n span ⟨head, parameters, body⟩ hlocalsFirst
      have hsize := branchCountAll_le_size
        (Context.ofFunction table ⟨head, parameters, body⟩ options.annotate) body n
      have htail := ih hrest hlocalsRest
        (n + UInt32.ofNat (topLevelBranches table (.function span head parameters body)))
      simp only at hbranches hcode
      rw [hcode, hbranches]
      simp only [function, Emission.code_append, Code.size_append]
      rw [hbranches] at htail
      omega
    | var span head initial =>
      have htail := ih hrest hlocals
        (n + UInt32.ofNat (topLevelBranches table (.var span head initial)))
      have hbranches : topLevelBranches table (.var span head initial) = 0 := rfl
      omega
    | _ => exact hfirst.elim

/-- The names of a function's code are put where they belong. -/
theorem perm_function (f exit : String) (body : List String)
    {tail functions exits branches : List String}
    (h : tail.Perm (functions ++ exits ++ branches)) :
    (f :: (body ++ [exit]) ++ tail).Perm
      (f :: functions ++ exit :: exits ++ (body ++ branches)) := by
  refine List.perm_iff_count.2 fun name ↦ ?_
  have hcount := h.count_eq name
  simp only [List.count_append, List.count_cons, List.count_nil] at hcount ⊢
  omega

/-- The branches of a program take as many numbers as there are. -/
theorem length_programBranches (hdecl : ∀ stmt ∈ program, stmt.IsDeclaration)
    (hlocals : LocalsFound table program) :
    (programBranches program).length = branchTotal table program := by
  induction program with
  | nil => rfl
  | cons first rest ih =>
    obtain ⟨hfirst, hrest⟩ := List.forall_mem_cons.1 hdecl
    cases first with
    | function span head parameters body =>
      obtain ⟨hlocalsFirst, hlocalsRest⟩ := List.forall_mem_cons.1 hlocals
      have hbranches := topLevelBranches_function span ⟨head, parameters, body⟩ hlocalsFirst
      have hcons : programBranches (.function span head parameters body :: rest) =
        branchesAll body ++ programBranches rest := rfl
      rw [hcons, List.length_append, length_branchesAll, ih hrest hlocalsRest, branchTotal]
      exact congrArg (· + _) hbranches.symm
    | var span head initial =>
      have hbranches : topLevelBranches table (.var span head initial) = 0 := rfl
      rw [branchTotal, hbranches, Nat.zero_add]
      exact ih hrest hlocals
    | _ => exact hfirst.elim

/-- The names of the functions' code: the functions, their exits and the branches in them. -/
theorem names_functions (hdecl : ∀ stmt ∈ program, stmt.IsDeclaration)
    (hlocals : LocalsFound table program) (n : Nat) :
    (Code.names (functions table options program (UInt32.ofNat n)).code).Perm
      (functionNames program ++ (functionNames program).map exitLabel ++
        branchLabels (programBranches program) n) := by
  induction program generalizing n with
  | nil => exact .nil
  | cons first rest ih =>
    obtain ⟨hfirst, hrest⟩ := List.forall_mem_cons.1 hdecl
    cases first with
    | function span head parameters body =>
      obtain ⟨hlocalsFirst, hlocalsRest⟩ := List.forall_mem_cons.1 hlocals
      have hbranches := topLevelBranches_function span ⟨head, parameters, body⟩ hlocalsFirst
      have hcode := topLevel_function options (UInt32.ofNat n) span ⟨head, parameters, body⟩
        hlocalsFirst
      have hbody := names_stmts
        (Context.ofFunction table ⟨head, parameters, body⟩ options.annotate) body n
      -- The numbers of later functions start where those of this one end.
      have htail := ih hrest hlocalsRest (n + branchCountAll body)
      simp only at hbranches hcode
      have hcons : programBranches (.function span head parameters body :: rest) =
        branchesAll body ++ programBranches rest := rfl
      show (Code.names (_ ++ _)).Perm _
      rw [Code.names_append, hcode, names_function, hbranches, ← UInt32.ofNat_add, hcons,
        branchLabels_append, length_branchesAll]
      refine (perm_function _ _ _ htail).trans (List.Perm.append_left _ ?_)
      exact hbody.append_right _
    | var span head initial =>
      have htail := ih hrest hlocals n
      have hbranches : topLevelBranches table (.var span head initial) = 0 := rfl
      show (Code.names (_ ++ _)).Perm _
      rw [hbranches, ← UInt32.ofNat_add]
      exact htail
    | _ => exact hfirst.elim

theorem names_dataSection (table : SymbolTable) :
    Code.names (dataSection table) = table.vars.map Symbol.name := by
  have hwords : ∀ symbols : List Symbol,
      Code.names (symbols.map fun s ↦ .word s.name (s.initial?.getD 0)) =
        symbols.map Symbol.name := by
    intro symbols
    induction symbols with
    | nil => rfl
    | cons s symbols ih => exact congrArg (s.name :: ·) ih
  exact hwords table.vars

/-- A numbered name is neither an exit nor the label of a branch. -/
theorem numbered_not_label {name : String} {n : Nat} {c : Char} {word : List Char}
    (hc : c.isDigit = false) : ¬ Ends (Renaming.numbered name n) (c :: word) :=
  fun hends ↦ repr_ne_word hc ((ends_numbered name n).unique hends)

theorem ends_branchLabel (kind : String) (n : UInt32) {place : String} (h : place ∈ places) :
    ∃ c word, Ends (branchLabel kind n place) (c :: word) ∧ c.isDigit = false ∧
      c :: word ≠ ['e', 'x', 'i', 't'] := by
  have hends : Ends (branchLabel kind n place) place.toList :=
    ⟨separator_notMem_place h, _, toList_branchLabel kind place n⟩
  simp only [places, List.mem_cons, List.not_mem_nil, or_false] at h
  rcases h with rfl | rfl | rfl
  · exact ⟨'e', ['l', 's', 'e'], hends, by decide, by decide⟩
  · exact ⟨'e', ['n', 'd'], hends, by decide, by decide⟩
  · exact ⟨'s', ['t', 'a', 'r', 't'], hends, by decide, by decide⟩

/-- The names of global variables and functions are different. -/
theorem nodup_declared (hstored : Layout.Stored program table) (hdistinct : Distinct program) :
    (table.vars.map Symbol.name ++ functionNames program).Nodup := by
  have hsymbols : (table.symbols.map Symbol.name).Nodup := hstored.names ▸ hdistinct.topNames
  refine List.nodup_append.2 ⟨?_, (List.nodup_append.1 hdistinct).1, ?_⟩
  · exact hsymbols.sublist (List.filter_sublist.map _)
  · intro u hu v hv heq
    obtain ⟨s, hs, rfl⟩ := List.mem_map.1 hu
    obtain ⟨f, hf, rfl⟩ := List.mem_map.1 hv
    obtain ⟨hmem, hvar⟩ := List.mem_filter.1 hs
    -- Both would be found under the one name, but only one symbol is.
    have hfind := find?_of_nodup Symbol.name hsymbols hmem
    have hfunction : table.symbols.find? (fun s ↦ s.name = f.head.name) = _ :=
      hstored.function f hf
    rw [heq] at hfind
    cases hfind.symm.trans hfunction
    cases hvar

/-- The labels that are not declared names: exits and branches. -/
def innerLabels (program : List Stmt) : List String :=
  (functionNames program).map exitLabel ++ branchLabels (programBranches program) 0

/-- What follows the last separator of an exit or of the label of a branch is a word. -/
theorem ends_innerLabels {u : String} (hn : (programBranches program).length ≤ 2 ^ 32)
    (hu : u ∈ innerLabels program) : ∃ c word, Ends u (c :: word) ∧ c.isDigit = false := by
  rcases List.mem_append.1 hu with hu | hu
  · obtain ⟨f, -, rfl⟩ := List.mem_map.1 hu
    exact ⟨'e', ['x', 'i', 't'], ends_exitLabel f, by decide⟩
  · have hbranches := branches_branchLabels (n := 0) (programBranches program) (by omega)
    obtain ⟨kind, n, place, hplace, rfl, -⟩ := hbranches.numbered _ hu
    obtain ⟨c, word, hends, hdigit, -⟩ := ends_branchLabel kind (UInt32.ofNat n) hplace
    exact ⟨c, word, hends, hdigit⟩

/-- Exits and branches have labels of their own. -/
theorem nodup_innerLabels (hfunctions : (functionNames program).Nodup)
    (hn : (programBranches program).length ≤ 2 ^ 32) : (innerLabels program).Nodup := by
  have hbranches := branches_branchLabels (n := 0) (programBranches program) (by omega)
  refine List.nodup_append.2 ⟨hfunctions.map fun _ _ ↦ eq_of_exitLabel, hbranches.nodup, ?_⟩
  rintro u hu v hv rfl
  obtain ⟨f, -, rfl⟩ := List.mem_map.1 hu
  obtain ⟨kind, n, place, hplace, hlabel, -⟩ := hbranches.numbered _ hv
  obtain ⟨c, word, hends, -, hne⟩ := ends_branchLabel kind (UInt32.ofNat n) hplace
  exact hne ((hlabel ▸ hends).unique (ends_exitLabel f))

/-- All names of the code of a program. -/
theorem names_program {entry : String} (h : Flattened entry program)
    (hstored : Layout.Stored program table) :
    (Code.names (dataSection table ++ preamble entry ++
      (functions table options program 0).code)).Perm
        (table.vars.map Symbol.name ++ functionNames program ++ innerLabels program) := by
  have hlocals : LocalsFound table program := fun f hf ↦ locals?_eq hstored hf
  have hfunctions := @names_functions table options program h.wellTyped.isDeclaration hlocals 0
  have hpreamble : Code.names (preamble entry) = [] := rfl
  rw [Code.names_append, Code.names_append, names_dataSection, hpreamble, List.append_nil]
  rw [List.append_assoc] at hfunctions
  rw [List.append_assoc]
  exact hfunctions.append_left _

/-- **No name is defined twice** in the code of a flattened program, unless the name of the entry
point is also that of an exit or a branch. -/
theorem nodup_names_iff {entry : String} (h : Flattened entry program)
    (hstored : Layout.Stored program table) (hn : (programBranches program).length ≤ 2 ^ 32) :
    (Code.names (dataSection table ++ preamble entry ++
      (functions table options program 0).code)).Nodup ↔ entry ∉ innerLabels program := by
  rw [(names_program h hstored).nodup_iff, List.nodup_append]
  constructor
  · rintro ⟨-, -, hdisjoint⟩ hmem
    exact hdisjoint entry (List.mem_append_right _ h.entry_mem) entry hmem rfl
  · intro hentry
    have hdeclared := nodup_declared hstored h.distinct
    refine ⟨hdeclared, nodup_innerLabels (List.nodup_append.1 hdeclared).2.1 hn, ?_⟩
    rintro u hu v hv rfl
    have hmem : u ∈ functionNames program ++ Stmt.variablesAll program := by
      rcases List.mem_append.1 hu with hu | hu
      · exact mem_of_mem_topNames (hstored.names ▸ (List.filter_sublist.map _).subset hu)
      · exact List.mem_append_left _ hu
    rcases h.numbered u hmem with rfl | ⟨name, n, rfl⟩
    · exact hentry hv
    · obtain ⟨c, word, hends, hdigit⟩ := ends_innerLabels hn hv
      exact numbered_not_label hdigit hends

/-- An entry point without a separator in its name is neither an exit nor a branch. -/
theorem nodup_names {entry : String} (hentry : '_' ∉ entry.toList) (h : Flattened entry program)
    (hstored : Layout.Stored program table) (hn : branchTotal table program ≤ 2 ^ 32) :
    (Code.names (dataSection table ++ preamble entry ++
      (functions table options program 0).code)).Nodup := by
  have hlocals : LocalsFound table program := fun f hf ↦ locals?_eq hstored hf
  rw [← length_programBranches h.wellTyped.isDeclaration hlocals] at hn
  refine (nodup_names_iff h hstored hn).2 fun hmem ↦ ?_
  obtain ⟨c, word, ⟨-, start, hlist⟩, -⟩ := ends_innerLabels hn hmem
  exact hentry (hlist ▸ List.mem_append_right start List.mem_cons_self)

end ScalarMips.Generate
