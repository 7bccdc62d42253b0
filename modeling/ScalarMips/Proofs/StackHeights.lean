import ScalarMips.Proofs.ControlFlow

/-!
# Stack heights

How high the stack stands at every line of a function, counted from where it stood when the function
was called. The height is changed by the instructions that subtract from `$sp` or add to it, and by
the one that takes `$sp` back to the frame pointer; a call leaves it as it was (`Line.height`).

Between prologue and epilogue the stack never falls below the saved registers and the local
variables, and it stands exactly there wherever code can be entered or left by a jump (`Keeps`). The
code of an expression keeps to this from any height and raises it by one word (`keeps_expr`), and
that of a statement starts and ends at the bottom (`keeps_stmt`).
-/

namespace ScalarMips

/-! ### Heights -/

/-- The register that an instruction writes. -/
def Instruction.written? : Instruction → Option Register
  | li target _ | lw target _ | move target _ | compute _ target _ _ | immediate _ target _ _
  | mflo target | mfhi target => some target
  | jal _ => some .ra
  | sw .. | div .. | beq .. | j _ | jr _ | syscall => none

/-- Whether an instruction goes back to the caller. -/
def Instruction.returns : Instruction → Bool
  | jr _ => true
  | _ => false

/-- The height of the stack after an instruction, if it is `h` before it and the frame pointer
stands at `frame`. -/
def Instruction.height (frame h : ℤ) : Instruction → ℤ
  | immediate .subu .sp .sp amount => h + amount.toNat
  | immediate .addiu .sp .sp amount => h - amount.toNat
  | move .sp .fp => frame
  | _ => h

/-- An instruction changes the stack pointer in no other way than its height tells. -/
def Instruction.Tracked (i : Instruction) : Prop :=
  i.written? = some .sp →
    (∃ amount, i = .immediate .subu .sp .sp amount ∨ i = .immediate .addiu .sp .sp amount) ∨
      i = .move .sp .fp

namespace Line

/-- The height of the stack after a line. -/
def height (frame h : ℤ) : Line Instruction → ℤ
  | instruction i => i.height frame h
  | _ => h

/-- Whether code is entered or left by a jump at a line. -/
def IsJoint : Line Instruction → Prop
  | label _ => True
  | instruction i => i.target?.isSome
  | _ => False

/-- A line changes the stack pointer in no other way than its height tells, leaves the frame pointer
alone and does not go back to the caller. -/
def StaysInFrame : Line Instruction → Prop
  | instruction i => i.Tracked ∧ i.written? ≠ some .fp ∧ i.returns = false
  | _ => True

end Line

/-- The height of the stack after some lines. -/
def Code.height (frame h : ℤ) (code : Code) : ℤ :=
  code.foldl (Line.height frame) h

theorem Code.height_append (frame h : ℤ) (first second : Code) :
    Code.height frame h (first ++ second) = Code.height frame (Code.height frame h first) second :=
  List.foldl_append

/-! ### Code that keeps to a bottom -/

/-- Code takes the stack from one height to another and never below a bottom, and at the bottom it
is entered and left by jumps. -/
def Keeps (frame bottom : ℤ) : ℤ → Code → ℤ → Prop
  | h, [], h' => bottom ≤ h ∧ h' = h
  | h, line :: code, h' => bottom ≤ h ∧ (line.IsJoint → h = bottom) ∧ line.StaysInFrame ∧
    Keeps frame bottom (line.height frame h) code h'

namespace Keeps

variable {frame bottom h h' h'' : ℤ} {code first second : Code}

theorem append (hfirst : Keeps frame bottom h first h')
    (hsecond : Keeps frame bottom h' second h'') : Keeps frame bottom h (first ++ second) h'' := by
  induction first generalizing h with
  | nil =>
    obtain ⟨-, rfl⟩ := hfirst
    exact hsecond
  | cons line first ih =>
    obtain ⟨hle, hjoint, hstays, hrest⟩ := hfirst
    exact ⟨hle, hjoint, hstays, ih hrest⟩

theorem height_eq (hkeeps : Keeps frame bottom h code h') : Code.height frame h code = h' := by
  induction code generalizing h with
  | nil => exact hkeeps.2.symm
  | cons line code ih => exact ih hkeeps.2.2.2

theorem staysInFrame (hkeeps : Keeps frame bottom h code h') :
    ∀ line ∈ code, line.StaysInFrame := by
  induction code generalizing h with
  | nil => exact fun _ hmem ↦ absurd hmem List.not_mem_nil
  | cons line code ih => exact List.forall_mem_cons.2 ⟨hkeeps.2.2.1, ih hkeeps.2.2.2⟩

/-- The stack never falls below the bottom. -/
theorem bottom_le (hkeeps : Keeps frame bottom h code h') (k : ℕ) :
    bottom ≤ Code.height frame h (code.take k) := by
  induction code generalizing h k with
  | nil =>
    rw [List.take_nil]
    exact hkeeps.1
  | cons line code ih =>
    cases k with
    | zero => exact hkeeps.1
    | succ k => exact ih hkeeps.2.2.2 k

/-- Code is entered and left by jumps at the bottom. -/
theorem joint (hkeeps : Keeps frame bottom h code h') {k : ℕ} {line : Line Instruction}
    (hline : code[k]? = some line) (hjoint : line.IsJoint) :
    Code.height frame h (code.take k) = bottom := by
  induction code generalizing h k with
  | nil => cases hline
  | cons first code ih =>
    cases k with
    | zero =>
      cases hline
      exact hkeeps.2.1 hjoint
    | succ k => exact ih hkeeps.2.2.2 hline

theorem le_end (hkeeps : Keeps frame bottom h code h') : bottom ≤ h' := by
  have hle := hkeeps.bottom_le code.length
  rwa [List.take_length, hkeeps.height_eq] at hle

end Keeps

/-! ### Instructions -/

/-- An instruction that leaves the stack and the frame pointer alone and goes on to the next one. -/
def Instruction.Quiet (i : Instruction) : Prop :=
  i.written? ≠ some .sp ∧ i.written? ≠ some .fp ∧ i.target? = none ∧ i.returns = false

instance (i : Instruction) : Decidable i.Quiet :=
  inferInstanceAs (Decidable (_ ∧ _ ∧ _ ∧ _))

theorem Instruction.height_of_written {i : Instruction} (hwritten : i.written? ≠ some .sp)
    (frame h : ℤ) : i.height frame h = h := by
  cases i with
  | immediate op target source amount =>
    cases target with
    | sp => exact absurd rfl hwritten
    | _ => cases op <;> rfl
  | move target source =>
    cases target with
    | sp => exact absurd rfl hwritten
    | _ => rfl
  | _ => rfl

namespace Generate

variable {frame bottom h h' : ℤ}

theorem keeps_quiet {instructions : List Instruction} (hle : bottom ≤ h)
    (hquiet : ∀ i ∈ instructions, i.Quiet) :
    Keeps frame bottom h (instructions.map .instruction) h := by
  induction instructions with
  | nil => exact ⟨hle, rfl⟩
  | cons i instructions ih =>
    obtain ⟨⟨hwritten, hpointer, htarget, hreturns⟩, hrest⟩ := List.forall_mem_cons.1 hquiet
    refine ⟨hle, fun hjoint ↦ ?_, ⟨fun hsp ↦ absurd hsp hwritten, hpointer, hreturns⟩, ?_⟩
    · rw [Line.IsJoint, htarget] at hjoint
      cases hjoint
    · rw [Line.height, Instruction.height_of_written hwritten]
      exact ih hrest

/-- Space is made on the stack. -/
theorem keeps_grow (hle : bottom ≤ h) (amount : UInt32) :
    Keeps frame bottom h [.instruction (.immediate .subu .sp .sp amount)] (h + amount.toNat) :=
  ⟨hle, nofun, ⟨fun _ ↦ .inl ⟨amount, .inl rfl⟩, nofun, rfl⟩,
    le_add_of_le_of_nonneg hle (Int.natCast_nonneg _), rfl⟩

/-- Space on the stack is given up. -/
theorem keeps_shrink (hle : bottom ≤ h) (amount : UInt32) :
    Keeps frame bottom (h + amount.toNat) [.instruction (.immediate .addiu .sp .sp amount)] h := by
  have hback : h + amount.toNat - amount.toNat = h := add_sub_cancel_right h _
  refine ⟨by omega, nofun, ⟨fun _ ↦ .inl ⟨amount, .inr rfl⟩, nofun, rfl⟩, ?_⟩
  show bottom ≤ h + amount.toNat - amount.toNat ∧ h = h + amount.toNat - amount.toNat
  rw [hback]
  exact ⟨hle, rfl⟩

theorem keeps_push (c : Context) (hle : bottom ≤ h) (source : Register) :
    Keeps frame bottom h ((c.push source).map .instruction) (h + c.wordSize.toNat) := by
  have hsw : ∀ i ∈ [Instruction.sw source (.above 0 .sp)], i.Quiet :=
    List.forall_mem_singleton.2 ⟨nofun, nofun, rfl, rfl⟩
  exact (keeps_grow hle c.wordSize).append (keeps_quiet (by omega) hsw)

theorem keeps_pop (c : Context) (hle : bottom ≤ h) {r : Register}
    (hr : r ≠ .sp ∧ r ≠ .fp) :
    Keeps frame bottom (h + c.wordSize.toNat) ((c.pop r).map .instruction) h := by
  have hlw : ∀ i ∈ [Instruction.lw r (.above 0 .sp)], i.Quiet :=
    List.forall_mem_singleton.2
      ⟨fun heq ↦ hr.1 (Option.some.inj heq), fun heq ↦ hr.2 (Option.some.inj heq), rfl, rfl⟩
  exact (keeps_quiet (by omega) hlw).append (keeps_shrink hle c.wordSize)

theorem quiet_of_unaryCode? {op : Operator} {code : List Instruction}
    (hcode : unaryCode? op = some code) : ∀ i ∈ code, i.Quiet := by
  cases op <;> cases hcode <;> decide

theorem quiet_of_binaryCode? {op : Operator} {code : List Instruction}
    (hcode : binaryCode? op = some code) : ∀ i ∈ code, i.Quiet := by
  cases op <;> cases hcode <;> decide

end Generate

/-! ### Calls -/

mutual

/-- The arguments of every call in an expression have a size below 32 bits. -/
def Expr.CallsFit (wordSize : UInt32) : Expr → Prop
  | .literal .. => True
  | .var .. => True
  | .unary _ _ operand => operand.CallsFit wordSize
  | .binary _ _ left right => left.CallsFit wordSize ∧ right.CallsFit wordSize
  | .call _ _ arguments =>
    arguments.length * wordSize.toNat < 2 ^ 32 ∧ Expr.AllCallsFit wordSize arguments

/-- The arguments of every call in expressions have a size below 32 bits. -/
def Expr.AllCallsFit (wordSize : UInt32) : List Expr → Prop
  | [] => True
  | e :: es => e.CallsFit wordSize ∧ Expr.AllCallsFit wordSize es

end

/-- The arguments of every call in an expression, if there is one, have a size below 32 bits. -/
def Expr.OptionCallsFit (wordSize : UInt32) : Option Expr → Prop
  | none => True
  | some e => e.CallsFit wordSize

theorem Expr.CallsFit.option {wordSize : UInt32} {e : Expr} (hfits : e.CallsFit wordSize) :
    Expr.OptionCallsFit wordSize (some e) :=
  hfits

mutual

/-- The arguments of every call in a statement have a size below 32 bits. -/
def Stmt.CallsFit (wordSize : UInt32) : Stmt → Prop
  | .block _ body => Stmt.AllCallsFit wordSize body
  | .function _ _ _ body => Stmt.AllCallsFit wordSize body
  | .var _ _ initial => Expr.OptionCallsFit wordSize initial
  | .assign _ _ _ value => value.CallsFit wordSize
  | .conditional _ condition thenBranch none =>
    condition.CallsFit wordSize ∧ thenBranch.CallsFit wordSize
  | .conditional _ condition thenBranch (some elseBranch) =>
    condition.CallsFit wordSize ∧ thenBranch.CallsFit wordSize ∧ elseBranch.CallsFit wordSize
  | .loop _ condition body => condition.CallsFit wordSize ∧ body.CallsFit wordSize
  | .evaluate _ value => value.CallsFit wordSize
  | .return_ _ value => value.CallsFit wordSize
  | .print _ _ value => Expr.OptionCallsFit wordSize value
termination_by structural stmt => stmt

/-- The arguments of every call in statements have a size below 32 bits. -/
def Stmt.AllCallsFit (wordSize : UInt32) : List Stmt → Prop
  | [] => True
  | stmt :: stmts => stmt.CallsFit wordSize ∧ Stmt.AllCallsFit wordSize stmts
termination_by structural stmts => stmts

end

namespace Generate

variable {frame bottom h h' : ℤ} {c : Context}

/-! ### Expressions -/

theorem toNat_words {table : SymbolTable} {n : ℕ} (hfits : n * table.wordSize.toNat < 2 ^ 32) :
    (table.words n).toNat = n * table.wordSize.toNat := by
  rw [SymbolTable.words, UInt32.toNat_mul, UInt32.toNat_ofNat']
  have hmod : n % 2 ^ 32 * table.wordSize.toNat % 2 ^ 32 = n * table.wordSize.toNat % 2 ^ 32 :=
    (Nat.mod_modEq n _).mul_right _
  rw [hmod, Nat.mod_eq_of_lt hfits]

/-- A call takes its arguments off the stack and puts a result on it. -/
theorem keeps_callCode {n : ℕ} (hle : bottom ≤ h) (hfits : n * c.wordSize.toNat < 2 ^ 32)
    (function : String) :
    Keeps frame bottom (h + (n * c.wordSize.toNat : ℕ)) ((callCode c function n).map .instruction)
      (h + c.wordSize.toNat) := by
  have hjal : ∀ i ∈ [Instruction.jal function], i.Quiet :=
    List.forall_mem_singleton.2 ⟨nofun, nofun, rfl, rfl⟩
  have hcall : Keeps frame bottom (h + (n * c.wordSize.toNat : ℕ)) [.instruction (.jal function)]
      (h + (n * c.wordSize.toNat : ℕ)) := keeps_quiet (by omega) hjal
  have hpush : Keeps frame bottom h ((c.push .v0).map .instruction) (h + c.wordSize.toNat) :=
    keeps_push c hle .v0
  rw [callCode, List.map_append]
  refine Keeps.append ?_ hpush
  split
  · rename_i hzero
    rw [hzero, Nat.zero_mul, Nat.cast_zero, add_zero] at hcall
    rw [hzero, Nat.zero_mul, Nat.cast_zero, add_zero]
    exact hcall
  · have hshrink : Keeps frame bottom _ _ h := keeps_shrink hle (c.globals.words n)
    rw [toNat_words hfits] at hshrink
    exact hcall.append hshrink

/-- What is loaded into a register and put on the stack. -/
theorem keeps_loaded {i : Instruction} (hle : bottom ≤ h) (hquiet : i.Quiet) :
    Keeps frame bottom h (Emission.ofInstructions (i :: c.push .t0)).code
      (h + c.wordSize.toNat) :=
  (keeps_quiet hle (List.forall_mem_singleton.2 hquiet)).append (keeps_push c hle .t0)

/-- What is computed in a register and put on the stack. -/
theorem keeps_computed {code : List Instruction} (hle : bottom ≤ h) (hquiet : ∀ i ∈ code, i.Quiet) :
    Keeps frame bottom (h + c.wordSize.toNat)
      (Emission.ofInstructions (c.pop .t0 ++ code ++ c.push .t0)).code (h + c.wordSize.toNat) := by
  rw [Emission.ofInstructions, List.map_append, List.map_append]
  exact ((keeps_pop c hle (by decide)).append (keeps_quiet hle hquiet)).append
    (keeps_push c hle .t0)

/-- An expression without a fault is its operand with an operation behind it. -/
theorem unary_eq (span : Span) {op : Operator} {operand : Expr}
    (hfaults : (expr c (.unary span op operand)).faults = []) :
    (expr c operand).faults = [] ∧ ∃ code, unaryCode? op = some code ∧
      (expr c (.unary span op operand)).code =
        (expr c operand).code ++
          (Emission.ofInstructions (c.pop .t0 ++ code ++ c.push .t0)).code := by
  rw [expr] at hfaults ⊢
  split at hfaults
  · rename_i code hcode
    exact ⟨(List.append_eq_nil_iff.1 hfaults).1, code, hcode, rfl⟩
  · simp [Emission.fault] at hfaults

/-- An expression without a fault is its operands with an operation behind them. -/
theorem binary_eq (span : Span) {op : Operator} {left right : Expr}
    (hfaults : (expr c (.binary span op left right)).faults = []) :
    (expr c left).faults = [] ∧ (expr c right).faults = [] ∧ ∃ code, binaryCode? op = some code ∧
      (expr c (.binary span op left right)).code = (expr c left).code ++ (expr c right).code ++
        (Emission.ofInstructions (c.pop .t1 ++ c.pop .t0 ++ code ++ c.push .t0)).code := by
  rw [expr] at hfaults ⊢
  split at hfaults
  · rename_i code hcode
    simp only [Emission.faults_append, List.append_eq_nil_iff] at hfaults
    exact ⟨hfaults.1.1, hfaults.1.2, code, hcode, rfl⟩
  · simp [Emission.fault] at hfaults

/-- A call without a fault is its arguments with the call behind them. -/
theorem call_eq (span : Span) {name : String} {arguments : List Expr}
    (hfaults : (expr c (.call span name arguments)).faults = []) :
    (argumentsCode c arguments).faults = [] ∧ (expr c (.call span name arguments)).code =
      (argumentsCode c arguments).code ++
        (Emission.ofInstructions (callCode c name arguments.length)).code := by
  rw [expr] at hfaults ⊢
  split at hfaults
  · exact ⟨(List.append_eq_nil_iff.1 hfaults).1, rfl⟩
  · cases hfaults

mutual

/-- The code of an expression raises the stack by one word. -/
theorem keeps_expr : ∀ (e : Expr) {h : ℤ}, bottom ≤ h → (expr c e).faults = [] →
    e.CallsFit c.wordSize → Keeps frame bottom h (expr c e).code (h + c.wordSize.toNat)
  | .literal _ value, _, hle, hfaults, _ => by
    rw [expr] at hfaults ⊢
    split at hfaults
    · rename_i htype
      rw [if_pos htype]
      exact keeps_loaded hle ⟨nofun, nofun, rfl, rfl⟩
    · cases hfaults
  | .var _ name, _, hle, hfaults, _ => by
    rw [expr] at hfaults ⊢
    split at hfaults
    · exact keeps_loaded hle ⟨nofun, nofun, rfl, rfl⟩
    · cases hfaults
  | .unary _ op operand, _, hle, hfaults, hfits => by
    obtain ⟨hfaults, code, hcode, heq⟩ := unary_eq _ hfaults
    rw [heq]
    exact (keeps_expr operand hle hfaults hfits).append
      (keeps_computed hle (quiet_of_unaryCode? hcode))
  | .binary _ op left right, _, hle, hfaults, hfits => by
    obtain ⟨hfaultsLeft, hfaultsRight, code, hcode, heq⟩ := binary_eq _ hfaults
    have hleft := keeps_expr left hle hfaultsLeft hfits.1
    have hright := keeps_expr right hleft.le_end hfaultsRight hfits.2
    have hcomputed : Keeps frame bottom _ _ _ :=
      keeps_computed (c := c) hle (quiet_of_binaryCode? hcode)
    have htail := (keeps_pop c hleft.le_end (r := .t1) (by decide)).append hcomputed
    rw [Emission.ofInstructions, ← List.map_append, ← List.append_assoc, ← List.append_assoc]
      at htail
    rw [heq]
    exact (hleft.append hright).append htail
  | .call _ name arguments, _, hle, hfaults, hfits => by
    obtain ⟨hfaults, heq⟩ := call_eq _ hfaults
    rw [heq]
    exact (keeps_argumentsCode arguments hle hfaults hfits.2).append
      (keeps_callCode hle hfits.1 name)

/-- The code of arguments raises the stack by one word for each of them. -/
theorem keeps_argumentsCode : ∀ (es : List Expr) {h : ℤ}, bottom ≤ h →
    (argumentsCode c es).faults = [] → Expr.AllCallsFit c.wordSize es →
      Keeps frame bottom h (argumentsCode c es).code (h + (es.length * c.wordSize.toNat : ℕ))
  | [], _, hle, _, _ => by
    rw [List.length_nil, Nat.zero_mul, Nat.cast_zero, add_zero]
    exact ⟨hle, rfl⟩
  | e :: es, h, hle, hfaults, hfits => by
    obtain ⟨hfaultsRest, hfaultsFirst⟩ := List.append_eq_nil_iff.1 hfaults
    have hrest := keeps_argumentsCode es hle hfaultsRest hfits.2
    have hfirst := keeps_expr e hrest.le_end hfaultsFirst hfits.1
    have hsize : h + (es.length * c.wordSize.toNat : ℕ) + c.wordSize.toNat =
        h + ((e :: es).length * c.wordSize.toNat : ℕ) := by
      rw [List.length_cons, Nat.succ_mul]
      omega
    rw [← hsize]
    exact hrest.append hfirst

end

/-! ### Statements -/

theorem keeps_remark (hle : bottom ≤ h) (s : Stmt) :
    Keeps frame bottom h (remark c s).code h := by
  unfold remark
  split
  · exact ⟨hle, nofun, trivial, hle, rfl⟩
  · exact ⟨hle, rfl⟩

/-- Code is entered at a label. -/
theorem keeps_label (name : String) :
    Keeps frame bottom bottom (Emission.label name).code bottom :=
  ⟨le_refl _, fun _ ↦ rfl, trivial, le_refl _, rfl⟩

/-- Code is left by a jump. -/
theorem keeps_jump {i : Instruction} (hwritten : i.written? = none) (hreturns : i.returns = false) :
    Keeps frame bottom bottom [.instruction i] bottom := by
  have hne : ∀ r, i.written? ≠ some r := by simp [hwritten]
  refine ⟨le_refl _, fun _ ↦ rfl, ⟨fun hsp ↦ absurd hsp (hne _), hne _, hreturns⟩, ?_⟩
  rw [Line.height, Instruction.height_of_written (hne _)]
  exact ⟨le_refl _, rfl⟩

theorem keeps_conditionCode {condition : Expr} {otherwise : String}
    (hfaults : (conditionCode c condition otherwise).faults = [])
    (hfits : condition.CallsFit c.wordSize) :
    Keeps frame bottom bottom (conditionCode c condition otherwise).code bottom := by
  refine (keeps_expr condition (le_refl _) (List.append_eq_nil_iff.1 hfaults).1 hfits).append ?_
  rw [Emission.ofInstructions, List.map_append]
  exact (keeps_pop c (le_refl _) (by decide)).append (keeps_jump rfl rfl)

theorem keeps_storeCode {name : String} {value : Option Expr}
    (hfaults : (storeCode c name value).faults = [])
    (hfits : Expr.OptionCallsFit c.wordSize value) :
    Keeps frame bottom bottom (storeCode c name value).code bottom := by
  have hstore : ∀ source address, ∀ i ∈ [Instruction.sw source address], i.Quiet :=
    fun _ _ ↦ List.forall_mem_singleton.2 ⟨nofun, nofun, rfl, rfl⟩
  unfold storeCode at hfaults ⊢
  split at hfaults
  · cases hfaults
  · rename_i address value _
    refine (keeps_expr value (le_refl _) (List.append_eq_nil_iff.1 hfaults).1 hfits).append ?_
    rw [Emission.ofInstructions, List.map_append]
    exact (keeps_pop c (le_refl _) (by decide)).append (keeps_quiet (le_refl _) (hstore _ _))
  · exact keeps_quiet (le_refl _) (hstore _ _)

theorem quiet_serviceCode (service : Service) : ∀ i ∈ serviceCode service, i.Quiet := by
  cases service <;> decide

theorem keeps_printCode {ending : PrintEnd} {value : Option Expr}
    (hfaults : (printCode c ending value).faults = [])
    (hfits : Expr.OptionCallsFit c.wordSize value) :
    Keeps frame bottom bottom (printCode c ending value).code bottom := by
  have hending : ∀ i ∈ (endCharacter? ending).elim [] characterCode, i.Quiet := by
    cases ending <;> decide
  have hlast : Keeps frame bottom bottom _ bottom := keeps_quiet (le_refl _) hending
  unfold printCode at hfaults ⊢
  cases value with
  | none => exact hlast
  | some value =>
    simp only [Emission.faults_append, List.append_eq_nil_iff] at hfaults
    have hprint : Keeps frame bottom (bottom + c.wordSize.toNat)
        (Emission.ofInstructions (c.pop .a0 ++ serviceCode .printInteger)).code bottom := by
      rw [Emission.ofInstructions, List.map_append]
      exact (keeps_pop c (le_refl _) (by decide)).append
        (keeps_quiet (le_refl _) (quiet_serviceCode .printInteger))
    exact ((keeps_expr value (le_refl _) hfaults.1.1 hfits).append hprint).append hlast

mutual

/-- The code of a statement starts and ends at the bottom. -/
theorem keeps_stmt : ∀ (s : Stmt) (n : UInt32), (stmt c s n).faults = [] →
    s.CallsFit c.wordSize → Keeps frame bottom bottom (stmt c s n).code bottom
  | .block span body, n, hfaults, hfits =>
    (keeps_remark (le_refl _) _).append
      (keeps_stmts body n (List.append_eq_nil_iff.1 hfaults).2 hfits)
  | .function span head parameters body, n, hfaults, _ => by
    simp [stmt, Emission.fault] at hfaults
  | .var span head initial, n, hfaults, hfits =>
    (keeps_remark (le_refl _) _).append
      (keeps_storeCode (List.append_eq_nil_iff.1 hfaults).2 hfits)
  | .assign span name target value, n, hfaults, hfits =>
    (keeps_remark (le_refl _) _).append
      (keeps_storeCode (List.append_eq_nil_iff.1 hfaults).2 hfits.option)
  | .conditional span condition thenBranch none, n, hfaults, hfits => by
    simp only [stmt, Emission.faults_append, List.append_eq_nil_iff] at hfaults
    have hthen := keeps_stmt thenBranch (n + 1) hfaults.1.1.1.2 hfits.2
    exact (((((keeps_remark (le_refl _) _).append
      (keeps_conditionCode hfaults.1.1.1.1.2 hfits.1)).append hthen).append
      (keeps_jump rfl rfl)).append (keeps_label _)).append (keeps_label _)
  | .conditional span condition thenBranch (some elseBranch), n, hfaults, hfits => by
    simp only [stmt, Emission.faults_append, List.append_eq_nil_iff] at hfaults
    have hthen := keeps_stmt thenBranch (n + 1) hfaults.1.1.1.1.2 hfits.2.1
    have helse := keeps_stmt elseBranch (n + 1 + UInt32.ofNat (branchCount thenBranch))
      hfaults.1.2 hfits.2.2
    exact ((((((keeps_remark (le_refl _) _).append
      (keeps_conditionCode hfaults.1.1.1.1.1.2 hfits.1)).append hthen).append
      (keeps_jump rfl rfl)).append (keeps_label _)).append helse).append (keeps_label _)
  | .loop span condition body, n, hfaults, hfits => by
    simp only [stmt, Emission.faults_append, List.append_eq_nil_iff] at hfaults
    have hbody := keeps_stmt body (n + 1) hfaults.1.1.2 hfits.2
    exact (((((keeps_remark (le_refl _) _).append (keeps_label _)).append
      (keeps_conditionCode hfaults.1.1.1.2 hfits.1)).append hbody).append
      (keeps_jump rfl rfl)).append (keeps_label _)
  | .evaluate span value, n, hfaults, hfits => by
    simp only [stmt, Emission.faults_append, List.append_eq_nil_iff] at hfaults
    exact ((keeps_remark (le_refl _) _).append
      (keeps_expr value (le_refl _) hfaults.1.2 hfits)).append (keeps_shrink (le_refl _) c.wordSize)
  | .return_ span value, n, hfaults, hfits => by
    simp only [stmt, Emission.faults_append, List.append_eq_nil_iff] at hfaults
    have hleave : Keeps frame bottom (bottom + c.wordSize.toNat)
        (Emission.ofInstructions (c.pop .v0 ++ [.j (exitLabel c.function)])).code bottom := by
      rw [Emission.ofInstructions, List.map_append]
      exact (keeps_pop c (le_refl _) (by decide)).append (keeps_jump rfl rfl)
    exact ((keeps_remark (le_refl _) _).append
      (keeps_expr value (le_refl _) hfaults.1.2 hfits)).append hleave
  | .print span ending value, n, hfaults, hfits =>
    (keeps_remark (le_refl _) _).append
      (keeps_printCode (List.append_eq_nil_iff.1 hfaults).2 hfits)

/-- The code of statements starts and ends at the bottom. -/
theorem keeps_stmts : ∀ (ss : List Stmt) (n : UInt32), (stmts c ss n).faults = [] →
    Stmt.AllCallsFit c.wordSize ss → Keeps frame bottom bottom (stmts c ss n).code bottom
  | [], _, _, _ => ⟨le_refl _, rfl⟩
  | s :: ss, n, hfaults, hfits => by
    obtain ⟨hfirst, hrest⟩ := List.append_eq_nil_iff.1 hfaults
    exact (keeps_stmt s n hfirst hfits.1).append (keeps_stmts ss _ hrest hfits.2)

end

end Generate

end ScalarMips
