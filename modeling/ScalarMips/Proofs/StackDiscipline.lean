import ScalarMips.Proofs.StackHeights

/-!
# Stack discipline

The heights of the stack along a whole function. Every part of a function that code is generated for
(`Part`, `Reached`) has its code in that of the function and starts where it can: an expression at
or above the bottom of the stack, a statement exactly there (`Leads`). With what the code of a part
does to the stack (`Part.Sound.keeps`) and with the prologue and the end of the function, the
heights found along the text are those along every way through the code (`Disciplined`).
-/

namespace ScalarMips

namespace Generate

/-- The height of the stack at the frame pointer: the saved registers. -/
def Context.frame (c : Context) : ℤ :=
  c.savedSize.toNat

/-- The height of the stack between statements: the saved registers and the local variables. -/
def Context.bottom (c : Context) : ℤ :=
  c.savedSize.toNat + c.locals.localSize.toNat

variable {frame bottom h h' : ℤ} {c : Context}

/-! ### Parts -/

/-- What code is generated for. Branch labels of statements are numbered from `n`. -/
inductive Part where
  | expr (e : Expr)
  | arguments (es : List Expr)
  | stmt (s : Stmt) (n : UInt32)
  | stmts (ss : List Stmt) (n : UInt32)

namespace Part

/-- The code of a part, with its faults. -/
def emission (c : Context) : Part → Emission
  | expr e => Generate.expr c e
  | arguments es => argumentsCode c es
  | stmt s n => Generate.stmt c s n
  | stmts ss n => Generate.stmts c ss n

/-- The code of a part. -/
def code (c : Context) (p : Part) : Code :=
  (p.emission c).code

/-- The parts directly inside a statement, each with the code before it. -/
def ofStmt (c : Context) (s : Stmt) (n : UInt32) : List (Code × Part) :=
  let opening := (remark c s).code
  match s with
  | .block _ body => [(opening, stmts body n)]
  | .function .. => []
  | .var _ _ value | .print _ _ value => value.toList.map fun e ↦ (opening, expr e)
  | .assign _ _ _ value | .evaluate _ value | .return_ _ value => [(opening, expr value)]
  | .conditional _ condition thenBranch elseBranch =>
    let test := opening ++ (conditionCode c condition (branchLabel "if" n "else")).code
    let otherwise := test ++ (Generate.stmt c thenBranch (n + 1)).code ++
      [.instruction (.j (branchLabel "if" n "end")), .label (branchLabel "if" n "else")]
    [(opening, expr condition), (test, stmt thenBranch (n + 1))] ++
      elseBranch.toList.map fun branch ↦
        (otherwise, stmt branch (n + 1 + UInt32.ofNat (branchCount thenBranch)))
  | .loop _ condition body =>
    let start := opening ++ [.label (branchLabel "while" n "start")]
    [(start, expr condition),
      (start ++ (conditionCode c condition (branchLabel "while" n "end")).code, stmt body (n + 1))]

/-- The parts directly inside a part, each with the code before it. -/
def inner (c : Context) : Part → List (Code × Part)
  | expr (.literal ..) => []
  | expr (.var ..) => []
  | expr (.unary _ _ operand) => [([], expr operand)]
  | expr (.binary _ _ left right) =>
    [([], expr left), ((Generate.expr c left).code, expr right)]
  | expr (.call _ _ es) => [([], arguments es)]
  | arguments [] => []
  | arguments (e :: es) => [([], arguments es), ((argumentsCode c es).code, expr e)]
  | stmt s n => ofStmt c s n
  | stmts [] _ => []
  | stmts (s :: ss) n =>
    [([], stmt s n), ((Generate.stmt c s n).code, stmts ss (n + UInt32.ofNat (branchCount s)))]

/-- By how much a part raises the stack. -/
def rise (c : Context) : Part → ℕ
  | expr _ => c.wordSize.toNat
  | arguments es => es.length * c.wordSize.toNat
  | stmt .. => 0
  | stmts .. => 0

/-- At which heights a part can start: an expression anywhere above the bottom, a statement only
there. -/
def StartsAt (bottom h : ℤ) : Part → Prop
  | expr _ => bottom ≤ h
  | arguments _ => bottom ≤ h
  | stmt .. => h = bottom
  | stmts .. => h = bottom

/-- The arguments of every call in a part have a size below 32 bits. -/
def CallsFit (wordSize : UInt32) : Part → Prop
  | expr e => e.CallsFit wordSize
  | arguments es => Expr.AllCallsFit wordSize es
  | stmt s _ => s.CallsFit wordSize
  | stmts ss _ => Stmt.AllCallsFit wordSize ss

/-- A part has code and its calls fit. -/
structure Sound (c : Context) (p : Part) : Prop where
  /-- There are no faults. -/
  faults : (p.emission c).faults = []
  /-- The calls fit. -/
  calls : p.CallsFit c.wordSize

theorem Sound.keeps {p : Part} (hp : p.Sound c) (hstart : p.StartsAt bottom h) :
    Keeps frame bottom h (p.code c) (h + p.rise c) := by
  cases p with
  | expr e => exact keeps_expr e hstart hp.faults hp.calls
  | arguments es => exact keeps_argumentsCode es hstart hp.faults hp.calls
  | stmt s n =>
    obtain rfl : h = bottom := hstart
    rw [rise, Nat.cast_zero, add_zero]
    exact keeps_stmt s n hp.faults hp.calls
  | stmts ss n =>
    obtain rfl : h = bottom := hstart
    rw [rise, Nat.cast_zero, add_zero]
    exact keeps_stmts ss n hp.faults hp.calls

end Part

/-- A part somewhere inside of another one, and the code before it. -/
inductive Reached (c : Context) : Part → Code → Part → Prop where
  | self (p : Part) : Reached c p [] p
  | inside {p q r : Part} {before between : Code} : (before, q) ∈ p.inner c →
      Reached c q between r → Reached c p (before ++ between) r

/-- What is known of a part inside of another one that starts at `h`: it has code, which stands
behind the code before it, and it starts where it can. -/
structure Leads (c : Context) (frame bottom h : ℤ) (p : Part) (before : Code) (q : Part) :
    Prop where
  /-- The part is sound. -/
  sound : q.Sound c
  /-- The part starts where it can. -/
  starts : q.StartsAt bottom (Code.height frame h before)
  /-- The code of the part stands in the code around it. -/
  front : before ++ q.code c <+: p.code c

theorem Leads.trans {p q r : Part} {before between : Code}
    (hfirst : Leads c frame bottom h p before q)
    (hsecond : Leads c frame bottom (Code.height frame h before) q between r) :
    Leads c frame bottom h p (before ++ between) r where
  sound := hsecond.sound
  starts := by
    rw [Code.height_append]
    exact hsecond.starts
  front := by
    rw [List.append_assoc]
    exact ((List.prefix_append_right_inj before).2 hsecond.front).trans hfirst.front

/-- A part that nothing stands before. -/
theorem leads_first {p q : Part} (hq : q.Sound c) (hstart : q.StartsAt bottom h)
    (hcode : q.code c <+: p.code c) : Leads c frame bottom h p [] q :=
  ⟨hq, hstart, hcode⟩

/-- A part with code before it that keeps to the bottom. -/
theorem leads_after {p q : Part} {before : Code} (hbefore : Keeps frame bottom h before h')
    (hq : q.Sound c) (hstart : q.StartsAt bottom h') (hcode : before ++ q.code c <+: p.code c) :
    Leads c frame bottom h p before q :=
  ⟨hq, hbefore.height_eq.symm ▸ hstart, hcode⟩

theorem leads_expr {e : Expr} (hp : (Part.expr e).Sound c) (hle : bottom ≤ h) {before : Code}
    {q : Part} (hmem : (before, q) ∈ (Part.expr e).inner c) :
    Leads c frame bottom h (.expr e) before q := by
  obtain ⟨hfaults, hcalls⟩ := hp
  cases e with
  | literal => cases hmem
  | var => cases hmem
  | unary span op operand =>
    obtain ⟨rfl, rfl⟩ := Prod.mk.inj (List.mem_singleton.1 hmem)
    obtain ⟨hoperand, code, -, heq⟩ := unary_eq span hfaults
    exact leads_first ⟨hoperand, hcalls⟩ hle ⟨_, heq.symm⟩
  | binary span op left right =>
    obtain ⟨hleft, hright, code, -, heq⟩ := binary_eq span hfaults
    rcases List.mem_pair.1 hmem with hmem | hmem
    · obtain ⟨rfl, rfl⟩ := Prod.mk.inj hmem
      rw [List.append_assoc] at heq
      exact leads_first ⟨hleft, hcalls.1⟩ hle ⟨_, heq.symm⟩
    · obtain ⟨rfl, rfl⟩ := Prod.mk.inj hmem
      have hbefore : Keeps frame bottom h _ _ := keeps_expr left hle hleft hcalls.1
      exact leads_after hbefore ⟨hright, hcalls.2⟩ hbefore.le_end ⟨_, heq.symm⟩
  | call span name arguments =>
    obtain ⟨rfl, rfl⟩ := Prod.mk.inj (List.mem_singleton.1 hmem)
    obtain ⟨harguments, heq⟩ := call_eq span hfaults
    exact leads_first ⟨harguments, hcalls.2⟩ hle ⟨_, heq.symm⟩

theorem leads_arguments {es : List Expr} (hp : (Part.arguments es).Sound c) (hle : bottom ≤ h)
    {before : Code} {q : Part} (hmem : (before, q) ∈ (Part.arguments es).inner c) :
    Leads c frame bottom h (.arguments es) before q := by
  obtain ⟨hfaults, hcalls⟩ := hp
  cases es with
  | nil => cases hmem
  | cons e es =>
    obtain ⟨hrest, hfirst⟩ := List.append_eq_nil_iff.1 hfaults
    rcases List.mem_pair.1 hmem with hmem | hmem
    · obtain ⟨rfl, rfl⟩ := Prod.mk.inj hmem
      exact leads_first ⟨hrest, hcalls.2⟩ hle ⟨_, rfl⟩
    · obtain ⟨rfl, rfl⟩ := Prod.mk.inj hmem
      have hbefore : Keeps frame bottom h _ _ := keeps_argumentsCode es hle hrest hcalls.2
      exact leads_after hbefore ⟨hfirst, hcalls.1⟩ hbefore.le_end (List.prefix_refl _)

theorem leads_stmts {ss : List Stmt} {n : UInt32} (hp : (Part.stmts ss n).Sound c) {before : Code}
    {q : Part} (hmem : (before, q) ∈ (Part.stmts ss n).inner c) :
    Leads c frame bottom bottom (.stmts ss n) before q := by
  obtain ⟨hfaults, hcalls⟩ := hp
  cases ss with
  | nil => cases hmem
  | cons s ss =>
    obtain ⟨hfirst, hrest⟩ := List.append_eq_nil_iff.1 hfaults
    rcases List.mem_pair.1 hmem with hmem | hmem
    · obtain ⟨rfl, rfl⟩ := Prod.mk.inj hmem
      exact leads_first ⟨hfirst, hcalls.1⟩ rfl ⟨_, rfl⟩
    · obtain ⟨rfl, rfl⟩ := Prod.mk.inj hmem
      exact leads_after (keeps_stmt s n hfirst hcalls.1) ⟨hrest, hcalls.2⟩ rfl (List.prefix_refl _)

/-- The value that is stored comes first. -/
theorem storeCode_eq {name : String} {value : Expr}
    (hfaults : (storeCode c name (some value)).faults = []) :
    (expr c value).faults = [] ∧ (expr c value).code <+: (storeCode c name (some value)).code := by
  unfold storeCode at hfaults ⊢
  split at hfaults
  · cases hfaults
  · rename_i heq
    cases heq
    exact ⟨(List.append_eq_nil_iff.1 hfaults).1, List.prefix_append _ _⟩
  · rename_i heq
    cases heq

/-- The value that is printed comes first. -/
theorem printCode_eq {ending : PrintEnd} {value : Expr}
    (hfaults : (printCode c ending (some value)).faults = []) :
    (expr c value).faults = [] ∧
      (expr c value).code <+: (printCode c ending (some value)).code := by
  simp only [printCode, Emission.faults_append, List.append_eq_nil_iff] at hfaults
  refine ⟨hfaults.1.1, ?_⟩
  simp only [printCode, Emission.code_append, List.append_assoc]
  exact List.prefix_append _ _

/-- An expression that opens a statement. -/
theorem leads_value {s : Stmt} {n : UInt32} {value : Expr} {rest : Code}
    (heq : (stmt c s n).code = (remark c s).code ++ rest)
    (hvalue : (expr c value).faults = [] ∧ (expr c value).code <+: rest)
    (hcalls : value.CallsFit c.wordSize) :
    Leads c frame bottom bottom (.stmt s n) (remark c s).code (.expr value) := by
  refine leads_after (keeps_remark (le_refl _) s) ⟨hvalue.1, hcalls⟩ (le_refl _) ?_
  show _ <+: (stmt c s n).code
  rw [heq]
  exact (List.prefix_append_right_inj _).2 hvalue.2

/-- A condition comes first in its test, and what it guards comes behind the test. -/
theorem leads_tested {s : Stmt} {n : UInt32} {front : Code} {condition : Expr}
    {otherwise : String} {guarded q : Part} {before : Code}
    (hcode : front ++ (conditionCode c condition otherwise).code ++ guarded.code c <+:
      (stmt c s n).code)
    (hfront : Keeps frame bottom bottom front bottom)
    (hfaults : (conditionCode c condition otherwise).faults = [])
    (hcalls : condition.CallsFit c.wordSize)
    (hguarded : guarded.Sound c) (hstart : guarded.StartsAt bottom bottom)
    (hmem : (before, q) ∈ [(front, .expr condition),
      (front ++ (conditionCode c condition otherwise).code, guarded)]) :
    Leads c frame bottom bottom (.stmt s n) before q := by
  rcases List.mem_pair.1 hmem with hmem | hmem
  · obtain ⟨rfl, rfl⟩ := Prod.mk.inj hmem
    refine leads_after hfront ⟨(List.append_eq_nil_iff.1 hfaults).1, hcalls⟩ (le_refl _) ?_
    have htest : (expr c condition).code <+: (conditionCode c condition otherwise).code :=
      List.prefix_append _ _
    exact (((List.prefix_append_right_inj _).2 htest).trans (List.prefix_append _ _)).trans hcode
  · obtain ⟨rfl, rfl⟩ := Prod.mk.inj hmem
    exact leads_after (hfront.append (keeps_conditionCode hfaults hcalls)) hguarded hstart hcode

theorem leads_conditional {span : Span} {condition : Expr} {thenBranch : Stmt}
    {elseBranch : Option Stmt} {n : UInt32}
    (hp : (Part.stmt (.conditional span condition thenBranch elseBranch) n).Sound c)
    {before : Code} {q : Part}
    (hmem : (before, q) ∈
      (Part.stmt (.conditional span condition thenBranch elseBranch) n).inner c) :
    Leads c frame bottom bottom (.stmt (.conditional span condition thenBranch elseBranch) n)
      before q := by
  obtain ⟨hfaults, hcalls⟩ := hp
  have hopening : Keeps frame bottom bottom
      (remark c (.conditional span condition thenBranch elseBranch)).code bottom :=
    keeps_remark (le_refl _) _
  cases elseBranch with
  | none =>
    simp only [Part.emission, stmt, Emission.faults_append, List.append_eq_nil_iff] at hfaults
    have hthen : (Part.stmt thenBranch (n + 1)).Sound c := ⟨hfaults.1.1.1.2, hcalls.2⟩
    refine leads_tested ?_ hopening hfaults.1.1.1.1.2 hcalls.1 hthen rfl hmem
    simp only [Part.code, Part.emission, stmt, Emission.code_append, Emission.label,
      List.append_assoc, List.prefix_append_right_inj, List.prefix_append]
  | some elseBranch =>
    simp only [Part.emission, stmt, Emission.faults_append, List.append_eq_nil_iff] at hfaults
    have hthen : (Part.stmt thenBranch (n + 1)).Sound c := ⟨hfaults.1.1.1.1.2, hcalls.2.1⟩
    rcases List.mem_append.1 hmem with hmem | hmem
    · refine leads_tested ?_ hopening hfaults.1.1.1.1.1.2 hcalls.1 hthen rfl hmem
      simp only [Part.code, Part.emission, stmt, Emission.code_append, Emission.label,
        List.append_assoc, List.prefix_append_right_inj, List.prefix_append]
    · obtain ⟨rfl, rfl⟩ := Prod.mk.inj (List.mem_singleton.1 hmem)
      have htest := hopening.append (keeps_conditionCode hfaults.1.1.1.1.1.2 hcalls.1)
      have hbranch := htest.append (keeps_stmt thenBranch (n + 1) hthen.faults hthen.calls)
      have hleave : Keeps frame bottom bottom [.instruction (.j (branchLabel "if" n "end")),
          .label (branchLabel "if" n "else")] bottom :=
        (keeps_jump rfl rfl).append (keeps_label _)
      refine leads_after (hbranch.append hleave) ⟨hfaults.1.2, hcalls.2.2⟩ rfl ?_
      simp only [Part.code, Part.emission, stmt, Emission.code_append, Emission.label,
        Emission.ofInstructions, List.map_cons, List.map_nil, List.append_assoc, List.cons_append,
        List.nil_append, List.prefix_append_right_inj, List.cons_prefix_cons, List.prefix_append,
        true_and]

theorem leads_stmt {s : Stmt} {n : UInt32} (hp : (Part.stmt s n).Sound c) {before : Code} {q : Part}
    (hmem : (before, q) ∈ (Part.stmt s n).inner c) :
    Leads c frame bottom bottom (.stmt s n) before q := by
  cases s with
  | block span body =>
    obtain ⟨rfl, rfl⟩ := Prod.mk.inj (List.mem_singleton.1 hmem)
    exact leads_after (keeps_remark (le_refl _) _)
      ⟨(List.append_eq_nil_iff.1 hp.faults).2, hp.calls⟩ rfl (List.prefix_refl _)
  | function => cases hmem
  | var span head initial =>
    cases initial with
    | none => cases hmem
    | some value =>
      obtain ⟨rfl, rfl⟩ := Prod.mk.inj (List.mem_singleton.1 hmem)
      exact leads_value rfl (storeCode_eq (List.append_eq_nil_iff.1 hp.faults).2) hp.calls
  | assign span name target value =>
    obtain ⟨rfl, rfl⟩ := Prod.mk.inj (List.mem_singleton.1 hmem)
    exact leads_value rfl (storeCode_eq (List.append_eq_nil_iff.1 hp.faults).2) hp.calls
  | conditional span condition thenBranch elseBranch => exact leads_conditional hp hmem
  | loop span condition body =>
    obtain ⟨hfaults, hcalls⟩ := hp
    simp only [Part.emission, stmt, Emission.faults_append, List.append_eq_nil_iff] at hfaults
    have hstart : Keeps frame bottom bottom ((remark c (.loop span condition body)).code ++
        [.label (branchLabel "while" n "start")]) bottom :=
      (keeps_remark (le_refl _) _).append (keeps_label _)
    have hbody : (Part.stmt body (n + 1)).Sound c := ⟨hfaults.1.1.2, hcalls.2⟩
    refine leads_tested ?_ hstart hfaults.1.1.1.2 hcalls.1 hbody rfl hmem
    simp only [Part.code, Part.emission, stmt, Emission.code_append, Emission.label,
      List.append_assoc, List.prefix_append_right_inj, List.prefix_append]
  | evaluate span value =>
    obtain ⟨rfl, rfl⟩ := Prod.mk.inj (List.mem_singleton.1 hmem)
    obtain ⟨hfaults, hcalls⟩ := hp
    simp only [Part.emission, stmt, Emission.faults_append, List.append_eq_nil_iff] at hfaults
    exact leads_value (List.append_assoc _ _ _) ⟨hfaults.1.2, List.prefix_append _ _⟩ hcalls
  | return_ span value =>
    obtain ⟨rfl, rfl⟩ := Prod.mk.inj (List.mem_singleton.1 hmem)
    obtain ⟨hfaults, hcalls⟩ := hp
    simp only [Part.emission, stmt, Emission.faults_append, List.append_eq_nil_iff] at hfaults
    exact leads_value (List.append_assoc _ _ _) ⟨hfaults.1.2, List.prefix_append _ _⟩ hcalls
  | print span ending value =>
    cases value with
    | none => cases hmem
    | some value =>
      obtain ⟨rfl, rfl⟩ := Prod.mk.inj (List.mem_singleton.1 hmem)
      exact leads_value rfl (printCode_eq (List.append_eq_nil_iff.1 hp.faults).2) hp.calls

theorem Part.Sound.leads_inner {p q : Part} (hp : p.Sound c) (hstart : p.StartsAt bottom h)
    {before : Code} (hmem : (before, q) ∈ p.inner c) : Leads c frame bottom h p before q := by
  cases p with
  | expr e => exact leads_expr hp hstart hmem
  | arguments es => exact leads_arguments hp hstart hmem
  | stmt s n =>
    obtain rfl : h = bottom := hstart
    exact leads_stmt hp hmem
  | stmts ss n =>
    obtain rfl : h = bottom := hstart
    exact leads_stmts hp hmem

/-- Every part inside of a part has its code there and starts where it can. -/
theorem Reached.leads {p q : Part} {before : Code} (hreached : Reached c p before q) :
    ∀ {h : ℤ}, p.Sound c → p.StartsAt bottom h → Leads c frame bottom h p before q := by
  induction hreached with
  | self p => exact fun hp hstart ↦ leads_first hp hstart (List.prefix_refl _)
  | inside hmem _ ih =>
    intro h hp hstart
    have hfirst : Leads c frame bottom h _ _ _ := hp.leads_inner hstart hmem
    exact hfirst.trans (ih hfirst.sound hfirst.starts)

/-! ### Functions -/

/-- The code between the prologue and the end of a function. -/
def innerCode (c : Context) (body : List Stmt) (n : UInt32) : Code :=
  (stmts c body n).code ++ [.label (exitLabel c.function)]

/-- How a function ends. -/
def ending (c : Context) (entry : String) : List Instruction :=
  if c.function = entry then serviceCode .exit else epilogue c

/-- The code of a function behind its opening label. -/
def bodyCode (c : Context) (entry : String) (body : List Stmt) (n : UInt32) : Code :=
  (prologue c).map .instruction ++ (innerCode c body n ++ (ending c entry).map .instruction)

/-- The code of a function has a consistent assignment of heights to its lines, from the height 0 on
that the stack has when the function is called. -/
structure Disciplined (c : Context) (entry : String) (body : List Stmt) (n : UInt32)
    (height : ℕ → ℤ) : Prop where
  /-- The function is entered at height 0. -/
  start : height 0 = 0
  /-- Every line changes the height as it should. -/
  next : ∀ k line, (bodyCode c entry body n)[k]? = some line →
    height (k + 1) = line.height c.frame (height k)
  /-- The stack pointer is changed in no other way. -/
  tracked : ∀ i, .instruction i ∈ bodyCode c entry body n → i.Tracked
  /-- The frame pointer is set to the height that the stack pointer gets back from it, and the one
  of the caller is restored only after that. -/
  pointer : ∀ k i, (bodyCode c entry body n)[k]? = some (.instruction i) →
    i.written? = some .fp → height k = c.frame ∧ (i = .move .fp .sp ∨
      ∀ l, k < l → (bodyCode c entry body n)[l]? ≠ some (.instruction (.move .sp .fp)))
  /-- A label has the height of every branch and jump that goes to it. -/
  jump : ∀ k l i label, (bodyCode c entry body n)[k]? = some (.instruction i) →
    i.target? = some label → (bodyCode c entry body n)[l]? = some (.label label) →
      height k = height l
  /-- The stack does not fall below its bottom between prologue and end. -/
  bottom_le : ∀ k, (prologue c).length ≤ k →
    k ≤ (prologue c).length + (innerCode c body n).length → c.bottom ≤ height k
  /-- The code of every part stands where it should. It starts at a height where it can, and raises
  the height by as much as it should. -/
  part : ∀ before q, Reached c (.stmts body n) before q →
    q.code c <+: (bodyCode c entry body n).drop ((prologue c).length + before.length) ∧
      q.StartsAt c.bottom (height ((prologue c).length + before.length)) ∧
      height ((prologue c).length + before.length + (q.code c).length) =
        height ((prologue c).length + before.length) + q.rise c
  /-- The function returns at height 0. -/
  return_ : ∀ k, (bodyCode c entry body n)[k]? = some (.instruction (.jr .ra)) → height k = 0

/-- The height of the stack at a line of a function. -/
def heightAt (c : Context) (entry : String) (body : List Stmt) (n : UInt32) (k : ℕ) : ℤ :=
  Code.height c.frame 0 ((bodyCode c entry body n).take k)

variable {entry : String} {body : List Stmt} {n : UInt32}

theorem function_eq_bodyCode (c : Context) (entry : String) (body : List Stmt) (n : UInt32) :
    (function c entry body n).code = Block.code ⟨c.function, bodyCode c entry body n⟩ := by
  simp only [function, Emission.code_append, List.append_assoc]
  simp only [Block.code, bodyCode, innerCode, List.append_assoc]
  rfl

theorem height_prologue (c : Context) :
    Code.height c.frame 0 ((prologue c).map .instruction) = c.bottom := by
  have hsaved : Code.height c.frame 0 ([.immediate .subu .sp .sp c.savedSize,
      .sw .ra (.above c.wordSize .sp), .sw .fp (.above 0 .sp), .move .fp .sp].map .instruction) =
        c.savedSize.toNat := zero_add _
  rw [prologue, List.map_append, Code.height_append, hsaved, Context.bottom]
  split
  · rename_i hzero
    rw [hzero]
    exact (add_zero _).symm
  · rfl

theorem heightAt_succ {k : ℕ} {line : Line Instruction}
    (hline : (bodyCode c entry body n)[k]? = some line) :
    heightAt c entry body n (k + 1) = line.height c.frame (heightAt c entry body n k) := by
  rw [heightAt, List.take_add_one, hline, Code.height_append]
  rfl

theorem heightAt_inner {j : ℕ} (hj : j ≤ (innerCode c body n).length) :
    heightAt c entry body n ((prologue c).length + j) =
      Code.height c.frame c.bottom ((innerCode c body n).take j) := by
  have hlength : ((prologue c).map Line.instruction).length = (prologue c).length :=
    List.length_map _
  rw [heightAt, bodyCode, ← hlength, List.take_length_add_append,
    List.take_append_of_le_length hj, Code.height_append, height_prologue]

theorem keeps_innerCode (hfaults : (stmts c body n).faults = [])
    (hfits : Stmt.AllCallsFit c.wordSize body) :
    Keeps frame bottom bottom (innerCode c body n) bottom :=
  (keeps_stmts body n hfaults hfits).append (keeps_label _)

theorem heightAt_ending (hfaults : (stmts c body n).faults = [])
    (hfits : Stmt.AllCallsFit c.wordSize body) (j : ℕ) :
    heightAt c entry body n ((prologue c).length + ((innerCode c body n).length + j)) =
      Code.height c.frame c.bottom (((ending c entry).map .instruction).take j) := by
  have hlength : ((prologue c).map Line.instruction).length = (prologue c).length :=
    List.length_map _
  have hinner : Keeps c.frame c.bottom c.bottom (innerCode c body n) c.bottom :=
    keeps_innerCode hfaults hfits
  rw [heightAt, bodyCode, ← hlength, List.take_length_add_append, List.take_length_add_append,
    Code.height_append, Code.height_append, height_prologue, hinner.height_eq]

/-- A line of a function stands in the prologue, between prologue and end, or in the end. -/
theorem getElem?_bodyCode {k : ℕ} {line : Line Instruction}
    (hline : (bodyCode c entry body n)[k]? = some line) :
    (∃ i, (prologue c)[k]? = some i ∧ line = .instruction i) ∨
      (∃ j, k = (prologue c).length + j ∧ (innerCode c body n)[j]? = some line) ∨
      ∃ j i, k = (prologue c).length + ((innerCode c body n).length + j) ∧
        (ending c entry)[j]? = some i ∧ line = .instruction i := by
  have hof : ∀ {is : List Instruction} {j : ℕ},
      (is.map Line.instruction)[j]? = some line → ∃ i, is[j]? = some i ∧ line = .instruction i := by
    intro is j hj
    rw [List.getElem?_map] at hj
    obtain ⟨i, hi, rfl⟩ := Option.map_eq_some_iff.1 hj
    exact ⟨i, hi, rfl⟩
  rw [bodyCode, List.getElem?_append, List.length_map] at hline
  split at hline
  · exact .inl (hof hline)
  · rename_i hk
    rw [List.getElem?_append] at hline
    split at hline
    · exact .inr (.inl ⟨k - (prologue c).length, by omega, hline⟩)
    · rename_i hj
      obtain ⟨i, hi, rfl⟩ := hof hline
      exact .inr (.inr ⟨_, i, by omega, hi, rfl⟩)

theorem tracked_prologue (c : Context) :
    ∀ i ∈ prologue c, i.Tracked ∧ i.target? = none ∧ i.returns = false := by
  unfold prologue
  split <;>
    simp [Instruction.Tracked, Instruction.written?, Instruction.target?, Instruction.returns]

theorem tracked_ending (c : Context) (entry : String) :
    ∀ i ∈ ending c entry, i.Tracked ∧ i.target? = none := by
  unfold ending epilogue serviceCode
  split <;> simp [Instruction.Tracked, Instruction.written?, Instruction.target?]

/-- The prologue sets the frame pointer in one place. -/
theorem pointer_prologue {k : ℕ} {i : Instruction} (hi : (prologue c)[k]? = some i)
    (hwritten : i.written? = some .fp) :
    i = .move .fp .sp ∧
      Code.height c.frame 0 (((prologue c).map .instruction).take k) = c.frame := by
  unfold prologue at hi ⊢
  match k with
  | 0 | 1 | 2 => cases hi; cases hwritten
  | 3 => cases hi; exact ⟨rfl, zero_add _⟩
  | k + 4 =>
    split at hi
    · cases hi
    · cases k with
      | zero => cases hi; cases hwritten
      | succ k => cases hi

/-- The end of a function restores the frame pointer after it has used it. -/
theorem pointer_ending {j : ℕ} {i : Instruction} (hi : (ending c entry)[j]? = some i)
    (hwritten : i.written? = some .fp) :
    Code.height c.frame c.bottom (((ending c entry).map .instruction).take j) = c.frame ∧
      ∀ l, j < l → (ending c entry)[l]? ≠ some (.move .sp .fp) := by
  unfold ending at hi ⊢
  split at hi
  · match j with
    | 0 | 1 => cases hi; cases hwritten
    | j + 2 => cases hi
  · rename_i hentry
    rw [if_neg hentry]
    match j with
    | 0 | 2 | 3 | 4 => cases hi; cases hwritten
    | 1 =>
      refine ⟨rfl, fun l hl hmove ↦ ?_⟩
      match l with
      | 2 | 3 | 4 => cases hmove
      | l + 5 => cases hmove
    | j + 5 => cases hi

/-- A function returns at the height at which it was called. -/
theorem return_ending {j : ℕ} (hj : (ending c entry)[j]? = some (.jr .ra)) :
    Code.height c.frame c.bottom (((ending c entry).map .instruction).take j) = 0 := by
  unfold ending at hj ⊢
  split at hj
  · match j with
    | 0 | 1 => cases hj
    | j + 2 => cases hj
  · rename_i hentry
    rw [if_neg hentry]
    match j with
    | 0 | 1 | 2 | 3 => cases hj
    | 4 => exact sub_self (c.savedSize.toNat : ℤ)
    | j + 5 => cases hj

/-- Lines at which code is entered or left by a jump stand between prologue and end. -/
theorem heightAt_joint (hfaults : (stmts c body n).faults = [])
    (hfits : Stmt.AllCallsFit c.wordSize body) {k : ℕ} {line : Line Instruction}
    (hline : (bodyCode c entry body n)[k]? = some line) (hjoint : line.IsJoint) :
    heightAt c entry body n k = c.bottom := by
  rcases getElem?_bodyCode hline with ⟨i, hi, rfl⟩ | ⟨j, rfl, hj⟩ | ⟨j, i, rfl, hi, rfl⟩
  · rw [Line.IsJoint, (tracked_prologue c i (List.mem_of_getElem? hi)).2.1] at hjoint
    cases hjoint
  · rw [heightAt_inner (List.getElem?_eq_some_iff.1 hj).1.le]
    exact (keeps_innerCode hfaults hfits).joint hj hjoint
  · rw [Line.IsJoint, (tracked_ending c entry i (List.mem_of_getElem? hi)).2] at hjoint
    cases hjoint

theorem heightAt_prologue {k : ℕ} (hk : k ≤ (prologue c).length) :
    heightAt c entry body n k =
      Code.height c.frame 0 (((prologue c).map .instruction).take k) := by
  rw [heightAt, bodyCode, List.take_append_of_le_length (by rwa [List.length_map])]

theorem tracked_bodyCode (hfaults : (stmts c body n).faults = [])
    (hfits : Stmt.AllCallsFit c.wordSize body) {i : Instruction}
    (hi : .instruction i ∈ bodyCode c entry body n) : i.Tracked := by
  have hinner : Keeps c.frame c.bottom c.bottom (innerCode c body n) c.bottom :=
    keeps_innerCode hfaults hfits
  obtain ⟨k, hk⟩ := List.mem_iff_getElem?.1 hi
  rcases getElem?_bodyCode hk with ⟨i, hi, ⟨⟩⟩ | ⟨j, rfl, hj⟩ | ⟨j, i, rfl, hi, ⟨⟩⟩
  · exact (tracked_prologue c i (List.mem_of_getElem? hi)).1
  · exact (hinner.staysInFrame _ (List.mem_of_getElem? hj)).1
  · exact (tracked_ending c entry i (List.mem_of_getElem? hi)).1

theorem pointer_bodyCode (hfaults : (stmts c body n).faults = [])
    (hfits : Stmt.AllCallsFit c.wordSize body) {k : ℕ} {i : Instruction}
    (hk : (bodyCode c entry body n)[k]? = some (.instruction i))
    (hwritten : i.written? = some .fp) :
    heightAt c entry body n k = c.frame ∧ (i = .move .fp .sp ∨
      ∀ l, k < l → (bodyCode c entry body n)[l]? ≠ some (.instruction (.move .sp .fp))) := by
  rcases getElem?_bodyCode hk with ⟨i, hi, ⟨⟩⟩ | ⟨j, rfl, hj⟩ | ⟨j, i, rfl, hi, ⟨⟩⟩
  · obtain ⟨hmove, hheight⟩ := pointer_prologue hi hwritten
    rw [heightAt_prologue (List.getElem?_eq_some_iff.1 hi).1.le]
    exact ⟨hheight, .inl hmove⟩
  · have hinner : Keeps c.frame c.bottom c.bottom (innerCode c body n) c.bottom :=
      keeps_innerCode hfaults hfits
    exact absurd hwritten (hinner.staysInFrame _ (List.mem_of_getElem? hj)).2.1
  · obtain ⟨hheight, hlast⟩ := pointer_ending hi hwritten
    rw [heightAt_ending hfaults hfits]
    refine ⟨hheight, .inr fun l hl hmove ↦ ?_⟩
    -- What comes later stands in the end of the function as well.
    rcases getElem?_bodyCode hmove with ⟨i, hi, -⟩ | ⟨m, rfl, hm⟩ | ⟨m, i, rfl, hm, ⟨⟩⟩
    · have := (List.getElem?_eq_some_iff.1 hi).1
      omega
    · have := (List.getElem?_eq_some_iff.1 hm).1
      omega
    · exact hlast m (by omega) hm

/-- Every part of a function has its code there, starts where it can and raises the stack by as much
as it should. -/
theorem part_bodyCode (hfaults : (stmts c body n).faults = [])
    (hfits : Stmt.AllCallsFit c.wordSize body) {before : Code} {q : Part}
    (hreached : Reached c (.stmts body n) before q) :
    q.code c <+: (bodyCode c entry body n).drop ((prologue c).length + before.length) ∧
      q.StartsAt c.bottom (heightAt c entry body n ((prologue c).length + before.length)) ∧
      heightAt c entry body n ((prologue c).length + before.length + (q.code c).length) =
        heightAt c entry body n ((prologue c).length + before.length) + q.rise c := by
  obtain ⟨hsound, hstarts, hfront⟩ : Leads c c.frame c.bottom c.bottom (.stmts body n) before q :=
    hreached.leads ⟨hfaults, hfits⟩ rfl
  obtain ⟨rest, hrest⟩ : before ++ q.code c <+: innerCode c body n :=
    hfront.trans (List.prefix_append _ _)
  have hbefore : heightAt c entry body n ((prologue c).length + before.length) =
      Code.height c.frame c.bottom before := by
    rw [heightAt_inner (by simp [← hrest]), ← hrest, List.append_assoc, List.take_left]
  have hafter : heightAt c entry body n
      ((prologue c).length + before.length + (q.code c).length) =
        Code.height c.frame c.bottom (before ++ q.code c) := by
    rw [Nat.add_assoc, ← List.length_append, heightAt_inner (by simp [← hrest]), ← hrest,
      List.take_left]
  refine ⟨?_, hbefore ▸ hstarts, ?_⟩
  · have hlength : ((prologue c).map Line.instruction).length = (prologue c).length :=
      List.length_map _
    rw [bodyCode, ← hlength, List.drop_length_add_append, ← hrest, List.append_assoc,
      List.append_assoc, List.drop_left]
    exact List.prefix_append _ _
  · rw [hafter, hbefore, Code.height_append]
    exact (hsound.keeps hstarts).height_eq

/-- The code of a function without a fault is disciplined. -/
theorem disciplined_function (c : Context) (entry : String) (body : List Stmt) (n : UInt32)
    (hfaults : (stmts c body n).faults = []) (hfits : Stmt.AllCallsFit c.wordSize body) :
    Disciplined c entry body n (heightAt c entry body n) where
  start := rfl
  next _ _ hline := heightAt_succ hline
  tracked _ hi := tracked_bodyCode hfaults hfits hi
  pointer _ _ hk hwritten := pointer_bodyCode hfaults hfits hk hwritten
  jump k l i label hk htarget hl := by
    have hjoint : (Line.instruction i).IsJoint := by
      rw [Line.IsJoint, htarget]
      rfl
    rw [heightAt_joint hfaults hfits hk hjoint, heightAt_joint hfaults hfits hl trivial]
  bottom_le k hle hk := by
    obtain ⟨j, rfl⟩ := Nat.exists_eq_add_of_le hle
    rw [heightAt_inner (by omega)]
    exact (keeps_innerCode hfaults hfits).bottom_le j
  part _ _ hreached := part_bodyCode hfaults hfits hreached
  return_ k hk := by
    rcases getElem?_bodyCode hk with ⟨i, hi, ⟨⟩⟩ | ⟨j, rfl, hj⟩ | ⟨j, i, rfl, hi, ⟨⟩⟩
    · cases (tracked_prologue c _ (List.mem_of_getElem? hi)).2.2
    · have hinner : Keeps c.frame c.bottom c.bottom (innerCode c body n) c.bottom :=
        keeps_innerCode hfaults hfits
      cases (hinner.staysInFrame _ (List.mem_of_getElem? hj)).2.2
    · rw [heightAt_ending hfaults hfits]
      exact return_ending hi

/-! ### Programs -/

/-- A block is the code of a function, and it is disciplined. -/
def DisciplinedBlock (table : SymbolTable) (options : Options) (f : FunctionDecl) (block : Block) :
    Prop :=
  ∃ (locals : SymbolTable) (n : UInt32) (height : ℕ → ℤ),
    let c : Context := ⟨table, locals, f.head.name, options.annotate⟩
    table.locals? f.head.name = some locals ∧
      block = ⟨f.head.name, bodyCode c options.entry f.body n⟩ ∧
      Disciplined c options.entry f.body n height

variable {table : SymbolTable} {options : Options}

/-- The code of a function without a failure is a disciplined block. -/
theorem topLevel_disciplined {span : Span} {f : FunctionDecl} {n : UInt32}
    (hfailures :
      (topLevel table options n (.function span f.head f.parameters f.body)).failures = [])
    (hfits : Stmt.AllCallsFit table.wordSize f.body) :
    ∃ block : Block, DisciplinedBlock table options f block ∧
      (topLevel table options n (.function span f.head f.parameters f.body)).code = block.code := by
  rw [topLevel] at hfailures ⊢
  split at hfailures
  · rename_i locals hlocals
    let c : Context := ⟨table, locals, f.head.name, options.annotate⟩
    have hfaults : (function c options.entry f.body n).faults = [] :=
      List.map_eq_nil_iff.1 hfailures
    simp only [function, Emission.faults_append, List.append_eq_nil_iff] at hfaults
    exact ⟨_, ⟨locals, n, _, hlocals, rfl,
      disciplined_function c options.entry f.body n hfaults.1.1.2 hfits⟩,
      function_eq_bodyCode c options.entry f.body n⟩
  · cases hfailures

theorem functions_disciplined {program : List Stmt} {n : UInt32}
    (hfailures : (functions table options program n).failures = [])
    (hfits : ∀ f ∈ functionDecls program, Stmt.AllCallsFit table.wordSize f.body) :
    ∃ blocks : List Block, (functions table options program n).code = blocks.flatMap Block.code ∧
      List.Forall₂ (DisciplinedBlock table options) (functionDecls program) blocks := by
  induction program generalizing n with
  | nil => exact ⟨[], rfl, .nil⟩
  | cons first rest ih =>
    obtain ⟨hfirst, hrest⟩ := List.append_eq_nil_iff.1 hfailures
    cases first with
    | function span head parameters body =>
      obtain ⟨hfitsFirst, hfitsRest⟩ := List.forall_mem_cons.1 hfits
      obtain ⟨blocks, hcode, hblocks⟩ := ih hrest hfitsRest
      obtain ⟨block, hblock, hfirstCode⟩ :=
        topLevel_disciplined (f := ⟨head, parameters, body⟩) hfirst hfitsFirst
      exact ⟨block :: blocks, congrArg₂ (· ++ ·) hfirstCode hcode, .cons hblock hblocks⟩
    | var span head initial => exact ih hrest hfits
    | _ => cases hfirst

end Generate

open Generate

/-- **Stack discipline.** Of a program that code is generated for, whatever table it was generated
from, every function has a disciplined block: its lines can be given heights such that `$sp` is
changed by what they say, all ways to a label agree, the stack does not fall below the saved
registers and local variables between prologue and end, every expression raises it by one word and
every statement starts and ends at its bottom. -/
theorem program_disciplined {table : SymbolTable} {options : Options} {program : List Stmt}
    {code : Code} (h : Generate.program table options program = .ok code)
    (hfits : ∀ f ∈ functionDecls program, Stmt.AllCallsFit table.wordSize f.body) :
    ∃ blocks : List Block,
      code = dataSection table ++ preamble options.entry ++ blocks.flatMap Block.code ∧
      List.Forall₂ (DisciplinedBlock table options) (functionDecls program) blocks := by
  simp only [Generate.program] at h
  split at h
  · cases h
  · split at h
    · cases h
    · split at h
      · rename_i hfailures
        obtain ⟨blocks, hcode, hblocks⟩ :=
          functions_disciplined (List.isEmpty_iff.1 hfailures) hfits
        rw [hcode] at h
        exact ⟨blocks, (Except.ok.inj h).symm, hblocks⟩
      · cases h

/-- A function with two parameters that is called in a loop. -/
def Sample.adding : List Stmt :=
  [.function {} ⟨"add", .int, {}⟩ [⟨"a", .int, {}⟩, ⟨"b", .int, {}⟩]
      [.return_ {} (.binary {} .plus (.var {} "a") (.var {} "b"))],
    .function {} ⟨"main", .int, {}⟩ []
      [.var {} ⟨"x", .int, {}⟩ none,
        .loop {} (.binary {} .less (.var {} "x") (number 9))
          (.assign {} "x" {} (.call {} "add" [.var {} "x", number 2])),
        .return_ {} (.var {} "x")]]

theorem program_disciplined_adding :
    ∃ code, Generate.program (Layout.build Sample.adding {}).table {} Sample.adding = .ok code ∧
      ∃ blocks : List Block,
        code = dataSection (Layout.build Sample.adding {}).table ++ preamble "main" ++
          blocks.flatMap Block.code ∧
        List.Forall₂ (DisciplinedBlock (Layout.build Sample.adding {}).table {})
          (functionDecls Sample.adding) blocks ∧
        blocks.length = 2 := by
  obtain ⟨code, hcode⟩ : ∃ code,
      Generate.program (Layout.build Sample.adding {}).table {} Sample.adding = .ok code :=
    ⟨_, by cbv⟩
  have hfits : ∀ f ∈ functionDecls Sample.adding,
      Stmt.AllCallsFit (Layout.build Sample.adding {}).table.wordSize f.body := by
    have hsize : (Layout.build Sample.adding {}).table.wordSize = 4 := by cbv
    rw [hsize]
    simp [Sample.adding, Sample.number, functionDecls, Stmt.function?, Stmt.AllCallsFit,
      Stmt.CallsFit, Expr.CallsFit, Expr.AllCallsFit, Expr.OptionCallsFit]
  obtain ⟨blocks, heq, hblocks⟩ := program_disciplined hcode hfits
  exact ⟨code, hcode, blocks, heq, hblocks, hblocks.length_eq.symm⟩

end ScalarMips
