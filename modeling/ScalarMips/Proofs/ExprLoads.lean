import ScalarMips.Proofs.Activations

/-!
# Loads in expressions

The code of an expression is safe if the moment after it is, where its value is on top of the stack
(`safe_expr`). What a call does is assumed here for fewer steps (`SafeCalls`), since the call itself
takes one.

The arguments of a call are pushed last to first. `Pushes` keeps the instruction that pushed each of
them, from which the source of every parameter of the called function is known (`Called`).
-/

namespace ScalarMips

open Generate
open Semantics (bodyDepth)

variable {t : Target} {strict : Prop} {f : FunctionDecl} {a d n : Nat} {name : String}
  {type : ScalarType} {Γ : Env} {x y z base : Moment}

/-! ### Values -/

theorem suits_int (v : Word) : Suits strict .int v := nofun

theorem isTruth_ofBool (b : Bool) : Word.IsTruth (Word.ofBool b) := by
  cases b
  · exact .inl rfl
  · exact .inr rfl

theorem suits_of_ofType {value : Int32} (h : Semantics.OfType type value) :
    Suits strict type value.toBitVec := fun _ htype ↦
  (isTruth_iff.1 (h htype)).imp (congrArg Int32.toBitVec) (congrArg Int32.toBitVec)

theorem plain_unaryCode? {op : Operator} {code : List Instruction} (h : unaryCode? op = some code) :
    ∀ i ∈ code, i.plain := by
  cases op <;> cases h <;> decide

theorem plain_binaryCode? {op : Operator} {code : List Instruction}
    (h : binaryCode? op = some code) : ∀ i ∈ code, i.plain := by
  cases op <;> cases h <;> decide

/-- A unary operator has code, which works on values of the types. -/
theorem HasType.unary_suits (strict : Prop) (image : Image) {span : Span} {op : Operator}
    {operand : Expr} (h : HasType Γ (.unary span op operand) type) :
    ∃ code type', unaryCode? op = some code ∧ HasType Γ operand type' ∧
      ∀ m m', image.run? m code = some m' → Suits strict type' (m.get .t0) →
        Suits strict type (m'.get .t0) := by
  obtain ⟨code, hcode⟩ := Option.isSome_iff_exists.1 (isSome_unaryCode? h.operand.1)
  cases h with
  | sign hop hoperand => exact ⟨code, _, hcode, hoperand, fun _ _ _ _ ↦ suits_int _⟩
  | negation hoperand =>
    refine ⟨code, _, hcode, hoperand, fun m m' hrun hvalue hstrict _ ↦ ?_⟩
    cases hcode
    cases hrun
    show Word.IsTruth (m.get .t0 ^^^ 1)
    rcases hvalue hstrict rfl with hzero | hone
    · rw [hzero]
      exact .inr rfl
    · rw [hone]
      exact .inl rfl

theorem isTruth_and {v w : Word} (hv : Word.IsTruth v) (hw : Word.IsTruth w) :
    Word.IsTruth (v &&& w) := by
  rcases hv with rfl | rfl
  · exact .inl BitVec.zero_and
  · rcases hw with rfl | rfl
    · exact .inl rfl
    · exact .inr rfl

theorem isTruth_or {v w : Word} (hv : Word.IsTruth v) (hw : Word.IsTruth w) :
    Word.IsTruth (v ||| w) := by
  rcases hv with rfl | rfl
  · rwa [show (0 : Word) ||| w = w from BitVec.zero_or]
  · rcases hw with rfl | rfl <;> exact .inr rfl

/-- A binary operator has code, which works on values of the types. -/
theorem HasType.binary_suits (strict : Prop) (image : Image) {span : Span} {op : Operator}
    {left right : Expr} (h : HasType Γ (.binary span op left right) type) :
    ∃ code l r, binaryCode? op = some code ∧ HasType Γ left l ∧ HasType Γ right r ∧
      ∀ m m', image.run? m code = some m' → Suits strict l (m.get .t0) →
        Suits strict r (m.get .t1) → Suits strict type (m'.get .t0) := by
  obtain ⟨code, hcode⟩ := Option.isSome_iff_exists.1 (isSome_binaryCode? h.operands.1)
  cases h with
  | arithmetic hop hleft hright =>
    exact ⟨code, _, _, hcode, hleft, hright, fun _ _ _ _ _ ↦ suits_int _⟩
  | comparison hop hleft hright =>
    refine ⟨code, _, _, hcode, hleft, hright, fun m m' hrun _ _ _ _ ↦ ?_⟩
    cases op with
    | less | greater =>
      cases hcode
      cases hrun
      exact isTruth_ofBool _
    | lessEqual | greaterEqual =>
      cases hcode
      cases hrun
      show Word.IsTruth (Word.ofBool _ ^^^ 1)
      rw [Word.ofBool_xor_one]
      exact isTruth_ofBool _
    | _ => simp at hop
  | logic hop hleft hright =>
    refine ⟨code, _, _, hcode, hleft, hright, fun m m' hrun hl hr hstrict _ ↦ ?_⟩
    cases op with
    | and =>
      cases hcode
      cases hrun
      exact isTruth_and (hl hstrict rfl) (hr hstrict rfl)
    | or =>
      cases hcode
      cases hrun
      exact isTruth_or (hl hstrict rfl) (hr hstrict rfl)
    | _ => simp at hop
  | equality hop hleft hright =>
    refine ⟨code, _, _, hcode, hleft, hright, fun m m' hrun _ _ _ _ ↦ ?_⟩
    cases op with
    | equal | notEqual =>
      cases hcode
      cases hrun
      exact isTruth_ofBool _
    | _ => simp at hop

/-! ### Calls -/

/-- A function has been called with `a` words on the stack, its arguments among them. -/
structure Called (t : Target) (strict : Prop) (f : FunctionDecl) (a : Nat) (x : Moment) :
    Prop where
  /-- The machine is at the first instruction of the function. -/
  index : t.image.symbol? f.head.name = some (.text x.index)
  /-- The history knows the function. -/
  function : x.history.current.function = f.head.name
  /-- All arguments are on the stack. -/
  arguments : f.parameters.length ≤ a
  /-- There is nothing else at the start of a run. -/
  start : x.history.callers = [] → a = f.parameters.length
  /-- The stack has room. -/
  room : a ≤ t.stack.room
  /-- The stack pointer is below the arguments. -/
  sp : x.machine.get .sp = t.slot a
  /-- Every parameter has a word with a source. -/
  parameters : ∀ (j : Nat) (p : Declarator), f.parameters[j]? = some p → ∀ k, k + j = a →
    Suits strict p.type (x.machine.memory (t.slot k)) ∧ Source t f p.name (t.slot k) x.history
  /-- Global variables hold values of their types. -/
  globals : Proper t strict x.machine

/-- A function that was called in `x` has come back, with its arguments still on the stack. -/
structure CameBack (t : Target) (strict : Prop) (f : FunctionDecl) (a : Nat) (x y : Moment) :
    Prop where
  /-- The stack pointer is below the arguments. -/
  sp : y.machine.get .sp = t.slot a
  /-- The frame pointer is the same. -/
  fp : y.machine.get .fp = x.machine.get .fp
  /-- The words before the arguments are the same. -/
  same : Same t (fun k ↦ 1 ≤ k ∧ k + f.parameters.length ≤ a) x y
  /-- The caller goes on. -/
  callers : x.history.callers = y.history.current :: y.history.callers
  /-- The value in `$v0` has the type that the function returns. -/
  value : Suits strict f.head.type (y.machine.get .v0)
  /-- Global variables hold values of their types. -/
  globals : Proper t strict y.machine

/-- It is safe to come back from a function. The entry point does not come back. -/
def SafeBack (t : Target) (strict : Prop) (f : FunctionDecl) (a n : Nat) (x : Moment) : Prop :=
  f.head.name ≠ t.entry → x.history.callers ≠ [] ∧ ∃ back,
    x.machine.get .ra = t.image.address (.text back) ∧ back < t.image.code.instructions.length ∧
      ∀ y : Moment, y.index = back → CameBack t strict f a x y → t.Safe strict n y

/-- Calls are safe for `n` steps if it is safe to come back from them. -/
def SafeCalls (t : Target) (strict : Prop) (n : Nat) : Prop :=
  ∀ (f : FunctionDecl) (a : Nat) (x : Moment), f ∈ functionDecls t.program →
    Called t strict f a x → SafeBack t strict f a n x → t.Safe strict n x

/-! ### Arguments -/

/-- The values of arguments were pushed on top of `d` words by the activation with a number. Their
code starts at `start`. -/
def Pushes (t : Target) (strict : Prop) (c : Context) (start d number : Nat) (y : Moment) :
    List Expr → List ScalarType → Prop
  | [], [] => True
  | e :: es, type :: types =>
    (Suits strict type (y.machine.memory (t.slot (d + es.length + 1))) ∧
      ∃ w, y.history.written (t.slot (d + es.length + 1)) = some w ∧ w.activation = number ∧
        w.index + 1 = start + Code.size (argumentsCode c (e :: es)).code) ∧
      Pushes t strict c start d number y es types
  | _, _ => False

namespace Pushes

variable {c : Context} {start number : Nat}

theorem of_same : ∀ {es : List Expr} {types : List ScalarType},
    Pushes t strict c start d number x es types → Same t (UpTo (d + es.length)) x y →
      Pushes t strict c start d number y es types
  | [], [], _, _ => trivial
  | e :: es, type :: types, h, hsame => by
    obtain ⟨hmemory, hwritten⟩ := hsame (d + es.length + 1)
      ⟨Nat.le_add_left 1 _, Nat.le_of_eq (Nat.add_assoc _ _ _)⟩
    obtain ⟨⟨hvalue, w, hw, hnumber, hindex⟩, hrest⟩ := h
    refine ⟨⟨hmemory ▸ hvalue, w, hwritten.trans hw, hnumber, hindex⟩, hrest.of_same ?_⟩
    exact hsame.mono fun k hk ↦ ⟨hk.1, Nat.le_trans hk.2 (Nat.add_le_add_left (Nat.le_succ _) d)⟩

/-- The word of every argument. -/
theorem get : ∀ {es : List Expr} {types : List ScalarType} {j : Nat} {type : ScalarType},
    Pushes t strict c start d number y es types → types[j]? = some type →
      j < es.length ∧ ∀ k, k + j = d + es.length →
        Suits strict type (y.machine.memory (t.slot k)) ∧
          ∃ w, y.history.written (t.slot k) = some w ∧ w.activation = number ∧
            w.index + 1 = start + Code.size (argumentsCode c (es.drop j)).code
  | [], [], j, _, _, hj => absurd hj nofun
  | e :: es, _ :: types, 0, _, h, hj => by
    cases hj
    refine ⟨Nat.zero_lt_succ _, fun k hk ↦ ?_⟩
    obtain rfl : k = d + es.length + 1 := hk
    exact h.1
  | e :: es, _ :: types, j + 1, _, h, hj => by
    obtain ⟨hlt, hget⟩ := h.2.get (j := j) hj
    refine ⟨Nat.succ_lt_succ hlt, fun k hk ↦ hget k ?_⟩
    exact Nat.succ.inj hk

theorem length_eq : ∀ {es : List Expr} {types : List ScalarType},
    Pushes t strict c start d number y es types → es.length = types.length
  | [], [], _ => rfl
  | _ :: _, _ :: _, h => congrArg (· + 1) h.2.length_eq

end Pushes

/-! ### Expressions -/

/-- The code of an expression is safe if it is safe to have its value on top of the stack. -/
def SafeExpr (t : Target) (strict : Prop) (f : FunctionDecl) (Γ : Env) (n : Nat) (e : Expr)
    (type : ScalarType) : Prop :=
  ∀ (a d : Nat) (base x : Moment), t.Inside f x.index (Generate.expr (t.context f) e).code →
    Running t strict f a base d Γ x →
    (∀ y : Moment, y.index = x.index + Code.size (Generate.expr (t.context f) e).code →
      Topped t strict d type y.index x y → t.Safe strict n y) → t.Safe strict n x

/-- The code of arguments is safe if it is safe to have their values on top of the stack. -/
def SafeExprs (t : Target) (strict : Prop) (f : FunctionDecl) (Γ : Env) (n : Nat) (es : List Expr)
    (types : List ScalarType) : Prop :=
  ∀ (a d : Nat) (base x : Moment), t.Inside f x.index (argumentsCode (t.context f) es).code →
    Running t strict f a base d Γ x →
    (∀ y : Moment, y.index = x.index + Code.size (argumentsCode (t.context f) es).code →
      Grown t strict d es.length x y →
      Pushes t strict (t.context f) x.index d x.history.current.number y es types →
      t.Safe strict n y) → t.Safe strict n x

theorem Target.Inside.split {i : Nat} {first second : List Instruction}
    (h : t.Inside f i (Emission.ofInstructions (first ++ second)).code) :
    t.Inside f i (Emission.ofInstructions first).code ∧
      t.Inside f (i + first.length) (Emission.ofInstructions second).code := by
  rw [ofInstructions_append] at h
  exact ⟨h.left, size_instructions first ▸ h.right⟩

/-- A result is computed in `$t0` and pushed. -/
theorem Grown.compute (h : Grown t strict d 0 x y) (hl : Placed t) (code : List Instruction)
    (hplain : ∀ i ∈ code, i.plain)
    (hin : t.Inside f y.index (Emission.ofInstructions (code ++ (t.context f).push .t0)).code)
    (hvalue : ∀ m, t.image.run? y.machine code = some m → Suits strict type (m.get .t0))
    (hnext : ∀ z : Moment, z.index = y.index + (code ++ (t.context f).push .t0).length →
      Topped t strict d type z.index x z → t.Safe strict n z) : t.Safe strict n y := by
  obtain ⟨hcode, hpush⟩ := hin.split
  refine Target.safe_plain hcode hplain fun z hindex hrun hquiet ↦ ?_
  rw [← hindex] at hpush
  refine (h.of_quiet hquiet).push hl (by decide) hpush (hvalue _ hrun) fun z' hindex' htopped ↦ ?_
  refine hnext z' ?_ (hindex' ▸ htopped)
  rw [hindex', hindex, List.length_append, ← Nat.add_assoc]
  rfl

theorem safe_literal (hl : Placed t) (span : Span) {value : Literal}
    (hvalue : value.type.isConcrete) :
    SafeExpr t strict f Γ n (.literal span value) value.type := by
  intro a d base x hin hx hnext
  rw [Generate.expr, if_pos hvalue] at hin hnext
  rw [size_instructions] at hnext
  refine (Grown.of_running hx).compute hl [.li .t0 value.word]
    (List.forall_mem_singleton.2 rfl) hin (fun m hrun ↦ ?_) hnext
  cases hrun
  exact suits_of_ofType (Semantics.ofType_literal value)

theorem safe_var (hl : Placed t) (hf : f ∈ functionDecls t.program) (span : Span)
    (hname : Γ name = some (.var type)) : SafeExpr t strict f Γ n (.var span name) type := by
  intro a d base x hin hx hnext
  obtain ⟨address, p, haddress, hlocate, hvalue, hload⟩ := hx.load_variable hl.toLinked hf hname
  rw [Generate.expr, haddress] at hin hnext
  rw [size_instructions] at hnext
  refine Image.Safe.effect hin.toAt rfl (fun r address' h ↦ ?_) fun _ m heffect ↦ ?_
  · cases h
    exact hload hin.contains
  rw [Image.effect?, hlocate] at heffect
  cases heffect
  have hgrown := (Grown.of_running hx).of_quiet
    (z := ⟨⟨x.index + 1, x.machine.set .t0 (x.machine.memory p)⟩, t.image.note x (.lw .t0 address)⟩)
    ⟨⟨rfl, rfl, rfl, rfl⟩, rfl, rfl, rfl⟩
  exact hgrown.push hl (by decide) hin.tail hvalue fun z hindex htopped ↦
    hnext z hindex (hindex ▸ htopped)

theorem safe_unary (hl : Placed t) (hf : f ∈ functionDecls t.program) {span : Span} {op : Operator}
    {operand : Expr} (h : HasType Γ (.unary span op operand) type)
    (ih : ∀ type', HasType Γ operand type' → SafeExpr t strict f Γ n operand type') :
    SafeExpr t strict f Γ n (.unary span op operand) type := by
  intro a d base x hin hx hnext
  obtain ⟨code, type', hcode, hoperand, hsuits⟩ := h.unary_suits strict t.image
  rw [Generate.expr, hcode] at hin hnext
  simp only [Emission.code_append, Code.size_append, size_instructions] at hnext
  refine ih type' hoperand a d base x hin.left hx fun y hindex htopped ↦ ?_
  have hrest := hin.right
  rw [← hindex, List.append_assoc] at hrest
  obtain ⟨hpop, hrest⟩ := hrest.split
  refine htopped.pop hl.toLinked hf hx.function (by decide) hpop fun z hindex' hgrown hvalue _ ↦ ?_
  refine hgrown.compute hl code (plain_unaryCode? hcode) (hindex' ▸ hrest)
    (fun m hrun ↦ hsuits _ _ hrun hvalue) fun z' hindex'' ↦ hnext z' ?_
  simp only [hindex'', hindex', hindex, List.length_append, Nat.add_assoc]
  rfl

theorem safe_binary (hl : Placed t) (hf : f ∈ functionDecls t.program) {span : Span}
    {op : Operator} {left right : Expr} (h : HasType Γ (.binary span op left right) type)
    (ihl : ∀ type', HasType Γ left type' → SafeExpr t strict f Γ n left type')
    (ihr : ∀ type', HasType Γ right type' → SafeExpr t strict f Γ n right type') :
    SafeExpr t strict f Γ n (.binary span op left right) type := by
  intro a d base x hin hx hnext
  obtain ⟨code, l, r, hcode, hleft, hright, hsuits⟩ := h.binary_suits strict t.image
  rw [Generate.expr, hcode] at hin hnext
  simp only [Emission.code_append, Code.size_append, size_instructions] at hnext
  refine ihl l hleft a d base x hin.left.left hx fun y hindex htopped ↦ ?_
  have hsecond := hin.left.right
  rw [← hindex] at hsecond
  have hy := hx.grown htopped.toGrown
  refine ihr r hright a (d + 1) base y hsecond hy fun y' hindex' htopped' ↦ ?_
  have hrest := hin.right
  rw [Emission.code_append, Code.size_append, ← Nat.add_assoc, ← hindex, ← hindex',
    List.append_assoc, List.append_assoc] at hrest
  -- Both values are popped, the right one first, and the result is pushed.
  obtain ⟨hpop, hrest⟩ := hrest.split
  refine htopped'.pop hl.toLinked hf hy.function (by decide) hpop fun z hzindex hgrown hr _ ↦ ?_
  rw [← show z.index = y'.index + ((t.context f).pop .t1).length from hzindex] at hrest
  obtain ⟨hpop, hrest⟩ := hrest.split
  refine (htopped.of_grown hgrown).pop hl.toLinked hf hx.function (by decide) hpop
    fun z' hzindex' hgrown' hl' hothers ↦ ?_
  have hr' := hothers .t1 (by decide) (by decide) ▸ hr
  refine hgrown'.compute hl code (plain_binaryCode? hcode) (hzindex' ▸ hrest)
    (fun m hrun ↦ hsuits _ _ hrun hl' hr') fun z'' hindex'' ↦ hnext z'' ?_
  simp only [hindex'', hzindex', hzindex, hindex', hindex, List.length_append, Nat.add_assoc]
  rfl

theorem safe_nil : SafeExprs t strict f Γ n [] [] :=
  fun _ _ _ x _ hx hnext ↦ hnext x rfl (.of_running hx) trivial

/-- One more argument is pushed. -/
theorem safe_cons {e : Expr} {es : List Expr} {types : List ScalarType}
    (he : SafeExpr t strict f Γ n e type) (hes : SafeExprs t strict f Γ n es types) :
    SafeExprs t strict f Γ n (e :: es) (type :: types) := by
  intro a d base x hin hx hnext
  refine hes a d base x hin.left hx fun y hindex hgrown hpushes ↦ ?_
  have hrest := hin.right
  rw [← hindex] at hrest
  refine he a _ base y hrest (hx.grown hgrown) fun z hindex' htopped ↦ ?_
  have hsize : z.index = x.index + Code.size (argumentsCode (t.context f) (e :: es)).code := by
    rw [hindex', hindex, argumentsCode, Emission.code_append, Code.size_append, Nat.add_assoc]
  obtain ⟨w, hw, hnumber, hwindex⟩ := htopped.written
  refine hnext z hsize (hgrown.trans htopped.toGrown) ⟨⟨htopped.value, w, hw, ?_, ?_⟩, ?_⟩
  · rw [hnumber, hgrown.current]
  · rw [hwindex, hsize]
  · exact hpushes.of_same htopped.same

/-! ### Calling -/

/-- What was pushed for a call is what the called function finds. -/
theorem Pushes.called {g : FunctionDecl} {span : Span} {arguments : List Expr} {j : Nat}
    (hpushes : Pushes t strict (t.context f) x.index d x.history.current.number y arguments
      (g.parameters.map Declarator.type))
    (hf : f ∈ functionDecls t.program) (hx : Running t strict f a base d Γ x)
    (hgrown : Grown t strict d arguments.length x y)
    (hin : t.Inside f x.index
      (Generate.expr (t.context f) (.call span g.head.name arguments)).code)
    (hindex : y.index = x.index + Code.size (argumentsCode (t.context f) arguments).code)
    (hsymbol : t.image.symbol? g.head.name = some (.text j)) (ra : Word) :
    Called t strict g (d + arguments.length) ⟨⟨j, y.machine.set .ra ra⟩,
      { y.history.enter g.head.name y.index with last := some (.jal g.head.name) }⟩ where
  index := hsymbol
  function := rfl
  arguments := by
    have hlength := hpushes.length_eq
    rw [List.length_map] at hlength
    omega
  start := nofun
  room := hgrown.room
  sp := hgrown.sp
  parameters j p hp k hk := by
    have htype : (g.parameters.map Declarator.type)[j]? = some p.type := by
      rw [List.getElem?_map, hp]
      rfl
    have hparameter : (g.parameters.map Declarator.name)[j]? = some p.name := by
      rw [List.getElem?_map, hp]
      rfl
    obtain ⟨hlt, hget⟩ := hpushes.get htype
    obtain ⟨hvalue, w, hw, hnumber, hwindex⟩ := hget k hk
    refine ⟨hvalue, .passed hw rfl ?_ hf ?_ hin (congrArg some hindex) hparameter hlt hwindex⟩
    · rw [hnumber, hgrown.current]
    · rw [hgrown.current, hx.function]
  globals := hgrown.globals.of_memory rfl

/-- Arguments are taken off the stack after a call. -/
theorem CameBack.discard {g : FunctionDecl} {k i j : Nat} {ra : Word} {last : Option Instruction}
    (h : CameBack t strict g (d + k) ⟨⟨j, y.machine.set .ra ra⟩,
      { y.history.enter g.head.name i with last }⟩ z)
    (hl : Linked t) (hk : k = g.parameters.length) (hgrown : Grown t strict d k x y)
    (hin : t.Inside f z.index (Emission.ofInstructions (if k = 0 then [] else
      [.immediate .addiu .sp .sp ((t.context f).globals.words k)])).code)
    (hnext : ∀ z' : Moment, z'.index = z.index + (if k = 0 then [] else
      [Instruction.immediate .addiu .sp .sp ((t.context f).globals.words k)]).length →
      Grown t strict d 0 x z' → Suits strict g.head.type (z'.machine.get .v0) →
      t.Safe strict n z') :
    t.Safe strict n z := by
  refine Target.safe_silent hin (by split <;> simp [Instruction.silent, Instruction.leaves])
    fun z' hindex hrun hevents ↦ ?_
  obtain ⟨hcurrent, hcallers⟩ := List.cons.inj h.callers
  have hmachine := Option.some.inj (hrun.symm.trans (run_discard hl f h.sp))
  refine hnext z' hindex ⟨?_, ?_, ?_, ?_, ?_, ?_, ?_⟩ ?_
  · exact Nat.le_trans (Nat.le_add_right d k) hgrown.room
  · rw [hmachine]
    rfl
  · rw [hmachine]
    exact h.fp.trans hgrown.fp
  · -- The words of the caller lie before the arguments.
    have hsame : Same t (UpTo d) y z := h.same.mono fun m hm ↦ ⟨hm.1, by have := hm.2; omega⟩
    exact (hgrown.same.trans hsame).trans (.of_eq (hmachine ▸ rfl) hevents.written)
  · exact hevents.current.trans (hcurrent.symm.trans hgrown.current)
  · exact hevents.callers.trans (hcallers.symm.trans hgrown.callers)
  · exact h.globals.of_memory (hmachine ▸ rfl)
  · rw [hmachine]
    exact h.value

theorem safe_call (hl : Placed t) (hf : f ∈ functionDecls t.program)
    (hcalls : ∀ k < n, SafeCalls t strict k) (span : Span) {arguments : List Expr}
    {parameters : List ScalarType} (hname : Γ name = some (.function parameters type))
    (ih : SafeExprs t strict f Γ n arguments parameters) :
    SafeExpr t strict f Γ n (.call span name arguments) type := by
  intro a d base x hin hx hnext
  obtain ⟨g, hg, rfl, hmeaning⟩ := exists_of_signatures (hx.functions _ _ _ hname)
  cases hmeaning
  have hcode : Generate.expr (t.context f) (.call span g.head.name arguments) =
      argumentsCode (t.context f) arguments ++
        .ofInstructions (callCode (t.context f) g.head.name arguments.length) := by
    have hglobal : (t.context f).globals.find? g.head.name = _ := hl.stored.function g hg
    rw [Generate.expr, hglobal]
  have hparts := hin
  rw [hcode] at hparts hnext
  simp only [Emission.code_append, Code.size_append, size_instructions, callCode, List.cons_append,
    List.length_cons, List.length_append] at hnext
  refine ih a d base x hparts.left hx fun y hindex hgrown hpushes ↦ ?_
  have hjal := hparts.right
  rw [← hindex] at hjal
  cases n with
  | zero => trivial
  | succ n =>
    obtain ⟨start, hsymbol⟩ := hl.symbol_function hg
    have hcalled := hpushes.called hf hx hgrown hin hindex hsymbol
      (t.image.address (.text (y.index + 1)))
    have hback := hjal.tail.toAt.lt_of_block
      (List.append_ne_nil_of_right_ne_nil _ (List.cons_ne_nil _ _))
    have hlength := hpushes.length_eq
    rw [List.length_map] at hlength
    refine Image.Safe.call hjal.toAt hsymbol (hcalls n (Nat.lt_succ_self n) g _ _ hg hcalled ?_)
    refine fun _ ↦ ⟨List.cons_ne_nil _ _, y.index + 1, rfl, hback, fun z hz hcame ↦ ?_⟩
    -- The arguments are given up and the value is pushed.
    obtain ⟨hdiscard, hpush⟩ := hjal.tail.split
    rw [← hz] at hdiscard hpush
    refine Image.Safe.of_succ (hcame.discard hl.toLinked hlength hgrown hdiscard
      fun z' hindex' hgrown' hvalue ↦ ?_)
    refine hgrown'.push hl (by decide) (hindex' ▸ hpush) hvalue fun z'' hindex'' htopped ↦ ?_
    refine hnext z'' ?_ (hindex'' ▸ htopped)
    rw [hindex'', hindex', hz, hindex]
    have hsum : ∀ p q r : Nat, p + q + 1 + r + 2 = p + (q + (r + 2 + 1)) := by omega
    exact hsum _ _ _

mutual

/-- The code of a well-typed expression is safe. -/
theorem safe_expr (hl : Placed t) (hf : f ∈ functionDecls t.program)
    (hcalls : ∀ k < n, SafeCalls t strict k) : ∀ (e : Expr) (type : ScalarType),
    HasType Γ e type → SafeExpr t strict f Γ n e type
  | .literal span _, _, .literal hvalue => safe_literal hl span hvalue
  | .var span _, _, .var hname => safe_var hl hf span hname
  | .unary _ _ operand, _, h => safe_unary hl hf h (safe_expr hl hf hcalls operand)
  | .binary _ _ left right, _, h =>
    safe_binary hl hf h (safe_expr hl hf hcalls left) (safe_expr hl hf hcalls right)
  | .call span _ arguments, _, .call hname harguments =>
    safe_call hl hf hcalls span hname (safe_exprs hl hf hcalls arguments _ harguments)
termination_by structural e => e

/-- The code of well-typed arguments is safe. -/
theorem safe_exprs (hl : Placed t) (hf : f ∈ functionDecls t.program)
    (hcalls : ∀ k < n, SafeCalls t strict k) : ∀ (es : List Expr) (types : List ScalarType),
    HaveTypes Γ es types → SafeExprs t strict f Γ n es types
  | [], _, .nil => safe_nil
  | e :: es, _, .cons he hes =>
    safe_cons (safe_expr hl hf hcalls e _ he) (safe_exprs hl hf hcalls es _ hes)
termination_by structural es => es

end

end ScalarMips
