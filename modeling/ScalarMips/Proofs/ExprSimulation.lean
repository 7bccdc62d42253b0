import ScalarMips.Proofs.Frames

/-!
# Expressions in code

The code of an expression puts its value on the stack and keeps all words below (`Evaluated`).

`Realises` ties the two sides together: from a configuration the machine does what a computation of
the reference semantics says. If it has a value, the machine gets to a configuration that stands for
it; if it ends the program, so does the machine, with the same output; and nothing is said of
computations that end otherwise. The rule for sequences (`Realises.bind`) is the only place where a
computation is taken apart, so no proof has to ask how an evaluation can have come to its value.

The proof is an induction on the fuel for all five functions of the semantics. `Simulates` is the
induction hypothesis; this module derives the parts for expressions and arguments from it.
-/

namespace ScalarMips

open Generate
open Semantics (Stop World Locals Setup bodyDepth)

/-! ### Realising a computation -/

/-- From a configuration the machine does what a computation says. -/
def Realises {α : Type} (image : Image) (c : Image.Config) (r : Except Stop α)
    (post : α → Image.Config → Prop) : Prop :=
  match r with
  | .ok value => ∃ c', image.Reaches c c' ∧ post value c'
  | .error (.finished output) => image.Exits c output
  | .error _ => True

namespace Realises

variable {α β : Type} {image : Image} {c c' : Image.Config} {r : Except Stop α}
  {next : α → Except Stop β} {mid : α → Image.Config → Prop} {post : β → Image.Config → Prop}

theorem ok {value : β} (h : post value c) : Realises image c (.ok value) post :=
  ⟨c, .refl c, h⟩

/-- Some steps before. -/
theorem of_reaches {r : Except Stop β} (h : image.Reaches c c') (h' : Realises image c' r post) :
    Realises image c r post := by
  match r, h' with
  | .ok _, ⟨last, hreaches, hpost⟩ => exact ⟨last, h.trans hreaches, hpost⟩
  | .error (.finished _), hexits => exact Image.Exits.of_reaches h hexits
  | .error (.undefined _), _ => trivial
  | .error .malformed, _ => trivial
  | .error .outOfStack, _ => trivial
  | .error .outOfFuel, _ => trivial

/-- One computation after another. -/
theorem bind (h : Realises image c r mid)
    (hnext : ∀ value c', mid value c' → Realises image c' (next value) post) :
    Realises image c (r >>= next) post := by
  match r, h with
  | .ok value, ⟨c', hreaches, hmid⟩ => exact of_reaches hreaches (hnext value c' hmid)
  | .error (.finished _), hexits => exact hexits
  | .error (.undefined _), _ => trivial
  | .error .malformed, _ => trivial
  | .error .outOfStack, _ => trivial
  | .error .outOfFuel, _ => trivial

/-- A computation that takes no step and does not end the program goes first. -/
theorem bind_pure (hr : ∀ output, r ≠ .error (.finished output))
    (h : ∀ value, r = .ok value → Realises image c (next value) post) :
    Realises image c (r >>= next) post := by
  match r with
  | .ok value => exact h value rfl
  | .error (.finished output) => exact absurd rfl (hr output)
  | .error (.undefined _) => trivial
  | .error .malformed => trivial
  | .error .outOfStack => trivial
  | .error .outOfFuel => trivial

/-- Some steps after. -/
theorem and_then {mid post : α → Image.Config → Prop} (h : Realises image c r mid)
    (hnext : ∀ value c', mid value c' → ∃ c'', image.Reaches c' c'' ∧ post value c'') :
    Realises image c r post := by
  match r, h with
  | .ok value, ⟨c', hreaches, hmid⟩ =>
    obtain ⟨c'', hreaches', hpost⟩ := hnext value c' hmid
    exact ⟨c'', hreaches.trans hreaches', hpost⟩
  | .error (.finished _), hexits => exact hexits
  | .error (.undefined _), _ => trivial
  | .error .malformed, _ => trivial
  | .error .outOfStack, _ => trivial
  | .error .outOfFuel, _ => trivial

/-- A block of code comes to its end. -/
theorem block {instructions : List Instruction} {i : Nat} {m m' : Machine} {value : β}
    (h : image.At i (Emission.ofInstructions instructions).code)
    (hrun : image.run? m instructions = some m')
    (hpost : post value ⟨i + instructions.length, m'⟩) :
    Realises image ⟨i, m⟩ (.ok value) post :=
  ⟨_, Image.At.reaches h hrun, hpost⟩

end Realises

theorem read_ne_finished (frame : Locals) (w : World) (name output : String) :
    Semantics.read frame w name ≠ .error (.finished output) := by
  unfold Semantics.read
  split <;> rintro ⟨⟩

theorem unary_ne_finished (op : Operator) (value : Int32) (output : String) :
    Semantics.unary op value ≠ .error (.finished output) := by
  unfold Semantics.unary
  split
  · rintro ⟨⟩
  · split <;> rintro ⟨⟩

theorem binary_ne_finished (op : Operator) (left right : Int32) (output : String) :
    Semantics.binary op left right ≠ .error (.finished output) := by
  unfold Semantics.binary
  split
  · rintro ⟨⟩
  · split
    · rintro ⟨⟩
    · split <;> rintro ⟨⟩

theorem reserve_ne_finished (s : Setup) (n : Nat) (output : String) :
    s.reserve n ≠ .error (.finished output) := by
  unfold Setup.reserve
  split
  · split <;> nofun
  · nofun

/-- An operator with a value has code. -/
theorem exists_unaryCode {op : Operator} {value result : Int32}
    (h : Semantics.unary op value = .ok result) : ∃ code, unaryCode? op = some code := by
  cases op with
  | plus => exact ⟨_, rfl⟩
  | minus => exact ⟨_, rfl⟩
  | not => exact ⟨_, rfl⟩
  | _ => cases h

theorem exists_binaryCode {op : Operator} {left right result : Int32}
    (h : Semantics.binary op left right = .ok result) : ∃ code, binaryCode? op = some code := by
  cases op with
  | not => cases h
  | _ => exact ⟨_, rfl⟩

/-- The program with the room that the machine has. -/
def Target.setup (t : Target) : Setup :=
  ⟨functionDecls t.program, t.entry, some t.stack.room⟩

theorem le_room_of_reserve {t : Target} {n : Nat} (h : t.setup.reserve n = .ok ()) :
    n ≤ t.stack.room := by
  unfold Setup.reserve at h
  simp only [Target.setup] at h
  split at h
  · assumption
  · cases h

/-! ### Values on the stack -/

variable {t : Target} {f : FunctionDecl} {a d i : Nat} {m m' m'' : Machine} {w w' : World}
  {frame : Locals}

/-- Values that were pushed last to first on top of `d` words. -/
def OnStack (t : Target) (d : Nat) (m : Machine) : List (Option Int32) → Prop
  | [] => True
  | value :: values =>
    (∀ v, value = some v → m.memory (t.slot (d + values.length + 1)) = v.toBitVec) ∧
      OnStack t d m values

theorem OnStack.of_kept {values : List (Option Int32)} (h : OnStack t d m values)
    (hkept : Kept t (d + values.length) m m') : OnStack t d m' values := by
  induction values with
  | nil => trivial
  | cons value values ih =>
    refine ⟨fun v hv ↦ (hkept _ (by omega) ?_).trans (h.1 v hv), ih h.2 (hkept.mono ?_)⟩
    · exact Nat.le_of_eq (Nat.add_assoc _ _ _)
    · exact Nat.add_le_add_left (Nat.le_succ _) d

/-- The machine `m` with `d` words on the stack has put values on top of them. -/
structure Evaluated (t : Target) (d : Nat) (m : Machine) (values : List Int32) (w : World)
    (m' : Machine) : Prop where
  /-- The stack has room. -/
  room : d + values.length ≤ t.stack.room
  /-- The stack pointer is below the values. -/
  sp : m'.get .sp = t.slot (d + values.length)
  /-- The frame pointer is the same. -/
  fp : m'.get .fp = m.get .fp
  /-- The values are there. -/
  values : OnStack t d m' (values.map some)
  /-- The words that were on the stack are the same. -/
  kept : Kept t d m m'
  /-- The rest of the machine stands for what all calls share. -/
  shared : Shared t w m'

namespace Evaluated

variable {value : Int32} {values : List Int32}

theorem top (h : Evaluated t d m [value] w m') : m'.memory (t.slot (d + 1)) = value.toBitVec :=
  h.values.1 value rfl

/-- The call goes on with the values on the stack. -/
theorem active (h : Evaluated t d m values w' m') (hm : Active t f a d frame w m) :
    Active t f a (d + values.length) frame w' m' where
  arguments := hm.arguments
  depth := Nat.le_trans hm.depth (Nat.le_add_right _ _)
  room := h.room
  sp := h.sp
  fp := h.fp.trans hm.fp
  framed := hm.framed.of_kept hm.arguments (h.kept.mono hm.depth)
  shared := h.shared

/-- Nothing has been put on the stack. -/
theorem of_active (hm : Active t f a d frame w m) : Evaluated t d m [] w m :=
  ⟨hm.room, hm.sp, rfl, trivial, Kept.refl t d m, hm.shared⟩

theorem of_scratch (h : Evaluated t d m values w m') (hs : Scratch m' m'') :
    Evaluated t d m values w m'' where
  room := h.room
  sp := hs.sp.trans h.sp
  fp := hs.fp.trans h.fp
  values := h.values.of_kept (.of_memory hs.memory)
  kept := h.kept.trans (.of_memory hs.memory)
  shared := h.shared.of_scratch hs

/-- One more value is put on top. -/
theorem cons (h : Evaluated t d m values w m')
    (h' : Evaluated t (d + values.length) m' [value] w' m'') :
    Evaluated t d m (value :: values) w' m'' where
  room := h'.room
  sp := h'.sp
  fp := h'.fp.trans h.fp
  values := by
    have hlength : (values.map some).length = values.length := List.length_map _
    refine ⟨fun v hv ↦ ?_, h.values.of_kept (hlength ▸ h'.kept)⟩
    cases hv
    rw [hlength]
    exact h'.top
  kept := h.kept.trans (h'.kept.mono (Nat.le_add_right _ _))
  shared := h'.shared

/-- The result of an operation is pushed. -/
theorem push (h : Evaluated t d m [] w m') (hl : Linked t) (f : FunctionDecl) (r : Register)
    (hr : r ≠ .sp) (hvalue : m'.get r = value.toBitVec) (hroom : d + 1 ≤ t.stack.room) :
    ∃ m'', t.image.run? m' ((t.context f).push r) = some m'' ∧ Evaluated t d m [value] w m'' := by
  refine ⟨_, hl.run_push hr h.sp, hroom, rfl, h.fp, ⟨fun v hv ↦ ?_, trivial⟩, ?_, ?_⟩
  · cases hv
    rw [← hvalue]
    exact Machine.memory_store_self _ _ _
  · exact h.kept.trans (hl.kept_store (Nat.lt_succ_self d) hroom _ _)
  · exact (h.shared.set .sp _).store_slot hl (by omega) hroom _

/-- The value on top is popped into a register; the other registers stay as they are. -/
theorem pop (h : Evaluated t d m (value :: values) w m') (hl : Linked t) (f : FunctionDecl)
    (r : Register) (hr : r ∉ [Register.zero, .sp, .fp]) :
    ∃ m'', t.image.run? m' ((t.context f).pop r) = some m'' ∧ Evaluated t d m values w m'' ∧
      m''.get r = value.toBitVec ∧ ∀ s, s ≠ r → s ≠ .sp → m''.get s = m'.get s := by
  simp only [List.mem_cons, List.not_mem_nil, or_false, not_or] at hr
  obtain ⟨hzero, hsp, hfp⟩ := hr
  have htop := h.values.1 value rfl
  rw [List.length_map] at htop
  have hpointers : Register.fp ≠ .sp := by decide
  refine ⟨_, hl.run_pop hsp h.sp, ⟨?_, ?_, ?_, ?_, h.kept, ⟨h.shared.globals, h.shared.output⟩⟩, ?_,
    fun s hs hs' ↦ ?_⟩
  · exact Nat.le_trans (Nat.add_le_add_left (Nat.le_succ _) d) h.room
  · exact Machine.get_set_self _ _ _ (by decide)
  · rw [Machine.get_set_of_ne _ _ _ hpointers, Machine.get_set_of_ne _ _ _ (Ne.symm hfp)]
    exact h.fp
  · exact h.values.2.of_kept (.of_memory rfl)
  · rw [Machine.get_set_of_ne _ _ _ hsp, Machine.get_set_self _ _ _ hzero]
    exact htop
  · rw [Machine.get_set_of_ne _ _ _ hs', Machine.get_set_of_ne _ _ _ hs]

end Evaluated

/-! ### The induction hypothesis -/

/-- A call has come back with a value. -/
structure Returned (t : Target) (d n : Nat) (m : Machine) (value : Int32) (w : World)
    (m' : Machine) : Prop where
  /-- The stack has room for the value. -/
  room : d + n + 1 ≤ t.stack.room
  /-- The arguments are still on the stack. -/
  sp : m'.get .sp = t.slot (d + n)
  /-- The frame pointer is the same. -/
  fp : m'.get .fp = m.get .fp
  /-- The value is in `$v0`. -/
  value : m'.get .v0 = value.toBitVec
  /-- The words before the arguments are the same. -/
  kept : Kept t d m m'
  /-- The rest of the machine stands for what all calls share. -/
  shared : Shared t w m'

/-- A statement has come to its end or returned. -/
structure Executed (t : Target) (f : FunctionDecl) (a last exit : Nat) (m : Machine)
    (outcome : Semantics.Outcome) (c : Image.Config) : Prop where
  /-- The call is as before, with a new state. -/
  active : Active t f a (bodyDepth f a) outcome.2.1 outcome.2.2 c.machine
  /-- What does not belong to the frame is the same. -/
  preserved : Preserved t f a m c.machine
  /-- The machine is behind the statement, or at the exit with the value in `$v0`. -/
  index : match outcome.1 with
    | none => c.index = last
    | some value => c.index = exit ∧ c.machine.get .v0 = value.toBitVec

/-- With some fuel the machine does what the semantics says. -/
structure Simulates (t : Target) (fuel : Nat) : Prop where
  /-- The code of an expression. -/
  expr : ∀ {f : FunctionDecl} {a d i : Nat} {frame : Locals} {w : World} {m : Machine} (e : Expr),
    f ∈ functionDecls t.program → t.image.At i (Generate.expr (t.context f) e).code →
    Active t f a d frame w m →
      Realises t.image ⟨i, m⟩ (Semantics.expr t.setup fuel d frame w e) fun r c ↦
        c.index = i + Code.size (Generate.expr (t.context f) e).code ∧
          Evaluated t d m [r.1] r.2 c.machine
  /-- The code of arguments. -/
  exprs : ∀ {f : FunctionDecl} {a d i : Nat} {frame : Locals} {w : World} {m : Machine}
    (es : List Expr), f ∈ functionDecls t.program →
    t.image.At i (argumentsCode (t.context f) es).code → Active t f a d frame w m →
      Realises t.image ⟨i, m⟩ (Semantics.exprs t.setup fuel d frame w es) fun r c ↦
        c.index = i + Code.size (argumentsCode (t.context f) es).code ∧
          r.1.length = es.length ∧ Evaluated t d m r.1 r.2 c.machine
  /-- The code of a function, to which a call has gone. The entry point does not come back. -/
  call : ∀ {f : FunctionDecl} {d i j : Nat} {w : World} {m : Machine}
    (values : List (Option Int32)), f ∈ functionDecls t.program →
    t.image.symbol? f.head.name = some (.text i) →
    (f.head.name ≠ t.entry →
      m.get .ra = t.image.address (.text j) ∧ j < t.image.code.instructions.length) →
    m.get .sp = t.slot (d + values.length) → OnStack t d m values → Shared t w m →
      Realises t.image ⟨i, m⟩ (Semantics.call t.setup fuel (d + values.length) w f values)
        fun r c ↦ c.index = j ∧ Returned t d values.length m r.1 r.2 c.machine
  /-- The code of a statement. -/
  stmt : ∀ {f : FunctionDecl} {a i exit : Nat} {n : UInt32} {frame : Locals} {w : World}
    {m : Machine} (s : Stmt), f ∈ functionDecls t.program →
    t.image.At i (Generate.stmt (t.context f) s n).code →
    t.image.symbol? (exitLabel f.head.name) = some (.text exit) →
    (∀ u ∈ s.variables, u ∈ f.variables) → Active t f a (bodyDepth f a) frame w m →
      Realises t.image ⟨i, m⟩ (Semantics.stmt t.setup fuel (bodyDepth f a) frame w s)
        (Executed t f a (i + Code.size (Generate.stmt (t.context f) s n).code) exit m)
  /-- The code of statements. -/
  stmts : ∀ {f : FunctionDecl} {a i exit : Nat} {n : UInt32} {frame : Locals} {w : World}
    {m : Machine} (body : List Stmt), f ∈ functionDecls t.program →
    t.image.At i (Generate.stmts (t.context f) body n).code →
    t.image.symbol? (exitLabel f.head.name) = some (.text exit) →
    (∀ u ∈ Stmt.variablesAll body, u ∈ f.variables) → Active t f a (bodyDepth f a) frame w m →
      Realises t.image ⟨i, m⟩ (Semantics.stmts t.setup fuel (bodyDepth f a) frame w body)
        (Executed t f a (i + Code.size (Generate.stmts (t.context f) body n).code) exit m)

/-! ### Expressions -/

/-- What the code of an expression has to do. -/
def RealisesExpr (t : Target) (f : FunctionDecl) (d i : Nat) (m : Machine) (e : Expr)
    (r : Except Stop (Int32 × World)) : Prop :=
  Realises t.image ⟨i, m⟩ r fun r c ↦
    c.index = i + Code.size (Generate.expr (t.context f) e).code ∧
      Evaluated t d m [r.1] r.2 c.machine

theorem realises_literal (hl : Linked t) (span : Span) (value : Literal) (fuel : Nat)
    (h : t.image.At i (Generate.expr (t.context f) (.literal span value)).code)
    (hm : Active t f a d frame w m) :
    RealisesExpr t f d i m (.literal span value)
      (Semantics.expr t.setup (fuel + 1) d frame w (.literal span value)) := by
  rw [RealisesExpr, Semantics.expr]
  refine Realises.bind_pure (reserve_ne_finished _ _) fun _ hreserve ↦ ?_
  have hroom := le_room_of_reserve hreserve
  rw [Generate.expr] at h
  split
  · rename_i htype
    rw [if_pos htype] at h
    have hscratch : Scratch m (m.set .t0 value.word.toBitVec) := ⟨rfl, rfl, rfl, rfl⟩
    obtain ⟨m', hrun, hevaluated⟩ :=
      ((Evaluated.of_active hm).of_scratch hscratch).push hl f .t0 (by decide) rfl hroom
    refine Realises.block h ((Image.run?_cons rfl).trans hrun) ⟨?_, hevaluated⟩
    rw [Generate.expr, if_pos htype, size_instructions]
  · trivial

/-- A variable that has a value is at its address. -/
theorem locate_of_read (hl : Linked t) (hf : f ∈ functionDecls t.program)
    (hm : Active t f a d frame w m) {name : String} {value : Int32}
    (hvalue : Semantics.read frame w name = .ok value) :
    ∃ address p, (t.context f).address? name = some address ∧
      t.image.locate? m address = some p ∧ m.memory p = value.toBitVec := by
  unfold Semantics.read at hvalue
  cases hlocal : frame name with
  | some v =>
    rw [hlocal] at hvalue
    cases v with
    | some v =>
      cases hvalue
      obtain ⟨k, hcell, hmemory⟩ := hm.framed name _ hlocal
      obtain ⟨address, haddress, hlocate⟩ := hl.locate_cell hf hm.fp hcell
      exact ⟨address, _, haddress, hlocate, hmemory value rfl⟩
    | none => cases hvalue
  | none =>
    cases hglobal : w.globals name with
    | some v =>
      rw [hlocal, hglobal] at hvalue
      cases hvalue
      obtain ⟨k, s, hs, hname, hmemory⟩ := hm.shared.globals name value hglobal
      obtain ⟨address, haddress, hlocate⟩ := hl.locate_global hf hs hname m
      exact ⟨address, _, haddress, hlocate, hmemory⟩
    | none =>
      rw [hlocal, hglobal] at hvalue
      cases hvalue

theorem realises_var (hl : Linked t) (hf : f ∈ functionDecls t.program) (span : Span)
    (name : String) (fuel : Nat)
    (h : t.image.At i (Generate.expr (t.context f) (.var span name)).code)
    (hm : Active t f a d frame w m) :
    RealisesExpr t f d i m (.var span name)
      (Semantics.expr t.setup (fuel + 1) d frame w (.var span name)) := by
  rw [RealisesExpr, Semantics.expr]
  refine Realises.bind_pure (reserve_ne_finished _ _) fun _ hreserve ↦ ?_
  refine Realises.bind_pure (read_ne_finished _ _ _) fun value hvalue ↦ ?_
  have hroom := le_room_of_reserve hreserve
  obtain ⟨address, p, haddress, hlocate, hmemory⟩ := locate_of_read hl hf hm hvalue
  have hload : t.image.effect? m (.lw .t0 address) = some (m.set .t0 value.toBitVec) := by
    rw [Image.effect?, hlocate, ← hmemory]
    rfl
  have hscratch : Scratch m (m.set .t0 value.toBitVec) := ⟨rfl, rfl, rfl, rfl⟩
  obtain ⟨m', hrun, hevaluated⟩ :=
    ((Evaluated.of_active hm).of_scratch hscratch).push hl f .t0 (by decide) rfl hroom
  rw [Generate.expr, haddress] at h
  refine Realises.block h ((Image.run?_cons hload).trans hrun) ⟨?_, hevaluated⟩
  rw [Generate.expr, haddress, size_instructions]

theorem realises_unary (hl : Linked t) (hf : f ∈ functionDecls t.program) {fuel : Nat}
    (ih : Simulates t fuel) (span : Span) (op : Operator) (operand : Expr)
    (h : t.image.At i (Generate.expr (t.context f) (.unary span op operand)).code)
    (hm : Active t f a d frame w m) :
    RealisesExpr t f d i m (.unary span op operand)
      (Semantics.expr t.setup (fuel + 1) d frame w (.unary span op operand)) := by
  rw [RealisesExpr, Semantics.expr]
  have hoperand : t.image.At i (Generate.expr (t.context f) operand).code := by
    rw [Generate.expr] at h
    split at h <;> exact h.left
  refine Realises.bind (ih.expr operand hf hoperand hm) fun r c hr ↦ ?_
  obtain ⟨value, w'⟩ := r
  obtain ⟨index, m₁⟩ := c
  obtain ⟨rfl, hvalue⟩ := hr
  refine Realises.bind_pure (unary_ne_finished _ _) fun result hresult ↦ ?_
  obtain ⟨code, hcode⟩ := exists_unaryCode hresult
  rw [Generate.expr, hcode] at h
  -- The value is popped into `$t0`, replaced by the result, and pushed again.
  obtain ⟨m₂, hpop, hpopped, hleft, -⟩ := hvalue.pop hl f .t0 (by decide)
  obtain ⟨m₃, hrun, hcomputed, hscratch⟩ := run_unary t.image hcode hresult hleft
  obtain ⟨m₄, hpush, hevaluated⟩ :=
    (hpopped.of_scratch hscratch).push hl f .t0 (by decide) hcomputed hvalue.room
  have hblock : t.image.run? m₁ ((t.context f).pop .t0 ++ code ++ (t.context f).push .t0) =
      some m₄ := by
    rw [List.append_assoc, Image.run?_append hpop, Image.run?_append hrun, hpush]
  refine Realises.block h.right hblock ⟨?_, hevaluated⟩
  rw [Generate.expr, hcode, Emission.code_append, Code.size_append, size_instructions,
    Nat.add_assoc]

theorem realises_binary (hl : Linked t) (hf : f ∈ functionDecls t.program) {fuel : Nat}
    (ih : Simulates t fuel) (span : Span) (op : Operator) (left right : Expr)
    (h : t.image.At i (Generate.expr (t.context f) (.binary span op left right)).code)
    (hm : Active t f a d frame w m) :
    RealisesExpr t f d i m (.binary span op left right)
      (Semantics.expr t.setup (fuel + 1) d frame w (.binary span op left right)) := by
  rw [RealisesExpr, Semantics.expr]
  have hoperands : t.image.At i ((Generate.expr (t.context f) left).code ++
      (Generate.expr (t.context f) right).code) := by
    rw [Generate.expr] at h
    split at h <;> exact h.left
  refine Realises.bind (ih.expr left hf hoperands.left hm) fun r c hr ↦ ?_
  obtain ⟨l, w₁⟩ := r
  obtain ⟨index, m₁⟩ := c
  obtain ⟨rfl, hl₁⟩ := hr
  refine Realises.bind (ih.expr right hf hoperands.right (hl₁.active hm)) fun r c hr ↦ ?_
  obtain ⟨r, w₂⟩ := r
  obtain ⟨index, m₂⟩ := c
  obtain ⟨rfl, hr₂⟩ := hr
  refine Realises.bind_pure (binary_ne_finished _ _ _) fun result hresult ↦ ?_
  obtain ⟨code, hcode⟩ := exists_binaryCode hresult
  rw [Generate.expr, hcode] at h
  -- Both values are popped, the right one first, and the result is pushed.
  obtain ⟨m₃, hpop₁, hpopped₁, hright, -⟩ := (hl₁.cons hr₂).pop hl f .t1 (by decide)
  obtain ⟨m₄, hpop₀, hpopped₀, hleft, hothers⟩ := hpopped₁.pop hl f .t0 (by decide)
  have hright₄ : m₄.get .t1 = r.toBitVec := (hothers .t1 (by decide) (by decide)).trans hright
  obtain ⟨m₅, hrun, hcomputed, hscratch⟩ := run_binary t.image hcode hresult hleft hright₄
  obtain ⟨m₆, hpush, hevaluated⟩ :=
    (hpopped₀.of_scratch hscratch).push hl f .t0 (by decide) hcomputed hpopped₁.room
  have hblock : t.image.run? m₂
      ((t.context f).pop .t1 ++ (t.context f).pop .t0 ++ code ++ (t.context f).push .t0) =
        some m₆ := by
    rw [List.append_assoc, List.append_assoc, Image.run?_append hpop₁, Image.run?_append hpop₀,
      Image.run?_append hrun, hpush]
  have hat := h.right
  rw [Emission.code_append, Code.size_append, ← Nat.add_assoc] at hat
  refine Realises.block hat hblock ⟨?_, hevaluated⟩
  rw [Generate.expr, hcode, Emission.code_append, Emission.code_append, Code.size_append,
    Code.size_append, size_instructions]
  simp only [Nat.add_assoc]

/-! ### Calls -/

/-- Arguments are taken off the stack. -/
theorem run_discard (hl : Linked t) (f : FunctionDecl) {n : Nat}
    (hsp : m.get .sp = t.slot (d + n)) :
    t.image.run? m (if n = 0 then [] else
      [.immediate .addiu .sp .sp ((t.context f).globals.words n)]) =
        some (m.set .sp (t.slot d)) := by
  split
  · rename_i hn
    subst hn
    have hsame : m.set .sp (t.slot d) = m := by
      rw [← Nat.add_zero d, ← hsp]
      exact m.set_get nofun
    rw [hsame]
    rfl
  · have hadd : m.get .sp + ((t.context f).globals.words n).toBitVec = t.slot d := by
      have hwords : ((t.context f).globals.words n).toBitVec = BitVec.ofNat 32 (4 * n) :=
        hl.words n
      rw [hsp, hwords]
      exact t.stack.slot_add d n
    rw [← hadd]
    rfl

theorem find?_setup {name : String} (h : t.setup.find? name = some f) :
    f ∈ functionDecls t.program ∧ f.head.name = name :=
  ⟨List.mem_of_find?_eq_some h, by simpa using List.find?_some h⟩

theorem realises_call (hl : Linked t) (hf : f ∈ functionDecls t.program) {fuel : Nat}
    (ih : Simulates t fuel) (span : Span) (name : String) (arguments : List Expr)
    (h : t.image.At i (Generate.expr (t.context f) (.call span name arguments)).code)
    (hm : Active t f a d frame w m) :
    RealisesExpr t f d i m (.call span name arguments)
      (Semantics.expr t.setup (fuel + 1) d frame w (.call span name arguments)) := by
  rw [RealisesExpr, Semantics.expr]
  split
  · trivial
  · rename_i g hfind
    obtain ⟨hg, rfl⟩ := find?_setup hfind
    have hglobal : (t.context f).globals.find? g.head.name = _ := hl.stored.function g hg
    rw [Generate.expr, hglobal] at h ⊢
    refine Realises.bind (ih.exprs arguments hf h.left hm) fun r c hr ↦ ?_
    obtain ⟨values, w₁⟩ := r
    obtain ⟨index, m₁⟩ := c
    obtain ⟨rfl, hlength, hargs⟩ := hr
    -- The call goes to the function and comes back to the instruction after it.
    obtain ⟨entry, hsymbol⟩ := hl.symbol_function hg
    have hjal := h.right
    have hblock := @Image.At.right t.image _ [_] _ hjal
    have hback := hblock.lt_of_block (List.append_ne_nil_of_right_ne_nil _ (List.cons_ne_nil _ _))
    have hstep : t.image.step ⟨_, m₁⟩ = .running ⟨entry, m₁.set .ra _⟩ :=
      (Image.At.step_eq hjal).trans (Image.jump_eq hsymbol)
    refine Realises.of_reaches (.one hstep) ?_
    have hvalues : (values.map some).length = arguments.length :=
      (List.length_map _).trans hlength
    have hsp : m₁.get .sp = t.slot (d + (values.map some).length) := by
      rw [List.length_map]
      exact hargs.sp
    have hcall := ih.call (w := w₁) (m := m₁.set .ra (t.image.address (.text
      (i + Code.size (argumentsCode (t.context f) arguments).code + 1)))) (values.map some) hg
      hsymbol (fun _ ↦ ⟨rfl, hback⟩) hsp (hargs.values.of_kept (.of_memory rfl))
      (hargs.shared.set .ra _)
    rw [hvalues] at hcall
    refine hcall.and_then fun r c hr ↦ ?_
    obtain ⟨value, w₂⟩ := r
    obtain ⟨index, m₂⟩ := c
    obtain ⟨rfl, hreturned⟩ := hr
    -- The arguments are given up and the value is pushed.
    have hdiscarded : Evaluated t d m [] w₂ (m₂.set .sp (t.slot d)) :=
      ⟨hm.room, rfl, hreturned.fp.trans hargs.fp, trivial, hargs.kept.trans hreturned.kept,
        hreturned.shared.set .sp _⟩
    have hroom := hreturned.room
    obtain ⟨m₃, hpush, hevaluated⟩ :=
      hdiscarded.push hl f .v0 (by decide) hreturned.value (by omega)
    have hrun := (Image.run?_append (run_discard hl f hreturned.sp)).trans hpush
    refine ⟨_, hblock.reaches hrun, ?_, hevaluated⟩
    rw [Emission.code_append, Code.size_append, size_instructions, callCode, List.cons_append,
      List.length_cons]
    have hsum : ∀ x y z, x + y + 1 + z = x + (y + (z + 1)) := by omega
    exact hsum _ _ _

theorem simulates_expr (hl : Linked t) (hf : f ∈ functionDecls t.program) {fuel : Nat}
    (ih : Simulates t fuel) (e : Expr) (h : t.image.At i (Generate.expr (t.context f) e).code)
    (hm : Active t f a d frame w m) :
    RealisesExpr t f d i m e (Semantics.expr t.setup (fuel + 1) d frame w e) := by
  cases e with
  | literal span value => exact realises_literal hl span value fuel h hm
  | var span name => exact realises_var hl hf span name fuel h hm
  | unary span op operand => exact realises_unary hl hf ih span op operand h hm
  | binary span op left right => exact realises_binary hl hf ih span op left right h hm
  | call span name arguments => exact realises_call hl hf ih span name arguments h hm

/-- The code of arguments puts their values on the stack, the first one on top. -/
theorem simulates_exprs (hf : f ∈ functionDecls t.program) {fuel : Nat} (ih : Simulates t fuel)
    (es : List Expr) (h : t.image.At i (argumentsCode (t.context f) es).code)
    (hm : Active t f a d frame w m) :
    Realises t.image ⟨i, m⟩ (Semantics.exprs t.setup (fuel + 1) d frame w es) fun r c ↦
      c.index = i + Code.size (argumentsCode (t.context f) es).code ∧
        r.1.length = es.length ∧ Evaluated t d m r.1 r.2 c.machine := by
  cases es with
  | nil =>
    rw [Semantics.exprs]
    exact Realises.ok ⟨rfl, rfl, .of_active hm⟩
  | cons e es =>
    rw [Semantics.exprs]
    refine Realises.bind (ih.exprs es hf h.left hm) fun r c hr ↦ ?_
    obtain ⟨values, w₁⟩ := r
    obtain ⟨index, m₁⟩ := c
    obtain ⟨rfl, hlength, hvalues⟩ := hr
    have hactive := hvalues.active hm
    simp only at hlength hactive
    rw [hlength] at hactive
    refine Realises.bind (ih.expr e hf h.right hactive) fun r c hr ↦ ?_
    obtain ⟨value, w₂⟩ := r
    obtain ⟨index, m₂⟩ := c
    obtain ⟨rfl, hvalue⟩ := hr
    rw [← hlength] at hvalue
    refine Realises.ok ⟨?_, congrArg (· + 1) hlength, hvalues.cons hvalue⟩
    rw [argumentsCode, Emission.code_append, Code.size_append, Nat.add_assoc]

end ScalarMips
