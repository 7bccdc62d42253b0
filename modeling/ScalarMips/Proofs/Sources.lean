import ScalarMips.Proofs.CallSimulation
import ScalarMips.Proofs.ControlFlow
import ScalarMips.Proofs.Histories
import ScalarMips.Proofs.SoundFrames

/-!
# Where loaded words come from

What should hold whenever generated code loads a word (`Target.Loads`). A word that is loaded for a
parameter or local variable was stored in the same activation by a declaration of the variable or an
assignment to it, or it was pushed by the caller as the argument that belongs to the parameter
(`Source`). Only the parameters of the entry point, which nobody calls at the start of a run, have
no such source. A word that is loaded for a variable of truth values is zero or one, if truth values
are watched, and no other word of the stack is loaded that was not written.

Runs are followed as long as the stack has room. If truth values are watched, then they are followed
as long as no function of truth values comes to its end without a return statement and with another
value in `$v0` (`Target.Admits`).
-/

namespace ScalarMips

open Generate
open Semantics (bodyDepth)

/-! ### Instructions of a function -/

namespace Target

variable (t : Target)

/-- The code of a function has a part whose instructions are numbered from `i` on. -/
def Inside (f : FunctionDecl) (i : Nat) (part : Code) : Prop :=
  ∃ start n before after,
    t.image.At start (Generate.function (t.context f) t.entry f.body n).code ∧
      (Generate.function (t.context f) t.entry f.body n).code = before ++ part ++ after ∧
        i = start + Code.size before

/-- An instruction stands in the code of a function. -/
def Contains (f : FunctionDecl) (i : Nat) : Prop :=
  ∃ start n, t.image.At start (Generate.function (t.context f) t.entry f.body n).code ∧
    start ≤ i ∧ i < start + Code.size (Generate.function (t.context f) t.entry f.body n).code

variable {t} {f : FunctionDecl} {i : Nat} {first second : Code}

namespace Inside

theorem left (h : t.Inside f i (first ++ second)) : t.Inside f i first := by
  obtain ⟨start, n, before, after, hat, hcode, hi⟩ := h
  exact ⟨start, n, before, second ++ after, hat, by rw [hcode]; simp only [List.append_assoc], hi⟩

theorem right (h : t.Inside f i (first ++ second)) : t.Inside f (i + Code.size first) second := by
  obtain ⟨start, n, before, after, hat, hcode, hi⟩ := h
  refine ⟨start, n, before ++ first, after, hat, by rw [hcode]; simp only [List.append_assoc], ?_⟩
  rw [Code.size_append, hi, Nat.add_assoc]

theorem toAt (h : t.Inside f i first) : t.image.At i first := by
  obtain ⟨start, n, before, after, hat, hcode, rfl⟩ := h
  rw [hcode, List.append_assoc] at hat
  exact hat.right.left

/-- Comments are no instructions. -/
theorem skip {c : Context} {s : Stmt} (h : t.Inside f i ((remark c s).code ++ second)) :
    t.Inside f i second := by
  have hright := h.right
  rwa [size_remark, Nat.add_zero] at hright

/-- The instructions after the first one. -/
theorem tail {instruction : Instruction} {rest : Code}
    (h : t.Inside f i (.instruction instruction :: rest)) : t.Inside f (i + 1) rest :=
  @right t f i [.instruction instruction] rest h

theorem contains {instruction : Instruction} {rest : Code}
    (h : t.Inside f i (.instruction instruction :: rest)) : t.Contains f i := by
  obtain ⟨start, n, before, after, hat, hcode, rfl⟩ := h
  refine ⟨start, n, hat, Nat.le_add_right _ _, ?_⟩
  rw [hcode, Code.size_append, Code.size_append, Code.size_instruction]
  omega

end Inside

end Target

/-! ### Sources -/

/-- A word is zero or one. -/
def Word.IsTruth (v : Word) : Prop :=
  v = 0 ∨ v = 1

/-- A word can be a value of a type, if truth values are watched. -/
def Suits (strict : Prop) (type : ScalarType) (v : Word) : Prop :=
  strict → type = .bool → Word.IsTruth v

/-- The symbol that a name stands for in a function. -/
def Generate.Context.symbol? (c : Context) (name : String) : Option Symbol :=
  (c.locals.find? name).or (c.globals.find? name)

/-- A statement declares a variable or assigns to it. -/
def Stmt.Sets (name : String) : Stmt → Prop
  | .var _ head _ => head.name = name
  | .assign _ target _ _ => target = name
  | _ => False

/-- An instruction is the last one of a declaration of a variable or of an assignment to it. -/
def Target.Sets (t : Target) (f : FunctionDecl) (name : String) (i : Nat) : Prop :=
  ∃ (s : Stmt) (n : UInt32) (start : Nat), s.Sets name ∧
    t.Inside f start (Generate.stmt (t.context f) s n).code ∧
      i + 1 = start + Code.size (Generate.stmt (t.context f) s n).code

/-- Where the word `p` of a parameter or local variable has come from, while the function is
running. -/
inductive Source (t : Target) (f : FunctionDecl) (name : String) (p : Word) (h : History) :
    Prop where
  /-- The activation itself has stored it, in a declaration of the variable or an assignment. -/
  | stored {w : Write} :
    h.written p = some w → w.activation = h.current.number → t.Sets f name w.index →
    Source t f name p h
  /-- The caller has pushed it with the last instruction of the argument that belongs to the
  parameter, in the call with which the activation began. -/
  | passed {w : Write} {caller : Activation} {callers : List Activation} {g : FunctionDecl}
    {span : Span} {arguments : List Expr} {start j : Nat} :
    h.written p = some w → h.callers = caller :: callers → w.activation = caller.number →
    g ∈ functionDecls t.program → g.head.name = caller.function →
    t.Inside g start (Generate.expr (t.context g) (.call span f.head.name arguments)).code →
    h.current.call = some (start + Code.size (argumentsCode (t.context g) arguments).code) →
    (f.parameters.map Declarator.name)[j]? = some name → j < arguments.length →
    w.index + 1 = start + Code.size (argumentsCode (t.context g) (arguments.drop j)).code →
    Source t f name p h
  /-- Nobody has supplied the parameters of the entry point when it was started. -/
  | unsupplied : f.head.name = t.entry → h.callers = [] →
    name ∈ f.parameters.map Declarator.name → h.written p = none → Source t f name p h

/-- The history of a word decides about its source, as long as the same activation is running. -/
theorem Source.congr {t : Target} {f : FunctionDecl} {name : String} {p : Word} {h h' : History}
    (hs : Source t f name p h) (hwritten : h'.written p = h.written p)
    (hcurrent : h'.current = h.current) (hcallers : h'.callers = h.callers) :
    Source t f name p h' := by
  cases hs with
  | stored hw hnumber hsets => exact .stored (hwritten.trans hw) (hcurrent ▸ hnumber) hsets
  | passed hw hcaller hnumber hg hname hinside hcall hj hlt hindex =>
    exact .passed (hwritten.trans hw) (hcallers.trans hcaller) hnumber hg hname hinside
      (hcurrent ▸ hcall) hj hlt hindex
  | unsupplied hentry hfirst hname hw =>
    exact .unsupplied hentry (hcallers.trans hfirst) hname (hwritten.trans hw)

/-- A load from the word `p` in a function is as it should be. -/
structure Fetches (t : Target) (strict : Prop) (f : FunctionDecl) (x : Moment) (address : Address)
    (p : Word) : Prop where
  /-- The load is that of a variable, or it goes through the stack pointer. -/
  kind : (∃ name, (t.context f).address? name = some address) ∨
    ∃ offset, address = .above offset .sp
  /-- A variable of truth values holds one. -/
  value : ∀ name s, (t.context f).symbol? name = some s →
    (t.context f).address? name = some address → Suits strict s.type (x.machine.memory p)
  /-- A parameter or local variable has a source. -/
  source : ∀ name ∈ f.variables, (t.context f).address? name = some address →
    Source t f name p x.history
  /-- Words of the stack were written, apart from the parameters of the entry point at the start. -/
  written : (∀ label, address ≠ .label label) → x.history.written p = none →
    f.head.name = t.entry ∧ x.history.callers = [] ∧
      ∃ k, 1 ≤ k ∧ k ≤ f.parameters.length ∧ p = t.slot k

/-- How much an instruction takes from the stack. -/
def Instruction.taken? : Instruction → Option UInt32
  | immediate .subu .sp .sp amount => some amount
  | _ => none

namespace Target

variable (t : Target)

/-- A load is as it should be. -/
def Loads (strict : Prop) (x : Moment) (address : Address) : Prop :=
  ∃ f ∈ functionDecls t.program, f.head.name = x.history.current.function ∧
    t.Contains f x.index ∧ ∃ p, t.image.locate? x.machine address = some p ∧
      Fetches t strict f x address p

/-- The stack has the room that an instruction asks for. -/
def Roomy (x : Moment) : Prop :=
  ∀ amount ∈ (t.image.fetch? x.index).bind Instruction.taken?,
    amount.toNat ≤ (x.machine.get .sp - t.slot t.stack.room).toNat

/-- A function of truth values that has come to its end without a return statement has left a truth
value in `$v0`. -/
def Answered (x : Moment) : Prop :=
  ∀ f ∈ functionDecls t.program, f.head.type = .bool → f.head.name ≠ t.entry →
    t.image.symbol? (exitLabel f.head.name) = some (.text x.index) →
    x.history.last ≠ some (.j (exitLabel f.head.name)) → Word.IsTruth (x.machine.get .v0)

instance (x : Moment) : Decidable (t.Roomy x) :=
  decidable_of_iff (((t.image.fetch? x.index).bind Instruction.taken?).all fun amount ↦
    amount.toNat ≤ (x.machine.get .sp - t.slot t.stack.room).toNat)
    (by simp only [Roomy, Option.all_eq_true, decide_eq_true_eq, Option.mem_def])

instance (v : Word) : Decidable (Word.IsTruth v) :=
  inferInstanceAs (Decidable (_ ∨ _))

instance (x : Moment) : Decidable (t.Answered x) :=
  inferInstanceAs (Decidable (∀ f ∈ functionDecls t.program, _))

/-- A run is followed. -/
def Admits (strict : Prop) (x : Moment) : Prop :=
  t.Roomy x ∧ (strict → t.Answered x)

/-- The next loads are as they should be. -/
def Safe (strict : Prop) (n : Nat) (x : Moment) : Prop :=
  t.image.Safe (t.Admits strict) (t.Loads strict) n x

end Target

/-- A linked program whose addresses are those of words. -/
structure Placed (t : Target) : Prop extends Linked t where
  /-- Instructions are aligned. -/
  aligned_text : ∀ i < t.image.code.instructions.length, (t.image.address (.text i)).toNat % 4 = 0
  /-- The stack does not fill the address space. -/
  room_lt : 4 * t.stack.room < 2 ^ 32

end ScalarMips
