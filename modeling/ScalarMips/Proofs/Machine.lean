import Mathlib
import ScalarMips.Assembly.Generate

/-!
# The target machine

What generated code does when it runs. The machine has the registers of `Register`, the two results
of a division, and a memory of words. Instructions are taken as they are listed, so an operand may
be any word, and there are no delay slots.

Where the assembler puts things is left open. An `Image` is code together with the place of every
instruction and of every word of data, and a running machine is at a listed instruction, not at an
address. Addresses of instructions matter only to calls and returns. A name that is defined twice
has no place at all, since no assembler would accept it.

A machine that does something no program should do gets stuck: it runs past the code, touches a word
that is not aligned, uses a name without a place, asks for an unknown service, or divides where
there is no quotient.
-/

namespace ScalarMips

/-- The content of a register or of a place in memory. -/
abbrev Word : Type := BitVec 32

/-! ### Machines -/

/-- The state of the machine, apart from where it is in the code. -/
structure Machine where
  /-- What the registers hold. Register `zero` reads as zero whatever it holds. -/
  registers : Register → Word
  /-- The quotient of the last division. -/
  lo : Word
  /-- The remainder of the last division. -/
  hi : Word
  /-- What the memory holds. -/
  memory : Word → Word
  /-- What has been printed. -/
  output : String

namespace Machine

/-- Reads a register. -/
def get (m : Machine) (r : Register) : Word :=
  if r = .zero then 0 else m.registers r

/-- Writes a register. -/
def set (m : Machine) (r : Register) (v : Word) : Machine :=
  { m with registers := fun s ↦ if s = r then v else m.registers s }

/-- Writes to memory. -/
def store (m : Machine) (p v : Word) : Machine :=
  { m with memory := fun q ↦ if q = p then v else m.memory q }

/-- Prints a text. -/
def print (m : Machine) (text : String) : Machine :=
  { m with output := m.output ++ text }

variable (m : Machine) (r : Register) (p v : Word)

theorem get_set_self (h : r ≠ .zero) : (m.set r v).get r = v := by
  rw [get, if_neg h]
  exact if_pos rfl

theorem get_set_of_ne {s : Register} (h : s ≠ r) : (m.set r v).get s = m.get s := by
  unfold get
  split
  · rfl
  · exact if_neg h

theorem set_get {r : Register} (h : r ≠ .zero) : m.set r (m.get r) = m := by
  unfold set get
  rw [if_neg h]
  congr
  funext s
  split
  · rename_i hs
    rw [hs]
  · rfl

@[simp] theorem memory_store_self : (m.store p v).memory p = v := if_pos rfl

theorem memory_store_of_ne {q : Word} (h : q ≠ p) : (m.store p v).memory q = m.memory q :=
  if_neg h

end Machine

/-! ### Operations -/

/-- The word for a truth value. -/
def Word.ofBool (b : Bool) : Word :=
  if b then 1 else 0

/-- What an operation on two registers computes. -/
def RegisterOp.compute (op : RegisterOp) (left right : Word) : Word :=
  match op with
  | addu => left + right
  | subu => left - right
  | mul => left * right
  | and => left &&& right
  | or => left ||| right
  | xor => left ^^^ right
  | slt => Word.ofBool (left.slt right)
  | sltu => Word.ofBool (left.ult right)

/-- What an operation on a register and a constant computes. -/
def ImmediateOp.compute (op : ImmediateOp) (source amount : Word) : Word :=
  match op with
  | addiu => source + amount
  | subu => source - amount
  | xori => source ^^^ amount
  | sltiu => Word.ofBool (source.ult amount)

/-- Whether a division has a result. -/
def Word.divides (left right : Word) : Bool :=
  right ≠ 0 && ¬ (left = BitVec.intMin 32 ∧ right = -1)

/-! ### Code -/

/-- The instruction on a line. -/
def Line.instruction? {ι : Type} : Line ι → Option ι
  | instruction i => some i
  | _ => none

/-- The word of data on a line, with its name. -/
def Line.word? {ι : Type} : Line ι → Option (String × Int32)
  | word name value => some (name, value)
  | _ => none

/-- The instructions of some code. -/
def Code.instructions (code : Code) : List Instruction :=
  code.filterMap Line.instruction?

/-- The words of data of some code, with their names. -/
def Code.words (code : Code) : List (String × Int32) :=
  code.filterMap Line.word?

/-- What a name stands for: an instruction or a word of data, by its number. -/
inductive Place where
  | text (i : Nat)
  | data (k : Nat)
  deriving DecidableEq

/-- The names that code defines, if `i` instructions and `k` words of data stand before it. -/
def Code.definitions : Code → Nat → Nat → List (String × Place)
  | [], _, _ => []
  | .label name :: code, i, k => (name, .text i) :: definitions code i k
  | .word name _ :: code, i, k => (name, .data k) :: definitions code i (k + 1)
  | .instruction _ :: code, i, k => definitions code (i + 1) k
  | .directive _ :: code, i, k => definitions code i k
  | .comment _ :: code, i, k => definitions code i k
  | .blank :: code, i, k => definitions code i k

/-- Code with the addresses that the assembler gives to its parts. -/
structure Image where
  /-- The code. -/
  code : Code
  /-- The address of an instruction or of a word of data. -/
  address : Place → Word

namespace Image

variable (image : Image)

/-- What a name stands for. -/
def symbol? (name : String) : Option Place :=
  match (Code.definitions image.code 0 0).filter fun d ↦ d.1 = name with
  | [d] => some d.2
  | _ => none

/-- The instruction with a given number. -/
def fetch? (i : Nat) : Option Instruction :=
  image.code.instructions[i]?

/-- The number of the instruction at an address. -/
def index? (p : Word) : Option Nat :=
  (List.range image.code.instructions.length).find? fun i ↦ image.address (.text i) = p

/-- The address itself, if a word can be there. -/
def aligned? (p : Word) : Option Word :=
  if p.toNat % 4 = 0 then some p else none

/-- The address that an operand stands for. -/
def locate? (m : Machine) : Address → Option Word
  | .above offset base => aligned? (m.get base + offset.toBitVec)
  | .below offset base => aligned? (m.get base - offset.toBitVec)
  | .label name => (image.symbol? name).bind fun place ↦ aligned? (image.address place)

/-! ### Steps -/

/-- What an instruction does if it neither goes elsewhere nor asks for a service. -/
def effect? (m : Machine) : Instruction → Option Machine
  | .li target value => some (m.set target value.toBitVec)
  | .lw target address => (image.locate? m address).map fun p ↦ m.set target (m.memory p)
  | .sw source address => (image.locate? m address).map fun p ↦ m.store p (m.get source)
  | .move target source => some (m.set target (m.get source))
  | .compute op target left right =>
    some (m.set target (op.compute (m.get left) (m.get right)))
  | .immediate op target source amount =>
    some (m.set target (op.compute (m.get source) amount.toBitVec))
  | .div left right =>
    if Word.divides (m.get left) (m.get right) then
      some { m with lo := (m.get left).sdiv (m.get right), hi := (m.get left).srem (m.get right) }
    else none
  | .mflo target => some (m.set target m.lo)
  | .mfhi target => some (m.set target m.hi)
  | .beq .. | .j _ | .jal _ | .jr _ | .syscall => none

/-- A machine at an instruction. -/
structure Config where
  /-- The number of the instruction. -/
  index : Nat
  /-- The machine. -/
  machine : Machine

/-- What comes after a step. -/
inductive Next where
  /-- The machine goes on. -/
  | running (config : Config)
  /-- The program has ended. -/
  | exited
  /-- The machine cannot go on. -/
  | stuck

/-- Goes to a name. -/
def jump (m : Machine) (name : String) : Next :=
  match image.symbol? name with
  | some (.text i) => .running ⟨i, m⟩
  | _ => .stuck

/-- Does the service whose number is in `$v0` and goes on at `i`. -/
def serve (m : Machine) (i : Nat) : Next :=
  if m.get .v0 = 1 then .running ⟨i, m.print (m.get .a0).toInt.repr⟩
  else if m.get .v0 = 10 then .exited
  else if m.get .v0 = 11 then .running ⟨i, m.print (Char.ofNat (m.get .a0).toNat).toString⟩
  else .stuck

/-- What a machine does with an instruction that is at `i`. -/
def perform (m : Machine) (i : Nat) : Instruction → Next
  | .beq left right name =>
    if m.get left = m.get right then image.jump m name else .running ⟨i + 1, m⟩
  | .j name => image.jump m name
  | .jal name => image.jump (m.set .ra (image.address (.text (i + 1)))) name
  | .jr target =>
    match image.index? (m.get target) with
    | some j => .running ⟨j, m⟩
    | none => .stuck
  | .syscall => serve m (i + 1)
  | instruction =>
    match image.effect? m instruction with
    | some m => .running ⟨i + 1, m⟩
    | none => .stuck

/-- One step. -/
def step (config : Config) : Next :=
  match image.fetch? config.index with
  | some instruction => image.perform config.machine config.index instruction
  | none => .stuck

/-- A machine gets from one configuration to another. -/
inductive Reaches : Config → Config → Prop where
  | refl (c : Config) : Reaches c c
  | step {c c' c'' : Config} : image.step c = .running c' → Reaches c' c'' → Reaches c c''

/-- A machine ends the program, and what has been printed then. -/
def Exits (c : Config) (output : String) : Prop :=
  ∃ c', image.Reaches c c' ∧ image.step c' = .exited ∧ c'.machine.output = output

end Image

/-! ### Loading -/

/-- A part of memory for the stack, which grows downwards. -/
structure Stack where
  /-- The address above the first word. -/
  top : Word
  /-- The number of words. -/
  room : Nat

/-- The address of the `k`-th word of the stack. The first one is number one, so with `k` words on
the stack this is what the stack pointer holds. -/
def Stack.slot (stack : Stack) (k : Nat) : Word :=
  stack.top - BitVec.ofNat 32 (4 * k)

/-- The parts of an image and the stack have addresses of their own. -/
structure Image.Fits (image : Image) (stack : Stack) : Prop where
  /-- Instructions are at different addresses. -/
  text : ∀ i j, i < image.code.instructions.length → j < image.code.instructions.length →
    image.address (.text i) = image.address (.text j) → i = j
  /-- Words of data are at different addresses. -/
  data : ∀ j k, j < image.code.words.length → k < image.code.words.length →
    image.address (.data j) = image.address (.data k) → j = k
  /-- Words of data are aligned. -/
  aligned_data : ∀ k < image.code.words.length, (image.address (.data k)).toNat % 4 = 0
  /-- The stack is aligned. -/
  aligned_stack : stack.top.toNat % 4 = 0
  /-- There are addresses for all words of the stack. -/
  room : 4 * stack.room ≤ 2 ^ 32
  /-- The stack and the data have no word in common. -/
  apart : ∀ n, 1 ≤ n → n ≤ stack.room → ∀ k < image.code.words.length,
    stack.slot n ≠ image.address (.data k)

/-- A machine in which an image has been loaded: the data are in memory, the first `n` words of the
stack are taken, and nothing has been printed. -/
structure Image.Loaded (image : Image) (stack : Stack) (n : Nat) (m : Machine) : Prop where
  /-- Every word of data has its initial value. -/
  data : ∀ k name value, image.code.words[k]? = some (name, value) →
    m.memory (image.address (.data k)) = value.toBitVec
  /-- The stack pointer is below the words that are taken. -/
  sp : m.get .sp = stack.slot n
  /-- Nothing has been printed. -/
  output : m.output = ""

end ScalarMips
