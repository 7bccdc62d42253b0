import ScalarMips.Assembly.Instruction
import ScalarMips.Failure
import ScalarMips.Layout.Symbol
import ScalarMips.Tree.Basic

/-!
# Generating code

The code of a program whose names are unique and whose storage is laid out. It is that of a stack
machine: the code of an expression leaves its value on the stack, `$t0` and `$t1` are the only
scratch registers, and `$v0` carries a returned value.

After the prologue of a function the saved frame pointer is at `0($fp)` and the return address one
word above it; the arguments, which the caller has pushed last to first, are above that, and the
local variables are below `$fp`. With a word size of four:

```
 12($fp)   second argument
  8($fp)   first argument
  4($fp)   saved $ra
  0($fp)   saved $fp
 -4($fp)   first local variable
 -8($fp)   second local variable
```

The entry point ends the program instead of returning.

Code and faults are gathered side by side (`Emission`); a program with a fault has no code. Branch
labels carry a number. A statement is generated for the number at which its labels start, and
`branchCount` says how many numbers it takes, so no counter has to be passed along.
-/

namespace ScalarMips.Generate

/-! ### Emissions -/

/-- Code, and why it is not what it should be. -/
structure Emission where
  /-- The code. -/
  code : Code := []
  /-- The faults met on the way. -/
  faults : List EmissionFault := []

namespace Emission

instance : Append Emission where
  append first second := ⟨first.code ++ second.code, first.faults ++ second.faults⟩

@[simp] theorem code_append (first second : Emission) :
    (first ++ second).code = first.code ++ second.code := rfl

@[simp] theorem faults_append (first second : Emission) :
    (first ++ second).faults = first.faults ++ second.faults := rfl

/-- Some instructions. -/
def ofInstructions (instructions : List Instruction) : Emission :=
  { code := instructions.map .instruction }

/-- A label. -/
def label (name : String) : Emission :=
  { code := [.label name] }

/-- A fault. -/
def fault (fault : EmissionFault) : Emission :=
  { faults := [fault] }

end Emission

/-! ### The frame -/

/-- What the code of a function depends on besides its text. -/
structure Context where
  /-- The global table. -/
  globals : SymbolTable
  /-- The table of the function. -/
  locals : SymbolTable
  /-- The name of the function. -/
  function : String
  /-- Whether each statement is preceded by a comment. -/
  annotate : Bool

/-- The words between the frame pointer and the first argument: the saved `$fp` and `$ra`. -/
def savedWords : Nat := 2

namespace Context

/-- The size of a word. -/
def wordSize (c : Context) : UInt32 :=
  c.globals.wordSize

/-- The size of the saved registers. -/
def savedSize (c : Context) : UInt32 :=
  c.globals.words savedWords

/-- Where a variable or parameter is stored. What the function declares goes before globals. -/
def address? (c : Context) (name : String) : Option Address :=
  match c.locals.find? name with
  | some (.parameter _ _ offset) => some (.above (c.savedSize + offset) .fp)
  | some (.var _ _ offset _) => some (.below (c.wordSize + offset) .fp)
  | _ =>
    match c.globals.find? name with
    | some (.var name _ _ _) => some (.label name)
    | _ => none

/-- Puts a register on the stack. -/
def push (c : Context) (source : Register) : List Instruction :=
  [.immediate .subu .sp .sp c.wordSize, .sw source (.above 0 .sp)]

/-- Takes a register off the stack. -/
def pop (c : Context) (target : Register) : List Instruction :=
  [.lw target (.above 0 .sp), .immediate .addiu .sp .sp c.wordSize]

end Context

/-- The label of the end of a function. -/
def exitLabel (function : String) : String :=
  function ++ "_exit"

/-! ### Expressions -/

/-- Replaces `$t0` by a unary operator applied to it. -/
def unaryCode? : Operator → Option (List Instruction)
  | .minus => some [.compute .subu .t0 .zero .t0]
  | .plus => some []
  | .not => some [.immediate .xori .t0 .t0 1]
  | _ => none

/-- Puts a binary operator applied to `$t0` and `$t1` into `$t0`. -/
def binaryCode? : Operator → Option (List Instruction)
  | .plus => some [.compute .addu .t0 .t0 .t1]
  | .minus => some [.compute .subu .t0 .t0 .t1]
  | .times => some [.compute .mul .t0 .t0 .t1]
  | .divide => some [.div .t0 .t1, .mflo .t0]
  | .modulo => some [.div .t0 .t1, .mfhi .t0]
  | .and => some [.compute .and .t0 .t0 .t1]
  | .or => some [.compute .or .t0 .t0 .t1]
  | .less => some [.compute .slt .t0 .t0 .t1]
  | .greater => some [.compute .slt .t0 .t1 .t0]
  | .lessEqual => some [.compute .slt .t0 .t1 .t0, .immediate .xori .t0 .t0 1]
  | .greaterEqual => some [.compute .slt .t0 .t0 .t1, .immediate .xori .t0 .t0 1]
  | .equal => some [.compute .xor .t0 .t0 .t1, .immediate .sltiu .t0 .t0 1]
  | .notEqual => some [.compute .xor .t0 .t0 .t1, .compute .sltu .t0 .zero .t0]
  | .not => none

/-- Calls a function and, with `n` arguments taken off the stack, puts the result on it. -/
def callCode (c : Context) (function : String) (n : Nat) : List Instruction :=
  .jal function ::
    (if n = 0 then [] else [.immediate .addiu .sp .sp (c.globals.words n)]) ++ c.push .v0

mutual

/-- The code that puts the value of an expression on the stack. -/
def expr (c : Context) : Expr → Emission
  | .literal _ value =>
    if value.type.isConcrete then .ofInstructions (.li .t0 value.word :: c.push .t0)
    else .fault .untypedLiteral
  | .var _ name =>
    match c.address? name with
    | some address => .ofInstructions (.lw .t0 address :: c.push .t0)
    | none => .fault (.missingVariable name)
  | .unary _ op operand =>
    match unaryCode? op with
    | some code => expr c operand ++ .ofInstructions (c.pop .t0 ++ code ++ c.push .t0)
    | none => expr c operand ++ .fault (.notUnary op)
  | .binary _ op left right =>
    match binaryCode? op with
    | some code =>
      expr c left ++ expr c right ++
        .ofInstructions (c.pop .t1 ++ c.pop .t0 ++ code ++ c.push .t0)
    | none => expr c left ++ expr c right ++ .fault (.notBinary op)
  | .call _ name arguments =>
    match c.globals.find? name with
    | some (.function ..) =>
      argumentsCode c arguments ++ .ofInstructions (callCode c name arguments.length)
    | _ => .fault (.missingCallee name)

/-- The code that puts the values of arguments on the stack, the last one first. -/
def argumentsCode (c : Context) : List Expr → Emission
  | [] => {}
  | argument :: arguments => argumentsCode c arguments ++ expr c argument

end

/-! ### Statements -/

/-- The services of the system. -/
inductive Service where
  | printInteger
  | exit
  | printCharacter
  deriving DecidableEq

/-- The number of a service. -/
def Service.number : Service → Int32
  | printInteger => 1
  | exit => 10
  | printCharacter => 11

/-- Asks for a service. -/
def serviceCode (service : Service) : List Instruction :=
  [.li .v0 service.number, .syscall]

/-- The character that a print statement ends with. -/
def endCharacter? : PrintEnd → Option Char
  | .nothing => none
  | .space => some ' '
  | .newline => some '\n'

/-- Prints a character. -/
def characterCode (char : Char) : List Instruction :=
  .li .a0 (Int32.ofNat char.toNat) :: serviceCode .printCharacter

/-- The code of a print statement. -/
def printCode (c : Context) (ending : PrintEnd) (value : Option Expr) : Emission :=
  let printed : Emission :=
    match value with
    | none => {}
    | some value => expr c value ++ .ofInstructions (c.pop .a0 ++ serviceCode .printInteger)
  printed ++ .ofInstructions ((endCharacter? ending).elim [] characterCode)

/-- Stores the value of an expression, or zero without one, under a name. -/
def storeCode (c : Context) (name : String) (value : Option Expr) : Emission :=
  match c.address? name, value with
  | none, _ => .fault (.missingVariable name)
  | some address, some value => expr c value ++ .ofInstructions (c.pop .t0 ++ [.sw .t0 address])
  | some address, none => .ofInstructions [.sw .zero address]

/-- The code of a condition, which goes to a label if it does not hold. -/
def conditionCode (c : Context) (condition : Expr) (otherwise : String) : Emission :=
  expr c condition ++ .ofInstructions (c.pop .t0 ++ [.beq .t0 .zero otherwise])

/-- A label of the conditional statement or loop with a given number. -/
def branchLabel (kind : String) (n : UInt32) (place : String) : String :=
  kind ++ "_" ++ Numeral.ofSize n ++ "_" ++ place

/-- The comment before a statement. -/
def remark (c : Context) (s : Stmt) : Emission :=
  if c.annotate then
    { code := [.comment (s.kindName ++ " (line " ++ Numeral.ofSize s.span.start.line ++ ")")] }
  else {}

mutual

/-- How many conditional statements and loops there are in a statement. A nested function is not
entered. -/
def branchCount : Stmt → Nat
  | .block _ body => branchCountAll body
  | .conditional _ _ thenBranch none => 1 + branchCount thenBranch
  | .conditional _ _ thenBranch (some elseBranch) =>
    1 + branchCount thenBranch + branchCount elseBranch
  | .loop _ _ body => 1 + branchCount body
  | .function .. => 0
  | .var .. => 0
  | .assign .. => 0
  | .evaluate .. => 0
  | .return_ .. => 0
  | .print .. => 0
termination_by structural stmt => stmt

/-- How many conditional statements and loops there are in statements. -/
def branchCountAll : List Stmt → Nat
  | [] => 0
  | stmt :: stmts => branchCount stmt + branchCountAll stmts
termination_by structural stmts => stmts

end

mutual

/-- The code of a statement whose branch labels are numbered from `n`. -/
def stmt (c : Context) : Stmt → UInt32 → Emission
  | .block span body, n => remark c (.block span body) ++ stmts c body n
  | .function span head parameters body, _ =>
    remark c (.function span head parameters body) ++ .fault (.nestedFunction head.name)
  | .var span head initial, _ =>
    remark c (.var span head initial) ++ storeCode c head.name initial
  | .assign span name target value, _ =>
    remark c (.assign span name target value) ++ storeCode c name (some value)
  | .conditional span condition thenBranch none, n =>
    let elseLabel := branchLabel "if" n "else"
    let endLabel := branchLabel "if" n "end"
    remark c (.conditional span condition thenBranch none) ++
      conditionCode c condition elseLabel ++ stmt c thenBranch (n + 1) ++
      .ofInstructions [.j endLabel] ++ .label elseLabel ++ .label endLabel
  | .conditional span condition thenBranch (some elseBranch), n =>
    let elseLabel := branchLabel "if" n "else"
    let endLabel := branchLabel "if" n "end"
    remark c (.conditional span condition thenBranch (some elseBranch)) ++
      conditionCode c condition elseLabel ++ stmt c thenBranch (n + 1) ++
      .ofInstructions [.j endLabel] ++ .label elseLabel ++
      stmt c elseBranch (n + 1 + UInt32.ofNat (branchCount thenBranch)) ++ .label endLabel
  | .loop span condition body, n =>
    let startLabel := branchLabel "while" n "start"
    let endLabel := branchLabel "while" n "end"
    remark c (.loop span condition body) ++ .label startLabel ++
      conditionCode c condition endLabel ++ stmt c body (n + 1) ++
      .ofInstructions [.j startLabel] ++ .label endLabel
  | .evaluate span value, _ =>
    remark c (.evaluate span value) ++ expr c value ++
      .ofInstructions [.immediate .addiu .sp .sp c.wordSize]
  | .return_ span value, _ =>
    remark c (.return_ span value) ++ expr c value ++
      .ofInstructions (c.pop .v0 ++ [.j (exitLabel c.function)])
  | .print span ending value, _ =>
    remark c (.print span ending value) ++ printCode c ending value
termination_by structural stmt => stmt

/-- The code of statements whose branch labels are numbered from `n`. -/
def stmts (c : Context) : List Stmt → UInt32 → Emission
  | [], _ => {}
  | first :: rest, n => stmt c first n ++ stmts c rest (n + UInt32.ofNat (branchCount first))
termination_by structural stmts => stmts

end

/-! ### Programs -/

/-- What the generated program should be. -/
structure Options where
  /-- The function to start with. -/
  entry : String := "main"
  /-- The size of a word, which has to be that of the symbol table. -/
  wordSize : UInt32 := 4
  /-- Whether each statement is preceded by a comment. -/
  annotate : Bool := false

/-- Saves the caller's frame and makes room for the local variables. -/
def prologue (c : Context) : List Instruction :=
  [.immediate .subu .sp .sp c.savedSize, .sw .ra (.above c.wordSize .sp), .sw .fp (.above 0 .sp),
    .move .fp .sp] ++
    if c.locals.localSize = 0 then [] else [.immediate .subu .sp .sp c.locals.localSize]

/-- Gives up the frame and returns to the caller. -/
def epilogue (c : Context) : List Instruction :=
  [.move .sp .fp, .lw .fp (.above 0 .sp), .lw .ra (.above c.wordSize .sp),
    .immediate .addiu .sp .sp c.savedSize, .jr .ra]

/-- The code of a function whose branch labels are numbered from `n`. -/
def function (c : Context) (entry : String) (body : List Stmt) (n : UInt32) : Emission :=
  { code := [.blank] } ++ .label c.function ++ .ofInstructions (prologue c) ++ stmts c body n ++
    .label (exitLabel c.function) ++
    .ofInstructions (if c.function = entry then serviceCode .exit else epilogue c)

/-- Generated code with the failures met on the way. -/
structure Output where
  /-- The code. -/
  code : Code := []
  /-- The failures. -/
  failures : List Failure := []

/-- The code of an emission inside a function, its faults located there. -/
def Emission.output (e : Emission) (function : String) : Output :=
  ⟨e.code, e.faults.map fun fault ↦ ⟨function, .emission fault⟩⟩

/-- The code of a top-level statement. Variables live in the data section and have none. -/
def topLevel (globals : SymbolTable) (options : Options) (n : UInt32) : Stmt → Output
  | .function _ head _ body =>
    match globals.locals? head.name with
    | some locals =>
      let context : Context := ⟨globals, locals, head.name, options.annotate⟩
      (function context options.entry body n).output head.name
    | none => (Emission.fault (.missingFunction head.name)).output ""
  | .var .. => {}
  | s => (Emission.fault (.topLevelStatement s.kindName)).output ""

/-- How many numbers the branch labels of a top-level statement take. -/
def topLevelBranches (globals : SymbolTable) : Stmt → Nat
  | .function _ head _ body =>
    if (globals.locals? head.name).isSome then branchCountAll body else 0
  | _ => 0

/-- The code of top-level statements whose branch labels are numbered from `n`. -/
def functions (globals : SymbolTable) (options : Options) : List Stmt → UInt32 → Output
  | [], _ => {}
  | first :: rest, n =>
    let head := topLevel globals options n first
    let tail :=
      functions globals options rest (n + UInt32.ofNat (topLevelBranches globals first))
    ⟨head.code ++ tail.code, head.failures ++ tail.failures⟩

/-- The data section: a word for every global variable. -/
def dataSection (globals : SymbolTable) : Code :=
  .directive ".data" :: globals.vars.map fun s ↦ .word s.name (s.initial?.getD 0)

/-- What stands before the first function. -/
def preamble (entry : String) : Code :=
  [.blank, .directive ".text", .directive (".globl " ++ entry), .instruction (.j entry)]

/-- The code of a program, or the reasons why there is none. -/
def program (globals : SymbolTable) (options : Options) (stmts : List Stmt) :
    Except (List Failure) Code :=
  if options.wordSize ≠ globals.wordSize then
    .error [⟨"", .emission (.wordSizeMismatch options.wordSize globals.wordSize)⟩]
  else if (globals.locals? options.entry).isNone then
    .error [⟨"", .emission (.missingEntry options.entry)⟩]
  else
    let output := functions globals options stmts 0
    if output.failures.isEmpty then
      .ok (dataSection globals ++ preamble options.entry ++ output.code)
    else
      .error output.failures

end ScalarMips.Generate
