import ScalarMips.Layout.Constant
import ScalarMips.Proofs.Lexical

/-!
# What programs mean

A reference semantics for programs whose names are unique, said without any code. Values are words:
integers wrap at 32 bits and truth values are zero and one. Operators always evaluate both operands,
the left one first, and the arguments of a call are evaluated last to first. A call has a frame of
its own, which starts with the parameters and gets a variable whenever its declaration is executed.
To finish the entry point ends the program, however deep the call is.

The semantics is a function with fuel. A run ends with a `Stop`, of which only `finished` is the end
of the program. Some programs have no meaning (`Undefined`), and some trees are not programs at all
(`Stop.malformed`): they use names that do not exist, or combine what is not a truth value.

A real machine has a finite stack. The semantics therefore counts the words a stack machine would
have on it, and stops if a limit is given and reached. Without a limit the count changes nothing.
-/

namespace ScalarMips.Semantics

/-! ### Endings -/

/-- Why a program has no meaning. -/
inductive Undefined where
  /-- A division by zero, or one whose quotient does not fit in a word. -/
  | division
  /-- A function other than the entry point came to its end without a return. -/
  | missingReturn
  /-- A parameter of the entry point was read though no caller had supplied it. -/
  | unsupplied
  deriving DecidableEq

/-- Why a run does not go on. -/
inductive Stop where
  /-- The entry point is finished; this is what was printed. -/
  | finished (output : String)
  /-- The program has no meaning from here on. -/
  | undefined (reason : Undefined)
  /-- The tree is not a program. -/
  | malformed
  /-- The limit of the stack was reached. -/
  | outOfStack
  /-- The fuel was too little. -/
  | outOfFuel
  deriving DecidableEq

/-! ### States -/

/-- What all calls share: the global variables and what has been printed. -/
structure World where
  /-- The values of the global variables. -/
  globals : String → Option Int32
  /-- What has been printed. -/
  output : String

/-- The parameters and variables of a call. A parameter that no caller supplied has no value. -/
abbrev Locals : Type := String → Option (Option Int32)

/-- The frame at the start of a call. -/
def Locals.enter : List Declarator → List (Option Int32) → Locals
  | p :: parameters, value :: values =>
    fun name ↦ if name = p.name then some value else enter parameters values name
  | _, _ => fun _ ↦ none

/-- Gives a variable of a call a value. -/
def Locals.set (frame : Locals) (name : String) (value : Int32) : Locals :=
  fun n ↦ if n = name then some (some value) else frame n

/-- Gives a global variable a value. -/
def World.set (w : World) (name : String) (value : Int32) : World :=
  { w with globals := fun n ↦ if n = name then some value else w.globals n }

/-- Prints a text. -/
def World.print (w : World) (text : String) : World :=
  { w with output := w.output ++ text }

/-- The value of a variable. -/
def read (frame : Locals) (w : World) (name : String) : Except Stop Int32 :=
  match frame name, w.globals name with
  | some (some value), _ => .ok value
  | some none, _ => .error (.undefined .unsupplied)
  | none, some value => .ok value
  | none, none => .error .malformed

/-! ### Operators -/

/-- Whether a word stands for a truth value. -/
def isTruth (value : Int32) : Bool :=
  value = 0 || value = 1

/-- The value of a unary operator. -/
def unary (op : Operator) (value : Int32) : Except Stop Int32 :=
  if op = .not ∧ ¬ isTruth value then .error .malformed
  else
    match Constant.unary op value with
    | some result => .ok result
    | none => .error .malformed

/-- The value of a binary operator. -/
def binary (op : Operator) (left right : Int32) : Except Stop Int32 :=
  if op ∈ [.and, .or] ∧ ¬ (isTruth left ∧ isTruth right) then .error .malformed
  else
    match Constant.binary op left right with
    | some result => .ok result
    | none => .error (if op ∈ [.divide, .modulo] then .undefined .division else .malformed)

/-- What a print statement writes after its value. -/
def endText : PrintEnd → String
  | .nothing => ""
  | .space => " "
  | .newline => "\n"

/-! ### Programs -/

/-- What a run depends on besides its state. -/
structure Setup where
  /-- The functions of the program. -/
  functions : List FunctionDecl
  /-- The name of the entry point. -/
  entry : String
  /-- How many words fit on the stack, if there is a limit. -/
  limit : Option Nat

/-- Goes on only if there is room for `n` words on the stack. -/
def Setup.reserve (s : Setup) (n : Nat) : Except Stop Unit :=
  match s.limit with
  | some limit => if n ≤ limit then .ok () else .error .outOfStack
  | none => .ok ()

/-- The function with a given name. -/
def Setup.find? (s : Setup) (name : String) : Option FunctionDecl :=
  s.functions.find? fun f ↦ f.head.name = name

/-- The words on the stack while the body of a function runs that was called with `a` words on it:
two saved registers and the local variables are added. -/
def bodyDepth (f : FunctionDecl) (a : Nat) : Nat :=
  a + 2 + (Stmt.variablesAll f.body).length

/-- How a statement ends: a returned value if it returned, and the state. -/
abbrev Outcome : Type := Option Int32 × Locals × World

mutual

/-- The value of an expression, with `d` words on the stack. -/
def expr (s : Setup) : Nat → Nat → Locals → World → Expr → Except Stop (Int32 × World)
  | 0, _, _, _, _ => .error .outOfFuel
  | fuel + 1, d, frame, w, e =>
    match e with
    | .literal _ value => do
      s.reserve (d + 1)
      if value.type.isConcrete then .ok (value.word, w) else .error .malformed
    | .var _ name => do
      s.reserve (d + 1)
      let value ← read frame w name
      .ok (value, w)
    | .unary _ op operand => do
      let (value, w) ← expr s fuel d frame w operand
      let result ← unary op value
      .ok (result, w)
    | .binary _ op left right => do
      let (l, w) ← expr s fuel d frame w left
      let (r, w) ← expr s fuel (d + 1) frame w right
      let result ← binary op l r
      .ok (result, w)
    | .call _ name arguments =>
      match s.find? name with
      | none => .error .malformed
      | some f => do
        let (values, w) ← exprs s fuel d frame w arguments
        call s fuel (d + arguments.length) w f (values.map some)

/-- The values of arguments, the last one first, with `d` words on the stack. -/
def exprs (s : Setup) : Nat → Nat → Locals → World → List Expr → Except Stop (List Int32 × World)
  | 0, _, _, _, _ => .error .outOfFuel
  | fuel + 1, d, frame, w, es =>
    match es with
    | [] => .ok ([], w)
    | e :: es => do
      let (values, w) ← exprs s fuel d frame w es
      let (value, w) ← expr s fuel (d + es.length) frame w e
      .ok (value :: values, w)

/-- The value of a call, with `a` words on the stack, the arguments included. -/
def call (s : Setup) : Nat → Nat → World → FunctionDecl → List (Option Int32) →
    Except Stop (Int32 × World)
  | 0, _, _, _, _ => .error .outOfFuel
  | fuel + 1, a, w, f, values =>
    if values.length = f.parameters.length then do
      s.reserve (bodyDepth f a)
      let (returned, _, w) ←
        stmts s fuel (bodyDepth f a) (Locals.enter f.parameters values) w f.body
      if f.head.name = s.entry then .error (.finished w.output)
      else
        match returned with
        | some value => .ok (value, w)
        | none => .error (.undefined .missingReturn)
    else .error .malformed

/-- The outcome of a statement, with `d` words on the stack. -/
def stmt (s : Setup) : Nat → Nat → Locals → World → Stmt → Except Stop Outcome
  | 0, _, _, _, _ => .error .outOfFuel
  | fuel + 1, d, frame, w, st =>
    match st with
    | .block _ body => stmts s fuel d frame w body
    | .function .. => .error .malformed
    | .var _ head none => .ok (none, frame.set head.name 0, w)
    | .var _ head (some initial) => do
      let (value, w) ← expr s fuel d frame w initial
      .ok (none, frame.set head.name value, w)
    | .assign _ name _ value =>
      if (frame name).isSome then do
        let (value, w) ← expr s fuel d frame w value
        .ok (none, frame.set name value, w)
      else if (w.globals name).isSome then do
        let (value, w) ← expr s fuel d frame w value
        .ok (none, frame, w.set name value)
      else .error .malformed
    | .conditional _ condition thenBranch elseBranch => do
      let (value, w) ← expr s fuel d frame w condition
      if value ≠ 0 then stmt s fuel d frame w thenBranch
      else
        match elseBranch with
        | some elseBranch => stmt s fuel d frame w elseBranch
        | none => .ok (none, frame, w)
    | .loop span condition body => do
      let (value, w) ← expr s fuel d frame w condition
      if value ≠ 0 then do
        let (returned, frame, w) ← stmt s fuel d frame w body
        match returned with
        | some value => .ok (some value, frame, w)
        | none => stmt s fuel d frame w (.loop span condition body)
      else .ok (none, frame, w)
    | .evaluate _ value => do
      let (_, w) ← expr s fuel d frame w value
      .ok (none, frame, w)
    | .return_ _ value => do
      let (value, w) ← expr s fuel d frame w value
      .ok (some value, frame, w)
    | .print _ ending none => .ok (none, frame, w.print (endText ending))
    | .print _ ending (some value) => do
      let (value, w) ← expr s fuel d frame w value
      .ok (none, frame, (w.print (Numeral.ofWord value)).print (endText ending))

/-- The outcome of statements, with `d` words on the stack. -/
def stmts (s : Setup) : Nat → Nat → Locals → World → List Stmt → Except Stop Outcome
  | 0, _, _, _, _ => .error .outOfFuel
  | fuel + 1, d, frame, w, body =>
    match body with
    | [] => .ok (none, frame, w)
    | first :: rest => do
      let (returned, frame, w) ← stmt s fuel d frame w first
      match returned with
      | some value => .ok (some value, frame, w)
      | none => stmts s fuel d frame w rest

end

/-- How a run of the program ends that starts with the given values of the global variables. The
parameters of the entry point are not supplied. -/
def run (s : Setup) (globals : String → Option Int32) (fuel : Nat) : Stop :=
  match s.find? s.entry with
  | none => .malformed
  | some f =>
    let n := f.parameters.length
    match call s fuel n ⟨globals, ""⟩ f (List.replicate n none) with
    | .error stop => stop
    | .ok _ => .malformed

/-- How a run of a flattened program with its symbol table ends. -/
def runProgram (program : List Stmt) (entry : String) (globals : SymbolTable)
    (limit : Option Nat) (fuel : Nat) : Stop :=
  run ⟨functionDecls program, entry, limit⟩ (Constant.variableValue globals) fuel

end ScalarMips.Semantics
