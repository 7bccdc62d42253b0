import ScalarMips.Numeral
import ScalarMips.Token.Basic
import ScalarMips.Tree.Basic

/-!
# From tokens to trees

A recursive descent over the tokens before the end of the file. Every reader takes the remaining
tokens and either refuses, naming the token at which it stopped, or gives a value and a *strictly
shorter* rest; the proof of shortening is part of the result (`Parsed`), and it is all that the
termination of the mutual recursions rests on. Readings are put one behind the other by
`Parsed.after`, which composes these proofs, so no reader has to argue about lengths.

Binary operators are read by one function for all six levels of precedence: `Level.all` lists the
levels from the loosest to the tightest, `binary` descends along that list and `chain` collects the
operators of one level to the left.

A reader never goes back, so the first refusal is the answer. It carries no position of its own when
the tokens have run out; `parse` then fills in the place of the end of the file.
-/

namespace ScalarMips

/-! ### Faults -/

/-- What a semicolon closes. -/
inductive Terminated where
  | variableDeclaration
  | returnValue
  | printStatement
  | assignment
  | expression
  deriving DecidableEq

/-- What the grammar asks for at some place. -/
inductive Expectation where
  | type
  | functionName
  | openParameters
  | parameterName
  | closeParameters
  | openBody
  | closeBody
  | variableName
  | semicolon (closed : Terminated)
  | closeBlock
  | openCondition (keyword : Keyword)
  | closeCondition
  | closeGroup
  | expression
  | closeArguments
  deriving DecidableEq

namespace Expectation

/-- The stable code of the fault that an unmet expectation is. -/
def code : Expectation → String
  | type => "BAD-E2102"
  | functionName => "BAD-E2103"
  | openParameters => "BAD-E2104"
  | parameterName => "BAD-E2105"
  | closeParameters => "BAD-E2106"
  | openBody => "BAD-E2107"
  | closeBody => "BAD-E2108"
  | variableName => "BAD-E2109"
  | semicolon _ => "BAD-E2110"
  | closeBlock => "BAD-E2111"
  | openCondition _ => "BAD-E2112"
  | closeCondition => "BAD-E2113"
  | closeGroup => "BAD-E2115"
  | expression => "BAD-E2116"
  | closeArguments => "BAD-E2117"

/-- What was expected, in words. -/
def description : Expectation → String
  | type => "type 'int' or 'bool'"
  | functionName => "function name"
  | openParameters => "'('"
  | parameterName => "parameter name"
  | closeParameters => "')' after parameter list"
  | openBody => "'\x7b' before function body"
  | closeBody => "'\x7d' after function body"
  | variableName => "variable name"
  | semicolon .variableDeclaration => "';' after variable declaration"
  | semicolon .returnValue => "';' after return value"
  | semicolon .printStatement => "';' after print statement"
  | semicolon .assignment => "';' after assignment"
  | semicolon .expression => "';' after expression"
  | closeBlock => "'\x7d' after block"
  | openCondition keyword => "'(' after '" ++ keyword.spelling ++ "'"
  | closeCondition => "')' after condition"
  | closeGroup => "')' after expression"
  | expression => "expression"
  | closeArguments => "')' after arguments"

end Expectation

/-- Why a list of tokens is not a program. -/
inductive ParseFault where
  /-- The last token is not the end of the file. -/
  | noEnd
  /-- A function declared inside a function or block. -/
  | nestedFunction
  /-- The text of an integer literal is no word. -/
  | integerTooLarge
  /-- Something else was expected; `found` is the text of the token met, if there was one. -/
  | unexpected (wanted : Expectation) (found : Option String)
  deriving DecidableEq

namespace ParseFault

/-- The stable code of a fault. -/
def code : ParseFault → String
  | noEnd => "BAD-E2100"
  | nestedFunction => "BAD-E2101"
  | integerTooLarge => "BAD-E2114"
  | unexpected wanted _ => wanted.code

/-- The text of a fault. -/
def message : ParseFault → String
  | noEnd => "Token stream does not end with end of file."
  | nestedFunction => "Nested functions are not supported."
  | integerTooLarge => "Integer literal does not fit in a 32-bit word."
  | unexpected wanted (some text) =>
    "Expected " ++ wanted.description ++ ", but got '" ++ text ++ "'."
  | unexpected wanted none => "Expected " ++ wanted.description ++ ", but got end of file."

end ParseFault

namespace Parser

/-! ### Results -/

/-- A fault, and where it was met; nowhere if the tokens had run out. -/
structure Refusal where
  /-- The fault. -/
  fault : ParseFault
  /-- The span of the token at which reading stopped. -/
  span : Option Span
  deriving DecidableEq

/-- A value read off the front of `input`, and the tokens left after it. -/
structure Parsed (α : Type) (input : List Token) where
  /-- What was read. -/
  value : α
  /-- The tokens not yet read. -/
  rest : List Token
  /-- At least one token was read. -/
  shorter : rest.length < input.length

namespace Parsed

variable {α β : Type} {input rest : List Token}

/-- The reading of a single token. -/
def one (token : Token) (value : α) : Parsed α (token :: rest) :=
  ⟨value, rest, Nat.lt_succ_self _⟩

/-- The same reading with another value. -/
def map (f : α → β) (p : Parsed α input) : Parsed β input :=
  ⟨f p.value, p.rest, p.shorter⟩

/-- One reading after another. -/
def after (p : Parsed α input) (q : Parsed β p.rest) : Parsed β input :=
  ⟨q.value, q.rest, Nat.lt_trans q.shorter p.shorter⟩

/-- A reading after a first token. -/
def behind (token : Token) (p : Parsed α rest) : Parsed α (token :: rest) :=
  ⟨p.value, p.rest, Nat.lt_succ_of_lt p.shorter⟩

end Parsed

/-- What a reader makes of `input`. -/
abbrev Result (α : Type) (input : List Token) : Type :=
  Except Refusal (Parsed α input)

/-- Refuses the front of `input`. -/
def refuse {α : Type} (wanted : Expectation) (input : List Token) : Except Refusal α :=
  .error ⟨.unexpected wanted (input.head?.map Token.text), input.head?.map Token.span⟩

/-- Reads one token of a given kind, if one is there. -/
def accept? (kind : TokenKind) : (input : List Token) → Option (Parsed Token input)
  | [] => none
  | token :: _ => if token.kind = kind then some (.one token token) else none

/-- Reads one token of a given kind. -/
def expect (kind : TokenKind) (wanted : Expectation) (input : List Token) : Result Token input :=
  match accept? kind input with
  | some token => .ok token
  | none => refuse wanted input

/-! ### Operators -/

/-- The binary operators of one level of precedence, by their marks. -/
abbrev Level : Type := List (Mark × Operator)

/-- The levels of precedence, the loosest first. -/
def Level.all : List Level :=
  [[(.pipePipe, .or)],
    [(.ampAmp, .and)],
    [(.equalsEquals, .equal), (.bangEquals, .notEqual)],
    [(.less, .less), (.lessEquals, .lessEqual), (.greater, .greater),
      (.greaterEquals, .greaterEqual)],
    [(.plus, .plus), (.minus, .minus)],
    [(.star, .times), (.slash, .divide), (.percent, .modulo)]]

/-- The operators written before their only operand. -/
def Level.unary : Level :=
  [(.bang, .not), (.minus, .minus), (.plus, .plus)]

/-- The operator of a level that a kind of token stands for. -/
def Level.operator? (level : Level) : TokenKind → Option Operator
  | .mark mark => level.lookup mark
  | _ => none

/-- Reads an operator of a level, if one is there. -/
def Level.accept? (level : Level) : (input : List Token) → Option (Parsed (Operator × Token) input)
  | [] => none
  | token :: _ => (level.operator? token.kind).map fun op ↦ .one token (op, token)

/-! ### Termination -/

/-- The measure of a reader: how much input it has, and among readers of the same input its rank.
The two are put into one number, which lets closed applications of the readers be evaluated. -/
def measure (input : List Token) (rank : Nat) : Nat :=
  input.length * 16 + rank

theorem measure_lt_of_rank {input : List Token} {rank rank' : Nat} (h : rank < rank') :
    measure input rank < measure input rank' :=
  Nat.add_lt_add_left h _

theorem measure_lt_of_length {input input' : List Token} {rank rank' : Nat}
    (h : input.length < input'.length) (hrank : rank ≤ rank' + 15) :
    measure input rank < measure input' rank' := by
  unfold measure
  omega

/-! ### Expressions -/

mutual

/-- Reads operators of `levels` and the operands between them. -/
def binary (levels : List Level) (input : List Token) : Result Expr input :=
  match levels with
  | [] => unary input
  | level :: tighter => do
    let left ← binary tighter input
    chain level tighter left
termination_by measure input (levels.length + 2)
decreasing_by
  · exact measure_lt_of_rank (Nat.lt_succ_self _)
  · exact measure_lt_of_rank (Nat.lt_succ_self _)
  · exact measure_lt_of_length left.shorter (by simp only [List.length_cons]; omega)

/-- Extends `left` by the operators of `level` that follow it, grouping to the left. -/
def chain (level : Level) (tighter : List Level) {input : List Token} (left : Parsed Expr input) :
    Result Expr input :=
  match level.accept? left.rest with
  | none => .ok left
  | some op => do
    let right ← binary tighter op.rest
    chain level tighter <| ((left.after op).after right).map fun operand ↦
      .binary (left.value.span.to operand.span) op.value.1 left.value operand
termination_by measure left.rest (tighter.length + 2)
decreasing_by
  · exact measure_lt_of_length op.shorter (Nat.le_add_right _ _)
  · exact measure_lt_of_length (Nat.lt_trans right.shorter op.shorter) (Nat.le_add_right _ _)

/-- Reads an operand with the operators written before it. -/
def unary (input : List Token) : Result Expr input :=
  match Level.unary.accept? input with
  | some op => do
    let operand ← unary op.rest
    return (op.after operand).map fun operand ↦
      .unary (op.value.2.span.to operand.span) op.value.1 operand
  | none => primary input
termination_by measure input 1
decreasing_by
  · exact measure_lt_of_length op.shorter (Nat.le_add_right _ _)
  · exact measure_lt_of_rank Nat.one_pos

/-- Reads a literal, a variable, a call or an expression in parentheses, which takes the span of its
parentheses. -/
def primary (input : List Token) : Result Expr input :=
  match input with
  | [] => refuse .expression []
  | token :: rest =>
    match token.kind with
    | .integerLiteral =>
      match Numeral.readWord? token.text with
      | some number => .ok (.one token (.literal token.span { type := .int, number }))
      | none => .error ⟨.integerTooLarge, some token.span⟩
    | .keyword .true_ => .ok (.one token (.literal token.span { type := .bool, truth := true }))
    | .keyword .false_ => .ok (.one token (.literal token.span { type := .bool, truth := false }))
    | .identifier =>
      match accept? (.mark .leftParen) rest with
      | none => .ok (.one token (.var token.span token.text))
      | some opening => do
        let arguments ← arguments opening.rest
        return ((opening.after arguments).behind token).map fun (arguments, close) ↦
          .call (token.span.to close.span) token.text arguments
    | .mark .leftParen => do
      let inner ← binary Level.all rest
      let close ← expect (.mark .rightParen) .closeGroup inner.rest
      return ((inner.after close).behind token).map fun close ↦
        inner.value.withSpan (token.span.to close.span)
    | _ => refuse .expression (token :: rest)
termination_by measure input 0
decreasing_by
  · exact measure_lt_of_length (Nat.lt_succ_of_lt opening.shorter) (by decide)
  · exact measure_lt_of_length (Nat.lt_succ_self _) (by decide)

/-- Reads the arguments of a call, after its opening parenthesis, and the closing one. -/
def arguments (input : List Token) : Result (List Expr × Token) input :=
  match accept? (.mark .rightParen) input with
  | some close => .ok (close.map fun close ↦ ([], close))
  | none => argumentsFrom input
termination_by measure input (Level.all.length + 4)
decreasing_by exact measure_lt_of_rank (Nat.lt_succ_self _)

/-- Reads one argument or more, separated by commas, and the closing parenthesis. -/
def argumentsFrom (input : List Token) : Result (List Expr × Token) input := do
  let argument ← binary Level.all input
  match accept? (.mark .comma) argument.rest with
  | some comma =>
    let more ← argumentsFrom comma.rest
    return ((argument.after comma).after more).map fun (arguments, close) ↦
      (argument.value :: arguments, close)
  | none =>
    let close ← expect (.mark .rightParen) .closeArguments argument.rest
    return (argument.after close).map fun close ↦ ([argument.value], close)
termination_by measure input (Level.all.length + 3)
decreasing_by
  · exact measure_lt_of_rank (Nat.lt_succ_self _)
  · exact measure_lt_of_length (Nat.lt_trans comma.shorter argument.shorter) (Nat.le_add_right _ _)

end

/-- Reads an expression. -/
def expression (input : List Token) : Result Expr input :=
  binary Level.all input

/-- Reads an expression and the semicolon after it. -/
def terminated (closed : Terminated) (input : List Token) : Result (Expr × Token) input := do
  let value ← expression input
  let close ← expect (.mark .semicolon) (.semicolon closed) value.rest
  return (value.after close).map fun close ↦ (value.value, close)

/-! ### Declarators -/

/-- Reads the name of a type. -/
def scalarType : (input : List Token) → Result ScalarType input
  | [] => refuse .type []
  | token :: rest =>
    match token.kind with
    | .keyword .int => .ok (.one token .int)
    | .keyword .bool => .ok (.one token .bool)
    | _ => refuse .type (token :: rest)

/-- Reads a type and a name. -/
def declarator (wanted : Expectation) (input : List Token) : Result Declarator input := do
  let type ← scalarType input
  let name ← expect .identifier wanted type.rest
  return (type.after name).map fun name ↦ ⟨name.text, type.value, name.span⟩

/-- Reads one parameter or more, separated by commas, and the closing parenthesis. -/
def parametersFrom (input : List Token) : Result (List Declarator × Token) input := do
  let parameter ← declarator .parameterName input
  match accept? (.mark .comma) parameter.rest with
  | some comma =>
    let more ← parametersFrom comma.rest
    return ((parameter.after comma).after more).map fun (parameters, close) ↦
      (parameter.value :: parameters, close)
  | none =>
    let close ← expect (.mark .rightParen) .closeParameters parameter.rest
    return (parameter.after close).map fun close ↦ ([parameter.value], close)
termination_by input.length
decreasing_by exact Nat.lt_trans comma.shorter parameter.shorter

/-- Reads the parameters of a function, after the opening parenthesis, and the closing one. -/
def parameters (input : List Token) : Result (List Declarator × Token) input :=
  match accept? (.mark .rightParen) input with
  | some close => .ok (close.map fun close ↦ ([], close))
  | none => parametersFrom input

/-! ### Simple statements -/

/-- Reads a variable declaration; `first` is the name of its type. -/
def varDeclaration (first : Token) (rest : List Token) : Result Stmt (first :: rest) := do
  let head ← declarator .variableName (first :: rest)
  match accept? (.mark .equals) head.rest with
  | some equals =>
    let initial ← terminated .variableDeclaration equals.rest
    return ((head.after equals).after initial).map fun (value, close) ↦
      .var (first.span.to close.span) head.value (some value)
  | none =>
    let close ← expect (.mark .semicolon) (.semicolon .variableDeclaration) head.rest
    return (head.after close).map fun close ↦ .var (first.span.to close.span) head.value none

/-- Reads a print statement after its keyword, with a value. -/
def printValue (keyword : Token) (ending : PrintEnd) (rest : List Token) :
    Result Stmt (keyword :: rest) := do
  let value ← terminated .printStatement rest
  return (value.behind keyword).map fun (value, close) ↦
    .print (keyword.span.to close.span) ending (some value)

/-- Reads a print statement after its keyword, with or without a value. -/
def printSeparator (keyword : Token) (ending : PrintEnd) (rest : List Token) :
    Result Stmt (keyword :: rest) :=
  match accept? (.mark .semicolon) rest with
  | some close =>
    .ok <| (close.behind keyword).map fun close ↦ .print (keyword.span.to close.span) ending none
  | none => printValue keyword ending rest

/-- Reads an expression statement. -/
def expressionStatement (input : List Token) : Result Stmt input := do
  let value ← terminated .expression input
  return value.map fun (value, close) ↦ .evaluate (value.span.to close.span) value

/-- Reads an assignment, or an expression statement that starts with a name. -/
def nameStatement (name : Token) (rest : List Token) : Result Stmt (name :: rest) :=
  match accept? (.mark .equals) rest with
  | some equals => do
    let value ← terminated .assignment equals.rest
    return ((equals.after value).behind name).map fun (value, close) ↦
      .assign (name.span.to close.span) name.text name.span value
  | none => expressionStatement (name :: rest)

/-- Reads the condition after `if` or `while`, with its parentheses. -/
def condition (keyword : Keyword) (input : List Token) : Result Expr input := do
  let opening ← expect (.mark .leftParen) (.openCondition keyword) input
  let value ← expression opening.rest
  let closing ← expect (.mark .rightParen) .closeCondition value.rest
  return ((opening.after value).after closing).map fun _ ↦ value.value

/-! ### Statements -/

mutual

/-- Reads a statement that stands inside a function. -/
def statement (input : List Token) : Result Stmt input :=
  match input with
  | [] => refuse .expression []
  | first :: rest =>
    match first.kind with
    | .keyword .fun_ => .error ⟨.nestedFunction, some first.span⟩
    | .keyword .int | .keyword .bool => varDeclaration first rest
    | .mark .leftBrace => do
      let body ← statements .closeBlock rest
      return (body.behind first).map fun (body, close) ↦ .block (first.span.to close.span) body
    | .keyword .if_ => do
      let test ← condition .if_ rest
      let thenBranch ← statement test.rest
      let upToThen := (test.after thenBranch).behind first
      match accept? (.keyword .else_) thenBranch.rest with
      | none =>
        return upToThen.map fun thenBranch ↦
          .conditional (first.span.to thenBranch.span) test.value thenBranch none
      | some els =>
        let elseBranch ← statement els.rest
        return ((upToThen.after els).after elseBranch).map fun elseBranch ↦
          .conditional (first.span.to elseBranch.span) test.value thenBranch.value
            (some elseBranch)
    | .keyword .while_ => do
      let test ← condition .while_ rest
      let body ← statement test.rest
      return ((test.after body).behind first).map fun body ↦
        .loop (first.span.to body.span) test.value body
    | .keyword .return_ => do
      let value ← terminated .returnValue rest
      return (value.behind first).map fun (value, close) ↦
        .return_ (first.span.to close.span) value
    | .keyword .print => printValue first .nothing rest
    | .keyword .printsp => printSeparator first .space rest
    | .keyword .println => printSeparator first .newline rest
    | .identifier => nameStatement first rest
    | _ => expressionStatement (first :: rest)
termination_by measure input 0
decreasing_by
  · exact measure_lt_of_length (Nat.lt_succ_self _) (by decide)
  · exact measure_lt_of_length (Nat.lt_succ_of_lt test.shorter) (by decide)
  · exact measure_lt_of_length (Nat.lt_trans els.shorter upToThen.shorter) (by decide)
  · exact measure_lt_of_length (Nat.lt_succ_of_lt test.shorter) (by decide)

/-- Reads statements up to a closing brace, and the brace. -/
def statements (closing : Expectation) (input : List Token) : Result (List Stmt × Token) input :=
  match input with
  | [] => refuse closing []
  | token :: rest =>
    if token.kind = .mark .rightBrace then
      .ok (.one token ([], token))
    else do
      let first ← statement (token :: rest)
      let more ← statements closing first.rest
      return (first.after more).map fun (body, close) ↦ (first.value :: body, close)
termination_by measure input 1
decreasing_by
  · exact measure_lt_of_rank Nat.one_pos
  · exact measure_lt_of_length first.shorter (by decide)

end

/-! ### Programs -/

/-- Reads a function after its keyword. -/
def function (keyword : Token) (rest : List Token) : Result Stmt (keyword :: rest) := do
  let type ← scalarType rest
  let name ← expect .identifier .functionName type.rest
  let opening ← expect (.mark .leftParen) .openParameters name.rest
  let parameters ← parameters opening.rest
  let brace ← expect (.mark .leftBrace) .openBody parameters.rest
  let body ← statements .closeBody brace.rest
  let header := ((type.after name).after opening).after parameters
  let head : Declarator :=
    ⟨name.value.text, type.value, name.value.span.to parameters.value.2.span⟩
  return (((header.after brace).after body).behind keyword).map fun (body, close) ↦
    .function (keyword.span.to close.span) head parameters.value.1 body

/-- Reads a top-level statement. -/
def declaration (first : Token) (rest : List Token) : Result Stmt (first :: rest) :=
  if first.kind = .keyword .fun_ then function first rest else statement (first :: rest)

/-- Reads top-level statements up to the end. -/
def program (input : List Token) : Except Refusal (List Stmt) :=
  match input with
  | [] => .ok []
  | first :: rest => do
    let head ← declaration first rest
    let more ← program head.rest
    return head.value :: more
termination_by input.length
decreasing_by exact head.shorter

end Parser

/-- The program that a list of tokens spells. The list has to end with the end of the file, and the
first such token is where reading stops. -/
def parse (tokens : List Token) : Except (Located ParseFault) (List Stmt) :=
  if tokens.getLast?.map Token.kind = some .endOfFile then
    match tokens.dropWhile (·.kind ≠ .endOfFile) with
    | [] => .error ⟨{}, .noEnd⟩
    | last :: _ =>
      (Parser.program (tokens.takeWhile (·.kind ≠ .endOfFile))).mapError fun refusal ↦
        ⟨refusal.span.getD last.span, refusal.fault⟩
  else
    .error ⟨{}, .noEnd⟩

end ScalarMips
