import ScalarMips.Tree.Parser

/-!
# Parsing with a cursor

The parser once more, as a walk over an array of tokens: a session remembers the index of the next
token and the faults it has recorded, readers look at tokens by their index and give up by returning
nothing, and loops and recursion go on for as long as they do.

Nothing here is right by its type. A reader may ask for a token outside of the array (`Crash`), give
up without a word or after several faults, or never come to an end. The readers are written with the
calls they make left open (`Call`), loops being calls that repeat themselves. `perform` makes the
calls, nested as deep as it is allowed to and no deeper: a session that is not done by then has no
outcome. That none of this happens, that there is an end to how deep calls are nested, and that what
is read is what `parse` reads, is proved of all arrays in `ScalarMips.Proofs.CursorParsing`.
-/

open ScalarMips.Parser (Level)

namespace ScalarMips.Cursor

/-- What a parser remembers. -/
structure State where
  /-- The index of the next token. -/
  position : Nat := 0
  /-- The faults recorded so far. -/
  faults : List (Located ParseFault) := []
  deriving DecidableEq

/-- Why a session breaks off. -/
inductive Crash where
  /-- A token outside of the array was asked for. -/
  | outOfRange
  deriving DecidableEq

/-- Work on the state of a parser. It crashes or has an outcome, or it is not done. -/
abbrev Session (α : Type) : Type :=
  StateT State (ExceptT Crash Option) α

/-- Work that gives a value, or gives up. -/
abbrev Reader (α : Type) : Type :=
  OptionT Session α

/-- What readers call for that may call for it again. -/
inductive Call : Type → Type where
  /-- Operators of some levels and the operands between them. -/
  | binary (levels : List Level) : Call Expr
  /-- The operators of a level that follow an expression. -/
  | chain (level : Level) (tighter : List Level) (left : Expr) : Call Expr
  /-- An operand with the operators written before it. -/
  | unary : Call Expr
  /-- One argument or more, and the closing parenthesis. -/
  | argumentsFrom : Call (List Expr × Token)
  /-- One parameter or more, and the closing parenthesis. -/
  | parametersFrom : Call (List Declarator × Token)
  /-- A statement that stands inside a function. -/
  | statement : Call Stmt
  /-- Statements up to a closing brace, and the brace. -/
  | statements (closing : Expectation) : Call (List Stmt × Token)
  /-- Top-level statements up to the end of the file. -/
  | declarations : Call (List Stmt)

variable (tokens : Array Token)

/-! ### Looking at tokens -/

/-- The token at an index. -/
def token (index : Nat) : Reader Token :=
  match tokens[index]? with
  | some token => return token
  | none => throwThe Crash .outOfRange

/-- The next token. -/
def peek : Reader Token := do
  token tokens (← get).position

/-- The token behind the next one; the last token if there is none. -/
def peekNext : Reader Token := do
  let next := (← get).position + 1
  if next ≥ tokens.size then token tokens (tokens.size - 1) else token tokens next

/-- The token in front of the next one. -/
def previous : Reader Token := do
  match (← get).position with
  | 0 => throwThe Crash .outOfRange
  | position + 1 => token tokens position

/-- Whether the next token is the end of the file. -/
def isAtEnd : Reader Bool := do
  return decide ((← peek tokens).kind = .endOfFile)

/-- Steps over the next token, unless it is the end of the file, and gives the token in front. -/
def advance : Reader Token := do
  unless ← isAtEnd tokens do
    modify fun s ↦ { s with position := s.position + 1 }
  token tokens ((← get).position - 1)

/-- Whether the next token has a kind, which is not the end of the file. -/
def check (kind : TokenKind) : Reader Bool := do
  if ← isAtEnd tokens then
    return false
  else
    return decide ((← peek tokens).kind = kind)

/-- Steps over a token of a kind, if there is one. -/
def accept? (kind : TokenKind) : Reader (Option Token) := do
  if ← check tokens kind then
    return some (← advance tokens)
  else
    return none

/-! ### Faults -/

/-- Records a fault, if it is the first. -/
def record (fault : Located ParseFault) : Session Unit :=
  modify fun s ↦ if s.faults.isEmpty then { s with faults := [fault] } else s

/-- Records a fault and gives up. -/
def fail {α : Type} (span : Span) (fault : ParseFault) : Reader α := do
  OptionT.lift (record ⟨span, fault⟩)
  failure

/-- Gives up because of a token that was found in place of another. -/
def unexpected {α : Type} (wanted : Expectation) (found : Token) : Reader α :=
  fail found.span <|
    .unexpected wanted (if found.kind = .endOfFile then none else some found.text)

/-- Steps over a token that has to be of a kind. -/
def expect (kind : TokenKind) (wanted : Expectation) : Reader Token := do
  if ← check tokens kind then
    advance tokens
  else
    unexpected wanted (← peek tokens)

/-- Steps over an operator of a level, if there is one. -/
def operator? : Level → Reader (Option (Operator × Token))
  | [] => return none
  | (mark, op) :: level => do
    match ← accept? tokens (.mark mark) with
    | some token => return some (op, token)
    | none => operator? level

/-! ### Expressions -/

variable (call : {α : Type} → Call α → Reader α)

/-- Reads operators of some levels and the operands between them. -/
def binary (levels : List Level) : Reader Expr :=
  match levels with
  | [] => call .unary
  | level :: tighter => do
    let left ← call (.binary tighter)
    call (.chain level tighter left)

/-- Extends an expression by the operators of a level that follow it. -/
def chain (level : Level) (tighter : List Level) (left : Expr) : Reader Expr := do
  match ← operator? tokens level with
  | none => return left
  | some (op, _) =>
    let right ← call (.binary tighter)
    call (.chain level tighter (.binary (left.span.to right.span) op left right))

/-- Reads the arguments of a call, after its opening parenthesis, and the closing one. -/
def arguments : Reader (List Expr × Token) := do
  if ← check tokens (.mark .rightParen) then
    let close ← expect tokens (.mark .rightParen) .closeArguments
    return ([], close)
  else
    call .argumentsFrom

/-- Reads a literal, a variable, a call or an expression in parentheses. -/
def primary : Reader Expr := do
  let token ← peek tokens
  match token.kind with
  | .integerLiteral =>
    let _ ← advance tokens
    match Numeral.readWord? token.text with
    | some number => return .literal token.span { type := .int, number }
    | none => fail token.span .integerTooLarge
  | .keyword .true_ =>
    let _ ← advance tokens
    return .literal token.span { type := .bool, truth := true }
  | .keyword .false_ =>
    let _ ← advance tokens
    return .literal token.span { type := .bool, truth := false }
  | .identifier =>
    let _ ← advance tokens
    if ← check tokens (.mark .leftParen) then
      let _ ← advance tokens
      let (arguments, close) ← arguments tokens call
      return .call (token.span.to close.span) token.text arguments
    else
      return .var token.span token.text
  | .mark .leftParen =>
    let _ ← advance tokens
    let inner ← call (.binary Level.all)
    let close ← expect tokens (.mark .rightParen) .closeGroup
    return inner.withSpan (token.span.to close.span)
  | _ => unexpected .expression token

/-- Reads an operand with the operators written before it. -/
def unary : Reader Expr := do
  match ← operator? tokens Level.unary with
  | some (op, token) =>
    let operand ← call .unary
    return .unary (token.span.to operand.span) op operand
  | none => primary tokens call

/-- Reads one argument or more, separated by commas, and the closing parenthesis. -/
def argumentsFrom : Reader (List Expr × Token) := do
  let argument ← call (.binary Level.all)
  match ← accept? tokens (.mark .comma) with
  | some _ =>
    let (more, close) ← call .argumentsFrom
    return (argument :: more, close)
  | none =>
    let close ← expect tokens (.mark .rightParen) .closeArguments
    return ([argument], close)

/-- Reads an expression. -/
def expression : Reader Expr :=
  call (.binary Level.all)

/-- Reads an expression and the semicolon after it. -/
def terminated (closed : Terminated) : Reader (Expr × Token) := do
  let value ← expression call
  let close ← expect tokens (.mark .semicolon) (.semicolon closed)
  return (value, close)

/-! ### Declarators -/

/-- Reads the name of a type. -/
def scalarType : Reader ScalarType := do
  match ← accept? tokens (.keyword .int) with
  | some _ => return .int
  | none =>
    match ← accept? tokens (.keyword .bool) with
    | some _ => return .bool
    | none => unexpected .type (← peek tokens)

/-- Reads a type and a name. -/
def declarator (wanted : Expectation) : Reader Declarator := do
  let type ← scalarType tokens
  let name ← expect tokens .identifier wanted
  return ⟨name.text, type, name.span⟩

/-- Reads one parameter or more, separated by commas, and the closing parenthesis. -/
def parametersFrom : Reader (List Declarator × Token) := do
  let parameter ← declarator tokens .parameterName
  match ← accept? tokens (.mark .comma) with
  | some _ =>
    let (more, close) ← call .parametersFrom
    return (parameter :: more, close)
  | none =>
    let close ← expect tokens (.mark .rightParen) .closeParameters
    return ([parameter], close)

/-- Reads the parameters of a function, after the opening parenthesis, and the closing one. -/
def parameters : Reader (List Declarator × Token) := do
  if ← check tokens (.mark .rightParen) then
    let close ← expect tokens (.mark .rightParen) .closeParameters
    return ([], close)
  else
    call .parametersFrom

/-! ### Statements -/

/-- Reads a variable declaration. -/
def varDeclaration : Reader Stmt := do
  let first ← peek tokens
  let head ← declarator tokens .variableName
  match ← accept? tokens (.mark .equals) with
  | some _ =>
    let (value, close) ← terminated tokens call .variableDeclaration
    return .var (first.span.to close.span) head (some value)
  | none =>
    let close ← expect tokens (.mark .semicolon) (.semicolon .variableDeclaration)
    return .var (first.span.to close.span) head none

/-- Reads a print statement, with or without a value unless one is asked for. -/
def print (ending : PrintEnd) (valueRequired : Bool) : Reader Stmt := do
  let keyword ← advance tokens
  if ← pure valueRequired <||> notM (check tokens (.mark .semicolon)) then
    let (value, close) ← terminated tokens call .printStatement
    return .print (keyword.span.to close.span) ending (some value)
  else
    let close ← expect tokens (.mark .semicolon) (.semicolon .printStatement)
    return .print (keyword.span.to close.span) ending none

/-- Reads an assignment. -/
def assignment : Reader Stmt := do
  let target ← advance tokens
  let _ ← advance tokens
  let (value, close) ← terminated tokens call .assignment
  return .assign (target.span.to close.span) target.text target.span value

/-- Reads an expression statement. -/
def expressionStatement : Reader Stmt := do
  let (value, close) ← terminated tokens call .expression
  return .evaluate (value.span.to close.span) value

/-- Reads the condition after `if` or `while`, with its parentheses. -/
def condition (keyword : Keyword) : Reader Expr := do
  let _ ← expect tokens (.mark .leftParen) (.openCondition keyword)
  let value ← expression call
  let _ ← expect tokens (.mark .rightParen) .closeCondition
  return value

/-- Reads a statement that declares nothing. -/
def simpleStatement : Reader Stmt := do
  match (← peek tokens).kind with
  | .mark .leftBrace =>
    let first ← advance tokens
    let (body, close) ← call (.statements .closeBlock)
    return .block (first.span.to close.span) body
  | .keyword .if_ =>
    let first ← advance tokens
    let test ← condition tokens call .if_
    let thenBranch ← call .statement
    match ← accept? tokens (.keyword .else_) with
    | some _ =>
      let elseBranch ← call .statement
      return .conditional (first.span.to (← previous tokens).span) test thenBranch
        (some elseBranch)
    | none =>
      return .conditional (first.span.to (← previous tokens).span) test thenBranch none
  | .keyword .while_ =>
    let first ← advance tokens
    let test ← condition tokens call .while_
    let body ← call .statement
    return .loop (first.span.to (← previous tokens).span) test body
  | .keyword .return_ =>
    let first ← advance tokens
    let (value, close) ← terminated tokens call .returnValue
    return .return_ (first.span.to close.span) value
  | .keyword .print => print tokens call .nothing true
  | .keyword .printsp => print tokens call .space false
  | .keyword .println => print tokens call .newline false
  | .identifier =>
    if (← peekNext tokens).kind = .mark .equals then
      assignment tokens call
    else
      expressionStatement tokens call
  | _ => expressionStatement tokens call

/-- Reads a statement that stands inside a function. -/
def statement : Reader Stmt := do
  if ← check tokens (.keyword .fun_) then
    fail (← peek tokens).span .nestedFunction
  else if ← check tokens (.keyword .int) <||> check tokens (.keyword .bool) then
    varDeclaration tokens call
  else
    simpleStatement tokens call

/-- Reads statements up to a closing brace, and the brace. -/
def statements (closing : Expectation) : Reader (List Stmt × Token) := do
  if ← check tokens (.mark .rightBrace) <||> isAtEnd tokens then
    let close ← expect tokens (.mark .rightBrace) closing
    return ([], close)
  else
    let first ← call .statement
    let (more, close) ← call (.statements closing)
    return (first :: more, close)

/-! ### Programs -/

/-- Reads a function. -/
def function : Reader Stmt := do
  let keyword ← advance tokens
  let type ← scalarType tokens
  let name ← expect tokens .identifier .functionName
  let _ ← expect tokens (.mark .leftParen) .openParameters
  let (parameters, closing) ← parameters tokens call
  let head : Declarator := ⟨name.text, type, name.span.to closing.span⟩
  let _ ← expect tokens (.mark .leftBrace) .openBody
  let (body, close) ← call (.statements .closeBody)
  return .function (keyword.span.to close.span) head parameters body

/-- Reads a top-level statement. -/
def declaration : Reader Stmt := do
  if ← check tokens (.keyword .fun_) then
    function tokens call
  else
    call .statement

/-- Reads top-level statements up to the end of the file. -/
def declarations : Reader (List Stmt) := do
  if ← isAtEnd tokens then
    return []
  else
    let head ← declaration tokens call
    let more ← call .declarations
    return head :: more

/-! ### Sessions -/

/-- The reader for a call. -/
def body : {α : Type} → Call α → Reader α
  | _, .binary levels => binary call levels
  | _, .chain level tighter left => chain tokens call level tighter left
  | _, .unary => unary tokens call
  | _, .argumentsFrom => argumentsFrom tokens call
  | _, .parametersFrom => parametersFrom tokens call
  | _, .statement => statement tokens call
  | _, .statements closing => statements tokens call closing
  | _, .declarations => declarations tokens call

/-- Makes a call, with calls nested up to `depth` deep. -/
def perform : Nat → {α : Type} → Call α → Reader α
  | 0, _, _ => OptionT.lift (StateT.lift (ExceptT.lift none))
  | depth + 1, _, c => body tokens (perform depth) c

/-- Reads a program from the first token on, whatever was read before; there is none if the reader
gives up. -/
def parse (depth : Nat) : Session (List Stmt) := do
  set ({} : State)
  if tokens.back?.map Token.kind = some .endOfFile then
    return (← (perform tokens depth .declarations).run).getD []
  else
    record ⟨{}, .noEnd⟩
    return []

end ScalarMips.Cursor
