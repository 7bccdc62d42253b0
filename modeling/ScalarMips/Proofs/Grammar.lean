import ScalarMips.Numeral
import ScalarMips.Token.Basic
import ScalarMips.Tree.Basic

/-!
# The grammar

Which lists of tokens are programs, and of which trees, said without a reader. Every nonterminal is
a relation between the tokens it stands for and the tree they are read as, with one rule for every
alternative. A rule names each of its tokens exactly once, and the tokens of the whole are those of
the parts one after the other.

```
program     := declaration* EOF
declaration := funDecl | statement
funDecl     := "fun" type IDENT "(" [ type IDENT ("," type IDENT)* ] ")" "{" statement* "}"
varDecl     := type IDENT [ "=" expr ] ";"
statement   := varDecl | block | ifStmt | whileStmt | returnStmt | printStmt
             | IDENT "=" expr ";" | expr ";"
block       := "{" statement* "}"
ifStmt      := "if" "(" expr ")" statement [ "else" statement ]
whileStmt   := "while" "(" expr ")" statement
returnStmt  := "return" expr ";"
printStmt   := ("print" expr | "printsp" [expr] | "println" [expr]) ";"
type        := "int" | "bool"
expr        := or ;  or := and ("||" and)* ; and := equality ("&&" equality)*
equality    := comparison (("==" | "!=") comparison)*
comparison  := term (("<" | "<=" | ">" | ">=") term)*
term        := factor (("+" | "-") factor)* ; factor := unary (("*" | "/" | "%") unary)*
unary       := ("!" | "-" | "+") unary | primary
primary     := NUMBER | "true" | "false" | IDENT | IDENT "(" [expr ("," expr)*] ")" | "(" expr ")"
```

The grammar leaves open to which `if` an `else` belongs. The rules are therefore stated for a
condition on what may stand before an `else`. Without a condition they are the grammar as it stands
above (`Anything`); if no statement may stand there that could itself go on with an `else`, then
every `else` belongs to the nearest `if` (`Closed`). Both derive the same lists of tokens
(`Program.nearest`), but only the second one settles the tree.
-/

namespace ScalarMips.Grammar

/-! ### Expressions -/

/-- The nonterminals for expressions, the loosest operators first. -/
inductive Tier where
  | or
  | and
  | equality
  | comparison
  | term
  | factor
  | unary
  | primary
  deriving DecidableEq

/-- The nonterminal for the operands. -/
def Tier.tighter? : Tier → Option Tier
  | or => some and
  | and => some equality
  | equality => some comparison
  | comparison => some term
  | term => some factor
  | factor => some unary
  | unary => some primary
  | primary => none

/-- The operator that a mark stands for between two operands, and the nonterminal it belongs to. -/
def binary? : Mark → Option (Tier × Operator)
  | .pipePipe => some (.or, .or)
  | .ampAmp => some (.and, .and)
  | .equalsEquals => some (.equality, .equal)
  | .bangEquals => some (.equality, .notEqual)
  | .less => some (.comparison, .less)
  | .lessEquals => some (.comparison, .lessEqual)
  | .greater => some (.comparison, .greater)
  | .greaterEquals => some (.comparison, .greaterEqual)
  | .plus => some (.term, .plus)
  | .minus => some (.term, .minus)
  | .star => some (.factor, .times)
  | .slash => some (.factor, .divide)
  | .percent => some (.factor, .modulo)
  | _ => none

/-- The operator that a mark stands for before its only operand. -/
def unary? : Mark → Option Operator
  | .bang => some .not
  | .minus => some .minus
  | .plus => some .plus
  | _ => none

/-- A token is written with decimal digits that stand for a word. -/
structure IsNumeral (token : Token) : Prop where
  /-- There are digits. -/
  nonempty : token.text.toList ≠ []
  /-- There is nothing else. -/
  digits : ∀ c ∈ token.text.toList, c.isDigit
  /-- The number fits. -/
  fits : Numeral.value token.text.toList ≤ 2147483647

mutual

/-- The tokens of an expression. An operator between two operands groups to the left, one before its
operand to the right, and parentheses leave nothing in the tree but their span. -/
inductive Expression : Tier → List Token → Expr → Prop where
  /-- A single operand. -/
  | operand {tier tighter : Tier} {ts : List Token} {e : Expr} :
    tier.tighter? = some tighter → Expression tighter ts e → Expression tier ts e
  /-- One more operand. -/
  | binary {tier tighter : Tier} {first second : List Token} {left right : Expr} {token : Token}
    {mark : Mark} {op : Operator} :
    tier.tighter? = some tighter → Expression tier first left → token.kind = .mark mark →
    binary? mark = some (tier, op) → Expression tighter second right →
      Expression tier (first ++ token :: second)
        (.binary (left.span.to right.span) op left right)
  /-- An operator before its operand. -/
  | unary {ts : List Token} {e : Expr} {token : Token} {mark : Mark} {op : Operator} :
    token.kind = .mark mark → unary? mark = some op → Expression .unary ts e →
      Expression .unary (token :: ts) (.unary (token.span.to e.span) op e)
  /-- A number. -/
  | number {token : Token} : token.kind = .integerLiteral → IsNumeral token →
      Expression .primary [token] (.literal token.span
        { type := .int, number := Int32.ofInt (Numeral.value token.text.toList) })
  /-- The literal `true`. -/
  | truth {token : Token} : token.kind = .keyword .true_ →
      Expression .primary [token] (.literal token.span { type := .bool, truth := true })
  /-- The literal `false`. -/
  | falsity {token : Token} : token.kind = .keyword .false_ →
      Expression .primary [token] (.literal token.span { type := .bool, truth := false })
  /-- A variable. -/
  | name {token : Token} : token.kind = .identifier →
      Expression .primary [token] (.var token.span token.text)
  /-- A call without arguments. -/
  | plainCall {name opening closing : Token} :
    name.kind = .identifier → opening.kind = .mark .leftParen → closing.kind = .mark .rightParen →
      Expression .primary [name, opening, closing] (.call (name.span.to closing.span) name.text [])
  /-- A call with arguments. -/
  | call {name opening closing : Token} {ts : List Token} {es : List Expr} :
    name.kind = .identifier → opening.kind = .mark .leftParen → Arguments ts es →
    closing.kind = .mark .rightParen →
      Expression .primary (name :: opening :: (ts ++ [closing]))
        (.call (name.span.to closing.span) name.text es)
  /-- An expression in parentheses. -/
  | group {opening closing : Token} {ts : List Token} {e : Expr} :
    opening.kind = .mark .leftParen → Expression .or ts e → closing.kind = .mark .rightParen →
      Expression .primary (opening :: (ts ++ [closing]))
        (e.withSpan (opening.span.to closing.span))

/-- The tokens of arguments. -/
inductive Arguments : List Token → List Expr → Prop where
  /-- The last argument. -/
  | last {ts : List Token} {e : Expr} : Expression .or ts e → Arguments ts [e]
  /-- An argument before others. -/
  | more {first second : List Token} {e : Expr} {es : List Expr} {comma : Token} :
    Expression .or first e → comma.kind = .mark .comma → Arguments second es →
      Arguments (first ++ comma :: second) (e :: es)

end

/-! ### Declarations -/

/-- The type that a keyword names. -/
def type? : Keyword → Option ScalarType
  | .int => some .int
  | .bool => some .bool
  | _ => none

/-- The tokens of a type and a name. -/
inductive Declares : List Token → Declarator → Prop where
  | mk {keyword : Keyword} {type : ScalarType} {first name : Token} :
    first.kind = .keyword keyword → type? keyword = some type → name.kind = .identifier →
      Declares [first, name] ⟨name.text, type, name.span⟩

/-- The tokens of parameters. -/
inductive Parameters : List Token → List Declarator → Prop where
  /-- The last parameter. -/
  | last {ts : List Token} {d : Declarator} : Declares ts d → Parameters ts [d]
  /-- A parameter before others. -/
  | more {first second : List Token} {d : Declarator} {ds : List Declarator} {comma : Token} :
    Declares first d → comma.kind = .mark .comma → Parameters second ds →
      Parameters (first ++ comma :: second) (d :: ds)

/-- The tokens of a list that can be missing. -/
def Optional {α : Type} (derived : List Token → List α → Prop) (ts : List Token) (xs : List α) :
    Prop :=
  ts = [] ∧ xs = [] ∨ derived ts xs

/-! ### Statements -/

/-- A statement that could go on with an `else`: it ends with a conditional statement that has
none. -/
def EndsOpen : Stmt → Bool
  | .conditional _ _ _ none => true
  | .conditional _ _ _ (some elseBranch) => EndsOpen elseBranch
  | .loop _ _ body => EndsOpen body
  | .block .. => false
  | .function .. => false
  | .var .. => false
  | .assign .. => false
  | .evaluate .. => false
  | .return_ .. => false
  | .print .. => false
termination_by structural stmt => stmt

/-- Anything can stand before an `else`. -/
def Anything (_ : Stmt) : Prop := True

/-- Only what could not go on with an `else` itself can stand before one. -/
def Closed (s : Stmt) : Prop := EndsOpen s = false

/-- The tokens of a condition, an expression in parentheses. -/
inductive Condition : List Token → Expr → Prop where
  | mk {opening closing : Token} {ts : List Token} {e : Expr} :
    opening.kind = .mark .leftParen → Expression .or ts e → closing.kind = .mark .rightParen →
      Condition (opening :: (ts ++ [closing])) e

/-- What a print statement writes after its value, by its keyword. -/
def printEnd? : Keyword → Option PrintEnd
  | .print => some .nothing
  | .printsp => some .space
  | .println => some .newline
  | _ => none

variable (before : Stmt → Prop)

mutual

/-- The tokens of a statement, if `before` says what may stand before an `else`. -/
inductive Statement : List Token → Stmt → Prop where
  /-- A variable declaration. -/
  | var {first closing : Token} {ts : List Token} {head : Declarator} :
    Declares (first :: ts) head → closing.kind = .mark .semicolon →
      Statement (first :: (ts ++ [closing])) (.var (first.span.to closing.span) head none)
  /-- A variable declaration with an initial value. -/
  | initialized {first equals closing : Token} {ts value : List Token} {head : Declarator}
    {e : Expr} :
    Declares (first :: ts) head → equals.kind = .mark .equals → Expression .or value e →
    closing.kind = .mark .semicolon →
      Statement (first :: (ts ++ equals :: (value ++ [closing])))
        (.var (first.span.to closing.span) head (some e))
  /-- A block. -/
  | block {opening closing : Token} {ts : List Token} {body : List Stmt} :
    opening.kind = .mark .leftBrace → Statements ts body → closing.kind = .mark .rightBrace →
      Statement (opening :: (ts ++ [closing])) (.block (opening.span.to closing.span) body)
  /-- A conditional statement with one branch. -/
  | ifThen {keyword : Token} {test ts : List Token} {e : Expr} {s : Stmt} :
    keyword.kind = .keyword .if_ → Condition test e → Statement ts s →
      Statement (keyword :: (test ++ ts)) (.conditional (keyword.span.to s.span) e s none)
  /-- A conditional statement with two branches. -/
  | ifElse {keyword otherwise : Token} {test first second : List Token} {e : Expr} {s s' : Stmt} :
    keyword.kind = .keyword .if_ → Condition test e → Statement first s → before s →
    otherwise.kind = .keyword .else_ → Statement second s' →
      Statement (keyword :: (test ++ (first ++ otherwise :: second)))
        (.conditional (keyword.span.to s'.span) e s (some s'))
  /-- A loop. -/
  | loop {keyword : Token} {test ts : List Token} {e : Expr} {s : Stmt} :
    keyword.kind = .keyword .while_ → Condition test e → Statement ts s →
      Statement (keyword :: (test ++ ts)) (.loop (keyword.span.to s.span) e s)
  /-- A return from a function. -/
  | return_ {keyword closing : Token} {ts : List Token} {e : Expr} :
    keyword.kind = .keyword .return_ → Expression .or ts e → closing.kind = .mark .semicolon →
      Statement (keyword :: (ts ++ [closing])) (.return_ (keyword.span.to closing.span) e)
  /-- A value is printed. -/
  | print {keyword closing : Token} {word : Keyword} {ending : PrintEnd} {ts : List Token}
    {e : Expr} :
    keyword.kind = .keyword word → printEnd? word = some ending → Expression .or ts e →
    closing.kind = .mark .semicolon →
      Statement (keyword :: (ts ++ [closing]))
        (.print (keyword.span.to closing.span) ending (some e))
  /-- A separator is printed. -/
  | separator {keyword closing : Token} {word : Keyword} {ending : PrintEnd} :
    keyword.kind = .keyword word → printEnd? word = some ending → ending ≠ .nothing →
    closing.kind = .mark .semicolon →
      Statement [keyword, closing] (.print (keyword.span.to closing.span) ending none)
  /-- An assignment. -/
  | assign {name equals closing : Token} {ts : List Token} {e : Expr} :
    name.kind = .identifier → equals.kind = .mark .equals → Expression .or ts e →
    closing.kind = .mark .semicolon →
      Statement (name :: equals :: (ts ++ [closing]))
        (.assign (name.span.to closing.span) name.text name.span e)
  /-- An expression. -/
  | evaluate {ts : List Token} {closing : Token} {e : Expr} :
    Expression .or ts e → closing.kind = .mark .semicolon →
      Statement (ts ++ [closing]) (.evaluate (e.span.to closing.span) e)

/-- The tokens of statements. -/
inductive Statements : List Token → List Stmt → Prop where
  | nil : Statements [] []
  | cons {first second : List Token} {s : Stmt} {ss : List Stmt} :
    Statement first s → Statements second ss → Statements (first ++ second) (s :: ss)

end

/-! ### Programs -/

/-- The tokens of what stands at the top level. -/
inductive Declaration : List Token → Stmt → Prop where
  /-- A function. -/
  | function {keyword first name opening closing brace last : Token} {word : Keyword}
    {type : ScalarType} {ts body : List Token} {ds : List Declarator} {ss : List Stmt} :
    keyword.kind = .keyword .fun_ → first.kind = .keyword word → type? word = some type →
    name.kind = .identifier → opening.kind = .mark .leftParen →
    Optional Parameters ts ds → closing.kind = .mark .rightParen →
    brace.kind = .mark .leftBrace → Statements before body ss → last.kind = .mark .rightBrace →
      Declaration (keyword :: first :: name :: opening ::
          (ts ++ closing :: brace :: (body ++ [last])))
        (.function (keyword.span.to last.span)
          ⟨name.text, type, name.span.to closing.span⟩ ds ss)
  /-- A statement. -/
  | statement {ts : List Token} {s : Stmt} : Statement before ts s → Declaration ts s

/-- The tokens of declarations. -/
inductive Declarations : List Token → List Stmt → Prop where
  | nil : Declarations [] []
  | cons {first second : List Token} {s : Stmt} {ss : List Stmt} :
    Declaration before first s → Declarations second ss → Declarations (first ++ second) (s :: ss)

/-- The tokens of a program, of which the last one is the end of the file. -/
inductive Program : List Token → List Stmt → Prop where
  | mk {ts : List Token} {last : Token} {ss : List Stmt} :
    Declarations before ts ss → last.kind = .endOfFile → Program (ts ++ [last]) ss

/-! ### The nearest conditional statement -/

variable {before}

/-- An `else` behind a statement that could go on with one goes to its last conditional
statement. -/
theorem Statement.attach {otherwise : Token} {second : List Token} {s' : Stmt}
    (hkind : otherwise.kind = .keyword .else_) (hsecond : Statement Closed second s') :
    ∀ {ts : List Token} {s : Stmt}, Statement Closed ts s → EndsOpen s = true →
      ∃ s'', Statement Closed (ts ++ otherwise :: second) s''
  | _, _, .ifThen (s := s) hkeyword htest hbranch, _ => by
    simp only [List.cons_append, List.append_assoc]
    cases hopen : EndsOpen s with
    | false => exact ⟨_, .ifElse hkeyword htest hbranch hopen hkind hsecond⟩
    | true =>
      obtain ⟨s'', hwhole⟩ := Statement.attach hkind hsecond hbranch hopen
      exact ⟨_, .ifThen hkeyword htest hwhole⟩
  | _, _, .ifElse hkeyword htest hthen hclosed helse hbranch, hopen => by
    obtain ⟨s'', hwhole⟩ := Statement.attach hkind hsecond hbranch hopen
    simp only [List.cons_append, List.append_assoc]
    exact ⟨_, .ifElse hkeyword htest hthen hclosed helse hwhole⟩
  | _, _, .loop hkeyword htest hbody, hopen => by
    obtain ⟨s'', hwhole⟩ := Statement.attach hkind hsecond hbody hopen
    simp only [List.cons_append, List.append_assoc]
    exact ⟨_, .loop hkeyword htest hwhole⟩
  | _, _, .var .., hopen => nomatch hopen
  | _, _, .initialized .., hopen => nomatch hopen
  | _, _, .block .., hopen => nomatch hopen
  | _, _, .return_ .., hopen => nomatch hopen
  | _, _, .print .., hopen => nomatch hopen
  | _, _, .separator .., hopen => nomatch hopen
  | _, _, .assign .., hopen => nomatch hopen
  | _, _, .evaluate .., hopen => nomatch hopen

mutual

/-- The tokens of a statement are also those of one in which every `else` belongs to the nearest
`if`. -/
theorem Statement.nearest : ∀ {ts : List Token} {s : Stmt}, Statement before ts s →
    ∃ s', Statement Closed ts s'
  | _, _, .ifElse hkeyword htest hthen _ helse hbranch => by
    obtain ⟨s, hthen⟩ := hthen.nearest
    obtain ⟨s', hbranch⟩ := hbranch.nearest
    cases hopen : EndsOpen s with
    | false => exact ⟨_, .ifElse hkeyword htest hthen hopen helse hbranch⟩
    | true =>
      -- The `else` was too far out: it goes into the first branch, and none is left outside.
      obtain ⟨s'', hwhole⟩ := Statement.attach helse hbranch hthen hopen
      exact ⟨_, .ifThen hkeyword htest hwhole⟩
  | _, _, .ifThen hkeyword htest hbranch => by
    obtain ⟨s, hbranch⟩ := hbranch.nearest
    exact ⟨_, .ifThen hkeyword htest hbranch⟩
  | _, _, .loop hkeyword htest hbody => by
    obtain ⟨s, hbody⟩ := hbody.nearest
    exact ⟨_, .loop hkeyword htest hbody⟩
  | _, _, .block hopening hbody hclosing => by
    obtain ⟨ss, hbody⟩ := hbody.nearest
    exact ⟨_, .block hopening hbody hclosing⟩
  | _, _, .var hhead hclosing => ⟨_, .var hhead hclosing⟩
  | _, _, .initialized hhead hequals he hclosing => ⟨_, .initialized hhead hequals he hclosing⟩
  | _, _, .return_ hkeyword he hclosing => ⟨_, .return_ hkeyword he hclosing⟩
  | _, _, .print hkeyword hword he hclosing => ⟨_, .print hkeyword hword he hclosing⟩
  | _, _, .separator hkeyword hword hne hclosing => ⟨_, .separator hkeyword hword hne hclosing⟩
  | _, _, .assign hname hequals he hclosing => ⟨_, .assign hname hequals he hclosing⟩
  | _, _, .evaluate he hclosing => ⟨_, .evaluate he hclosing⟩

theorem Statements.nearest : ∀ {ts : List Token} {ss : List Stmt}, Statements before ts ss →
    ∃ ss', Statements Closed ts ss'
  | _, _, .nil => ⟨_, .nil⟩
  | _, _, .cons hfirst hrest => by
    obtain ⟨s, hfirst⟩ := hfirst.nearest
    obtain ⟨ss, hrest⟩ := hrest.nearest
    exact ⟨_, .cons hfirst hrest⟩

end

theorem Declaration.nearest {ts : List Token} {s : Stmt} (h : Declaration before ts s) :
    ∃ s', Declaration Closed ts s' := by
  cases h with
  | function hkeyword hfirst htype hname hopening hparameters hclosing hbrace hbody hlast =>
    obtain ⟨ss, hbody⟩ := hbody.nearest
    exact ⟨_, .function hkeyword hfirst htype hname hopening hparameters hclosing hbrace hbody
      hlast⟩
  | statement h =>
    obtain ⟨s', h⟩ := h.nearest
    exact ⟨s', .statement h⟩

theorem Declarations.nearest {ts : List Token} {ss : List Stmt} (h : Declarations before ts ss) :
    ∃ ss', Declarations Closed ts ss' := by
  induction h with
  | nil => exact ⟨_, .nil⟩
  | cons hfirst _ ih =>
    obtain ⟨s, hfirst⟩ := hfirst.nearest
    obtain ⟨ss, hrest⟩ := ih
    exact ⟨_, .cons hfirst hrest⟩

/-- What is a program at all is one in which every `else` belongs to the nearest `if`. -/
theorem Program.nearest {ts : List Token} {ss : List Stmt} (h : Program before ts ss) :
    ∃ ss', Program Closed ts ss' := by
  cases h with
  | mk h hlast =>
    obtain ⟨ss', h⟩ := h.nearest
    exact ⟨ss', .mk h hlast⟩

mutual

theorem Statement.anything : ∀ {ts : List Token} {s : Stmt}, Statement before ts s →
    Statement Anything ts s
  | _, _, .ifElse hkeyword htest hthen _ helse hbranch =>
    .ifElse hkeyword htest hthen.anything trivial helse hbranch.anything
  | _, _, .ifThen hkeyword htest hbranch =>
    .ifThen hkeyword htest hbranch.anything
  | _, _, .loop hkeyword htest hbody =>
    .loop hkeyword htest hbody.anything
  | _, _, .block hopening hbody hclosing => .block hopening hbody.anything hclosing
  | _, _, .var hhead hclosing => .var hhead hclosing
  | _, _, .initialized hhead hequals he hclosing => .initialized hhead hequals he hclosing
  | _, _, .return_ hkeyword he hclosing => .return_ hkeyword he hclosing
  | _, _, .print hkeyword hword he hclosing => .print hkeyword hword he hclosing
  | _, _, .separator hkeyword hword hne hclosing => .separator hkeyword hword hne hclosing
  | _, _, .assign hname hequals he hclosing => .assign hname hequals he hclosing
  | _, _, .evaluate he hclosing => .evaluate he hclosing

theorem Statements.anything : ∀ {ts : List Token} {ss : List Stmt}, Statements before ts ss →
    Statements Anything ts ss
  | _, _, .nil => .nil
  | _, _, .cons hfirst hrest => .cons hfirst.anything hrest.anything

end

theorem Declaration.anything {ts : List Token} {s : Stmt} (h : Declaration before ts s) :
    Declaration Anything ts s := by
  cases h with
  | function hkeyword hfirst htype hname hopening hparameters hclosing hbrace hbody hlast =>
    exact .function hkeyword hfirst htype hname hopening hparameters hclosing hbrace
      hbody.anything hlast
  | statement h => exact .statement h.anything

theorem Declarations.anything {ts : List Token} {ss : List Stmt} (h : Declarations before ts ss) :
    Declarations Anything ts ss := by
  induction h with
  | nil => exact .nil
  | cons hfirst _ ih => exact .cons hfirst.anything ih

theorem Program.anything {ts : List Token} {ss : List Stmt} (h : Program before ts ss) :
    Program Anything ts ss := by
  cases h with
  | mk h hlast => exact .mk h.anything hlast

end ScalarMips.Grammar
