import Mathlib
import ScalarMips.Token.Lexer
import ScalarMips.Proofs.Readers

/-!
# Trees that parsing yields

Trees are wider than the grammar. What the grammar adds is said here by one predicate on every kind
of tree: literals and declarations have the type of a value, an operator stands only where it has a
meaning, and functions stand only at the top level.

`parse_grammatical` is the statement the other modules use. It rests on nothing but the shape of the
readers: the inductions have a case for each of their branches, and each case opens one reading
(`bind_eq_ok`).
-/

namespace ScalarMips

/-! ### The functions of a program -/

/-- A function of a program. -/
structure FunctionDecl where
  /-- Its name and the type it returns. -/
  head : Declarator
  /-- Its parameters. -/
  parameters : List Declarator
  /-- Its body. -/
  body : List Stmt

/-- The function that a statement declares. -/
def Stmt.function? : Stmt → Option FunctionDecl
  | .function _ head parameters body => some ⟨head, parameters, body⟩
  | _ => none

/-- The functions of a program in the order of the text. -/
def functionDecls (program : List Stmt) : List FunctionDecl :=
  program.filterMap Stmt.function?

/-- The names of the functions of a program. -/
def functionNames (program : List Stmt) : List String :=
  (functionDecls program).map fun f ↦ f.head.name

/-- Whether a statement declares a function or a variable. -/
def Stmt.IsDeclaration : Stmt → Prop
  | .function .. => True
  | .var .. => True
  | _ => False

/-! ### The predicates -/

/-- The operators that can stand before their only operand. -/
def Operator.IsUnary (op : Operator) : Prop :=
  op = .plus ∨ op = .minus ∨ op = .not

instance (op : Operator) : Decidable op.IsUnary :=
  inferInstanceAs (Decidable (_ ∨ _))

mutual

/-- An expression of the grammar. -/
def Expr.Grammatical : Expr → Prop
  | .literal _ value => value.type.isConcrete
  | .var _ _ => True
  | .unary _ op operand => op.IsUnary ∧ operand.Grammatical
  | .binary _ op left right => op ≠ .not ∧ left.Grammatical ∧ right.Grammatical
  | .call _ _ arguments => Expr.AllGrammatical arguments

/-- Expressions of the grammar. -/
def Expr.AllGrammatical : List Expr → Prop
  | [] => True
  | e :: es => e.Grammatical ∧ Expr.AllGrammatical es

end

/-- An expression of the grammar, if there is one. -/
def Expr.OptionGrammatical : Option Expr → Prop
  | none => True
  | some e => e.Grammatical

mutual

/-- A statement of the grammar inside a function. -/
def Stmt.Grammatical : Stmt → Prop
  | .block _ body => Stmt.AllGrammatical body
  | .function .. => False
  | .var _ head initial => head.type.isConcrete ∧ Expr.OptionGrammatical initial
  | .assign _ _ _ value => value.Grammatical
  | .conditional _ condition thenBranch none => condition.Grammatical ∧ thenBranch.Grammatical
  | .conditional _ condition thenBranch (some elseBranch) =>
    condition.Grammatical ∧ thenBranch.Grammatical ∧ elseBranch.Grammatical
  | .loop _ condition body => condition.Grammatical ∧ body.Grammatical
  | .evaluate _ value => value.Grammatical
  | .return_ _ value => value.Grammatical
  | .print _ _ value => Expr.OptionGrammatical value
termination_by structural stmt => stmt

/-- Statements of the grammar inside a function. -/
def Stmt.AllGrammatical : List Stmt → Prop
  | [] => True
  | stmt :: stmts => stmt.Grammatical ∧ Stmt.AllGrammatical stmts
termination_by structural stmts => stmts

end

/-- A statement of the grammar at the top level. -/
def Stmt.TopGrammatical : Stmt → Prop
  | .function _ head parameters body =>
    head.type.isConcrete ∧ (∀ p ∈ parameters, p.type.isConcrete) ∧ Stmt.AllGrammatical body
  | stmt => stmt.Grammatical

theorem Stmt.TopGrammatical.of_grammatical {stmt : Stmt} (h : stmt.Grammatical) :
    stmt.TopGrammatical := by
  cases stmt with
  | function => exact h.elim
  | _ => exact h

mutual

/-- A statement with no function in it. -/
def Stmt.Plain : Stmt → Prop
  | .block _ body => Stmt.AllPlain body
  | .function .. => False
  | .conditional _ _ thenBranch none => thenBranch.Plain
  | .conditional _ _ thenBranch (some elseBranch) => thenBranch.Plain ∧ elseBranch.Plain
  | .loop _ _ body => body.Plain
  | .var .. => True
  | .assign .. => True
  | .evaluate .. => True
  | .return_ .. => True
  | .print .. => True
termination_by structural stmt => stmt

/-- Statements with no function in them. -/
def Stmt.AllPlain : List Stmt → Prop
  | [] => True
  | stmt :: stmts => stmt.Plain ∧ Stmt.AllPlain stmts
termination_by structural stmts => stmts

end

/-- A statement of the top level with no function inside a function or another statement. -/
def Stmt.Unnested : Stmt → Prop
  | .function _ _ _ body => Stmt.AllPlain body
  | stmt => stmt.Plain

/-- All functions of a program stand at its top level. -/
def Unnested (program : List Stmt) : Prop :=
  ∀ stmt ∈ program, stmt.Unnested

mutual

theorem Stmt.Grammatical.plain : ∀ {stmt : Stmt}, stmt.Grammatical → stmt.Plain
  | .block .., h => Stmt.AllGrammatical.allPlain h
  | .function .., h => h
  | .conditional _ _ _ none, h => h.2.plain
  | .conditional _ _ _ (some _), h => ⟨h.2.1.plain, h.2.2.plain⟩
  | .loop .., h => h.2.plain
  | .var .., _ => trivial
  | .assign .., _ => trivial
  | .evaluate .., _ => trivial
  | .return_ .., _ => trivial
  | .print .., _ => trivial

theorem Stmt.AllGrammatical.allPlain : ∀ {stmts : List Stmt}, Stmt.AllGrammatical stmts →
    Stmt.AllPlain stmts
  | [], _ => trivial
  | _ :: _, h => ⟨h.1.plain, Stmt.AllGrammatical.allPlain h.2⟩

end

theorem Expr.Grammatical.withSpan {e : Expr} (h : e.Grammatical) (s : Span) :
    (e.withSpan s).Grammatical := by
  cases e <;> exact h

namespace Parser

/-! ### Operators -/

/-- The operator that a level reads is one of the level. -/
theorem Level.exists_mem_of_accept? {level : Level} {input : List Token}
    {op : Parsed (Operator × Token) input} (h : level.accept? input = some op) :
    ∃ mark, (mark, op.value.1) ∈ level := by
  cases input with
  | nil => cases h
  | cons token rest =>
    obtain ⟨o, ho, rfl⟩ := Option.map_eq_some_iff.1 h
    unfold Level.operator? at ho
    split at ho
    · rename_i mark _
      obtain ⟨before, after, hlevel, -⟩ := List.lookup_eq_some_iff.1 ho
      refine ⟨mark, ?_⟩
      rw [hlevel]
      exact List.mem_append_right _ List.mem_cons_self
    · cases ho

theorem Level.isUnary_of_accept? {input : List Token} {op : Parsed (Operator × Token) input}
    (h : Level.unary.accept? input = some op) : op.value.1.IsUnary := by
  obtain ⟨mark, hmem⟩ := exists_mem_of_accept? h
  have hunary : ∀ entry ∈ Level.unary, entry.2.IsUnary := by decide
  exact hunary _ hmem

theorem Level.ne_not_of_accept? {level : Level} (hlevel : level ∈ Level.all) {input : List Token}
    {op : Parsed (Operator × Token) input} (h : level.accept? input = some op) :
    op.value.1 ≠ .not := by
  obtain ⟨mark, hmem⟩ := exists_mem_of_accept? h
  have hall : ∀ level ∈ Level.all, ∀ entry ∈ level, entry.2 ≠ .not := by decide
  exact hall level hlevel _ hmem

/-! ### Expressions -/

/-- All readers of expressions yield expressions of the grammar. -/
theorem expr_grammatical : ExprReaders
    (fun levels _ r ↦ levels ⊆ Level.all → ∀ p, r = .ok p → p.value.Grammatical)
    (fun level tighter _ left r ↦ level ∈ Level.all → tighter ⊆ Level.all →
      left.value.Grammatical → ∀ p, r = .ok p → p.value.Grammatical)
    (fun _ r ↦ ∀ p, r = .ok p → p.value.Grammatical)
    (fun _ r ↦ ∀ p, r = .ok p → p.value.Grammatical)
    (fun _ r ↦ ∀ p, r = .ok p → Expr.AllGrammatical p.value.1)
    (fun _ r ↦ ∀ p, r = .ok p → Expr.AllGrammatical p.value.1) := by
  apply ExprReaders.of_branches
  case operand =>
    intro input ih _
    exact ih
  case level =>
    intro level tighter input ihBinary ihChain hlevels p h
    obtain ⟨hlevel, htighter⟩ := List.cons_subset.1 hlevels
    obtain ⟨left, hleft, h⟩ := bind_eq_ok.1 h
    exact ihChain left hlevel htighter (ihBinary htighter left hleft) p h
  case stop =>
    intro level tighter input left _ _ _ hleft p h
    cases h
    exact hleft
  case operator =>
    intro level tighter input left op hop ihBinary ihChain hlevel htighter hleft p h
    obtain ⟨right, hright, h⟩ := bind_eq_ok.1 h
    refine ihChain right hlevel htighter ?_ p h
    exact ⟨Level.ne_not_of_accept? hlevel hop, hleft, ihBinary htighter right hright⟩
  case sign =>
    intro input op hop ih p h
    obtain ⟨operand, hoperand, h⟩ := bind_eq_ok.1 h
    cases h
    exact ⟨Level.isUnary_of_accept? hop, ih operand hoperand⟩
  case unsigned =>
    intro input _ ih
    exact ih
  case nil =>
    intro p h
    cases h
  case number =>
    intro token rest number _ _ p h
    cases h
    rfl
  case overflow =>
    intro token rest _ _ p h
    cases h
  case truth | falsity =>
    intro token rest _ p h
    cases h
    rfl
  case name =>
    intro token rest _ _ p h
    cases h
    trivial
  case call =>
    intro token rest opening _ _ ih p h
    obtain ⟨arguments, harguments, h⟩ := bind_eq_ok.1 h
    cases h
    exact ih arguments harguments
  case group =>
    intro token rest _ ih p h
    obtain ⟨inner, hinner, h⟩ := bind_eq_ok.1 h
    obtain ⟨close, -, h⟩ := bind_eq_ok.1 h
    cases h
    exact (ih (List.Subset.refl _) inner hinner).withSpan _
  case other =>
    intro token rest _ p h
    cases h
  case noArguments =>
    intro input close _ p h
    cases h
    trivial
  case someArguments =>
    intro input _ ih
    exact ih
  case argument =>
    intro input ihFirst ihMore p h
    obtain ⟨argument, hargument, h⟩ := bind_eq_ok.1 h
    have hfirst := ihFirst (List.Subset.refl _) argument hargument
    split at h
    · obtain ⟨more, hmore, h⟩ := bind_eq_ok.1 h
      cases h
      exact ⟨hfirst, ihMore argument _ more hmore⟩
    · obtain ⟨close, -, h⟩ := bind_eq_ok.1 h
      cases h
      exact ⟨hfirst, trivial⟩

theorem expression_grammatical {input : List Token} {p : Parsed Expr input}
    (h : expression input = .ok p) : p.value.Grammatical :=
  expr_grammatical.binary _ _ (List.Subset.refl _) p h

theorem terminated_grammatical {closed : Terminated} {input : List Token}
    {p : Parsed (Expr × Token) input} (h : terminated closed input = .ok p) :
    p.value.1.Grammatical := by
  obtain ⟨value, hvalue, h⟩ := bind_eq_ok.1 h
  obtain ⟨close, -, h⟩ := bind_eq_ok.1 h
  cases h
  exact expression_grammatical hvalue

theorem condition_grammatical {keyword : Keyword} {input : List Token} {p : Parsed Expr input}
    (h : condition keyword input = .ok p) : p.value.Grammatical := by
  obtain ⟨opening, -, h⟩ := bind_eq_ok.1 h
  obtain ⟨value, hvalue, h⟩ := bind_eq_ok.1 h
  obtain ⟨closing, -, h⟩ := bind_eq_ok.1 h
  cases h
  show value.value.Grammatical
  exact expression_grammatical hvalue

/-! ### Declarations -/

theorem scalarType_isConcrete {input : List Token} {p : Parsed ScalarType input}
    (h : scalarType input = .ok p) : p.value.isConcrete := by
  cases input with
  | nil => cases h
  | cons token rest =>
    simp only [scalarType] at h
    split at h <;> cases h <;> rfl

theorem declarator_isConcrete {wanted : Expectation} {input : List Token}
    {p : Parsed Declarator input} (h : declarator wanted input = .ok p) :
    p.value.type.isConcrete := by
  obtain ⟨type, htype, h⟩ := bind_eq_ok.1 h
  obtain ⟨name, -, h⟩ := bind_eq_ok.1 h
  cases h
  exact scalarType_isConcrete htype

theorem parametersFrom_isConcrete (input : List Token) :
    ∀ p, parametersFrom input = .ok p → ∀ d ∈ p.value.1, d.type.isConcrete := by
  induction input using parametersFrom.induct with
  | case1 input ih =>
    intro p h
    rw [parametersFrom] at h
    obtain ⟨parameter, hparameter, h⟩ := bind_eq_ok.1 h
    have hfirst := declarator_isConcrete hparameter
    split at h
    · obtain ⟨more, hmore, h⟩ := bind_eq_ok.1 h
      cases h
      exact List.forall_mem_cons.2 ⟨hfirst, ih parameter _ more hmore⟩
    · obtain ⟨close, -, h⟩ := bind_eq_ok.1 h
      cases h
      exact List.forall_mem_singleton.2 hfirst

theorem parameters_isConcrete {input : List Token} {p : Parsed (List Declarator × Token) input}
    (h : parameters input = .ok p) : ∀ d ∈ p.value.1, d.type.isConcrete := by
  unfold parameters at h
  split at h
  · cases h
    exact fun d hd ↦ absurd hd List.not_mem_nil
  · exact parametersFrom_isConcrete input p h

/-! ### Statements -/

theorem varDeclaration_grammatical {first : Token} {rest : List Token}
    {p : Parsed Stmt (first :: rest)} (h : varDeclaration first rest = .ok p) :
    p.value.Grammatical := by
  obtain ⟨head, hhead, h⟩ := bind_eq_ok.1 h
  have htype := declarator_isConcrete hhead
  split at h
  · obtain ⟨initial, hinitial, h⟩ := bind_eq_ok.1 h
    cases h
    exact ⟨htype, terminated_grammatical hinitial⟩
  · obtain ⟨close, -, h⟩ := bind_eq_ok.1 h
    cases h
    exact ⟨htype, trivial⟩

theorem printValue_grammatical {keyword : Token} {ending : PrintEnd} {rest : List Token}
    {p : Parsed Stmt (keyword :: rest)} (h : printValue keyword ending rest = .ok p) :
    p.value.Grammatical := by
  obtain ⟨value, hvalue, h⟩ := bind_eq_ok.1 h
  cases h
  exact terminated_grammatical hvalue

theorem printSeparator_grammatical {keyword : Token} {ending : PrintEnd} {rest : List Token}
    {p : Parsed Stmt (keyword :: rest)} (h : printSeparator keyword ending rest = .ok p) :
    p.value.Grammatical := by
  unfold printSeparator at h
  split at h
  · cases h
    trivial
  · exact printValue_grammatical h

theorem expressionStatement_grammatical {input : List Token} {p : Parsed Stmt input}
    (h : expressionStatement input = .ok p) : p.value.Grammatical := by
  obtain ⟨value, hvalue, h⟩ := bind_eq_ok.1 h
  cases h
  exact terminated_grammatical hvalue

theorem nameStatement_grammatical {name : Token} {rest : List Token}
    {p : Parsed Stmt (name :: rest)} (h : nameStatement name rest = .ok p) :
    p.value.Grammatical := by
  unfold nameStatement at h
  split at h
  · obtain ⟨value, hvalue, h⟩ := bind_eq_ok.1 h
    cases h
    exact terminated_grammatical hvalue
  · exact expressionStatement_grammatical h

/-- Both readers of statements yield statements of the grammar. -/
theorem stmt_grammatical : StmtReaders
    (fun _ r ↦ ∀ p, r = .ok p → p.value.Grammatical)
    (fun _ _ r ↦ ∀ p, r = .ok p → Stmt.AllGrammatical p.value.1) := by
  apply StmtReaders.of_branches
  case nil =>
    intro p h
    cases h
  case function =>
    intro token rest _ p h
    cases h
  case declaration =>
    intro token rest _ p h
    exact varDeclaration_grammatical h
  case block =>
    intro token rest _ ih p h
    obtain ⟨body, hbody, h⟩ := bind_eq_ok.1 h
    cases h
    exact ih body hbody
  case conditional =>
    intro token rest _ ihThen ihElse p h
    obtain ⟨test, htest, h⟩ := bind_eq_ok.1 h
    obtain ⟨thenBranch, hthen, h⟩ := bind_eq_ok.1 h
    have hcondition := condition_grammatical htest
    have hfirst := ihThen test thenBranch hthen
    unfold otherwise at h
    split at h
    · cases h
      exact ⟨hcondition, hfirst⟩
    · obtain ⟨elseBranch, helse, h⟩ := bind_eq_ok.1 h
      cases h
      exact ⟨hcondition, hfirst, ihElse test thenBranch _ elseBranch helse⟩
  case loop =>
    intro token rest _ ih p h
    obtain ⟨test, htest, h⟩ := bind_eq_ok.1 h
    obtain ⟨body, hbody, h⟩ := bind_eq_ok.1 h
    cases h
    exact ⟨condition_grammatical htest, ih test body hbody⟩
  case return_ =>
    intro token rest _ p h
    obtain ⟨value, hvalue, h⟩ := bind_eq_ok.1 h
    cases h
    show value.value.1.Grammatical
    exact terminated_grammatical hvalue
  case print =>
    intro token rest _ p h
    exact printValue_grammatical h
  case printsp | println =>
    intro token rest _ p h
    exact printSeparator_grammatical h
  case name =>
    intro token rest _ p h
    exact nameStatement_grammatical h
  case expression =>
    intro token rest _ p h
    exact expressionStatement_grammatical h
  case nothing =>
    intro closing p h
    cases h
  case close =>
    intro closing token rest _ p h
    cases h
    trivial
  case cons =>
    intro closing token rest _ ihFirst ihMore p h
    obtain ⟨first, hfirst, h⟩ := bind_eq_ok.1 h
    obtain ⟨more, hmore, h⟩ := bind_eq_ok.1 h
    cases h
    exact ⟨ihFirst first hfirst, ihMore first more hmore⟩

/-! ### Programs -/

theorem function_grammatical {keyword : Token} {rest : List Token}
    {p : Parsed Stmt (keyword :: rest)} (h : function keyword rest = .ok p) :
    p.value.TopGrammatical := by
  obtain ⟨type, htype, h⟩ := bind_eq_ok.1 h
  obtain ⟨name, -, h⟩ := bind_eq_ok.1 h
  obtain ⟨opening, -, h⟩ := bind_eq_ok.1 h
  obtain ⟨parameters, hparameters, h⟩ := bind_eq_ok.1 h
  obtain ⟨brace, -, h⟩ := bind_eq_ok.1 h
  obtain ⟨body, hbody, h⟩ := bind_eq_ok.1 h
  cases h
  exact ⟨scalarType_isConcrete htype, parameters_isConcrete hparameters,
    stmt_grammatical.statements _ _ body hbody⟩

theorem declaration_grammatical {first : Token} {rest : List Token}
    {p : Parsed Stmt (first :: rest)} (h : declaration first rest = .ok p) :
    p.value.TopGrammatical := by
  unfold declaration at h
  split at h
  · exact function_grammatical h
  · exact Stmt.TopGrammatical.of_grammatical (stmt_grammatical.statement _ p h)

theorem program_grammatical (input : List Token) :
    ∀ stmts, program input = .ok stmts → ∀ stmt ∈ stmts, stmt.TopGrammatical := by
  induction input using program.induct with
  | case1 =>
    intro stmts h
    rw [program] at h
    cases h
    exact fun stmt hstmt ↦ absurd hstmt List.not_mem_nil
  | case2 first rest ih =>
    intro stmts h
    rw [program] at h
    obtain ⟨head, hhead, h⟩ := bind_eq_ok.1 h
    obtain ⟨more, hmore, h⟩ := bind_eq_ok.1 h
    cases h
    exact List.forall_mem_cons.2 ⟨declaration_grammatical hhead, ih head more hmore⟩

end Parser

/-- A tree of the grammar: what every program read from tokens is. -/
def Grammatical (program : List Stmt) : Prop :=
  ∀ stmt ∈ program, stmt.TopGrammatical

theorem Grammatical.unnested {program : List Stmt} (h : Grammatical program) :
    Unnested program := by
  intro stmt hstmt
  cases stmt with
  | function => exact (h _ hstmt).2.2.allPlain
  | _ => exact Stmt.Grammatical.plain (h _ hstmt)

theorem parse_grammatical {tokens : List Token} {program : List Stmt}
    (h : parse tokens = .ok program) : Grammatical program := by
  unfold parse at h
  split at h
  · split at h
    · cases h
    · cases hread : Parser.program (tokens.takeWhile (·.kind ≠ .endOfFile)) with
      | error refusal =>
        rw [hread] at h
        cases h
      | ok stmts =>
        rw [hread] at h
        cases h
        exact Parser.program_grammatical _ _ hread
  · cases h

namespace Sample

/-! ### A program of the grammar

Small enough to be checked, compiled and run by evaluation. It has a global variable, two functions,
a loop and values of both types, and serves where assumptions have to be met together:

```
int g = 2;
fun int twice(int x) { return x * g; }
fun int main() {
  int i = 0;
  bool more = true;
  while (more && i < 3) { println twice(i); i = i + 1; more = i != 7; }
  return 0;
}
```

All spans are the default one, since nothing depends on them. -/

/-- A keyword token. -/
def word (keyword : Keyword) : Token := ⟨.keyword keyword, keyword.spelling, {}⟩

/-- A punctuation token. -/
def mark (mark : Mark) : Token := ⟨.mark mark, mark.spelling, {}⟩

/-- An identifier token. -/
def name (name : String) : Token := ⟨.identifier, name, {}⟩

/-- A token of an integer literal. -/
def digits (text : String) : Token := ⟨.integerLiteral, text, {}⟩

/-- The tokens of the program. -/
def tokens : List Token :=
  [word .int, name "g", mark .equals, digits "2", mark .semicolon,
    word .fun_, word .int, name "twice", mark .leftParen, word .int, name "x", mark .rightParen,
    mark .leftBrace, word .return_, name "x", mark .star, name "g", mark .semicolon,
    mark .rightBrace,
    word .fun_, word .int, name "main", mark .leftParen, mark .rightParen, mark .leftBrace,
    word .int, name "i", mark .equals, digits "0", mark .semicolon,
    word .bool, name "more", mark .equals, word .true_, mark .semicolon,
    word .while_, mark .leftParen, name "more", mark .ampAmp, name "i", mark .less, digits "3",
    mark .rightParen, mark .leftBrace,
    word .println, name "twice", mark .leftParen, name "i", mark .rightParen, mark .semicolon,
    name "i", mark .equals, name "i", mark .plus, digits "1", mark .semicolon,
    name "more", mark .equals, name "i", mark .bangEquals, digits "7", mark .semicolon,
    mark .rightBrace,
    word .return_, digits "0", mark .semicolon, mark .rightBrace,
    ⟨.endOfFile, "", {}⟩]

/-- An integer literal. -/
def number (n : Int32) : Expr := .literal {} { type := .int, number := n }

/-- The tree of the program. -/
def program : List Stmt :=
  [.var {} ⟨"g", .int, {}⟩ (some (number 2)),
    .function {} ⟨"twice", .int, {}⟩ [⟨"x", .int, {}⟩]
      [.return_ {} (.binary {} .times (.var {} "x") (.var {} "g"))],
    .function {} ⟨"main", .int, {}⟩ []
      [.var {} ⟨"i", .int, {}⟩ (some (number 0)),
        .var {} ⟨"more", .bool, {}⟩ (some (.literal {} { type := .bool, truth := true })),
        .loop {} (.binary {} .and (.var {} "more") (.binary {} .less (.var {} "i") (number 3)))
          (.block {}
            [.print {} .newline (some (.call {} "twice" [.var {} "i"])),
              .assign {} "i" {} (.binary {} .plus (.var {} "i") (number 1)),
              .assign {} "more" {} (.binary {} .notEqual (.var {} "i") (number 7))]),
        .return_ {} (number 0)]]

theorem parse_tokens : parse tokens = .ok program := by cbv

end Sample

end ScalarMips
