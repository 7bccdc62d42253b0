import ScalarMips.Source.Span

/-!
# Tokens

The vocabulary of the language: twelve keywords and twenty-one punctuation marks, and beside them
the two open classes of identifiers and integer literals. Each closed class has its list of members
in the order of declaration and the spelling of each member.
-/

namespace ScalarMips

/-- A reserved word. -/
inductive Keyword where
  | fun_
  | int
  | bool
  | true_
  | false_
  | if_
  | else_
  | while_
  | return_
  | print
  | printsp
  | println
  deriving DecidableEq

namespace Keyword

/-- All keywords. -/
def all : List Keyword :=
  [fun_, int, bool, true_, false_, if_, else_, while_, return_, print, printsp, println]

/-- The text of a keyword. -/
def spelling : Keyword → String
  | fun_ => "fun"
  | int => "int"
  | bool => "bool"
  | true_ => "true"
  | false_ => "false"
  | if_ => "if"
  | else_ => "else"
  | while_ => "while"
  | return_ => "return"
  | print => "print"
  | printsp => "printsp"
  | println => "println"

/-- The keyword spelt `text`. -/
def ofSpelling? (text : String) : Option Keyword :=
  all.find? fun keyword ↦ keyword.spelling = text

end Keyword

/-- A punctuation mark. -/
inductive Mark where
  | leftBrace
  | rightBrace
  | leftParen
  | rightParen
  | comma
  | semicolon
  | equals
  | plus
  | minus
  | star
  | slash
  | percent
  | bang
  | ampAmp
  | pipePipe
  | less
  | greater
  | lessEquals
  | greaterEquals
  | equalsEquals
  | bangEquals
  deriving DecidableEq

namespace Mark

/-- All punctuation marks. -/
def all : List Mark :=
  [leftBrace, rightBrace, leftParen, rightParen, comma, semicolon, equals, plus, minus, star, slash,
    percent, bang, ampAmp, pipePipe, less, greater, lessEquals, greaterEquals, equalsEquals,
    bangEquals]

/-- The text of a punctuation mark. -/
def spelling : Mark → String
  | leftBrace => "\x7b"
  | rightBrace => "\x7d"
  | leftParen => "("
  | rightParen => ")"
  | comma => ","
  | semicolon => ";"
  | equals => "="
  | plus => "+"
  | minus => "-"
  | star => "*"
  | slash => "/"
  | percent => "%"
  | bang => "!"
  | ampAmp => "&&"
  | pipePipe => "||"
  | less => "<"
  | greater => ">"
  | lessEquals => "<="
  | greaterEquals => ">="
  | equalsEquals => "=="
  | bangEquals => "!="

/-- The mark written with one given character. -/
def ofChar? (c : Char) : Option Mark :=
  all.find? fun mark ↦ mark.spelling.toList = [c]

/-- The mark written with two given characters. -/
def ofPair? (c d : Char) : Option Mark :=
  all.find? fun mark ↦ mark.spelling.toList = [c, d]

end Mark

/-- The class of a token. -/
inductive TokenKind where
  | endOfFile
  | identifier
  | integerLiteral
  | keyword (keyword : Keyword)
  | mark (mark : Mark)
  deriving DecidableEq

namespace TokenKind

/-- All classes of tokens. -/
def all : List TokenKind :=
  [endOfFile, identifier, integerLiteral] ++ Keyword.all.map keyword ++ Mark.all.map mark

/-- The name of a class: a description of an open class, the spelling of a closed one. -/
def name : TokenKind → String
  | endOfFile => "end of file"
  | identifier => "identifier"
  | integerLiteral => "integer literal"
  | keyword k => k.spelling
  | mark m => m.spelling

/-- The class with a given name. -/
def named? (text : String) : Option TokenKind :=
  all.find? fun kind ↦ kind.name = text

end TokenKind

/-- A word of the source text. -/
structure Token where
  /-- Its class. -/
  kind : TokenKind
  /-- The characters it is written with; none for the end of the file. -/
  text : String
  /-- Where it stands. -/
  span : Span
  deriving DecidableEq

end ScalarMips
