import Mathlib
import ScalarMips.Proofs.ExpressionRefusals
import ScalarMips.Proofs.TreeSpans

/-!
# Integer literals

An integer literal has the value of its digits (`integerLiterals_keep_value`).

Two converters read the digits. The lexer decides whether the number fits in a word, and goes on
only if it does (`Lexer.place_digits`); the parser then reads the digits once more and would refuse
a number that does not fit. It never has to: readers that start on well-written tokens leave
well-written tokens behind and refuse no number (`Parser.Candid`), and all tokens of a source are
well written.
-/

namespace ScalarMips

/-! ### Digits in a text -/

namespace Lexer

/-- Starting on a text, lexing cuts pieces off its front and comes to the rest without a fault. -/
inductive Arrives : List Char → List Char → List Char → Prop where
  | here (rest : List Char) : Arrives rest [] rest
  | next {c : Char} {text front rest : List Char} :
      (∀ cause word, (scan c text).1 ≠ .fault cause word) → Arrives (scan c text).2 front rest →
        Arrives (c :: text) ((scan c text).1.text ++ front) rest

/-- Some tokens have been placed when lexing arrives at the rest, which is then placed as if it
stood alone. -/
theorem Arrives.place {text front rest : List Char} (h : Arrives text front rest) :
    ∀ start : Location, ∃ before : List Token, Piece.place start (Piece.cut text) =
      ⟨before ++ (Piece.place (start.advance front) (Piece.cut rest)).tokens,
        (Piece.place (start.advance front) (Piece.cut rest)).fault⟩ := by
  induction h with
  | here => exact fun start ↦ ⟨[], rfl⟩
  | @next c text front rest hfault _ ih =>
    intro start
    obtain ⟨before, hbefore⟩ := ih (start.advance (scan c text).1.text)
    rw [Location.advance_append, Piece.cut]
    cases hpiece : (scan c text).1 with
    | fault cause word => exact absurd hpiece (hfault cause word)
    | gap word =>
      rw [hpiece] at hbefore
      exact ⟨before, hbefore⟩
    | lexeme kind word =>
      rw [hpiece] at hbefore
      refine ⟨⟨kind, String.ofList word, start, start.advance word⟩ :: before, ?_⟩
      show Lexed.mk (_ :: (Piece.place _ _).tokens) (Piece.place _ _).fault = _
      rw [Piece.text_lexeme] at hbefore
      rw [hbefore]
      rfl

theorem Arrives.lex {source : String} {front rest : List Char}
    (h : Arrives source.toList front rest) : ∃ before : List Token, ScalarMips.lex source =
      ⟨before ++ (Piece.place (Source.location front) (Piece.cut rest)).tokens,
        (Piece.place (Source.location front) (Piece.cut rest)).fault⟩ :=
  h.place {}

theorem not_isBlank_of_isDigit {c : Char} (h : c.isDigit) : ¬ isBlank c := by
  intro hblank
  have hcode : 48 ≤ c.toNat ∧ c.toNat ≤ 57 := Char.isDigit_iff_toNat.1 h
  simp only [isBlank, Bool.or_eq_true, Bool.and_eq_true, decide_eq_true_eq] at hblank
  obtain rfl | ⟨-, hle⟩ := hblank
  · exact absurd hcode (by decide)
  · have hsmall : c.toNat ≤ 13 := UInt32.le_iff_toNat_le.1 hle
    omega

/-- A run of digits is cut off as a whole. -/
theorem scan_digits {c : Char} {digits rest : List Char} (hdigits : ∀ d ∈ c :: digits, d.isDigit)
    (hrest : ∀ d ∈ rest.head?, ¬ d.isDigit) :
    scan c (digits ++ rest) = (number (c :: digits), rest) := by
  obtain ⟨hc, hdigits⟩ := List.forall_mem_cons.1 hdigits
  have hstart : ¬ isWordStart c := fun h ↦ not_isDigit_of_isWordStart h hc
  have htail : rest.takeWhile Char.isDigit = [] ∧ rest.dropWhile Char.isDigit = rest := by
    cases rest with
    | nil => exact ⟨rfl, rfl⟩
    | cons d rest =>
      have hd := hrest d rfl
      exact ⟨List.takeWhile_cons_of_neg hd, List.dropWhile_cons_of_neg hd⟩
  rw [scan, if_neg (not_isBlank_of_isDigit hc), if_neg hstart, if_pos hc,
    List.takeWhile_append_of_pos hdigits,
    List.dropWhile_append_of_pos hdigits, htail.1, htail.2, List.append_nil]

/-- A run of digits at which a token starts is an integer literal if the number fits in a word, and
is complained about otherwise. -/
theorem place_digits {digits rest : List Char} (hne : digits ≠ [])
    (hdigits : ∀ d ∈ digits, d.isDigit)
    (hrest : ∀ d ∈ rest.head?, ¬ d.isDigit) (start : Location) :
    Piece.place start (Piece.cut (digits ++ rest)) =
      if Numeral.value digits ≤ Numeral.greatest then
        ⟨⟨.integerLiteral, String.ofList digits, start, start.advance digits⟩ ::
            (Piece.place (start.advance digits) (Piece.cut rest)).tokens,
          (Piece.place (start.advance digits) (Piece.cut rest)).fault⟩
      else ⟨[], some ⟨⟨start, start.advance digits⟩, .integerTooLarge⟩⟩ := by
  obtain ⟨c, digits, rfl⟩ := List.exists_cons_of_ne_nil hne
  rw [List.cons_append, Piece.cut, scan_digits hdigits hrest, number]
  -- The lexer goes by its overflow flag, which tells whether the number fits.
  by_cases hfits : Numeral.fits (c :: digits)
  · rw [if_pos hfits, if_pos ((Numeral.fits_iff _).1 hfits)]
    rfl
  · rw [if_neg hfits, if_neg (mt (Numeral.fits_iff _).2 hfits)]
    rfl

end Lexer

/-! ### Refused numbers -/

namespace Parser

/-- A reading that leaves well-written tokens behind, or refuses something else than a number. -/
def Candid {α : Type} {input : List Token} : Result α input → Prop
  | .ok p => WellWritten p.rest
  | .error r => r.fault ≠ .integerTooLarge

variable {α β : Type} {input : List Token}

/-- One reading after another. -/
theorem Candid.bind {input' : List Token} {first : Result α input}
    {second : Parsed α input → Result β input'} (hfirst : Candid first)
    (hsecond : ∀ p : Parsed α input, WellWritten p.rest → Candid (second p)) :
    Candid (first >>= second) := by
  cases first with
  | ok p => exact hsecond p hfirst
  | error r => exact hfirst

theorem candid_refuse {input' : List Token} (wanted : Expectation) :
    Candid (refuse wanted input : Result α input') := by
  show ParseFault.unexpected _ _ ≠ _
  simp

theorem candid_expect (hinput : WellWritten input) (kind : TokenKind) (wanted : Expectation) :
    Candid (expect kind wanted input) := by
  unfold expect
  split
  · rename_i h
    exact hinput.accept? h
  · exact candid_refuse wanted

/-- No reader of expressions refuses a number among well-written tokens: what a first reading leaves
is well written, and so the second one is candid. -/
theorem expr_candid : ExprReaders
    (fun _ input r ↦ WellWritten input → Candid r)
    (fun _ _ _ left r ↦ WellWritten left.rest → Candid r)
    (fun input r ↦ WellWritten input → Candid r)
    (fun input r ↦ WellWritten input → Candid r)
    (fun input r ↦ WellWritten input → Candid r)
    (fun input r ↦ WellWritten input → Candid r) := by
  apply ExprReaders.of_branches
  case operand =>
    intro input ih
    exact ih
  case level =>
    intro level tighter input ihBinary ihChain h
    exact (ihBinary h).bind ihChain
  case stop =>
    intro level tighter input left _ h
    exact h
  case operator =>
    intro level tighter input left op hop ihBinary ihChain h
    exact (ihBinary (h.acceptOperator? hop)).bind ihChain
  case sign =>
    intro input op hop ih h
    exact (ih (h.acceptOperator? hop)).bind fun _ hoperand ↦ hoperand
  case unsigned =>
    intro input _ ih
    exact ih
  case nil =>
    intro _
    exact candid_refuse _
  case number =>
    intro token rest number _ _ h
    exact h.tail
  case overflow =>
    -- The number of a well-written token is read.
    intro token rest hkind hnumber h
    rw [readWord?_of_isNumeral (h token List.mem_cons_self hkind)] at hnumber
    cases hnumber
  case truth | falsity =>
    intro token rest _ h
    exact h.tail
  case name =>
    intro token rest _ _ h
    exact h.tail
  case call =>
    intro token rest opening _ hopening ih h
    exact (ih (h.tail.accept? hopening)).bind fun _ harguments ↦ harguments
  case group =>
    intro token rest _ ih h
    exact (ih h.tail).bind fun _ hinner ↦ (candid_expect hinner _ _).bind fun _ hclose ↦ hclose
  case other =>
    intro token rest _ _
    exact candid_refuse _
  case noArguments =>
    intro input close hclose h
    exact h.accept? hclose
  case someArguments =>
    intro input _ ih
    exact ih
  case argument =>
    intro input ihFirst ihMore h
    refine (ihFirst h).bind fun argument hargument ↦ ?_
    split
    · rename_i comma hcomma
      exact (ihMore argument comma (hargument.accept? hcomma)).bind fun _ hmore ↦ hmore
    · exact (candid_expect hargument _ _).bind fun _ hclose ↦ hclose

theorem candid_expression (h : WellWritten input) : Candid (expression input) :=
  expr_candid.binary _ _ h

theorem candid_terminated (h : WellWritten input) (closed : Terminated) :
    Candid (terminated closed input) :=
  (candid_expression h).bind fun _ hvalue ↦ (candid_expect hvalue _ _).bind fun _ hclose ↦ hclose

theorem candid_condition (h : WellWritten input) (keyword : Keyword) :
    Candid (condition keyword input) :=
  (candid_expect h _ _).bind fun _ hopening ↦ (candid_expression hopening).bind fun _ hvalue ↦
    (candid_expect hvalue _ _).bind fun _ hclosing ↦ hclosing

theorem candid_scalarType (h : WellWritten input) : Candid (scalarType input) := by
  cases input with
  | nil => exact candid_refuse _
  | cons token tail =>
    rw [scalarType]
    split
    · exact h.tail
    · exact h.tail
    · exact candid_refuse _

theorem candid_declarator (h : WellWritten input) (wanted : Expectation) :
    Candid (declarator wanted input) :=
  (candid_scalarType h).bind fun _ htype ↦ (candid_expect htype _ _).bind fun _ hname ↦ hname

theorem candid_parametersFrom (input : List Token) :
    WellWritten input → Candid (parametersFrom input) := by
  induction input using parametersFrom.induct with
  | case1 input ih =>
    intro h
    rw [parametersFrom]
    refine (candid_declarator h _).bind fun parameter hparameter ↦ ?_
    split
    · rename_i comma hcomma
      exact (ih parameter comma (hparameter.accept? hcomma)).bind fun _ hmore ↦ hmore
    · exact (candid_expect hparameter _ _).bind fun _ hclose ↦ hclose

theorem candid_parameters (h : WellWritten input) : Candid (parameters input) := by
  unfold parameters
  split
  · rename_i hclose
    exact h.accept? hclose
  · exact candid_parametersFrom input h

theorem candid_varDeclaration {first : Token} {tail : List Token}
    (h : WellWritten (first :: tail)) : Candid (varDeclaration first tail) := by
  refine (candid_declarator h _).bind fun head hhead ↦ ?_
  split
  · rename_i hequals
    exact (candid_terminated (hhead.accept? hequals) _).bind fun _ hinitial ↦ hinitial
  · exact (candid_expect hhead _ _).bind fun _ hclose ↦ hclose

theorem candid_printValue {tail : List Token} (h : WellWritten tail) (keyword : Token)
    (ending : PrintEnd) : Candid (printValue keyword ending tail) :=
  (candid_terminated h _).bind fun _ hvalue ↦ hvalue

theorem candid_printSeparator {tail : List Token} (h : WellWritten tail) (keyword : Token)
    (ending : PrintEnd) : Candid (printSeparator keyword ending tail) := by
  unfold printSeparator
  split
  · rename_i hclose
    exact h.accept? hclose
  · exact candid_printValue h keyword ending

theorem candid_expressionStatement (h : WellWritten input) : Candid (expressionStatement input) :=
  (candid_terminated h _).bind fun _ hvalue ↦ hvalue

theorem candid_nameStatement {name : Token} {tail : List Token} (h : WellWritten (name :: tail)) :
    Candid (nameStatement name tail) := by
  unfold nameStatement
  split
  · rename_i hequals
    exact (candid_terminated (h.tail.accept? hequals) _).bind fun _ hvalue ↦ hvalue
  · exact candid_expressionStatement h

/-- No reader of statements refuses a number among well-written tokens. -/
theorem stmt_candid : StmtReaders
    (fun input r ↦ WellWritten input → Candid r)
    (fun _ input r ↦ WellWritten input → Candid r) := by
  apply StmtReaders.of_branches
  case nil =>
    intro _
    exact candid_refuse _
  case function =>
    intro token rest _ _
    show ParseFault.nestedFunction ≠ _
    simp
  case declaration =>
    intro token rest _ h
    exact candid_varDeclaration h
  case block =>
    intro token rest _ ih h
    exact (ih h.tail).bind fun _ hbody ↦ hbody
  case conditional =>
    intro token rest _ ihThen ihElse h
    refine (candid_condition h.tail _).bind fun test htest ↦ ?_
    refine (ihThen test htest).bind fun thenBranch hthen ↦ ?_
    unfold otherwise
    split
    · exact hthen
    · rename_i els hels
      exact (ihElse test thenBranch els (hthen.accept? hels)).bind fun _ helse ↦ helse
  case loop =>
    intro token rest _ ih h
    exact (candid_condition h.tail _).bind fun test htest ↦
      (ih test htest).bind fun _ hbody ↦ hbody
  case return_ =>
    intro token rest _ h
    exact (candid_terminated h.tail _).bind fun _ hvalue ↦ hvalue
  case print =>
    intro token rest _ h
    exact candid_printValue h.tail token _
  case printsp | println =>
    intro token rest _ h
    exact candid_printSeparator h.tail token _
  case name =>
    intro token rest _ h
    exact candid_nameStatement h
  case expression =>
    intro token rest _ h
    exact candid_expressionStatement h
  case nothing =>
    intro closing _
    exact candid_refuse _
  case close =>
    intro closing token rest _ h
    exact h.tail
  case cons =>
    intro closing token rest _ ihFirst ihMore h
    exact (ihFirst h).bind fun first hfirst ↦ (ihMore first hfirst).bind fun _ hmore ↦ hmore

theorem candid_function {keyword : Token} {tail : List Token} (h : WellWritten tail) :
    Candid (function keyword tail) := by
  refine (candid_scalarType h).bind fun type htype ↦ ?_
  refine (candid_expect htype _ _).bind fun name hname ↦ ?_
  refine (candid_expect hname _ _).bind fun opening hopening ↦ ?_
  refine (candid_parameters hopening).bind fun parameters hparameters ↦ ?_
  refine (candid_expect hparameters _ _).bind fun brace hbrace ↦ ?_
  exact (stmt_candid.statements _ _ hbrace).bind fun _ hbody ↦ hbody

theorem candid_declaration {first : Token} {tail : List Token} (h : WellWritten (first :: tail)) :
    Candid (declaration first tail) := by
  unfold declaration
  split
  · exact candid_function h.tail
  · exact stmt_candid.statement _ h

/-- A program of well-written tokens is not refused for a number. -/
theorem program_candid (input : List Token) : WellWritten input → ∀ r, program input = .error r →
    r.fault ≠ .integerTooLarge := by
  induction input using program.induct with
  | case1 =>
    intro _ r h
    rw [program] at h
    cases h
  | case2 first tail ih =>
    intro hinput r h
    have hfirst := candid_declaration hinput
    rw [program] at h
    rcases bind_eq_error.1 h with h | ⟨head, hhead, h⟩
    · rw [h] at hfirst
      exact hfirst
    · rw [hhead] at hfirst
      rcases bind_eq_error.1 h with h | ⟨more, -, h⟩
      · exact ih head hfirst r h
      · cases h

end Parser

/-- Of all faults, only that of a number has this code. -/
theorem ParseFault.code_eq_iff {fault : ParseFault} :
    fault.code = "BAD-E2114" ↔ fault = .integerTooLarge := by
  cases fault with
  | unexpected wanted found => cases wanted <;> simp [code, Expectation.code]
  | _ => simp [code]

/-- The parser finds every number of a source to fit. -/
theorem parse_lex_ne_integerTooLarge {source : String} {fault : Located ParseFault}
    (h : parse (lex source).tokens = .error fault) : fault.val ≠ .integerTooLarge := by
  obtain ⟨tokens, hkinds, ⟨span, hlex, hdivides⟩ | ⟨lexFault, rest, hlex, -⟩⟩ :=
    Lexer.ends_lex source
  · rw [hlex, parse_append rfl hkinds] at h
    cases hprogram : Parser.program tokens with
    | ok program =>
      rw [hprogram] at h
      cases h
    | error r =>
      rw [hprogram] at h
      cases h
      exact Parser.program_candid tokens hdivides.wellWritten r hprogram
  · -- Without an end of the file the parser does not start.
    rw [hlex, parse, if_neg] at h
    · cases h
      simp
    · intro hlast
      obtain ⟨last, hmem, hkind⟩ := Option.map_eq_some_iff.1 hlast
      exact hkinds last (List.mem_of_getLast? hmem) hkind

/-! ### Numbers of a tree -/

/-- The value of an integer literal is that of its digits. -/
theorem Slot.Accepts.numeral {value : Literal} {token : Token}
    (h : (Slot.literal value).Accepts token) (htype : value.type = .int) :
    token.kind = .integerLiteral ∧ value.number.toInt = Numeral.value token.text.toList := by
  have hread : Grammar.Expression .primary [token] (.literal token.span value) := h
  generalize htokens : [token] = tokens, hliteral : Expr.literal token.span value = e at hread
  cases hread with
  | operand htighter => cases htighter
  | binary htighter => cases htighter
  | number hkind hnumeral =>
    cases htokens
    cases hliteral
    have hfits := hnumeral.fits
    exact ⟨hkind, Int32.toInt_ofInt_of_le (by omega) (by omega)⟩
  | truth =>
    obtain ⟨-, rfl⟩ := Expr.literal.inj hliteral
    cases htype
  | falsity =>
    obtain ⟨-, rfl⟩ := Expr.literal.inj hliteral
    cases htype
  | name => cases hliteral
  | plainCall => cases htokens
  | call => cases htokens
  | group =>
    obtain ⟨-, hnil⟩ := List.cons.inj htokens
    simp at hnil

/-- Every integer literal in a program stands for a token, with or without parentheses around it,
and has the value of its digits. -/
theorem exists_numeral {source : String} {program : List Stmt}
    (hparse : parse (lex source).tokens = .ok program) {stmt : Stmt} (hstmt : stmt ∈ program)
    {span : Span} {value : Literal}
    (hwithin : (Node.stmt stmt).Within (.expr (.literal span value))) (htype : value.type = .int) :
    ∃ token phrase, phrase <:+: (lex source).tokens ∧ Grouped [token] phrase ∧
      span.Covers phrase ∧ token.kind = .integerLiteral ∧
      value.number.toInt = Numeral.value token.text.toList := by
  obtain ⟨phrase, hphrase, -, hliteral⟩ := exists_phrase_of_within hparse hstmt hwithin
  cases hliteral with
  | mk hfills haround hcovers =>
    cases hfills with
    | token haccepts hnone =>
      cases hnone
      obtain ⟨hkind, hvalue⟩ := haccepts.numeral htype
      exact ⟨_, phrase, hphrase, haround, hcovers, hkind, hvalue⟩

/-! ### The value of a literal -/

/-- **Integer literals keep their value.** Where lexing comes to a run of digits, the whole run is
an integer literal if and only if its number is at most the largest word; otherwise lexing ends with
a complaint about the run. The parser therefore never complains about a number, and every integer
literal in a tree has the value of the digits of its token. -/
theorem integerLiterals_keep_value (source : String) :
    (∀ front digits rest : List Char, Lexer.Arrives source.toList front (digits ++ rest) →
      digits ≠ [] → (∀ d ∈ digits, d.isDigit) → (∀ d ∈ rest.head?, ¬ d.isDigit) →
        let span : Span := ⟨Source.location front, Source.location (front ++ digits)⟩
        ∃ before : List Token,
          ((∃ after, (lex source).tokens =
              before ++ ⟨.integerLiteral, String.ofList digits, span⟩ :: after) ↔
            Numeral.value digits ≤ 2147483647) ∧
          (¬ Numeral.value digits ≤ 2147483647 →
            ∃ fault, lex source = ⟨before, some ⟨span, fault⟩⟩ ∧ fault.code = "BAD-E2002")) ∧
      (∀ fault, parse (lex source).tokens = .error fault → fault.val.code ≠ "BAD-E2114") ∧
      ∀ program, parse (lex source).tokens = .ok program → ∀ stmt ∈ program, ∀ span value,
        (Node.stmt stmt).Within (.expr (.literal span value)) → value.type = .int →
          ∃ token phrase, phrase <:+: (lex source).tokens ∧ Grouped [token] phrase ∧
            span.Covers phrase ∧ token.kind = .integerLiteral ∧
            value.number.toInt = Numeral.value token.text.toList := by
  refine ⟨fun front digits rest harrives hne hdigits hrest ↦ ?_, fun fault h hcode ↦ ?_,
    fun program hparse stmt hstmt span value hwithin htype ↦
      exists_numeral hparse hstmt hwithin htype⟩
  · obtain ⟨before, hlex⟩ := harrives.lex
    rw [Lexer.place_digits hne hdigits hrest, ← Source.location_append] at hlex
    refine ⟨before, ?_⟩
    by_cases hfits : Numeral.value digits ≤ Numeral.greatest
    · rw [if_pos hfits] at hlex
      exact ⟨iff_of_true ⟨_, congrArg Lexed.tokens hlex⟩ hfits, fun hlarge ↦ absurd hfits hlarge⟩
    · rw [if_neg hfits, List.append_nil] at hlex
      refine ⟨iff_of_false (fun ⟨after, hafter⟩ ↦ ?_) hfits, fun _ ↦ ⟨_, hlex, rfl⟩⟩
      rw [hlex] at hafter
      simp at hafter
  · exact parse_lex_ne_integerTooLarge h (ParseFault.code_eq_iff.1 hcode)

/-- Leading zeros do not count, however many they are; the other number is ten times one more than
the largest word, and has eleven digits like the first. -/
theorem integerLiterals_keep_value_padded :
    (∃ before after, (lex "00000000042;").tokens =
      before ++ ⟨.integerLiteral, "00000000042", ⟨⟨1, 1⟩, ⟨1, 12⟩⟩⟩ :: after) ∧
    (∃ before fault, lex "21474836480;" = ⟨before, some ⟨⟨⟨1, 1⟩, ⟨1, 12⟩⟩, fault⟩⟩ ∧
      fault.code = "BAD-E2002") ∧
    ∃ token ∈ (lex "00000000042;").tokens, token.kind = .integerLiteral ∧
      (42 : Int) = Numeral.value token.text.toList := by
  obtain ⟨hliterals, -, hvalues⟩ := integerLiterals_keep_value "00000000042;"
  obtain ⟨hlarge, -, -⟩ := integerLiterals_keep_value "21474836480;"
  obtain ⟨before, hliteral, -⟩ := hliterals [] ['0', '0', '0', '0', '0', '0', '0', '0', '0', '4', '2']
    [';'] (.here _) (by decide) (List.all_eq_true.1 (by decide)) (by rintro _ ⟨⟩; decide)
  obtain ⟨before', -, hfault⟩ := hlarge [] ['2', '1', '4', '7', '4', '8', '3', '6', '4', '8', '0']
    [';'] (.here _) (by decide) (List.all_eq_true.1 (by decide)) (by rintro _ ⟨⟩; decide)
  obtain ⟨after, hafter⟩ := hliteral.2 (by decide)
  obtain ⟨fault, hlex, hcode⟩ := hfault (by decide)
  have hparse : parse (lex "00000000042;").tokens =
      .ok [.evaluate ⟨⟨1, 1⟩, ⟨1, 13⟩⟩ (.literal ⟨⟨1, 1⟩, ⟨1, 12⟩⟩ ⟨.int, 42, false⟩)] := by cbv
  obtain ⟨token, phrase, hphrase, hgrouped, -, hkind, hvalue⟩ :=
    hvalues _ hparse _ List.mem_cons_self _ _ (.single List.mem_cons_self) rfl
  exact ⟨⟨before, after, hafter⟩, ⟨before', fault, hlex, hcode⟩, token,
    (hgrouped.isInfix.trans hphrase).subset List.mem_cons_self, hkind, hvalue⟩

end ScalarMips
