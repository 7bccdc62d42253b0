import ScalarMips.Proofs.StatementReading

/-!
# Reading programs

The parser accepts exactly the grammar and builds its trees (`parse_eq_ok_iff`).
-/

namespace ScalarMips

open Grammar

namespace Parser

variable {input rest : List Token}

/-! ### Functions -/

theorem function_sound {keyword : Token} {tail : List Token} (hkind : keyword.kind = .keyword .fun_)
    (hinput : WellWritten (keyword :: tail)) {p : Parsed Stmt (keyword :: tail)}
    (h : function keyword tail = .ok p) : p.Spells (Declaration Closed) := by
  obtain ⟨type, htype, h⟩ := bind_eq_ok.1 h
  obtain ⟨name, hname, h⟩ := bind_eq_ok.1 h
  obtain ⟨opening, hopening, h⟩ := bind_eq_ok.1 h
  obtain ⟨parameters, hparameters, h⟩ := bind_eq_ok.1 h
  obtain ⟨brace, hbrace, h⟩ := bind_eq_ok.1 h
  obtain ⟨body, hbody, h⟩ := bind_eq_ok.1 h
  cases h
  obtain ⟨first, word, htail, hword, htypeWord⟩ := reads_scalarType.1 ⟨type, htype, rfl, rfl⟩
  obtain ⟨hnameRest, hnameKind⟩ := (reads_expect _).1 ⟨name, hname, rfl, rfl⟩
  obtain ⟨hopeningRest, hopeningKind⟩ := (reads_expect _).1 ⟨opening, hopening, rfl, rfl⟩
  obtain ⟨_, hts, ts, rfl, hds, hclosing⟩ := parameters_sound hparameters
  obtain ⟨hbraceRest, hbraceKind⟩ := (reads_expect _).1 ⟨brace, hbrace, rfl, rfl⟩
  have hwritten : WellWritten brace.rest := by
    rw [htail, hnameRest, hopeningRest, hts, hbraceRest] at hinput
    exact hinput.tail.tail.tail.tail.right.tail
  obtain ⟨_, hbodyRest, inner, rfl, hss, hlast⟩ := stmt_sound.statements _ _ hwritten body hbody
  have hopeningTokens : opening.rest =
      ts ++ parameters.value.2 :: brace.value :: (inner ++ [body.value.2]) ++ body.rest :=
    (consumed_append hts (hbraceRest.trans (congrArg (brace.value :: ·) hbodyRest))).trans
      (congrArg (· ++ body.rest) (List.append_assoc ts _ _))
  have hnameTokens := hopeningRest.trans (congrArg (opening.value :: ·) hopeningTokens)
  have htypeTokens := hnameRest.trans (congrArg (name.value :: ·) hnameTokens)
  exact ⟨_, congrArg (keyword :: ·) (htail.trans (congrArg (first :: ·) htypeTokens)),
    .function hkind hword htypeWord hnameKind hopeningKind hds hclosing hbraceKind hss hlast⟩

theorem declaration_sound {first : Token} {tail : List Token} (hinput : WellWritten (first :: tail))
    {p : Parsed Stmt (first :: tail)} (h : declaration first tail = .ok p) :
    p.Spells (Declaration Closed) := by
  unfold declaration at h
  split at h
  · exact function_sound ‹_› hinput h
  · obtain ⟨⟨ts, hts, hs⟩, -⟩ := stmt_sound.statement _ hinput p h
    exact ⟨ts, hts, .statement hs⟩

theorem function_complete {keyword first name opening closing brace last : Token} {word : Keyword}
    {type : ScalarType} {ts body tail : List Token} {ds : List Declarator} {ss : List Stmt}
    (hword : first.kind = .keyword word) (htype : type? word = some type)
    (hname : name.kind = .identifier) (hopening : opening.kind = .mark .leftParen)
    (hds : Optional Parameters ts ds) (hclosing : closing.kind = .mark .rightParen)
    (hbrace : brace.kind = .mark .leftBrace) (hss : Statements Closed body ss)
    (hlast : last.kind = .mark .rightBrace)
    (htail : tail = first :: name :: opening :: (ts ++ closing :: brace ::
      (body ++ last :: rest))) :
    Reads (function keyword tail) (.function (keyword.span.to last.span)
      ⟨name.text, type, name.span.to closing.span⟩ ds ss) rest := by
  refine (reads_scalarType.2 ⟨_, _, htail, hword, htype⟩).bind fun p hp hprest ↦ ?_
  refine ((reads_expect _).2 ⟨hprest, hname⟩).bind fun q hq hqrest ↦ ?_
  refine ((reads_expect _).2 ⟨hqrest, hopening⟩).bind fun r hr hrrest ↦ ?_
  refine (parameters_complete hds hclosing hrrest).bind fun u hu hurest ↦ ?_
  refine ((reads_expect _).2 ⟨hurest, hbrace⟩).bind fun v hv hvrest ↦ ?_
  refine (reads_of_statements hss _ hvrest hlast).bind fun w hw hwrest ↦ reads_ok.2 ⟨?_, hwrest⟩
  simp only [Parsed.map, Parsed.behind, Parsed.after, hp, hq, hu, hw]

theorem reads_of_declaration {ts : List Token} {s : Stmt} (h : Declaration Closed ts s)
    (hrest : ∀ token ∈ rest.head?, token.kind ≠ .keyword .else_) :
    ∃ first tail, ts ++ rest = first :: tail ∧ Reads (declaration first tail) s rest := by
  cases h with
  | function hkind hword htype hname hopening hds hclosing hbrace hss hlast =>
    refine ⟨_, _, rfl, ?_⟩
    rw [declaration, if_pos hkind]
    exact function_complete hword htype hname hopening hds hclosing hbrace hss hlast (by simp)
  | statement h =>
    have hread := reads_of_statement h rfl fun _ ↦ hrest
    obtain ⟨first, tail, rfl, hkind⟩ := head_statement h
    refine ⟨first, tail ++ rest, rfl, ?_⟩
    rw [declaration, if_neg fun heq ↦ hkind (by rw [heq]; decide)]
    exact hread

/-! ### Programs -/

theorem not_else_of_declarations {ts : List Token} {ss : List Stmt}
    (h : Declarations Closed ts ss) : ∀ token ∈ ts.head?, token.kind ≠ .keyword .else_ := by
  intro token htoken heq
  cases h with
  | nil => cases htoken
  | cons hfirst =>
    cases hfirst with
    | function hkind =>
      cases htoken
      cases hkind.symm.trans heq
    | statement h =>
      obtain ⟨first, tail, rfl, hkind⟩ := head_statement h
      cases htoken
      exact hkind (by rw [heq]; decide)

theorem program_sound (input : List Token) : WellWritten input → ∀ ss, program input = .ok ss →
    Declarations Closed input ss := by
  induction input using program.induct with
  | case1 =>
    intro _ ss h
    rw [program] at h
    cases h
    exact .nil
  | case2 first tail ih =>
    intro hinput ss h
    rw [program] at h
    obtain ⟨head, hhead, h⟩ := bind_eq_ok.1 h
    obtain ⟨more, hmore, h⟩ := bind_eq_ok.1 h
    cases h
    obtain ⟨ts, hts, hs⟩ := declaration_sound hinput hhead
    rw [hts] at hinput
    have hwhole := Declarations.cons hs (ih head hinput.right more hmore)
    rwa [← hts] at hwhole

theorem program_complete {ts : List Token} {ss : List Stmt} (h : Declarations Closed ts ss) :
    program ts = .ok ss := by
  induction h with
  | nil => rw [program]
  | cons hfirst hrest ih =>
    obtain ⟨first, tail, heq, p, hp, rfl, hprest⟩ :=
      reads_of_declaration hfirst (not_else_of_declarations hrest)
    rw [heq, program, hp]
    show (program p.rest >>= fun more ↦ .ok (p.value :: more)) = _
    rw [hprest, ih]
    rfl

end Parser

/-- Reading stops before the first end of the file, which is where a refusal without a place
belongs. -/
theorem parse_append_cons {body post : List Token} {last : Token} (hlast : last.kind = .endOfFile)
    (hbody : ∀ token ∈ body, token.kind ≠ .endOfFile)
    (hend : (body ++ last :: post).getLast?.map Token.kind = some .endOfFile) :
    parse (body ++ last :: post) = (Parser.program body).mapError fun refusal ↦
      ⟨refusal.span.getD last.span, refusal.fault⟩ := by
  have hdrop : (body ++ last :: post).dropWhile (·.kind ≠ .endOfFile) = last :: post := by
    rw [List.dropWhile_append_of_pos (by simpa using hbody)]
    simp [hlast]
  have htake : (body ++ last :: post).takeWhile (·.kind ≠ .endOfFile) = body := by
    rw [List.takeWhile_append_of_pos (by simpa using hbody)]
    simp [hlast]
  rw [parse, if_pos hend, hdrop, htake]

theorem parse_append {body : List Token} {last : Token} (hlast : last.kind = .endOfFile)
    (hbody : ∀ token ∈ body, token.kind ≠ .endOfFile) :
    parse (body ++ [last]) = (Parser.program body).mapError fun refusal ↦
      ⟨refusal.span.getD last.span, refusal.fault⟩ :=
  parse_append_cons hlast hbody (by simp [hlast])

theorem parse_append_eq_ok {body : List Token} {last : Token} (hlast : last.kind = .endOfFile)
    (hbody : ∀ token ∈ body, token.kind ≠ .endOfFile) {program : List Stmt} :
    parse (body ++ [last]) = .ok program ↔ Parser.program body = .ok program := by
  rw [parse_append hlast hbody]
  cases Parser.program body with
  | ok stmts => simp only [Except.mapError, Except.ok.injEq]
  | error refusal => simp only [Except.mapError, reduceCtorEq]

theorem program_append_iff {before : Stmt → Prop} {body : List Token} {last : Token}
    (hlast : last.kind = .endOfFile) {program : List Stmt} :
    Program before (body ++ [last]) program ↔ Declarations before body program := by
  constructor
  · intro h
    generalize htokens : body ++ [last] = tokens at h
    cases h with
    | mk h _ =>
      obtain ⟨rfl, -⟩ := List.append_inj' htokens rfl
      exact h
  · intro h
    exact .mk h hlast

/-- The parser accepts exactly the grammar, and the tree that it builds is the one of the derivation
in which every `else` belongs to the nearest `if`. -/
theorem parse_eq_ok_iff {body : List Token} {last : Token} (hlast : last.kind = .endOfFile)
    (hbody : ∀ token ∈ body, token.kind ≠ .endOfFile) (hwritten : Parser.WellWritten body) :
    (∀ program, parse (body ++ [last]) = .ok program ↔ Program Closed (body ++ [last]) program) ∧
      ((∃ program, parse (body ++ [last]) = .ok program) ↔
        ∃ program, Program Anything (body ++ [last]) program) := by
  have htree : ∀ program, parse (body ++ [last]) = .ok program ↔
      Program Closed (body ++ [last]) program := by
    intro program
    rw [parse_append_eq_ok hlast hbody, program_append_iff hlast]
    exact ⟨Parser.program_sound body hwritten program, Parser.program_complete⟩
  refine ⟨htree, ?_, ?_⟩
  · rintro ⟨program, h⟩
    exact ⟨program, ((htree program).1 h).anything⟩
  · rintro ⟨program, h⟩
    obtain ⟨program', h⟩ := h.nearest
    exact ⟨program', (htree program').2 h⟩

/-- The tokens of `if (a) if (b) print 8 - 4 - 2; else c = -(d);`, up to the end of the file. -/
def Sample.nested : List Token :=
  [word .if_, mark .leftParen, name "a", mark .rightParen,
    word .if_, mark .leftParen, name "b", mark .rightParen,
    word .print, digits "8", mark .minus, digits "4", mark .minus, digits "2", mark .semicolon,
    word .else_, name "c", mark .equals, mark .minus, mark .leftParen, name "d", mark .rightParen,
    mark .semicolon]

theorem parse_eq_ok_iff_nested :
    Program Closed (Sample.nested ++ [⟨.endOfFile, "", {}⟩])
      [.conditional {} (.var {} "a")
        (.conditional {} (.var {} "b")
          (.print {} .nothing (some (.binary {} .minus
            (.binary {} .minus (Sample.number 8) (Sample.number 4)) (Sample.number 2))))
          (some (.assign {} "c" {} (.unary {} .minus (.var {} "d")))))
        none] := by
  have hbody : ∀ token ∈ Sample.nested, token.kind ≠ .endOfFile := by decide
  have hwritten : Parser.WellWritten Sample.nested := by
    have hnumerals : ∀ token ∈ Sample.nested, token.kind = .integerLiteral →
        token.text.toList ≠ [] ∧ token.text.toList.all Char.isDigit ∧
          Numeral.value token.text.toList ≤ 2147483647 := by decide
    exact fun token htoken hkind ↦
      let ⟨hne, hdigits, hfits⟩ := hnumerals token htoken hkind
      ⟨hne, List.all_eq_true.1 hdigits, hfits⟩
  exact ((parse_eq_ok_iff rfl hbody hwritten).1 _).1 (by cbv)

end ScalarMips
