import ScalarMips.Proofs.StatementRefusals
import ScalarMips.Proofs.ProgramReading

/-!
# The first impossible token

The parser blames the first token behind which no program goes on (`parse_eq_error_first`). What
stands before that token begins some program: it can be completed by tokens of the grammar, and
these end no file and number only with words (`proper_of_declarations`). With the token itself it
begins none, since the parser refuses it whatever stands behind (`program_halts`).
-/

namespace ScalarMips

open Grammar

/-! ### The tokens of the grammar -/

namespace Grammar

variable {before : Stmt → Prop}

/-- A token that can stand before the end of the file. -/
structure Proper (token : Token) : Prop where
  /-- It does not end the file. -/
  inside : token.kind ≠ .endOfFile
  /-- If it is a number, it is one that fits. -/
  numeral : token.kind = .integerLiteral → IsNumeral token

theorem Proper.of_mark {token : Token} {mark : Mark} (h : token.kind = .mark mark) :
    Proper token :=
  ⟨by rw [h]; nofun, by rw [h]; nofun⟩

theorem Proper.of_keyword {token : Token} {word : Keyword} (h : token.kind = .keyword word) :
    Proper token :=
  ⟨by rw [h]; nofun, by rw [h]; nofun⟩

theorem Proper.of_identifier {token : Token} (h : token.kind = .identifier) : Proper token :=
  ⟨by rw [h]; nofun, by rw [h]; nofun⟩

/-- All of some tokens can stand before the end of the file. -/
def AllProper (ts : List Token) : Prop :=
  ∀ token ∈ ts, Proper token

theorem AllProper.nil : AllProper [] :=
  List.forall_mem_nil _

theorem AllProper.cons {token : Token} {ts : List Token} (h : Proper token) (hts : AllProper ts) :
    AllProper (token :: ts) :=
  List.forall_mem_cons.2 ⟨h, hts⟩

theorem AllProper.append {first second : List Token} (h : AllProper first)
    (h' : AllProper second) : AllProper (first ++ second) :=
  List.forall_mem_append.2 ⟨h, h'⟩

/-- Tokens with a mark behind them. -/
theorem AllProper.before_mark {ts : List Token} {token : Token} {mark : Mark} (h : AllProper ts)
    (hmark : token.kind = .mark mark) : AllProper (ts ++ [token]) :=
  h.append (.cons (.of_mark hmark) .nil)

mutual

theorem proper_of_expression : ∀ {t : Tier} {ts : List Token} {e : Expr}, Expression t ts e →
    AllProper ts
  | _, _, _, .operand _ he => proper_of_expression he
  | _, _, _, .binary _ hleft hmark _ hright =>
    (proper_of_expression hleft).append (.cons (.of_mark hmark) (proper_of_expression hright))
  | _, _, _, .unary hmark _ he => .cons (.of_mark hmark) (proper_of_expression he)
  | _, _, _, .number hkind hnumeral => .cons ⟨by rw [hkind]; nofun, fun _ ↦ hnumeral⟩ .nil
  | _, _, _, .truth hkind => .cons (.of_keyword hkind) .nil
  | _, _, _, .falsity hkind => .cons (.of_keyword hkind) .nil
  | _, _, _, .name hkind => .cons (.of_identifier hkind) .nil
  | _, _, _, .plainCall hname hopening hclosing =>
    .cons (.of_identifier hname) (.cons (.of_mark hopening) (AllProper.nil.before_mark hclosing))
  | _, _, _, .call hname hopening hes hclosing =>
    .cons (.of_identifier hname)
      (.cons (.of_mark hopening) ((proper_of_arguments hes).before_mark hclosing))
  | _, _, _, .group hopening he hclosing =>
    .cons (.of_mark hopening) ((proper_of_expression he).before_mark hclosing)

theorem proper_of_arguments : ∀ {ts : List Token} {es : List Expr}, Arguments ts es → AllProper ts
  | _, _, .last he => proper_of_expression he
  | _, _, .more he hcomma hes =>
    (proper_of_expression he).append (.cons (.of_mark hcomma) (proper_of_arguments hes))

end

theorem proper_of_declares {ts : List Token} {d : Declarator} (h : Declares ts d) :
    AllProper ts := by
  cases h with
  | mk hkeyword _ hname => exact .cons (.of_keyword hkeyword) (.cons (.of_identifier hname) .nil)

theorem proper_of_parameters {ts : List Token} {ds : List Declarator}
    (h : Optional Parameters ts ds) : AllProper ts := by
  rcases h with ⟨rfl, -⟩ | h
  · exact .nil
  · induction h with
    | last hd => exact proper_of_declares hd
    | more hd hcomma _ ih => exact (proper_of_declares hd).append (.cons (.of_mark hcomma) ih)

theorem proper_of_condition {ts : List Token} {e : Expr} (h : Condition ts e) : AllProper ts := by
  cases h with
  | mk hopening he hclosing =>
    exact .cons (.of_mark hopening) ((proper_of_expression he).before_mark hclosing)

mutual

theorem proper_of_statement : ∀ {ts : List Token} {s : Stmt}, Statement before ts s → AllProper ts
  | _, _, .var hd hclosing => (proper_of_declares hd).before_mark hclosing
  | _, _, .initialized hd hequals he hclosing =>
    (proper_of_declares hd).append
      (.cons (.of_mark hequals) ((proper_of_expression he).before_mark hclosing))
  | _, _, .block hopening hbody hclosing =>
    .cons (.of_mark hopening) ((proper_of_statements hbody).before_mark hclosing)
  | _, _, .ifThen hkeyword htest hs =>
    .cons (.of_keyword hkeyword) ((proper_of_condition htest).append (proper_of_statement hs))
  | _, _, .ifElse hkeyword htest hs _ hotherwise hs' =>
    .cons (.of_keyword hkeyword) ((proper_of_condition htest).append
      ((proper_of_statement hs).append (.cons (.of_keyword hotherwise) (proper_of_statement hs'))))
  | _, _, .loop hkeyword htest hs =>
    .cons (.of_keyword hkeyword) ((proper_of_condition htest).append (proper_of_statement hs))
  | _, _, .return_ hkeyword he hclosing =>
    .cons (.of_keyword hkeyword) ((proper_of_expression he).before_mark hclosing)
  | _, _, .print hkeyword _ he hclosing =>
    .cons (.of_keyword hkeyword) ((proper_of_expression he).before_mark hclosing)
  | _, _, .separator hkeyword _ _ hclosing =>
    .cons (.of_keyword hkeyword) (AllProper.nil.before_mark hclosing)
  | _, _, .assign hname hequals he hclosing =>
    .cons (.of_identifier hname)
      (.cons (.of_mark hequals) ((proper_of_expression he).before_mark hclosing))
  | _, _, .evaluate he hclosing => (proper_of_expression he).before_mark hclosing

theorem proper_of_statements : ∀ {ts : List Token} {ss : List Stmt}, Statements before ts ss →
    AllProper ts
  | _, _, .nil => .nil
  | _, _, .cons hs hss => (proper_of_statement hs).append (proper_of_statements hss)

end

theorem proper_of_declaration {ts : List Token} {s : Stmt} (h : Declaration before ts s) :
    AllProper ts := by
  cases h with
  | function hkeyword hfirst _ hname hopening hds hclosing hbrace hss hlast =>
    have hbody := (proper_of_statements hss).before_mark hlast
    have hparameters := (proper_of_parameters hds).append
      (.cons (.of_mark hclosing) (.cons (.of_mark hbrace) hbody))
    exact .cons (.of_keyword hkeyword) (.cons (.of_keyword hfirst)
      (.cons (.of_identifier hname) (.cons (.of_mark hopening) hparameters)))
  | statement h => exact proper_of_statement h

theorem proper_of_declarations {ts : List Token} {ss : List Stmt}
    (h : Declarations before ts ss) : AllProper ts := by
  induction h with
  | nil => exact .nil
  | cons hs _ ih => exact (proper_of_declaration hs).append ih

end Grammar

/-! ### Functions and programs -/

namespace Parser

variable {input rest : List Token} {r : Refusal}

theorem function_halts {keyword : Token} {tail : List Token} (hkind : keyword.kind = .keyword .fun_)
    (hinput : WellWritten (keyword :: tail)) (h : function keyword tail = .error r) :
    Halts (FailsAfter keyword (function keyword) r) InDeclaration (keyword :: tail) r := by
  rcases bind_eq_error.1 h with h | ⟨type, htype, h⟩
  · refine (scalarType_halts h).after [keyword] rfl ?_
      fun mid' _ hfails ↦ ⟨mid', rfl, error_bind hfails⟩
    rintro _ rfl
    exact inDeclaration_keyword hkind
  obtain ⟨first, word, htail, hfirst, hword⟩ := reads_scalarType.1 ⟨type, htype, rfl, rfl⟩
  rcases bind_eq_error.1 h with h | ⟨name, hname, h⟩
  · refine (expect_halts h).after [keyword, first] (congrArg (keyword :: ·) htail) ?_
      fun mid' _ hfails ↦ ⟨first :: mid', rfl, ?_⟩
    · rintro _ rfl
      exact inDeclaration_type hkind hfirst hword
    · exact (reads_scalarType.2 ⟨first, word, rfl, hfirst, hword⟩).error
        fun q _ hq ↦ error_bind (by rwa [hq])
  obtain ⟨hnameRest, hnameKind⟩ := (reads_expect _).1 ⟨name, hname, rfl, rfl⟩
  have hnameTokens := htail.trans (congrArg (first :: ·) hnameRest)
  rcases bind_eq_error.1 h with h | ⟨opening, hopening, h⟩
  · refine (expect_halts h).after [keyword, first, name.value]
      (congrArg (keyword :: ·) hnameTokens) ?_
      fun mid' _ hfails ↦ ⟨first :: name.value :: mid', rfl, ?_⟩
    · rintro _ rfl
      exact inDeclaration_name hkind hfirst hword hnameKind
    · refine (reads_scalarType.2 ⟨first, word, rfl, hfirst, hword⟩).error fun q _ hq ↦ ?_
      exact ((reads_expect _).2 ⟨hq, hnameKind⟩).error fun q _ hq ↦ error_bind (by rwa [hq])
  obtain ⟨hopeningRest, hopeningKind⟩ := (reads_expect _).1 ⟨opening, hopening, rfl, rfl⟩
  have hopeningTokens := hnameTokens.trans (congrArg (first :: name.value :: ·) hopeningRest)
  rcases bind_eq_error.1 h with h | ⟨parameters, hparameters, h⟩
  · refine (parameters_halts h).after [keyword, first, name.value, opening.value]
      (congrArg (keyword :: ·) hopeningTokens)
      (fun _ ↦ InParameters.function hkind hfirst hword hnameKind hopeningKind)
      fun mid' _ hfails ↦ ⟨first :: name.value :: opening.value :: mid', rfl, ?_⟩
    refine (reads_scalarType.2 ⟨first, word, rfl, hfirst, hword⟩).error fun q _ hq ↦ ?_
    refine ((reads_expect _).2 ⟨hq, hnameKind⟩).error fun q _ hq ↦ ?_
    exact ((reads_expect _).2 ⟨hq, hopeningKind⟩).error fun q _ hq ↦ error_bind (by rwa [hq])
  obtain ⟨_, hts, ts, rfl, hds, hclosing⟩ := parameters_sound hparameters
  have hheader : keyword :: tail = keyword :: first :: name.value :: opening.value ::
      (ts ++ [parameters.value.2]) ++ parameters.rest :=
    congrArg (keyword :: ·)
      (hopeningTokens.trans (congrArg (first :: name.value :: opening.value :: ·) hts))
  rcases bind_eq_error.1 h with h | ⟨brace, hbrace, h⟩
  · refine (expect_halts h).after _ hheader ?_ fun mid' _ hfails ↦ ⟨first :: name.value ::
      opening.value :: (ts ++ parameters.value.2 :: mid'), by simp, ?_⟩
    · rintro _ rfl
      rw [List.append_nil]
      exact inDeclaration_parameters hkind hfirst hword hnameKind hopeningKind hds hclosing
    · refine (reads_scalarType.2 ⟨first, word, rfl, hfirst, hword⟩).error fun q _ hq ↦ ?_
      refine ((reads_expect _).2 ⟨hq, hnameKind⟩).error fun q _ hq ↦ ?_
      refine ((reads_expect _).2 ⟨hq, hopeningKind⟩).error fun q _ hq ↦ ?_
      exact (parameters_complete hds hclosing hq).error fun q _ hq ↦ error_bind (by rwa [hq])
  obtain ⟨hbraceRest, hbraceKind⟩ := (reads_expect _).1 ⟨brace, hbrace, rfl, rfl⟩
  have hbraceTokens : parameters.rest = [brace.value] ++ brace.rest := hbraceRest
  have hbody := consumed_append hheader hbraceTokens
  rcases bind_eq_error.1 h with h | ⟨body, -, h⟩
  · have hwritten : WellWritten brace.rest := by
      rw [hbody] at hinput
      exact hinput.right
    refine (stmt_halts.statements .closeBody brace.rest hwritten r h).after _ hbody (fun us hus ↦ ?_)
      fun mid' _ hfails ↦ ⟨first :: name.value :: opening.value ::
        (ts ++ parameters.value.2 :: brace.value :: mid'), by simp, ?_⟩
    · simpa using InStatements.function hkind hfirst hword hnameKind hopeningKind hds hclosing
        hbraceKind hus
    · refine (reads_scalarType.2 ⟨first, word, rfl, hfirst, hword⟩).error fun q _ hq ↦ ?_
      refine ((reads_expect _).2 ⟨hq, hnameKind⟩).error fun q _ hq ↦ ?_
      refine ((reads_expect _).2 ⟨hq, hopeningKind⟩).error fun q _ hq ↦ ?_
      refine (parameters_complete hds hclosing hq).error fun q _ hq ↦ ?_
      exact ((reads_expect _).2 ⟨hq, hbraceKind⟩).error fun q _ hq ↦ error_bind (by rwa [hq])
  · cases h

theorem declaration_halts {first : Token} {tail : List Token} (hinput : WellWritten (first :: tail))
    (h : declaration first tail = .error r) :
    Halts (FailsAfter first (declaration first) r) InDeclaration (first :: tail) r := by
  by_cases hkind : first.kind = .keyword .fun_
  · have hread : declaration first = function first := by
      funext tail
      exact if_pos hkind
    rw [hread] at h ⊢
    exact function_halts hkind hinput h
  · have hread : ∀ tail, declaration first tail = statement (first :: tail) :=
      fun _ ↦ if_neg hkind
    rw [hread] at h
    refine (stmt_halts.statement _ hinput r h).mono (fun _ ↦ InStatement.declaration)
      fun input' hhead hfails ↦ ?_
    obtain ⟨tail', rfl⟩ := List.head?_eq_some_iff.1 hhead
    exact ⟨tail', rfl, (hread tail').trans hfails⟩

/-- What has been read at the top level is read again where the next token is the same. -/
theorem declaration_repeats {first : Token} {tail : List Token}
    (hinput : WellWritten (first :: tail)) {p : Parsed Stmt (first :: tail)}
    (h : declaration first tail = .ok p) : ∃ ts, tail = ts ++ p.rest ∧
      Declaration Anything (first :: ts) p.value ∧ ∀ rest' : List Token,
        rest'.head? = p.rest.head? → Reads (declaration first (ts ++ rest')) p.value rest' := by
  by_cases hkind : first.kind = .keyword .fun_
  · obtain ⟨_, hts, hs⟩ := declaration_sound hinput h
    have hwhole := hs.anything
    generalize p.value = s at hs hwhole ⊢
    cases hs with
    | function _ hword htype hname hopening hds hclosing hbrace hss hlast =>
      obtain ⟨rfl, htail⟩ := List.cons.inj hts
      refine ⟨_, htail, hwhole, fun rest' _ ↦ ?_⟩
      rw [declaration, if_pos hkind]
      exact function_complete hword htype hname hopening hds hclosing hbrace hss hlast (by simp)
    | statement hs =>
      obtain ⟨token, ts, rfl, htoken⟩ := head_statement hs
      obtain ⟨rfl, -⟩ := List.cons.inj hts
      exact absurd hkind fun heq ↦ htoken (by rw [heq]; decide)
  · have hread : ∀ tail, declaration first tail = statement (first :: tail) :=
      fun _ ↦ if_neg hkind
    rw [hread] at h
    obtain ⟨ts, hts, hs, hagain⟩ := statement_repeats hinput h
    obtain ⟨token, ts, rfl, -⟩ := head_statement hs
    obtain ⟨rfl, htail⟩ := List.cons.inj hts
    refine ⟨ts, htail, .statement hs, fun rest' hhead ↦ ?_⟩
    rw [hread]
    exact hagain rest' hhead

/-- Reading a program stops at a token that is refused whatever stands behind it. -/
theorem program_halts (input : List Token) : WellWritten input → ∀ r, program input = .error r →
    Halts (program · = .error r) InProgram input r := by
  induction input using program.induct with
  | case1 =>
    intro _ r h
    rw [program] at h
    cases h
  | case2 first tail ih =>
    intro hinput r h
    rw [program] at h
    rcases bind_eq_error.1 h with h | ⟨head, hhead, h⟩
    · refine (declaration_halts hinput h).mono (fun _ ↦ InDeclaration.program)
        fun input' _ hfails ↦ ?_
      obtain ⟨tail', rfl, hfails⟩ := hfails
      rw [program]
      exact error_bind hfails
    · obtain ⟨ts, hts, hs, hagain⟩ := declaration_repeats hinput hhead
      have hwhole : first :: tail = first :: ts ++ head.rest := congrArg (first :: ·) hts
      rw [hwhole] at hinput
      rcases bind_eq_error.1 h with h | ⟨more, -, h⟩
      · refine (ih head hinput.right r h).after (first :: ts) hwhole (fun _ ↦ InProgram.cons hs)
          fun mid' hsame hfails ↦ ?_
        rw [List.cons_append, program]
        exact (hagain mid' hsame).error fun q _ hq ↦ error_bind (by rwa [hq])
      · cases h

end Parser

/-! ### The first impossible token -/

/-- Where parsing fails, the reader of programs refuses the tokens before the end of the file. -/
theorem exists_refusal {body : List Token} {last : Token} {fault : Located ParseFault}
    (hlast : last.kind = .endOfFile) (hbody : ∀ token ∈ body, token.kind ≠ .endOfFile)
    (h : parse (body ++ [last]) = .error fault) :
    ∃ r, Parser.program body = .error r ∧ fault.span = r.span.getD last.span := by
  rw [parse_append hlast hbody] at h
  cases hprogram : Parser.program body with
  | ok program =>
    rw [hprogram] at h
    cases h
  | error r =>
    rw [hprogram] at h
    cases h
    exact ⟨r, rfl, rfl⟩

/-- Some token list that the parser accepts begins with these tokens. Its only end of the file is
its last token, and its numbers are words. -/
def Viable (ts : List Token) : Prop :=
  ∃ body last program, last.kind = .endOfFile ∧ (∀ token ∈ body, token.kind ≠ .endOfFile) ∧
    Parser.WellWritten body ∧ parse (body ++ [last]) = .ok program ∧ ts <+: body ++ [last]

theorem Viable.shorten {ts ts' : List Token} (h : Viable ts') (hts : ts <+: ts') :
    Viable ts := by
  obtain ⟨body, last, program, hlast, hbody, hwritten, hparse, hprefix⟩ := h
  exact ⟨body, last, program, hlast, hbody, hwritten, hparse, hts.trans hprefix⟩

/-- What can be completed begins a token list that is accepted. -/
theorem viable_of_inProgram {ts : List Token} {last : Token} (hlast : last.kind = .endOfFile)
    (h : InProgram ts) : Viable ts := by
  obtain ⟨tail, ss, h⟩ := h
  have hproper := proper_of_declarations h
  obtain ⟨program, hprogram⟩ := h.nearest
  have hbody : ∀ token ∈ ts ++ tail, token.kind ≠ .endOfFile :=
    fun token htoken ↦ (hproper token htoken).inside
  refine ⟨ts ++ tail, last, program, hlast, hbody,
    fun token htoken ↦ (hproper token htoken).numeral,
    (parse_append_eq_ok hlast hbody).2 (Parser.program_complete hprogram), ?_⟩
  rw [List.append_assoc]
  exact List.prefix_append ..

/-- What is left of a program, by the token that comes next. -/
theorem head?_eq_ite {rest : List Token} {last token : Token} (hlast : last.kind = .endOfFile)
    (hrest : ∀ token ∈ rest, token.kind ≠ .endOfFile) (h : (rest ++ [last]).head? = some token) :
    rest.head? = if token.kind = .endOfFile then none else some token := by
  cases rest with
  | nil =>
    cases h
    exact (if_pos hlast).symm
  | cons first tail =>
    cases h
    exact (if_neg (hrest token List.mem_cons_self)).symm

/-- Tokens up to one that is refused whatever stands behind it begin no token list that is
accepted. -/
theorem not_viable_of_fails {ts rest : List Token} {last token : Token} {r : Parser.Refusal}
    (hlast : last.kind = .endOfFile) (hrest : ∀ token ∈ rest, token.kind ≠ .endOfFile)
    (htoken : (rest ++ [last]).head? = some token)
    (hfails : ∀ rest' : List Token, rest'.head? = rest.head? →
      Parser.program (ts ++ rest') = .error r) : ¬ Viable (ts ++ [token]) := by
  rintro ⟨body, last', program, hlast', hbody, -, hparse, more, hmore⟩
  have hok : Parser.program body = .ok program := (parse_append_eq_ok hlast' hbody).1 hparse
  rw [head?_eq_ite hlast hrest htoken] at hfails
  rcases List.eq_nil_or_concat more with rfl | ⟨more, final, rfl⟩
  · -- The token ends the other list.
    rw [List.append_nil] at hmore
    obtain ⟨rfl, heq⟩ := List.append_inj' hmore rfl
    obtain rfl := List.singleton_inj.1 heq
    have herror := hfails [] (if_pos hlast').symm
    rw [List.append_nil] at herror
    cases herror.symm.trans hok
  · -- The token stands inside the other list.
    rw [List.concat_eq_append, ← List.append_assoc, List.append_assoc ts] at hmore
    obtain ⟨rfl, -⟩ := List.append_inj' hmore rfl
    have hinside : token.kind ≠ .endOfFile := hbody token (by simp)
    have herror := hfails (token :: more) (if_neg hinside).symm
    cases herror.symm.trans hok

/-- Where parsing fails, the fault is at the first token with which the tokens up to it begin no
token list that the parser accepts. -/
theorem parse_eq_error_first {body : List Token} {last : Token} {fault : Located ParseFault}
    (hlast : last.kind = .endOfFile) (hbody : ∀ token ∈ body, token.kind ≠ .endOfFile)
    (hwritten : Parser.WellWritten body) (h : parse (body ++ [last]) = .error fault) :
    ∃ k token, (body ++ [last])[k]? = some token ∧ fault.span = token.span ∧
      IsLeast {k | ¬ Viable ((body ++ [last]).take (k + 1))} k := by
  obtain ⟨r, hr, hspan⟩ := exists_refusal hlast hbody h
  obtain ⟨ts, rest, rfl, hrspan, hviable, hfails⟩ := Parser.program_halts body hwritten r hr
  obtain ⟨token, tail, htail⟩ : ∃ token tail, rest ++ [last] = token :: tail :=
    List.exists_cons_of_ne_nil (by simp)
  have hrest : ∀ token ∈ rest, token.kind ≠ .endOfFile :=
    fun token htoken ↦ hbody token (List.mem_append_right _ htoken)
  have htake : ∀ n ≤ ts.length, (ts ++ (token :: tail)).take n <+: ts := by
    intro n hn
    rw [List.take_append_of_le_length hn]
    exact List.take_prefix n ts
  refine ⟨ts.length, token, ?_, ?_, ?_, fun k hk ↦ ?_⟩
  · rw [List.append_assoc, htail, List.getElem?_append_right (Nat.le_refl _), Nat.sub_self]
    rfl
  · rw [hspan, hrspan]
    cases rest with
    | nil =>
      cases htail
      rfl
    | cons first rest =>
      cases htail
      rfl
  · show ¬ Viable _
    have hupTo : (ts ++ rest ++ [last]).take (ts.length + 1) = ts ++ [token] := by
      rw [List.append_assoc, htail, List.take_append, List.take_of_length_le (Nat.le_succ _)]
      simp
    rw [hupTo]
    exact not_viable_of_fails hlast hrest (by rw [htail]; rfl) hfails
  · -- What comes before the token can be completed.
    by_contra hlt
    rw [List.append_assoc, htail] at hk
    exact hk ((viable_of_inProgram hlast hviable).shorten (htake _ (Nat.lt_of_not_le hlt)))

/-- The tokens of `x = y = 1;`, up to the end of the file. Only the second `=` has its place. -/
def Sample.twiceAssigned : List Token :=
  [name "x", mark .equals, name "y", { mark .equals with span := ⟨⟨1, 7⟩, ⟨1, 8⟩⟩ }, digits "1",
    mark .semicolon]

theorem parse_eq_error_first_twiceAssigned :
    IsLeast {k | ¬ Viable (List.take (k + 1) (Sample.twiceAssigned ++ [⟨.endOfFile, "", {}⟩]))}
      3 := by
  have hbody : ∀ token ∈ Sample.twiceAssigned, token.kind ≠ .endOfFile := by decide
  have hwritten : Parser.WellWritten Sample.twiceAssigned := by
    have hnumerals : ∀ token ∈ Sample.twiceAssigned, token.kind = .integerLiteral →
        token.text.toList ≠ [] ∧ token.text.toList.all Char.isDigit ∧
          Numeral.value token.text.toList ≤ 2147483647 := by decide
    exact fun token htoken hkind ↦
      let ⟨hne, hdigits, hfits⟩ := hnumerals token htoken hkind
      ⟨hne, List.all_eq_true.1 hdigits, hfits⟩
  have hparse : parse (Sample.twiceAssigned ++ [⟨.endOfFile, "", {}⟩]) =
      .error ⟨⟨⟨1, 7⟩, ⟨1, 8⟩⟩, .unexpected (.semicolon .assignment) (some "=")⟩ := by cbv
  obtain ⟨k, token, htoken, hspan, hleast⟩ := parse_eq_error_first rfl hbody hwritten hparse
  -- No other token has the span of the fault.
  have hk : k < 7 := (List.getElem?_eq_some_iff.1 htoken).1
  interval_cases k <;> first | exact hleast | (cases htoken; cases hspan)

end ScalarMips
