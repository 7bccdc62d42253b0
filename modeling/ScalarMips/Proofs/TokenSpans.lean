import ScalarMips.Proofs.Lexemes
import ScalarMips.Proofs.Positions

/-!
# Spans of tokens

A token is quoted where it stands: its span lies on one line, and the characters of that line under
the span are the text of the token (`lex_quotes`). The line is one of those that reports quote,
which are cut off the source without regard to tokens and comments.

The lexer moves its location along with the text. `Stands` says so of a whole list of tokens: each
of them has the locations of the text before it and of the text up to its end. What the theorem says
of lines and columns is then said of positions in the text (`Source.textUnder_word`).
-/

namespace ScalarMips

open Source

namespace Lexer

/-! ### Where tokens stand -/

/-- The tokens of a text, or the first of them, that stand behind a part `front` of it. Each has the
locations at which its text begins and ends. -/
inductive Stands (text : List Char) : List Char → List Token → Prop where
  | nil {front : List Char} : Stands text front []
  | last {front gap : List Char} : front ++ gap = text →
      Stands text front [⟨.endOfFile, "", location text, location text⟩]
  | cons {front gap word : List Char} {kind : TokenKind} {ts : List Token} :
      front ++ gap ++ word <+: text → Spells kind word → Stands text (front ++ gap ++ word) ts →
      Stands text front
        (⟨kind, String.ofList word, location (front ++ gap), location (front ++ gap ++ word)⟩ :: ts)

/-- Text in front of the first token. -/
theorem Stands.behind {text front gap : List Char} {ts : List Token}
    (h : Stands text (front ++ gap) ts) : Stands text front ts := by
  generalize hfront : front ++ gap = start at h
  cases h with
  | nil => exact .nil
  | last htext =>
    subst hfront
    rw [List.append_assoc] at htext
    exact .last htext
  | cons hword hspells hts =>
    subst hfront
    rw [List.append_assoc front] at hword hts ⊢
    exact .cons hword hspells hts

/-- The lexer gives the tokens the locations at which they stand. -/
theorem stands_place {text rest : List Char} (front : List Char) (htext : front ++ rest = text) :
    Stands text front (Piece.place (location front) (Piece.cut rest)).tokens := by
  fun_induction Piece.cut rest generalizing front with
  | case1 =>
    rw [List.append_nil] at htext
    subst htext
    exact .last (List.append_nil front)
  | case2 => exact .nil
  | case3 c rest hfault ih =>
    have hfits := scan_fits c rest
    rw [← scan_text_append c rest, ← List.append_assoc] at htext
    cases hpiece : (scan c rest).1 with
    | fault cause word => exact absurd hpiece (hfault cause word)
    | gap gap =>
      rw [hpiece] at htext
      have hstands := ih (front ++ gap) htext
      rw [location_append] at hstands
      exact hstands.behind
    | lexeme kind word =>
      rw [hpiece] at htext hfits
      have hstands := ih (front ++ word) htext
      have hwhole : Stands text front (⟨kind, String.ofList word, location (front ++ []),
          location (front ++ [] ++ word)⟩ :: _) :=
        .cons (by rw [List.append_nil]; exact ⟨_, htext⟩) hfits.spells
          (by rw [List.append_nil]; exact hstands)
      rwa [List.append_nil, location_append] at hwhole

theorem stands_lex (source : String) : Stands source.toList [] (lex source).tokens :=
  stands_place [] rfl

/-! ### Tokens without line ends -/

theorem Spells.ne_nil {kind : TokenKind} {word : List Char} (h : Spells kind word) : word ≠ [] := by
  cases h with
  | identifier => exact List.cons_ne_nil _ _
  | number hne => exact hne
  | keyword keyword => cases keyword <;> decide
  | mark mark => cases mark <;> decide

/-- There is no line end in a token. -/
theorem Spells.notMem_lineEnd {kind : TokenKind} {word : List Char} (h : Spells kind word) :
    '\n' ∉ word ∧ '\r' ∉ word := by
  cases h with
  | @identifier c word hstart hparts =>
    have hall : ∀ d ∈ c :: word, isWordPart d :=
      List.forall_mem_cons.2 ⟨isWordPart_of_isWordStart hstart, hparts⟩
    exact ⟨fun hmem ↦ absurd (hall _ hmem) (by decide),
      fun hmem ↦ absurd (hall _ hmem) (by decide)⟩
  | number _ hdigits =>
    exact ⟨fun hmem ↦ absurd (hdigits _ hmem) (by decide),
      fun hmem ↦ absurd (hdigits _ hmem) (by decide)⟩
  | keyword keyword => cases keyword <;> decide
  | mark mark => cases mark <;> decide

/-- A token ends as many columns behind its start as its text has characters. -/
theorem Stands.stop_eq {text front : List Char} {ts : List Token} (h : Stands text front ts) :
    ∀ token ∈ ts, token.span.stop =
      ⟨token.span.start.line, token.span.start.column + UInt32.ofNat token.text.length⟩ := by
  induction h with
  | nil => exact fun token htoken ↦ absurd htoken List.not_mem_nil
  | last => exact List.forall_mem_singleton.2 (congrArg (Location.mk _) (UInt32.add_zero _).symm)
  | @cons front gap word kind ts _ hspells _ ih =>
    refine List.forall_mem_cons.2 ⟨?_, ih⟩
    rw [String.length_ofList]
    exact location_append_of_notMem hspells.notMem_lineEnd.1 (front ++ gap)

/-- Tokens are spelled as their kinds say. -/
theorem Stands.spells {text front : List Char} {ts : List Token} (h : Stands text front ts) :
    ∀ token ∈ ts, token.kind ≠ .endOfFile → Spells token.kind token.text.toList := by
  induction h with
  | nil => exact fun token htoken ↦ absurd htoken List.not_mem_nil
  | last => exact List.forall_mem_singleton.2 fun hkind ↦ absurd rfl hkind
  | cons _ hspells _ ih =>
    exact List.forall_mem_cons.2 ⟨fun _ ↦ by rwa [String.toList_ofList], ih⟩

end Lexer

/-! ### Lines and columns -/

/-- The span of a token is where its text stands among the lines of the source. Lines and columns
count from one in words of 32 bits. -/
structure Token.Quoted (lines : List String) (token : Token) : Prop where
  /-- The token ends on the line on which it begins. -/
  oneLine : token.span.stop.line = token.span.start.line
  /-- Lines count from one. -/
  line_pos : 0 < token.span.start.line.toNat
  /-- The line is one of the lines of the source. -/
  line_le : token.span.start.line.toNat ≤ lines.length
  /-- The columns are as far apart as the text is long. -/
  width : (token.span.stop.column - token.span.start.column).toNat = token.text.length
  /-- The characters from the first column up to the one before the last are the text. -/
  textUnder : textUnder lines token.span = some token.text

/-- The end of one span is not behind the start of another. -/
def Span.Precedes (s t : Span) : Prop :=
  s.stop.coordinates ≤ t.start.coordinates

/-- A span that ends behind its start. -/
def Span.Forward (s : Span) : Prop :=
  s.start.coordinates < s.stop.coordinates

namespace Lexer

theorem quoted_of_spells {source : String} {before word : List Char} {kind : TokenKind}
    (hsize : source.length < 2 ^ 32) (hword : before ++ word <+: source.toList)
    (hspells : Spells kind word) :
    Token.Quoted (lines source)
      ⟨kind, String.ofList word, location before, location (before ++ word)⟩ := by
  obtain ⟨hline, hreturn⟩ := hspells.notMem_lineEnd
  obtain ⟨after, hsource⟩ := hword
  rw [List.append_assoc] at hsource
  have hlengths : before.length + (word.length + after.length) < 2 ^ 32 := by
    rwa [← String.length_toList, ← hsource, List.length_append, List.length_append] at hsize
  have hpos : 0 < word.length := List.length_pos_iff.2 hspells.ne_nil
  have hrow := row_le_length before
  have hline' : row before + 1 < 2 ^ 32 := by omega
  have hwidth : word.length < 2 ^ 32 := by omega
  have hstart : (location before).line.toNat = row before + 1 := by
    rw [location_eq, ← UInt32.ofNat_one, ← UInt32.ofNat_add]
    exact UInt32.toNat_ofNat_of_lt' hline'
  obtain ⟨front, back, hfound, -⟩ := exists_lines hspells.ne_nil hline hreturn hsource.symm
  obtain ⟨hlines, -⟩ := List.getElem?_eq_some_iff.1 hfound
  exact
    { oneLine := by
        show (location (before ++ word)).line = (location before).line
        rw [location_append_of_notMem hline]
      line_pos := by
        rw [hstart]
        exact Nat.succ_pos _
      line_le := by
        rw [hstart]
        exact hlines
      width := by
        rw [location_append_of_notMem hline, UInt32.add_comm, UInt32.add_sub_cancel,
          UInt32.toNat_ofNat_of_lt' hwidth, String.length_ofList]
      textUnder := textUnder_word hspells.ne_nil hline hreturn hsource.symm hsize }

theorem Stands.quoted {source : String} (hsize : source.length < 2 ^ 32) {front : List Char}
    {ts : List Token} (h : Stands source.toList front ts) :
    ∀ token ∈ ts, token.kind ≠ .endOfFile → token.Quoted (lines source) := by
  induction h with
  | nil => exact fun token htoken ↦ absurd htoken List.not_mem_nil
  | last => exact List.forall_mem_singleton.2 fun hkind ↦ absurd rfl hkind
  | cons hword hspells _ ih =>
    exact List.forall_mem_cons.2 ⟨fun _ ↦ quoted_of_spells hsize hword hspells, ih⟩

/-! ### The order of tokens -/

/-- No token begins before the text in front of it ends. -/
theorem Stands.le_start {text front : List Char} (hsize : text.length < 2 ^ 32) {ts : List Token}
    (h : Stands text front ts) :
    ∀ token ∈ ts, (location front).coordinates ≤ token.span.start.coordinates := by
  induction h with
  | nil => exact fun token htoken ↦ absurd htoken List.not_mem_nil
  | last htext =>
    subst htext
    exact List.forall_mem_singleton.2 (coordinates_location_le hsize)
  | @cons front gap word kind ts hword _ _ ih =>
    have hlength := hword.length_le.trans_lt hsize
    have hgap : (front ++ gap).length < 2 ^ 32 := by
      rw [List.length_append] at hlength
      omega
    refine List.forall_mem_cons.2 ⟨coordinates_location_le hgap, fun token htoken ↦ ?_⟩
    refine (coordinates_location_le hgap).trans ((coordinates_location_le hlength).trans ?_)
    exact ih token htoken

/-- Tokens in the order of the text: each but the end of the file ends behind its start, and before
the next one begins. -/
def Ordered (ts : List Token) : Prop :=
  (∀ token ∈ ts, token.kind ≠ .endOfFile → token.span.Forward) ∧
    ts.Pairwise fun token next ↦ token.span.Forward ∧ token.span.Precedes next.span

theorem Stands.ordered {text front : List Char} (hsize : text.length < 2 ^ 32) {ts : List Token}
    (h : Stands text front ts) : Ordered ts := by
  induction h with
  | nil => exact ⟨fun token htoken ↦ absurd htoken List.not_mem_nil, .nil⟩
  | last =>
    exact ⟨List.forall_mem_singleton.2 fun hkind ↦ absurd rfl hkind, List.pairwise_singleton _ _⟩
  | @cons front gap word kind ts hword hspells hts ih =>
    have hforward : Span.Forward ⟨location (front ++ gap), location (front ++ gap ++ word)⟩ :=
      coordinates_location_lt hspells.ne_nil (hword.length_le.trans_lt hsize)
    exact ⟨List.forall_mem_cons.2 ⟨fun _ ↦ hforward, ih.1⟩,
      .cons (fun next hnext ↦ ⟨hforward, hts.le_start hsize next hnext⟩) ih.2⟩

end Lexer

/-- **Tokens are quoted where they stand.** In a source with fewer than `2 ^ 32` characters, every
token but the end of the file lies on one line, which is a line of the source; its columns are as
far apart as its text is long, and what stands between them on the line is its text. Tokens follow
one another without overlap: each of them ends behind its own start and not behind the start of any
later one. -/
theorem lex_quotes (source : String) (hsize : source.length < 2 ^ 32) :
    (∀ token ∈ (lex source).tokens, token.kind ≠ .endOfFile → token.Quoted (Source.lines source)) ∧
      (lex source).tokens.Pairwise fun token next ↦
        token.span.Forward ∧ token.span.Precedes next.span :=
  ⟨(Lexer.stands_lex source).quoted hsize, ((Lexer.stands_lex source).ordered hsize).2⟩

/-- Two tokens on the second line, behind a comment that has a newline in it and before a line end
of two characters; the last line has no line end. -/
theorem lex_quotes_commented :
    let source := "int/*\n*/ab=\r\n\t7"
    source.length < 2 ^ 32 ∧ Source.lines source = ["int/*", "*/ab=", "\t7"] ∧
      (lex source).tokens.map Token.text = ["int", "ab", "=", "7", ""] ∧
      (∀ token ∈ (lex source).tokens, token.kind ≠ .endOfFile →
        token.Quoted (Source.lines source)) ∧
      (lex source).tokens.Pairwise fun token next ↦
        token.span.Forward ∧ token.span.Precedes next.span :=
  ⟨by decide, by cbv, by cbv, lex_quotes _ (by decide)⟩

end ScalarMips
