import ScalarMips.Proofs.IntegerLiterals

/-!
# Tokens with blanks between them

Lexing undoes the printing of tokens: the texts of the tokens of a source, with blanks between them,
are a text with the same tokens (`lex_spaced`).

What stood around a token in the source has no part in this. Whatever is spelled like a token is
read as that token if a blank or the end of the text follows (`scan_spelled`), because no blank
joins a token, and it keeps its own characters to itself. The rest is an induction on the words.
-/

namespace ScalarMips

namespace Lexer

/-! ### Joined words -/

/-- Words in order, with a run of blanks between any two that follow one another. -/
inductive Spaced : List String → List Char → Prop where
  | nil : Spaced [] []
  | last (word : String) : Spaced [word] word.toList
  | cons {word next : String} {words : List String} {blanks text : List Char} :
      blanks ≠ [] → (∀ c ∈ blanks, isBlank c) → Spaced (next :: words) text →
      Spaced (word :: next :: words) (word.toList ++ (blanks ++ text))

/-- Words joined by single spaces have blanks between them. -/
theorem spaced_intercalate : ∀ words : List String, Spaced words (" ".intercalate words).toList
  | [] => .nil
  | [word] => by
    simpa [String.toList_intercalate] using Spaced.last word
  | word :: next :: words => by
    have hblanks : ∀ c ∈ [' '], isBlank c := List.forall_mem_singleton.2 rfl
    have hspaced : Spaced (word :: next :: words) (word.toList ++ ([' '] ++ _)) :=
      .cons (List.cons_ne_nil _ _) hblanks (spaced_intercalate (next :: words))
    simpa [String.toList_intercalate, List.intercalate] using hspaced

/-! ### Where a run ends -/

/-- A run of characters of a class ends where the class does. -/
theorem takeWhile_run {p : Char → Bool} {run rest : List Char} (hrun : ∀ d ∈ run, p d)
    (hrest : ∀ d ∈ rest.head?, ¬ p d) :
    (run ++ rest).takeWhile p = run ∧ (run ++ rest).dropWhile p = rest := by
  rw [List.takeWhile_append_of_pos hrun, List.dropWhile_append_of_pos hrun]
  cases rest with
  | nil => exact ⟨List.append_nil run, rfl⟩
  | cons d rest =>
    have hd := hrest d rfl
    rw [List.takeWhile_cons_of_neg hd, List.dropWhile_cons_of_neg hd, List.append_nil]
    exact ⟨rfl, rfl⟩

theorem not_isBlank_of_isWordPart {c : Char} (h : isWordPart c) : ¬ isBlank c := by
  intro hblank
  simp only [isBlank, Bool.or_eq_true, Bool.and_eq_true, decide_eq_true_eq] at hblank
  obtain rfl | ⟨-, hle⟩ := hblank
  · exact absurd h (by decide)
  · have hsmall : c.toNat ≤ 13 := UInt32.le_iff_toNat_le.1 hle
    have hchar : c = Char.ofNat c.toNat := (Char.ofNat_toNat c).symm
    interval_cases c.toNat <;> subst hchar <;> exact absurd h (by decide)

/-- A token does not start with a blank. -/
theorem Spells.not_isBlank {kind : TokenKind} {c : Char} {word : List Char}
    (h : Spells kind (c :: word)) : ¬ isBlank c := by
  rcases h.start with ⟨hstart, -⟩ | ⟨hdigit, -⟩ | ⟨-, -, hblank, -⟩
  · exact not_isBlank_of_isWordPart (isWordPart_of_isWordStart hstart)
  · exact not_isBlank_of_isDigit hdigit
  · rw [hblank]
    exact Bool.false_ne_true

/-! ### Tokens in front of blanks -/

/-- A word in front of a blank or the end of a text is cut off as a whole. -/
theorem scan_word {c : Char} {word rest : List Char} (hstart : isWordStart c)
    (hword : ∀ d ∈ word, isWordPart d) (hrest : ∀ d ∈ rest.head?, isBlank d) :
    scan c (word ++ rest) = (.lexeme (kindOfWord (c :: word)) (c :: word), rest) := by
  have hends : ∀ d ∈ rest.head?, ¬ isWordPart d :=
    fun d hd hpart ↦ not_isBlank_of_isWordPart hpart (hrest d hd)
  obtain ⟨htake, hdrop⟩ := takeWhile_run hword hends
  rw [scan, if_neg (not_isBlank_of_isWordPart (isWordPart_of_isWordStart hstart)), if_pos hstart,
    htake, hdrop]

theorem kindOfWord_keyword (keyword : Keyword) :
    kindOfWord keyword.spelling.toList = .keyword keyword := by
  cases keyword <;> decide +kernel

theorem kindOfWord_of_ne {word : List Char}
    (h : ∀ keyword : Keyword, keyword.spelling.toList ≠ word) : kindOfWord word = .identifier := by
  have hnone : Keyword.ofSpelling? (String.ofList word) = none := by
    refine List.find?_eq_none.2 fun keyword _ hkeyword ↦ h keyword ?_
    rw [of_decide_eq_true hkeyword, String.toList_ofList]
  rw [kindOfWord, hnone]
  rfl

/-- No mark of two characters has a blank in it. -/
theorem ofPair?_of_isBlank (c : Char) {d : Char} (hblank : isBlank d) :
    Mark.ofPair? c d = none := by
  refine List.find?_eq_none.2 fun mark _ hmark ↦ ?_
  have hmark := of_decide_eq_true hmark
  have hd : d ∈ mark.spelling.toList := hmark ▸ List.mem_cons_of_mem _ List.mem_cons_self
  have hall : mark.spelling.toList.all fun e ↦ !isBlank e := by
    cases mark <;> decide +kernel
  have hnot := List.all_eq_true.1 hall d hd
  rw [hblank] at hnot
  cases hnot

/-- A mark in front of a blank or the end of a text is cut off as a whole. -/
theorem scan_mark {mark : Mark} {c : Char} {word rest : List Char}
    (hmark : mark.spelling.toList = c :: word) (hrest : ∀ d ∈ rest.head?, isBlank d) :
    scan c (word ++ rest) = (.lexeme (.mark mark) (c :: word), rest) := by
  have hsingle : single c = .lexeme (.mark mark) [c] → scanMark c rest =
      (.lexeme (.mark mark) [c], rest) := by
    intro hsingle
    cases rest with
    | nil => rw [scanMark, hsingle]
    | cons d rest => rw [scanMark, ofPair?_of_isBlank c (hrest d rfl), hsingle]
  -- The slash alone is looked at for comments first.
  have hslash : scanSlash rest = scanMark '/' rest := by
    cases rest with
    | nil => rfl
    | cons d rest =>
      have hd := hrest d rfl
      unfold scanSlash
      split
      · rename_i heq
        cases heq
        exact absurd hd (by decide)
      · rename_i heq
        cases heq
        exact absurd hd (by decide)
      · rfl
  cases mark <;> cases hmark <;>
    first
    | exact hsingle (by decide +kernel)
    | exact hslash.trans (hsingle (by decide +kernel))
    | rfl

/-- A token in front of a blank or the end of a text is recognised from its own text. -/
theorem scan_spelled {kind : TokenKind} {c : Char} {word rest : List Char}
    (h : Spells kind (c :: word)) (hrest : ∀ d ∈ rest.head?, isBlank d) :
    scan c (word ++ rest) = (.lexeme kind (c :: word), rest) := by
  generalize hwhole : c :: word = whole at h
  cases h with
  | identifier hstart hword hkeywords =>
    cases hwhole
    rw [scan_word hstart hword hrest, kindOfWord_of_ne hkeywords]
  | number _ hdigits hfits =>
    subst hwhole
    have hends : ∀ d ∈ rest.head?, ¬ d.isDigit :=
      fun d hd hdigit ↦ not_isBlank_of_isDigit hdigit (hrest d hd)
    rw [scan_digits hdigits hends, number, if_pos ((Numeral.fits_iff _).2 hfits)]
  | keyword keyword =>
    obtain ⟨hstart, hparts⟩ := keyword_isWord keyword
    rw [← hwhole] at hstart hparts
    have hword := (List.forall_mem_cons.1 (List.all_eq_true.1 hparts)).2
    rw [scan_word hstart hword hrest, hwhole, kindOfWord_keyword]
  | mark mark => exact hwhole ▸ scan_mark hwhole.symm hrest

/-! ### Whole texts -/

/-- Blanks only move the place where the rest begins. -/
theorem place_cut_blanks {blanks rest : List Char} (hne : blanks ≠ [])
    (hblanks : ∀ c ∈ blanks, isBlank c) (hrest : ∀ d ∈ rest.head?, ¬ isBlank d)
    (start : Location) : Piece.place start (Piece.cut (blanks ++ rest)) =
      Piece.place (start.advance blanks) (Piece.cut rest) := by
  obtain ⟨c, blanks, rfl⟩ := List.exists_cons_of_ne_nil hne
  obtain ⟨hc, htail⟩ := List.forall_mem_cons.1 hblanks
  obtain ⟨htake, hdrop⟩ := takeWhile_run htail hrest
  rw [List.cons_append, Piece.cut, scan, if_pos hc, htake, hdrop]
  rfl

/-- A text has no fault and these tokens, wherever it starts. -/
def Reads (text : List Char) (words : List (TokenKind × String)) : Prop :=
  ∀ start, (Piece.place start (Piece.cut text)).fault = none ∧
    (Piece.place start (Piece.cut text)).tokens.map (fun t ↦ (t.kind, t.text)) = words

theorem reads_nil : Reads [] [(.endOfFile, "")] := by
  intro start
  rw [Piece.cut]
  exact ⟨rfl, rfl⟩

theorem Reads.token {kind : TokenKind} {word : String} {rest : List Char}
    {words : List (TokenKind × String)} (hword : Spells kind word.toList)
    (hrest : ∀ d ∈ rest.head?, isBlank d) (h : Reads rest words) :
    Reads (word.toList ++ rest) ((kind, word) :: words) := by
  intro start
  obtain ⟨c, tail, htail⟩ := List.exists_cons_of_ne_nil hword.ne_nil
  rw [htail] at hword ⊢
  obtain ⟨hfault, hwords⟩ := h (start.advance (c :: tail))
  have htext : String.ofList (c :: tail) = word := by rw [← htail, String.ofList_toList]
  rw [List.cons_append, Piece.cut, scan_spelled hword hrest]
  exact ⟨hfault, congrArg₂ List.cons (congrArg (Prod.mk kind) htext) hwords⟩

theorem Reads.blanks {blanks rest : List Char} {words : List (TokenKind × String)}
    (hne : blanks ≠ []) (hblanks : ∀ c ∈ blanks, isBlank c)
    (hrest : ∀ d ∈ rest.head?, ¬ isBlank d) (h : Reads rest words) :
    Reads (blanks ++ rest) words := by
  intro start
  rw [place_cut_blanks hne hblanks hrest]
  exact h (start.advance blanks)

/-- Words of which the first is spelled like a token, or the only one is empty, do not start with a
blank when they are joined. -/
theorem Spaced.not_isBlank {word : String} {words : List String} {text : List Char}
    (h : Spaced (word :: words) text)
    (hword : (∃ kind, Spells kind word.toList) ∨ word = "" ∧ words = []) :
    ∀ d ∈ text.head?, ¬ isBlank d := by
  rcases hword with ⟨kind, hspells⟩ | ⟨rfl, rfl⟩
  · obtain ⟨c, tail, htail⟩ := List.exists_cons_of_ne_nil hspells.ne_nil
    have hc : ¬ isBlank c := (htail ▸ hspells : Spells kind (c :: tail)).not_isBlank
    have hhead : text.head? = some c := by cases h <;> rw [htail] <;> rfl
    rw [hhead]
    rintro d ⟨⟩
    exact hc
  · cases h
    exact fun d hd ↦ absurd hd (Option.not_mem_none d)

/-- Texts of tokens with blanks between them are read as these tokens. The empty text of the end of
the file may be joined on. -/
theorem reads_spaced {ends : List String} (hends : ends = [] ∨ ends = [""]) :
    ∀ {ts : List Token}, (∀ t ∈ ts, Spells t.kind t.text.toList) → ∀ {text : List Char},
      Spaced (ts.map Token.text ++ ends) text →
      Reads text (ts.map (fun t ↦ (t.kind, t.text)) ++ [(.endOfFile, "")])
  | [], _, text, h => by
    have htext : text = [] := by
      rcases hends with rfl | rfl <;> cases h <;> rfl
    subst htext
    exact reads_nil
  | t :: ts, hts, text, h => by
    obtain ⟨ht, hrest⟩ := List.forall_mem_cons.1 hts
    have ih := @reads_spaced ends hends ts hrest
    rw [List.map_cons, List.cons_append] at h
    generalize hwords : ts.map Token.text ++ ends = words at h ih
    cases h with
    | last =>
      obtain ⟨hnil, -⟩ := List.append_eq_nil_iff.1 hwords
      obtain rfl := List.map_eq_nil_iff.1 hnil
      have hread : Reads (t.text.toList ++ []) _ :=
        .token ht (fun d hd ↦ absurd hd (Option.not_mem_none d)) reads_nil
      rwa [List.append_nil] at hread
    | @cons _ next words blanks text hne hblanks hspaced =>
      have hnext : (∃ kind, Spells kind next.toList) ∨ next = "" ∧ words = [] := by
        cases ts with
        | nil =>
          rcases hends with rfl | rfl <;> cases hwords
          exact .inr ⟨rfl, rfl⟩
        | cons t' ts =>
          cases hwords
          exact .inl ⟨_, (List.forall_mem_cons.1 hrest).1⟩
      have hblank : ∀ d ∈ (blanks ++ text).head?, isBlank d := by
        obtain ⟨c, tail, rfl⟩ := List.exists_cons_of_ne_nil hne
        rintro d ⟨⟩
        exact hblanks c List.mem_cons_self
      exact ((ih hspaced).blanks hne hblanks (hspaced.not_isBlank hnext)).token ht hblank

end Lexer

open Lexer

/-- **Lexing undoes the printing of tokens.** If a source lexes without a fault, the texts of its
tokens with any blanks between them, at least one each time, make a text that lexes without a fault
into tokens of the same kinds with the same texts, in the same order. It is all one whether the
empty text of the end of the file is joined on or left out. -/
theorem lex_spaced {source printed : String} (hfault : (lex source).fault = none)
    (hprinted : Spaced ((lex source).tokens.map Token.text) printed.toList ∨
      Spaced ((lex source).tokens.dropLast.map Token.text) printed.toList) :
    (lex printed).fault = none ∧
      (lex printed).tokens.map (fun t ↦ (t.kind, t.text)) =
        (lex source).tokens.map fun t ↦ (t.kind, t.text) := by
  obtain ⟨ts, hkinds, ⟨span, hlex, -⟩ | ⟨fault, rest, hlex, -⟩⟩ := ends_lex source
  · have hstands := (stands_lex source).spells
    rw [hlex] at hprinted hstands ⊢
    have hspells : ∀ t ∈ ts, Spells t.kind t.text.toList :=
      fun t ht ↦ hstands t (List.mem_append_left _ ht) (hkinds t ht)
    rw [List.map_append, List.dropLast_concat] at hprinted
    rw [List.map_append]
    rcases hprinted with hprinted | hprinted
    · exact reads_spaced (.inr rfl) hspells hprinted {}
    · rw [← List.append_nil (ts.map Token.text)] at hprinted
      exact reads_spaced (.inl rfl) hspells hprinted {}
  · rw [hlex] at hfault
    cases hfault

/-- Without their blanks a number and a word stand side by side, a keyword is the start of a longer
one, and a slash is followed by a comment that starts with a star. -/
theorem lex_spaced_crowded :
    let source := "1a<=/ /***/*b&&!=!println"
    let printed := "1 a <= / * b && != ! println"
    (lex source).fault = none ∧
      (Spaced ((lex source).tokens.map Token.text) printed.toList ∨
        Spaced ((lex source).tokens.dropLast.map Token.text) printed.toList) ∧
      (lex printed).fault = none ∧
      (lex printed).tokens.map (fun t ↦ (t.kind, t.text)) =
        (lex source).tokens.map fun t ↦ (t.kind, t.text) := by
  have hfault : (lex "1a<=/ /***/*b&&!=!println").fault = none := by cbv
  have hwords : (lex "1a<=/ /***/*b&&!=!println").tokens.dropLast.map Token.text =
      ["1", "a", "<=", "/", "*", "b", "&&", "!=", "!", "println"] := by cbv
  have hjoined : " ".intercalate ["1", "a", "<=", "/", "*", "b", "&&", "!=", "!", "println"] =
      "1 a <= / * b && != ! println" := by decide +kernel
  have hprinted := spaced_intercalate
    ((lex "1a<=/ /***/*b&&!=!println").tokens.dropLast.map Token.text)
  rw [hwords, hjoined, ← hwords] at hprinted
  exact ⟨hfault, .inr hprinted, lex_spaced hfault (.inr hprinted)⟩

end ScalarMips
