import Mathlib
import ScalarMips.Token.Lexer

/-!
# Gaps and lexemes

Which texts are tokens and which are not, said without a lexer. `Spells` gives the texts of every
kind of token, `Gap` the text that may stand between two tokens, and `Offends` what is neither.
Lexing divides every text into tokens and gaps, up to the first thing that is neither
(`lex_divides`).

A token is read as far as it goes (`Lexeme`). That no longer text at its place is a token does not
say it all: a number is not cut short where it gets too large, and a slash is not taken off the
front of a comment. What may not follow a token is therefore listed by `joins`.

The proof looks at one piece at a time: what `scan` cuts off is what it is taken for (`scan_fits`),
and a division of the rest goes on with the piece in front of it.
-/

namespace ScalarMips

namespace Lexer

/-! ### Tokens -/

/-- The texts of a kind of token. Nothing spells the end of the file, and no identifier is spelt
like a keyword. -/
inductive Spells : TokenKind → List Char → Prop where
  | identifier {c : Char} {word : List Char} : isWordStart c → (∀ d ∈ word, isWordPart d) →
      (∀ keyword : Keyword, keyword.spelling.toList ≠ c :: word) → Spells .identifier (c :: word)
  | number {digits : List Char} : digits ≠ [] → (∀ d ∈ digits, d.isDigit) →
      Numeral.value digits ≤ Numeral.greatest → Spells .integerLiteral digits
  | keyword (keyword : Keyword) : Spells (.keyword keyword) keyword.spelling.toList
  | mark (mark : Mark) : Spells (.mark mark) mark.spelling.toList

/-- Whether a character right behind a token would belong to it or make a comment of it. -/
def joins : TokenKind → Char → Bool
  | .identifier, c | .keyword _, c => isWordPart c
  | .integerLiteral, c => c.isDigit
  | .mark .equals, c | .mark .bang, c | .mark .less, c | .mark .greater, c => c = '='
  | .mark .slash, c => c = '/' || c = '*'
  | _, _ => false

/-- A token in front of `rest`, as long as a token can be there. -/
structure Lexeme (kind : TokenKind) (text rest : List Char) : Prop where
  /-- The text is one of the kind. -/
  spells : Spells kind text
  /-- No longer text at this place is a token. -/
  longest : ∀ kind' text', Spells kind' text' → text' <+: text ++ rest →
    text'.length ≤ text.length
  /-- What follows does not belong to it. -/
  ended : ∀ c ∈ rest.head?, joins kind c = false

/-! ### Gaps -/

/-- What opens a block comment is closed by `body`, which ends with the first `*/` in it. -/
def Closes (body : List Char) : Prop :=
  ∃ inner, body = inner ++ ['*', '/'] ∧ ¬ ['*', '/'] <:+: inner ++ ['*']

/-- Text that stands before `rest` and holds no token: blanks, comments up to the end of their line
or of the whole text, and closed block comments, in any number and order. -/
inductive Gap (rest : List Char) : List Char → Prop where
  | nil : Gap rest []
  | blank {c : Char} {text : List Char} : isBlank c → Gap rest text → Gap rest (c :: text)
  | line {body text : List Char} : '\n' ∉ body → (∀ c ∈ (text ++ rest).head?, c = '\n') →
      Gap rest text → Gap rest ('/' :: '/' :: (body ++ text))
  | block {body text : List Char} : Closes body → Gap rest text →
      Gap rest ('/' :: '*' :: (body ++ text))

/-! ### Faults -/

/-- What a text starts with if it starts neither with a token nor with a gap. -/
inductive Offends : LexFault → List Char → Prop where
  | strayCharacter {c : Char} {rest : List Char} : ¬ isBlank c →
      (∀ kind text, ¬ Spells kind (c :: text)) → Offends (.strayCharacter c) (c :: rest)
  | halfMark {c : Char} {rest : List Char} : c = '&' ∨ c = '|' → rest.head? ≠ some c →
      Offends (.halfMark c) (c :: rest)
  | openComment {rest : List Char} : ¬ ['*', '/'] <:+: rest →
      Offends .openComment ('/' :: '*' :: rest)
  | integerTooLarge {digits rest : List Char} : digits ≠ [] → (∀ d ∈ digits, d.isDigit) →
      (∀ c ∈ rest.head?, ¬ c.isDigit) → Numeral.greatest < Numeral.value digits →
      Offends .integerTooLarge (digits ++ rest)

/-! ### Divisions -/

/-- A text is a gap, a token, a gap, and so on: the given tokens with gaps around them, up to a
rest. -/
inductive Divides : List Char → List Token → List Char → Prop where
  | nil {gap rest : List Char} : Gap rest gap → Divides (gap ++ rest) [] rest
  | cons {gap text rest : List Char} {token : Token} {tokens : List Token} :
      Gap (token.text.toList ++ text) gap → Lexeme token.kind token.text.toList text →
      Divides text tokens rest → Divides (gap ++ (token.text.toList ++ text)) (token :: tokens) rest

/-! ### Classes of characters -/

theorem isWordPart_of_isWordStart {c : Char} (h : isWordStart c) : isWordPart c := by
  simp only [isWordStart, isWordPart, Char.isAlphanum] at *
  grind

theorem not_isDigit_of_isWordStart {c : Char} (h : isWordStart c) : ¬ c.isDigit := by
  intro hdigit
  have hcode : 48 ≤ c.toNat ∧ c.toNat ≤ 57 := Char.isDigit_iff_toNat.1 hdigit
  simp only [isWordStart, Char.isAlpha, Char.isUpper, Char.isLower, Bool.or_eq_true,
    Bool.and_eq_true, decide_eq_true_eq, ge_iff_le, UInt32.le_iff_toNat_le] at h
  rcases h with (h | h) | rfl
  · have : 65 ≤ c.toNat := h.1
    omega
  · have : 97 ≤ c.toNat := h.1
    omega
  · exact absurd hcode (by decide)

/-- A keyword is a word. -/
theorem keyword_isWord (keyword : Keyword) :
    keyword.spelling.toList.head?.any isWordStart ∧ keyword.spelling.toList.all isWordPart := by
  cases keyword <;> decide +kernel

/-- What a mark starts with. -/
theorem mark_start (mark : Mark) :
    mark.spelling.toList.head?.all fun c ↦ !isBlank c && !isWordStart c && !c.isDigit := by
  cases mark <;> decide +kernel

/-- A mark has one character or two. -/
theorem mark_length (mark : Mark) :
    (∃ c, mark.spelling.toList = [c]) ∨ ∃ c d, mark.spelling.toList = [c, d] := by
  cases mark <;> simp [Mark.spelling]

/-- A run of characters of a class goes no further in a text than the longest one. -/
theorem length_le_takeWhile {p : Char → Bool} {text run : List Char}
    (hrun : run <+: text) (hall : ∀ d ∈ run, p d) :
    run.length ≤ (text.takeWhile p).length := by
  obtain ⟨rest, rfl⟩ := hrun
  rw [List.takeWhile_append_of_pos hall, List.length_append]
  omega

/-- Where the longest run of a class has ended, the class does not go on. -/
theorem not_of_head?_dropWhile {p : Char → Bool} {text : List Char} :
    ∀ c ∈ (text.dropWhile p).head?, p c = false := by
  intro c hc
  have := List.head?_dropWhile_not p text
  rw [Option.mem_def] at hc
  rw [hc] at this
  simpa using this

/-- What a token starts with tells its kind apart: a word, a number or a mark. -/
theorem Spells.start {kind : TokenKind} {c : Char} {text : List Char}
    (h : Spells kind (c :: text)) :
    isWordStart c ∧ (∀ d ∈ c :: text, isWordPart d) ∨ c.isDigit ∧ (∀ d ∈ c :: text, d.isDigit) ∨
      ∃ mark : Mark, mark.spelling.toList = c :: text ∧ isBlank c = false ∧ isWordStart c = false ∧
        c.isDigit = false := by
  generalize htext : c :: text = whole at h
  cases h with
  | @identifier c' word hstart hword _ =>
    cases htext
    exact .inl ⟨hstart, List.forall_mem_cons.2 ⟨isWordPart_of_isWordStart hstart, hword⟩⟩
  | number _ hdigits _ =>
    subst htext
    exact .inr (.inl ⟨hdigits c List.mem_cons_self, hdigits⟩)
  | keyword keyword =>
    obtain ⟨hstart, hword⟩ := keyword_isWord keyword
    rw [← htext] at hstart hword ⊢
    exact .inl ⟨hstart, List.all_eq_true.1 hword⟩
  | mark mark =>
    have hstart := mark_start mark
    rw [← htext] at hstart
    simp only [List.head?_cons, Option.all_some, Bool.and_eq_true, Bool.not_eq_eq_eq_not,
      Bool.not_true] at hstart
    exact .inr (.inr ⟨mark, rfl, hstart.1.1, hstart.1.2, hstart.2⟩)

/-! ### Words and numbers -/

theorem spells_kindOfWord {c : Char} {word : List Char} (hstart : isWordStart c)
    (hword : ∀ d ∈ word, isWordPart d) : Spells (kindOfWord (c :: word)) (c :: word) := by
  unfold kindOfWord
  cases hfind : Keyword.ofSpelling? (String.ofList (c :: word)) with
  | none =>
    refine .identifier hstart hword fun keyword hkeyword ↦ ?_
    have hall : keyword ∈ Keyword.all := by cases keyword <;> decide
    have hne := List.find?_eq_none.1 hfind keyword hall
    rw [decide_eq_true_eq, ← String.toList_inj, String.toList_ofList] at hne
    exact hne hkeyword
  | some keyword =>
    have hspelling := List.find?_some hfind
    rw [decide_eq_true_eq, ← String.toList_inj, String.toList_ofList] at hspelling
    rw [← hspelling]
    exact .keyword keyword

/-- A word is cut off as far as it goes. -/
theorem lexeme_word {c : Char} (hstart : isWordStart c) (rest : List Char) :
    Lexeme (kindOfWord (c :: rest.takeWhile isWordPart)) (c :: rest.takeWhile isWordPart)
      (rest.dropWhile isWordPart) where
  spells := spells_kindOfWord hstart fun d hd ↦ List.mem_takeWhile_imp hd
  longest kind text hspells hfront := by
    rw [List.cons_append, List.takeWhile_append_dropWhile] at hfront
    cases text with
    | nil => exact Nat.zero_le _
    | cons d text =>
      obtain ⟨rfl, htail⟩ := List.cons_prefix_cons.1 hfront
      rcases hspells.start with ⟨-, hword⟩ | ⟨hdigit, -⟩ | ⟨-, -, -, hne, -⟩
      · exact Nat.succ_le_succ (length_le_takeWhile htail (List.forall_mem_cons.1 hword).2)
      · exact absurd hdigit (not_isDigit_of_isWordStart hstart)
      · rw [hstart] at hne
        cases hne
  ended d hd := by
    have hpart : isWordPart d = false := not_of_head?_dropWhile d hd
    unfold kindOfWord
    cases Keyword.ofSpelling? (String.ofList (c :: rest.takeWhile isWordPart)) <;> exact hpart

/-- A number is cut off as far as it goes, and is a token if it fits in a word. -/
theorem lexeme_number {c : Char} (hdigit : c.isDigit) (rest : List Char)
    (hfits : Numeral.value (c :: rest.takeWhile Char.isDigit) ≤ Numeral.greatest) :
    Lexeme .integerLiteral (c :: rest.takeWhile Char.isDigit) (rest.dropWhile Char.isDigit) where
  spells := .number (List.cons_ne_nil _ _)
    (List.forall_mem_cons.2 ⟨hdigit, fun d hd ↦ List.mem_takeWhile_imp hd⟩) hfits
  longest kind text hspells hfront := by
    rw [List.cons_append, List.takeWhile_append_dropWhile] at hfront
    cases text with
    | nil => exact Nat.zero_le _
    | cons d text =>
      obtain ⟨rfl, htail⟩ := List.cons_prefix_cons.1 hfront
      rcases hspells.start with ⟨hstart, -⟩ | ⟨-, hdigits⟩ | ⟨-, -, -, -, hne⟩
      · exact absurd hdigit (not_isDigit_of_isWordStart hstart)
      · exact Nat.succ_le_succ (length_le_takeWhile htail (List.forall_mem_cons.1 hdigits).2)
      · rw [hdigit] at hne
        cases hne
  ended d hd := not_of_head?_dropWhile d hd

/-! ### Marks -/

theorem spelling_of_ofChar? {c : Char} {mark : Mark} (h : Mark.ofChar? c = some mark) :
    mark.spelling.toList = [c] := by
  simpa using List.find?_some h

theorem spelling_of_ofPair? {c d : Char} {mark : Mark} (h : Mark.ofPair? c d = some mark) :
    mark.spelling.toList = [c, d] := by
  simpa using List.find?_some h

theorem isSome_ofPair? {c d : Char} {mark : Mark} (h : mark.spelling.toList = [c, d]) :
    (Mark.ofPair? c d).isSome := by
  refine List.find?_isSome.2 ⟨mark, ?_, by simpa using h⟩
  cases mark <;> decide

/-- The characters that make a longer mark of a mark are those that join it. -/
theorem ofPair?_of_joins {c d : Char} {mark : Mark} (h : mark.spelling.toList = [c])
    (hjoins : joins (.mark mark) d) (hslash : mark ≠ .slash) : (Mark.ofPair? c d).isSome := by
  have hequals : d = '=' ∧ (mark = .equals ∨ mark = .bang ∨ mark = .less ∨ mark = .greater) := by
    cases mark <;> simp_all [joins]
  obtain ⟨rfl, rfl | rfl | rfl | rfl⟩ := hequals <;> cases h <;> decide +kernel

/-- What starts like a mark and is a token is a mark. -/
theorem Spells.exists_mark {kind : TokenKind} {c : Char} {text rest : List Char} {mark : Mark}
    (hmark : mark.spelling.toList = c :: rest) (h : Spells kind (c :: text)) :
    ∃ other : Mark, other.spelling.toList = c :: text := by
  have hstart := mark_start mark
  rw [hmark] at hstart
  simp only [List.head?_cons, Option.all_some, Bool.and_eq_true, Bool.not_eq_eq_eq_not,
    Bool.not_true] at hstart
  rcases h.start with ⟨hword, -⟩ | ⟨hdigit, -⟩ | ⟨other, hother, -⟩
  · rw [hword] at hstart
    cases hstart.1.2
  · rw [hdigit] at hstart
    cases hstart.2
  · exact ⟨other, hother⟩

theorem lexeme_pair {c d : Char} {mark : Mark} (h : mark.spelling.toList = [c, d])
    (rest : List Char) : Lexeme (.mark mark) [c, d] rest where
  spells := h ▸ .mark mark
  longest kind text hspells hfront := by
    cases text with
    | nil => exact Nat.zero_le _
    | cons e text =>
      obtain ⟨rfl, -⟩ := List.cons_prefix_cons.1 hfront
      obtain ⟨other, hother⟩ := hspells.exists_mark h
      rw [← hother]
      rcases mark_length other with ⟨_, hone⟩ | ⟨_, _, htwo⟩
      · simp [hone]
      · simp [htwo]
  ended e _ := by cases mark <;> first | rfl | cases h

theorem lexeme_single {c : Char} {mark : Mark} {rest : List Char} (h : mark.spelling.toList = [c])
    (hpair : ∀ d ∈ rest.head?, Mark.ofPair? c d = none)
    (hslash : c = '/' → ∀ d ∈ rest.head?, d ≠ '/' ∧ d ≠ '*') : Lexeme (.mark mark) [c] rest where
  spells := h ▸ .mark mark
  longest kind text hspells hfront := by
    cases text with
    | nil => exact Nat.zero_le _
    | cons e text =>
      obtain ⟨rfl, htail⟩ := List.cons_prefix_cons.1 hfront
      obtain ⟨other, hother⟩ := hspells.exists_mark h
      rcases mark_length other with ⟨_, hone⟩ | ⟨_, d, htwo⟩
      · rw [← hother, hone]
        exact Nat.le_refl _
      · -- Two characters would be a longer mark, and the pair is none.
        obtain ⟨rfl, rfl⟩ := List.cons.inj (hother.symm.trans htwo)
        have hnone := hpair d (List.singleton_prefix_iff_head?_eq_some.1 htail)
        have hsome := isSome_ofPair? hother
        rw [hnone] at hsome
        cases hsome
  ended d hd := by
    by_contra hjoins
    rw [Bool.not_eq_false] at hjoins
    by_cases hmark : mark = .slash
    · subst hmark
      obtain ⟨hline, hblock⟩ := hslash (by cases h; rfl) d hd
      simp [joins, hline, hblock] at hjoins
    · have hsome := ofPair?_of_joins h hjoins hmark
      rw [hpair d hd] at hsome
      cases hsome

/-! ### Comments -/

theorem closes_of_closeComment {text body rest : List Char}
    (h : closeComment text = some (body, rest)) : Closes body := by
  fun_induction closeComment text generalizing body rest with
  | case1 => cases h
  | case2 =>
    cases h
    exact ⟨[], rfl, by decide⟩
  | case3 c text hne ih =>
    obtain ⟨⟨inner, after⟩, hinner, heq⟩ := Option.map_eq_some_iff.1 h
    cases heq
    obtain ⟨start, rfl, hopen⟩ := ih hinner
    refine ⟨c :: start, rfl, fun hinside ↦ ?_⟩
    rcases List.infix_cons_iff.1 hinside with hfront | hinside
    · -- The closing would have been found one character before.
      obtain ⟨hc, htail⟩ := List.cons_prefix_cons.1 hfront
      cases start with
      | nil => simp at htail
      | cons d start =>
        obtain ⟨hd, -⟩ := List.cons_prefix_cons.1 htail
        have htext := closeComment_append hinner
        rw [← hd] at htext
        exact hne _ hc.symm htext.symm
    · exact hopen hinside

theorem not_infix_of_closeComment {text : List Char} (h : closeComment text = none) :
    ¬ ['*', '/'] <:+: text := by
  fun_induction closeComment text with
  | case1 => simp
  | case2 => cases h
  | case3 c text hne ih =>
    rw [Option.map_eq_none_iff] at h
    intro hinside
    rcases List.infix_cons_iff.1 hinside with hfront | hinside
    · obtain ⟨hc, rest, hrest⟩ := List.cons_prefix_cons.1 hfront
      exact hne rest hc.symm hrest.symm
    · exact ih h hinside

/-! ### Pieces -/

/-- A run of blanks in front of a gap is a gap. -/
theorem Gap.blanks {rest text blanks : List Char} (h : ∀ c ∈ blanks, isBlank c)
    (hgap : Gap rest text) : Gap rest (blanks ++ text) := by
  induction blanks with
  | nil => exact hgap
  | cons c blanks ih =>
    obtain ⟨hc, hblanks⟩ := List.forall_mem_cons.1 h
    exact .blank hc (ih hblanks)

/-- A piece in front of `rest` is what it is taken for. -/
def Fits : Piece → List Char → Prop
  | .gap text, rest => ∀ gap tail, rest = gap ++ tail → Gap tail gap → Gap tail (text ++ gap)
  | .lexeme kind text, rest => Lexeme kind text rest
  | .fault cause text, rest => Offends cause (text ++ rest)

/-- A character that starts no mark of one character starts a mark only if it has to be doubled. -/
theorem doubled_of_ofChar?_eq_none {c : Char} {text : List Char} {mark : Mark}
    (hmark : mark.spelling.toList = c :: text) (h : Mark.ofChar? c = none) : c = '&' ∨ c = '|' := by
  cases mark <;> cases hmark <;> first | exact .inl rfl | exact .inr rfl | cases h

theorem single_fits {c : Char} {rest : List Char} (hblank : isBlank c = false)
    (hword : isWordStart c = false) (hdigit : c.isDigit = false)
    (hpair : ∀ d ∈ rest.head?, Mark.ofPair? c d = none)
    (hslash : c = '/' → ∀ d ∈ rest.head?, d ≠ '/' ∧ d ≠ '*') : Fits (single c) rest := by
  unfold single
  split
  · rename_i mark hmark
    exact lexeme_single (spelling_of_ofChar? hmark) hpair hslash
  · rename_i hnone
    split
    · rename_i hdoubled
      refine .halfMark hdoubled fun hhead ↦ ?_
      have hpair := hpair c hhead
      rcases hdoubled with rfl | rfl <;> cases hpair
    · rename_i hdoubled
      refine .strayCharacter (by simp [hblank]) fun kind text hspells ↦ ?_
      rcases hspells.start with ⟨hstart, -⟩ | ⟨hstart, -⟩ | ⟨mark, hmark, -⟩
      · rw [hword] at hstart
        cases hstart
      · rw [hdigit] at hstart
        cases hstart
      · exact hdoubled (doubled_of_ofChar?_eq_none hmark hnone)

theorem scanMark_fits {c : Char} {rest : List Char} (hblank : isBlank c = false)
    (hword : isWordStart c = false) (hdigit : c.isDigit = false)
    (hslash : c = '/' → ∀ d ∈ rest.head?, d ≠ '/' ∧ d ≠ '*') :
    Fits (scanMark c rest).1 (scanMark c rest).2 := by
  unfold scanMark
  split
  · exact single_fits hblank hword hdigit (fun d hd ↦ by cases hd) fun _ d hd ↦ by cases hd
  · rename_i d rest
    split
    · rename_i mark hmark
      exact lexeme_pair (spelling_of_ofPair? hmark) rest
    · rename_i hnone
      refine single_fits hblank hword hdigit (fun e he ↦ ?_) hslash
      cases he
      exact hnone

theorem scanSlash_fits (rest : List Char) : Fits (scanSlash rest).1 (scanSlash rest).2 := by
  unfold scanSlash
  split
  · rename_i rest
    intro gap tail hrest hgap
    refine .line (fun hmem ↦ ?_) (fun c hc ↦ ?_) hgap
    · simpa using List.mem_takeWhile_imp hmem
    · rw [← hrest] at hc
      simpa using not_of_head?_dropWhile c hc
  · rename_i rest
    split
    · rename_i body after hclose
      exact fun gap tail _ hgap ↦ .block (closes_of_closeComment hclose) hgap
    · rename_i hopen
      show Offends _ (_ ++ [])
      rw [List.append_nil]
      exact .openComment (not_infix_of_closeComment hopen)
  · rename_i hline hblock
    refine scanMark_fits (by decide) (by decide) (by decide) fun _ d hd ↦ ?_
    obtain ⟨tail, rfl⟩ := List.head?_eq_some_iff.1 hd
    exact ⟨fun h ↦ hline tail (h ▸ rfl), fun h ↦ hblock tail (h ▸ rfl)⟩

/-- The piece that is cut off is what it is taken for. -/
theorem scan_fits (c : Char) (rest : List Char) : Fits (scan c rest).1 (scan c rest).2 := by
  unfold scan
  split
  · rename_i hblank
    intro gap tail _ hgap
    exact .blanks (List.forall_mem_cons.2 ⟨hblank, fun d hd ↦ List.mem_takeWhile_imp hd⟩) hgap
  split
  · rename_i hstart
    exact lexeme_word hstart rest
  split
  · rename_i hdigit
    show Fits (number _) _
    unfold number
    split
    · rename_i hfits
      exact lexeme_number hdigit rest ((Numeral.fits_iff _).1 hfits)
    · rename_i hlarge
      refine .integerTooLarge (List.cons_ne_nil _ _)
        (List.forall_mem_cons.2 ⟨hdigit, fun d hd ↦ List.mem_takeWhile_imp hd⟩) (fun d hd ↦ ?_)
        (Nat.lt_of_not_le (mt (Numeral.fits_iff _).2 hlarge))
      rw [Bool.not_eq_true]
      exact not_of_head?_dropWhile d hd
  split
  · exact scanSlash_fits rest
  · rename_i hblank hword hdigit hslash
    rw [Bool.not_eq_true] at hblank hword hdigit
    exact scanMark_fits hblank hword hdigit fun h ↦ absurd h hslash

/-! ### The whole text -/

/-- A gap in front of a text that is divided. -/
theorem Divides.gap {piece text rest : List Char} {tokens : List Token}
    (hpiece : Fits (.gap piece) text) (h : Divides text tokens rest) :
    Divides (piece ++ text) tokens rest := by
  cases h with
  | nil hgap =>
    rw [← List.append_assoc]
    exact .nil (hpiece _ _ rfl hgap)
  | cons hgap hlexeme hrest =>
    rw [← List.append_assoc]
    exact .cons (hpiece _ _ rfl hgap) hlexeme hrest

/-- How lexing a text ends: with all of it divided, or at the first thing that is neither token nor
gap. -/
def Ends (text : List Char) (lexed : Lexed) : Prop :=
  ∃ tokens, (∀ token ∈ tokens, token.kind ≠ .endOfFile) ∧
    ((∃ span, lexed = ⟨tokens ++ [⟨.endOfFile, "", span⟩], none⟩ ∧ Divides text tokens []) ∨
      ∃ fault rest, lexed = ⟨tokens, some fault⟩ ∧ Divides text tokens rest ∧
        Offends fault.val rest)

theorem Lexeme.kind_ne {kind : TokenKind} {text rest : List Char} (h : Lexeme kind text rest) :
    kind ≠ .endOfFile := by
  rintro rfl
  cases h.spells

theorem ends_place (text : List Char) (start : Location) :
    Ends text (Piece.place start (Piece.cut text)) := by
  fun_induction Piece.cut text generalizing start with
  | case1 => exact ⟨[], by simp, .inl ⟨⟨start, start⟩, rfl, .nil .nil⟩⟩
  | case2 c rest cause text hpiece =>
    have hfits := scan_fits c rest
    have htext := scan_text_append c rest
    rw [hpiece] at hfits htext
    refine ⟨[], by simp, .inr ⟨⟨⟨start, start.advance text⟩, cause⟩, c :: rest, rfl, .nil .nil, ?_⟩⟩
    rw [← htext]
    exact hfits
  | case3 c rest hfault ih =>
    have hfits := scan_fits c rest
    have htext := scan_text_append c rest
    rw [← htext]
    cases hpiece : (scan c rest).1 with
    | fault cause text => exact absurd hpiece (hfault cause text)
    | gap text =>
      rw [hpiece] at hfits
      obtain ⟨tokens, hkinds, hends⟩ := ih (start.advance text)
      refine ⟨tokens, hkinds, hends.imp ?_ ?_⟩
      · rintro ⟨span, hplace, hdivides⟩
        exact ⟨span, hplace, hdivides.gap hfits⟩
      · rintro ⟨fault, rest, hplace, hdivides, hoffends⟩
        exact ⟨fault, rest, hplace, hdivides.gap hfits, hoffends⟩
    | lexeme kind text =>
      rw [hpiece] at hfits
      have hlexeme : Lexeme kind text (scan c rest).2 := hfits
      obtain ⟨tokens, hkinds, hends⟩ := ih (start.advance text)
      let token : Token := ⟨kind, String.ofList text, start, start.advance text⟩
      have hcons : ∀ {tail : List Char}, Divides (scan c rest).2 tokens tail →
          Divides (text ++ (scan c rest).2) (token :: tokens) tail := by
        intro tail hdivides
        have hspelt : token.text.toList = text := String.toList_ofList
        have hwhole : Divides (token.text.toList ++ (scan c rest).2) (token :: tokens) tail :=
          .cons .nil (hspelt ▸ hlexeme) hdivides
        rwa [hspelt] at hwhole
      refine ⟨token :: tokens, List.forall_mem_cons.2 ⟨hlexeme.kind_ne, hkinds⟩, hends.imp ?_ ?_⟩
      · rintro ⟨span, hplace, hdivides⟩
        refine ⟨span, ?_, hcons hdivides⟩
        rw [Piece.place, hplace]
        rfl
      · rintro ⟨fault, rest, hplace, hdivides, hoffends⟩
        refine ⟨fault, rest, ?_, hcons hdivides, hoffends⟩
        rw [Piece.place, hplace]

theorem ends_lex (source : String) : Ends source.toList (lex source) :=
  ends_place source.toList {}

end Lexer

open Lexer

/-- **Lexing divides the text.** Without a fault, the text is exactly the tokens before the end of
the file, in order, with gaps around them; every token has the kind that its text has in the
language and is as long as it can be, and the end of the file comes once, at the end. Otherwise
there is one fault and no end of the file, and the text is divided in the same way up to where the
fault is: a character that no token starts with, half of a mark, a block comment that is never
closed or a number that is too large. -/
theorem lex_divides (source : String) :
    ∃ tokens : List Token, (∀ token ∈ tokens, token.kind ≠ .endOfFile) ∧
      ((∃ span, lex source = ⟨tokens ++ [⟨.endOfFile, "", span⟩], none⟩ ∧
          Divides source.toList tokens []) ∨
        ∃ fault rest, lex source = ⟨tokens, some fault⟩ ∧ Divides source.toList tokens rest ∧
          Offends fault.val rest) :=
  ends_place source.toList {}

/-- A comment is not closed by the star that opens it, and the third of three ampersands has no
second half. -/
example : (lex "a/*/ 1*/2b&&&").tokens.map Token.text = ["a", "2", "b", "&&"] ∧
    (lex "a/*/ 1*/2b&&&").fault.map Located.val = some (.halfMark '&') := by cbv

end ScalarMips
