import ScalarMips.Proofs.ProgramReading
import ScalarMips.Proofs.Spacing
import ScalarMips.Proofs.TokenSpans

/-!
# The line with the largest number

A source with fewer than `2 ^ 32` characters has a line with the largest number, `2 ^ 32 - 1`, only
if it has a single character for every line: all of them are newlines but the last one, which may be
anything (`length_breakLines_concat`). If that is a blank, the source is an empty program. Otherwise
it is not a program at all, and what is wrong with it is found on that line, where reports cannot
quote anything (`Source.FillsLastLine`).

For this the lexer is followed by hand: it passes over the newlines at once (`place_cut_blanks`),
and one character in front of the end of the text is a token or a fault (`scan_nil`). No declaration
has just one token (`Declaration.one_lt_length`).
-/

namespace ScalarMips

open Grammar Lexer

/-! ### Sources of one-character lines -/

namespace Source

/-- A source of which a single character that is no blank stands on the line with the largest
number, and nothing on the lines before it. -/
def FillsLastLine (source : String) : Prop :=
  ∃ front c, source.toList = front ++ [c] ∧ front.length = 2 ^ 32 - 2 ∧ (∀ d ∈ front, d = '\n') ∧
    ¬ isBlank c

/-- Lines are no more than characters. -/
theorem length_breakLines_le (text : List Char) : (breakLines text).length ≤ text.length := by
  induction text with
  | nil => exact Nat.le_refl 0
  | cons c text ih =>
    by_cases hc : c = '\n'
    · rw [hc, breakLines, if_pos rfl]
      exact Nat.succ_le_succ ih
    · rw [breakLines_cons hc, List.length_cons, List.length_tail, List.length_cons]
      omega

theorem length_lines_lt {source : String} (hsize : source.length < 2 ^ 32) :
    (lines source).length < 2 ^ 32 := by
  rw [lines, List.length_map]
  exact (length_breakLines_le source.toList).trans_lt hsize

/-- Every character has a line of its own exactly if all but the last are newlines. -/
theorem length_breakLines_concat {front : List Char} {c : Char} :
    (breakLines (front ++ [c])).length = front.length + 1 ↔ ∀ d ∈ front, d = '\n' := by
  induction front with
  | nil =>
    refine iff_of_true ?_ fun d hd ↦ absurd hd List.not_mem_nil
    rw [List.nil_append, breakLines]
    split <;> rfl
  | cons d front ih =>
    rw [List.forall_mem_cons, List.cons_append, List.length_cons]
    by_cases hd : d = '\n'
    · rw [breakLines, if_pos hd, List.length_cons, Nat.succ_inj, ih]
      exact (and_iff_right hd).symm
    · -- The line of `d` has the next character as well.
      refine iff_of_false (fun hlength ↦ ?_) (fun h ↦ hd h.1)
      have hle := length_breakLines_le (front ++ [c])
      rw [List.length_append, List.length_singleton] at hle
      rw [breakLines_cons hd, List.length_cons, List.length_tail] at hlength
      omega

/-- There is a line with the largest number only if there are newlines and one more character. -/
theorem exists_newlines {source : String} (hsize : source.length < 2 ^ 32)
    (hlines : (lines source).length + 1 = 2 ^ 32) :
    ∃ front c, source.toList = front ++ [c] ∧ front.length = 2 ^ 32 - 2 ∧
      ∀ d ∈ front, d = '\n' := by
  have hle := length_breakLines_le source.toList
  rw [lines, List.length_map] at hlines
  rw [← String.length_toList] at hsize
  obtain hnil | ⟨front, c, hsource⟩ := source.toList.eq_nil_or_concat
  · rw [hnil, breakLines, List.length_nil] at hlines
    omega
  · rw [List.concat_eq_append] at hsource
    rw [hsource] at hlines hsize hle
    rw [List.length_append, List.length_singleton] at hsize hle
    have hcount : (breakLines (front ++ [c])).length = front.length + 1 := by omega
    exact ⟨front, c, hsource, by omega, length_breakLines_concat.1 hcount⟩

theorem FillsLastLine.length_lines {source : String} (h : FillsLastLine source) :
    (lines source).length + 1 = 2 ^ 32 := by
  obtain ⟨front, c, hsource, hlength, hfront, -⟩ := h
  rw [lines, List.length_map, hsource, length_breakLines_concat.2 hfront]
  omega

end Source

open Source

/-! ### Cutting blanks and a last character -/

namespace Lexer

/-- A single character is a token or a fault, if it is no blank. -/
theorem scan_nil {c : Char} (hc : ¬ isBlank c) :
    (∃ kind, scan c [] = (.lexeme kind [c], [])) ∨
      ∃ cause, scan c [] = (.fault cause [c], []) := by
  have hsingle : (∃ kind, (single c, ([] : List Char)) = (.lexeme kind [c], [])) ∨
      ∃ cause, (single c, ([] : List Char)) = (.fault cause [c], []) := by
    unfold single
    split
    · exact .inl ⟨_, rfl⟩
    · exact .inr ⟨_, rfl⟩
  rw [scan, if_neg hc]
  split
  · exact .inl ⟨kindOfWord [c], rfl⟩
  split
  · show (∃ kind, (number [c], ([] : List Char)) = (.lexeme kind [c], [])) ∨
      ∃ cause, (number [c], ([] : List Char)) = (.fault cause [c], [])
    unfold number
    split
    · exact .inl ⟨_, rfl⟩
    · exact .inr ⟨_, rfl⟩
  split
  · rename_i hslash
    subst hslash
    exact hsingle
  · exact hsingle

/-- There are no tokens in blanks. -/
theorem lex_blanks {source : String} (hne : source.toList ≠ [])
    (hblanks : ∀ c ∈ source.toList, isBlank c) :
    ∃ span, lex source = ⟨[⟨.endOfFile, "", span⟩], none⟩ := by
  have hrest : ∀ d ∈ ([] : List Char).head?, ¬ isBlank d := fun d hd ↦ nomatch hd
  have hplace := place_cut_blanks hne hblanks hrest {}
  rw [List.append_nil] at hplace
  rw [lex, hplace, Piece.cut]
  exact ⟨_, rfl⟩

/-- What stands behind blanks, if it is a single character and no blank. -/
theorem lex_concat {source : String} {front : List Char} {c : Char}
    (hsource : source.toList = front ++ [c]) (hne : front ≠ [])
    (hfront : ∀ d ∈ front, isBlank d) (hc : ¬ isBlank c) :
    (∃ fault, lex source = ⟨[], some fault⟩ ∧ fault.span.start = location front) ∨
      ∃ token last, lex source = ⟨[token, last], none⟩ ∧ token.span.start = location front ∧
        last.span.start = location source.toList := by
  have hrest : ∀ d ∈ [c].head?, ¬ isBlank d := fun d hd ↦ Option.mem_some.1 hd ▸ hc
  have hlex : lex source = Piece.place (location front) (Piece.cut [c]) := by
    rw [lex, hsource, place_cut_blanks hne hfront hrest]
    rfl
  have hstop : (location front).advance [c] = location source.toList := by
    rw [hsource, location_append]
  rw [hlex, Piece.cut]
  obtain ⟨kind, hscan⟩ | ⟨cause, hscan⟩ := scan_nil hc <;> rw [hscan]
  · rw [Piece.cut]
    exact .inr ⟨_, _, rfl, rfl, hstop⟩
  · exact .inl ⟨_, rfl, rfl⟩

end Lexer

/-! ### Programs of one token -/

namespace Grammar

variable {before : Stmt → Prop} {ts : List Token} {s : Stmt}

theorem Statement.one_lt_length (h : Statement before ts s) : 1 < ts.length := by
  cases h with
  | evaluate he =>
    obtain ⟨token, tail, rfl, -⟩ := Parser.head_expression he
    simp
  | ifThen _ htest | ifElse _ htest | loop _ htest =>
    cases htest
    simp
  | _ => simp

/-- A declaration has more than one token. -/
theorem Declaration.one_lt_length (h : Declaration before ts s) : 1 < ts.length := by
  cases h with
  | function => simp
  | statement h => exact h.one_lt_length

theorem Declarations.ne_singleton {ss : List Stmt} (h : Declarations before ts ss) (token : Token) :
    ts ≠ [token] := by
  rintro rfl
  generalize htokens : [token] = tokens at h
  cases h with
  | nil => cases htokens
  | cons hfirst _ =>
    have hlength := congrArg List.length htokens
    have hfirst := hfirst.one_lt_length
    rw [List.length_append, List.length_singleton] at hlength
    omega

end Grammar

end ScalarMips
