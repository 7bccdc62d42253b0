import Mathlib
import ScalarMips.Source.Lines
import ScalarMips.Source.Span

/-!
# Positions in a source text

Locations are counted while a text is walked through, and the lines that reports quote are cut off
the text on their own. Both are put down here to the text in front of a position: how many newlines
it has (`row`) and how many characters stand behind the last of them (`column`).

Locations count from one in words of 32 bits, so that a line of `2 ^ 32 - 1` characters ends in
column zero. Counted *from zero* the coordinates of a text with fewer than `2 ^ 32` characters
always fit (`coordinates_location`), and locations are therefore compared by these. In this order a
location that stands later in the text is greater (`coordinates_location_lt`).
-/

namespace ScalarMips

/-- The line and the column of a location, both counted from zero, in the order of reading. -/
def Location.coordinates (l : Location) : ℕ ×ₗ ℕ :=
  toLex ((l.line - 1).toNat, (l.column - 1).toNat)

namespace Source

/-! ### Rows and columns -/

/-- The number of the line on which a text ends, counted from zero. -/
def row (before : List Char) : ℕ :=
  before.count '\n'

/-- How many characters a text has on the line on which it ends. -/
def column (before : List Char) : ℕ :=
  (before.reverse.takeWhile (· ≠ '\n')).length

@[simp] theorem row_nil : row [] = 0 := rfl

@[simp] theorem column_nil : column [] = 0 := rfl

theorem row_append (before after : List Char) : row (before ++ after) = row before + row after :=
  List.count_append

theorem row_of_notMem {text : List Char} (h : '\n' ∉ text) : row text = 0 :=
  List.count_eq_zero.2 h

theorem row_le_length (before : List Char) : row before ≤ before.length :=
  List.count_le_length

theorem column_le_length (before : List Char) : column before ≤ before.length := by
  rw [column, ← before.length_reverse]
  exact (List.takeWhile_prefix _).length_le

theorem column_append_newline (before : List Char) : column (before ++ ['\n']) = 0 := by
  simp [column]

/-- Text without a newline stays on its line. -/
theorem column_append {text : List Char} (h : '\n' ∉ text) (before : List Char) :
    column (before ++ text) = column before + text.length := by
  have hreverse : ∀ c ∈ text.reverse, decide (c ≠ '\n') = true := by
    intro c hc
    simpa using fun heq : c = '\n' ↦ h (heq ▸ List.mem_reverse.1 hc)
  rw [column, List.reverse_append, List.takeWhile_append_of_pos hreverse, List.length_append,
    List.length_reverse, Nat.add_comm]
  rfl

/-- What stands in front of a newline does not count. -/
theorem column_cons_of_mem {before : List Char} (h : '\n' ∈ before) (c : Char) :
    column (c :: before) = column before := by
  have hstops : ¬ (before.reverse.takeWhile (· ≠ '\n')).length = before.reverse.length := by
    intro hlength
    have hall := List.takeWhile_eq_self_iff.1 ((List.takeWhile_prefix _).eq_of_length hlength)
    simpa using hall '\n' (List.mem_reverse.2 h)
  rw [column, column, List.reverse_cons, List.takeWhile_append, if_neg hstops]

theorem column_of_notMem {text : List Char} (h : '\n' ∉ text) : column text = text.length := by
  simpa using column_append h []

theorem column_newline_cons (before : List Char) : column ('\n' :: before) = column before := by
  by_cases h : '\n' ∈ before
  · exact column_cons_of_mem h '\n'
  · rw [column_of_notMem h, ← List.singleton_append, column_append h]
    simp [column]

/-! ### The order of reading -/

/-- The coordinates of the position behind a text. -/
def coordinates (before : List Char) : ℕ ×ₗ ℕ :=
  toLex (row before, column before)

theorem coordinates_lt_concat (before : List Char) (c : Char) :
    coordinates before < coordinates (before ++ [c]) := by
  refine Prod.Lex.toLex_lt_toLex.2 ?_
  by_cases hc : c = '\n'
  · subst hc
    exact .inl (by simp [row])
  · have hnotMem : '\n' ∉ [c] := fun h ↦ hc (List.mem_singleton.1 h).symm
    refine .inr ⟨?_, ?_⟩
    · rw [row_append, row_of_notMem hnotMem, Nat.add_zero]
    · rw [column_append hnotMem]
      exact Nat.lt_succ_self _

theorem coordinates_le_append (before after : List Char) :
    coordinates before ≤ coordinates (before ++ after) := by
  induction after using List.reverseRecOn with
  | nil => rw [List.append_nil]
  | append_singleton after c ih =>
    rw [← List.append_assoc]
    exact ih.trans (coordinates_lt_concat _ c).le

theorem coordinates_lt_append {text : List Char} (htext : text ≠ []) (before : List Char) :
    coordinates before < coordinates (before ++ text) := by
  cases text with
  | nil => exact absurd rfl htext
  | cons c text =>
    rw [List.append_cons]
    exact (coordinates_lt_concat before c).trans_le (coordinates_le_append _ text)

/-! ### Locations -/

/-- The location behind a text. -/
def location (before : List Char) : Location :=
  ({} : Location).advance before

theorem location_append (before after : List Char) :
    location (before ++ after) = (location before).advance after :=
  Location.advance_append ..

/-- Lines and columns are the rows and columns of the text, counted from one. -/
theorem location_eq (before : List Char) :
    location before = ⟨UInt32.ofNat (row before) + 1, UInt32.ofNat (column before) + 1⟩ := by
  induction before using List.reverseRecOn with
  | nil => rfl
  | append_singleton before c ih =>
    rw [location_append, ih]
    by_cases hc : c = '\n'
    · subst hc
      simp [Location.next, column_append_newline, UInt32.ofNat_add, row]
    · have hnotMem : '\n' ∉ [c] := fun h ↦ hc (List.mem_singleton.1 h).symm
      simp [Location.next, hc, row_append, row_of_notMem hnotMem, column_append hnotMem,
        UInt32.ofNat_add]

/-- Text without a newline moves a location along its line. -/
theorem location_append_of_notMem {text : List Char} (h : '\n' ∉ text) (before : List Char) :
    location (before ++ text) =
      ⟨(location before).line, (location before).column + UInt32.ofNat text.length⟩ := by
  have hcolumn : UInt32.ofNat (column before) + UInt32.ofNat text.length + 1 =
      UInt32.ofNat (column before) + 1 + UInt32.ofNat text.length := by
    rw [UInt32.add_assoc, UInt32.add_comm _ 1, ← UInt32.add_assoc]
  rw [location_eq, location_eq, row_append, row_of_notMem h, Nat.add_zero, column_append h,
    UInt32.ofNat_add, hcolumn]

/-- The coordinates from zero fit in words. -/
theorem coordinates_location {before : List Char} (h : before.length < 2 ^ 32) :
    (location before).coordinates = coordinates before := by
  have hrow := (row_le_length before).trans_lt h
  have hcolumn := (column_le_length before).trans_lt h
  rw [location_eq, Location.coordinates, coordinates, UInt32.add_sub_cancel, UInt32.add_sub_cancel,
    UInt32.toNat_ofNat_of_lt' hrow, UInt32.toNat_ofNat_of_lt' hcolumn]

theorem coordinates_location_lt {before text : List Char} (htext : text ≠ [])
    (h : (before ++ text).length < 2 ^ 32) :
    (location before).coordinates < (location (before ++ text)).coordinates := by
  have hbefore : before.length < 2 ^ 32 := by
    rw [List.length_append] at h
    omega
  rw [coordinates_location h, coordinates_location hbefore]
  exact coordinates_lt_append htext before

theorem coordinates_location_le {before text : List Char} (h : (before ++ text).length < 2 ^ 32) :
    (location before).coordinates ≤ (location (before ++ text)).coordinates := by
  have hbefore : before.length < 2 ^ 32 := by
    rw [List.length_append] at h
    omega
  rw [coordinates_location h, coordinates_location hbefore]
  exact coordinates_le_append before text

/-! ### Lines -/

theorem breakLines_cons {c : Char} (hc : c ≠ '\n') (text : List Char) :
    breakLines (c :: text) =
      (c :: (breakLines text).head?.getD []) :: (breakLines text).tail := by
  rw [breakLines, if_neg hc]
  cases breakLines text <;> rfl

/-- A word without a newline stands at the front of the first line. -/
theorem exists_first {word : List Char} (hword : word ≠ []) (hline : '\n' ∉ word)
    (after : List Char) : ∃ back, (breakLines (word ++ after))[0]? = some (word ++ back) := by
  induction word with
  | nil => exact absurd rfl hword
  | cons c word ih =>
    obtain ⟨hc, htail⟩ := List.ne_and_not_mem_of_not_mem_cons hline
    rw [List.cons_append, breakLines_cons (Ne.symm hc)]
    cases word with
    | nil => exact ⟨_, rfl⟩
    | cons d word =>
      obtain ⟨back, hback⟩ := ih (List.cons_ne_nil _ _) htail
      rw [← List.head?_eq_getElem?] at hback
      rw [hback]
      exact ⟨back, rfl⟩

/-- A word without a newline stands on the line of its row, behind the characters of its column. -/
theorem exists_line {word : List Char} (hword : word ≠ []) (hline : '\n' ∉ word)
    (before after : List Char) :
    ∃ front back, (breakLines (before ++ (word ++ after)))[row before]? =
      some (front ++ word ++ back) ∧ front.length = column before := by
  induction before with
  | nil =>
    obtain ⟨back, hback⟩ := exists_first hword hline after
    exact ⟨[], back, hback, rfl⟩
  | cons c before ih =>
    obtain ⟨front, back, hfound, hlength⟩ := ih
    rw [List.cons_append]
    by_cases hc : c = '\n'
    · subst hc
      refine ⟨front, back, ?_, hlength.trans (column_newline_cons before).symm⟩
      rw [row, List.count_cons_self, breakLines, if_pos rfl, List.getElem?_cons_succ]
      exact hfound
    · have hrow : row (c :: before) = row before := List.count_cons_of_ne hc
      rw [breakLines_cons hc, hrow]
      by_cases hmem : '\n' ∈ before
      · -- The line stands behind a newline, and `c` is on the first line.
        obtain ⟨n, hn⟩ := Nat.exists_eq_succ_of_ne_zero (List.count_pos_iff.2 hmem).ne'
        refine ⟨front, back, ?_, hlength.trans (column_cons_of_mem hmem c).symm⟩
        have hn : row before = n + 1 := hn
        rw [hn] at hfound ⊢
        rw [List.getElem?_cons_succ, List.getElem?_tail]
        exact hfound
      · refine ⟨c :: front, back, ?_, ?_⟩
        · rw [row_of_notMem hmem] at hfound ⊢
          rw [← List.head?_eq_getElem?] at hfound
          rw [hfound]
          rfl
        · have hnotMem : '\n' ∉ c :: before :=
            List.not_mem_cons_of_ne_of_not_mem (Ne.symm hc) hmem
          rw [column_of_notMem hnotMem, List.length_cons, hlength, column_of_notMem hmem,
            List.length_cons]

/-- A carriage return at the end of a line is not part of a word on it. -/
theorem exists_dropReturn {word : List Char} (hword : word ≠ []) (hreturn : '\r' ∉ word)
    (front back : List Char) :
    ∃ back', dropReturn (front ++ word ++ back) = front ++ word ++ back' := by
  unfold dropReturn
  split
  · rename_i hlast
    cases back using List.reverseRecOn with
    | nil =>
      rw [List.append_nil, List.getLast?_append_of_ne_nil _ hword] at hlast
      exact absurd (List.mem_of_getLast? hlast) hreturn
    | append_singleton back c =>
      exact ⟨back, by rw [← List.append_assoc, List.dropLast_concat]⟩
  · exact ⟨back, rfl⟩

/-- A word without a line end stands on its line of the source. -/
theorem exists_lines {source : String} {before word after : List Char} (hword : word ≠ [])
    (hline : '\n' ∉ word) (hreturn : '\r' ∉ word)
    (hsource : source.toList = before ++ (word ++ after)) :
    ∃ front back, (lines source)[row before]? = some (String.ofList (front ++ word ++ back)) ∧
      front.length = column before := by
  obtain ⟨front, back, hfound, hlength⟩ := exists_line hword hline before after
  obtain ⟨back', hback'⟩ := exists_dropReturn hword hreturn front back
  refine ⟨front, back', ?_, hlength⟩
  rw [lines, hsource, List.getElem?_map, hfound, Option.map_some, hback']

/-! ### The text under a span -/

/-- The text under a span on a single line, read off the lines of the source. There is none if the
span goes over several lines or if there is no such line. -/
def textUnder (lines : List String) (span : Span) : Option String :=
  if span.stop.line = span.start.line then
    (lines[(span.start.line - 1).toNat]?).map fun line ↦
      String.ofList <|
        (line.toList.take (span.stop.column - 1).toNat).drop (span.start.column - 1).toNat
  else none

/-- The text under the span of a word is the word. -/
theorem textUnder_word {source : String} {before word after : List Char} (hword : word ≠ [])
    (hline : '\n' ∉ word) (hreturn : '\r' ∉ word)
    (hsource : source.toList = before ++ (word ++ after)) (hsize : source.length < 2 ^ 32) :
    textUnder (lines source) ⟨location before, location (before ++ word)⟩ =
      some (String.ofList word) := by
  obtain ⟨front, back, hfound, hlength⟩ := exists_lines hword hline hreturn hsource
  have hlengths : before.length + (word.length + after.length) < 2 ^ 32 := by
    rw [← String.length_toList, hsource, List.length_append, List.length_append] at hsize
    exact hsize
  have hrow := (row_le_length before).trans_lt (by omega : before.length < 2 ^ 32)
  have hstart := column_le_length before
  have hstop : column (before ++ word) = column before + word.length := column_append hline before
  have hcolumn : column before < 2 ^ 32 := by omega
  have hend : column before + word.length < 2 ^ 32 := by omega
  rw [textUnder, location_eq, location_eq, row_append, row_of_notMem hline, Nat.add_zero,
    if_pos rfl, UInt32.add_sub_cancel, UInt32.add_sub_cancel, UInt32.add_sub_cancel,
    UInt32.toNat_ofNat_of_lt' hrow, UInt32.toNat_ofNat_of_lt' hcolumn, hstop,
    UInt32.toNat_ofNat_of_lt' hend, hfound, Option.map_some, String.toList_ofList, ← hlength,
    List.append_assoc, List.take_length_add_append, List.take_left' rfl, List.drop_left' rfl]

end Source

end ScalarMips
