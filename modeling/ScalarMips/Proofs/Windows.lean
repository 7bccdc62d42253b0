import Mathlib
import ScalarMips.Report.Basic

/-!
# The window of a report

A window is read off the source line by line, with a counter that goes up until it has passed the
last number (`window_eq_loop`). If the last number is that of a line of the source and not the
largest one of all, the window is a stretch of the list of lines (`window_eq`). If it is the largest
one, the counter cannot pass it, and there is no window (`window_eq_none`).

A report reads a window that goes no further than the lines of the source. As long as these are
fewer than `2 ^ 32`, its lines are quoted in the end unless they are one less than that
(`exists_lines_quoting`).
-/

namespace ScalarMips.Report

variable {source : List String} {line last : UInt32}

/-! ### Reading a window -/

/-- Behind the last line nothing is read. -/
theorem window_of_lt (h : last < line) : window source line last = some [] := by
  rw [window, if_neg (UInt32.not_le.2 h)]
  rfl

/-- The counter just goes up: what it finds behind the largest number is nothing anyway. -/
theorem window_eq_loop (hsource : source.length < 2 ^ 32) (line last : UInt32) :
    window source line last =
      if line ≤ last then do
        let text ← source[(line - 1).toNat]?
        let below ← window source (line + 1) last
        return text :: below
      else return [] := by
  rw [window]
  by_cases hzero : line + 1 = 0
  · -- The line in front of the first one would be the one with the largest index of all.
    have hnothing : source[((0 : UInt32) - 1).toNat]? = none :=
      List.getElem?_eq_none (Nat.le_of_lt_succ hsource)
    have hbelow : window source (line + 1) last = none := by
      rw [hzero, window, if_pos UInt32.zero_le, hnothing]
      rfl
    simp only [hbelow, if_pos hzero]
    rfl
  · simp only [if_neg hzero]

/-- Another line is read, and then those below it. -/
theorem window_of_le (hsource : source.length < 2 ^ 32) {text : String} (hle : line ≤ last)
    (htext : source[(line - 1).toNat]? = some text) :
    window source line last = (window source (line + 1) last).map (text :: ·) := by
  rw [window_eq_loop hsource, if_pos hle, htext]
  cases window source (line + 1) last <;> rfl

/-- A window is a stretch of the lines of the source, as long as the counter does not come round. -/
theorem window_eq (hsize : source.length < 2 ^ 32) (hlast : last.toNat + 1 < 2 ^ 32)
    (hsource : last.toNat ≤ source.length) {line : UInt32} (hline : 0 < line.toNat) :
    window source line last = some ((source.take last.toNat).drop (line.toNat - 1)) := by
  obtain hlt | hle := UInt32.lt_or_le last line
  · rw [window_of_lt hlt, List.drop_eq_nil_of_le]
    rw [List.length_take]
    have := UInt32.lt_iff_toNat_lt.1 hlt
    omega
  · have hle' := UInt32.le_iff_toNat_le.1 hle
    have hnext : (line + 1).toNat = line.toNat + 1 := by
      rw [UInt32.toNat_add, UInt32.toNat_one]
      omega
    have hindex : (line - 1).toNat = line.toNat - 1 :=
      UInt32.toNat_sub_of_le line 1 (UInt32.le_iff_toNat_le.2 hline)
    have hlt : line.toNat - 1 < (source.take last.toNat).length := by
      rw [List.length_take]
      omega
    have htext : source[(line - 1).toNat]? = some (source.take last.toNat)[line.toNat - 1] := by
      rw [hindex, List.getElem_take, List.getElem?_eq_getElem]
    have hpos : 0 < (line + 1).toNat := hnext ▸ Nat.succ_pos _
    have ih := window_eq hsize hlast hsource hpos
    rw [window_of_le hsize hle htext, ih, Option.map_some, hnext, List.drop_eq_getElem_cons hlt,
      Nat.add_sub_cancel, Nat.sub_add_cancel hline]
termination_by last.toNat + 1 - line.toNat

/-- The counter does not pass the largest number. -/
theorem window_eq_none (hlast : ∀ n : UInt32, n ≤ last) : window source line last = none := by
  fun_induction window source line last with
  | case1 line hle ih =>
    cases source[(line - 1).toNat]? with
    | none => rfl
    | some text =>
      by_cases hzero : line + 1 = 0
      · exact if_pos hzero
      · rw [ih hzero]
        exact if_neg hzero
  | case2 line hgt => exact absurd (hlast line) hgt

/-- What has been read to the end is a stretch of the lines of the source. -/
theorem eq_of_window {lines : List String} (h : window source line last = some lines)
    (hsize : source.length < 2 ^ 32) (hsource : last.toNat ≤ source.length)
    (hline : 0 < line.toNat) :
    lines = (source.take last.toNat).drop (line.toNat - 1) := by
  -- Otherwise nothing would have been read to the end.
  have hlast : last.toNat + 1 < 2 ^ 32 := by
    by_contra htop
    rw [window_eq_none fun n ↦ UInt32.le_iff_toNat_le.2 (by have := n.toNat_lt; omega)] at h
    cases h
  rw [window_eq hsize hlast hsource hline] at h
  exact (Option.some.inj h).symm

/-! ### The window of some problems -/

/-- The last line of all that are touched is one of them, and none is behind it. -/
theorem max?_eq_some_iff {ls : List UInt32} {last : UInt32} :
    ls.max? = some last ↔ last ∈ ls ∧ ∀ l ∈ ls, l ≤ last := by
  have hor : Std.MaxEqOr UInt32 := ⟨fun a b ↦ by
    simp only [← UInt32.toNat_inj, UInt32.toNat_max]
    exact max_choice a.toNat b.toNat⟩
  have hsup : Std.LawfulOrderSup UInt32 := ⟨fun a b c ↦ by
    simp only [UInt32.le_iff_toNat_le, UInt32.toNat_max]
    exact max_le_iff⟩
  have : Std.LawfulOrderMax UInt32 := {}
  exact List.max?_eq_some_iff

/-- The window of a report: from the first line on which a problem begins to the last that one
touches, if the source has it. -/
theorem exists_window (kind : ErrorKind) {problems : List Problem} (hne : problems ≠ [])
    (source : List String) : ∃ first last : UInt32,
      quoting kind problems source = ⟨kind, problems, max first 1,
        window source (max first 1) (min last (.ofNat source.length))⟩ ∧
      (∃ p ∈ problems, p.span.start.line = first) ∧
      (∃ p ∈ problems, p.span.start.line = last ∨ p.span.stop.line = last) ∧
      ∀ p ∈ problems, first ≤ p.span.start.line ∧ p.span.start.line ≤ last := by
  have hstarts : problems.map (fun p ↦ p.span.start.line) ≠ [] := mt List.map_eq_nil_iff.1 hne
  obtain ⟨first, hfirst⟩ := Option.isSome_iff_exists.1 (List.isSome_min?_iff.2 hstarts)
  obtain ⟨last, hlast⟩ := Option.isSome_iff_exists.1 <| List.isSome_max?_iff.2 <|
    List.append_ne_nil_of_left_ne_nil hstarts (problems.map fun p ↦ p.span.stop.line)
  obtain ⟨hmem, hle⟩ := List.min?_eq_some_iff.1 hfirst
  obtain ⟨htouched, hge⟩ := max?_eq_some_iff.1 hlast
  refine ⟨first, last, ?_, List.mem_map.1 hmem, ?_, fun p hp ↦ ?_⟩
  · simp only [quoting, hfirst, hlast]
  · rcases List.mem_append.1 htouched with hstart | hstop
    · obtain ⟨p, hp, hline⟩ := List.mem_map.1 hstart
      exact ⟨p, hp, .inl hline⟩
    · obtain ⟨p, hp, hline⟩ := List.mem_map.1 hstop
      exact ⟨p, hp, .inr hline⟩
  · exact ⟨hle _ (List.mem_map_of_mem hp),
      hge _ (List.mem_append_left _ (List.mem_map_of_mem hp))⟩

/-- The last line of a window, if the number of lines fits in a word. -/
theorem toNat_min_length (hsize : source.length < 2 ^ 32) (last : UInt32) :
    (min last (.ofNat source.length)).toNat = min last.toNat source.length := by
  rw [UInt32.toNat_min, UInt32.toNat_ofNat_of_lt' hsize]

theorem toNat_max_one_pos (first : UInt32) : 0 < (max first 1).toNat := by
  rw [UInt32.toNat_max]
  exact Nat.lt_of_lt_of_le Nat.one_pos (le_max_right _ _)

/-- The lines are quoted in the end if there are too few of them for the largest number. -/
theorem exists_lines_quoting (hsize : source.length + 1 < 2 ^ 32) (kind : ErrorKind)
    {problems : List Problem} (hne : problems ≠ []) :
    ∃ lines, (quoting kind problems source).lines = some lines := by
  obtain ⟨first, last, hquoting, -⟩ := exists_window kind hne source
  have hfits := Nat.lt_of_succ_lt hsize
  have hlast := toNat_min_length hfits last
  rw [hquoting]
  exact ⟨_, window_eq hfits (by omega) (by omega) (toNat_max_one_pos first)⟩

/-- They are never all quoted if there are as many as the largest number says and a problem begins
on the last one. -/
theorem lines_quoting_eq_none (hsize : source.length + 1 = 2 ^ 32) (kind : ErrorKind)
    {problems : List Problem} {p : Problem} (hp : p ∈ problems)
    (hline : p.span.start.line.toNat = source.length) :
    (quoting kind problems source).lines = none := by
  obtain ⟨first, last, hquoting, -, -, hbetween⟩ := exists_window kind (List.ne_nil_of_mem hp) source
  have hlast := toNat_min_length (by omega : source.length < 2 ^ 32) last
  have hle := UInt32.le_iff_toNat_le.1 (hbetween p hp).2
  rw [hquoting]
  refine window_eq_none fun n ↦ UInt32.le_iff_toNat_le.2 ?_
  have := n.toNat_lt
  omega

end ScalarMips.Report
