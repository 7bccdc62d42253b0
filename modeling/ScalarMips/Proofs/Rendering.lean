import Mathlib
import ScalarMips.Report.Render

/-!
# What a rendered report shows

The text of a report is taken apart into its rows. A report that quotes lines has a group of rows
for each of them: the line, its carets, and a row for each message below it (`Report.Group`). A
report without lines has a row for each message right below its rule.

A message has no row if its problem begins on a line that is not quoted, and it would have two if a
line number came twice. Neither happens in a report that quotes the lines on which its problems
begin (`Report.Quotes.exists_shows`).
-/

namespace ScalarMips.Report

/-! ### Groups -/

/-- The rows of a quoted line. -/
structure Group where
  /-- The number of the line. -/
  number : UInt32
  /-- The text of the line. -/
  line : String
  /-- The carets under the line. -/
  carets : String
  /-- Problems with the rows in which their messages stand, from top to bottom. -/
  messages : List (Problem × String)

/-- The rows of a group from top to bottom. -/
def Group.rows (g : Group) : List String :=
  (Numeral.ofSize g.number ++ " | " ++ g.line) :: g.carets :: g.messages.map Prod.snd

/-- Problems given from right to left, each with the row of its message. -/
def messages (gutter : String) : List Problem → List (Problem × String)
  | [] => []
  | p :: before => (p, messageRow gutter before.reverse p) :: messages gutter before

/-- The group of a line. -/
def group (problems : List Problem) (number : UInt32) (line : String) : Group :=
  ⟨number, line, caretRow problems number line,
    messages (gutter number) (startingOn problems number).reverse⟩

/-- The groups of lines that are numbered from `number`. -/
def groups (problems : List Problem) (number : UInt32) : List String → List Group
  | [] => []
  | line :: lines => group problems number line :: groups problems (number + 1) lines

/-- The text of a report of some kind with some rows below the rule. -/
def text (kind : ErrorKind) (rows : List String) : String :=
  String.join ((kind.heading :: "~~~~~~~~~~~~~~~~~~~" :: rows).map (· ++ "\n"))

theorem map_fst_messages (gutter : String) (problems : List Problem) :
    (messages gutter problems).map Prod.fst = problems := by
  induction problems with
  | nil => rfl
  | cons p before ih => exact congrArg (p :: ·) ih

theorem map_snd_messages (gutter : String) (problems : List Problem) :
    (messages gutter problems).map Prod.snd = messageRows gutter problems := by
  induction problems with
  | nil => rfl
  | cons p before ih => exact congrArg (messageRow gutter before.reverse p :: ·) ih

theorem rows_groups (problems : List Problem) (lines : List String) (number : UInt32) :
    (groups problems number lines).flatMap Group.rows = quotedLines problems number lines := by
  induction lines generalizing number with
  | nil => rfl
  | cons line lines ih =>
    rw [groups, List.flatMap_cons, ih, quotedLines, quotedLine, ← map_snd_messages]
    rfl

theorem map_line_groups (problems : List Problem) (lines : List String) (number : UInt32) :
    (groups problems number lines).map Group.line = lines := by
  induction lines generalizing number with
  | nil => rfl
  | cons line lines ih => exact congrArg (line :: ·) (ih (number + 1))

/-- The text of a report that quotes lines consists of their groups. -/
theorem render_eq_groups {r : Report} {lines : List String} (h : r.lines = some lines)
    (hne : lines ≠ []) :
    r.render = some (text r.kind ((groups r.problems r.firstLine lines).flatMap Group.rows)) := by
  obtain ⟨line, below, rfl⟩ := List.exists_cons_of_ne_nil hne
  rw [render, h, rows_groups]
  rfl

/-- Every group is that of a line, with the number that its place gives it. -/
theorem exists_of_mem_groups {problems : List Problem} {g : Group} {lines : List String} {n : ℕ}
    (h : g ∈ groups problems (UInt32.ofNat n) lines) :
    ∃ k line, lines[k]? = some line ∧ g = group problems (UInt32.ofNat (n + k)) line := by
  induction lines generalizing n with
  | nil => exact absurd h List.not_mem_nil
  | cons line lines ih =>
    rcases List.mem_cons.1 h with rfl | h
    · exact ⟨0, line, rfl, rfl⟩
    · have hnumber : UInt32.ofNat n + 1 = UInt32.ofNat (n + 1) := (UInt32.ofNat_add n 1).symm
      rw [hnumber] at h
      obtain ⟨k, line', hline', rfl⟩ := ih h
      refine ⟨k + 1, line', hline', ?_⟩
      rw [Nat.add_right_comm, Nat.add_assoc]

/-! ### Problems and groups -/

/-- A problem that has a row in the group of a line begins on the line. -/
theorem line_of_mem_messages {problems : List Problem} {number : UInt32} {line : String}
    {m : Problem × String} (h : m ∈ (group problems number line).messages) :
    m.1.span.start.line = number := by
  have hmem : m.1 ∈ (startingOn problems number).reverse := by
    rw [← map_fst_messages (gutter number) (startingOn problems number).reverse]
    exact List.mem_map_of_mem h
  have hmem := (sortOn_perm _ _).mem_iff.1 (List.mem_reverse.1 hmem)
  exact of_decide_eq_true (List.mem_filter.1 hmem).2

/-- The row of a problem ends with its message. -/
theorem message_suffix {gutter : String} {problems : List Problem} :
    ∀ m ∈ messages gutter problems, m.1.message.toList <:+ m.2.toList := by
  induction problems with
  | nil => exact fun m hm ↦ absurd hm List.not_mem_nil
  | cons p before ih =>
    refine List.forall_mem_cons.2 ⟨?_, ih⟩
    rw [messageRow, String.toList_append]
    exact List.suffix_append _ _

/-- The lines of two stretches of lines that follow one another are those of both. -/
theorem filter_succ_perm (problems : List Problem) (n k : ℕ) :
    (problems.filter (fun p ↦ p.span.start.line.toNat = n) ++
      problems.filter fun p ↦ n + 1 ≤ p.span.start.line.toNat ∧
        p.span.start.line.toNat < n + 1 + k).Perm
    (problems.filter fun p ↦ n ≤ p.span.start.line.toNat ∧
      p.span.start.line.toNat < n + (k + 1)) := by
  have hsplit := List.filter_append_perm (fun p : Problem ↦ decide (p.span.start.line.toNat = n))
    (problems.filter fun p ↦ n ≤ p.span.start.line.toNat ∧ p.span.start.line.toNat < n + (k + 1))
  rw [List.filter_filter, List.filter_filter] at hsplit
  refine List.Perm.trans (List.Perm.of_eq (congrArg₂ _ ?_ ?_)) hsplit
  · refine List.filter_congr fun p _ ↦ ?_
    rw [← Bool.decide_and, decide_eq_decide]
    omega
  · refine List.filter_congr fun p _ ↦ ?_
    rw [← decide_not, ← Bool.decide_and, decide_eq_decide]
    omega

/-- The problems that have rows are those that begin on one of the lines, each of them once. -/
theorem groups_perm (problems : List Problem) {lines : List String} {n : ℕ}
    (h : n + lines.length ≤ 2 ^ 32) :
    (((groups problems (UInt32.ofNat n) lines).flatMap Group.messages).map Prod.fst).Perm
      (problems.filter fun p ↦ n ≤ p.span.start.line.toNat ∧
        p.span.start.line.toNat < n + lines.length) := by
  induction lines generalizing n with
  | nil =>
    refine List.Perm.of_eq (Eq.symm (List.filter_eq_nil_iff.2 fun p _ hp ↦ ?_))
    have := of_decide_eq_true hp
    simp only [List.length_nil] at this
    omega
  | cons line lines ih =>
    rw [List.length_cons] at h ⊢
    have hnumber : UInt32.ofNat n + 1 = UInt32.ofNat (n + 1) := (UInt32.ofNat_add n 1).symm
    have hfirst : ((group problems (UInt32.ofNat n) line).messages.map Prod.fst).Perm
        (problems.filter fun p ↦ p.span.start.line.toNat = n) := by
      rw [group, map_fst_messages]
      refine (List.reverse_perm _).trans ((sortOn_perm _ _).trans (List.Perm.of_eq ?_))
      refine List.filter_congr fun p _ ↦ decide_eq_decide.2 ?_
      rw [← UInt32.toNat_inj, UInt32.toNat_ofNat_of_lt' (by omega : n < 2 ^ 32)]
    rw [groups, List.flatMap_cons, List.map_append, hnumber]
    exact (hfirst.append (ih (by omega))).trans (filter_succ_perm problems n lines.length)

/-! ### Reports that show their problems -/

/-- Where the messages of a report stand: in the groups of the source lines on which their problems
begin, or, if the report quotes no lines, right below the rule. -/
inductive Placed (source : List String) (r : Report) : List (Problem × String) → Prop where
  | listed : r.lines = some [] → r.render = some (text r.kind (r.problems.map Problem.message)) →
      Placed source r (r.problems.map fun p ↦ (p, p.message))
  | grouped {gs : List Group} : r.lines = some (gs.map Group.line) → gs ≠ [] →
      r.render = some (text r.kind (gs.flatMap Group.rows)) →
      (∀ g ∈ gs, 0 < g.number.toNat ∧ source[g.number.toNat - 1]? = some g.line ∧
        ∀ m ∈ g.messages, m.1.span.start.line = g.number) →
      Placed source r (gs.flatMap Group.messages)

/-- The text of a report shows each problem in a row of its own. -/
structure Shows (source : List String) (r : Report) (rows : List (Problem × String)) : Prop where
  /-- There is one row for each problem and for nothing else. -/
  each : (rows.map Prod.fst).Perm r.problems
  /-- The row of a problem ends with its message. -/
  ends : ∀ m ∈ rows, m.1.message.toList <:+ m.2.toList
  /-- The rows are where they belong. -/
  placed : Placed source r rows

/-- A report quotes the lines of the source on which its problems begin. -/
structure Quotes (source : List String) (r : Report) (lines : List String) : Prop where
  /-- These are its lines. -/
  quoted : r.lines = some lines
  /-- Lines count from one. -/
  pos : 0 < r.firstLine.toNat
  /-- The lines are lines of the source, from the first one on. -/
  stretch : ∃ n, lines = (source.take n).drop (r.firstLine.toNat - 1)
  /-- All line numbers fit in words. -/
  fits : r.firstLine.toNat + lines.length ≤ 2 ^ 32
  /-- Every problem begins on one of the lines. -/
  begins : ∀ p ∈ r.problems, r.firstLine.toNat ≤ p.span.start.line.toNat ∧
    p.span.start.line.toNat < r.firstLine.toNat + lines.length

theorem shows_of_lines_eq_nil {source : List String} {r : Report} (h : r.lines = some []) :
    Shows source r (r.problems.map fun p ↦ (p, p.message)) where
  each := List.Perm.of_eq (by rw [List.map_map]; exact List.map_id _)
  ends := List.forall_mem_map.2 fun p _ ↦ List.suffix_refl _
  placed := by
    refine .listed h ?_
    rw [render, h]
    rfl

/-- A report that quotes the lines on which its problems begin shows them all. -/
theorem Quotes.exists_shows {source lines : List String} {r : Report} (h : Quotes source r lines) :
    ∃ rows, Shows source r rows := by
  by_cases hlines : lines = []
  · exact ⟨_, shows_of_lines_eq_nil (hlines ▸ h.quoted)⟩
  have hfirst : r.firstLine = UInt32.ofNat r.firstLine.toNat := UInt32.ofNat_toNat.symm
  have hmem : ∀ g ∈ groups r.problems r.firstLine lines, ∃ k line, lines[k]? = some line ∧
      g = group r.problems (UInt32.ofNat (r.firstLine.toNat + k)) line := by
    intro g hg
    rw [hfirst] at hg
    exact exists_of_mem_groups hg
  refine ⟨(groups r.problems r.firstLine lines).flatMap Group.messages, ?_, ?_,
    .grouped ?_ ?_ (render_eq_groups h.quoted hlines) fun g hg ↦ ?_⟩
  · have hperm := groups_perm r.problems h.fits
    rw [← hfirst, List.filter_eq_self.2 fun p hp ↦ decide_eq_true (h.begins p hp)] at hperm
    exact hperm
  · intro m hm
    obtain ⟨g, hg, hm⟩ := List.mem_flatMap.1 hm
    obtain ⟨k, line, -, rfl⟩ := hmem g hg
    exact message_suffix m hm
  · rw [map_line_groups, h.quoted]
  · exact fun hnil ↦ hlines (by rw [← map_line_groups r.problems lines r.firstLine, hnil]; rfl)
  · obtain ⟨k, line, hline, rfl⟩ := hmem g hg
    obtain ⟨hk, -⟩ := List.getElem?_eq_some_iff.1 hline
    have hfits := h.fits
    have hpos := h.pos
    have hnumber : (UInt32.ofNat (r.firstLine.toNat + k)).toNat = r.firstLine.toNat + k :=
      UInt32.toNat_ofNat_of_lt' (by omega : r.firstLine.toNat + k < 2 ^ 32)
    refine ⟨?_, ?_, fun m hm ↦ line_of_mem_messages hm⟩
    · show 0 < (UInt32.ofNat (r.firstLine.toNat + k)).toNat
      omega
    · show source[(UInt32.ofNat (r.firstLine.toNat + k)).toNat - 1]? = some line
      obtain ⟨n, hn⟩ := h.stretch
      rw [hn, List.getElem?_drop, List.getElem?_take] at hline
      rw [hnumber, Nat.sub_add_comm hpos]
      exact (Option.ite_none_right_eq_some.1 hline).2

end ScalarMips.Report
