import ScalarMips.Proofs.MessageRows

/-!
# Messages under their problems

The message of a problem should stand under the character at which the problem begins, with bars to
its left where the problems further to the left begin (`Report.Aligned`). A row is built by padding
and appending, so a bar stands where it should if the row has not come that far yet, and at the end
of the row otherwise (`Report.places`). Problems in one column get in each other's way then: the bar
of the first stands in the column of both, and the bar or the message of the second one column
further to the right. That is the only way in which a row goes wrong as long as columns do not wrap
to zero (`Report.aligned_iff`).
-/

namespace ScalarMips

namespace Report

/-! ### Bars -/

/-- What bars that should stand in some columns add to a row of length `n`. -/
def bars (n : ℕ) : List ℕ → List Char
  | [] => []
  | c :: cs => List.replicate (c - n) ' ' ++ '|' :: bars (max n c + 1) cs

/-- The columns in which the bars stand. -/
def places (n : ℕ) : List ℕ → List ℕ
  | [] => []
  | c :: cs => max n c :: places (max n c + 1) cs

theorem length_places (n : ℕ) (cs : List ℕ) : (places n cs).length = cs.length := by
  induction cs generalizing n with
  | nil => rfl
  | cons c cs ih => exact congrArg Nat.succ (ih (max n c + 1))

theorem le_of_mem_places {n m : ℕ} {cs : List ℕ} (h : m ∈ places n cs) : n ≤ m := by
  induction cs generalizing n with
  | nil => exact absurd h List.not_mem_nil
  | cons c cs ih =>
    rcases List.mem_cons.1 h with rfl | h
    · exact le_max_left n c
    · have := ih h
      omega

theorem nodup_places (n : ℕ) (cs : List ℕ) : (places n cs).Nodup := by
  induction cs generalizing n with
  | nil => exact List.nodup_nil
  | cons c cs ih =>
    refine List.nodup_cons.2 ⟨fun h ↦ ?_, ih _⟩
    have := le_of_mem_places h
    omega

/-- Columns that increase from `n` on are where the bars stand. -/
theorem places_eq {n : ℕ} {cs : List ℕ} (hle : ∀ c ∈ cs, n ≤ c) (h : cs.Pairwise (· < ·)) :
    places n cs = cs := by
  induction cs generalizing n with
  | nil => rfl
  | cons c cs ih =>
    obtain ⟨hc, hcs⟩ := List.pairwise_cons.1 h
    have hmax : max n c = c := max_eq_right (hle c List.mem_cons_self)
    rw [places, hmax, ih hc hcs]

theorem length_bars_cons (n c : ℕ) (cs : List ℕ) :
    n + (bars n (c :: cs)).length = max n c + 1 + (bars (max n c + 1) cs).length := by
  rw [bars, List.length_append, List.length_replicate, List.length_cons]
  omega

/-- With the bars the row is just long enough to hold them. -/
theorem length_bars_le {n b : ℕ} {cs : List ℕ} :
    n + (bars n cs).length ≤ b ↔ n ≤ b ∧ ∀ m ∈ places n cs, m < b := by
  induction cs generalizing n with
  | nil => exact (and_iff_left fun m hm ↦ absurd hm List.not_mem_nil).symm
  | cons c cs ih =>
    rw [length_bars_cons, ih, places, List.forall_mem_cons]
    have := le_max_left n c
    exact ⟨fun ⟨hc, hcs⟩ ↦ ⟨by omega, hc, hcs⟩, fun ⟨_, hc, hcs⟩ ↦ ⟨hc, hcs⟩⟩

/-- Between the bars there are blanks. -/
theorem getElem?_bars {n i : ℕ} {cs : List ℕ} (h : i < (bars n cs).length) :
    (bars n cs)[i]? = some (if n + i ∈ places n cs then '|' else ' ') := by
  induction cs generalizing n i with
  | nil => exact absurd h (Nat.not_lt_zero i)
  | cons c cs ih =>
    have hlength := length_bars_cons n c cs
    rw [places, bars]
    rcases Nat.lt_trichotomy i (c - n) with hi | hi | hi
    · have hnotMem : n + i ∉ max n c :: places (max n c + 1) cs := by
        refine List.not_mem_cons_of_ne_of_not_mem (by omega) fun hmem ↦ ?_
        have := le_of_mem_places hmem
        omega
      rw [if_neg hnotMem, List.getElem?_append_left (by rwa [List.length_replicate]),
        List.getElem?_replicate, if_pos hi]
    · have hhere : n + i = max n c := by omega
      rw [hhere, if_pos List.mem_cons_self, List.getElem?_append_right
        (by rw [List.length_replicate]; omega), List.length_replicate, hi, Nat.sub_self]
      rfl
    · obtain ⟨j, rfl⟩ := Nat.exists_eq_add_of_le (Nat.succ_le_of_lt hi)
      rw [Nat.succ_eq_add_one] at h ⊢
      have hthere : n + (c - n + 1 + j) = max n c + 1 + j := by omega
      have hne : max n c + 1 + j ≠ max n c := by omega
      rw [hthere, List.getElem?_append_right (by rw [List.length_replicate]; omega),
        List.length_replicate, Nat.add_assoc, Nat.add_sub_cancel_left, Nat.add_comm 1 j,
        List.getElem?_cons_succ, ih (by omega)]
      refine congrArg some (if_congr ?_ rfl rfl)
      exact (List.mem_cons.trans (or_iff_right hne)).symm

/-! ### Rows -/

section

variable {gutter : String} {problems before after : List Problem} {p : Problem}

theorem toList_padTo (width : ℕ) (row : String) :
    (padTo width row).toList = row.toList ++ List.replicate (width - row.length) ' ' := by
  rw [padTo, blanks, String.toList_append, String.toList_ofList]

theorem toList_foldl_padTo (gutter row : String) (before : List Problem) :
    (before.foldl (fun row q ↦ padTo (markColumn gutter q) row ++ "|") row).toList =
      row.toList ++ bars row.length (before.map (markColumn gutter)) := by
  induction before generalizing row with
  | nil => exact (List.append_nil _).symm
  | cons q before ih =>
    have hlength : (padTo (markColumn gutter q) row ++ "|").length =
        max row.length (markColumn gutter q) + 1 := by
      rw [← String.length_toList, String.toList_append, toList_padTo, List.length_append,
        List.length_append, List.length_replicate, String.length_toList]
      show row.length + (markColumn gutter q - row.length) + 1 = _
      omega
    rw [List.foldl_cons, ih, hlength, String.toList_append, toList_padTo, List.append_assoc,
      List.append_assoc]
    rfl

/-- The part of a row in front of the blanks and the message: the gutter and the bars. -/
def barred (gutter : String) (before : List Problem) : List Char :=
  gutter.toList ++ bars gutter.length (before.map (markColumn gutter))

theorem toList_messageRow (gutter : String) (before : List Problem) (p : Problem) :
    (messageRow gutter before p).toList = barred gutter before ++
      List.replicate (markColumn gutter p - (barred gutter before).length) ' ' ++
        p.message.toList := by
  rw [messageRow, String.toList_append, toList_padTo, barred, ← toList_foldl_padTo,
    String.length_toList]

theorem length_barred (gutter : String) (before : List Problem) : (barred gutter before).length =
    gutter.length + (bars gutter.length (before.map (markColumn gutter))).length := by
  rw [barred, List.length_append, String.length_toList]

theorem getElem?_barred {i : ℕ} (hle : gutter.length ≤ i) (h : i < (barred gutter before).length) :
    (barred gutter before)[i]? =
      some (if i ∈ places gutter.length (before.map (markColumn gutter)) then '|' else ' ') := by
  obtain ⟨j, rfl⟩ := Nat.exists_eq_add_of_le hle
  rw [length_barred] at h
  rw [barred, List.getElem?_append_right (by rw [String.length_toList]; exact hle),
    String.length_toList, Nat.add_sub_cancel_left, getElem?_bars (by omega)]

/-! ### Alignment -/

/-- In the row of a problem the message stands under the character at which the problem begins, and
the bars to its left stand in the columns in which problems on the line begin. -/
structure Aligned (gutter : String) (problems : List Problem) (p : Problem) (row : String) :
    Prop where
  /-- The row starts with the gutter. -/
  starts : gutter.toList <+: row.toList
  /-- The message starts in its column. -/
  message : ∃ front, row.toList = front ++ p.message.toList ∧ front.length = markColumn gutter p
  /-- From the gutter to the message there are bars where problems begin, and blanks. -/
  bars : ∀ i, gutter.length ≤ i → i < markColumn gutter p → row.toList[i]? =
    some (if ∃ q ∈ problems, q.span.start.line = p.span.start.line ∧ markColumn gutter q = i
      then '|' else ' ')

/-- Problems that begin in different columns, counted from one. -/
structure Apart (problems : List Problem) : Prop where
  /-- No two problems begin in one column. -/
  distinct : (problems.map fun p ↦ p.span.start.column).Nodup
  /-- No column has wrapped to zero. -/
  pos : ∀ p ∈ problems, p.span.start.column ≠ 0

theorem markColumn_lt_iff (hgutter : 0 < gutter.length) {q : Problem} :
    markColumn gutter q < markColumn gutter p ↔ q.span.start.column < p.span.start.column := by
  rw [UInt32.lt_iff_toNat_lt, markColumn, markColumn]
  omega

theorem le_markColumn_iff (hgutter : 0 < gutter.length) :
    gutter.length ≤ markColumn gutter p ↔ p.span.start.column ≠ 0 := by
  rw [Ne, ← UInt32.toNat_inj, UInt32.toNat_zero, markColumn]
  omega

variable (hgutter : 0 < gutter.length)
  (hsorted : (before ++ p :: after).Pairwise fun q r ↦ q.span.start.column ≤ r.span.start.column)
include hgutter hsorted

/-- The bars of problems that are apart stand where they should, and leave room for the message. -/
theorem Apart.places_eq (h : Apart (p :: before.reverse)) :
    places gutter.length (before.map (markColumn gutter)) = before.map (markColumn gutter) ∧
      (barred gutter before).length ≤ markColumn gutter p := by
  obtain ⟨hcolumn, hcolumns⟩ := List.nodup_cons.1 h.distinct
  rw [List.map_reverse, List.mem_reverse] at hcolumn
  rw [List.map_reverse, List.nodup_reverse] at hcolumns
  obtain ⟨hbefore, -, hbetween⟩ := List.pairwise_append.1 hsorted
  have hle : ∀ c ∈ before.map (markColumn gutter), gutter.length ≤ c := by
    refine List.forall_mem_map.2 fun q hq ↦ (le_markColumn_iff hgutter).2 (h.pos q ?_)
    exact List.mem_cons_of_mem _ (List.mem_reverse.2 hq)
  have hlt : ∀ c ∈ before.map (markColumn gutter), c < markColumn gutter p := by
    refine List.forall_mem_map.2 fun q hq ↦ (markColumn_lt_iff hgutter).2 ?_
    refine UInt32.lt_of_le_of_ne (hbetween q hq p List.mem_cons_self) fun heq ↦ hcolumn ?_
    exact List.mem_map.2 ⟨q, hq, heq⟩
  have hincreasing : (before.map (markColumn gutter)).Pairwise (· < ·) := by
    refine List.pairwise_map.2 ((hbefore.and (List.pairwise_map.1 hcolumns)).imp fun hqr ↦ ?_)
    exact (markColumn_lt_iff hgutter).2 (UInt32.lt_of_le_of_ne hqr.1 hqr.2)
  have hplaces := Report.places_eq hle hincreasing
  refine ⟨hplaces, ?_⟩
  rw [length_barred, length_bars_le, hplaces]
  exact ⟨(le_markColumn_iff hgutter).2 (h.pos p List.mem_cons_self), hlt⟩

variable (hline : ∀ q, q ∈ before ++ p :: after ↔
  q ∈ problems ∧ q.span.start.line = p.span.start.line)
include hline

/-- What begins further to the left on the line is one of the problems before. -/
theorem mem_map_markColumn_iff {i : ℕ} (h : i < markColumn gutter p) :
    i ∈ before.map (markColumn gutter) ↔
      ∃ q ∈ problems, q.span.start.line = p.span.start.line ∧ markColumn gutter q = i := by
  rw [List.mem_map]
  constructor
  · rintro ⟨q, hq, rfl⟩
    obtain ⟨hproblems, hq⟩ := (hline q).1 (List.mem_append_left _ hq)
    exact ⟨q, hproblems, hq, rfl⟩
  · rintro ⟨q, hproblems, hq, rfl⟩
    refine ⟨q, ?_, rfl⟩
    have hlt := (markColumn_lt_iff hgutter).1 h
    rcases List.mem_append.1 ((hline q).2 ⟨hproblems, hq⟩) with hq | hq
    · exact hq
    · rcases List.mem_cons.1 hq with rfl | hq
      · exact absurd hlt (UInt32.lt_irrefl _)
      · have hle := (List.pairwise_cons.1 (List.pairwise_append.1 hsorted).2.1).1 q hq
        exact absurd hlt (UInt32.not_lt.2 hle)

/-- The row of a problem is aligned if the problems up to it are apart. -/
theorem Apart.aligned (h : Apart (p :: before.reverse)) :
    Aligned gutter problems p (messageRow gutter before p) := by
  obtain ⟨hplaces, hfits⟩ := h.places_eq hgutter hsorted
  refine ⟨?_, ⟨_, toList_messageRow gutter before p, ?_⟩, fun i hi hip ↦ ?_⟩
  · rw [toList_messageRow, barred, List.append_assoc, List.append_assoc]
    exact List.prefix_append _ _
  · rw [List.length_append, List.length_replicate]
    omega
  · have hmem := mem_map_markColumn_iff hgutter hsorted hline hip
    rw [toList_messageRow, List.append_assoc]
    by_cases hbarred : i < (barred gutter before).length
    · rw [List.getElem?_append_left hbarred, getElem?_barred hi hbarred, hplaces]
      exact congrArg some (if_congr hmem rfl rfl)
    · have hnone : ¬ ∃ q ∈ problems,
          q.span.start.line = p.span.start.line ∧ markColumn gutter q = i := by
        rw [← hmem, ← hplaces]
        intro hplace
        rw [length_barred] at hbarred
        exact hbarred ((length_bars_le.1 (Nat.le_refl _)).2 i hplace)
      rw [if_neg hnone, List.getElem?_append_right (Nat.le_of_not_lt hbarred),
        List.getElem?_append_left (by rw [List.length_replicate]; omega), List.getElem?_replicate,
        if_pos (by omega)]

/-- In an aligned row the bars leave room for the message, and stand in the columns in which they
should. -/
theorem Aligned.places_perm (h : Aligned gutter problems p (messageRow gutter before p)) :
    (barred gutter before).length ≤ markColumn gutter p ∧
      (places gutter.length (before.map (markColumn gutter))).Perm
        (before.map (markColumn gutter)) := by
  obtain ⟨front, hrow, hfront⟩ := h.message
  have hfits : (barred gutter before).length ≤ markColumn gutter p := by
    rw [toList_messageRow] at hrow
    have hlength := congrArg List.length (List.append_cancel_right hrow)
    rw [List.length_append, List.length_replicate] at hlength
    omega
  refine ⟨hfits, ?_⟩
  have hsubset : places gutter.length (before.map (markColumn gutter)) ⊆
      before.map (markColumn gutter) := by
    intro i hi
    have hle := le_of_mem_places hi
    have hlt := (length_bars_le.1 (Nat.le_refl (gutter.length + _))).2 i hi
    rw [← length_barred] at hlt
    have hbar := h.bars i hle (hlt.trans_le hfits)
    rw [toList_messageRow, List.append_assoc, List.getElem?_append_left hlt,
      getElem?_barred hle hlt, if_pos hi] at hbar
    refine (mem_map_markColumn_iff hgutter hsorted hline (hlt.trans_le hfits)).2 ?_
    by_contra hnone
    rw [if_neg hnone] at hbar
    exact absurd hbar (by decide)
  -- as many different columns as there should be
  exact ((nodup_places _ _).subperm hsubset).perm_of_length_le (length_places _ _).ge

/-- The problems up to a row are apart if it is aligned. -/
theorem Aligned.apart (h : Aligned gutter problems p (messageRow gutter before p)) :
    Apart (p :: before.reverse) := by
  obtain ⟨hfits, hperm⟩ := h.places_perm hgutter hsorted hline
  have hplaces := length_bars_le.1 ((length_barred gutter before).symm.trans_le hfits)
  have hlt : ∀ q ∈ before, q.span.start.column < p.span.start.column := fun q hq ↦
    (markColumn_lt_iff hgutter).1 (hplaces.2 _ (hperm.mem_iff.2 (List.mem_map_of_mem hq)))
  have hcolumns : (before.map fun q ↦ q.span.start.column).Nodup := by
    refine List.pairwise_map.2 ((List.pairwise_map.1 (hperm.nodup (nodup_places _ _))).imp ?_)
    intro q r hne heq
    exact hne (congrArg (fun c : UInt32 ↦ gutter.length + c.toNat - 1) heq)
  refine ⟨List.nodup_cons.2 ⟨?_, ?_⟩, List.forall_mem_cons.2 ⟨?_, fun q hq ↦ ?_⟩⟩
  · rw [List.map_reverse, List.mem_reverse, List.mem_map]
    rintro ⟨q, hq, heq⟩
    exact UInt32.lt_irrefl _ (heq ▸ hlt q hq)
  · rw [List.map_reverse, List.nodup_reverse]
    exact hcolumns
  · exact (le_markColumn_iff hgutter).1 hplaces.1
  · refine (le_markColumn_iff hgutter).1 (le_of_mem_places (hperm.mem_iff.2 ?_))
    exact List.mem_map_of_mem (List.mem_reverse.1 hq)

end

/-! ### Groups -/

section

variable {problems : List Problem} {p : Problem} {row : String} {below : List (Problem × String)}

/-- A row stands above those of the problems before it. -/
theorem eq_messageRow {gutter : String} (h : (p, row) :: below <:+ messages gutter problems) :
    row = messageRow gutter (below.map Prod.fst).reverse p := by
  induction problems with
  | nil => exact absurd (List.suffix_nil.1 h) (List.cons_ne_nil _ _)
  | cons q before ih =>
    rcases List.suffix_cons_iff.1 h with heq | h
    · obtain ⟨hrow, rfl⟩ := List.cons.inj heq
      obtain ⟨rfl, rfl⟩ := Prod.mk.inj hrow
      rw [map_fst_messages]
    · exact ih h

theorem mem_startingOn {number : UInt32} {q : Problem} :
    q ∈ startingOn problems number ↔ q ∈ problems ∧ q.span.start.line = number := by
  rw [startingOn, (sortOn_perm _ _).mem_iff, List.mem_filter, decide_eq_true_iff]

theorem length_gutter_pos (number : UInt32) : 0 < (gutter number).length := by
  rw [gutter, ← String.length_toList, String.toList_append, List.length_append]
  exact Nat.add_pos_right _ (by decide)

/-- A row under a line is aligned if and only if its problem and those of the rows below it are
apart. -/
theorem aligned_iff {number : UInt32}
    (h : (p, row) :: below <:+ messages (gutter number) (startingOn problems number).reverse) :
    Aligned (gutter number) problems p row ↔ Apart (p :: below.map Prod.fst) := by
  obtain ⟨before, hbefore⟩ : ∃ before : List Problem, below.map Prod.fst = before.reverse :=
    ⟨_, (List.reverse_reverse _).symm⟩
  have hsuffix := h.map Prod.fst
  rw [map_fst_messages, List.map_cons, hbefore] at hsuffix
  obtain ⟨after, hafter⟩ := List.reverse_prefix.2 hsuffix
  rw [List.reverse_reverse, List.reverse_cons, List.append_assoc, List.singleton_append,
    List.reverse_reverse] at hafter
  have hsorted := pairwise_sortOn (fun q : Problem ↦ q.span.start.column)
    (problems.filter fun q ↦ q.span.start.line = number)
  rw [← startingOn, ← hafter] at hsorted
  have hmem : ∀ q, q ∈ before ++ p :: after ↔ q ∈ problems ∧ q.span.start.line = number :=
    fun q ↦ by rw [hafter, mem_startingOn]
  have hp := ((hmem p).1 (List.mem_append_right _ List.mem_cons_self)).2
  rw [eq_messageRow h, hbefore, List.reverse_reverse]
  subst hp
  exact ⟨fun hrow ↦ hrow.apart (length_gutter_pos _) hsorted hmem,
    fun hapart ↦ hapart.aligned (length_gutter_pos _) hsorted hmem⟩

end

end Report

open Source Report Compile

/-! ### Columns -/

namespace Lexer

/-- Every token begins behind some part of the text. -/
theorem Stands.exists_location {text front : List Char} {ts : List Token}
    (h : Stands text front ts) :
    ∀ token ∈ ts, ∃ before, before <+: text ∧ token.span.start = location before := by
  induction h with
  | nil => exact fun token htoken ↦ absurd htoken List.not_mem_nil
  | last => exact List.forall_mem_singleton.2 ⟨text, List.prefix_refl _, rfl⟩
  | @cons front gap word kind ts hprefix _ _ ih =>
    exact List.forall_mem_cons.2
      ⟨⟨front ++ gap, (List.prefix_append _ word).trans hprefix, rfl⟩, ih⟩

/-- Columns count from one. -/
theorem column_location_ne_zero {before : List Char} (h : before.length + 1 < 2 ^ 32) :
    (location before).column ≠ 0 := by
  have hle := column_le_length before
  have hcolumn : (location before).column = UInt32.ofNat (column before + 1) := by
    rw [location_eq, UInt32.ofNat_add]
    rfl
  rw [hcolumn, Ne, ← UInt32.toNat_inj,
    UInt32.toNat_ofNat_of_lt' (by omega : column before + 1 < 2 ^ 32)]
  exact Nat.succ_ne_zero _

end Lexer

/-- The problems of a report that quotes lines begin in the source or at its end. -/
theorem exists_location_compile (settings : Settings) (source : String) :
    ∀ r ∈ (compile settings source).reports, r.lines ≠ some [] → ∀ p ∈ r.problems,
      ∃ before, before <+: source.toList ∧ p.span.start = location before := by
  have hstands := Lexer.stands_lex source
  intro r hr hlines
  rcases report_cases hr with
    ⟨fault, hlex, rfl⟩ | ⟨fault, hlex, hparse, rfl⟩ | ⟨program, hparse, hr⟩
  · have htext : [] ++ source.toList = source.toList := rfl
    obtain ⟨before, after, hwhole, -, hstart⟩ := Lexer.fault_place htext hlex
    rw [Compile.single, problems_quoting]
    exact List.forall_mem_singleton.2 ⟨before, ⟨after, hwhole⟩, hstart⟩
  · obtain ⟨token, htoken, hspan⟩ := exists_token_of_error hlex hparse
    rw [Compile.single, problems_quoting, hspan]
    exact List.forall_mem_singleton.2 (hstands.exists_location token htoken)
  · obtain ⟨kind, problems, -, rfl, hproblems⟩ :=
      (fromTokens_check hparse settings.entry r hr).resolve_left hlines
    rw [problems_quoting]
    intro p hp
    obtain ⟨token, htoken, -, hstart⟩ := hproblems p hp
    rw [← hstart]
    exact hstands.exists_location token htoken

/-! ### All reports -/

/-- **Messages stand under their problems, unless two problems share a column.** A report that
quotes lines consists of a group of rows for each line, in which the problems that begin on the line
have their rows, from right to left. The row of a problem is aligned, that is, its message starts at
the index that the gutter and the column of the problem give, and the bars to the left of it stand
at those of the problems that begin further to the left, exactly if no two of the problems of that
row and the rows below it begin in one column and none of their columns is zero. If the source has
fewer than `2 ^ 32 - 1` characters, no column is zero. -/
theorem compile_aligns (settings : Settings) (source : String) :
    ∀ r ∈ (compile settings source).reports, ∀ lines, r.lines = some lines → lines ≠ [] →
      (∃ gs : List Group, gs.map Group.line = lines ∧
        r.render = some (text r.kind (gs.flatMap Group.rows)) ∧
        ∀ g ∈ gs, g.messages.map Prod.fst = (startingOn r.problems g.number).reverse ∧
          ∀ p row below, (p, row) :: below <:+ g.messages →
            (Aligned (gutter g.number) r.problems p row ↔ Apart (p :: below.map Prod.fst))) ∧
      (source.length + 1 < 2 ^ 32 → ∀ p ∈ r.problems, p.span.start.column ≠ 0) := by
  intro r hr lines hlines hne
  refine ⟨⟨groups r.problems r.firstLine lines, map_line_groups _ _ _, render_eq_groups hlines hne,
    fun g hg ↦ ?_⟩, fun hsize p hp ↦ ?_⟩
  · rw [← @UInt32.ofNat_toNat r.firstLine] at hg
    obtain ⟨k, line, -, rfl⟩ := exists_of_mem_groups hg
    exact ⟨map_fst_messages _ _, fun p row below h ↦ aligned_iff h⟩
  · have hquotes : r.lines ≠ some [] := fun hnil ↦ hne (Option.some.inj (hlines.symm.trans hnil))
    obtain ⟨before, hbefore, hstart⟩ := exists_location_compile settings source r hr hquotes p hp
    have hlength := hbefore.length_le
    rw [String.length_toList] at hlength
    rw [hstart]
    exact Lexer.column_location_ne_zero (by omega)

/-! ### Samples -/

/-- What a check complains about in the source is reported with its lines. -/
theorem quoting_mem_of_ok {settings : Settings} {source : String} {program : List Stmt}
    (hlex : (lex source).fault = none) (hparse : parse (lex source).tokens = .ok program)
    {kind : ErrorKind} {complaints : List Complaint}
    (hf : ⟨kind, complaints, true⟩ ∈ (names settings.entry program).findings ++
      (types settings.entry program).findings) :
    quoting kind (complaints.map Complaint.problem) (Source.lines source) ∈
      (compile settings source).reports := by
  rw [reports_of_ok hlex hparse]
  refine (merges_check settings.entry (Source.lines source) program).perm.symm.subset ?_
  have hreport := List.mem_map_of_mem (f := Finding.report (Source.lines source)) hf
  rw [List.map_append] at hreport
  rw [Compile.reports, List.flatten_cons, List.flatten_cons, List.flatten_cons, List.flatten_nil,
    List.append_nil]
  exact List.mem_append_right _ hreport

/-- A report of problems that begin on lines of the source quotes some lines. -/
theorem exists_lines_ne_nil {source : List String} (hsize : source.length + 1 < 2 ^ 32)
    (kind : ErrorKind) {problems : List Problem} (hne : problems ≠ [])
    (h : ∀ p ∈ problems, p.span.start.OnLine source) :
    ∃ lines, (quoting kind problems source).lines = some lines ∧ lines ≠ [] := by
  obtain ⟨lines, hlines⟩ := exists_lines_quoting hsize kind hne
  refine ⟨lines, hlines, ?_⟩
  rintro rfl
  obtain ⟨p, hp⟩ := List.exists_mem_of_ne_nil _ hne
  have hquotes := quotes_quoting (Nat.lt_of_succ_lt hsize) kind hne h hlines
  have hbegins := hquotes.begins p (by rwa [problems_quoting])
  rw [List.length_nil] at hbegins
  omega

namespace Sample

/-- Three undeclared names stand in one expression. -/
def stacked : String := "fun int main() \x7b\n  return x + yy * z;\n\x7d\n"

/-- The complaints about the names. -/
def stackedComplaints : List Complaint :=
  [⟨⟨⟨2, 10⟩, ⟨2, 11⟩⟩, .undeclared .var "x" none⟩,
    ⟨⟨⟨2, 14⟩, ⟨2, 16⟩⟩, .undeclared .var "yy" none⟩,
    ⟨⟨⟨2, 19⟩, ⟨2, 20⟩⟩, .undeclared .var "z" none⟩]

/-- A call without its argument stands as an operand of the wrong type. -/
def tied : String :=
  "fun bool f(int x) \x7b return true; \x7d\nfun int main() \x7b return f() + 1; \x7d\n"

/-- The extent of the call. -/
def tiedSpan : Span := ⟨⟨2, 25⟩, ⟨2, 28⟩⟩

/-- The complaints about the call and about the operand. -/
def tiedComplaints : List Complaint :=
  [⟨tiedSpan, .argumentCount "f" 1 0⟩, ⟨tiedSpan, .binaryOperand .plus .int .bool⟩]

end Sample

/-- The rows of the three names are aligned. -/
theorem compile_aligns_stacked :
    Sample.stacked.length + 1 < 2 ^ 32 ∧
      ∃ r ∈ (compile {} Sample.stacked).reports, ∃ lines, r.lines = some lines ∧ lines ≠ [] ∧
        Apart r.problems.reverse ∧
        (∃ gs : List Group, gs.map Group.line = lines ∧
          r.render = some (text r.kind (gs.flatMap Group.rows)) ∧
          ∀ g ∈ gs, g.messages.map Prod.fst = (startingOn r.problems g.number).reverse ∧
            ∀ p row below, (p, row) :: below <:+ g.messages →
              (Aligned (gutter g.number) r.problems p row ↔ Apart (p :: below.map Prod.fst))) ∧
        ∀ p ∈ r.problems, p.span.start.column ≠ 0 := by
  have hsize : Sample.stacked.length + 1 < 2 ^ 32 := by decide
  have hlex : (lex Sample.stacked).fault = none := by cbv
  obtain ⟨program, hparse, hfindings⟩ : ∃ program,
      parse (lex Sample.stacked).tokens = .ok program ∧
        (names "main" program).findings = [⟨.name, Sample.stackedComplaints, true⟩] :=
    ⟨_, by cbv, by cbv⟩
  have hmem := @quoting_mem_of_ok {} Sample.stacked program hlex hparse .name
    Sample.stackedComplaints (List.mem_append_left _ (hfindings ▸ List.mem_singleton_self _))
  have hlength : (Source.lines Sample.stacked).length = 3 := by cbv
  have honLine : ∀ c ∈ Sample.stackedComplaints,
      c.span.start.OnLine (Source.lines Sample.stacked) := by
    simp [Sample.stackedComplaints, Location.OnLine, hlength]
  obtain ⟨lines, hlines, hne⟩ := @exists_lines_ne_nil (Source.lines Sample.stacked)
    (by rw [hlength]; decide) .name (Sample.stackedComplaints.map Complaint.problem)
    (List.cons_ne_nil _ _) (List.forall_mem_map.2 honLine)
  obtain ⟨hgroups, hcolumns⟩ := compile_aligns {} Sample.stacked _ hmem lines hlines hne
  refine ⟨hsize, _, hmem, lines, hlines, hne, ?_, hgroups, hcolumns hsize⟩
  rw [problems_quoting]
  exact ⟨by decide, by decide⟩

/-- The bar of the first problem stands in the column of both, and the message of the second one
column further to the right. -/
theorem compile_misaligned :
    ∃ r ∈ (compile {} Sample.tied).reports, ∃ p q : Problem, r.problems = [p, q] ∧
      p.span.start = ⟨2, 25⟩ ∧ q.span.start = ⟨2, 25⟩ ∧
      ∃ g : Group, r.lines = some [g.line] ∧ r.render = some (text r.kind g.rows) ∧
        gutter g.number = "  | " ∧
        g.messages = [(q, "  |                         |" ++ q.message),
          (p, "  |                         " ++ p.message)] ∧
        ¬ Aligned (gutter g.number) r.problems q ("  |                         |" ++ q.message) := by
  have hlex : (lex Sample.tied).fault = none := by cbv
  obtain ⟨program, hparse, hfindings⟩ : ∃ program,
      parse (lex Sample.tied).tokens = .ok program ∧
        (types "main" program).findings = [⟨.type, Sample.tiedComplaints, true⟩] :=
    ⟨_, by cbv, by cbv⟩
  have hmem := @quoting_mem_of_ok {} Sample.tied program hlex hparse .type
    Sample.tiedComplaints (List.mem_append_right _ (hfindings ▸ List.mem_singleton_self _))
  -- what the messages say does not matter to where they stand
  obtain ⟨m, m', hproblems⟩ : ∃ m m', Sample.tiedComplaints.map Complaint.problem =
      [⟨Sample.tiedSpan, m⟩, ⟨Sample.tiedSpan, m'⟩] := ⟨_, _, rfl⟩
  have hquoting : quoting .type [⟨Sample.tiedSpan, m⟩, ⟨Sample.tiedSpan, m'⟩]
      (Source.lines Sample.tied) = ⟨.type, [⟨Sample.tiedSpan, m⟩, ⟨Sample.tiedSpan, m'⟩], 2,
        some ["fun int main() \x7b return f() + 1; \x7d"]⟩ := by
    cbv
  have hmessages : messages (gutter 2)
      (startingOn [⟨Sample.tiedSpan, m⟩, ⟨Sample.tiedSpan, m'⟩] 2).reverse =
        [(⟨Sample.tiedSpan, m'⟩, "  |                         |" ++ m'),
          (⟨Sample.tiedSpan, m⟩, "  |                         " ++ m)] := by
    cbv
  rw [hproblems, hquoting] at hmem
  refine ⟨_, hmem, _, _, rfl, rfl, rfl,
    group [⟨Sample.tiedSpan, m⟩, ⟨Sample.tiedSpan, m'⟩] 2 "fun int main() \x7b return f() + 1; \x7d",
    rfl, (render_eq_groups rfl (List.cons_ne_nil _ _)).trans ?_, by cbv, hmessages, fun h ↦ ?_⟩
  · rw [groups, groups, List.flatMap_cons, List.flatMap_nil, List.append_nil]
  · have hcolumns : List.Nodup [(25 : UInt32), 25] :=
      ((aligned_iff ⟨[], hmessages.symm⟩).1 h).distinct
    exact absurd hcolumns (by decide)

end ScalarMips
