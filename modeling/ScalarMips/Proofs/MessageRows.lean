import ScalarMips.Proofs.LastLine
import ScalarMips.Proofs.ProblemPlaces
import ScalarMips.Proofs.Rendering
import ScalarMips.Proofs.Windows

/-!
# No message is lost

Every problem that compilation reports has a row of its own in the text of its report, under the
line on which it begins if the report quotes lines (`compile_shows`).

A report quotes the lines from the first on which one of its problems begins to the last that one
touches, as far as the source has them. A problem that begins on a line of the source therefore
begins on a quoted line. What a check complains about begins at a token and so on a line of the
source. A fault of the lexer or the parser may stand behind the last line, where the source ends;
it is the only problem of its report, and then no line is quoted.

The only compilations of short sources that do not come to an end are those in which something is
wrong on the line with the largest number (`not_ends_iff`). They never deliver a report.
-/

namespace ScalarMips

open Source

/-! ### Quoted lines -/

/-- A location on one of some lines, which count from one. -/
def Location.OnLine (lines : List String) (l : Location) : Prop :=
  0 < l.line.toNat ∧ l.line.toNat ≤ lines.length

namespace Report

/-- A report of problems that begin on lines of the source quotes these lines. -/
theorem quotes_quoting {source lines : List String} (hsize : source.length < 2 ^ 32)
    (kind : ErrorKind) {problems : List Problem} (hne : problems ≠ [])
    (h : ∀ p ∈ problems, p.span.start.OnLine source)
    (hlines : (quoting kind problems source).lines = some lines) :
    Quotes source (quoting kind problems source) lines := by
  obtain ⟨first, last, hquoting, ⟨q, hq, hfirst⟩, -, hbetween⟩ := exists_window kind hne source
  have hmax : (max first 1).toNat = first.toNat := by
    rw [UInt32.toNat_max]
    exact max_eq_left (hfirst ▸ (h q hq).1)
  have hlast := toNat_min_length hsize last
  rw [hquoting] at hlines ⊢
  have hstretch := eq_of_window hlines hsize (by omega) (toNat_max_one_pos first)
  rw [hlast, hmax] at hstretch
  have hlength : lines.length = min last.toNat source.length - (first.toNat - 1) := by
    rw [hstretch, List.length_drop, List.length_take]
    omega
  have hbegins : ∀ p ∈ problems, first.toNat ≤ p.span.start.line.toNat ∧
      p.span.start.line.toNat ≤ last.toNat ∧ p.span.start.OnLine source := fun p hp ↦
    ⟨UInt32.le_iff_toNat_le.1 (hbetween p hp).1, UInt32.le_iff_toNat_le.1 (hbetween p hp).2, h p hp⟩
  obtain ⟨hfirst_le, hle_last, hpos, hle⟩ := hbegins q hq
  rw [hfirst] at hpos hle
  exact
    { quoted := hlines
      pos := toNat_max_one_pos first
      stretch := ⟨_, by rw [hmax]; exact hstretch⟩
      fits := by
        rw [hmax, hlength]
        omega
      begins := fun p hp ↦ by
        obtain ⟨hfirst_le, hle_last, -, hle⟩ := hbegins p hp
        rw [hmax, hlength]
        omega }

/-- A report of a single problem that begins behind the last line of the source quotes no line. The
same is true where the line number has come to zero, if the problem ends there as well. -/
theorem quotes_single {source lines : List String} (hsize : source.length < 2 ^ 32)
    (kind : ErrorKind) {p : Problem}
    (h : 0 < p.span.start.line.toNat ∨ p.span.start.line = p.span.stop.line)
    (hlines : (quoting kind [p] source).lines = some lines) :
    lines = [] ∨ Quotes source (quoting kind [p] source) lines := by
  by_cases honLine : p.span.start.OnLine source
  · exact .inr (quotes_quoting hsize kind (List.cons_ne_nil p [])
      (List.forall_mem_singleton.2 honLine) hlines)
  · obtain ⟨first, last, hquoting, hfirst, htouched, -⟩ :=
      exists_window kind (List.cons_ne_nil p []) source
    simp only [List.mem_singleton, exists_eq_left] at hfirst htouched
    have hbehind : min last (.ofNat source.length) < max first 1 := by
      rw [UInt32.lt_iff_toNat_lt, toNat_min_length hsize, UInt32.toNat_max, ← hfirst,
        UInt32.toNat_one]
      by_cases hpos : 0 < p.span.start.line.toNat
      · have hlt : source.length < p.span.start.line.toNat :=
          Nat.lt_of_not_le fun hle ↦ honLine ⟨hpos, hle⟩
        omega
      · -- The problem ends on the same line, so this is the last one that it touches.
        have hlast : p.span.start.line = last :=
          htouched.elim id fun hstop ↦ (h.resolve_left hpos).trans hstop
        rw [← hlast]
        omega
    rw [hquoting, window_of_lt hbehind] at hlines
    exact .inl (Option.some.inj hlines).symm

end Report

open Report

/-! ### Where the lexer and the parser stop -/

namespace Lexer

/-- A fault begins behind a part of the text that is not all of it. -/
theorem fault_place {text rest front : List Char} (htext : front ++ rest = text)
    {fault : Located LexFault}
    (h : (Piece.place (location front) (Piece.cut rest)).fault = some fault) :
    ∃ before after, before ++ after = text ∧ after ≠ [] ∧ fault.span.start = location before := by
  fun_induction Piece.cut rest generalizing front with
  | case1 => cases h
  | case2 c rest =>
    cases h
    exact ⟨front, c :: rest, htext, List.cons_ne_nil _ _, rfl⟩
  | case3 c rest hfault ih =>
    rw [← scan_text_append c rest, ← List.append_assoc] at htext
    cases hpiece : (scan c rest).1 with
    | fault cause word => exact absurd hpiece (hfault cause word)
    | _ =>
      rw [hpiece] at htext h
      refine ih htext ?_
      rw [location_append]
      exact h

/-- The line of a location behind a text that does not fill all words. -/
theorem line_location {before : List Char} (h : before.length + 1 < 2 ^ 32) :
    (location before).line.toNat = row before + 1 := by
  have hrow := row_le_length before
  rw [location_eq, ← UInt32.ofNat_one, ← UInt32.ofNat_add]
  exact UInt32.toNat_ofNat_of_lt' (by omega : row before + 1 < 2 ^ 32)

theorem fault_line_pos {source : String} (hsize : source.length < 2 ^ 32)
    {fault : Located LexFault} (h : (lex source).fault = some fault) :
    0 < fault.span.start.line.toNat := by
  have htext : [] ++ source.toList = source.toList := rfl
  obtain ⟨before, after, hwhole, hafter, hstart⟩ := fault_place htext h
  have hlength := congrArg List.length hwhole
  have hpos := List.length_pos_iff.2 hafter
  rw [List.length_append, String.length_toList] at hlength
  rw [hstart, line_location (by omega)]
  exact Nat.succ_pos _

/-- The end of the file has no extent. -/
theorem Stands.start_eq_stop {text front : List Char} {ts : List Token}
    (h : Stands text front ts) :
    ∀ token ∈ ts, token.kind = .endOfFile → token.span.start = token.span.stop := by
  induction h with
  | nil => exact fun token htoken ↦ absurd htoken List.not_mem_nil
  | last => exact List.forall_mem_singleton.2 fun _ ↦ rfl
  | @cons front gap word kind ts _ hspells _ ih =>
    refine List.forall_mem_cons.2 ⟨fun hkind ↦ ?_, ih⟩
    obtain rfl : kind = .endOfFile := hkind
    cases hspells

end Lexer

/-- The parser stops at a token. -/
theorem exists_token_of_error {source : String} (hlex : (lex source).fault = none)
    {fault : Located ParseFault} (h : parse (lex source).tokens = .error fault) :
    ∃ token ∈ (lex source).tokens, fault.span = token.span := by
  obtain ⟨tokens, hkinds, ⟨span, hlexed, hdivides⟩ | ⟨lexFault, rest, hlexed, -⟩⟩ :=
    Lexer.ends_lex source
  · rw [hlexed] at h ⊢
    obtain ⟨r, hr, hspan⟩ := exists_refusal rfl hkinds h
    obtain ⟨ts, rest, rfl, hrspan, -⟩ :=
      Parser.program_halts tokens hdivides.wellWritten r hr
    rw [hrspan] at hspan
    cases rest with
    | nil => exact ⟨_, List.mem_append_right _ List.mem_cons_self, hspan⟩
    | cons token rest =>
      exact ⟨token, List.mem_append_left _ (List.mem_append_right _ List.mem_cons_self), hspan⟩
  · rw [hlexed] at hlex
    cases hlex

/-! ### Where the checks complain -/

/-- A token of a source begins at a location. -/
def Location.AtToken (source : String) (l : Location) : Prop :=
  ∃ token ∈ (lex source).tokens, token.kind ≠ .endOfFile ∧ token.span.start = l

/-- A token begins on a line of the source. -/
theorem Location.AtToken.onLine {source : String} (hsize : source.length < 2 ^ 32) {l : Location}
    (h : l.AtToken source) : l.OnLine (lines source) := by
  obtain ⟨token, htoken, hkind, rfl⟩ := h
  have hquoted := (Lexer.stands_lex source).quoted hsize token htoken hkind
  exact ⟨hquoted.line_pos, hquoted.line_le⟩

/-- What a check has found is quoted and begins at tokens, or is not quoted. -/
def Pass.AtTokens {σ : Type} (source : String) (p : Pass σ) : Prop :=
  ∀ f ∈ p.findings, f.quoted = false ∨ ∀ c ∈ f.complaints, c.span.start.AtToken source

section

variable {source : String} {program : List Stmt}

/-- What begins in a program that is read from a source begins at a token. -/
theorem Node.Begins.atToken (hparse : parse (lex source).tokens = .ok program) {stmt : Stmt}
    (hstmt : stmt ∈ program) {l : Location} (h : (Node.stmt stmt).Begins l) :
    l.AtToken source := by
  obtain ⟨m, hm, rfl⟩ := h
  obtain ⟨phrase, hphrase, hkinds, hnode⟩ := exists_phrase_of_within hparse hstmt hm
  obtain ⟨first, hfirst, last, -, hspan⟩ := hnode.covers
  have hmem := List.mem_of_mem_head? hfirst
  exact ⟨first, hphrase.subset hmem, hkinds first hmem, by rw [hspan]; rfl⟩

theorem Pass.Rooted.atTokens (hparse : parse (lex source).tokens = .ok program) {σ : Type}
    {p : Pass σ} (h : p.Rooted fun l ↦ ∃ stmt ∈ program, (Node.stmt stmt).Begins l) :
    p.AtTokens source := by
  refine fun f hf ↦ .inr fun c hc ↦ ?_
  obtain ⟨stmt, hstmt, hbegins⟩ := h f hf c hc
  exact hbegins.atToken hparse hstmt

theorem Declarations.check_atTokens (hparse : parse (lex source).tokens = .ok program)
    (entry : String) : (check entry program {}).AtTokens source := by
  refine List.forall_mem_append.2 ⟨(checkAll_rooted program {}).atTokens hparse, ?_⟩
  unfold checkEntry
  split
  · exact fun f hf ↦ absurd hf List.not_mem_nil
  · exact List.forall_mem_singleton.2 (.inl rfl)

/-- A report quotes no lines, or it is made for problems that begin at tokens of a source. -/
def Report.FromTokens (source : String) (r : Report) : Prop :=
  r.lines = some [] ∨ ∃ kind problems, problems ≠ [] ∧
    r = quoting kind problems (Source.lines source) ∧
      ∀ p ∈ problems, p.span.start.AtToken source

theorem Pass.AtTokens.fromTokens {σ : Type} {p : Pass σ} (h : p.AtTokens source)
    (hfiled : p.Filed) : ∀ r ∈ p.reports (lines source), r.FromTokens source := by
  refine List.forall_mem_map.2 fun f hf ↦ ?_
  unfold Finding.report
  split
  · rename_i hquoted
    refine .inr ⟨f.kind, _, mt List.map_eq_nil_iff.1 (hfiled f hf), rfl, ?_⟩
    refine List.forall_mem_map.2 ?_
    exact (h f hf).resolve_left (by rw [hquoted]; decide)
  · exact .inl rfl

/-- The checks report problems that begin at tokens, or quote no lines. -/
theorem fromTokens_check (hparse : parse (lex source).tokens = .ok program) (entry : String) :
    ∀ r ∈ Compile.check entry (lines source) program, r.FromTokens source := by
  intro r hr
  obtain ⟨list, hlist, hr⟩ :=
    List.mem_flatten.1 ((Compile.merges_check entry (lines source) program).perm.subset hr)
  rcases List.mem_cons.1 hlist with rfl | hlist
  · exact (Declarations.check_atTokens hparse entry).fromTokens
      (Declarations.filed_check entry program {}) r hr
  rcases List.mem_cons.1 hlist with rfl | hlist
  · exact ((Names.checkAll_rooted program _).atTokens hparse).fromTokens
      (Names.closed_checkAll Pass.closed_filed program _) r hr
  · obtain rfl := List.mem_singleton.1 hlist
    exact ((Types.checkAll_rooted program _).atTokens hparse).fromTokens
      (Types.closed_checkAll Pass.closed_filed program _) r hr

/-- Reports of problems that begin at tokens quote the lines on which these begin. -/
theorem Report.FromTokens.quotes (hsize : source.length < 2 ^ 32) {r : Report}
    (h : r.FromTokens source) {quoted : List String} (hlines : r.lines = some quoted) :
    quoted = [] ∨ Quotes (Source.lines source) r quoted := by
  rcases h with hnil | ⟨kind, problems, hne, rfl, hproblems⟩
  · exact .inl (Option.some.inj (hlines.symm.trans hnil))
  · exact .inr (quotes_quoting (length_lines_lt hsize) kind hne
      (fun p hp ↦ (hproblems p hp).onLine hsize) hlines)

end

/-! ### All reports -/

/-- A report is about a fault of the lexer, about a fault of the parser, or from the checks. -/
theorem report_cases {settings : Settings} {source : String} {r : Report}
    (h : r ∈ (compile settings source).reports) :
    (∃ fault, (lex source).fault = some fault ∧
      r = Compile.single .lex fault.span fault.val.message (lines source)) ∨
    (∃ fault, (lex source).fault = none ∧ parse (lex source).tokens = .error fault ∧
      r = Compile.single .parse fault.span fault.val.message (lines source)) ∨
    ∃ program, parse (lex source).tokens = .ok program ∧
      r ∈ Compile.check settings.entry (lines source) program := by
  cases hlex : (lex source).fault with
  | some fault =>
    rw [compile_of_fault hlex] at h
    exact .inl ⟨fault, rfl, List.mem_singleton.1 h⟩
  | none =>
    cases hparse : parse (lex source).tokens with
    | error fault =>
      rw [compile_of_error hlex hparse] at h
      exact .inr (.inl ⟨fault, rfl, rfl, List.mem_singleton.1 h⟩)
    | ok program =>
      rw [reports_of_ok hlex hparse] at h
      exact .inr (.inr ⟨program, rfl, h⟩)

/-- The reports of a compilation quote the lines on which their problems begin, or none. -/
theorem quotes_compile (settings : Settings) {source : String} (hsize : source.length < 2 ^ 32) :
    ∀ r ∈ (compile settings source).reports, ∀ quoted, r.lines = some quoted →
      quoted = [] ∨ Quotes (lines source) r quoted := by
  have hlines := length_lines_lt hsize
  intro r hr quoted hquoted
  rcases report_cases hr with
    ⟨fault, hlex, rfl⟩ | ⟨fault, hlex, hparse, rfl⟩ | ⟨program, hparse, hr⟩
  · exact quotes_single hlines .lex (.inl (Lexer.fault_line_pos hsize hlex)) hquoted
  · obtain ⟨token, htoken, hspan⟩ := exists_token_of_error hlex hparse
    have hstands := Lexer.stands_lex source
    refine quotes_single hlines .parse ?_ hquoted
    show 0 < fault.span.start.line.toNat ∨ fault.span.start.line = fault.span.stop.line
    rw [hspan]
    by_cases hkind : token.kind = .endOfFile
    · exact .inr (congrArg Location.line (hstands.start_eq_stop token htoken hkind))
    · exact .inl (hstands.quoted hsize token htoken hkind).line_pos
  · exact (fromTokens_check hparse settings.entry r hr).quotes hsize hquoted

theorem Report.Shows.length_eq {source : List String} {r : Report} {rows : List (Problem × String)}
    (h : Shows source r rows) : rows.length = r.problems.length := by
  rw [← h.each.length_eq, List.length_map]

/-- Reports whose problems have rows have as many rows as problems. -/
theorem Report.countProblems_of_shows {source : List String} {reports : List Report}
    {rows : List (List (Problem × String))} (h : List.Forall₂ (Shows source) reports rows) :
    rows.flatten.length = countProblems reports := by
  induction h with
  | nil => rfl
  | cons hshows _ ih =>
    rw [countProblems] at ih ⊢
    rw [List.flatten_cons, List.flatMap_cons, List.length_append, List.length_append, ih,
      hshows.length_eq]

/-! ### Compilations that do not end -/

/-- A report quotes no line on purpose, or is made for some problems. -/
theorem report_eq_quoting {settings : Settings} {source : String} {r : Report}
    (hr : r ∈ (compile settings source).reports) : r.lines = some [] ∨
      ∃ kind problems, problems ≠ [] ∧ r = quoting kind problems (lines source) := by
  rcases report_cases hr with ⟨fault, -, rfl⟩ | ⟨fault, -, -, rfl⟩ | ⟨program, hparse, hr⟩
  · exact .inr ⟨.lex, _, List.cons_ne_nil _ _, rfl⟩
  · exact .inr ⟨.parse, _, List.cons_ne_nil _ _, rfl⟩
  · obtain hnil | ⟨kind, problems, hne, rfl, -⟩ := fromTokens_check hparse settings.entry r hr
    · exact .inl hnil
    · exact .inr ⟨kind, problems, hne, rfl⟩

/-- Nothing is wrong with blanks, except that there is no entry point. -/
theorem lines_eq_nil_of_blanks {settings : Settings} {source : String} (hne : source.toList ≠ [])
    (hblanks : ∀ c ∈ source.toList, Lexer.isBlank c) {r : Report}
    (hr : r ∈ (compile settings source).reports) : r.lines = some [] := by
  obtain ⟨span, hlex⟩ := Lexer.lex_blanks hne hblanks
  rcases report_cases hr with ⟨fault, hfault, -⟩ | ⟨fault, -, hparse, -⟩ | ⟨program, hparse, hr⟩
  · rw [hlex] at hfault
    cases hfault
  · have hbody : ∀ token ∈ ([] : List Token), token.kind ≠ .endOfFile := fun _ h ↦ nomatch h
    have hok : parse [⟨.endOfFile, "", span⟩] = .ok [] :=
      (parse_append_eq_ok rfl hbody).2 (by rw [Parser.program])
    rw [hlex, hok] at hparse
    cases hparse
  · refine (fromTokens_check hparse settings.entry r hr).resolve_right ?_
    rintro ⟨kind, problems, hproblems, -, hplaces⟩
    obtain ⟨p, hp⟩ := List.exists_mem_of_ne_nil _ hproblems
    obtain ⟨token, htoken, hkind, -⟩ := hplaces p hp
    rw [hlex] at htoken
    exact hkind (List.mem_singleton.1 htoken ▸ rfl)

/-- A report that is never made is about the line with the largest number. -/
theorem fillsLastLine_of_lines_eq_none {settings : Settings} {source : String}
    (hsize : source.length < 2 ^ 32) {r : Report} (hr : r ∈ (compile settings source).reports)
    (hnone : r.lines = none) : FillsLastLine source := by
  have hlines : (lines source).length + 1 = 2 ^ 32 := by
    have hlt := length_lines_lt hsize
    by_contra hshort
    obtain hnil | ⟨kind, problems, hne, rfl⟩ := report_eq_quoting hr
    · cases hnone.symm.trans hnil
    · have hfew : (lines source).length + 1 < 2 ^ 32 := by omega
      obtain ⟨quoted, hquoted⟩ := exists_lines_quoting hfew kind hne
      cases hnone.symm.trans hquoted
  obtain ⟨front, c, hsource, hlength, hfront⟩ := exists_newlines hsize hlines
  refine ⟨front, c, hsource, hlength, hfront, fun hc ↦ ?_⟩
  have hblanks : ∀ d ∈ source.toList, Lexer.isBlank d := by
    rw [hsource]
    exact List.forall_mem_append.2
      ⟨fun d hd ↦ hfront d hd ▸ rfl, List.forall_mem_singleton.2 hc⟩
  have hne : source.toList ≠ [] := hsource ▸ List.concat_ne_nil c front
  cases hnone.symm.trans (lines_eq_nil_of_blanks hne hblanks hr)

/-- Every newline is a line. -/
theorem Lexer.line_location_of_newlines {front : List Char} (hfront : ∀ d ∈ front, d = '\n')
    (hsize : front.length + 1 < 2 ^ 32) :
    (location front).line.toNat = front.length + 1 := by
  have hrow : row front = front.length := List.count_eq_length.2 fun d hd ↦ (hfront d hd).symm
  rw [Lexer.line_location hsize, hrow]

/-- A single token is no program, and it or the end behind it is blamed. -/
theorem exists_error_of_singleton {source : String} {token last : Token}
    (hlex : lex source = ⟨[token, last], none⟩) :
    ∃ fault, parse (lex source).tokens = .error fault ∧
      (fault.span = token.span ∨ fault.span = last.span) := by
  cases hparse : parse (lex source).tokens with
  | ok program =>
    obtain ⟨tokens, end_, htokens, -, -, -, hderived⟩ := exists_tokens hparse
    rw [hlex] at htokens
    obtain ⟨rfl, -⟩ := List.append_inj' (show [token] ++ [last] = _ from htokens) rfl
    exact absurd rfl (hderived.ne_singleton token)
  | error fault =>
    obtain ⟨blamed, hblamed, hspan⟩ := exists_token_of_error (congrArg Lexed.fault hlex) hparse
    rw [hlex] at hblamed
    refine ⟨fault, rfl, ?_⟩
    rcases List.mem_cons.1 hblamed with rfl | hblamed
    · exact .inl hspan
    · exact .inr (List.mem_singleton.1 hblamed ▸ hspan)

/-- What stands alone on the line with the largest number is a fault or a token that is no program,
and the report about it is never made. -/
theorem exists_lines_eq_none (settings : Settings) {source : String} (h : FillsLastLine source) :
    ∃ r ∈ (compile settings source).reports, r.lines = none := by
  have hlines := h.length_lines
  obtain ⟨front, c, hsource, hlength, hfront, hc⟩ := h
  have hne : front ≠ [] := List.ne_nil_of_length_pos (by rw [hlength]; decide)
  -- The fault or the token begins on the last line, and the source ends on the same line.
  have hline : (location front).line.toNat = (lines source).length := by
    rw [Lexer.line_location_of_newlines hfront (by omega)]
    omega
  have hend : (location source.toList).line = (location front).line := by
    have hnotMem : '\n' ∉ [c] := fun hmem ↦ hc (List.mem_singleton.1 hmem ▸ rfl)
    rw [hsource, location_append_of_notMem hnotMem]
  rcases Lexer.lex_concat hsource hne (fun d hd ↦ hfront d hd ▸ rfl) hc with
    ⟨fault, hlex, hstart⟩ | ⟨token, last, hlex, hstart, hstop⟩
  · rw [compile_of_fault (congrArg Lexed.fault hlex)]
    exact ⟨_, List.mem_singleton_self _,
      lines_quoting_eq_none hlines .lex (List.mem_singleton_self _) (hstart ▸ hline)⟩
  · obtain ⟨fault, hparse, hspan⟩ := exists_error_of_singleton hlex
    have hplace : fault.span.start.line = (location front).line := by
      rcases hspan with hspan | hspan
      · rw [hspan, hstart]
      · rw [hspan, hstop, hend]
    rw [compile_of_error (congrArg Lexed.fault hlex) hparse]
    exact ⟨_, List.mem_singleton_self _,
      lines_quoting_eq_none hlines .parse (List.mem_singleton_self _) (hplace ▸ hline)⟩

theorem ends_iff {settings : Settings} {source : String} :
    (compile settings source).ends ↔
      ∀ r ∈ (compile settings source).reports, ∃ quoted, r.lines = some quoted := by
  simp only [Outcome.ends, List.all_eq_true, Option.isSome_iff_exists]

/-- A compilation fails to end exactly if something stands alone on the line with the largest
number. -/
theorem not_ends_iff (settings : Settings) {source : String} (hsize : source.length < 2 ^ 32) :
    ¬ (compile settings source).ends ↔ FillsLastLine source := by
  constructor
  · intro h
    by_contra hfills
    refine h (ends_iff.2 fun r hr ↦ Option.ne_none_iff_exists'.1 fun hnone ↦ ?_)
    exact hfills (fillsLastLine_of_lines_eq_none hsize hr hnone)
  · intro h hends
    obtain ⟨r, hr, hnone⟩ := exists_lines_eq_none settings h
    obtain ⟨quoted, hquoted⟩ := ends_iff.1 hends r hr
    cases hnone.symm.trans hquoted

/-! ### The rows of messages -/

/-- **No message is lost in rendering.** For a source with fewer than `2 ^ 32` characters and any
settings, the compilation comes to an end, unless there is nothing but a single character that is no
blank on the line with the largest number. When it ends, the text of every report shows its problems
in rows of their own, one for each of them and none for anything else. The row of a problem ends
with its message, and stands in the group under the source line on which the problem begins; if the
report quotes no lines, it stands below the rule. Over all reports there are as many of these rows
as problems. -/
theorem compile_shows (settings : Settings) {source : String} (hsize : source.length < 2 ^ 32) :
    (¬ (compile settings source).ends ↔ FillsLastLine source) ∧
      ((compile settings source).ends →
        ∃ rows, List.Forall₂ (Shows (lines source)) (compile settings source).reports rows ∧
          rows.flatten.length = (compile settings source).problemCount) := by
  refine ⟨not_ends_iff settings hsize, fun hends ↦ ?_⟩
  have hshows : ∀ r ∈ (compile settings source).reports, ∃ rows, Shows (lines source) r rows := by
    intro r hr
    obtain ⟨quoted, hquoted⟩ := ends_iff.1 hends r hr
    rcases quotes_compile settings hsize r hr quoted hquoted with rfl | hquotes
    · exact ⟨_, shows_of_lines_eq_nil hquoted⟩
    · exact hquotes.exists_shows
  have hall : ∃ rows,
      List.Forall₂ (Shows (lines source)) (compile settings source).reports rows := by
    generalize (compile settings source).reports = reports at hshows
    induction reports with
    | nil => exact ⟨[], .nil⟩
    | cons r reports ih =>
      obtain ⟨hr, hreports⟩ := List.forall_mem_cons.1 hshows
      obtain ⟨rows, hrows⟩ := hr
      obtain ⟨more, hmore⟩ := ih hreports
      exact ⟨rows :: more, .cons hrows hmore⟩
  obtain ⟨rows, hrows⟩ := hall
  exact ⟨rows, hrows, countProblems_of_shows hrows⟩

namespace Sample

/-- A call on two lines with a wrong argument on each, in a program without an entry point. -/
def scattered : String :=
  "fun int f(int x, int y) \x7b\n  return f(true,\n    false);\n\x7d\n"

end Sample

/-- One row tells of the missing entry point, and one stands under each of the two lines. -/
theorem compile_shows_scattered :
    Sample.scattered.length < 2 ^ 32 ∧ (compile {} Sample.scattered).ends ∧
      ∃ rows, List.Forall₂ (Shows (lines Sample.scattered))
          (compile {} Sample.scattered).reports rows ∧
        rows.flatten.length = (compile {} Sample.scattered).problemCount ∧
        rows.flatten.length = 3 := by
  have hsize : Sample.scattered.length < 2 ^ 32 := by decide
  have hlex : (lex Sample.scattered).fault = none := by cbv
  obtain ⟨program, hparse, hdeclarations, hnames, htypes⟩ : ∃ program,
      parse (lex Sample.scattered).tokens = .ok program ∧
        (Compile.declarations "main" program).count = 1 ∧
        (Compile.names "main" program).count = 0 ∧ (Compile.types "main" program).count = 2 :=
    ⟨_, by cbv, by cbv, by cbv, by cbv⟩
  have hcount : (compile {} Sample.scattered).problemCount = 3 := by
    have hsum := @problemCount_of_ok {} Sample.scattered program hlex hparse
    rwa [hdeclarations, hnames, htypes] at hsum
  obtain ⟨hendless, hdelivers⟩ := compile_shows {} hsize
  have hends : (compile {} Sample.scattered).ends := by
    by_contra hnever
    obtain ⟨front, c, hsource, hlength, -⟩ := hendless.1 hnever
    have hshort : Sample.scattered.toList.length = 57 := by decide
    rw [hsource, List.length_append, List.length_singleton] at hshort
    omega
  obtain ⟨rows, hshows, hrows⟩ := hdelivers hends
  exact ⟨hsize, hends, rows, hshows, hrows, hrows.trans hcount⟩

end ScalarMips
