import ScalarMips.Proofs.FrameSizes
import ScalarMips.Proofs.Phrases
import ScalarMips.Proofs.TokenSpans

/-!
# Spans of trees

Every part of a tree that is read from a source has the span of its phrase, and spans are nested
like the tree: what a part consists of stands inside it, one thing after the other (`parse_spans`).

That spans are those of phrases is a fact about the grammar (`Declarations.fills`). Nesting follows
from it for any tokens that stand in the order of the text (`Phrase.tidy`), since the phrases of the
children of a part lie one behind the other in its own.
-/

namespace ScalarMips

/-! ### Nested spans -/

namespace Span

/-- One span begins not before another begins and ends not behind its end. -/
def Encloses (s t : Span) : Prop :=
  s.start.coordinates ≤ t.start.coordinates ∧ t.stop.coordinates ≤ s.stop.coordinates

end Span

/-- The span of a part ends behind its start; the spans of its children lie inside it, and each of
them ends before the next one begins. -/
structure Node.Tidy (n : Node) : Prop where
  /-- The part has characters. -/
  forward : n.span.Forward
  /-- The children lie inside. -/
  encloses : ∀ child ∈ n.children, n.span.Encloses child.span
  /-- They do not overlap and stand in order. -/
  ordered : n.children.Pairwise fun child next ↦ child.span.Precedes next.span

/-- A part of a part of a tree, or the part itself. -/
def Node.Within : Node → Node → Prop :=
  Relation.ReflTransGen fun n child ↦ child ∈ n.children

/-- Tokens that have characters and stand in the order of the text. -/
structure Token.InOrder (ts : List Token) : Prop where
  /-- Each of them ends behind its start. -/
  forward : ∀ t ∈ ts, t.span.Forward
  /-- Each of them ends before the next one begins. -/
  ordered : ts.Pairwise fun t next ↦ t.span.Precedes next.span

namespace Token.InOrder

variable {first second ts : List Token}

theorem left (h : InOrder (first ++ second)) : InOrder first :=
  ⟨fun t ht ↦ h.forward t (List.mem_append_left _ ht), (List.pairwise_append.1 h.ordered).1⟩

theorem right (h : InOrder (first ++ second)) : InOrder second :=
  ⟨fun t ht ↦ h.forward t (List.mem_append_right _ ht), (List.pairwise_append.1 h.ordered).2.1⟩

theorem of_infix (h : InOrder ts) (hpart : second <:+: ts) : InOrder second := by
  obtain ⟨front, back, rfl⟩ := hpart
  exact h.left.right

theorem precedes (h : InOrder (first ++ second)) {t t' : Token} (ht : t ∈ first)
    (ht' : t' ∈ second) : t.span.Precedes t'.span :=
  (List.pairwise_append.1 h.ordered).2.2 t ht t' ht'

end Token.InOrder

namespace Span

open Token

variable {s s' : Span} {first second ts : List Token}

/-- A span that covers tokens in order encloses each of them. -/
theorem Covers.encloses_token (h : s.Covers ts) (hts : InOrder ts) {t : Token} (ht : t ∈ ts) :
    s.Encloses t.span := by
  obtain ⟨start, hstart, last, hlast, rfl⟩ := h
  constructor
  · obtain ⟨tail, rfl⟩ := List.head?_eq_some_iff.1 hstart
    rcases List.mem_cons.1 ht with rfl | ht
    · exact le_refl _
    · have hbefore := List.rel_of_pairwise_cons hts.ordered ht
      exact (hts.forward start List.mem_cons_self).le.trans hbefore
  · obtain ⟨front, rfl⟩ := List.getLast?_eq_some_iff.1 hlast
    rcases List.mem_append.1 ht with ht | ht
    · have hbefore : t.span.Precedes last.span := hts.precedes ht List.mem_cons_self
      exact le_trans hbefore (hts.forward last (List.mem_append_right _ List.mem_cons_self)).le
    · obtain rfl := List.mem_singleton.1 ht
      exact le_refl _

theorem Covers.forward (h : s.Covers ts) (hts : InOrder ts) : s.Forward := by
  obtain ⟨start, hstart, -⟩ := id h
  have hmem := List.mem_of_mem_head? hstart
  obtain ⟨hle, hle'⟩ := h.encloses_token hts hmem
  exact hle.trans_lt ((hts.forward start hmem).trans_le hle')

/-- A span encloses those of parts of its phrase. -/
theorem Covers.encloses (h : s.Covers ts) (hts : InOrder ts) (h' : s'.Covers second)
    (hpart : second <:+: ts) : s.Encloses s' := by
  obtain ⟨start, hstart, last, hlast, rfl⟩ := h'
  have hfirst := h.encloses_token hts (hpart.subset (List.mem_of_mem_head? hstart))
  have hlast := h.encloses_token hts (hpart.subset (List.mem_of_getLast? hlast))
  exact ⟨hfirst.1, hlast.2⟩

/-- The span of a phrase precedes those of phrases among later tokens. -/
theorem Covers.precedes (h : s.Covers first) (h' : s'.Covers ts) (hpart : ts <:+: second)
    (hts : InOrder (first ++ second)) : s.Precedes s' := by
  obtain ⟨_, -, last, hlast, rfl⟩ := h
  obtain ⟨start, hstart, _, -, rfl⟩ := h'
  exact hts.precedes (List.mem_of_getLast? hlast)
    (hpart.subset (List.mem_of_mem_head? hstart))

end Span

/-! ### The phrases of children -/

/-- A place that a token fills is not that of a part. -/
theorem Slot.parts_of_accepts {slot : Slot} {t : Token} (h : slot.Accepts t) (slots : List Slot) :
    (slot :: slots).filterMap Slot.part? = slots.filterMap Slot.part? := by
  cases slot with
  | part node => exact h.elim
  | _ => rfl

theorem Slot.parts_part (n : Node) (slots : List Slot) :
    (Slot.part n :: slots).filterMap Slot.part? = n :: slots.filterMap Slot.part? := rfl

/-- The phrases of the parts at some places lie in the tokens that fill them. -/
theorem Fills.exists_phrase : ∀ {ts : List Token} {slots : List Slot}, Fills ts slots →
    ∀ child ∈ slots.filterMap Slot.part?, ∃ phrase, phrase <:+: ts ∧ Phrase phrase child
  | _, _, .nil, _, hchild => absurd hchild List.not_mem_nil
  | _, _, @Fills.token t ts _ _ haccepts hrest, child, hchild => by
    rw [Slot.parts_of_accepts haccepts] at hchild
    obtain ⟨phrase, hpart, hphrase⟩ := hrest.exists_phrase child hchild
    exact ⟨phrase, hpart.trans (List.suffix_cons t ts).isInfix, hphrase⟩
  | _, _, @Fills.part first second _ _ hn hrest, child, hchild => by
    rw [Slot.parts_part] at hchild
    rcases List.mem_cons.1 hchild with rfl | hchild
    · exact ⟨first, (List.prefix_append first second).isInfix, hn⟩
    · obtain ⟨phrase, hpart, hphrase⟩ := hrest.exists_phrase child hchild
      exact ⟨phrase, hpart.trans (List.suffix_append first second).isInfix, hphrase⟩

/-- They lie one behind the other. -/
theorem Fills.ordered : ∀ {ts : List Token} {slots : List Slot}, Fills ts slots →
    Token.InOrder ts → (slots.filterMap Slot.part?).Pairwise fun child next ↦
      child.span.Precedes next.span
  | _, _, .nil, _ => .nil
  | _, _, @Fills.token t _ _ _ haccepts hrest, hts => by
    rw [Slot.parts_of_accepts haccepts]
    exact hrest.ordered (@Token.InOrder.right [t] _ hts)
  | _, _, .part hn hrest, hts => by
    rw [Slot.parts_part]
    refine .cons (fun next hnext ↦ ?_) (hrest.ordered hts.right)
    obtain ⟨phrase, hpart, hphrase⟩ := hrest.exists_phrase next hnext
    exact hn.covers.precedes hphrase.covers hpart hts

theorem Grouped.isInfix {core ts : List Token} (h : Grouped core ts) : core <:+: ts := by
  induction h with
  | bare => exact List.infix_refl _
  | @group opening closing ts _ _ _ ih => exact ih.trans ⟨[opening], [closing], by simp⟩

/-- The tokens of the children of a part are in its phrase. -/
theorem Phrase.exists_fills {ts : List Token} {n : Node} (h : Phrase ts n) :
    ∃ core, core <:+: ts ∧ Fills core n.slots := by
  cases h with
  | @mk core _ _ hfills haround _ =>
    refine ⟨core, ?_, hfills⟩
    cases n with
    | expr => exact haround.isInfix
    | stmt => exact haround ▸ List.infix_refl _
    | header => exact haround ▸ List.infix_refl _
    | name => exact haround ▸ List.infix_refl _

/-- In a phrase whose tokens stand in the order of the text, the spans of children are nested. -/
theorem Phrase.tidy {ts : List Token} {n : Node} (h : Phrase ts n) (hts : Token.InOrder ts) :
    n.Tidy := by
  obtain ⟨core, hcore, hfills⟩ := h.exists_fills
  exact
    { forward := h.covers.forward hts
      encloses := by
        intro child hchild
        obtain ⟨phrase, hpart, hphrase⟩ := hfills.exists_phrase child hchild
        exact h.covers.encloses hts hphrase.covers (hpart.trans hcore)
      ordered := hfills.ordered (hts.of_infix hcore) }

/-- Everything in a part has its phrase in that of the part. -/
theorem Phrase.within {ts : List Token} {n m : Node} (h : Phrase ts n) (hm : n.Within m) :
    ∃ phrase, phrase <:+: ts ∧ Phrase phrase m := by
  induction hm with
  | refl => exact ⟨ts, List.infix_refl ts, h⟩
  | tail _ hchild ih =>
    obtain ⟨phrase, hpart, hphrase⟩ := ih
    obtain ⟨core, hcore, hfills⟩ := hphrase.exists_fills
    obtain ⟨inner, hinner, hchild⟩ := hfills.exists_phrase _ hchild
    exact ⟨inner, hinner.trans (hcore.trans hpart), hchild⟩

/-! ### Programs -/

/-- The tokens in front of the end of the file have characters and stand in order. -/
theorem Lexer.Ordered.inOrder {body : List Token} {last : Token}
    (h : Ordered (body ++ [last])) (hkinds : ∀ t ∈ body, t.kind ≠ .endOfFile) :
    Token.InOrder body :=
  { forward := fun t ht ↦ h.1 t (List.mem_append_left _ ht) (hkinds t ht)
    ordered := (List.pairwise_append.1 h.2).1.imp And.right }

/-- Everything in a program that is read from a source has its phrase among the tokens before the
end of the file. -/
theorem exists_phrase_of_within {source : String} {program : List Stmt}
    (hparse : parse (lex source).tokens = .ok program) {stmt : Stmt} (hstmt : stmt ∈ program)
    {n : Node} (hwithin : (Node.stmt stmt).Within n) :
    ∃ phrase, phrase <:+: (lex source).tokens ∧ (∀ t ∈ phrase, t.kind ≠ .endOfFile) ∧
      Phrase phrase n := by
  obtain ⟨body, last, htokens, -, hkinds, -, hderived⟩ := exists_tokens hparse
  have hchild : Node.stmt stmt ∈ (Slot.stmts program).filterMap Slot.part? := by
    rw [Slot.parts_stmts]
    exact List.mem_map_of_mem hstmt
  obtain ⟨whole, hwhole, hstatement⟩ := hderived.fills.exists_phrase _ hchild
  obtain ⟨phrase, hphrase, hn⟩ := hstatement.within hwithin
  have hbody : body <:+: (lex source).tokens := by
    rw [htokens]
    exact (List.prefix_append body [last]).isInfix
  have hinside := hphrase.trans hwhole
  exact ⟨phrase, hinside.trans hbody, fun t ht ↦ hkinds t (hinside.subset ht), hn⟩

/-- **The spans of a tree are exact and nested.** The tokens of a source with fewer than `2 ^ 32`
characters from which a program is read are, up to the end of the file, the phrases of its
statements one after the other. Every part of the program stands for a phrase of its own among
them: its span runs from the first token of the phrase to the last, those of its children lie inside
this span, and no child begins before the previous one has ended. -/
theorem parse_spans {source : String} {program : List Stmt} (hsize : source.length < 2 ^ 32)
    (hparse : parse (lex source).tokens = .ok program) :
    ∃ body last, (lex source).tokens = body ++ [last] ∧ last.kind = .endOfFile ∧
      Fills body (Slot.stmts program) ∧
      (∀ s ∈ program, ∀ n, (Node.stmt s).Within n →
        (∃ phrase, phrase <:+: body ∧ Phrase phrase n) ∧ n.Tidy) ∧
      program.Pairwise fun s next ↦ s.span.Precedes next.span := by
  obtain ⟨body, last, htokens, hlast, hkinds, -, hderived⟩ := exists_tokens hparse
  have hordered := (Lexer.stands_lex source).ordered hsize
  rw [htokens] at hordered
  have hbody := hordered.inOrder hkinds
  have hfills := hderived.fills
  have hparts := Slot.parts_stmts program
  refine ⟨body, last, htokens, hlast, hfills, fun s hs n hn ↦ ?_, ?_⟩
  · have hchild : Node.stmt s ∈ (Slot.stmts program).filterMap Slot.part? := by
      rw [hparts]
      exact List.mem_map_of_mem hs
    obtain ⟨whole, hwhole, hstatement⟩ := hfills.exists_phrase _ hchild
    obtain ⟨phrase, hphrase, hn⟩ := hstatement.within hn
    exact ⟨⟨phrase, hphrase.trans hwhole, hn⟩, hn.tidy (hbody.of_infix (hphrase.trans hwhole))⟩
  · have hpairwise := hfills.ordered hbody
    rw [hparts] at hpairwise
    exact (List.pairwise_map (f := Node.stmt)).1 hpairwise

namespace Sample

/-- A function with parameters whose branches call it, with parentheses around operands, around an
argument and twice around a value. -/
def grouped : String :=
  "fun int f(int a, bool b) \x7b\n  if ((a) < 2) return ((a));\n" ++
    "  else return f((a - 1), b) * (3);\n\x7d"

end Sample

theorem parse_spans_grouped :
    Sample.grouped.length < 2 ^ 32 ∧ ∃ program, parse (lex Sample.grouped).tokens = .ok program ∧
      ∃ body last, (lex Sample.grouped).tokens = body ++ [last] ∧ last.kind = .endOfFile ∧
        Fills body (Slot.stmts program) ∧
        (∀ s ∈ program, ∀ n, (Node.stmt s).Within n →
          (∃ phrase, phrase <:+: body ∧ Phrase phrase n) ∧ n.Tidy) ∧
        program.Pairwise fun s next ↦ s.span.Precedes next.span := by
  have hparse : ∃ program, parse (lex Sample.grouped).tokens = .ok program := ⟨_, by cbv⟩
  have hsize : Sample.grouped.length < 2 ^ 32 := by decide
  obtain ⟨program, hprogram⟩ := hparse
  exact ⟨hsize, program, hprogram, parse_spans hsize hprogram⟩

end ScalarMips
