import ScalarMips.Proofs.Reading

/-!
# Reading expressions

The reader of expressions follows the grammar. What it has read are the tokens of an expression
(`expression_sound`). The other way round, it reads the tokens of an expression to their end, if
what comes next does not go on with it (`expression_complete`): it must not be an operator, and it
must not be an opening parenthesis, which would make a call of a name.

The grammar puts one more operand behind an expression of the same level, and the reader goes on
with what it has read so far. The two meet in what is left to do: to read the tokens of an
expression and what follows them is to go on with its tree (`Tier.resume`). Said this way, the step
from one operand to the next needs no assumption about what follows.
-/

namespace ScalarMips.Parser

open Grammar

variable {input rest : List Token}

/-! ### What has been read are the tokens of an expression -/

section

variable {token : Token}

theorem spells_extended {t t' : Tier} {left : Parsed Expr input}
    {op : Parsed (Operator × Token) left.rest} {right : Parsed Expr op.rest}
    (htighter : t.tighter? = some t') (hop : t.level.accept? left.rest = some op)
    (hleft : left.Spells (Expression t)) (hright : right.Spells (Expression t')) :
    (left.extended op right).Spells (Expression t) := by
  obtain ⟨first, hfirst, he⟩ := hleft
  obtain ⟨second, hsecond, he'⟩ := hright
  obtain ⟨hrest, mark, hmark, hbinary⟩ := Tier.accept?_level.1 hop
  refine ⟨first ++ op.value.2 :: second, ?_, .binary htighter he hmark hbinary he'⟩
  exact consumed_append hfirst (hrest.trans (congrArg (op.value.2 :: ·) hsecond))

theorem spells_unary {op : Parsed (Operator × Token) input} {operand : Parsed Expr op.rest}
    (hop : Level.unary.accept? input = some op) (h : operand.Spells (Expression .unary)) :
    ((op.after operand).map fun operand ↦
      .unary (op.value.2.span.to operand.span) op.value.1 operand).Spells (Expression .unary) := by
  obtain ⟨heq, mark, hmark, hunary⟩ := Level.accept?_unary.1 hop
  obtain ⟨ts, hrest, he⟩ := h
  exact ⟨op.value.2 :: ts, heq.trans (congrArg _ hrest), .unary hmark hunary he⟩

theorem spells_call {opening : Parsed Token rest} {list : Parsed (List Expr × Token) opening.rest}
    (hkind : token.kind = .identifier) (hopening : accept? (.mark .leftParen) rest = some opening)
    (h : list.Spells (Enclosed .rightParen (Optional Arguments))) :
    (((opening.after list).behind token).map fun (arguments, close) ↦
      .call (token.span.to close.span) token.text arguments).Spells (Expression .primary) := by
  obtain ⟨heq, hparen⟩ := accept?_eq_some.1 hopening
  obtain ⟨_, hrest, ts, rfl, hlist, hclosing⟩ := h
  refine ⟨token :: opening.value :: (ts ++ [list.value.2]), ?_, ?_⟩
  · exact congrArg (token :: ·) (heq.trans (congrArg (opening.value :: ·) hrest))
  · rcases hlist with ⟨rfl, hnil⟩ | hlist
    · show Expression .primary _ (.call _ _ list.value.1)
      rw [hnil]
      exact .plainCall hkind hparen hclosing
    · exact .call hkind hparen hlist hclosing

theorem spells_group {inner : Parsed Expr rest} {close : Parsed Token inner.rest}
    (hkind : token.kind = .mark .leftParen) (h : inner.Spells (Expression .or))
    (hclose : expect (.mark .rightParen) .closeGroup inner.rest = .ok close) :
    (((inner.after close).behind token).map fun close ↦
      inner.value.withSpan (token.span.to close.span)).Spells (Expression .primary) := by
  obtain ⟨ts, heq, he⟩ := h
  obtain ⟨hrest, hclosing⟩ := (reads_expect _).1 ⟨close, hclose, rfl, rfl⟩
  refine ⟨token :: (ts ++ [close.value]), ?_, .group hkind he hclosing⟩
  exact congrArg (token :: ·) (consumed_append heq hrest)

theorem spells_last {argument : Parsed Expr input} {close : Parsed Token argument.rest}
    (h : argument.Spells (Expression .or))
    (hclose : expect (.mark .rightParen) .closeArguments argument.rest = .ok close) :
    ((argument.after close).map fun close ↦ ([argument.value], close)).Spells
      (Enclosed .rightParen Arguments) := by
  obtain ⟨ts, heq, he⟩ := h
  obtain ⟨hrest, hclosing⟩ := (reads_expect _).1 ⟨close, hclose, rfl, rfl⟩
  exact ⟨ts ++ [close.value], consumed_append heq hrest, ts, rfl, .last he, hclosing⟩

theorem spells_more {argument : Parsed Expr input} {comma : Parsed Token argument.rest}
    {more : Parsed (List Expr × Token) comma.rest} (h : argument.Spells (Expression .or))
    (hcomma : accept? (.mark .comma) argument.rest = some comma)
    (hmore : more.Spells (Enclosed .rightParen Arguments)) :
    (((argument.after comma).after more).map fun (arguments, close) ↦
      (argument.value :: arguments, close)).Spells (Enclosed .rightParen Arguments) := by
  obtain ⟨first, hfirst, he⟩ := h
  obtain ⟨hrest, hkind⟩ := accept?_eq_some.1 hcomma
  obtain ⟨_, hts, second, rfl, hlist, hclosing⟩ := hmore
  refine ⟨first ++ comma.value :: (second ++ [more.value.2]), ?_,
    first ++ comma.value :: second, ?_, .more he hkind hlist, hclosing⟩
  · exact consumed_append hfirst (hrest.trans (congrArg (comma.value :: ·) hts))
  · exact (List.append_assoc first (comma.value :: second) [more.value.2]).symm

end

/-- All readers of expressions read the tokens of what they yield. -/
theorem expr_sound : ExprReaders
    (fun levels input r ↦ ∀ t : Tier, t ≠ .primary → Level.all.drop t.rank = levels →
      WellWritten input → ∀ p, r = .ok p → p.Spells (Expression t))
    (fun level tighter input left r ↦ ∀ t : Tier, Level.all.drop t.rank = level :: tighter →
      WellWritten input → left.Spells (Expression t) → ∀ p, r = .ok p → p.Spells (Expression t))
    (fun input r ↦ WellWritten input → ∀ p, r = .ok p → p.Spells (Expression .unary))
    (fun input r ↦ WellWritten input → ∀ p, r = .ok p → p.Spells (Expression .primary))
    (fun input r ↦ WellWritten input → ∀ p, r = .ok p →
      p.Spells (Enclosed .rightParen (Optional Arguments)))
    (fun input r ↦ WellWritten input → ∀ p, r = .ok p →
      p.Spells (Enclosed .rightParen Arguments)) := by
  apply ExprReaders.of_branches
  case operand =>
    intro input ih t hprimary hlevels
    rw [eq_unary_of_levels hprimary hlevels]
    exact ih
  case level =>
    intro level tighter input ihBinary ihChain t _ hlevels hinput p h
    obtain ⟨t', htighter, hlevels', hprimary, -⟩ := exists_tighter hlevels
    obtain ⟨left, hleft, h⟩ := bind_eq_ok.1 h
    obtain ⟨ts, heq, he⟩ := ihBinary t' hprimary hlevels' hinput left hleft
    exact ihChain left t hlevels hinput ⟨ts, heq, .operand htighter he⟩ p h
  case stop =>
    intro level tighter input left _ t _ _ hleft p h
    cases h
    exact hleft
  case operator =>
    intro level tighter input left op hop ihBinary ihChain t hlevels hinput hleft p h
    obtain ⟨t', htighter, hlevels', hprimary, rfl⟩ := exists_tighter hlevels
    obtain ⟨right, hright, h⟩ := bind_eq_ok.1 h
    have hwritten := (hinput.behind hleft).acceptOperator? hop
    have hright := ihBinary t' hprimary hlevels' hwritten right hright
    exact ihChain right t hlevels hinput (spells_extended htighter hop hleft hright) p h
  case sign =>
    intro input op hop ih hinput p h
    obtain ⟨operand, hoperand, h⟩ := bind_eq_ok.1 h
    cases h
    exact spells_unary hop (ih (hinput.acceptOperator? hop) operand hoperand)
  case unsigned =>
    intro input _ ih hinput p h
    obtain ⟨ts, heq, he⟩ := ih hinput p h
    exact ⟨ts, heq, .operand rfl he⟩
  case nil =>
    intro _ p h
    cases h
  case number =>
    intro token rest number hkind hnumber hinput p h
    cases h
    have hnumeral := hinput token List.mem_cons_self hkind
    rw [readWord?_of_isNumeral hnumeral] at hnumber
    cases hnumber
    exact ⟨[token], rfl, .number hkind hnumeral⟩
  case overflow =>
    intro token rest _ _ _ p h
    cases h
  case truth =>
    intro token rest hkind _ p h
    cases h
    exact ⟨[token], rfl, .truth hkind⟩
  case falsity =>
    intro token rest hkind _ p h
    cases h
    exact ⟨[token], rfl, .falsity hkind⟩
  case name =>
    intro token rest hkind _ _ p h
    cases h
    exact ⟨[token], rfl, .name hkind⟩
  case call =>
    intro token rest opening hkind hopening ih hinput p h
    obtain ⟨list, hlist, h⟩ := bind_eq_ok.1 h
    cases h
    exact spells_call hkind hopening (ih (hinput.tail.accept? hopening) list hlist)
  case group =>
    intro token rest hkind ih hinput p h
    obtain ⟨inner, hinner, h⟩ := bind_eq_ok.1 h
    obtain ⟨close, hclose, h⟩ := bind_eq_ok.1 h
    cases h
    exact spells_group hkind (ih .or (by decide) rfl hinput.tail inner hinner) hclose
  case other =>
    intro token rest _ _ p h
    cases h
  case noArguments =>
    intro input close hclose _ p h
    obtain ⟨heq, hclosing⟩ := accept?_eq_some.1 hclose
    cases h
    exact ⟨[close.value], heq, [], rfl, .inl ⟨rfl, rfl⟩, hclosing⟩
  case someArguments =>
    intro input _ ih hinput p h
    obtain ⟨ts, heq, inner, hinner, hlist, hclosing⟩ := ih hinput p h
    exact ⟨ts, heq, inner, hinner, .inr hlist, hclosing⟩
  case argument =>
    intro input ihFirst ihMore hinput p h
    obtain ⟨argument, hargument, h⟩ := bind_eq_ok.1 h
    have hfirst := ihFirst .or (by decide) rfl hinput argument hargument
    split at h
    · rename_i comma hcomma
      obtain ⟨more, hmore, h⟩ := bind_eq_ok.1 h
      cases h
      have hwritten := (hinput.behind hfirst).accept? hcomma
      exact spells_more hfirst hcomma (ihMore argument comma hwritten more hmore)
    · obtain ⟨close, hclose, h⟩ := bind_eq_ok.1 h
      cases h
      exact spells_last hfirst hclose

/-! ### The tokens of an expression are read to their end -/

/-- What can follow an expression that is read up to the operators of a rank: no opening
parenthesis, and no operator that binds more tightly. -/
def Stops (n : Nat) (rest : List Token) : Prop :=
  ∀ token ∈ rest.head?, token.kind ≠ .mark .leftParen ∧
    ∀ mark t op, token.kind = .mark mark → binary? mark = some (t, op) → t.rank < n

theorem Stops.mono {m n : Nat} (h : Stops m rest) (hmn : m ≤ n) : Stops n rest :=
  fun token ht ↦ ⟨(h token ht).1, fun mark t op hmark hop ↦
    Nat.lt_of_lt_of_le ((h token ht).2 mark t op hmark hop) hmn⟩

/-- Only an opening parenthesis can go on with what has no operator between operands. -/
theorem Stops.of_rank {m n : Nat} (h : Stops m rest) (hn : 6 ≤ n) : Stops n rest := by
  have hrank : ∀ mark t op, binary? mark = some (t, op) → t.rank < 6 := by
    intro mark t op hop
    cases mark <;> cases hop <;> decide
  exact fun token ht ↦ ⟨(h token ht).1, fun mark t op _ hop ↦
    Nat.lt_of_lt_of_le (hrank mark t op hop) hn⟩

/-- A closing mark or a separator ends every expression. -/
theorem stops_mark {token : Token} {mark : Mark} (hkind : token.kind = .mark mark)
    (hparen : mark ≠ .leftParen) (hnone : binary? mark = none) (n : Nat) :
    Stops n (token :: rest) := by
  intro token' ht
  cases ht
  refine ⟨fun h ↦ hparen ?_, fun mark' t op hmark hop ↦ ?_⟩
  · rw [hkind] at h
    cases h
    rfl
  · rw [hkind] at hmark
    cases hmark
    rw [hnone] at hop
    cases hop

/-- Behind an operand an operator of the same nonterminal can follow. -/
theorem stops_operator {token : Token} {mark : Mark} {t : Tier} {op : Operator}
    (hkind : token.kind = .mark mark) (hop : binary? mark = some (t, op)) :
    Stops (t.rank + 1) (token :: rest) := by
  intro token' ht
  cases ht
  refine ⟨fun h ↦ ?_, fun mark' t' op' hmark hop' ↦ ?_⟩
  · rw [hkind] at h
    cases h
    cases hop
  · rw [hkind] at hmark
    cases hmark
    cases hop.symm.trans hop'
    exact Nat.lt_succ_self _

/-- Nothing is left to do before what is no operator of a nonterminal. -/
theorem resume_eq {t : Tier} {p : Parsed Expr input} (h : Stops t.rank p.rest) :
    t.resume p = .ok p := by
  have hnone : t.level.accept? p.rest = none := by
    refine Option.eq_none_iff_forall_ne_some.2 fun op hop ↦ ?_
    obtain ⟨hrest, mark, hmark, hbinary⟩ := Tier.accept?_level.1 hop
    have hhead : op.value.2 ∈ p.rest.head? := congrArg List.head? hrest
    exact Nat.lt_irrefl _ ((h _ hhead).2 mark t op.value.1 hmark hbinary)
  rw [Tier.resume, chain, hnone]

/-- To read some tokens is to go on with an expression that they begin with. -/
def Continues (t : Tier) (input : List Token) (e : Expr) (rest : List Token) : Prop :=
  ∃ p : Parsed Expr input, p.value = e ∧ p.rest = rest ∧ t.read input = t.resume p

theorem Continues.reads {t : Tier} {e : Expr} (h : Continues t input e rest)
    (hstops : Stops t.rank rest) : Reads (t.read input) e rest := by
  obtain ⟨p, hvalue, rfl, hread⟩ := h
  exact ⟨p, hread.trans (resume_eq hstops), hvalue, rfl⟩

theorem Reads.continues {t : Tier} {e : Expr} (h : Reads (t.read input) e rest)
    (hstops : Stops t.rank rest) : Continues t input e rest := by
  obtain ⟨p, hp, hvalue, rfl⟩ := h
  exact ⟨p, hvalue, rfl, hp.trans (resume_eq hstops).symm⟩

/-- The first token of an expression without an operator at its front. -/
theorem head_primary {ts : List Token} {e : Expr} (h : Expression .primary ts e) :
    ∃ token tail, ts = token :: tail ∧ token.kind ∈ operandKinds := by
  cases h with
  | operand htighter => cases htighter
  | binary htighter => cases htighter
  | number hkind => exact ⟨_, _, rfl, by rw [hkind]; decide⟩
  | truth hkind => exact ⟨_, _, rfl, by rw [hkind]; decide⟩
  | falsity hkind => exact ⟨_, _, rfl, by rw [hkind]; decide⟩
  | name hkind => exact ⟨_, _, rfl, by rw [hkind]; decide⟩
  | plainCall hkind => exact ⟨_, _, rfl, by rw [hkind]; decide⟩
  | call hkind => exact ⟨_, _, rfl, by rw [hkind]; decide⟩
  | group hkind => exact ⟨_, _, rfl, by rw [hkind]; decide⟩

/-- Operators before an operand are read as long as there are any. -/
theorem read_unary_eq {ts : List Token} {e : Expr} (h : Expression .primary ts e)
    (hinput : input = ts ++ rest) : Tier.unary.read input = Tier.primary.read input := by
  obtain ⟨token, tail, rfl, hkind⟩ := head_primary h
  have hnone : Level.unary.accept? input = none := by
    refine Option.eq_none_iff_forall_ne_some.2 fun op hop ↦ ?_
    obtain ⟨heq, mark, hmark, hunary⟩ := Level.accept?_unary.1 hop
    obtain ⟨rfl, -⟩ := List.cons.inj (heq.symm.trans hinput)
    rw [hmark] at hkind
    cases mark with
    | bang | minus | plus => exact absurd hkind (by decide)
    | _ => cases hunary
  show binary [] input = primary input
  rw [binary, unary_operand hnone]

/-- The kinds of tokens that an expression can begin with. -/
def starters : List TokenKind :=
  [.integerLiteral, .keyword .true_, .keyword .false_, .identifier, .mark .leftParen, .mark .bang,
    .mark .minus, .mark .plus]

theorem head_expression : ∀ {t : Tier} {ts : List Token} {e : Expr}, Expression t ts e →
    ∃ token tail, ts = token :: tail ∧ token.kind ∈ starters
  | _, _, _, .operand _ he => head_expression he
  | _, _, _, .binary _ hleft _ _ _ => by
    obtain ⟨token, tail, rfl, hkind⟩ := head_expression hleft
    exact ⟨token, _, rfl, hkind⟩
  | _, _, _, @Expression.unary _ _ _ mark _ hmark hop _ => by
    refine ⟨_, _, rfl, ?_⟩
    rw [hmark]
    cases mark with
    | bang | minus | plus => decide
    | _ => cases hop
  | _, _, _, .number hkind _ => ⟨_, _, rfl, by rw [hkind]; decide⟩
  | _, _, _, .truth hkind => ⟨_, _, rfl, by rw [hkind]; decide⟩
  | _, _, _, .falsity hkind => ⟨_, _, rfl, by rw [hkind]; decide⟩
  | _, _, _, .name hkind => ⟨_, _, rfl, by rw [hkind]; decide⟩
  | _, _, _, .plainCall hkind _ _ => ⟨_, _, rfl, by rw [hkind]; decide⟩
  | _, _, _, .call hkind _ _ _ => ⟨_, _, rfl, by rw [hkind]; decide⟩
  | _, _, _, .group hkind _ _ => ⟨_, _, rfl, by rw [hkind]; decide⟩

theorem head_arguments {ts : List Token} {es : List Expr} (h : Arguments ts es) :
    ∃ token tail, ts = token :: tail ∧ token.kind ∈ starters := by
  cases h with
  | last he => exact head_expression he
  | more he =>
    obtain ⟨token, tail, rfl, hkind⟩ := head_expression he
    exact ⟨token, _, rfl, hkind⟩

/-- No token of another kind is taken for the beginning of an expression. -/
theorem accept?_none_of_starter {kind : TokenKind} {ts : List Token}
    (h : ∃ token tail, ts = token :: tail ∧ token.kind ∈ starters) (hkind : kind ∉ starters) :
    accept? kind (ts ++ rest) = none := by
  obtain ⟨token, tail, rfl, hstarter⟩ := h
  exact accept?_none_of_head rfl fun heq ↦ hkind (heq ▸ hstarter)

/-! ### The parts of an expression are read one after the other -/

/-- An operator and the operand behind it are read, and one goes on with the whole. -/
theorem chain_of_reads {level : Level} {tighter : List Level} {left : Parsed Expr input}
    {token : Token} {o : Operator} {right : Expr} {mid : List Token}
    (hleft : left.rest = token :: mid) (ho : level.operator? token.kind = some o)
    (h : Reads (binary tighter mid) right rest) :
    ∃ p : Parsed Expr input,
      p.value = .binary (left.value.span.to right.span) o left.value right ∧ p.rest = rest ∧
        chain level tighter left = chain level tighter p := by
  obtain ⟨op, hop, hvalue, rfl⟩ := Level.accept?_of_head hleft ho
  obtain ⟨q, hq, rfl, rfl⟩ := h
  refine ⟨left.extended op q, ?_, rfl, ?_⟩
  · simp only [Parsed.extended, Parsed.map, Parsed.after, hvalue]
  · rw [chain_operator hop, hq]
    rfl

theorem reads_unary {token : Token} {o : Operator} {operand : Expr}
    (ho : Level.unary.operator? token.kind = some o) (h : Reads (unary input) operand rest) :
    Reads (unary (token :: input)) (.unary (token.span.to operand.span) o operand) rest := by
  obtain ⟨op, hop, hvalue, hrest⟩ := Level.accept?_of_head (Eq.refl (token :: input)) ho
  rw [unary_operator hop]
  rw [← hrest] at h
  refine h.bind fun p hp hprest ↦ reads_ok.2 ⟨?_, hprest⟩
  simp only [Parsed.map, Parsed.after, hp, hvalue]

theorem reads_call {name opening closing : Token} {es : List Expr} (hkind : name.kind = .identifier)
    (hopening : opening.kind = .mark .leftParen) (h : Reads (arguments input) (es, closing) rest) :
    Reads (primary (name :: opening :: input)) (.call (name.span.to closing.span) name.text es)
      rest := by
  obtain ⟨o, ho, -, horest⟩ := accept?_of_head (Eq.refl (opening :: input)) hopening
  rw [primary_call hkind ho]
  rw [← horest] at h
  refine h.bind fun p hvalue hrest ↦ reads_ok.2 ⟨?_, hrest⟩
  simp only [Parsed.map, Parsed.behind, Parsed.after, hvalue]

theorem reads_group {opening closing : Token} {e : Expr}
    (hopening : opening.kind = .mark .leftParen)
    (hclosing : closing.kind = .mark .rightParen)
    (h : Reads (binary Level.all input) e (closing :: rest)) :
    Reads (primary (opening :: input)) (e.withSpan (opening.span.to closing.span)) rest := by
  rw [primary_group hopening]
  refine h.bind fun p hvalue hrest ↦ ?_
  have hclose := (reads_expect .closeGroup).2 ⟨hrest, hclosing⟩
  refine hclose.bind fun q hqvalue hqrest ↦ reads_ok.2 ⟨?_, hqrest⟩
  simp only [Parsed.map, Parsed.behind, Parsed.after, hvalue, hqvalue]

theorem reads_noArguments {closing : Token} (hclosing : closing.kind = .mark .rightParen) :
    Reads (arguments (closing :: rest)) ([], closing) rest := by
  obtain ⟨close, hclose, hvalue, hrest⟩ := accept?_of_head (Eq.refl (closing :: rest)) hclosing
  rw [arguments_none hclose]
  exact reads_ok.2 ⟨congrArg (([], ·)) hvalue, hrest⟩

theorem reads_someArguments {ts : List Token} {list : List Expr × Token}
    (hstarts : ∃ token tail, ts = token :: tail ∧ token.kind ∈ starters)
    (h : Reads (argumentsFrom (ts ++ input)) list rest) :
    Reads (arguments (ts ++ input)) list rest := by
  rwa [arguments_some (accept?_none_of_starter hstarts (by decide))]

mutual

/-- The reader goes on with the expression that its input begins with. -/
theorem continues_of_expression : ∀ {t : Tier} {ts : List Token} {e : Expr}, Expression t ts e →
    ∀ {input rest : List Token}, input = ts ++ rest → Stops (t.rank + 1) rest →
      Continues t input e rest
  | t, ts, e, @Expression.operand _ t' _ _ htighter he, input, rest, hinput, hstops => by
    have hrank := Tier.rank_tighter htighter
    have hreads : Reads (t'.read input) e rest :=
      (continues_of_expression he hinput (hrank ▸ hstops.mono (Nat.le_succ _))).reads
        (hrank ▸ hstops)
    by_cases hunary : t = .unary
    · subst hunary
      cases htighter
      rw [← read_unary_eq he hinput] at hreads
      exact hreads.continues (hstops.of_rank (Nat.le_refl _))
    · obtain ⟨p, hp, hvalue, hrest⟩ := hreads
      refine ⟨p, hvalue, hrest, ?_⟩
      rw [Tier.read_eq htighter hunary, hp]
      rfl
  | t, _, _, @Expression.binary _ t' first second left right token mark op htighter hleft hmark hop
      hright, input, rest, hinput, hstops => by
    have hrank := Tier.rank_tighter htighter
    rw [List.append_assoc] at hinput
    obtain ⟨p, rfl, hrest, hread⟩ :=
      continues_of_expression hleft hinput (stops_operator hmark hop)
    have hreads : Reads (t'.read (second ++ rest)) right rest :=
      (continues_of_expression hright rfl (hrank ▸ hstops.mono (Nat.le_succ _))).reads
        (hrank ▸ hstops)
    rw [Tier.read_tighter htighter (Tier.ne_unary_of_binary? hop)] at hreads
    obtain ⟨q, hq, hqrest, hchain⟩ :=
      chain_of_reads hrest (Tier.operator?_level.2 ⟨mark, hmark, hop⟩) hreads
    exact ⟨q, hq, hqrest, hread.trans hchain⟩
  | _, _, _, @Expression.unary ts e token mark op hmark hop he, _, rest, rfl, hstops => by
    have hreads : Reads (Tier.unary.read (ts ++ rest)) e rest :=
      (continues_of_expression he rfl hstops).reads (hstops.of_rank (Nat.le_refl _))
    have hunary : ∀ input, Tier.unary.read input = unary input := binary.eq_1
    rw [hunary] at hreads
    refine Reads.continues ?_ (hstops.of_rank (Nat.le_refl _))
    rw [hunary]
    exact reads_unary (Level.operator?_unary.2 ⟨mark, hmark, hop⟩) hreads
  | _, _, _, .number hkind hnumeral, _, rest, rfl, hstops =>
    Reads.continues ⟨_, primary_number hkind (readWord?_of_isNumeral hnumeral), rfl, rfl⟩
      (hstops.of_rank (by decide))
  | _, _, _, .truth hkind, _, rest, rfl, hstops =>
    Reads.continues ⟨_, primary_true hkind, rfl, rfl⟩ (hstops.of_rank (by decide))
  | _, _, _, .falsity hkind, _, rest, rfl, hstops =>
    Reads.continues ⟨_, primary_false hkind, rfl, rfl⟩ (hstops.of_rank (by decide))
  | _, _, _, .name hkind, _, rest, rfl, hstops =>
    have hnone : accept? (.mark .leftParen) rest = none :=
      accept?_eq_none.2 fun t ht ↦ (hstops t ht).1
    Reads.continues ⟨_, primary_name hkind hnone, rfl, rfl⟩ (hstops.of_rank (by decide))
  | _, _, _, .plainCall hkind hopening hclosing, _, rest, rfl, hstops =>
    Reads.continues (reads_call hkind hopening (reads_noArguments hclosing))
      (hstops.of_rank (by decide))
  | _, _, _, @Expression.call _ _ closing ts es hkind hopening hlist hclosing, _, rest, rfl,
      hstops => by
    have harguments : Reads (arguments (ts ++ closing :: rest)) (es, closing) rest :=
      reads_someArguments (head_arguments hlist) (reads_of_arguments hlist rfl hclosing)
    refine Reads.continues ?_ (hstops.of_rank (by decide))
    rw [List.cons_append, List.cons_append, List.append_assoc]
    exact reads_call hkind hopening harguments
  | _, _, _, @Expression.group _ closing ts e hopening he hclosing, _, rest, rfl, hstops => by
    have hinner : Reads (binary Level.all (ts ++ closing :: rest)) e (closing :: rest) :=
      (continues_of_expression he rfl (stops_mark hclosing nofun rfl _)).reads
        (stops_mark hclosing nofun rfl _)
    refine Reads.continues ?_ (hstops.of_rank (by decide))
    rw [List.cons_append, List.append_assoc]
    exact reads_group hopening hclosing hinner

/-- Arguments are read up to the closing parenthesis. -/
theorem reads_of_arguments : ∀ {ts : List Token} {es : List Expr}, Arguments ts es →
    ∀ {input rest : List Token} {closing : Token}, input = ts ++ closing :: rest →
      closing.kind = .mark .rightParen → Reads (argumentsFrom input) (es, closing) rest
  | _, _, .last he, input, rest, closing, hinput, hclosing => by
    have hread : Reads (binary Level.all input) _ (closing :: rest) :=
      (continues_of_expression he hinput (stops_mark hclosing nofun rfl _)).reads
        (stops_mark hclosing nofun rfl _)
    rw [argumentsFrom]
    refine hread.bind fun p hvalue hrest ↦ ?_
    rw [accept?_none_of_head hrest (by rw [hclosing]; nofun)]
    have hclose := (reads_expect .closeArguments).2 ⟨hrest, hclosing⟩
    refine hclose.bind fun q hqvalue hqrest ↦ reads_ok.2 ⟨?_, hqrest⟩
    simp only [Parsed.map, Parsed.after, hvalue, hqvalue]
  | _, _, @Arguments.more first second e es comma he hcomma hes, input, rest, closing, hinput,
      hclosing => by
    rw [List.append_assoc] at hinput
    have hread : Reads (binary Level.all input) e (comma :: (second ++ closing :: rest)) :=
      (continues_of_expression he hinput (stops_mark hcomma nofun rfl _)).reads
        (stops_mark hcomma nofun rfl _)
    rw [argumentsFrom]
    refine hread.bind fun p hvalue hrest ↦ ?_
    obtain ⟨o, ho, -, horest⟩ := accept?_of_head hrest hcomma
    rw [ho]
    refine (reads_of_arguments hes horest hclosing).bind fun q hqvalue hqrest ↦
      reads_ok.2 ⟨?_, hqrest⟩
    simp only [Parsed.map, Parsed.after, hvalue, hqvalue]

end

/-! ### Expressions -/

/-- What is read as an expression are the tokens of one. -/
theorem expression_sound (hinput : WellWritten input) {p : Parsed Expr input}
    (h : expression input = .ok p) : p.Spells (Expression .or) :=
  expr_sound.binary Level.all input .or nofun rfl hinput p h

/-- The tokens of an expression are read to their end, where a mark follows that ends it. -/
theorem expression_complete {ts : List Token} {e : Expr} {closing : Token} {mark : Mark}
    (h : Expression .or ts e) (hinput : input = ts ++ closing :: rest)
    (hkind : closing.kind = .mark mark) (hparen : mark ≠ .leftParen) (hmark : binary? mark = none) :
    Reads (expression input) e (closing :: rest) :=
  (continues_of_expression h hinput (stops_mark hkind hparen hmark _)).reads
    (stops_mark hkind hparen hmark _)

mutual

/-- There is no assignment in an expression. -/
theorem ne_equals_of_expression : ∀ {t : Tier} {ts : List Token} {e : Expr}, Expression t ts e →
    ∀ token ∈ ts, token.kind ≠ .mark .equals
  | _, _, _, .operand _ he => ne_equals_of_expression he
  | _, _, _, .binary _ hleft hmark hop hright => by
    refine List.forall_mem_append.2 ⟨ne_equals_of_expression hleft, ?_⟩
    refine List.forall_mem_cons.2 ⟨fun heq ↦ ?_, ne_equals_of_expression hright⟩
    cases hmark.symm.trans heq
    cases hop
  | _, _, _, .unary hmark hop he => by
    refine List.forall_mem_cons.2 ⟨fun heq ↦ ?_, ne_equals_of_expression he⟩
    cases hmark.symm.trans heq
    cases hop
  | _, _, _, .number hkind _ => List.forall_mem_singleton.2 (by rw [hkind]; nofun)
  | _, _, _, .truth hkind => List.forall_mem_singleton.2 (by rw [hkind]; nofun)
  | _, _, _, .falsity hkind => List.forall_mem_singleton.2 (by rw [hkind]; nofun)
  | _, _, _, .name hkind => List.forall_mem_singleton.2 (by rw [hkind]; nofun)
  | _, _, _, .plainCall hname hopening hclosing => by
    simp [hname, hopening, hclosing]
  | _, _, _, .call hname hopening harguments hclosing => by
    have hinner := ne_equals_of_arguments harguments
    simp only [List.forall_mem_cons, List.forall_mem_append]
    exact ⟨by simp [hname], by simp [hopening], hinner, by simp [hclosing]⟩
  | _, _, _, .group hopening he hclosing => by
    have hinner := ne_equals_of_expression he
    simp only [List.forall_mem_cons, List.forall_mem_append]
    exact ⟨by simp [hopening], hinner, by simp [hclosing]⟩

theorem ne_equals_of_arguments : ∀ {ts : List Token} {es : List Expr}, Arguments ts es →
    ∀ token ∈ ts, token.kind ≠ .mark .equals
  | _, _, .last he => ne_equals_of_expression he
  | _, _, .more he hcomma hes => by
    refine List.forall_mem_append.2 ⟨ne_equals_of_expression he, ?_⟩
    exact List.forall_mem_cons.2 ⟨by simp [hcomma], ne_equals_of_arguments hes⟩

end

end ScalarMips.Parser
