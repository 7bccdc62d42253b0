import ScalarMips.Proofs.Grammar
import ScalarMips.Proofs.Grammatical

/-!
# Readings

What the readers of single tokens do, and how readings are put together. `Reads` says what a reading
gives and what it leaves; `Parsed.Spells` says that the tokens that were read are those of a kind of
tree.

The levels of precedence of the readers are the nonterminals of the grammar: the operators of a
level are those of the nonterminal (`Tier.accept?_level`), and its operands are read by the next one
(`Tier.read_eq`).
-/

namespace ScalarMips

open Grammar

namespace Parser

/-! ### Readings -/

/-- A reading gives a value and leaves some tokens. -/
def Reads {α : Type} {input : List Token} (r : Result α input) (value : α) (rest : List Token) :
    Prop :=
  ∃ p, r = .ok p ∧ p.value = value ∧ p.rest = rest

variable {α β : Type} {input input' rest : List Token}

theorem reads_ok {p : Parsed α input} {value : α} :
    Reads (.ok p) value rest ↔ p.value = value ∧ p.rest = rest := by
  constructor
  · rintro ⟨p', hp, h⟩
    cases hp
    exact h
  · intro h
    exact ⟨p, rfl, h⟩

/-- A reading after another one, which can have had a different input. -/
theorem reads_bind {first : Result α input'} {next : Parsed α input' → Result β input} {value : β} :
    Reads (first >>= next) value rest ↔ ∃ p, first = .ok p ∧ Reads (next p) value rest := by
  constructor
  · rintro ⟨q, hq, h⟩
    obtain ⟨p, hp, hq⟩ := bind_eq_ok.1 hq
    exact ⟨p, hp, q, hq, h⟩
  · rintro ⟨p, hp, q, hq, h⟩
    exact ⟨q, bind_eq_ok.2 ⟨p, hp, hq⟩, h⟩

theorem Reads.bind {first : Result α input'} {next : Parsed α input' → Result β input} {a : α}
    {mid : List Token} {b : β} (h : Reads first a mid)
    (hnext : ∀ p, p.value = a → p.rest = mid → Reads (next p) b rest) :
    Reads (first >>= next) b rest := by
  obtain ⟨p, hp, hvalue, hrest⟩ := h
  exact reads_bind.2 ⟨p, hp, hnext p hvalue hrest⟩

theorem accept?_eq_some {kind : TokenKind} {p : Parsed Token input} :
    accept? kind input = some p ↔ input = p.value :: p.rest ∧ p.value.kind = kind := by
  cases input with
  | nil => simp [accept?]
  | cons token tail =>
    obtain ⟨value, rest, shorter⟩ := p
    rw [accept?]
    split
    · rename_i hkind
      constructor
      · intro h
        cases h
        exact ⟨rfl, hkind⟩
      · rintro ⟨heq, -⟩
        obtain ⟨rfl, rfl⟩ := List.cons.inj heq
        rfl
    · rename_i hkind
      constructor
      · intro h
        cases h
      · rintro ⟨heq, hvalue⟩
        obtain ⟨rfl, rfl⟩ := List.cons.inj heq
        exact absurd hvalue hkind

theorem accept?_eq_none {kind : TokenKind} :
    accept? kind input = none ↔ ∀ token ∈ input.head?, token.kind ≠ kind := by
  cases input with
  | nil => simp [accept?]
  | cons token tail =>
    rw [accept?]
    split <;> simp_all

theorem accept?_of_head {kind : TokenKind} {token : Token} (hinput : input = token :: rest)
    (h : token.kind = kind) :
    ∃ p, accept? kind input = some p ∧ p.value = token ∧ p.rest = rest := by
  subst hinput
  exact ⟨.one token token, accept?_eq_some.2 ⟨rfl, h⟩, rfl, rfl⟩

theorem accept?_none_of_head {kind : TokenKind} {token : Token} (hinput : input = token :: rest)
    (h : token.kind ≠ kind) : accept? kind input = none := by
  subst hinput
  exact accept?_eq_none.2 fun t ht ↦ Option.some.inj ht ▸ h

theorem Level.accept?_eq_some {level : Level} {op : Parsed (Operator × Token) input} :
    level.accept? input = some op ↔
      input = op.value.2 :: op.rest ∧ level.operator? op.value.2.kind = some op.value.1 := by
  cases input with
  | nil => simp [Level.accept?]
  | cons token tail =>
    obtain ⟨⟨o, token'⟩, rest, shorter⟩ := op
    rw [Level.accept?, Option.map_eq_some_iff]
    constructor
    · rintro ⟨o', ho, heq⟩
      cases heq
      exact ⟨rfl, ho⟩
    · rintro ⟨heq, ho⟩
      obtain ⟨rfl, rfl⟩ := List.cons.inj heq
      exact ⟨o, ho, rfl⟩

/-- An operator is read whatever stands behind it. -/
theorem Level.accept?_of_head {level : Level} {token : Token} {o : Operator}
    (hinput : input = token :: rest) (h : level.operator? token.kind = some o) :
    ∃ op, level.accept? input = some op ∧ op.value = (o, token) ∧ op.rest = rest := by
  subst hinput
  exact ⟨.one token (o, token), accept?_eq_some.2 ⟨rfl, h⟩, rfl, rfl⟩

theorem reads_expect {kind : TokenKind} (wanted : Expectation) {token : Token} :
    Reads (expect kind wanted input) token rest ↔ input = token :: rest ∧ token.kind = kind := by
  unfold expect
  split
  · rename_i p hp
    obtain ⟨hinput, hkind⟩ := accept?_eq_some.1 hp
    rw [reads_ok]
    constructor
    · rintro ⟨rfl, rfl⟩
      exact ⟨hinput, hkind⟩
    · rintro ⟨hinput', -⟩
      exact List.cons.inj (hinput.symm.trans hinput')
  · rename_i hnone
    constructor
    · rintro ⟨p, hp, -⟩
      cases hp
    · rintro ⟨rfl, hkind⟩
      exact absurd hkind (accept?_eq_none.1 hnone token rfl)

/-! ### Numbers -/

/-- All integer literals of some tokens are numerals that stand for words. -/
def WellWritten (ts : List Token) : Prop :=
  ∀ t ∈ ts, t.kind = .integerLiteral → IsNumeral t

theorem WellWritten.right {first second : List Token} (h : WellWritten (first ++ second)) :
    WellWritten second :=
  fun t ht ↦ h t (List.mem_append_right _ ht)

theorem WellWritten.tail {token : Token} {ts : List Token} (h : WellWritten (token :: ts)) :
    WellWritten ts :=
  fun t ht ↦ h t (List.mem_cons_of_mem _ ht)

theorem WellWritten.accept? {kind : TokenKind} (hinput : WellWritten input)
    {p : Parsed Token input} (h : accept? kind input = some p) : WellWritten p.rest :=
  ((accept?_eq_some.1 h).1 ▸ hinput).tail

theorem WellWritten.acceptOperator? {level : Level} (hinput : WellWritten input)
    {op : Parsed (Operator × Token) input} (h : level.accept? input = some op) :
    WellWritten op.rest :=
  ((Level.accept?_eq_some.1 h).1 ▸ hinput).tail

theorem readWord?_of_isNumeral {token : Token} (h : IsNumeral token) :
    Numeral.readWord? token.text = some (Int32.ofInt (Numeral.value token.text.toList)) := by
  have hdigits : token.text.toList.takeWhile Char.isDigit = token.text.toList :=
    List.takeWhile_eq_self_iff.2 h.digits
  unfold Numeral.readWord?
  split
  · rename_i rest htext
    have hsign := h.digits '-' (htext ▸ List.mem_cons_self)
    exact absurd hsign (by decide)
  · simp only [hdigits]
    exact if_pos ⟨h.nonempty, h.fits⟩

/-! ### Levels of precedence -/

end Parser

namespace Grammar.Tier

open ScalarMips.Parser

/-- The place of a nonterminal among those for expressions. -/
def rank : Tier → Nat
  | or => 0
  | and => 1
  | equality => 2
  | comparison => 3
  | term => 4
  | factor => 5
  | unary => 6
  | primary => 7

/-- The operators of a nonterminal. -/
def level (t : Tier) : Level :=
  (Level.all[t.rank]?).getD []

/-- The operators of the operands. -/
def tighterLevels (t : Tier) : List Level :=
  Level.all.drop (t.rank + 1)

/-- Reads what a nonterminal stands for. -/
def read (t : Tier) (input : List Token) : Result Expr input :=
  match t with
  | primary => Parser.primary input
  | t => Parser.binary (Level.all.drop t.rank) input

/-- Goes on with an expression that has been read. -/
def resume (t : Tier) {input : List Token} (left : Parsed Expr input) : Result Expr input :=
  chain t.level t.tighterLevels left

theorem rank_tighter {t t' : Tier} (h : t.tighter? = some t') : t'.rank = t.rank + 1 := by
  cases t <;> cases h <;> rfl

theorem lookup_level (t : Tier) (mark : Mark) :
    t.level.lookup mark = (binary? mark).bind fun b ↦ if b.1 = t then some b.2 else none := by
  cases mark <;> cases t <;> rfl

theorem operator?_level {t : Tier} {kind : TokenKind} {op : Operator} :
    t.level.operator? kind = some op ↔ ∃ mark, kind = .mark mark ∧ binary? mark = some (t, op) := by
  cases kind with
  | mark mark =>
    rw [Level.operator?, lookup_level, Option.bind_eq_some_iff]
    constructor
    · rintro ⟨⟨t', op'⟩, hmark, hop⟩
      simp only [Option.ite_none_right_eq_some, Option.some.injEq] at hop
      obtain ⟨rfl, rfl⟩ := hop
      exact ⟨mark, rfl, hmark⟩
    · rintro ⟨mark', hmark', hop⟩
      cases hmark'
      exact ⟨_, hop, if_pos rfl⟩
  | _ => simp [Level.operator?]

theorem accept?_level {t : Tier} {input : List Token} {op : Parsed (Operator × Token) input} :
    t.level.accept? input = some op ↔ input = op.value.2 :: op.rest ∧
      ∃ mark, op.value.2.kind = .mark mark ∧ binary? mark = some (t, op.value.1) := by
  rw [Level.accept?_eq_some, operator?_level]

theorem ne_unary_of_binary? {mark : Mark} {t : Tier} {op : Operator}
    (h : binary? mark = some (t, op)) : t ≠ .unary := by
  cases mark <;> cases h <;> nofun

/-- Operands are read with the operators that bind more tightly. -/
theorem read_tighter {t t' : Tier} (h : t.tighter? = some t') (hunary : t ≠ .unary)
    (input : List Token) : t'.read input = Parser.binary t.tighterLevels input := by
  cases t with
  | unary => exact absurd rfl hunary
  | primary => cases h
  | _ =>
    cases h
    rfl

/-- A nonterminal with operators reads an operand and goes on. -/
theorem read_eq {t t' : Tier} (h : t.tighter? = some t') (hunary : t ≠ .unary)
    (input : List Token) : t.read input = t'.read input >>= t.resume := by
  cases t with
  | unary => exact absurd rfl hunary
  | primary => cases h
  | _ =>
    cases h
    exact Parser.binary.eq_2 ..

end Grammar.Tier

namespace Parser

variable {input rest : List Token}

/-! ### Tokens of a kind of tree -/

/-- What has been read are tokens of a kind of tree. -/
def Parsed.Spells {α : Type} {input : List Token} (p : Parsed α input)
    (derived : List Token → α → Prop) : Prop :=
  ∃ ts, input = ts ++ p.rest ∧ derived ts p.value

theorem WellWritten.behind {α : Type} {p : Parsed α input} {derived : List Token → α → Prop}
    (hinput : WellWritten input) (h : p.Spells derived) : WellWritten p.rest := by
  obtain ⟨ts, hts, -⟩ := h
  rw [hts] at hinput
  exact hinput.right

/-- One stretch of tokens is read after another. -/
theorem consumed_append {first second mid : List Token} (h : input = first ++ mid)
    (h' : mid = second ++ rest) : input = first ++ second ++ rest := by
  rw [h, h', List.append_assoc]

/-- Tokens of a kind of tree with a closing mark behind them. -/
def Enclosed {α : Type} (closing : Mark) (derived : List Token → α → Prop) (ts : List Token)
    (a : α × Token) : Prop :=
  ∃ inner, ts = inner ++ [a.2] ∧ derived inner a.1 ∧ a.2.kind = .mark closing

theorem Level.operator?_unary {kind : TokenKind} {op : Operator} :
    Level.unary.operator? kind = some op ↔
      ∃ mark, kind = .mark mark ∧ unary? mark = some op := by
  have hlookup : ∀ mark, Level.unary.lookup mark = unary? mark := by
    intro mark
    cases mark <;> rfl
  cases kind with
  | mark mark => simp [Level.operator?, hlookup]
  | _ => simp [Level.operator?]

theorem Level.accept?_unary {input : List Token} {op : Parsed (Operator × Token) input} :
    Level.unary.accept? input = some op ↔ input = op.value.2 :: op.rest ∧
      ∃ mark, op.value.2.kind = .mark mark ∧ unary? mark = some op.value.1 := by
  rw [Level.accept?_eq_some, Level.operator?_unary]

/-- The operators of the operands belong to the next nonterminal. -/
theorem exists_tighter {t : Tier} {level : Level} {tighter : List Level}
    (h : Level.all.drop t.rank = level :: tighter) :
    ∃ t', t.tighter? = some t' ∧ Level.all.drop t'.rank = tighter ∧ t' ≠ .primary ∧
      t.level = level := by
  cases t <;> cases h <;> exact ⟨_, rfl, rfl, nofun, rfl⟩

/-- Where no operators between operands are left, those before an operand come next. -/
theorem eq_unary_of_levels {t : Tier} (hprimary : t ≠ .primary)
    (h : Level.all.drop t.rank = []) : t = .unary := by
  cases t with
  | primary => exact absurd rfl hprimary
  | unary => rfl
  | _ => cases h

end Parser

end ScalarMips
