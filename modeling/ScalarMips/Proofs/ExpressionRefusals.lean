import ScalarMips.Proofs.Completions
import ScalarMips.Proofs.ExpressionReading

/-!
# Where the reader of expressions stops

A reader looks at no token behind the one at which it stops. If it succeeds, it gives the same value
for the same tokens whenever the token behind them is the same (`Repeats`). If it refuses, it
refuses in the same way whatever stands behind the token it names, and what comes before that token
can be completed (`Halts`). Both are proved together by one induction along the readers
(`expr_settles`): what comes before the refused token can be completed because the parts read so far
are those of the grammar, and the last of them by induction.

Refusals of parts are refusals of the whole. `Halts.after` puts the tokens of the parts that have
been read before a refusal; they have to be read again on another input, which is why `Repeats` is
needed.
-/

namespace ScalarMips.Parser

open Grammar

variable {α β : Type} {input input' mid mid' rest : List Token}

/-! ### Refusals and what stands behind them -/

/-- The same value is given for the same tokens before the same next token. -/
def Repeats (gives : List Token → α → List Token → Prop) (input : List Token) (a : α)
    (rest : List Token) : Prop :=
  ∃ first, input = first ++ rest ∧
    ∀ rest' : List Token, rest'.head? = rest.head? → gives (first ++ rest') a rest'

/-- A refusal names the token behind some that can be completed, and is independent of what stands
behind that token. -/
def Halts (fails : List Token → Prop) (viable : List Token → Prop) (input : List Token)
    (r : Refusal) : Prop :=
  ∃ ts rest, input = ts ++ rest ∧ r.span = rest.head?.map Token.span ∧ viable ts ∧
    ∀ rest' : List Token, rest'.head? = rest.head? → fails (ts ++ rest')

/-- A reader looks at no token behind the one at which it stops, and all that it has read when it
refuses can be completed. -/
structure Settles (read : ∀ input, Result α input) (viable : List Token → Prop)
    (input : List Token) : Prop where
  /-- A reading is repeated. -/
  repeats : ∀ p, read input = .ok p →
    Repeats (fun input ↦ Reads (read input)) input p.value p.rest
  /-- A refusal is repeated. -/
  halts : ∀ r, read input = .error r → Halts (read · = .error r) viable input r

theorem head?_append_congr (first : List Token) (h : mid'.head? = mid.head?) :
    (first ++ mid').head? = (first ++ mid).head? := by
  rw [List.head?_append, List.head?_append, h]

/-- A refusal before which nothing has been read. -/
theorem Halts.here {fails viable : List Token → Prop} {r : Refusal}
    (hspan : r.span = input.head?.map Token.span) (hviable : viable [])
    (hfails : ∀ input' : List Token, input'.head? = input.head? → fails input') :
    Halts fails viable input r :=
  ⟨[], input, rfl, hspan, hviable, hfails⟩

/-- A refusal of a part that stands behind others. -/
theorem Halts.after {fails fails' viable viable' : List Token → Prop} {r : Refusal}
    (h : Halts fails viable mid r) (first : List Token) (hinput : input = first ++ mid)
    (hviable : ∀ ts, viable ts → viable' (first ++ ts))
    (hfails : ∀ mid' : List Token, mid'.head? = mid.head? → fails mid' → fails' (first ++ mid')) :
    Halts fails' viable' input r := by
  obtain ⟨ts, rest, rfl, hspan, hts, hrest⟩ := h
  refine ⟨first ++ ts, rest, ?_, hspan, hviable ts hts, fun rest' hhead ↦ ?_⟩
  · rw [hinput, List.append_assoc]
  · rw [List.append_assoc]
    exact hfails _ (head?_append_congr ts hhead) (hrest rest' hhead)

/-- A refusal of a part that stands in front. -/
theorem Halts.mono {fails fails' viable viable' : List Token → Prop} {r : Refusal}
    (h : Halts fails viable input r) (hviable : ∀ ts, viable ts → viable' ts)
    (hfails : ∀ input' : List Token, input'.head? = input.head? → fails input' → fails' input') :
    Halts fails' viable' input r :=
  h.after [] rfl hviable hfails

/-- Tokens that are always read in the same way. -/
theorem Settles.of_reads {read : ∀ input, Result α input} {viable : List Token → Prop}
    (first : List Token) (a : α) (h : ∀ rest' : List Token, rest'.head? = rest.head? →
      Reads (read (first ++ rest')) a rest') :
    Settles read viable (first ++ rest) := by
  obtain ⟨p, hp, hvalue, hrest⟩ := h rest rfl
  constructor
  · intro q hq
    cases hp.symm.trans hq
    rw [hvalue, hrest]
    exact ⟨first, rfl, h⟩
  · intro r hr
    cases hp.symm.trans hr

/-- A refusal after a reading. -/
theorem Reads.error {first : Result α input'} {next : Parsed α input' → Except Refusal β} {a : α}
    {r : Refusal} (h : Reads first a mid)
    (hnext : ∀ p, p.value = a → p.rest = mid → next p = .error r) : first >>= next = .error r := by
  obtain ⟨p, hp, hvalue, hrest⟩ := h
  exact bind_eq_error.2 (.inr ⟨p, hp, hnext p hvalue hrest⟩)

/-! ### Single tokens -/

theorem refuse_congr {wanted : Expectation} {r : Refusal}
    (h : (refuse wanted input : Except Refusal α) = .error r) (hhead : input'.head? = input.head?) :
    (refuse wanted input' : Except Refusal β) = .error r := by
  cases h
  rw [refuse, hhead]

theorem accept?_none_congr {kind : TokenKind} (hnone : accept? kind input = none)
    (h : input'.head? = input.head?) : accept? kind input' = none := by
  rw [accept?_eq_none] at hnone ⊢
  rwa [h]

theorem Level.accept?_none_congr {level : Level} (hnone : level.accept? input = none)
    (h : input'.head? = input.head?) : level.accept? input' = none := by
  cases input' with
  | nil => rfl
  | cons token tail =>
    cases input with
    | nil => cases h
    | cons token' tail' =>
      cases h
      exact Option.map_eq_none_iff.2 (Option.map_eq_none_iff.1 hnone)

/-- A token that is missing is missing whatever stands behind. -/
theorem expect_halts {kind : TokenKind} {wanted : Expectation} {r : Refusal}
    (h : expect kind wanted input = .error r) :
    Halts (expect kind wanted · = .error r) (· = []) input r := by
  unfold expect at h
  split at h
  · cases h
  · rename_i hnone
    have hspan : r.span = input.head?.map Token.span := by
      cases h
      rfl
    refine .here hspan rfl fun input' hhead ↦ ?_
    show expect kind wanted input' = .error r
    rw [expect, accept?_none_congr hnone hhead]
    exact refuse_congr h hhead

/-! ### Expressions -/

/-- What is read behind an expression is of the same nonterminal. -/
def Resumes (level : Level) (tighter : List Level) (left : Expr) (mid : List Token) (e : Expr)
    (rest : List Token) : Prop :=
  ∀ input (p : Parsed Expr input), p.value = left → p.rest = mid →
    Reads (chain level tighter p) e rest

/-- Nothing of the same nonterminal can be read behind an expression. -/
def FailsBehind (level : Level) (tighter : List Level) (left : Expr) (r : Refusal)
    (mid : List Token) : Prop :=
  ∀ input (p : Parsed Expr input), p.value = left → p.rest = mid →
    chain level tighter p = .error r

/-- The operand behind an operator is refused. -/
theorem chain_of_error {level : Level} {tighter : List Level} {left : Parsed Expr input}
    {token : Token} {o : Operator} {r : Refusal} (hleft : left.rest = token :: mid)
    (ho : level.operator? token.kind = some o) (h : binary tighter mid = .error r) :
    chain level tighter left = .error r := by
  obtain ⟨op, hop, -, rfl⟩ := Level.accept?_of_head hleft ho
  rw [chain_operator hop]
  exact error_bind h

theorem unary_of_error {token : Token} {o : Operator} {r : Refusal}
    (ho : Level.unary.operator? token.kind = some o) (h : unary mid = .error r) :
    unary (token :: mid) = .error r := by
  obtain ⟨op, hop, -, hmid⟩ := Level.accept?_of_head (Eq.refl (token :: mid)) ho
  rw [unary_operator hop]
  exact error_bind (by rwa [hmid])

/-- The tokens that have been read are those of the tree. -/
theorem Parsed.Spells.derived {p : Parsed α input} {derived : List Token → α → Prop}
    (h : p.Spells derived) {first : List Token} (hfirst : input = first ++ p.rest) :
    derived first p.value := by
  obtain ⟨ts, hts, hderived⟩ := h
  exact List.append_cancel_right (hts.symm.trans hfirst) ▸ hderived

theorem arguments_complete {ts : List Token} {es : List Expr} (h : Optional Arguments ts es)
    {closing : Token} (hclosing : closing.kind = .mark .rightParen) :
    Reads (arguments (ts ++ closing :: rest)) (es, closing) rest := by
  rcases h with ⟨rfl, rfl⟩ | h
  · exact reads_noArguments hclosing
  · exact reads_someArguments (head_arguments h) (reads_of_arguments h rfl hclosing)

/-- An expression is read from tokens that the grammar derives, and it is read from them again
before the same next token. -/
def ReadsAgain (levels : List Level) (t : Tier) (input : List Token) (e : Expr)
    (rest : List Token) : Prop :=
  ∃ first, input = first ++ rest ∧ Expression t first e ∧
    ∀ rest' : List Token, rest'.head? = rest.head? → Reads (binary levels (first ++ rest')) e rest'

theorem Settles.readsAgain {levels : List Level} {t : Tier}
    (h : Settles (binary levels) (InExpression t) input) (hprimary : t ≠ .primary)
    (hlevels : Level.all.drop t.rank = levels) (hinput : WellWritten input)
    (p : Parsed Expr input) (hp : binary levels input = .ok p) :
    ReadsAgain levels t input p.value p.rest := by
  obtain ⟨first, hfirst, hread⟩ := h.repeats p hp
  have hspells := expr_sound.binary levels input t hprimary hlevels hinput p hp
  exact ⟨first, hfirst, hspells.derived hfirst, hread⟩

/-- What is read behind an expression is read by looking at no token behind it, and all that has
been read behind it up to a refusal can be completed. -/
structure ChainSettles (level : Level) (tighter : List Level) (t : Tier) (left : Parsed Expr input)
    (ts : List Token) : Prop where
  /-- A reading is repeated. -/
  repeats : ∀ p, chain level tighter left = .ok p →
    Repeats (Resumes level tighter left.value) left.rest p.value p.rest
  /-- A refusal is repeated. -/
  halts : ∀ r, chain level tighter left = .error r →
    Halts (FailsBehind level tighter left.value r) (fun us ↦ InExpression t (ts ++ us)) left.rest r

section Operators

variable {level : Level} {tighter : List Level} {t t' : Tier} {left : Parsed Expr input}

/-- The operators of a level and the operands between them. -/
theorem settles_binary (htighter : t.tighter? = some t')
    (hoperand : Settles (binary tighter) (InExpression t') input)
    (hagain : ∀ p, binary tighter input = .ok p → ReadsAgain tighter t' input p.value p.rest)
    (hchain : ∀ (left : Parsed Expr input) (ts : List Token), input = ts ++ left.rest →
      Expression t ts left.value → ChainSettles level tighter t left ts) :
    Settles (binary (level :: tighter)) (InExpression t) input := by
  constructor
  · intro p h
    rw [binary] at h
    obtain ⟨left, hleft, h⟩ := bind_eq_ok.1 h
    obtain ⟨first, hfirst, hderived, hread⟩ := hagain left hleft
    obtain ⟨more, hmore, hresumes⟩ :=
      (hchain left first hfirst (.operand htighter hderived)).repeats p h
    refine ⟨first ++ more, consumed_append hfirst hmore, fun rest' hhead ↦ ?_⟩
    rw [List.append_assoc]
    show Reads (binary (level :: tighter) _) _ _
    rw [binary]
    exact (hread _ (hmore ▸ head?_append_congr more hhead)).bind fun q hq hqrest ↦
      hresumes rest' hhead _ q hq hqrest
  · intro r h
    rw [binary] at h
    rcases bind_eq_error.1 h with h | ⟨left, hleft, h⟩
    · exact (hoperand.halts r h).mono (fun _ ↦ .operand htighter) fun _ _ h ↦ by
        rw [binary, error_bind h]
    · obtain ⟨first, hfirst, hderived, hread⟩ := hagain left hleft
      have hleftHalts := (hchain left first hfirst (.operand htighter hderived)).halts r h
      refine hleftHalts.after first hfirst (fun _ h ↦ h) fun mid' hhead hfails ↦ ?_
      rw [binary]
      exact (hread mid' hhead).error fun q hq hqrest ↦ hfails _ q hq hqrest

/-- No operator stands behind an expression. -/
theorem chainSettles_of_none (hnone : level.accept? left.rest = none) (ts : List Token) :
    ChainSettles level tighter t left ts := by
  constructor
  · intro p h
    rw [chain_stop hnone] at h
    cases h
    refine ⟨[], rfl, fun rest' hhead input' q hq hqrest ↦ ?_⟩
    rw [chain_stop (Level.accept?_none_congr hnone (by rw [hqrest]; exact hhead))]
    exact reads_ok.2 ⟨hq, hqrest⟩
  · intro r h
    rw [chain_stop hnone] at h
    cases h

/-- An operator stands behind an expression, and then its operand. -/
theorem chainSettles_of_some {op : Parsed (Operator × Token) left.rest}
    (hop : t.level.accept? left.rest = some op) (htighter : t.tighter? = some t')
    (hoperand : Settles (binary tighter) (InExpression t') op.rest)
    (hagain : ∀ p, binary tighter op.rest = .ok p → ReadsAgain tighter t' op.rest p.value p.rest)
    {ts : List Token} (hts : input = ts ++ left.rest) (hleft : Expression t ts left.value)
    (hchain : ∀ (right : Parsed Expr op.rest) (us : List Token), input = us ++ right.rest →
      Expression t us (left.extended op right).value →
        ChainSettles t.level tighter t (left.extended op right) us) :
    ChainSettles t.level tighter t left ts := by
  obtain ⟨-, mark, hmark, hbinary⟩ := Tier.accept?_level.1 hop
  obtain ⟨hrest, ho⟩ := Level.accept?_eq_some.1 hop
  -- The operand that is read next, and what has been read up to its end.
  have hright : ∀ right, binary tighter op.rest = .ok right → ∃ second,
      left.rest = op.value.2 :: second ++ right.rest ∧
      Expression t (ts ++ op.value.2 :: second)
        (.binary (left.value.span.to right.value.span) op.value.1 left.value right.value) ∧
      ∀ mid' : List Token, mid'.head? = right.rest.head? →
        Reads (binary tighter (second ++ mid')) right.value mid' := by
    intro right hright
    obtain ⟨second, hsecond, hderived, hread⟩ := hagain right hright
    exact ⟨second, hrest.trans (congrArg (op.value.2 :: ·) hsecond),
      .binary htighter hleft hmark hbinary hderived, hread⟩
  constructor
  · intro p h
    rw [chain_operator hop] at h
    obtain ⟨right, hok, h⟩ := bind_eq_ok.1 h
    obtain ⟨second, hsecond, hwhole, hread⟩ := hright right hok
    obtain ⟨more, hmore, hresumes⟩ := (hchain right (ts ++ op.value.2 :: second)
      (consumed_append hts hsecond) hwhole).repeats p h
    have hmore : right.rest = more ++ p.rest := hmore
    refine ⟨op.value.2 :: second ++ more, consumed_append hsecond hmore,
      fun rest' hhead input' q hq hqrest ↦ ?_⟩
    rw [List.append_assoc] at hqrest
    obtain ⟨q', hq', hqrest', hchain⟩ :=
      chain_of_reads hqrest ho (hread _ (hmore ▸ head?_append_congr more hhead))
    rw [hchain]
    exact hresumes rest' hhead _ q' (hq'.trans (by rw [hq]; rfl)) hqrest'
  · intro r h
    rw [chain_operator hop] at h
    rcases bind_eq_error.1 h with h | ⟨right, hok, h⟩
    · rw [hrest]
      refine (hoperand.halts r h).after [op.value.2] rfl (fun us hus ↦ ?_)
        fun mid' _ hfails input' q _ hqrest ↦ ?_
      · exact InExpression.binary htighter hleft hmark hbinary hus
      · exact chain_of_error hqrest ho hfails
    · obtain ⟨second, hsecond, hwhole, hread⟩ := hright right hok
      refine ((hchain right (ts ++ op.value.2 :: second) (consumed_append hts hsecond)
        hwhole).halts r h).after (op.value.2 :: second) hsecond (fun us hus ↦ ?_)
          fun mid' hhead hfails input' q hq hqrest ↦ ?_
      · rwa [List.append_assoc] at hus
      · obtain ⟨q', hq', hqrest', hchain⟩ := chain_of_reads hqrest ho (hread mid' hhead)
        rw [hchain]
        exact hfails _ q' (hq'.trans (by rw [hq]; rfl)) hqrest'

/-- An operator stands before its only operand. -/
theorem settles_unary_of_some {op : Parsed (Operator × Token) input}
    (hop : Level.unary.accept? input = some op)
    (hoperand : Settles unary (InExpression .unary) op.rest) :
    Settles unary (InExpression .unary) input := by
  obtain ⟨-, mark, hmark, hunary⟩ := Level.accept?_unary.1 hop
  obtain ⟨heq, ho⟩ := Level.accept?_eq_some.1 hop
  constructor
  · intro p h
    rw [unary_operator hop] at h
    obtain ⟨operand, hok, h⟩ := bind_eq_ok.1 h
    cases h
    obtain ⟨first, hfirst, hread⟩ := hoperand.repeats operand hok
    refine ⟨op.value.2 :: first, heq.trans (congrArg (op.value.2 :: ·) hfirst),
      fun rest' hhead ↦ reads_unary ho (hread rest' hhead)⟩
  · intro r h
    rw [unary_operator hop] at h
    rcases bind_eq_error.1 h with h | ⟨operand, -, h⟩
    · rw [heq]
      exact (hoperand.halts r h).after [op.value.2] rfl (fun _ ↦ .unary hmark hunary)
        fun mid' _ hfails ↦ unary_of_error ho hfails
    · cases h

/-- No operator stands before an operand. -/
theorem settles_unary_of_none (hnone : Level.unary.accept? input = none)
    (hprimary : Settles primary (InExpression .primary) input) :
    Settles unary (InExpression .unary) input := by
  have hunary : ∀ input' : List Token, input'.head? = input.head? →
      unary input' = primary input' := by
    intro input' hhead
    exact unary_operand (Level.accept?_none_congr hnone hhead)
  constructor
  · intro p h
    rw [hunary input rfl] at h
    obtain ⟨first, hfirst, hread⟩ := hprimary.repeats p h
    refine ⟨first, hfirst, fun rest' hhead ↦ ?_⟩
    have hsame : (first ++ rest').head? = input.head? := by
      rw [hfirst]
      exact head?_append_congr first hhead
    show Reads (unary _) _ _
    rw [hunary _ hsame]
    exact hread rest' hhead
  · intro r h
    rw [hunary input rfl] at h
    exact (hprimary.halts r h).mono (fun _ ↦ .operand rfl) fun input' hhead hfails ↦
      (hunary input' hhead).trans hfails

end Operators

section Operands

variable {token : Token} {tail : List Token}

/-- An operand that is one token. -/
theorem settles_token {e : Expr}
    (h : ∀ rest : List Token, rest.head? = tail.head? → Reads (primary (token :: rest)) e rest) :
    Settles primary (InExpression .primary) (token :: tail) :=
  .of_reads [token] e h

/-- A token with which no expression starts. -/
theorem settles_nothing (hread : ∀ input' : List Token, input'.head? = input.head? →
    primary input' = refuse .expression input') :
    Settles primary (InExpression .primary) input := by
  constructor
  · intro p h
    rw [hread input rfl] at h
    cases h
  · intro r h
    rw [hread input rfl] at h
    cases h
    refine .here rfl (inExpression_nil _) fun input' hhead ↦ ?_
    rw [hread input' hhead, refuse, hhead]

/-- The arguments of a call. -/
theorem settles_call {opening : Parsed Token tail} (hkind : token.kind = .identifier)
    (hopening : accept? (.mark .leftParen) tail = some opening) (hinput : WellWritten tail)
    (hhalts : WellWritten opening.rest → ∀ r, arguments opening.rest = .error r →
      Halts (arguments · = .error r) InArguments opening.rest r) :
    Settles primary (InExpression .primary) (token :: tail) := by
  obtain ⟨heq, hparen⟩ := accept?_eq_some.1 hopening
  have hwritten := hinput.accept? hopening
  constructor
  · intro p h
    rw [primary_call hkind hopening] at h
    obtain ⟨arguments, harguments, h⟩ := bind_eq_ok.1 h
    cases h
    obtain ⟨_, hts, ts, rfl, hlist, hclosing⟩ :=
      expr_sound.arguments _ hwritten arguments harguments
    refine ⟨token :: opening.value :: (ts ++ [arguments.value.2]), ?_, fun rest' _ ↦ ?_⟩
    · exact congrArg (token :: ·) (heq.trans (congrArg (opening.value :: ·) hts))
    · rw [List.cons_append, List.cons_append, List.append_assoc]
      exact reads_call hkind hparen (arguments_complete hlist hclosing)
  · intro r h
    rw [primary_call hkind hopening] at h
    rcases bind_eq_error.1 h with h | ⟨arguments, -, h⟩
    · rw [heq]
      refine (hhalts hwritten r h).after [token, opening.value] rfl
        (fun _ ↦ InArguments.call hkind hparen) fun mid' _ hfails ↦ ?_
      have haccept : accept? (.mark .leftParen) (opening.value :: mid') =
          some (.one opening.value opening.value) := accept?_eq_some.2 ⟨rfl, hparen⟩
      rw [List.cons_append, List.singleton_append, primary_call hkind haccept]
      exact error_bind hfails
    · cases h

/-- An expression in parentheses. -/
theorem settles_group (hkind : token.kind = .mark .leftParen) (hinput : WellWritten tail)
    (hinner : Settles (binary Level.all) (InExpression .or) tail) :
    Settles primary (InExpression .primary) (token :: tail) := by
  have hagain := hinner.readsAgain (by decide) rfl hinput
  constructor
  · intro p h
    rw [primary_group hkind] at h
    obtain ⟨inner, hok, h⟩ := bind_eq_ok.1 h
    obtain ⟨close, hclose, h⟩ := bind_eq_ok.1 h
    cases h
    obtain ⟨first, hfirst, -, hrepeat⟩ := hagain inner hok
    obtain ⟨hrest, hclosing⟩ := (reads_expect _).1 ⟨close, hclose, rfl, rfl⟩
    refine ⟨token :: (first ++ [close.value]), ?_, fun rest' _ ↦ ?_⟩
    · exact congrArg (token :: ·) (consumed_append hfirst hrest)
    · rw [List.cons_append, List.append_assoc]
      exact reads_group hkind hclosing
        (hrepeat (close.value :: rest') (congrArg List.head? hrest).symm)
  · intro r h
    rw [primary_group hkind] at h
    rcases bind_eq_error.1 h with h | ⟨inner, hok, h⟩
    · exact (hinner.halts r h).after [token] rfl (fun _ ↦ .group hkind)
        fun mid' _ hfails ↦ (primary_group hkind).trans (error_bind hfails)
    · obtain ⟨first, hfirst, hderived, hrepeat⟩ := hagain inner hok
      rcases bind_eq_error.1 h with h | ⟨close, -, h⟩
      · refine (expect_halts h).after (token :: first)
          (congrArg (token :: ·) hfirst) ?_ fun mid' hhead hfails ↦ ?_
        · rintro _ rfl
          rw [List.append_nil]
          exact .group hkind (.of_derived hderived)
        · refine (primary_group hkind).trans ((hrepeat mid' hhead).error fun q hq hqrest ↦ ?_)
          exact error_bind (by rwa [hqrest])
      · cases h

end Operands

/-- Arguments behind the parenthesis that opens them. -/
theorem argumentsFrom_halts {r : Refusal} (hinput : WellWritten input)
    (hfirst : Settles (binary Level.all) (InExpression .or) input)
    (hmore : ∀ (argument : Parsed Expr input) (comma : Parsed Token argument.rest),
      WellWritten comma.rest → argumentsFrom comma.rest = .error r →
        Halts (argumentsFrom · = .error r) InArguments comma.rest r)
    (h : argumentsFrom input = .error r) :
    Halts (argumentsFrom · = .error r) InArguments input r := by
  rw [argumentsFrom] at h
  rcases bind_eq_error.1 h with h | ⟨argument, hargument, h⟩
  · refine (hfirst.halts r h).mono (fun _ ↦ InExpression.arguments) fun input' _ hfails ↦ ?_
    rw [argumentsFrom]
    exact error_bind hfails
  · obtain ⟨first, hconsumed, he, hread⟩ :=
      hfirst.readsAgain (by decide) rfl hinput argument hargument
    split at h
    · rename_i comma hcomma
      obtain ⟨hrest, hkind⟩ := accept?_eq_some.1 hcomma
      have hwritten : WellWritten comma.rest :=
        (hinput.behind ⟨first, hconsumed, he⟩).accept? hcomma
      rcases bind_eq_error.1 h with h | ⟨more, -, h⟩
      · refine (hmore argument comma hwritten h).after (first ++ [comma.value])
          (consumed_append hconsumed hrest) (fun us hus ↦ ?_) fun mid' _ hfails ↦ ?_
        · rw [List.append_assoc]
          exact .more he hkind hus
        · rw [List.append_assoc, argumentsFrom]
          refine (hread (comma.value :: mid') (congrArg List.head? hrest).symm).error
            fun q hq hqrest ↦ ?_
          obtain ⟨o, ho, -, horest⟩ := accept?_of_head hqrest hkind
          rw [ho]
          exact error_bind (by rwa [horest])
      · cases h
    · rename_i hnone
      rcases bind_eq_error.1 h with h | ⟨close, -, h⟩
      · refine (expect_halts h).after first hconsumed ?_ fun mid' hhead hfails ↦ ?_
        · rintro _ rfl
          rw [List.append_nil]
          exact .of_derived (.last he)
        · rw [argumentsFrom]
          refine (hread mid' hhead).error fun q hq hqrest ↦ ?_
          rw [accept?_none_congr hnone (by rw [hqrest]; exact hhead)]
          exact error_bind (by rwa [hqrest])
      · cases h

/-- No reader of expressions looks behind the token at which it stops, and all that it has read then
can be completed. -/
theorem expr_settles : ExprReaders
    (fun levels input _ ↦ ∀ t : Tier, t ≠ .primary → Level.all.drop t.rank = levels →
      WellWritten input → Settles (binary levels) (InExpression t) input)
    (fun level tighter input left _ ↦ ∀ t : Tier, Level.all.drop t.rank = level :: tighter →
      WellWritten input → ∀ ts, input = ts ++ left.rest → Expression t ts left.value →
        ChainSettles level tighter t left ts)
    (fun input _ ↦ WellWritten input → Settles unary (InExpression .unary) input)
    (fun input _ ↦ WellWritten input → Settles primary (InExpression .primary) input)
    (fun input result ↦ WellWritten input → ∀ r, result = .error r →
      Halts (arguments · = .error r) InArguments input r)
    (fun input result ↦ WellWritten input → ∀ r, result = .error r →
      Halts (argumentsFrom · = .error r) InArguments input r) := by
  apply ExprReaders.of_branches
  case operand =>
    intro input ih t hprimary hlevels hinput
    have hread : binary [] = unary := funext binary.eq_1
    rw [hread, eq_unary_of_levels hprimary hlevels]
    exact ih hinput
  case level =>
    intro level tighter input ihBinary ihChain t _ hlevels hinput
    obtain ⟨t', htighter, hlevels', hprimary, -⟩ := exists_tighter hlevels
    have hoperand := ihBinary t' hprimary hlevels' hinput
    exact settles_binary htighter hoperand (hoperand.readsAgain hprimary hlevels' hinput)
      fun left ts hts hleft ↦ ihChain left t hlevels hinput ts hts hleft
  case stop =>
    intro level tighter input left hnone t _ _ ts _ _
    exact chainSettles_of_none hnone ts
  case operator =>
    intro level tighter input left op hop ihBinary ihChain t hlevels hinput ts hts hleft
    obtain ⟨t', htighter, hlevels', hprimary, rfl⟩ := exists_tighter hlevels
    have hwritten := (hinput.behind ⟨ts, hts, hleft⟩).acceptOperator? hop
    have hoperand := ihBinary t' hprimary hlevels' hwritten
    exact chainSettles_of_some hop htighter hoperand
      (hoperand.readsAgain hprimary hlevels' hwritten) hts hleft
      fun right us hus hwhole ↦ ihChain right t hlevels hinput us hus hwhole
  case sign =>
    intro input op hop ih hinput
    exact settles_unary_of_some hop (ih (hinput.acceptOperator? hop))
  case unsigned =>
    intro input hnone ih hinput
    exact settles_unary_of_none hnone (ih hinput)
  case nil =>
    intro _
    refine settles_nothing fun input' hhead ↦ ?_
    rw [List.head?_eq_none_iff.1 hhead, primary_nil]
  case number =>
    intro token rest number hkind hnumber _
    exact settles_token fun rest' _ ↦ ⟨_, primary_number hkind hnumber, rfl, rfl⟩
  case overflow =>
    intro token rest hkind hnone hinput
    rw [readWord?_of_isNumeral (hinput token List.mem_cons_self hkind)] at hnone
    cases hnone
  case truth =>
    intro token rest hkind _
    exact settles_token fun rest' _ ↦ ⟨_, primary_true hkind, rfl, rfl⟩
  case falsity =>
    intro token rest hkind _
    exact settles_token fun rest' _ ↦ ⟨_, primary_false hkind, rfl, rfl⟩
  case name =>
    intro token rest hkind hnone _
    exact settles_token fun rest' hhead ↦
      ⟨_, primary_name hkind (accept?_none_congr hnone hhead), rfl, rfl⟩
  case call =>
    intro token rest opening hkind hopening ih hinput
    exact settles_call hkind hopening hinput.tail ih
  case group =>
    intro token rest hkind ih hinput
    exact settles_group hkind hinput.tail (ih .or (by decide) rfl hinput.tail)
  case other =>
    intro token rest hkind _
    refine settles_nothing fun input' hhead ↦ ?_
    obtain ⟨rest', rfl⟩ := List.head?_eq_some_iff.1 hhead
    exact primary_other hkind
  case noArguments =>
    intro input close _ _ r h
    cases h
  case someArguments =>
    intro input hnone ih hinput r h
    refine (ih hinput r h).mono (fun _ h ↦ h) fun input' hhead hfails ↦ ?_
    exact (arguments_some (accept?_none_congr hnone hhead)).trans hfails
  case argument =>
    intro input ihFirst ihMore hinput r h
    have h : argumentsFrom input = .error r := by
      rw [argumentsFrom]
      exact h
    exact argumentsFrom_halts hinput (ihFirst .or (by decide) rfl hinput)
      (fun argument comma hwritten ↦ ihMore argument comma hwritten r) h

end ScalarMips.Parser
