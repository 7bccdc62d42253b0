import ScalarMips.Proofs.Reading
import ScalarMips.Tree.Cursor

/-!
# What the readers of the cursor do

A reader that walks over an array does from a state what the reader of lists does with the tokens
that stand before the end of the file (`Follows`): it asks for no token outside of the array, and it
gives the same value and stops at the same token, or records the same fault and gives up.

It also comes to an end, for the same reason as the reader of lists: each call that is made is about
fewer tokens, or about as many and of a lower rank. `Parser.measure` puts the two into one number,
which is how deep calls are nested at most. The induction is along the recursion of the reader of
lists.

Conditional statements and loops take the place where they end from the token in front of the
cursor. What is known of this token (`Passed`) is therefore part of what a reader leaves.
-/

open ScalarMips.Parser (Level Parsed Refusal Result measure)

namespace ScalarMips.Cursor

/-! ### Outcomes -/

variable {α β : Type}

/-- What becomes of a reader that starts in a state. -/
def outcome (m : Reader α) (s : State) : Option (Except Crash (Option α × State)) :=
  ((OptionT.run m).run s).run

/-- A reader ends with a value, without a crash. -/
def Gives (m : Reader α) (s : State) (a : α) (s' : State) : Prop :=
  outcome m s = some (.ok (some a, s'))

/-- A reader ends without a value and without a crash. -/
def GivesUp (m : Reader α) (s s' : State) : Prop :=
  outcome m s = some (.ok (none, s'))

section

variable {m : Reader α} {k : α → Reader β} {s s' s'' : State} {a : α} {b : β}

theorem Gives.outcome_bind (h : Gives m s a s') (k : α → Reader β) :
    outcome (m >>= k) s = outcome (k a) s' := by
  show Option.bind (outcome m s) _ = _
  rw [h]
  rfl

theorem Gives.bind (h : Gives m s a s') (hk : Gives (k a) s' b s'') : Gives (m >>= k) s b s'' :=
  (h.outcome_bind k).trans hk

theorem Gives.bind_givesUp (h : Gives m s a s') (hk : GivesUp (k a) s' s'') :
    GivesUp (m >>= k) s s'' :=
  (h.outcome_bind k).trans hk

theorem GivesUp.bind (h : GivesUp m s s') (k : α → Reader β) : GivesUp (m >>= k) s s' := by
  show Option.bind (outcome m s) _ = _
  rw [h]
  rfl

theorem gives_pure {a' : α} (h : a = a') (s : State) : Gives (pure a) s a' s :=
  h ▸ rfl

end

/-! ### Where a session stands -/

/-- An array of tokens in which there is an end of the file, divided at the first one. -/
structure Ended where
  /-- The array. -/
  tokens : Array Token
  /-- What stands in front of the end of the file. -/
  body : List Token
  /-- The end of the file. -/
  last : Token
  /-- The array begins with them. -/
  split : body ++ [last] <+: tokens.toList
  /-- There is no other end of the file in front. -/
  kind_body : ∀ t ∈ body, t.kind ≠ .endOfFile
  /-- The end of the file is one. -/
  kind_last : last.kind = .endOfFile

variable {x : Ended} {input : List Token} {s : State} {t : Token}

/-- Without having recorded a fault, a session stands in front of the last tokens of the body. -/
structure Before (x : Ended) (input : List Token) (s : State) : Prop where
  /-- The position is that of the tokens. -/
  position : ∃ front, x.body = front ++ input ∧ s.position = front.length
  /-- Nothing has gone wrong. -/
  faults : s.faults = []

/-- A token stands in front of the next one. -/
def Passed (tokens : Array Token) (s : State) (t : Token) : Prop :=
  ∃ position, s.position = position + 1 ∧ tokens[position]? = some t

/-- The state behind the next token. -/
def State.next (s : State) : State :=
  { s with position := s.position + 1 }

namespace Before

/-- The next token is the first of them, or the end of the file. -/
theorem get_eq (h : Before x input s) : x.tokens[s.position]? = some (input.headD x.last) := by
  obtain ⟨front, hbody, hposition⟩ := h.position
  obtain ⟨post, htokens⟩ := x.split
  rw [← Array.getElem?_toList, ← htokens, hbody, hposition, List.append_assoc, List.append_assoc,
    List.getElem?_append_right (Nat.le_refl _), Nat.sub_self]
  cases input <;> rfl

theorem kind_ne (h : Before x (t :: input) s) : t.kind ≠ .endOfFile := by
  obtain ⟨front, hbody, -⟩ := h.position
  exact x.kind_body t (hbody ▸ List.mem_append_right _ List.mem_cons_self)

theorem next (h : Before x (t :: input) s) : Before x input s.next := by
  obtain ⟨front, hbody, hposition⟩ := h.position
  refine ⟨⟨front ++ [t], ?_, ?_⟩, h.faults⟩
  · rw [hbody, List.append_assoc, List.singleton_append]
  · rw [State.next, hposition, List.length_append, List.length_singleton]

theorem passed (h : Before x (t :: input) s) : Passed x.tokens s.next t :=
  ⟨s.position, rfl, h.get_eq⟩

end Before

/-! ### Looking at tokens -/

theorem gives_token {tokens : Array Token} {index : Nat} (h : tokens[index]? = some t)
    (s : State) : Gives (token tokens index) s t s := by
  unfold token
  rw [h]
  rfl

theorem gives_peek (h : Before x input s) :
    Gives (peek x.tokens) s (input.headD x.last) s :=
  gives_token h.get_eq s

theorem gives_previous {tokens : Array Token} (h : Passed tokens s t) :
    Gives (previous tokens) s t s := by
  obtain ⟨position, hposition, hget⟩ := h
  have hstate : Gives (get : Reader State) s s s := rfl
  refine hstate.bind ?_
  rw [hposition]
  exact gives_token hget s

theorem gives_isAtEnd (h : Before x input s) : Gives (isAtEnd x.tokens) s input.isEmpty s := by
  refine (gives_peek h).bind (gives_pure ?_ s)
  cases input with
  | nil => exact decide_eq_true x.kind_last
  | cons t input => exact decide_eq_false h.kind_ne

theorem isSome_accept? (kind : TokenKind) (t : Token) (input : List Token) :
    (Parser.accept? kind (t :: input)).isSome = decide (t.kind = kind) := by
  rw [Parser.accept?]
  split_ifs with hkind
  · exact (decide_eq_true hkind).symm
  · exact (decide_eq_false hkind).symm

theorem gives_check (h : Before x input s) (kind : TokenKind) :
    Gives (check x.tokens kind) s (Parser.accept? kind input).isSome s := by
  refine (gives_isAtEnd h).bind ?_
  cases input with
  | nil => exact gives_pure rfl s
  | cons t input => exact (gives_peek h).bind (gives_pure (isSome_accept? kind t input).symm s)

theorem gives_check_head (h : Before x (t :: input) s) (kind : TokenKind) :
    Gives (check x.tokens kind) s (decide (t.kind = kind)) s := by
  rw [← isSome_accept? kind t input]
  exact gives_check h kind

theorem gives_or {m m' : Reader Bool} {b b' : Bool} (h : Gives m s b s) (h' : Gives m' s b' s) :
    Gives (m <||> m') s (b || b') s := by
  refine h.bind ?_
  cases b with
  | true => exact gives_pure rfl s
  | false => exact h'

theorem gives_not {m : Reader Bool} {b : Bool} (h : Gives m s b s) : Gives (notM m) s (!b) s :=
  h.bind (gives_pure rfl s)

theorem gives_advance (h : Before x (t :: input) s) : Gives (advance x.tokens) s t s.next := by
  refine (gives_isAtEnd h).bind ?_
  exact gives_token h.get_eq s.next

theorem gives_peekNext (h : Before x (t :: input) s) :
    Gives (peekNext x.tokens) s (input.headD x.last) s := by
  have hget := h.next.get_eq
  have hlt : s.position + 1 < x.tokens.size := (Array.getElem?_eq_some_iff.1 hget).1
  show outcome (if s.position + 1 ≥ x.tokens.size then token x.tokens (x.tokens.size - 1)
    else token x.tokens (s.position + 1)) s = _
  rw [if_neg (Nat.not_le.2 hlt)]
  exact gives_token hget s

/-! ### Stepping over tokens -/

/-- Where a session stands after it has stepped over a token. -/
structure Stepped (x : Ended) (t : Token) (rest : List Token) (s : State) : Prop where
  /-- The other tokens are next. -/
  before : Before x rest s
  /-- The token is in front of them. -/
  passed : Passed x.tokens s t

theorem Before.stepped (h : Before x (t :: input) s) : Stepped x t input s.next :=
  ⟨h.next, h.passed⟩

/-- What the reader of lists accepts, the cursor steps over. -/
theorem gives_accept_some {kind : TokenKind} {p : Parsed Token input} (h : Before x input s)
    (hp : Parser.accept? kind input = some p) :
    Gives (accept? x.tokens kind) s (some p.value) s.next ∧ Stepped x p.value p.rest s.next := by
  have hcheck := gives_check h kind
  rw [hp] at hcheck
  rw [(Parser.accept?_eq_some.1 hp).1] at h
  exact ⟨hcheck.bind ((gives_advance h).bind (gives_pure rfl _)), h.stepped⟩

theorem gives_accept_none {kind : TokenKind} (h : Before x input s)
    (hnone : Parser.accept? kind input = none) : Gives (accept? x.tokens kind) s none s := by
  have hcheck := gives_check h kind
  rw [hnone] at hcheck
  exact hcheck.bind (gives_pure rfl s)

/-- Whether a token is stepped over depends on its kind. -/
theorem gives_accept_head {kind : TokenKind} (h : Before x (t :: input) s) (hkind : t.kind = kind) :
    Gives (accept? x.tokens kind) s (some t) s.next :=
  have haccept : Parser.accept? kind (t :: input) = some (.one t t) :=
    Parser.accept?_eq_some.2 ⟨rfl, hkind⟩
  (gives_accept_some h haccept).1

theorem gives_accept_other {kind : TokenKind} (h : Before x (t :: input) s)
    (hkind : t.kind ≠ kind) : Gives (accept? x.tokens kind) s none s :=
  gives_accept_none h (Parser.accept?_none_of_head rfl hkind)

theorem operator?_cons (mark : Mark) (op : Operator) (level : Level) (kind : TokenKind) :
    Level.operator? ((mark, op) :: level) kind =
      if kind = .mark mark then some op else Level.operator? level kind := by
  cases kind with
  | mark found =>
    rw [Level.operator?, List.lookup_cons]
    by_cases h : found = mark
    · subst h
      simp
    · rw [if_neg fun heq ↦ h (TokenKind.mark.inj heq), beq_eq_false_iff_ne.2 h]
      rfl
  | _ => rfl

/-- The operators of a level are tried one after the other. -/
theorem gives_operator (h : Before x (t :: input) s) : ∀ level : Level,
    Gives (operator? x.tokens level) s ((level.operator? t.kind).map fun op ↦ (op, t))
      (if (level.operator? t.kind).isSome then s.next else s)
  | [] => by
    have hnone : Level.operator? [] t.kind = none := by
      cases t.kind <;> rfl
    rw [hnone]
    exact gives_pure rfl s
  | (mark, op) :: level => by
    rw [operator?_cons]
    by_cases hkind : t.kind = .mark mark
    · rw [if_pos hkind]
      exact (gives_accept_head h hkind).bind (gives_pure rfl _)
    · rw [if_neg hkind]
      exact (gives_accept_other h hkind).bind (gives_operator h level)

theorem gives_operator_some {level : Level} {p : Parsed (Operator × Token) input}
    (h : Before x input s) (hp : level.accept? input = some p) :
    Gives (operator? x.tokens level) s (some p.value) s.next ∧ Before x p.rest s.next := by
  cases input with
  | nil => cases hp
  | cons t input =>
    have hgives := gives_operator h level
    obtain ⟨op, hop, rfl⟩ := Option.map_eq_some_iff.1 hp
    rw [hop] at hgives
    exact ⟨hgives, h.next⟩

theorem gives_operator_none {level : Level} (h : Before x input s)
    (hnone : level.accept? input = none) : Gives (operator? x.tokens level) s none s := by
  cases input with
  | nil =>
    induction level with
    | nil => exact gives_pure rfl s
    | cons entry level ih => exact (gives_accept_none h rfl).bind (ih rfl)
  | cons t input =>
    have hgives := gives_operator h level
    rw [Option.map_eq_none_iff.1 hnone] at hgives
    exact hgives

/-! ### Following a reader of lists -/

/-- A reader of the cursor makes of a state what a reader of lists makes of its input. After a value
the session stands in front of the tokens that are left, and what `left` says is so; a fault is
recorded as the only one, at the end of the file if it has no place. -/
inductive Follows (x : Ended) (left : α → State → Prop) (m : Reader α) (s : State)
    {input : List Token} : Result α input → Prop where
  | value {p : Parsed α input} {s' : State} : Gives m s p.value s' → Before x p.rest s' →
      left p.value s' → Follows x left m s (.ok p)
  | fault {refusal : Refusal} {s' : State} : GivesUp m s s' →
      s'.faults = [⟨refusal.span.getD x.last.span, refusal.fault⟩] →
      Follows x left m s (.error refusal)

/-- Nothing more is known of what a reader leaves. -/
def Anyhow (_ : α) (_ : State) : Prop := True

section

variable {m : Reader α} {k : α → Reader β} {left : α → State → Prop} {left' : β → State → Prop}
  {input' : List Token} {s' : State} {a : α}

/-- A step in front of a reading. -/
theorem Gives.follows {r : Result β input} (h : Gives m s a s')
    (hk : Follows x left' (k a) s' r) : Follows x left' (m >>= k) s r := by
  cases hk with
  | value hgives hbefore hleft => exact .value (h.bind hgives) hbefore hleft
  | fault hgives hfaults => exact .fault (h.bind_givesUp hgives) hfaults

/-- Readings one after the other. -/
theorem Follows.bind {r : Result α input} {next : Parsed α input → Result β input'}
    (h : Follows x left m s r)
    (hk : ∀ p s', Before x p.rest s' → left p.value s' → Follows x left' (k p.value) s' (next p)) :
    Follows x left' (m >>= k) s (r >>= next) := by
  cases h with
  | value hgives hbefore hleft => exact hgives.follows (hk _ _ hbefore hleft)
  | fault hgives hfaults => exact .fault (hgives.bind k) hfaults

/-- A reading that fails has nothing after it. -/
theorem Follows.bind_error {refusal : Refusal}
    (h : Follows x left m s (.error refusal : Result α input)) :
    Follows x left' (m >>= k) s (.error refusal : Result β input') := by
  cases h with
  | fault hgives hfaults => exact .fault (hgives.bind k) hfaults

theorem Follows.pure {p : Parsed α input} (ha : a = p.value) (hbefore : Before x p.rest s)
    (hleft : left p.value s) : Follows x left (pure a) s (.ok p) :=
  .value (gives_pure ha s) hbefore hleft

theorem Follows.anyhow {r : Result α input} (h : Follows x left m s r) :
    Follows x Anyhow m s r := by
  cases h with
  | value hgives hbefore _ => exact .value hgives hbefore trivial
  | fault hgives hfaults => exact .fault hgives hfaults

end

/-! ### Giving up -/

theorem givesUp_fail (h : s.faults = []) (span : Span) (fault : ParseFault) :
    GivesUp (fail span fault : Reader α) s { s with faults := [⟨span, fault⟩] } := by
  show some (Except.ok (none, if s.faults.isEmpty then _ else s)) = _
  rw [h]
  rfl

theorem follows_fail {left : α → State → Prop} (h : s.faults = []) (span : Span)
    (fault : ParseFault) :
    Follows x left (fail span fault) s (.error ⟨fault, some span⟩ : Result α input) :=
  .fault (givesUp_fail h span fault) rfl

/-- A token in place of another is refused. -/
theorem follows_unexpected {left : α → State → Prop} (h : Before x input s)
    (wanted : Expectation) :
    Follows x left (unexpected wanted (input.headD x.last)) s
      (Parser.refuse wanted input : Result α input) := by
  refine .fault (givesUp_fail h.faults _ _) ?_
  cases input with
  | nil => simp [x.kind_last]
  | cons t input => simp [h.kind_ne]

/-- What the reader of lists accepts meets the expectation of it. -/
theorem gives_expect {kind : TokenKind} {p : Parsed Token input} (h : Before x input s)
    (hp : Parser.accept? kind input = some p) (wanted : Expectation) :
    Gives (expect x.tokens kind wanted) s p.value s.next ∧ Stepped x p.value p.rest s.next := by
  have hcheck := gives_check h kind
  rw [hp] at hcheck
  rw [(Parser.accept?_eq_some.1 hp).1] at h
  exact ⟨hcheck.bind (gives_advance h), h.stepped⟩

theorem follows_expect (h : Before x input s) (kind : TokenKind) (wanted : Expectation) :
    Follows x (fun t s' ↦ Passed x.tokens s' t) (expect x.tokens kind wanted) s
      (Parser.expect kind wanted input) := by
  rw [Parser.expect]
  cases hp : Parser.accept? kind input with
  | some p =>
    obtain ⟨hgives, hstepped⟩ := gives_expect h hp wanted
    exact .value hgives hstepped.before hstepped.passed
  | none =>
    have hcheck := gives_check h kind
    rw [hp] at hcheck
    exact hcheck.follows ((gives_peek h).follows (follows_unexpected h wanted))

/-! ### Calls -/

/-- A call is made if it may be nested deeper than some number, and then calls that it makes may be
nested as deep as that. -/
theorem follows_perform {left : α → State → Prop} {c : Call α} {r : Result α input} {n depth : ℕ}
    (hdepth : n < depth)
    (h : ∀ d, n ≤ d → Follows x left (body x.tokens (perform x.tokens d) c) s r) :
    Follows x left (perform x.tokens depth c) s r := by
  obtain ⟨d, rfl⟩ := Nat.exists_eq_add_one_of_ne_zero (Nat.ne_zero_of_lt hdepth)
  exact h d (Nat.le_of_lt_succ hdepth)

/-- Calls about fewer tokens are nested less deep. -/
theorem measure_lt_of_shorter {input input' : List Token} {rank rank' d : ℕ}
    (h : input.length < input'.length) (hd : measure input' rank' ≤ d) (hrank : rank ≤ rank' + 15) :
    measure input rank < d :=
  (Parser.measure_lt_of_length h hrank).trans_le hd

/-! ### Expressions -/

/-- The readers of expressions do what those of lists do. The induction is along the recursion of
these. -/
theorem expr_follows : Parser.ExprReaders
    (fun levels input r ↦ ∀ depth s, measure input (levels.length + 2) < depth →
      Before x input s → Follows x Anyhow (perform x.tokens depth (.binary levels)) s r)
    (fun level tighter _ left r ↦ ∀ depth s, measure left.rest (tighter.length + 2) < depth →
      Before x left.rest s →
        Follows x Anyhow (perform x.tokens depth (.chain level tighter left.value)) s r)
    (fun input r ↦ ∀ depth s, measure input 1 < depth → Before x input s →
      Follows x Anyhow (perform x.tokens depth .unary) s r)
    (fun input r ↦ ∀ d s, measure input 1 ≤ d → Before x input s →
      Follows x Anyhow (primary x.tokens (perform x.tokens d)) s r)
    (fun input r ↦ ∀ d s, measure input 9 < d → Before x input s →
      Follows x Anyhow (arguments x.tokens (perform x.tokens d)) s r)
    (fun input r ↦ ∀ depth s, measure input 9 < depth → Before x input s →
      Follows x Anyhow (perform x.tokens depth .argumentsFrom) s r) := by
  apply Parser.ExprReaders.of_branches
  case operand =>
    intro input ih depth s hdepth h
    refine follows_perform hdepth fun d hd ↦ ?_
    rw [body, binary]
    exact ih d s ((Parser.measure_lt_of_rank (by decide)).trans_le hd) h
  case level =>
    intro level tighter input ihBinary ihChain depth s hdepth h
    refine follows_perform hdepth fun d hd ↦ ?_
    rw [body, binary]
    have htighter := (Parser.measure_lt_of_rank (Nat.lt_succ_self _)).trans_le hd
    have hrank : tighter.length + 2 ≤ (level :: tighter).length + 2 + 15 := by
      rw [List.length_cons]
      omega
    exact (ihBinary d s htighter h).bind fun left s' h' _ ↦
      ihChain left d s' (measure_lt_of_shorter left.shorter hd hrank) h'
  case stop =>
    intro level tighter input left hnone depth s hdepth h
    refine follows_perform hdepth fun d _ ↦ ?_
    rw [body, chain]
    exact (gives_operator_none h hnone).follows (.pure rfl h trivial)
  case operator =>
    intro level tighter input left op hop ihBinary ihChain depth s hdepth h
    obtain ⟨hgives, hafter⟩ := gives_operator_some h hop
    refine follows_perform hdepth fun d hd ↦ ?_
    rw [body, chain]
    have hrank : tighter.length + 2 ≤ tighter.length + 2 + 15 := Nat.le_add_right _ _
    have hright := measure_lt_of_shorter op.shorter hd hrank
    exact hgives.follows ((ihBinary d _ hright hafter).bind fun right s' h' _ ↦
      ihChain right d s' (measure_lt_of_shorter (right.shorter.trans op.shorter) hd hrank) h')
  case sign =>
    intro input op hop ih depth s hdepth h
    obtain ⟨hgives, hafter⟩ := gives_operator_some h hop
    refine follows_perform hdepth fun d hd ↦ ?_
    rw [body, unary]
    have hoperand := measure_lt_of_shorter op.shorter hd (Nat.le_add_right 1 15)
    exact hgives.follows ((ih d _ hoperand hafter).bind
      fun operand s' h' _ ↦ .pure rfl h' trivial)
  case unsigned =>
    intro input hnone ih depth s hdepth h
    refine follows_perform hdepth fun d hd ↦ ?_
    rw [body, unary]
    exact (gives_operator_none h hnone).follows (ih d s hd h)
  case nil =>
    intro d s _ h
    rw [primary]
    refine (gives_peek h).follows ?_
    simp only [List.headD_nil, x.kind_last]
    exact follows_unexpected h .expression
  case number =>
    intro token rest number hkind hnumber d s _ h
    rw [primary]
    refine (gives_peek h).follows ?_
    simp only [List.headD_cons, hkind, hnumber]
    exact (gives_advance h).follows (.pure rfl h.next trivial)
  case overflow =>
    intro token rest hkind hnumber d s _ h
    rw [primary]
    refine (gives_peek h).follows ?_
    simp only [List.headD_cons, hkind, hnumber]
    exact (gives_advance h).follows (follows_fail h.next.faults token.span .integerTooLarge)
  case truth | falsity =>
    intro token rest hkind d s _ h
    rw [primary]
    refine (gives_peek h).follows ?_
    simp only [List.headD_cons, hkind]
    exact (gives_advance h).follows (.pure rfl h.next trivial)
  case name =>
    intro token rest hkind hnone d s _ h
    have hcheck := gives_check h.next (.mark .leftParen)
    rw [hnone] at hcheck
    rw [primary]
    refine (gives_peek h).follows ?_
    simp only [List.headD_cons, hkind]
    exact (gives_advance h).follows (hcheck.follows (.pure rfl h.next trivial))
  case call =>
    intro token rest opening hkind hopening ih d s hd h
    have hcheck := gives_check h.next (.mark .leftParen)
    rw [hopening] at hcheck
    have hinput := h.next
    rw [(Parser.accept?_eq_some.1 hopening).1] at hinput
    rw [primary]
    refine (gives_peek h).follows ?_
    simp only [List.headD_cons, hkind]
    have hshorter : opening.rest.length < (token :: rest).length :=
      Nat.lt_succ_of_lt opening.shorter
    have hdepth := measure_lt_of_shorter hshorter hd (show 9 ≤ 1 + 15 by decide)
    exact (gives_advance h).follows (hcheck.follows ((gives_advance hinput).follows
      ((ih d _ hdepth hinput.next).bind fun arguments s' h' _ ↦ .pure rfl h' trivial)))
  case group =>
    intro token rest hkind ih d s hd h
    rw [primary]
    refine (gives_peek h).follows ?_
    simp only [List.headD_cons, hkind]
    have hdepth : measure rest (Level.all.length + 2) < d :=
      measure_lt_of_shorter (Nat.lt_succ_self _) hd (by decide)
    exact (gives_advance h).follows ((ih d _ hdepth h.next).bind fun inner s' h' _ ↦
      (follows_expect h' _ _).bind fun close s'' h'' _ ↦ .pure rfl h'' trivial)
  case other =>
    intro token rest hkind d s _ h
    rw [primary]
    refine (gives_peek h).follows ?_
    -- The token has none of the kinds that are treated on their own.
    simp only [Parser.operandKinds, List.mem_cons, List.not_mem_nil, or_false, not_or] at hkind
    obtain ⟨hnumber, htrue, hfalse, hname, hparen⟩ := hkind
    split <;> first | exact follows_unexpected h .expression | contradiction
  case noArguments =>
    intro input close hclose d s _ h
    have hcheck := gives_check h (.mark .rightParen)
    rw [hclose] at hcheck
    obtain ⟨hgives, hstepped⟩ := gives_expect h hclose .closeArguments
    rw [arguments]
    exact hcheck.follows (hgives.follows (.pure rfl hstepped.before trivial))
  case someArguments =>
    intro input hnone ih d s hd h
    have hcheck := gives_check h (.mark .rightParen)
    rw [hnone] at hcheck
    rw [arguments]
    exact hcheck.follows (ih d s hd h)
  case argument =>
    intro input ihBinary ihMore depth s hdepth h
    refine follows_perform hdepth fun d hd ↦ ?_
    rw [body, argumentsFrom]
    have hall := (Parser.measure_lt_of_rank (Nat.lt_succ_self 8)).trans_le hd
    refine (ihBinary d s hall h).bind fun argument s' h' _ ↦ ?_
    cases hcomma : Parser.accept? (.mark .comma) argument.rest with
    | some comma =>
      obtain ⟨hgives, hstepped⟩ := gives_accept_some h' hcomma
      have hmore := measure_lt_of_shorter (comma.shorter.trans argument.shorter) hd
        (Nat.le_add_right 9 15)
      exact hgives.follows ((ihMore argument comma d _ hmore hstepped.before).bind
        fun more s'' h'' _ ↦ .pure rfl h'' trivial)
    | none =>
      exact (gives_accept_none h' hcomma).follows ((follows_expect h' _ _).bind
        fun close s'' h'' _ ↦ .pure rfl h'' trivial)

end ScalarMips.Cursor
