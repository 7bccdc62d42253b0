import Mathlib
import ScalarMips.Proofs.Grammar

/-!
# Phrases

Which tokens each part of a tree stands for. A part is an expression, a statement, the header of a
function or a name that is declared or assigned (`Node`), and `Node.slots` lists what its phrase is
made of from left to right: single tokens of a certain form, and the phrases of its own parts.
Parentheses that do nothing but group belong to the phrase of the expression that they stand
directly around.

`Phrase` fills the slots, and says of the part and of everything in it that its span runs from the
first token of its phrase to the last. What the grammar derives is such a phrase
(`Expression.phrase`, `Statement.phrase`, `Declarations.fills`): spans are put together in several
ways along a derivation, and all of them come to the same.
-/

namespace ScalarMips

open Grammar

/-! ### The parts of a tree -/

/-- A part of a tree that has a span. -/
inductive Node where
  /-- An expression. -/
  | expr (e : Expr)
  /-- A statement. -/
  | stmt (s : Stmt)
  /-- The header of a function: its name and its parameters. -/
  | header (head : Declarator) (parameters : List Declarator)
  /-- A declared or assigned name. -/
  | name (span : Span) (name : String)

/-- Where a part stands. -/
def Node.span : Node → Span
  | expr e => e.span
  | stmt s => s.span
  | header head _ => head.span
  | name span _ => span

/-- A place in a phrase: a single token of some form, or the phrase of a part. -/
inductive Slot where
  /-- A punctuation mark. -/
  | mark (mark : Mark)
  /-- A keyword. -/
  | word (keyword : Keyword)
  /-- An identifier. -/
  | named (name : String)
  /-- The literal with a value. -/
  | literal (value : Literal)
  /-- The mark that is written like an operator. -/
  | operator (op : Operator)
  /-- The keyword that is written like a type. -/
  | type (type : ScalarType)
  /-- The keyword of a print statement. -/
  | printing (ending : PrintEnd)
  /-- The phrase of a part. -/
  | part (node : Node)

namespace Slot

/-- The part whose phrase stands at a place. -/
def part? : Slot → Option Node
  | part node => some node
  | _ => none

/-- Whether a token has the form that a place asks for. -/
def Accepts : Slot → Token → Prop
  | mark m, t => t.kind = .mark m
  | word k, t => t.kind = .keyword k
  | named name, t => t.kind = .identifier ∧ t.text = name
  | literal value, t => Expression .primary [t] (.literal t.span value)
  | operator op, t => ∃ m : Mark, t.kind = .mark m ∧ m.spelling = op.spelling
  | type ty, t => ∃ k : Keyword, t.kind = .keyword k ∧ k.spelling = ty.name
  | printing ending, t => ∃ k : Keyword, t.kind = .keyword k ∧ printEnd? k = some ending
  | part _, _ => False

/-- Expressions one after the other, each at a place of its own. -/
def exprs (es : List Expr) : List (List Slot) :=
  es.map fun e ↦ [part (.expr e)]

/-- Parameters one after the other, each a type and a name. -/
def parameters (ds : List Declarator) : List (List Slot) :=
  ds.map fun d ↦ [type d.type, part (.name d.span d.name)]

/-- Statements one after the other. -/
def stmts (ss : List Stmt) : List Slot :=
  ss.map fun s ↦ part (.stmt s)

/-- Groups of places with commas between them. -/
def separated (groups : List (List Slot)) : List Slot :=
  List.intercalate [mark .comma] groups

end Slot

open Slot in
/-- What the phrase of a part is made of, without parentheses around the whole of it. -/
def Node.slots : Node → List Slot
  | expr (.literal _ value) => [literal value]
  | expr (.var _ n) => [named n]
  | expr (.unary _ op e) => [operator op, part (.expr e)]
  | expr (.binary _ op left right) => [part (.expr left), operator op, part (.expr right)]
  | expr (.call _ n es) =>
    named n :: mark .leftParen :: (separated (exprs es) ++ [mark .rightParen])
  | stmt (.block _ body) => mark .leftBrace :: (stmts body ++ [mark .rightBrace])
  | stmt (.function _ head ds body) =>
    word .fun_ :: type head.type :: part (.header head ds) :: mark .leftBrace ::
      (stmts body ++ [mark .rightBrace])
  | stmt (.var _ head none) =>
    [type head.type, part (.name head.span head.name), mark .semicolon]
  | stmt (.var _ head (some e)) =>
    [type head.type, part (.name head.span head.name), mark .equals, part (.expr e),
      mark .semicolon]
  | stmt (.assign _ n target e) =>
    [part (.name target n), mark .equals, part (.expr e), mark .semicolon]
  | stmt (.conditional _ e s none) =>
    [word .if_, mark .leftParen, part (.expr e), mark .rightParen, part (.stmt s)]
  | stmt (.conditional _ e s (some s')) =>
    [word .if_, mark .leftParen, part (.expr e), mark .rightParen, part (.stmt s), word .else_,
      part (.stmt s')]
  | stmt (.loop _ e s) =>
    [word .while_, mark .leftParen, part (.expr e), mark .rightParen, part (.stmt s)]
  | stmt (.evaluate _ e) => [part (.expr e), mark .semicolon]
  | stmt (.return_ _ e) => [word .return_, part (.expr e), mark .semicolon]
  | stmt (.print _ ending none) => [printing ending, mark .semicolon]
  | stmt (.print _ ending (some e)) => [printing ending, part (.expr e), mark .semicolon]
  | header head ds =>
    named head.name :: mark .leftParen :: (separated (parameters ds) ++ [mark .rightParen])
  | name _ n => [named n]

/-- The parts that a part consists of, in the order of the text: operands, arguments, parameters,
statements of a body, a condition and its branches, headers and names. -/
def Node.children (n : Node) : List Node :=
  n.slots.filterMap Slot.part?

theorem Slot.separated_cons_cons (group group' : List Slot) (groups : List (List Slot)) :
    Slot.separated (group :: group' :: groups) =
      group ++ Slot.mark .comma :: Slot.separated (group' :: groups) := by
  simp [Slot.separated, List.intercalate]

theorem Slot.parts_exprs : ∀ es : List Expr,
    (Slot.separated (Slot.exprs es)).filterMap Slot.part? = es.map Node.expr
  | [] => rfl
  | [_] => rfl
  | e :: e' :: es => congrArg (Node.expr e :: ·) <| by
    rw [← Slot.parts_exprs (e' :: es)]
    rfl

theorem Slot.parts_stmts (ss : List Stmt) :
    (Slot.stmts ss).filterMap Slot.part? = ss.map Node.stmt := by
  rw [Slot.stmts, List.filterMap_map]
  exact congrFun List.filterMap_eq_map ss

namespace Node

theorem children_call (span : Span) (n : String) (es : List Expr) :
    (expr (.call span n es)).children = es.map expr := by
  rw [← Slot.parts_exprs es]
  exact List.filterMap_append.trans (List.append_nil _)

theorem children_block (span : Span) (body : List Stmt) :
    (stmt (.block span body)).children = body.map stmt := by
  rw [← Slot.parts_stmts body]
  exact List.filterMap_append.trans (List.append_nil _)

theorem children_function (span : Span) (head : Declarator) (ds : List Declarator)
    (body : List Stmt) :
    (stmt (.function span head ds body)).children = header head ds :: body.map stmt := by
  rw [← Slot.parts_stmts body]
  exact congrArg (header head ds :: ·) (List.filterMap_append.trans (List.append_nil _))

end Node

/-! ### Phrases -/

/-- A span runs from the first of some tokens to the last. -/
def Span.Covers (s : Span) (ts : List Token) : Prop :=
  ∃ first ∈ ts.head?, ∃ last ∈ ts.getLast?, s = first.span.to last.span

/-- Tokens with pairs of parentheses around them. -/
inductive Grouped (core : List Token) : List Token → Prop where
  /-- There are no parentheses. -/
  | bare : Grouped core core
  /-- There is one more pair. -/
  | group {opening closing : Token} {ts : List Token} : opening.kind = .mark .leftParen →
      Grouped core ts → closing.kind = .mark .rightParen →
      Grouped core (opening :: (ts ++ [closing]))

/-- What may stand around the tokens of a part in its phrase: parentheses around those of an
expression, nothing around others. -/
def Node.Around : Node → List Token → List Token → Prop
  | expr _, core, ts => Grouped core ts
  | _, core, ts => ts = core

mutual

/-- The tokens that a part stands for. The span of the part, and of everything in it, runs from the
first token of its phrase to the last. -/
inductive Phrase : List Token → Node → Prop where
  | mk {core ts : List Token} {n : Node} : Fills core n.slots → n.Around core ts →
      n.span.Covers ts → Phrase ts n

/-- Tokens that fill the places of a phrase from left to right. -/
inductive Fills : List Token → List Slot → Prop where
  | nil : Fills [] []
  | token {t : Token} {ts : List Token} {slot : Slot} {slots : List Slot} :
      slot.Accepts t → Fills ts slots → Fills (t :: ts) (slot :: slots)
  | part {first second : List Token} {n : Node} {slots : List Slot} :
      Phrase first n → Fills second slots → Fills (first ++ second) (.part n :: slots)

end

theorem Phrase.covers {ts : List Token} {n : Node} (h : Phrase ts n) : n.span.Covers ts := by
  cases h with
  | mk _ _ hcovers => exact hcovers

/-! ### Filling places -/

theorem Fills.append : ∀ {first second : List Token} {slots slots' : List Slot},
    Fills first slots → Fills second slots' → Fills (first ++ second) (slots ++ slots')
  | _, _, _, _, .nil, h => h
  | _, _, _, _, .token haccepts hrest, h => .token haccepts (hrest.append h)
  | _, _, _, _, .part hphrase hrest, h => by
    rw [List.append_assoc]
    exact .part hphrase (hrest.append h)

theorem Fills.single {t : Token} {slot : Slot} (h : slot.Accepts t) : Fills [t] [slot] :=
  .token h .nil

theorem Fills.phrase {ts : List Token} {n : Node} (h : Phrase ts n) : Fills ts [.part n] := by
  have hfills := Fills.part h .nil
  rwa [List.append_nil] at hfills

/-- A token behind other places. -/
theorem Fills.closed {t : Token} {ts : List Token} {slot : Slot} {slots : List Slot}
    (h : Fills ts slots) (ht : slot.Accepts t) : Fills (ts ++ [t]) (slots ++ [slot]) :=
  h.append (.single ht)

/-- One more group of places, with a comma before the others. -/
theorem Fills.separated {comma : Token} {first second : List Token} {slots : List Slot}
    {groups : List (List Slot)} (hne : groups ≠ []) (hfirst : Fills first slots)
    (hcomma : comma.kind = .mark .comma) (hsecond : Fills second (Slot.separated groups)) :
    Fills (first ++ comma :: second) (Slot.separated (slots :: groups)) := by
  obtain ⟨group, groups, rfl⟩ := List.exists_cons_of_ne_nil hne
  rw [Slot.separated_cons_cons]
  exact hfirst.append (.token hcomma hsecond)

/-! ### Covering spans -/

namespace Span

theorem covers_token (t : Token) : t.span.Covers [t] :=
  ⟨t, rfl, t, rfl, rfl⟩

/-- From the start of one phrase to the end of a later one. -/
theorem Covers.to {s s' : Span} {first second : List Token} (h : s.Covers first)
    (mid : List Token) (h' : s'.Covers second) : (s.to s').Covers (first ++ (mid ++ second)) := by
  obtain ⟨start, hstart, _, _, rfl⟩ := h
  obtain ⟨_, _, last, hlast, rfl⟩ := h'
  refine ⟨start, ?_, last, ?_, rfl⟩
  · rw [List.head?_append, Option.mem_def.1 hstart]
    rfl
  · rw [List.getLast?_append, List.getLast?_append, Option.mem_def.1 hlast]
    rfl

/-- From a first token to a last one. -/
theorem covers_tokens (first last : Token) (mid : List Token) :
    (first.span.to last.span).Covers (first :: (mid ++ [last])) :=
  (covers_token first).to mid (covers_token last)

end Span

/-- A part with nothing around its tokens. -/
theorem Phrase.of_fills {ts : List Token} {n : Node} (h : Fills ts n.slots)
    (hcovers : n.span.Covers ts) : Phrase ts n := by
  refine .mk h ?_ hcovers
  cases n with
  | expr => exact .bare
  | stmt => exact rfl
  | header => exact rfl
  | name => exact rfl

theorem Expr.slots_withSpan (e : Expr) (s : Span) :
    (Node.expr (e.withSpan s)).slots = (Node.expr e).slots := by
  cases e <;> rfl

/-- Parentheses around an expression belong to its phrase. -/
theorem Phrase.group {opening closing : Token} {ts : List Token} {e : Expr}
    (hopening : opening.kind = .mark .leftParen) (h : Phrase ts (.expr e))
    (hclosing : closing.kind = .mark .rightParen) :
    Phrase (opening :: (ts ++ [closing]))
      (.expr (e.withSpan (opening.span.to closing.span))) := by
  cases h with
  | @mk core _ _ hfills haround _ =>
    refine .mk ?_ (.group hopening haround hclosing) ?_
    · rw [Expr.slots_withSpan]
      exact hfills
    · show Span.Covers (Expr.span _) _
      rw [Expr.span_withSpan]
      exact Span.covers_tokens opening closing ts

theorem phrase_name {t : Token} (h : t.kind = .identifier) : Phrase [t] (.name t.span t.text) :=
  .of_fills (.single ⟨h, rfl⟩) (Span.covers_token t)

/-! ### What the grammar derives -/

namespace Grammar

theorem spelling_of_binary? {mark : Mark} {tier : Tier} {op : Operator}
    (h : binary? mark = some (tier, op)) : mark.spelling = op.spelling := by
  cases mark <;> cases h <;> rfl

theorem spelling_of_unary? {mark : Mark} {op : Operator} (h : unary? mark = some op) :
    mark.spelling = op.spelling := by
  cases mark <;> cases h <;> rfl

theorem spelling_of_type? {word : Keyword} {type : ScalarType} (h : type? word = some type) :
    word.spelling = type.name := by
  cases word <;> cases h <;> rfl

theorem Arguments.ne_nil {ts : List Token} {es : List Expr} (h : Arguments ts es) : es ≠ [] := by
  cases h <;> exact List.cons_ne_nil _ _

mutual

/-- The tokens of an expression are its phrase. -/
theorem Expression.phrase : ∀ {tier : Tier} {ts : List Token} {e : Expr}, Expression tier ts e →
    Phrase ts (.expr e)
  | _, _, _, .number hkind hnumeral =>
    .of_fills (.single (.number hkind hnumeral)) (Span.covers_token _)
  | _, _, _, .truth hkind => .of_fills (.single (.truth hkind)) (Span.covers_token _)
  | _, _, _, .falsity hkind => .of_fills (.single (.falsity hkind)) (Span.covers_token _)
  | _, _, _, .name hkind => .of_fills (.single ⟨hkind, rfl⟩) (Span.covers_token _)
  | _, _, _, @Expression.plainCall name opening closing hname hopening hclosing =>
    .of_fills (.token ⟨hname, rfl⟩ (.token hopening (.single hclosing)))
      (Span.covers_tokens name closing [opening])
  | _, _, _, @Expression.call name opening closing ts _ hname hopening hes hclosing =>
    .of_fills (.token ⟨hname, rfl⟩ (.token hopening (hes.fills.closed hclosing)))
      (Span.covers_tokens name closing (opening :: ts))
  | _, _, _, .group hopening h hclosing => h.phrase.group hopening hclosing
  | _, _, _, @Expression.unary _ _ token _ _ hkind hop h =>
    .of_fills (.token ⟨_, hkind, spelling_of_unary? hop⟩ (.phrase h.phrase))
      ((Span.covers_token token).to [] h.phrase.covers)
  | _, _, _, @Expression.binary _ _ _ _ _ _ token _ _ _ hleft hkind hop hright =>
    .of_fills (.part hleft.phrase
        (.token ⟨_, hkind, spelling_of_binary? hop⟩ (.phrase hright.phrase)))
      (hleft.phrase.covers.to [token] hright.phrase.covers)
  | _, _, _, .operand _ h => h.phrase

theorem Arguments.fills : ∀ {ts : List Token} {es : List Expr}, Arguments ts es →
    Fills ts (Slot.separated (Slot.exprs es))
  | _, _, .last h => .phrase h.phrase
  | _, _, .more h hcomma hes =>
    .separated (fun hnil ↦ hes.ne_nil (List.map_eq_nil_iff.1 hnil)) (.phrase h.phrase) hcomma
      hes.fills

end

/-- A type and a name in front of other places. -/
theorem Declares.fills {ts rest : List Token} {d : Declarator} {slots : List Slot}
    (h : Declares ts d) (hrest : Fills rest slots) :
    Fills (ts ++ rest) (.type d.type :: .part (.name d.span d.name) :: slots) := by
  cases h with
  | mk hkeyword htype hname =>
    exact .token ⟨_, hkeyword, spelling_of_type? htype⟩ (.part (phrase_name hname) hrest)

theorem Parameters.fills {ts : List Token} {ds : List Declarator} (h : Parameters ts ds) :
    Fills ts (Slot.separated (Slot.parameters ds)) := by
  induction h with
  | @last ts d h =>
    have hfills := h.fills .nil
    rwa [List.append_nil] at hfills
  | @more first second d ds comma h hcomma hrest ih =>
    have hne : Slot.parameters ds ≠ [] := by
      cases hrest <;> exact List.cons_ne_nil _ _
    have hfills := h.fills .nil
    rw [List.append_nil] at hfills
    exact .separated hne hfills hcomma ih

/-- A condition in front of other places. -/
theorem Condition.fills {ts rest : List Token} {e : Expr} {slots : List Slot}
    (h : Condition ts e) (hrest : Fills rest slots) :
    Fills (ts ++ rest) (.mark .leftParen :: .part (.expr e) :: .mark .rightParen :: slots) := by
  cases h with
  | mk hopening he hclosing =>
    rw [List.cons_append, List.append_assoc]
    exact .token hopening (.part he.phrase (.token hclosing hrest))

/-- The header of a function runs from its name to the parenthesis that closes its parameters. -/
theorem phrase_header {name opening closing : Token} {type : ScalarType} {ts : List Token}
    {ds : List Declarator} (hname : name.kind = .identifier)
    (hopening : opening.kind = .mark .leftParen) (hds : Optional Parameters ts ds)
    (hclosing : closing.kind = .mark .rightParen) :
    Phrase (name :: opening :: (ts ++ [closing]))
      (.header ⟨name.text, type, name.span.to closing.span⟩ ds) := by
  have hfills : Fills ts (Slot.separated (Slot.parameters ds)) := by
    rcases hds with ⟨rfl, rfl⟩ | h
    · exact .nil
    · exact h.fills
  exact .of_fills (.token ⟨hname, rfl⟩ (.token hopening (hfills.closed hclosing)))
    (Span.covers_tokens name closing (opening :: ts))

variable {before : Stmt → Prop}

mutual

/-- The tokens of a statement are its phrase. -/
theorem Statement.phrase : ∀ {ts : List Token} {s : Stmt}, Statement before ts s →
    Phrase ts (.stmt s)
  | _, _, @Statement.var _ first closing ts _ hhead hclosing =>
    .of_fills (hhead.fills (.single hclosing)) (Span.covers_tokens first closing ts)
  | _, _, @Statement.initialized _ first equals closing ts value _ _ hhead hequals he
      hclosing => by
    have hcovers := Span.covers_tokens first closing (ts ++ equals :: value)
    rw [List.append_assoc] at hcovers
    exact .of_fills (hhead.fills (.token hequals (.part he.phrase (.single hclosing)))) hcovers
  | _, _, .block hopening hbody hclosing =>
    .of_fills (.token hopening (hbody.fills.closed hclosing)) (Span.covers_tokens _ _ _)
  | _, _, @Statement.ifThen _ keyword test _ _ _ hkeyword htest hs =>
    .of_fills (.token hkeyword (htest.fills (.phrase hs.phrase)))
      ((Span.covers_token keyword).to test hs.phrase.covers)
  | _, _, @Statement.ifElse _ keyword otherwise test first _ _ _ _ hkeyword htest hs _ helse
      hs' => by
    have hcovers := (Span.covers_token keyword).to (test ++ (first ++ [otherwise]))
      hs'.phrase.covers
    simp only [List.append_assoc, List.singleton_append] at hcovers
    exact .of_fills (.token hkeyword
      (htest.fills (.part hs.phrase (.token helse (.phrase hs'.phrase))))) hcovers
  | _, _, @Statement.loop _ keyword test _ _ _ hkeyword htest hs =>
    .of_fills (.token hkeyword (htest.fills (.phrase hs.phrase)))
      ((Span.covers_token keyword).to test hs.phrase.covers)
  | _, _, .return_ hkeyword he hclosing =>
    .of_fills (.token hkeyword (.part he.phrase (.single hclosing))) (Span.covers_tokens _ _ _)
  | _, _, .print hkeyword hword he hclosing =>
    .of_fills (.token ⟨_, hkeyword, hword⟩ (.part he.phrase (.single hclosing)))
      (Span.covers_tokens _ _ _)
  | _, _, @Statement.separator _ keyword closing _ _ hkeyword hword _ hclosing =>
    .of_fills (.token ⟨_, hkeyword, hword⟩ (.single hclosing))
      (Span.covers_tokens keyword closing [])
  | _, _, @Statement.assign _ name equals closing ts _ hname hequals he hclosing =>
    .of_fills (.part (phrase_name hname) (.token hequals (.part he.phrase (.single hclosing))))
      (Span.covers_tokens name closing (equals :: ts))
  | _, _, .evaluate he hclosing =>
    .of_fills (.part he.phrase (.single hclosing)) (he.phrase.covers.to [] (Span.covers_token _))

theorem Statements.fills : ∀ {ts : List Token} {ss : List Stmt}, Statements before ts ss →
    Fills ts (Slot.stmts ss)
  | _, _, .nil => .nil
  | _, _, .cons hs hss => .part hs.phrase hss.fills

end

/-- What stands at the top level is a statement with its phrase. -/
theorem Declaration.phrase {ts : List Token} {s : Stmt} (h : Declaration before ts s) :
    Phrase ts (.stmt s) := by
  cases h with
  | @function keyword first name opening closing brace last word type ts body ds ss hkeyword hfirst
      htype hname hopening hds hclosing hbrace hbody hlast =>
    have hheader : Phrase _ (.header ⟨name.text, type, name.span.to closing.span⟩ ds) :=
      phrase_header hname hopening hds hclosing
    have hbraces : Fills (brace :: (body ++ [last]))
        (.mark .leftBrace :: (Slot.stmts ss ++ [.mark .rightBrace])) :=
      .token hbrace (hbody.fills.closed hlast)
    have hfills := Fills.part hheader hbraces
    have hcovers := Span.covers_tokens keyword last
      (first :: name :: opening :: (ts ++ closing :: brace :: body))
    simp only [List.cons_append, List.append_assoc, List.nil_append] at hfills hcovers
    exact .of_fills (.token hkeyword (.token ⟨_, hfirst, spelling_of_type? htype⟩ hfills)) hcovers
  | statement h => exact h.phrase

theorem Declarations.fills {ts : List Token} {ss : List Stmt} (h : Declarations before ts ss) :
    Fills ts (Slot.stmts ss) := by
  induction h with
  | nil => exact .nil
  | cons h _ ih => exact .part h.phrase ih

end Grammar

end ScalarMips
