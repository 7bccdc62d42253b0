import ScalarMips.Proofs.NameRules

/-!
# Stretches of a program

The rules for names are about a whole program, and the check of names decides them piece by piece.
An *outline* is all that the rules look at in a stretch of text: the names that it declares in the
scope it stands in, the scopes inside, all its variables and its events. Whether a stretch keeps to
the rules (`Orderly`) depends on what stands before it only through a few things: the names that its
scope has already, which variables have been given a value, and which functions have been reached.
Two stretches one after the other keep to the rules if the first one does and the second one does
after it (`orderly_append`); a stretch in a scope of its own does if it does on its own
(`orderly_enclose`).
-/

namespace ScalarMips

/-! ### Values given by events -/

/-- Which variables have been given a value, and which functions have been reached. -/
abbrev Given : Type := Site → Bool

/-- What has been given a value after some events. -/
def Given.after (given : Given) (events : List Event) : Given :=
  fun site ↦ given site || events.any fun event ↦ event.given? = some site

namespace Given

variable {given : Given}

theorem after_nil (given : Given) : given.after [] = given := by
  funext site
  exact Bool.or_false _

theorem after_append (first second : List Event) :
    given.after (first ++ second) = (given.after first).after second := by
  funext site
  rw [after, after, after, List.any_append, Bool.or_assoc]

theorem after_eq_self {events : List Event} (h : ∀ event ∈ events, event.given? = none) :
    given.after events = given := by
  funext site
  have hnone : (events.any fun event ↦ event.given? = some site) = false := by
    refine List.any_eq_false.2 fun event hevent ↦ ?_
    rw [h event hevent]
    simp
  rw [after, hnone, Bool.or_false]

theorem after_assign_of_ne {site site' : Site} (h : site ≠ site') :
    given.after [.assign (some site)] site' = given site' := by
  simp [after, Event.given?, h]

theorem after_eq_true {events : List Event} {site : Site} :
    given.after events site = true ↔
      given site = true ∨ ∃ event ∈ events, event.given? = some site := by
  simp [after]

end Given

mutual

theorem Expr.given?_events {β : Bindings} : ∀ e : Expr, ∀ event ∈ e.events β, event.given? = none
  | .literal .. => fun _ h ↦ nomatch h
  | .var .. => List.forall_mem_singleton.2 rfl
  | .unary _ _ operand => Expr.given?_events operand
  | .binary _ _ left right =>
    List.forall_mem_append.2 ⟨Expr.given?_events left, Expr.given?_events right⟩
  | .call _ _ arguments => List.forall_mem_cons.2 ⟨rfl, Expr.given?_eventsAll arguments⟩

theorem Expr.given?_eventsAll {β : Bindings} :
    ∀ es : List Expr, ∀ event ∈ Expr.eventsAll β es, event.given? = none
  | [] => fun _ h ↦ nomatch h
  | e :: es => List.forall_mem_append.2 ⟨Expr.given?_events e, Expr.given?_eventsAll es⟩

end

theorem Expr.given?_optionEvents {β : Bindings} (value : Option Expr) :
    ∀ event ∈ Expr.optionEvents β value, event.given? = none := by
  cases value with
  | none => exact fun _ h ↦ nomatch h
  | some e => exact Expr.given?_events e

/-! ### Allowed events -/

/-- Events that can happen one after the other, after some values have been given. -/
structure Allowed (given : Given) (events : List Event) : Prop where
  /-- Variables are read and assigned to, and functions are called. -/
  resolved : ∀ event ∈ events, event.Resolved
  /-- A variable that is read has been given a value before. -/
  valued : ∀ before k after, events = before ++ .read (some (.var k)) :: after →
    given.after before (.var k) = true

section Allowed

variable {given given' : Given} {first second : List Event}

theorem allowed_nil : Allowed given [] := by
  refine ⟨nofun, fun before k after h ↦ ?_⟩
  cases before <;> cases h

theorem allowed_append :
    Allowed given (first ++ second) ↔ Allowed given first ∧ Allowed (given.after first) second := by
  constructor
  · intro h
    refine ⟨⟨fun event hevent ↦ h.resolved event (List.mem_append_left _ hevent), ?_⟩,
      fun event hevent ↦ h.resolved event (List.mem_append_right _ hevent), ?_⟩
    · rintro before k after rfl
      exact h.valued before k (after ++ second) (List.append_assoc ..)
    · rintro before k after rfl
      rw [← Given.after_append]
      exact h.valued (first ++ before) k after (List.append_assoc ..).symm
  · rintro ⟨hfirst, hsecond⟩
    refine ⟨fun event hevent ↦
      (List.mem_append.1 hevent).elim (hfirst.resolved event) (hsecond.resolved event), ?_⟩
    intro before k after heq
    rcases List.append_eq_append_iff.1 heq with ⟨more, rfl, hmore⟩ | ⟨more, hmore, hafter⟩
    · rw [Given.after_append]
      exact hsecond.valued more k after hmore
    · cases more with
      | nil =>
        rw [List.append_nil] at hmore
        rw [← hmore, ← Given.after_nil (given.after first)]
        exact hsecond.valued [] k after hafter.symm
      | cons event more =>
        obtain ⟨rfl, -⟩ := List.cons.inj hafter
        exact hfirst.valued before k more hmore

theorem allowed_singleton {event : Event} :
    Allowed given [event] ↔
      event.Resolved ∧ ∀ k, event = .read (some (.var k)) → given (.var k) = true := by
  constructor
  · intro h
    refine ⟨h.resolved event List.mem_cons_self, ?_⟩
    rintro k rfl
    rw [← Given.after_nil given]
    exact h.valued [] k [] rfl
  · rintro ⟨hresolved, hvalued⟩
    refine ⟨List.forall_mem_singleton.2 hresolved, fun before k after heq ↦ ?_⟩
    cases before with
    | nil =>
      obtain ⟨rfl, -⟩ := List.cons.inj heq
      rw [Given.after_nil]
      exact hvalued k rfl
    | cons event' before => cases before <;> cases (List.cons.inj heq).2

theorem allowed_cons {event : Event} {events : List Event} :
    Allowed given (event :: events) ↔
      Allowed given [event] ∧ Allowed (given.after [event]) events :=
  @allowed_append given [event] events

theorem allowed_parameterEvents (given : Given) (k : Nat) (parameters : List Declarator) :
    Allowed given (parameterEvents k parameters) := by
  induction parameters generalizing given k with
  | nil => exact allowed_nil
  | cons x parameters ih =>
    exact allowed_cons.2 ⟨allowed_singleton.2 ⟨trivial, nofun⟩, ih _ _⟩

/-- Only what is known of variables matters. -/
theorem Allowed.congr {events : List Event} (h : Allowed given events)
    (heq : ∀ k, given (.var k) = given' (.var k)) : Allowed given' events := by
  refine ⟨h.resolved, fun before k after hsplit ↦ ?_⟩
  have hvalued := h.valued before k after hsplit
  rwa [Given.after, heq] at hvalued

/-- Allowed events change nothing that is known of functions. -/
theorem Allowed.after_fn {events : List Event} (h : ∀ event ∈ events, event.Resolved) (i : Nat) :
    given.after events (.fn i) = given (.fn i) := by
  have hnone : (events.any fun event ↦ event.given? = some (.fn i)) = false := by
    refine List.any_eq_false.2 fun event hevent ↦ ?_
    have hresolved := h event hevent
    cases event with
    | read | call => simp [Event.given?]
    | assign meaning =>
      obtain ⟨k, rfl⟩ := hresolved
      simp [Event.given?]
    | declare k valued => cases valued <;> simp [Event.given?]
  rw [Given.after, hnone, Bool.or_false]

end Allowed

/-! ### Outlines -/

/-- What the rules look at in a stretch of text. -/
structure Outline where
  /-- The names declared in the scope in which the stretch stands. -/
  own : List String
  /-- The scopes inside, each with its names. -/
  inner : List (List String)
  /-- All variables. -/
  declared : List String
  /-- What happens to names. -/
  events : List Event

namespace Outline

/-- The outline of expressions. -/
def ofEvents (events : List Event) : Outline :=
  ⟨[], [], [], events⟩

/-- One stretch after another. -/
def append (first second : Outline) : Outline :=
  ⟨first.own ++ second.own, first.inner ++ second.inner, first.declared ++ second.declared,
    first.events ++ second.events⟩

/-- A stretch in a scope of its own. -/
def enclose (o : Outline) : Outline :=
  ⟨[], o.own :: o.inner, o.declared, o.events⟩

end Outline

/-- The outline of a statement. -/
def Stmt.outline (stmt : Stmt) (β : Bindings) (k : Nat) : Outline :=
  ⟨stmt.ownNames, stmt.scopes, stmt.variables, stmt.events β k⟩

/-- The outline of statements. -/
def Stmt.outlineAll (stmts : List Stmt) (β : Bindings) (k : Nat) : Outline :=
  ⟨stmts.flatMap Stmt.ownNames, Stmt.scopesAll stmts, Stmt.variablesAll stmts,
    Stmt.eventsAll stmts β k⟩

/-- A stretch of text keeps to the rules, if `names` are those of its scope so far and `reached` are
the functions that it must not hide. -/
structure Orderly (reached names : List String) (given : Given) (o : Outline) : Prop where
  /-- The events can happen. -/
  allowed : Allowed given o.events
  /-- The scope around declares no name twice. -/
  distinct : (names ++ o.own).Nodup
  /-- No scope inside declares a name twice. -/
  inner : ∀ scope ∈ o.inner, scope.Nodup
  /-- No variable has the name of a function that has been reached. -/
  apart : ∀ name ∈ o.declared, name ∉ reached

section Orderly

variable {reached names : List String} {given given' : Given}

theorem orderly_append {first second : Outline} :
    Orderly reached names given (first.append second) ↔ Orderly reached names given first ∧
      Orderly reached (names ++ first.own) (given.after first.events) second := by
  constructor
  · rintro ⟨hallowed, hdistinct, hinner, hapart⟩
    obtain ⟨hfirst, hsecond⟩ := allowed_append.1 hallowed
    obtain ⟨hinnerFirst, hinnerSecond⟩ := List.forall_mem_append.1 hinner
    obtain ⟨hapartFirst, hapartSecond⟩ := List.forall_mem_append.1 hapart
    have hdistinct : (names ++ first.own ++ second.own).Nodup :=
      (List.append_assoc ..).symm ▸ hdistinct
    exact ⟨⟨hfirst, hdistinct.of_append_left, hinnerFirst, hapartFirst⟩,
      ⟨hsecond, hdistinct, hinnerSecond, hapartSecond⟩⟩
  · rintro ⟨hfirst, hsecond⟩
    exact ⟨allowed_append.2 ⟨hfirst.allowed, hsecond.allowed⟩,
      (List.append_assoc ..) ▸ hsecond.distinct,
      List.forall_mem_append.2 ⟨hfirst.inner, hsecond.inner⟩,
      List.forall_mem_append.2 ⟨hfirst.apart, hsecond.apart⟩⟩

theorem orderly_enclose {o : Outline} :
    Orderly reached names given o.enclose ↔ names.Nodup ∧ Orderly reached [] given o := by
  constructor
  · rintro ⟨hallowed, hdistinct, hinner, hapart⟩
    obtain ⟨hown, hinner⟩ := List.forall_mem_cons.1 hinner
    exact ⟨(List.append_nil names) ▸ hdistinct, hallowed, hown, hinner, hapart⟩
  · rintro ⟨hnames, hallowed, hown, hinner, hapart⟩
    exact ⟨hallowed, (List.append_nil names).symm ▸ hnames, List.forall_mem_cons.2 ⟨hown, hinner⟩,
      hapart⟩

theorem orderly_ofEvents {events : List Event} :
    Orderly reached names given (.ofEvents events) ↔ names.Nodup ∧ Allowed given events := by
  constructor
  · rintro ⟨hallowed, hdistinct, -, -⟩
    exact ⟨(List.append_nil names) ▸ hdistinct, hallowed⟩
  · rintro ⟨hnames, hallowed⟩
    exact ⟨hallowed, (List.append_nil names).symm ▸ hnames, nofun, nofun⟩

theorem Orderly.congr {o : Outline} (h : Orderly reached names given o)
    (heq : ∀ k, given (.var k) = given' (.var k)) : Orderly reached names given' o :=
  ⟨h.allowed.congr heq, h.distinct, h.inner, h.apart⟩

end Orderly

end ScalarMips
