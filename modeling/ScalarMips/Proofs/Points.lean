import ScalarMips.Proofs.Outlines
import ScalarMips.Proofs.ScopeLaws

/-!
# Points of a program

What the text up to a point tells of the visible names: the scopes around it with the sites that are
declared in them, and which of the sites have been given a value. This is what the rules for names
need to know to go on (`Point.after`), kept in the shape in which the check of names keeps it.

At every point that is reached within the rules the sites are all different and their numbers have
all been used up (`Point.WellFormed`). So giving a value to a site is giving a value to one name in
one scope, and a variable declared next is a new one.
-/

namespace ScalarMips

/-- Whether a site is a variable or a function. -/
def Site.kind : Site → IdentifierKind
  | fn _ => .fn
  | var _ => .var

/-- A scope after a statement in it, whose declarations are numbered from `k`. -/
def Stmt.extend (scope : List (String × Site)) (k : Nat) : Stmt → List (String × Site)
  | .var _ head _ => scope ++ [(head.name, .var k)]
  | _ => scope

/-- A scope after statements in it. -/
def Stmt.extendAll (scope : List (String × Site)) (k : Nat) : List Stmt → List (String × Site)
  | [] => scope
  | stmt :: stmts => Stmt.extendAll (stmt.extend scope k) (k + stmt.variables.length) stmts

/-- What is known of names at a point. -/
structure Point where
  /-- The sites declared so far in the scope of the point. -/
  scope : List (String × Site)
  /-- The scopes around it, from the inside to the outside. -/
  outer : List (List (String × Site))
  /-- The number of the next variable. -/
  next : Nat
  /-- What has been given a value or been reached. -/
  given : Given

namespace Point

/-- All scopes, the innermost first. -/
def stack (p : Point) : List (List (String × Site)) :=
  p.scope :: p.outer

/-- The names declared so far in the scope of the point. -/
def names (p : Point) : List String :=
  p.scope.map Prod.fst

/-- What the visible names mean. -/
def bindings (p : Point) : Bindings :=
  fun name ↦ p.stack.findSome? fun scope ↦ scope.lookup name

/-- The beginning of a scope. -/
def enter (p : Point) : Point :=
  { p with scope := [], outer := p.stack }

/-- After the declaration of a variable. -/
def declare (p : Point) (name : String) (valued : Bool) : Point :=
  { p with
    scope := p.scope ++ [(name, .var p.next)]
    next := p.next + 1
    given := p.given.after [.declare p.next valued] }

/-- After a site has been given a value or been reached. -/
def give (p : Point) (site : Site) : Point :=
  { p with given := p.given.after [.assign (some site)] }

/-- After the declaration of parameters. -/
def declareAll (p : Point) (parameters : List Declarator) : Point :=
  parameters.foldl (fun p parameter ↦ p.declare parameter.name true) p

/-- After a statement. -/
def after (p : Point) (stmt : Stmt) : Point where
  scope := stmt.extend p.scope p.next
  outer := p.outer
  next := p.next + stmt.variables.length
  given := p.given.after (stmt.events p.bindings p.next)

/-- After statements. -/
def afterAll (p : Point) (stmts : List Stmt) : Point where
  scope := Stmt.extendAll p.scope p.next stmts
  outer := p.outer
  next := p.next + (Stmt.variablesAll stmts).length
  given := p.given.after (Stmt.eventsAll stmts p.bindings p.next)

variable {p : Point} {name : String} {reached functions : List String}

/-! ### Visible names -/

theorem lookup_eq_none_iff {scope : List (String × Site)} :
    scope.lookup name = none ↔ name ∉ scope.map Prod.fst := by
  rw [List.lookup_eq_none_iff]
  constructor
  · intro h hmem
    obtain ⟨b, hb, rfl⟩ := List.mem_map.1 hmem
    exact absurd (h b hb) (by simp)
  · intro h b hb
    exact bne_iff_ne.2 fun heq ↦ h (heq ▸ List.mem_map_of_mem hb)

theorem mem_of_lookup {scope : List (String × Site)} {site : Site}
    (h : scope.lookup name = some site) : (name, site) ∈ scope := by
  obtain ⟨before, after, rfl, -⟩ := List.lookup_eq_some_iff.1 h
  exact List.mem_append_right _ List.mem_cons_self

theorem mem_of_findSome? {scopes : List (List (String × Site))} {site : Site}
    (h : scopes.findSome? (·.lookup name) = some site) : (name, site) ∈ scopes.flatten := by
  obtain ⟨scope, hscope, hlookup⟩ := List.exists_of_findSome?_eq_some h
  exact List.mem_flatten.2 ⟨scope, hscope, mem_of_lookup hlookup⟩

theorem mem_of_bindings {site : Site} (h : p.bindings name = some site) :
    (name, site) ∈ p.stack.flatten :=
  mem_of_findSome? h

theorem bindings_eq_lookup (h : p.outer = []) (name : String) :
    p.bindings name = p.scope.lookup name := by
  rw [bindings, stack, h, List.findSome?_cons]
  cases p.scope.lookup name <;> rfl

theorem bindings_declare (h : name ∉ p.names) (valued : Bool) :
    (p.declare name valued).bindings = p.bindings.bind name (.var p.next) := by
  funext m
  show List.findSome? _ ((p.scope ++ [(name, Site.var p.next)]) :: p.outer) = if _ then _ else _
  rw [List.findSome?_cons, lookup_append_of_none (lookup_eq_none_iff.2 h)]
  by_cases hm : m = name
  · rw [if_pos hm, if_pos hm]
  · rw [if_neg hm, if_neg hm]
    rfl

theorem names_declare (p : Point) (name : String) (valued : Bool) :
    (p.declare name valued).names = p.names ++ [name] :=
  List.map_append

theorem flatten_declare (p : Point) (name : String) (valued : Bool) :
    (p.declare name valued).stack.flatten.Perm ((name, .var p.next) :: p.stack.flatten) := by
  show ((p.scope ++ [(name, Site.var p.next)]) ++ p.outer.flatten).Perm
    ((name, Site.var p.next) :: (p.scope ++ p.outer.flatten))
  rw [List.append_assoc]
  exact List.perm_middle

theorem notMem_names {own : List String} (h : (p.names ++ own).Nodup) (hname : name ∈ own) :
    name ∉ p.names :=
  fun hmem ↦ List.disjoint_of_nodup_append h hmem hname

theorem bindings_after {stmt : Stmt} (h : (p.names ++ stmt.ownNames).Nodup) :
    (p.after stmt).bindings = p.bindings.after p.next stmt := by
  cases stmt with
  | var span head initial => exact bindings_declare (notMem_names h List.mem_cons_self) false
  | _ => rfl

theorem after_var (p : Point) (span : Span) (head : Declarator) (initial : Option Expr) :
    p.after (.var span head initial) = p.declare head.name initial.isSome := by
  have hgiven : p.given.after (Expr.optionEvents p.bindings initial ++
      [.declare p.next initial.isSome]) = p.given.after [.declare p.next initial.isSome] := by
    rw [Given.after_append, Given.after_eq_self (Expr.given?_optionEvents initial)]
  rw [after, Stmt.events, hgiven]
  rfl

theorem after_assign {site : Site} (h : p.bindings name = some site) (span target : Span)
    (value : Expr) : p.after (.assign span name target value) = p.give site := by
  have hgiven : p.given.after (value.events p.bindings ++ [.assign (p.bindings name)]) =
      p.given.after [.assign (some site)] := by
    rw [Given.after_append, Given.after_eq_self (Expr.given?_events value), h]
  rw [after, Stmt.events, hgiven]
  rfl

theorem afterAll_cons {stmt : Stmt} (h : (p.names ++ stmt.ownNames).Nodup) (stmts : List Stmt) :
    p.afterAll (stmt :: stmts) = (p.after stmt).afterAll stmts := by
  rw [afterAll, afterAll, bindings_after h]
  simp only [after, Stmt.extendAll, Stmt.variablesAll, Stmt.eventsAll, List.length_append,
    Given.after_append, Nat.add_assoc]

/-! ### Well-formed points -/

/-- What holds at every point that is reached within the rules, if `reached` are the functions up to
there. -/
structure WellFormed (reached : List String) (p : Point) : Prop where
  /-- No scope has a name twice. -/
  names_nodup : ∀ scope ∈ p.stack, (scope.map Prod.fst).Nodup
  /-- No site is declared twice. -/
  sites_nodup : (p.stack.flatten.map Prod.snd).Nodup
  /-- The numbers of the declared variables are used up. -/
  used : ∀ b ∈ p.stack.flatten, ∀ j, b.2 = .var j → j < p.next
  /-- No variable has a value before it is declared. -/
  unvalued : ∀ j, p.next ≤ j → p.given (.var j) = false
  /-- The functions that have been reached are visible, and they are known to have been. -/
  reached_iff : ∀ name, name ∈ reached ↔
    ∃ i, p.bindings name = some (.fn i) ∧ p.given (.fn i) = true

namespace WellFormed

theorem nodup_names (h : p.WellFormed reached) : p.names.Nodup :=
  h.names_nodup p.scope List.mem_cons_self

theorem var_lt (h : p.WellFormed reached) {j : Nat} (hname : p.bindings name = some (.var j)) :
    j < p.next :=
  h.used _ (mem_of_bindings hname) j rfl

/-- A site has one name only. -/
theorem name_eq (h : p.WellFormed reached) {m : String} {site : Site}
    (hname : p.bindings name = some site) (hm : p.bindings m = some site) : m = name :=
  congrArg Prod.fst
    (List.inj_on_of_nodup_map h.sites_nodup (mem_of_bindings hm) (mem_of_bindings hname) rfl)

theorem enter (h : p.WellFormed reached) : p.enter.WellFormed reached where
  names_nodup := List.forall_mem_cons.2 ⟨List.nodup_nil, h.names_nodup⟩
  sites_nodup := h.sites_nodup
  used := h.used
  unvalued := h.unvalued
  reached_iff := h.reached_iff

/-- A point stays well-formed if more numbers are used up and more variables have a value. -/
theorem move (h : p.WellFormed reached) {n : Nat} {given : Given} (hnext : p.next ≤ n)
    (hunvalued : ∀ j, n ≤ j → given (.var j) = false)
    (hfn : ∀ i, given (.fn i) = p.given (.fn i)) :
    WellFormed reached { p with next := n, given := given } where
  names_nodup := h.names_nodup
  sites_nodup := h.sites_nodup
  used b hb j hj := Nat.lt_of_lt_of_le (h.used b hb j hj) hnext
  unvalued := hunvalued
  reached_iff m := by
    rw [h.reached_iff m]
    simp only [hfn]
    rfl

theorem declare (h : p.WellFormed reached) (hname : name ∉ p.names) (hreached : name ∉ reached)
    (valued : Bool) : (p.declare name valued).WellFormed reached where
  names_nodup := by
    obtain ⟨hscope, houter⟩ := List.forall_mem_cons.1 h.names_nodup
    refine List.forall_mem_cons.2 ⟨?_, houter⟩
    show (p.declare name valued).names.Nodup
    rw [names_declare]
    exact (List.perm_append_singleton _ _).nodup_iff.2 (List.nodup_cons.2 ⟨hname, hscope⟩)
  sites_nodup := by
    refine ((flatten_declare p name valued).map Prod.snd).nodup_iff.2
      (List.nodup_cons.2 ⟨fun hmem ↦ ?_, h.sites_nodup⟩)
    obtain ⟨b, hb, hsite⟩ := List.mem_map.1 hmem
    exact Nat.lt_irrefl _ (h.used b hb p.next hsite)
  used b hb j hj := by
    rcases List.mem_cons.1 ((flatten_declare p name valued).mem_iff.1 hb) with rfl | hb
    · cases hj
      exact Nat.lt_succ_self _
    · exact Nat.lt_succ_of_lt (h.used b hb j hj)
  unvalued j hj := by
    have hj : p.next < j := hj
    have hnew : (Event.declare p.next valued).given? ≠ some (.var j) := by
      intro heq
      cases valued <;> cases heq
      exact Nat.lt_irrefl _ hj
    show (p.given.after [.declare p.next valued]) (.var j) = false
    simp [Given.after, h.unvalued j (Nat.le_of_lt hj), hnew]
  reached_iff m := by
    have hgiven : ∀ i, (p.declare name valued).given (.fn i) = p.given (.fn i) :=
      Allowed.after_fn (List.forall_mem_singleton.2 trivial)
    simp only [bindings_declare hname, hgiven, Bindings.bind]
    by_cases hm : m = name
    · subst hm
      simp only [if_pos]
      refine iff_of_false hreached ?_
      rintro ⟨i, ⟨⟩, -⟩
    · simp only [if_neg hm]
      exact h.reached_iff m

/-- A function is reached. -/
theorem give_fn (h : p.WellFormed reached) {i : Nat} (hname : p.bindings name = some (.fn i)) :
    (p.give (.fn i)).WellFormed (name :: reached) where
  names_nodup := h.names_nodup
  sites_nodup := h.sites_nodup
  used := h.used
  unvalued j hj := by
    show p.given.after [.assign (some (.fn i))] (.var j) = false
    simp [Given.after, Event.given?, h.unvalued j hj]
  reached_iff m := by
    have hgiven : ∀ j, (p.give (.fn i)).given (.fn j) = true ↔
        p.given (.fn j) = true ∨ i = j := by
      intro j
      show p.given.after [.assign (some (.fn i))] (.fn j) = true ↔ _
      simp [Given.after, Event.given?]
    simp only [hgiven, List.mem_cons]
    show m = name ∨ m ∈ reached ↔ ∃ j, p.bindings m = some (.fn j) ∧ _
    constructor
    · rintro (rfl | hm)
      · exact ⟨i, hname, .inr rfl⟩
      · obtain ⟨j, hj, hjgiven⟩ := (h.reached_iff m).1 hm
        exact ⟨j, hj, .inl hjgiven⟩
    · rintro ⟨j, hj, hjgiven | rfl⟩
      · exact .inr ((h.reached_iff m).2 ⟨j, hj, hjgiven⟩)
      · exact .inl (h.name_eq hname hj)

end WellFormed

end Point

/-! ### Numbers of the variables that are given a value -/

/-- Only variables with numbers below `n` are given a value. -/
def GivesBelow (n : Nat) (events : List Event) : Prop :=
  ∀ event ∈ events, ∀ j, event.given? = some (.var j) → j < n

namespace GivesBelow

theorem of_none {events : List Event} (h : ∀ event ∈ events, event.given? = none) (n : Nat) :
    GivesBelow n events := by
  intro event hevent j hj
  rw [h event hevent] at hj
  cases hj

theorem mono {m n : Nat} {events : List Event} (h : GivesBelow m events) (hmn : m ≤ n) :
    GivesBelow n events :=
  fun event hevent j hj ↦ Nat.lt_of_lt_of_le (h event hevent j hj) hmn

theorem append {n : Nat} {first second : List Event} (hfirst : GivesBelow n first)
    (hsecond : GivesBelow n second) : GivesBelow n (first ++ second) :=
  List.forall_mem_append.2 ⟨hfirst, hsecond⟩

/-- What has no value yet has none after events that only give values to others. -/
theorem after_eq_false {n : Nat} {events : List Event} (h : GivesBelow n events) {given : Given}
    {j : Nat} (hj : n ≤ j) (hgiven : given (.var j) = false) :
    given.after events (.var j) = false := by
  refine Bool.eq_false_iff.2 fun htrue ↦ ?_
  rcases Given.after_eq_true.1 htrue with hbefore | ⟨event, hevent, hsite⟩
  · rw [hgiven] at hbefore
    cases hbefore
  · exact Nat.lt_irrefl _ (Nat.lt_of_lt_of_le (h event hevent j hsite) hj)

end GivesBelow

/-- What the visible names mean after a statement has a number below those to come. -/
theorem Bindings.lt_after {β : Bindings} {k : Nat} (h : ∀ name j, β name = some (.var j) → j < k)
    (stmt : Stmt) (name : String) (j : Nat) (hname : β.after k stmt name = some (.var j)) :
    j < k + stmt.variables.length := by
  cases stmt with
  | var span head initial =>
    show j < k + 1
    rw [Bindings.after, Bindings.bind] at hname
    split at hname
    · cases hname
      exact Nat.lt_succ_self _
    · exact Nat.lt_succ_of_lt (h name j hname)
  | _ => exact Nat.lt_of_lt_of_le (h name j hname) (Nat.le_add_right _ _)

mutual

/-- A statement gives values only to variables that are declared before it or in it. -/
theorem Stmt.givesBelow : ∀ (stmt : Stmt) {β : Bindings} {k : Nat}, stmt.Plain →
    (∀ name j, β name = some (.var j) → j < k) →
      GivesBelow (k + stmt.variables.length) (stmt.events β k)
  | .block _ body, _, _, hplain, hβ => Stmt.givesBelow_all body hplain hβ
  | .function .., _, _, hplain, _ => hplain.elim
  | .var _ _ initial, _, k, _, _ => by
    refine (GivesBelow.of_none (Expr.given?_optionEvents initial) _).append ?_
    refine List.forall_mem_singleton.2 fun j hj ↦ ?_
    cases initial <;> cases hj
    exact Nat.lt_succ_self k
  | .assign _ name _ value, _, _, _, hβ => by
    refine (GivesBelow.of_none (Expr.given?_events value) _).append ?_
    exact List.forall_mem_singleton.2 fun j hj ↦ hβ name j hj
  | .conditional _ condition thenBranch none, _, _, hplain, hβ =>
    (GivesBelow.of_none (Expr.given?_events condition) _).append
      (Stmt.givesBelow thenBranch hplain hβ)
  | .conditional _ condition thenBranch (some elseBranch), _, k, hplain, hβ => by
    have hthen := Stmt.givesBelow thenBranch hplain.1 hβ
    have helse := Stmt.givesBelow elseBranch hplain.2 fun name j hj ↦
      Nat.lt_of_lt_of_le (hβ name j hj) (Nat.le_add_right k thenBranch.variables.length)
    rw [Nat.add_assoc, ← List.length_append] at helse
    refine ((GivesBelow.of_none (Expr.given?_events condition) _).append (hthen.mono ?_)).append
      helse
    rw [Stmt.variables, List.length_append]
    exact Nat.add_le_add_left (Nat.le_add_right _ _) k
  | .loop _ condition body, _, _, hplain, hβ =>
    (GivesBelow.of_none (Expr.given?_events condition) _).append (Stmt.givesBelow body hplain hβ)
  | .evaluate _ value, _, _, _, _ => .of_none (Expr.given?_events value) _
  | .return_ _ value, _, _, _, _ => .of_none (Expr.given?_events value) _
  | .print _ _ value, _, _, _, _ => .of_none (Expr.given?_optionEvents value) _

theorem Stmt.givesBelow_all : ∀ (stmts : List Stmt) {β : Bindings} {k : Nat}, Stmt.AllPlain stmts →
    (∀ name j, β name = some (.var j) → j < k) →
      GivesBelow (k + (Stmt.variablesAll stmts).length) (Stmt.eventsAll stmts β k)
  | [], _, _, _, _ => nofun
  | stmt :: stmts, β, k, hplain, hβ => by
    have hfirst := Stmt.givesBelow stmt hplain.1 hβ
    have hrest := Stmt.givesBelow_all stmts hplain.2 (Bindings.lt_after hβ stmt)
    rw [Nat.add_assoc, ← List.length_append] at hrest
    refine (hfirst.mono ?_).append hrest
    rw [Stmt.variablesAll, List.length_append]
    exact Nat.add_le_add_left (Nat.le_add_right _ _) k

end

namespace Point

variable {p : Point} {name : String} {reached functions : List String}

/-! ### Points after statements -/

/-- The point after a statement that keeps to the rules is well-formed again. -/
theorem WellFormed.after (h : p.WellFormed reached) {stmt : Stmt} (hplain : stmt.Plain)
    (ho : Orderly reached p.names p.given (stmt.outline p.bindings p.next)) :
    (p.after stmt).WellFormed reached := by
  have hmove : WellFormed reached
      { p with
        next := p.next + stmt.variables.length
        given := p.given.after (stmt.events p.bindings p.next) } := by
    refine h.move (Nat.le_add_right _ _) (fun j hj ↦ ?_) (Allowed.after_fn ho.allowed.resolved)
    have hbelow : GivesBelow _ (stmt.events p.bindings p.next) :=
      Stmt.givesBelow stmt hplain fun _ _ ↦ h.var_lt
    exact hbelow.after_eq_false hj (h.unvalued j (Nat.le_trans (Nat.le_add_right _ _) hj))
  cases stmt with
  | var span head initial =>
    rw [after_var]
    exact h.declare (notMem_names ho.distinct List.mem_cons_self)
      (ho.apart head.name List.mem_cons_self) _
  | _ => exact hmove

theorem names_after (p : Point) (stmt : Stmt) :
    (p.after stmt).names = p.names ++ stmt.ownNames := by
  cases stmt with
  | var span head initial => exact List.map_append
  | _ => exact (List.append_nil _).symm

/-- All names of the scope are variables. -/
def Local (p : Point) : Prop :=
  ∀ b ∈ p.scope, ∃ j, b.2 = .var j

theorem Local.enter (p : Point) : p.enter.Local := nofun

theorem Local.declare (h : p.Local) (name : String) (valued : Bool) :
    (p.declare name valued).Local :=
  List.forall_mem_append.2 ⟨h, List.forall_mem_singleton.2 ⟨p.next, rfl⟩⟩

theorem Local.after (h : p.Local) (stmt : Stmt) : (p.after stmt).Local := by
  cases stmt with
  | var span head initial => exact h.declare head.name false
  | _ => exact h

/-! ### Functions -/

/-- All functions are visible. -/
def Sees (functions : List String) (p : Point) : Prop :=
  ∀ name, name ∈ functions ↔ ∃ i, p.bindings name = some (.fn i)

theorem WellFormed.reached_subset (h : p.WellFormed reached) (hsees : p.Sees functions) :
    reached ⊆ functions := by
  intro m hm
  obtain ⟨i, hi, -⟩ := (h.reached_iff m).1 hm
  exact (hsees m).2 ⟨i, hi⟩

theorem Sees.declare (h : p.Sees functions) (hname : name ∉ p.names)
    (hfunctions : name ∉ functions) (valued : Bool) :
    (p.declare name valued).Sees functions := by
  intro m
  rw [bindings_declare hname, Bindings.bind]
  by_cases hm : m = name
  · subst hm
    simp only [if_pos]
    exact ⟨fun hmem ↦ absurd hmem hfunctions, fun ⟨i, hi⟩ ↦ nomatch hi⟩
  · simp only [if_neg hm]
    exact h m

/-- The global names include those of the functions. -/
theorem Sees.notMem (h : p.Sees functions) (houter : p.outer = []) (hname : name ∉ p.names) :
    name ∉ functions := by
  intro hmem
  obtain ⟨i, hi⟩ := (h name).1 hmem
  rw [bindings_eq_lookup houter, lookup_eq_none_iff.2 hname] at hi
  cases hi

section Parameters

variable (p) (parameters : List Declarator)

theorem outer_declareAll : (p.declareAll parameters).outer = p.outer := by
  induction parameters generalizing p with
  | nil => rfl
  | cons parameter parameters ih => exact ih (p.declare parameter.name true)

theorem names_declareAll :
    (p.declareAll parameters).names = p.names ++ parameters.map Declarator.name := by
  induction parameters generalizing p with
  | nil => exact (List.append_nil _).symm
  | cons parameter parameters ih =>
    rw [declareAll, List.foldl_cons, ← declareAll, ih, names_declare, List.append_assoc]
    rfl

theorem next_declareAll : (p.declareAll parameters).next = p.next + parameters.length := by
  induction parameters generalizing p with
  | nil => rfl
  | cons parameter parameters ih =>
    rw [declareAll, List.foldl_cons, ← declareAll, ih, List.length_cons]
    exact Nat.add_right_comm p.next 1 parameters.length

theorem given_declareAll :
    (p.declareAll parameters).given = p.given.after (parameterEvents p.next parameters) := by
  induction parameters generalizing p with
  | nil => exact (Given.after_nil _).symm
  | cons parameter parameters ih =>
    rw [declareAll, List.foldl_cons, ← declareAll, ih]
    exact (Given.after_append [_] _).symm

theorem Local.declareAll {p : Point} (h : p.Local) : (p.declareAll parameters).Local := by
  induction parameters generalizing p with
  | nil => exact h
  | cons parameter parameters ih => exact ih (h.declare parameter.name true)

end Parameters

theorem bindings_declareAll {parameters : List Declarator}
    (h : (p.names ++ parameters.map Declarator.name).Nodup) :
    (p.declareAll parameters).bindings = p.bindings.bindAll p.next parameters := by
  induction parameters generalizing p with
  | nil => rfl
  | cons parameter parameters ih =>
    have hname := notMem_names h List.mem_cons_self
    rw [List.map_cons, List.append_cons, ← names_declare p parameter.name true] at h
    rw [Bindings.bindAll, ← bindings_declare hname true]
    exact ih h

/-- The point after parameters that keep to the rules is well-formed again, and all functions are
still visible. -/
theorem WellFormed.declareAll {parameters : List Declarator} (h : p.WellFormed reached)
    (hsees : p.Sees functions) (hfunctions : ∀ x ∈ parameters, x.name ∉ functions)
    (hnodup : (p.names ++ parameters.map Declarator.name).Nodup) :
    (p.declareAll parameters).WellFormed reached ∧ (p.declareAll parameters).Sees functions := by
  induction parameters generalizing p with
  | nil => exact ⟨h, hsees⟩
  | cons parameter parameters ih =>
    obtain ⟨hfirst, hrest⟩ := List.forall_mem_cons.1 hfunctions
    have hname := notMem_names hnodup List.mem_cons_self
    rw [List.map_cons, List.append_cons, ← names_declare p parameter.name true] at hnodup
    exact ih (h.declare hname (fun hmem ↦ hfirst (h.reached_subset hsees hmem)) true)
      (hsees.declare hname hfirst true) hrest hnodup

/-- The beginning of the body of function number `i`, which has now been reached. -/
def inFunction (p : Point) (parameters : List Declarator) (i : Nat) : Point :=
  (p.enter.declareAll parameters).give (.fn i)

/-- After a function. -/
def afterFunction (p : Point) (parameters : List Declarator) (i : Nat) (body : List Stmt) : Point :=
  { p with
    next := ((p.inFunction parameters i).afterAll body).next
    given := ((p.inFunction parameters i).afterAll body).given }

section Function

variable {parameters : List Declarator} {i : Nat} {body : List Stmt}

theorem names_inFunction :
    (p.inFunction parameters i).names = parameters.map Declarator.name :=
  names_declareAll p.enter parameters

theorem next_inFunction : (p.inFunction parameters i).next = p.next + parameters.length :=
  next_declareAll p.enter parameters

theorem bindings_inFunction (h : (parameters.map Declarator.name).Nodup) :
    (p.inFunction parameters i).bindings = p.bindings.bindAll p.next parameters :=
  bindings_declareAll (p := p.enter) h

theorem outer_inFunction : (p.inFunction parameters i).outer = p.stack :=
  outer_declareAll p.enter parameters

theorem given_inFunction_var (k : Nat) : (p.inFunction parameters i).given (.var k) =
    p.given.after (parameterEvents p.next parameters) (.var k) := by
  have hne : Site.fn i ≠ .var k := nofun
  show (p.enter.declareAll parameters).given.after [.assign (some (.fn i))] (.var k) = _
  rw [Given.after_assign_of_ne hne, given_declareAll]
  rfl

theorem given_inFunction_fn (j : Nat) :
    (p.inFunction parameters i).given (.fn j) = (p.give (.fn i)).given (.fn j) := by
  show (p.enter.declareAll parameters).given.after _ _ = p.given.after _ _
  rw [Given.after, Given.after, given_declareAll,
    Allowed.after_fn (allowed_parameterEvents p.given _ parameters).resolved]
  rfl

theorem bindAll_of_notMem {β : Bindings} {k : Nat}
    (h : name ∉ parameters.map Declarator.name) : β.bindAll k parameters name = β name := by
  induction parameters generalizing β k with
  | nil => rfl
  | cons x parameters ih =>
    obtain ⟨hne, hrest⟩ := List.ne_and_not_mem_of_not_mem_cons h
    rw [Bindings.bindAll, ih hrest, Bindings.bind, if_neg hne]

/-- The body of a function begins at a well-formed point, if the parameters keep to the rules. -/
theorem WellFormed.inFunction (h : p.WellFormed reached) (hsees : p.Sees functions)
    (hname : p.bindings name = some (.fn i)) (hparameters : ∀ x ∈ parameters, x.name ∉ functions)
    (hnodup : (parameters.map Declarator.name).Nodup) :
    (p.enter.declareAll parameters).WellFormed reached ∧
      (p.enter.declareAll parameters).bindings name = some (.fn i) ∧
      (p.inFunction parameters i).WellFormed (name :: reached) := by
  obtain ⟨hwf, -⟩ := h.enter.declareAll hsees hparameters hnodup
  have hnot : name ∉ parameters.map Declarator.name := by
    intro hmem
    obtain ⟨x, hx, rfl⟩ := List.mem_map.1 hmem
    exact hparameters x hx ((hsees x.name).2 ⟨i, hname⟩)
  have hbindings : (p.enter.declareAll parameters).bindings name = some (.fn i) := by
    rw [bindings_declareAll (p := p.enter) hnodup, bindAll_of_notMem hnot]
    exact hname
  exact ⟨hwf, hbindings, hwf.give_fn hbindings⟩

/-- A function that keeps to the rules leaves a well-formed point. -/
theorem WellFormed.afterFunction (h : p.WellFormed reached) (hname : p.bindings name = some (.fn i))
    (hinside : (p.inFunction parameters i).WellFormed (name :: reached))
    (hbody : Stmt.AllPlain body)
    (hresolved : ∀ event ∈ Stmt.eventsAll body (p.inFunction parameters i).bindings
      (p.inFunction parameters i).next, event.Resolved) :
    (p.afterFunction parameters i body).WellFormed (name :: reached) := by
  have hbelow : GivesBelow _ (Stmt.eventsAll body (p.inFunction parameters i).bindings
      (p.inFunction parameters i).next) :=
    Stmt.givesBelow_all body hbody fun _ _ ↦ hinside.var_lt
  refine (h.give_fn hname).move ?_ (fun j hj ↦ ?_) fun j ↦ ?_
  · show p.next ≤ (p.inFunction parameters i).next + _
    rw [next_inFunction, Nat.add_assoc]
    exact Nat.le_add_right _ _
  · exact hbelow.after_eq_false hj
      (hinside.unvalued j (Nat.le_trans (Nat.le_add_right _ _) hj))
  · exact (Allowed.after_fn hresolved j).trans (given_inFunction_fn j)

theorem next_afterFunction (span : Span) (head : Declarator) :
    (p.afterFunction parameters i body).next =
      p.next + (Stmt.function span head parameters body).variables.length := by
  show (p.inFunction parameters i).next + (Stmt.variablesAll body).length =
    p.next + (parameters.map Declarator.name ++ Stmt.variablesAll body).length
  rw [next_inFunction, List.length_append, List.length_map, Nat.add_assoc]

theorem given_afterFunction_var (h : (parameters.map Declarator.name).Nodup) (span : Span)
    (head : Declarator) (k : Nat) :
    (p.afterFunction parameters i body).given (.var k) =
      p.given.after ((Stmt.function span head parameters body).events p.bindings p.next)
        (.var k) := by
  show (p.inFunction parameters i).given.after (Stmt.eventsAll body
    (p.inFunction parameters i).bindings (p.inFunction parameters i).next) (.var k) = _
  rw [bindings_inFunction h, next_inFunction, Given.after, given_inFunction_var, Stmt.events,
    Given.after_append]
  rfl

end Function

end Point

end ScalarMips
