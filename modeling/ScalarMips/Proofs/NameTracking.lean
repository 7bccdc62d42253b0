import ScalarMips.Proofs.Points
import ScalarMips.Proofs.Scoping

/-!
# The check of names inside functions

The check of names finds nothing in the body of a function exactly if the body keeps to the rules
(`Names.checkAll_decides`).

The scopes of the check hold the same names as the point that the walk has reached, and the same is
known of each (`Follows`). A step of the walk does to the scopes what the text does to the point: it
declares a name (`Follows.declare`), gives it a value (`Follows.give`), begins or ends a scope. A
walk *decides* an outline (`Decides`) if it finds nothing exactly if the outline keeps to the rules,
and then reaches the point behind it. Such walks are put together in the way of their outlines.
-/

namespace ScalarMips

/-- What the check of names knows of a name, as far as the rules depend on it. -/
def Identifier.status (i : Identifier) : IdentifierKind × Bool :=
  (i.kind, i.initialized)

/-- What the rules know of a site. -/
def Site.status (given : Given) (site : Site) : IdentifierKind × Bool :=
  (site.kind, given site)

/-- The sites of some scopes, with what the rules know of them. -/
def statuses (given : Given) (scopes : List (List (String × Site))) :
    List (List (String × IdentifierKind × Bool)) :=
  scopes.map fun scope ↦ scope.map fun b ↦ (b.1, b.2.status given)

/-- The check of names knows what the rules know at a point. -/
def Follows (s : Scopes) (p : Point) : Prop :=
  s.view Identifier.status = statuses p.given p.stack

theorem statuses_congr {given given' : Given} {scopes : List (List (String × Site))}
    (h : ∀ b ∈ scopes.flatten, given b.2 = given' b.2) :
    statuses given scopes = statuses given' scopes := by
  refine List.map_congr_left fun scope hscope ↦ List.map_congr_left fun b hb ↦ ?_
  rw [Site.status, Site.status, h b (List.mem_flatten.2 ⟨scope, hscope, hb⟩)]

theorem Frame.view_mark (frame : Frame) (name : String) :
    (frame.modify name fun i ↦ { i with initialized := true }).view Identifier.status =
      (frame.view Identifier.status).map fun b ↦ (b.1, b.2.1, b.2.2 || b.1 = name) := by
  rw [view, view, modify, List.map_map, List.map_map]
  refine List.map_congr_left fun b _ ↦ ?_
  by_cases hb : b.1 = name <;> simp [Identifier.status, hb]

/-- In a scope, the name of a site and the site belong together. -/
theorem statuses_mark {given : Given} {scope : List (String × Site)} {name : String} {site : Site}
    (hnames : (scope.map Prod.fst).Nodup) (hsites : (scope.map Prod.snd).Nodup)
    (hsite : (name, site) ∈ scope) :
    (scope.map fun b ↦ (b.1, b.2.kind, given b.2 || b.1 = name)) =
      scope.map fun b ↦ (b.1, b.2.status (given.after [.assign (some site)])) := by
  refine List.map_congr_left fun b hb ↦ ?_
  have hiff : b.1 = name ↔ site = b.2 := by
    constructor
    · intro heq
      rw [List.inj_on_of_nodup_map hnames hb hsite heq]
    · intro heq
      rw [List.inj_on_of_nodup_map hsites hb hsite heq.symm]
  simp [Site.status, Given.after, Event.given?, hiff]

/-- To mark a name is to give a value to the site it means. -/
theorem statuses_modifyInnermost {given : Given} {name : String} {site : Site} :
    ∀ {frames : List Frame} {scopes : List (List (String × Site))},
      frames.map (Frame.view Identifier.status) = statuses given scopes →
      (∀ scope ∈ scopes, (scope.map Prod.fst).Nodup) → (scopes.flatten.map Prod.snd).Nodup →
      scopes.findSome? (·.lookup name) = some site →
        (Scopes.modifyInnermost name (fun i ↦ { i with initialized := true }) frames).map
            (Frame.view Identifier.status) = statuses (given.after [.assign (some site)]) scopes
  | _, [], _, _, _, hsite => nomatch hsite
  | [], _ :: _, h, _, _, _ => nomatch h
  | frame :: frames, scope :: scopes, h, hnames, hsites, hsite => by
    obtain ⟨hframe, hframes⟩ := List.cons.inj h
    obtain ⟨hscope, hscopes⟩ := List.forall_mem_cons.1 hnames
    rw [List.flatten_cons, List.map_append] at hsites
    rw [List.findSome?_cons] at hsite
    have hfind : (frame.find? name).isSome = (scope.lookup name).isSome := by
      have hlookup := congrArg (List.lookup name) hframe
      rw [Frame.lookup_view, lookup_map_snd] at hlookup
      simpa using congrArg Option.isSome hlookup
    cases hlookup : scope.lookup name with
    | some found =>
      rw [hlookup] at hsite hfind
      cases hsite
      have hmem := Point.mem_of_lookup hlookup
      have hrest : statuses given scopes = statuses (given.after [.assign (some site)]) scopes := by
        refine statuses_congr fun b hb ↦ (Given.after_assign_of_ne fun heq ↦ ?_).symm
        have hb := List.mem_map_of_mem (f := Prod.snd) hb
        exact List.disjoint_of_nodup_append hsites (List.mem_map_of_mem hmem) (heq ▸ hb)
      rw [Scopes.modifyInnermost, if_pos (by simpa using hfind), List.map_cons, Frame.view_mark,
        hframe, List.map_map]
      exact congrArg₂ List.cons (statuses_mark hscope hsites.of_append_left hmem)
        (hframes.trans hrest)
    | none =>
      rw [hlookup] at hsite hfind
      have hmem := Point.mem_of_findSome? hsite
      have hhere :
          statuses given [scope] = statuses (given.after [.assign (some site)]) [scope] := by
        refine statuses_congr fun b hb ↦ (Given.after_assign_of_ne fun heq ↦ ?_).symm
        rw [List.flatten_singleton] at hb
        have hb := List.mem_map_of_mem (f := Prod.snd) hb
        exact List.disjoint_of_nodup_append hsites (heq ▸ hb) (List.mem_map_of_mem hmem)
      rw [Scopes.modifyInnermost, if_neg (by simpa using hfind), List.map_cons, hframe,
        statuses_modifyInnermost hframes hscopes hsites.of_append_right hsite]
      exact congrArg (· ++ _) hhere

namespace Follows

variable {s : Scopes} {p : Point} {name : String} {reached : List String}

theorem lookup (h : Follows s p) (name : String) :
    (s.lookup name).map Identifier.status = (p.bindings name).map (Site.status p.given) := by
  rw [← Scopes.lookup_view, h]
  exact findSome?_lookup_map _ p.stack name

theorem lookupHere (h : Follows s p) (name : String) :
    (s.lookupHere name).map Identifier.status =
      (p.scope.lookup name).map (Site.status p.given) := by
  rw [← Scopes.lookupHere_view, h]
  exact lookup_map_snd _ p.scope name

theorem kinds (h : Follows s p) :
    s.kinds = p.stack.map fun scope ↦ scope.map fun b ↦ (b.1, b.2.kind) := by
  have hview : s.kinds = s.view (Prod.fst ∘ Identifier.status) := rfl
  rw [hview, Scopes.view_comp, h, statuses, List.map_map]
  exact List.map_congr_left fun scope _ ↦ List.map_map

theorem lookupHere_eq_none (h : Follows s p) : s.lookupHere name = none ↔ name ∉ p.names := by
  rw [← Option.map_eq_none_iff, h.lookupHere, Option.map_eq_none_iff]
  exact Point.lookup_eq_none_iff

theorem push (h : Follows s p) (returnType : Option ScalarType) :
    Follows (s.push returnType) p.enter :=
  congrArg ([] :: ·) h

theorem pop {q : Point} (h : Follows s q) (hstack : q.outer = p.stack)
    (hgiven : q.given = p.given) : Follows s.pop p := by
  obtain ⟨current, outer⟩ := s
  have houter : outer.map (Frame.view Identifier.status) = statuses p.given p.stack := by
    rw [← hstack, ← hgiven]
    exact (List.cons.inj h).2
  cases outer with
  | nil => cases houter
  | cons frame outer => exact houter

theorem declare (h : Follows s p) (hp : p.WellFormed reached) (hname : name ∉ p.names)
    (type : ScalarType) (valued : Bool) :
    Follows (s.declare name { type, initialized := valued }) (p.declare name valued) := by
  have hfree : s.lookupHere name = none := h.lookupHere_eq_none.2 hname
  have hgiven : (p.declare name valued).given (.var p.next) = valued := by
    show p.given.after [.declare p.next valued] (.var p.next) = valued
    cases valued <;> simp [Given.after, Event.given?, hp.unvalued p.next (Nat.le_refl _)]
  have hold : ∀ b ∈ p.stack.flatten, p.given b.2 = (p.declare name valued).given b.2 := by
    intro b hb
    have hne : (Event.declare p.next valued).given? ≠ some b.2 := by
      intro heq
      cases valued with
      | false => cases heq
      | true => exact Nat.lt_irrefl _ (hp.used b hb p.next (Option.some.inj heq).symm)
    show p.given b.2 = p.given.after [.declare p.next valued] b.2
    simp [Given.after, hne]
  unfold Follows
  rw [Scopes.view_declare_free hfree, h, statuses_congr hold]
  show (_ ++ [(name, IdentifierKind.var, valued)]) :: _ =
    List.map _ (p.scope ++ [(name, Site.var p.next)]) :: _
  rw [List.map_append, List.map_singleton, Site.status, hgiven]
  rfl

theorem give (h : Follows s p) (hp : p.WellFormed reached) {site : Site}
    (hname : p.bindings name = some site) : Follows (s.markInitialized name) (p.give site) := by
  unfold Follows
  rw [Scopes.view, Scopes.markInitialized, Scopes.frames_modify]
  exact statuses_modifyInnermost h hp.names_nodup hp.sites_nodup hname

/-- A name means something to the check exactly if it does at the point, and then the two agree on
what is known of it. -/
theorem cases (h : Follows s p) (name : String) :
    s.lookup name = none ∧ p.bindings name = none ∨
      ∃ i site, s.lookup name = some i ∧ p.bindings name = some site ∧ i.kind = site.kind ∧
        i.initialized = p.given site := by
  have hlookup := h.lookup name
  cases hs : s.lookup name with
  | none =>
    rw [hs] at hlookup
    exact .inl ⟨rfl, Option.map_eq_none_iff.1 hlookup.symm⟩
  | some i =>
    rw [hs] at hlookup
    obtain ⟨site, hsite, hstatus⟩ := Option.map_eq_some_iff.1 hlookup.symm
    obtain ⟨hkind, hgiven⟩ := Prod.mk.inj hstatus
    exact .inr ⟨i, site, rfl, hsite, hkind.symm, hgiven.symm⟩

theorem hasKind_fn (h : Follows s p) :
    s.hasKind (some .fn) name = true ↔ ∃ i, p.bindings name = some (.fn i) := by
  rcases h.cases name with ⟨hs, hp⟩ | ⟨i, site, hs, hp, hkind, -⟩
  · simp [Scopes.hasKind, hs, hp]
  · cases site <;> simp [Scopes.hasKind, hs, hp, hkind, Site.kind]

theorem hasKind_var (h : Follows s p) :
    s.hasKind (some .var) name = true ↔ ∃ k, p.bindings name = some (.var k) := by
  rcases h.cases name with ⟨hs, hp⟩ | ⟨i, site, hs, hp, hkind, -⟩
  · simp [Scopes.hasKind, hs, hp]
  · cases site <;> simp [Scopes.hasKind, hs, hp, hkind, Site.kind]

end Follows

namespace Names

variable {scopes : Scopes} {p q r : Point} {name : String} {reached : List String}

/-! ### Expressions -/

theorem readIssue_eq_none (h : Follows scopes p) :
    readIssue scopes name = none ↔ Allowed p.given [.read (p.bindings name)] := by
  rw [allowed_singleton]
  rcases h.cases name with ⟨hs, hp⟩ | ⟨i, site, hs, hp, hkind, hgiven⟩
  · simp [readIssue, hs, hp, Event.Resolved]
  · cases site <;> simp [readIssue, hs, hp, hkind, hgiven, Site.kind, Event.Resolved]

theorem callIssue_eq_none (h : Follows scopes p) :
    callIssue scopes name = none ↔ Allowed p.given [.call (p.bindings name)] := by
  rw [allowed_singleton]
  rcases h.cases name with ⟨hs, hp⟩ | ⟨i, site, hs, hp, hkind, -⟩
  · simp [callIssue, hs, hp, Event.Resolved]
  · cases site <;> simp [callIssue, hs, hp, hkind, Site.kind, Event.Resolved]

theorem assignIssue_eq_none (h : Follows scopes p) :
    assignIssue scopes name = none ↔ Allowed p.given [.assign (p.bindings name)] := by
  rw [allowed_singleton]
  rcases h.cases name with ⟨hs, hp⟩ | ⟨i, site, hs, hp, hkind, -⟩
  · simp [assignIssue, hs, hp, Event.Resolved]
  · cases site <;> simp [assignIssue, hs, hp, hkind, Site.kind, Event.Resolved]

mutual

theorem exprComplaints_eq_nil (h : Follows scopes p) : ∀ e : Expr,
    exprComplaints scopes e = [] ↔ Allowed p.given (e.events p.bindings)
  | .literal .. => ⟨fun _ ↦ allowed_nil, fun _ ↦ rfl⟩
  | .var _ _ => complain_eq_nil.trans (readIssue_eq_none h)
  | .unary _ _ operand => exprComplaints_eq_nil h operand
  | .binary _ _ left right => by
    rw [exprComplaints, Expr.events, List.append_eq_nil_iff, allowed_append,
      Given.after_eq_self (Expr.given?_events left), exprComplaints_eq_nil h left,
      exprComplaints_eq_nil h right]
  | .call _ name arguments => by
    rw [exprComplaints, Expr.events, List.append_eq_nil_iff, allowed_cons, complain_eq_nil,
      callIssue_eq_none h, Given.after_eq_self (List.forall_mem_singleton.2 rfl),
      exprsComplaints_eq_nil h arguments]

theorem exprsComplaints_eq_nil (h : Follows scopes p) : ∀ es : List Expr,
    exprsComplaints scopes es = [] ↔ Allowed p.given (Expr.eventsAll p.bindings es)
  | [] => ⟨fun _ ↦ allowed_nil, fun _ ↦ rfl⟩
  | e :: es => by
    rw [exprsComplaints, Expr.eventsAll, List.append_eq_nil_iff, allowed_append,
      Given.after_eq_self (Expr.given?_events e), exprComplaints_eq_nil h e,
      exprsComplaints_eq_nil h es]

end

theorem optionComplaints_eq_nil (h : Follows scopes p) (value : Option Expr) :
    optionComplaints scopes value = [] ↔ Allowed p.given (Expr.optionEvents p.bindings value) := by
  cases value with
  | none => exact ⟨fun _ ↦ allowed_nil, fun _ ↦ rfl⟩
  | some e => exact exprComplaints_eq_nil h e

/-! ### Deciding walks -/

/-- A walk from one point to another finds nothing exactly if the outline of the text between them
keeps to the rules. -/
def Decides (reached : List String) (p q : Point) (o : Outline) (walk : State → Pass State) :
    Prop :=
  ∀ s, Follows s.scopes p →
    ((walk s).findings = [] ↔ Orderly reached p.names p.given o) ∧
      ((walk s).findings = [] →
        Follows (walk s).state.scopes q ∧ (walk s).state.pending = s.pending)

namespace Decides

variable {o first second : Outline} {walk next : State → Pass State}

/-- Only the names and what is known of them matters for the point that is reached. -/
theorem congr (h : Decides reached p q o walk) (hstack : q.stack = r.stack)
    (hgiven : q.given = r.given) : Decides reached p r o walk := by
  intro s hs
  obtain ⟨hiff, hafter⟩ := h s hs
  refine ⟨hiff, fun hfindings ↦ ?_⟩
  obtain ⟨hfollows, hpending⟩ := hafter hfindings
  rw [Follows, hstack, hgiven] at hfollows
  exact ⟨hfollows, hpending⟩

/-- One walk after another, in the way of one stretch of text after another. -/
theorem andThen (hfirst : Decides reached p q first walk)
    (hsecond : Orderly reached p.names p.given first → Decides reached q r second next)
    (hnames : q.names = p.names ++ first.own) (hgiven : q.given = p.given.after first.events) :
    Decides reached p r (first.append second) fun s ↦ (walk s).andThen next := by
  intro s hs
  obtain ⟨hiff, hafter⟩ := hfirst s hs
  rw [Pass.findings_andThen_eq_nil, orderly_append, ← hnames, ← hgiven]
  constructor
  · constructor
    · rintro ⟨hwalk, hnext⟩
      exact ⟨hiff.1 hwalk, (hsecond (hiff.1 hwalk) _ (hafter hwalk).1).1.1 hnext⟩
    · rintro ⟨ho, hnext⟩
      exact ⟨hiff.2 ho, (hsecond ho _ (hafter (hiff.2 ho)).1).1.2 hnext⟩
  · rintro ⟨hwalk, hnext⟩
    obtain ⟨hfollows, hpending⟩ := hafter hwalk
    obtain ⟨hend, hpending'⟩ := (hsecond (hiff.1 hwalk) _ hfollows).2 hnext
    exact ⟨hend, hpending'.trans hpending⟩

/-- A walk in a scope of its own. -/
theorem enclose (h : Decides reached p.enter q o walk) (hp : p.names.Nodup)
    (houter : q.outer = r.stack) (hgiven : q.given = r.given) :
    Decides reached p r o.enclose fun s ↦ (walk s.push).map State.pop := by
  intro s hs
  obtain ⟨hiff, hafter⟩ := h s.push (hs.push none)
  rw [Pass.findings_map, orderly_enclose, hiff]
  refine ⟨⟨fun ho ↦ ⟨hp, ho⟩, And.right⟩, fun ho ↦ ?_⟩
  obtain ⟨hfollows, hpending⟩ := hafter (hiff.2 ho)
  exact ⟨hfollows.pop houter hgiven, hpending⟩

theorem expr (hp : p.names.Nodup) (value : Option Expr) :
    Decides reached p p (.ofEvents (Expr.optionEvents p.bindings value)) (checkExpr value) := by
  intro s hs
  rw [checkExpr, Pass.findings_file_eq_nil, orderly_ofEvents, optionComplaints_eq_nil hs]
  exact ⟨⟨fun h ↦ ⟨hp, h⟩, And.right⟩, fun _ ↦ ⟨hs, rfl⟩⟩

/-- A walk after an expression. -/
theorem expr_andThen (hp : p.names.Nodup) (value : Expr) (h : Decides reached p q o walk) :
    Decides reached p q (.append (.ofEvents (value.events p.bindings)) o)
      fun s ↦ (checkExpr (some value) s).andThen walk :=
  (expr hp (some value)).andThen (fun _ ↦ h) (List.append_nil _).symm
    (Given.after_eq_self (Expr.given?_events value)).symm

end Decides

/-! ### Declarations and assignments -/

theorem orderly_var (hp : p.names.Nodup) (span : Span) (head : Declarator)
    (initial : Option Expr) :
    Orderly reached p.names p.given ((Stmt.var span head initial).outline p.bindings p.next) ↔
      Allowed p.given (Expr.optionEvents p.bindings initial) ∧ head.name ∉ p.names ∧
        head.name ∉ reached := by
  constructor
  · rintro ⟨hallowed, hdistinct, -, hapart⟩
    exact ⟨(allowed_append.1 hallowed).1, Point.notMem_names hdistinct List.mem_cons_self,
      hapart head.name List.mem_cons_self⟩
  · rintro ⟨hallowed, hname, hreached⟩
    refine ⟨allowed_append.2 ⟨hallowed, allowed_singleton.2 ⟨trivial, nofun⟩⟩, ?_, nofun,
      List.forall_mem_singleton.2 hreached⟩
    exact (List.perm_append_singleton _ _).nodup_iff.2 (List.nodup_cons.2 ⟨hname, hp⟩)

/-- A visible function has been reached exactly if it is one of those that have been. -/
theorem any_reached (h : Follows scopes p) (hp : p.WellFormed reached) :
    ((scopes.lookup name).any fun i ↦ i.kind = .fn && i.initialized) = true ↔
      name ∈ reached := by
  rw [hp.reached_iff name]
  rcases h.cases name with ⟨hs, hb⟩ | ⟨i, site, hs, hb, hkind, hgiven⟩
  · simp [hs, hb]
  · cases site <;> simp [hs, hb, hkind, hgiven, Site.kind]

theorem declareVariable_free {s : State} (h : Follows s.scopes p) (hp : p.WellFormed reached)
    {head : Declarator} (hname : head.name ∉ p.names) (hreached : head.name ∉ reached)
    (valued : Bool) :
    declareVariable head valued s =
      ({ s with
         scopes := s.scopes.declare head.name { type := head.type, initialized := valued } },
        none) := by
  have hnone := h.lookupHere_eq_none.2 hname
  have hfalse := Bool.eq_false_iff.2 (mt (any_reached h hp).1 hreached)
  simp [declareVariable, hnone, hfalse]

/-- A local variable can be declared if its scope does not have its name and no function that has
been reached does. -/
theorem declareVariable_local {s : State} (h : Follows s.scopes p) (hp : p.WellFormed reached)
    (hlocal : p.Local) (head : Declarator) (valued : Bool) :
    (declareVariable head valued s).2 = none ↔ head.name ∉ p.names ∧ head.name ∉ reached := by
  by_cases hname : head.name ∈ p.names
  · -- The names of the scope are variables, so one of them is declared a second time.
    obtain ⟨site, hsite⟩ : ∃ site, p.scope.lookup head.name = some site :=
      Option.ne_none_iff_exists'.1 fun hnone ↦ Point.lookup_eq_none_iff.1 hnone hname
    obtain ⟨j, rfl⟩ : ∃ j, site = .var j := hlocal _ (Point.mem_of_lookup hsite)
    have hlookup := h.lookupHere head.name
    rw [hsite, Option.map_some] at hlookup
    obtain ⟨i, hi, hstatus⟩ := Option.map_eq_some_iff.1 hlookup
    have hkind : i.kind = .var := (Prod.mk.inj hstatus).1
    simp [declareVariable, hi, hkind, hname]
  · by_cases hreached : head.name ∈ reached
    · have hnone := h.lookupHere_eq_none.2 hname
      simp [declareVariable, hnone, (any_reached h hp).2 hreached, hreached]
    · simp [declareVariable_free h hp hname hreached valued, hname, hreached]

theorem findings_checkVariable {head : Declarator} {initial : Option Expr} {s : State} :
    (checkVariable head initial s).findings = [] ↔
      optionComplaints s.scopes initial = [] ∧
        (declareVariable head initial.isSome s).2 = none := by
  rw [checkVariable, Pass.findings_file_eq_nil, List.append_eq_nil_iff, complain_eq_nil]

theorem Decides.variable (hp : p.WellFormed reached) (hlocal : p.Local) (span : Span)
    (head : Declarator) (initial : Option Expr) :
    Decides reached p (p.declare head.name initial.isSome)
      ((Stmt.var span head initial).outline p.bindings p.next) (checkVariable head initial) := by
  intro s hs
  have hiff := declareVariable_local hs hp hlocal head initial.isSome
  rw [findings_checkVariable, orderly_var hp.nodup_names, ← hiff, ← optionComplaints_eq_nil hs]
  refine ⟨Iff.rfl, fun ⟨_, hissue⟩ ↦ ?_⟩
  obtain ⟨hname, hreached⟩ := hiff.1 hissue
  show Follows (declareVariable head initial.isSome s).1.scopes _ ∧
    (declareVariable head initial.isSome s).1.pending = _
  rw [declareVariable_free hs hp hname hreached]
  exact ⟨hs.declare hp hname head.type _, rfl⟩

theorem Decides.assign (hp : p.WellFormed reached) (span : Span) (name : String) (target : Span)
    (value : Expr) :
    Decides reached p (p.after (.assign span name target value))
      ((Stmt.assign span name target value).outline p.bindings p.next)
      (checkAssign name target value) := by
  intro s hs
  have hiff : (checkAssign name target value s).findings = [] ↔
      Allowed p.given (value.events p.bindings ++ [.assign (p.bindings name)]) := by
    rw [checkAssign, Pass.findings_file_eq_nil, List.append_eq_nil_iff, complain_eq_nil,
      allowed_append, Given.after_eq_self (Expr.given?_events value), exprComplaints_eq_nil hs,
      assignIssue_eq_none hs, and_comm]
  have horderly : Orderly reached p.names p.given
      ((Stmt.assign span name target value).outline p.bindings p.next) ↔
        p.names.Nodup ∧ Allowed p.given (value.events p.bindings ++ [.assign (p.bindings name)]) :=
    orderly_ofEvents
  rw [hiff, horderly]
  refine ⟨⟨fun hallowed ↦ ⟨hp.nodup_names, hallowed⟩, And.right⟩, fun hallowed ↦ ?_⟩
  obtain ⟨-, hassign⟩ := allowed_append.1 hallowed
  obtain ⟨⟨k, hk⟩, -⟩ := allowed_singleton.1 hassign
  have hstate : (checkAssign name target value s).state =
      { s with scopes := s.scopes.markInitialized name } := by
    show State.mk (if _ then _ else _) _ = _
    rw [if_pos (hs.hasKind_var.2 ⟨k, hk⟩)]
  rw [hstate, Point.after_assign hk]
  exact ⟨hs.give hp hk, rfl⟩

/-! ### Statements -/

/-- A condition with a branch, which has a scope of its own. -/
theorem Decides.branch (hp : p.WellFormed reached) (condition : Expr) {branch : Stmt}
    (h : Decides reached p.enter (p.enter.after branch) (branch.outline p.bindings p.next)
      (checkStmt branch))
    (hstack : p.stack = r.stack)
    (hgiven : r.given = p.given.after (condition.events p.bindings ++
      branch.events p.bindings p.next)) :
    Decides reached p r
      (.append (.ofEvents (condition.events p.bindings)) (branch.outline p.bindings p.next).enclose)
      fun s ↦ (checkExpr (some condition) s).andThen fun s ↦
        (checkStmt branch s.push).map State.pop := by
  refine Decides.expr_andThen hp.nodup_names condition (h.enclose hp.nodup_names hstack ?_)
  rw [hgiven, Given.after_append, Given.after_eq_self (Expr.given?_events condition)]
  rfl

mutual

/-- The check of a statement inside a function decides whether it keeps to the rules. -/
theorem checkStmt_decides : ∀ (stmt : Stmt) (p : Point), stmt.Plain → p.WellFormed reached →
    p.Local → Decides reached p (p.after stmt) (stmt.outline p.bindings p.next) (checkStmt stmt)
  | .block _ body, p, hplain, hp, _ =>
    (checkAll_decides body p.enter hplain hp.enter (.enter p)).enclose hp.nodup_names rfl rfl
  | .function .., _, hplain, _, _ => hplain.elim
  | .var span head initial, p, _, hp, hlocal => by
    rw [Point.after_var]
    exact Decides.variable hp hlocal span head initial
  | .assign span name target value, p, _, hp, _ => Decides.assign hp span name target value
  | .conditional _ condition thenBranch none, p, hplain, hp, _ =>
    Decides.branch hp condition
      (checkStmt_decides thenBranch p.enter hplain hp.enter (.enter p)) rfl rfl
  | .conditional span condition thenBranch (some elseBranch), p, hplain, hp, _ => by
    -- Up to the second branch this is a conditional statement without one.
    have hthen : Decides reached p (p.after (.conditional span condition thenBranch none))
        ((Stmt.conditional span condition thenBranch none).outline p.bindings p.next)
        (checkStmt (.conditional span condition thenBranch none)) :=
      Decides.branch hp condition
        (checkStmt_decides thenBranch p.enter hplain.1 hp.enter (.enter p)) rfl rfl
    have helse : Orderly reached p.names p.given
        ((Stmt.conditional span condition thenBranch none).outline p.bindings p.next) →
        Decides reached (p.after (.conditional span condition thenBranch none))
          (p.after (.conditional span condition thenBranch (some elseBranch)))
          (elseBranch.outline p.bindings (p.next + thenBranch.variables.length)).enclose
          fun s ↦ (checkStmt elseBranch s.push).map State.pop := by
      intro ho
      have hmiddle : (p.after (.conditional span condition thenBranch none)).WellFormed reached :=
        hp.after hplain.1 ho
      exact (checkStmt_decides elseBranch _ hplain.2 hmiddle.enter (.enter _)).enclose
        hmiddle.nodup_names rfl (Given.after_append _ _).symm
    exact hthen.andThen helse (List.append_nil _).symm rfl
  | .loop _ condition body, p, hplain, hp, _ =>
    Decides.branch hp condition (checkStmt_decides body p.enter hplain hp.enter (.enter p)) rfl rfl
  | .evaluate _ value, p, _, hp, _ =>
    (Decides.expr hp.nodup_names (some value)).congr rfl
      (Given.after_eq_self (Expr.given?_events value)).symm
  | .return_ _ value, p, _, hp, _ =>
    (Decides.expr hp.nodup_names (some value)).congr rfl
      (Given.after_eq_self (Expr.given?_events value)).symm
  | .print _ _ value, p, _, hp, _ =>
    (Decides.expr hp.nodup_names value).congr rfl
      (Given.after_eq_self (Expr.given?_optionEvents value)).symm

/-- The check of the statements of a function decides whether they keep to the rules. -/
theorem checkAll_decides : ∀ (stmts : List Stmt) (p : Point), Stmt.AllPlain stmts →
    p.WellFormed reached → p.Local → Decides reached p (p.afterAll stmts)
      (Stmt.outlineAll stmts p.bindings p.next) (checkAll stmts)
  | [], p, _, hp, _ => (Decides.expr hp.nodup_names none).congr rfl (Given.after_nil _).symm
  | stmt :: stmts, p, hplain, hp, hlocal => by
    have hrest : Orderly reached p.names p.given (stmt.outline p.bindings p.next) →
        Decides reached (p.after stmt) (p.afterAll (stmt :: stmts))
          (Stmt.outlineAll stmts (p.bindings.after p.next stmt)
            (p.next + stmt.variables.length)) (checkAll stmts) := by
      intro ho
      rw [Point.afterAll_cons ho.distinct, ← Point.bindings_after ho.distinct]
      exact checkAll_decides stmts (p.after stmt) hplain.2 (hp.after hplain.1 ho)
        (hlocal.after stmt)
    exact (checkStmt_decides stmt p hplain.1 hp hlocal).andThen hrest (Point.names_after p stmt) rfl

end

end Names

end ScalarMips
