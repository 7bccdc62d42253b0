import ScalarMips.Scope

/-!
# Laws of scopes

How the operations on scopes change what a name means. Three checks and the renaming each keep a
stack of scopes of their own, with different knowledge about the same names. They are compared
through a *view*: the stack with every binding reduced to the part that is to be compared. Two
stacks with the same view bind the same names in the same scopes, so a lookup in one says what a
lookup in the other gives (`Scopes.lookup_view`), and a view of the scopes before a declaration
determines the view of those after it (`Scopes.view_declare_free`).
-/

namespace ScalarMips

/-! ### Lists of bindings -/

theorem lookup_map_snd {α β : Type} (f : α → β) (bindings : List (String × α)) (name : String) :
    (bindings.map fun b ↦ (b.1, f b.2)).lookup name = (bindings.lookup name).map f := by
  induction bindings with
  | nil => rfl
  | cons b bindings ih =>
    obtain ⟨n, a⟩ := b
    simp only [List.map_cons, List.lookup_cons]
    split
    · rfl
    · exact ih

theorem findSome?_lookup_map {α β : Type} (f : α → β) (scopes : List (List (String × α)))
    (name : String) :
    (scopes.map fun scope ↦ scope.map fun b ↦ (b.1, f b.2)).findSome? (·.lookup name) =
      (scopes.findSome? (·.lookup name)).map f := by
  induction scopes with
  | nil => rfl
  | cons scope scopes ih =>
    rw [List.map_cons, List.findSome?_cons, List.findSome?_cons, lookup_map_snd, ih]
    cases scope.lookup name <;> rfl

/-! ### Frames -/

namespace Frame

variable {α : Type}

/-- A frame with its bindings reduced by `f`. -/
def view (f : Identifier → α) (frame : Frame) : List (String × α) :=
  frame.bindings.map fun b ↦ (b.1, f b.2)

theorem lookup_view (f : Identifier → α) (frame : Frame) (name : String) :
    (frame.view f).lookup name = (frame.find? name).map f :=
  lookup_map_snd f frame.bindings name

theorem view_modify {f : Identifier → α} {change : Identifier → Identifier}
    (h : ∀ i, f (change i) = f i) (frame : Frame) (name : String) :
    (frame.modify name change).view f = frame.view f := by
  unfold view modify
  rw [List.map_map]
  refine List.map_congr_left fun b _ ↦ ?_
  show (b.1, f (if b.1 = name then change b.2 else b.2)) = (b.1, f b.2)
  split
  · rw [h]
  · rfl

theorem find?_modify (frame : Frame) (name : String) (change : Identifier → Identifier)
    (m : String) : (frame.modify name change).find? m =
      if m = name then (frame.find? m).map change else frame.find? m := by
  obtain ⟨bindings, returnType⟩ := frame
  show List.lookup m (bindings.map fun b ↦ (b.1, if b.1 = name then change b.2 else b.2)) = _
  show _ = if m = name then (List.lookup m bindings).map change else List.lookup m bindings
  induction bindings with
  | nil => simp
  | cons b bindings ih =>
    rw [List.map_cons, List.lookup_cons, List.lookup_cons]
    by_cases hm : m = b.1
    · by_cases hn : m = name <;> simp_all
    · rw [beq_false_of_ne hm]
      exact ih

end Frame

theorem lookup_append_of_none {α : Type} {bindings : List (String × α)} {name : String} {a : α}
    (h : bindings.lookup name = none) (m : String) :
    (bindings ++ [(name, a)]).lookup m = if m = name then some a else bindings.lookup m := by
  rw [List.lookup_append]
  split
  · rename_i hm
    subst hm
    simp [h]
  · rename_i hm
    rw [List.lookup_cons, beq_false_of_ne hm]
    exact Option.or_none

namespace Scopes

variable {α β : Type} {s t : Scopes} {name : String} {i j : Identifier}

/-! ### Declaring -/

theorem declare?_of_bound (h : (s.lookupHere name).isSome) (i : Identifier) :
    s.declare? name i = none := by
  have hbound : s.current.declare? name i = none := if_pos h
  rw [declare?, hbound]
  rfl

theorem declare_of_bound (h : (s.lookupHere name).isSome) (i : Identifier) :
    s.declare name i = s := by
  rw [declare, declare?_of_bound h]
  rfl

/-- Declaring a name that is free in the current scope puts it at the end of that scope. -/
theorem declare?_of_free (h : s.lookupHere name = none) (i : Identifier) :
    s.declare? name i = some
      { s with current := { s.current with bindings := s.current.bindings ++ [(name, i)] } } := by
  have hfree : ¬ (s.lookupHere name).isSome := by simp [h]
  have hcurrent : s.current.declare? name i = some _ := if_neg hfree
  rw [declare?, hcurrent]
  rfl

theorem declare_of_free (h : s.lookupHere name = none) (i : Identifier) :
    s.declare name i =
      { s with current := { s.current with bindings := s.current.bindings ++ [(name, i)] } } := by
  rw [declare, declare?_of_free h]
  rfl

@[simp] theorem outer_declare (s : Scopes) (name : String) (i : Identifier) :
    (s.declare name i).outer = s.outer := by
  cases h : s.lookupHere name with
  | none => rw [declare_of_free h]
  | some b => rw [declare_of_bound (by simp [h])]

/-- A newly declared name means what it was declared as, and all others what they meant before. -/
theorem lookup_declare (h : s.lookupHere name = none) (m : String) :
    (s.declare name i).lookup m = if m = name then some i else s.lookup m := by
  rw [declare_of_free h]
  simp only [lookup, frames, List.findSome?_cons, Frame.find?]
  rw [lookup_append_of_none h]
  by_cases hm : m = name
  · rw [if_pos hm, if_pos hm]
  · rw [if_neg hm, if_neg hm]

theorem lookupHere_declare (h : s.lookupHere name = none) (m : String) :
    (s.declare name i).lookupHere m = if m = name then some i else s.lookupHere m := by
  rw [declare_of_free h]
  exact lookup_append_of_none h m

theorem lookup_global (frame : Frame) (name : String) :
    Scopes.lookup ⟨frame, []⟩ name = frame.find? name := by
  rw [lookup, frames, List.findSome?_cons]
  cases frame.find? name <;> rfl

/-- What is left of a scope entered from `s`, if nothing changed the scopes around it. -/
theorem pop_eq_of_outer {s t : Scopes} (h : t.outer = s.frames) : t.pop = s := by
  obtain ⟨current, outer⟩ := t
  cases h
  rfl

/-! ### Return types -/

theorem returnType?_declare (s : Scopes) (name : String) (i : Identifier) :
    (s.declare name i).returnType? = s.returnType? := by
  cases h : s.lookupHere name with
  | none => rw [declare_of_free h]; rfl
  | some b => rw [declare_of_bound (by simp [h])]

/-! ### Views -/

/-- A stack of scopes with its bindings reduced by `f`, the innermost scope first. -/
def view (f : Identifier → α) (s : Scopes) : List (List (String × α)) :=
  s.frames.map (Frame.view f)

/-- A view can be reduced further. -/
theorem view_comp (g : α → β) (f : Identifier → α) (s : Scopes) :
    s.view (g ∘ f) = (s.view f).map fun scope ↦ scope.map fun b ↦ (b.1, g b.2) := by
  unfold view Frame.view
  simp only [List.map_map, Function.comp_def]

theorem view_pop {f : Identifier → α} {frame : List (String × α)}
    (h : t.view f = frame :: s.view f) :
    t.pop.view f = s.view f := by
  obtain ⟨current, outer⟩ := t
  have houter : outer.map (Frame.view f) = s.view f := (List.cons.inj h).2
  cases outer with
  | nil => cases houter
  | cons next outer => exact houter

theorem lookup_view {f : Identifier → α} (s : Scopes) (name : String) :
    (s.view f).findSome? (fun frame ↦ frame.lookup name) = (s.lookup name).map f := by
  have hview : s.view f =
      (s.frames.map Frame.bindings).map fun scope ↦ scope.map fun b ↦ (b.1, f b.2) :=
    List.map_map.symm
  rw [hview, findSome?_lookup_map, List.findSome?_map]
  rfl

theorem lookupHere_view {f : Identifier → α} (s : Scopes) (name : String) :
    ((s.view f).headD []).lookup name = (s.lookupHere name).map f :=
  Frame.lookup_view f s.current name

theorem view_declare_free {f : Identifier → α} (h : s.lookupHere name = none) (i : Identifier) :
    (s.declare name i).view f =
      ((s.view f).headD [] ++ [(name, f i)]) :: (s.view f).tail := by
  rw [declare_of_free h]
  show Frame.view f { s.current with bindings := s.current.bindings ++ [(name, i)] } ::
    s.outer.map (Frame.view f) = _
  rw [Frame.view, List.map_append]
  rfl

theorem frames_modify (s : Scopes) (name : String) (change : Identifier → Identifier) :
    (s.modify name change).frames = modifyInnermost name change s.frames := by
  show _ = modifyInnermost name change (s.current :: s.outer)
  rw [modifyInnermost, modify]
  split <;> rfl

theorem view_modify {f : Identifier → α} {change : Identifier → Identifier}
    (h : ∀ i, f (change i) = f i) (s : Scopes) (name : String) :
    (s.modify name change).view f = s.view f := by
  have hframes : ∀ frames : List Frame,
      (modifyInnermost name change frames).map (Frame.view f) = frames.map (Frame.view f) := by
    intro frames
    induction frames with
    | nil => rfl
    | cons frame frames ih =>
      rw [modifyInnermost]
      split
      · rw [List.map_cons, Frame.view_modify h, List.map_cons]
      · rw [List.map_cons, ih, List.map_cons]
  rw [view, frames_modify]
  exact hframes s.frames

/-! ### The global scope -/

/-- The outermost scope. -/
def global (s : Scopes) : Frame :=
  s.outer.getLastD s.current

@[simp] theorem global_push (s : Scopes) (returnType : Option ScalarType) :
    (s.push returnType).global = s.global :=
  List.getLastD_cons

@[simp] theorem global_pop (s : Scopes) : s.pop.global = s.global := by
  obtain ⟨current, outer⟩ := s
  cases outer with
  | nil => rfl
  | cons frame outer => exact List.getLastD_cons.symm

theorem getLastD_modifyInnermost (name : String) (change : Identifier → Identifier)
    (frames : List Frame) (frame : Frame) :
    (modifyInnermost name change frames).getLastD frame = frames.getLastD frame ∨
      (modifyInnermost name change frames).getLastD frame =
        (frames.getLastD frame).modify name change := by
  induction frames generalizing frame with
  | nil => exact .inl rfl
  | cons first frames ih =>
    rw [modifyInnermost]
    split
    · rw [List.getLastD_cons, List.getLastD_cons]
      cases frames with
      | nil => exact .inr rfl
      | cons next frames =>
        rw [List.getLastD_cons, List.getLastD_cons]
        exact .inl rfl
    · rw [List.getLastD_cons, List.getLastD_cons]
      exact ih first

/-- A change of a name changes the global scope at that name or not at all. -/
theorem global_modify (s : Scopes) (name : String) (change : Identifier → Identifier) :
    (s.modify name change).global = s.global ∨
      (s.modify name change).global = s.global.modify name change := by
  obtain ⟨current, outer⟩ := s
  unfold modify
  split
  · cases outer with
    | nil => exact .inr rfl
    | cons frame outer =>
      refine .inl ?_
      show List.getLastD (frame :: outer) _ = List.getLastD (frame :: outer) _
      rw [List.getLastD_cons, List.getLastD_cons]
  · exact getLastD_modifyInnermost name change outer current

/-- What is bound in the global scope stays bound there. -/
theorem global_declare_of_some {s : Scopes} {m : String} {i : Identifier}
    (h : s.global.find? m = some i) (name : String) (j : Identifier) :
    (s.declare name j).global.find? m = some i := by
  cases hhere : s.lookupHere name with
  | some b => rwa [declare_of_bound (by simp [hhere])]
  | none =>
    rw [declare_of_free hhere]
    obtain ⟨current, outer⟩ := s
    cases outer with
    | nil =>
      show (current.bindings ++ [(name, j)]).lookup m = some i
      rw [List.lookup_append]
      show (current.find? m).or _ = some i
      rw [show current.find? m = some i from h]
      rfl
    | cons frame outer =>
      show (List.getLastD (frame :: outer) _).find? m = some i
      rw [List.getLastD_cons]
      have hlast : (List.getLastD (frame :: outer) current).find? m = some i := h
      rwa [List.getLastD_cons] at hlast

/-- A name is bound in the global scope and has been given a value there, or been reached. -/
def Reached (name : String) (s : Scopes) : Prop :=
  ∃ i, s.global.find? name = some i ∧ i.initialized = true

theorem Reached.declare {m : String} {s : Scopes} (h : s.Reached m) (name : String)
    (i : Identifier) : (s.declare name i).Reached m := by
  obtain ⟨j, hj, hinit⟩ := h
  exact ⟨j, global_declare_of_some hj name i, hinit⟩

theorem Reached.markInitialized {m : String} {s : Scopes} (h : s.Reached m) (name : String) :
    (s.markInitialized name).Reached m := by
  obtain ⟨j, hj, hinit⟩ := h
  rcases global_modify s name fun i ↦ { i with initialized := true } with hglobal | hglobal
  · refine ⟨j, ?_, hinit⟩
    show (Scopes.global (s.modify name _)).find? m = some j
    rw [hglobal, hj]
  · by_cases hm : m = name
    · refine ⟨{ j with initialized := true }, ?_, rfl⟩
      show (Scopes.global (s.modify name _)).find? m = _
      rw [hglobal, Frame.find?_modify, if_pos hm, hj]
      rfl
    · refine ⟨j, ?_, hinit⟩
      show (Scopes.global (s.modify name _)).find? m = _
      rw [hglobal, Frame.find?_modify, if_neg hm, hj]

/-- Marking a name that only the global scope binds, from a scope directly inside of it. -/
theorem reached_markInitialized {s : Scopes} {frame : Frame} {name : String}
    (houter : s.outer = [frame]) (hhere : s.lookupHere name = none)
    (hbound : (frame.find? name).isSome) : (s.markInitialized name).Reached name := by
  obtain ⟨i, hi⟩ := Option.isSome_iff_exists.1 hbound
  obtain ⟨current, outer⟩ := s
  obtain rfl : outer = [frame] := houter
  have hnot : ¬ (current.find? name).isSome := by
    rw [show current.find? name = none from hhere]
    simp
  refine ⟨{ i with initialized := true }, ?_, rfl⟩
  rw [markInitialized, modify, if_neg hnot]
  show (List.getLastD (modifyInnermost name _ [frame]) current).find? name = _
  rw [modifyInnermost, if_pos hbound, List.getLastD_cons, List.getLastD_nil, Frame.find?_modify,
    if_pos rfl, hi]
  rfl

end Scopes

end ScalarMips
