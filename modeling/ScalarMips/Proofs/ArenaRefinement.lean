import Mathlib
import ScalarMips.Arena
import ScalarMips.Proofs.ScopeLaws

/-!
# Arenas and stacks of frames

Nothing that can be asked of scopes tells whether they are stored in an arena or in a stack of
frames (`arena_refines`).

An arena stands for the stack of those scopes that lie on the way from the current one outwards
(`Arena.toScopes`); scopes that were left are not on it. Every operation on the arena is the same
operation on that stack (`perform_toScopes`), and every walk finds what the stack has
(`observes_toScopes`). Both rest on the fact that numbers get smaller on the way outwards, so a
scope that is changed or entered is met at one place of the way only.
-/

namespace ScalarMips

/-! ### Scopes and frames -/

namespace Scope

/-- The frame that a scope stands for. -/
def frame (s : Scope) : Frame where
  bindings := s.order.filterMap fun name ↦ (s.find? name).map (name, ·)
  returnType := s.returnType

theorem lookup_filterMap {α : Type} (f : String → Option α) (names : List String) (name : String) :
    (names.filterMap fun n ↦ (f n).map (n, ·)).lookup name =
      if name ∈ names then f name else none := by
  induction names with
  | nil => rfl
  | cons n names ih =>
    rw [List.filterMap_cons]
    by_cases hname : name = n
    · subst hname
      rw [if_pos List.mem_cons_self]
      cases hf : f name with
      | none =>
        rw [Option.map_none, ih, hf, ite_self]
      | some a => exact List.lookup_cons_self
    · have hmem : name ∈ n :: names ↔ name ∈ names :=
        List.mem_cons.trans (or_iff_right hname)
      simp only [hmem]
      cases f n with
      | none => exact ih
      | some a =>
        rw [Option.map_some, List.lookup_cons, beq_false_of_ne hname]
        exact ih

theorem find?_frame (s : Scope) (name : String) : s.frame.find? name = s.find? name := by
  rw [Frame.find?, frame, lookup_filterMap]
  split
  · rfl
  · rename_i hname
    rw [s.mem_order_iff, Option.not_isSome_iff_eq_none] at hname
    exact hname.symm

theorem names_frame (s : Scope) : s.frame.bindings.map Prod.fst = s.order := by
  have hbound : ∀ names : List String, (∀ n ∈ names, (s.find? n).isSome) →
      (names.filterMap fun n ↦ (s.find? n).map (n, ·)).map Prod.fst = names := by
    intro names hnames
    induction names with
    | nil => rfl
    | cons n names ih =>
      obtain ⟨hfirst, hrest⟩ := List.forall_mem_cons.1 hnames
      obtain ⟨i, hi⟩ := Option.isSome_iff_exists.1 hfirst
      rw [List.filterMap_cons, hi]
      exact congrArg (n :: ·) (ih hrest)
  exact hbound s.order fun n hn ↦ (s.mem_order_iff n).1 hn

theorem frame_declare? (s : Scope) (name : String) (i : Identifier) :
    (s.declare? name i).map frame = s.frame.declare? name i := by
  unfold declare? Frame.declare?
  rw [find?_frame]
  by_cases hbound : (s.find? name).isSome
  · rw [dif_pos hbound, if_pos hbound, Option.map_none]
  · rw [dif_neg hbound, if_neg hbound, Option.map_some]
    -- The new name is last, and no earlier one is bound anew.
    have hsame : ∀ n ∈ s.order, List.lookup n ((name, i) :: s.bindings) = s.find? n := by
      intro n hn
      have hne : n ≠ name := by
        rintro rfl
        exact hbound ((s.mem_order_iff n).1 hn)
      rw [List.lookup_cons, beq_false_of_ne hne]
      rfl
    have hearlier : (s.order.filterMap fun n ↦
        (List.lookup n ((name, i) :: s.bindings)).map (n, ·)) = s.frame.bindings := by
      refine List.filterMap_congr fun n hn ↦ ?_
      rw [hsame n hn]
    have hlast : [name].filterMap (fun n ↦
        (List.lookup n ((name, i) :: s.bindings)).map (n, ·)) = [(name, i)] := by
      rw [List.filterMap_cons, List.lookup_cons_self]
      rfl
    simp only [frame, find?, List.filterMap_append] at hearlier ⊢
    rw [hearlier, hlast]

theorem frame_modify (s : Scope) (name : String) (change : Identifier → Identifier) :
    (s.modify name change).frame = s.frame.modify name change := by
  have hbindings : ∀ names : List String,
      (names.filterMap fun n ↦ ((s.modify name change).find? n).map (n, ·)) =
        (names.filterMap fun n ↦ (s.find? n).map (n, ·)).map fun bound ↦
          (bound.1, if bound.1 = name then change bound.2 else bound.2) := by
    intro names
    rw [List.map_filterMap]
    refine List.filterMap_congr fun n _ ↦ ?_
    have hfind : (s.modify name change).find? n =
        (s.find? n).map fun i ↦ if n = name then change i else i :=
      lookup_modify s.bindings name change n
    rw [hfind, Option.map_map, Option.map_map]
    rfl
  exact congrArg (Frame.mk · s.returnType) (hbindings s.order)

end Scope

namespace Scopes

/-- All names that are bound, those of the outermost frame first. -/
def declared (s : Scopes) : List String :=
  s.frames.reverse.flatMap fun frame ↦ frame.bindings.map Prod.fst

theorem mem_declared_iff (s : Scopes) (name : String) :
    name ∈ s.declared ↔ (s.lookup name).isSome := by
  have hbound : ∀ frame : Frame,
      name ∈ frame.bindings.map Prod.fst ↔ (frame.find? name).isSome := by
    intro frame
    rw [Frame.find?, List.lookup_isSome_iff]
    simp
  rw [declared, lookup, List.findSome?_isSome_iff, List.mem_flatMap]
  simp only [List.mem_reverse, hbound]

end Scopes

/-! ### The way outwards -/

namespace Arena

variable {a b : Arena} {i j p : Nat}

variable {α : Type} {visit : Nat → Scope → α → α} {ending : α}

theorem walk_of_none (h : a.parent? i = none) :
    a.walk visit ending i = visit i (a.scope i) ending := by
  rw [walk]
  split
  · rfl
  · rename_i hp
    rw [h] at hp
    cases hp

theorem walk_of_some (h : a.parent? i = some p) :
    a.walk visit ending i = visit i (a.scope i) (a.walk visit ending p) := by
  rw [walk]
  split
  · rename_i hp
    rw [h] at hp
    cases hp
  · rename_i q hp
    rw [h] at hp
    cases hp
    rfl

/-- The numbers of the scopes from one of them outwards. -/
def outward (a : Arena) (i : Nat) : List Nat :=
  a.walk (fun i _ outer ↦ i :: outer) [] i

theorem outward_of_none (h : a.parent? i = none) : a.outward i = [i] :=
  walk_of_none h

theorem outward_of_some (h : a.parent? i = some p) : a.outward i = i :: a.outward p :=
  walk_of_some h

/-- What is kept on the way inwards holds of every scope. -/
theorem inwards (a : Arena) {motive : Nat → Prop} (outermost : ∀ i, a.parent? i = none → motive i)
    (inner : ∀ i p, a.parent? i = some p → motive p → motive i) (i : Nat) : motive i := by
  induction i using Nat.strong_induction_on with
  | _ i ih =>
    cases h : a.parent? i with
    | none => exact outermost i h
    | some p => exact inner i p h (ih p (a.parent?_lt h))

theorem exists_outward (a : Arena) (i : Nat) : ∃ rest, a.outward i = i :: rest := by
  cases h : a.parent? i with
  | none => exact ⟨[], outward_of_none h⟩
  | some p => exact ⟨_, outward_of_some h⟩

theorem le_of_mem_outward : ∀ j ∈ a.outward i, j ≤ i := by
  induction i using a.inwards with
  | outermost i h =>
    rw [outward_of_none h]
    simp
  | inner i p h ih =>
    rw [outward_of_some h, List.forall_mem_cons]
    exact ⟨Nat.le_refl i, fun j hj ↦ Nat.le_trans (ih j hj) (Nat.le_of_lt (a.parent?_lt h))⟩

/-- Numbers get smaller on the way outwards. -/
theorem pairwise_outward (a : Arena) (i : Nat) : (a.outward i).Pairwise (· > ·) := by
  induction i using a.inwards with
  | outermost i h =>
    rw [outward_of_none h]
    exact List.pairwise_singleton _ i
  | inner i p h ih =>
    rw [outward_of_some h, List.pairwise_cons]
    exact ⟨fun j hj ↦ Nat.lt_of_le_of_lt (le_of_mem_outward j hj) (a.parent?_lt h), ih⟩

theorem outward_congr (h : ∀ j ≤ i, b.parent? j = a.parent? j) : b.outward i = a.outward i := by
  induction i using a.inwards with
  | outermost i hi => rw [outward_of_none hi, outward_of_none ((h i (Nat.le_refl i)).trans hi)]
  | inner i p hi ih =>
    rw [outward_of_some hi, outward_of_some ((h i (Nat.le_refl i)).trans hi)]
    exact congrArg _ (ih fun j hj ↦ h j (Nat.le_trans hj (Nat.le_of_lt (a.parent?_lt hi))))

/-- The frames from a scope outwards. -/
def framesFrom (a : Arena) (i : Nat) : List Frame :=
  (a.outward i).map fun j ↦ (a.scope j).frame

theorem framesFrom_congr (h : ∀ j ≤ i, b.scope j = a.scope j) :
    b.framesFrom i = a.framesFrom i := by
  unfold framesFrom
  rw [outward_congr fun j hj ↦ congrArg Scope.parent (h j hj)]
  exact List.map_congr_left fun j hj ↦ congrArg Scope.frame (h j (le_of_mem_outward j hj))

/-- The stack of frames that an arena stands for. -/
def toScopes (a : Arena) : Scopes :=
  ⟨(a.scope a.current).frame, (a.framesFrom a.current).tail⟩

theorem frames_toScopes (a : Arena) : a.toScopes.frames = a.framesFrom a.current := by
  obtain ⟨rest, hrest⟩ := a.exists_outward a.current
  rw [Scopes.frames, toScopes, framesFrom, hrest]
  rfl

theorem toScopes_eq {s : Scopes} (h : a.framesFrom a.current = s.frames) : a.toScopes = s := by
  have hframes := a.frames_toScopes.trans h
  obtain ⟨current, outer⟩ := s
  obtain ⟨hcurrent, houter⟩ := List.cons.inj hframes
  exact congrArg₂ Scopes.mk hcurrent houter

/-! ### Operations -/

theorem scope_of_lt (h : i < a.scopes.size) : a.scope i = a.scopes[i] := by
  simp [scope, h]

theorem scope_push (a : Arena) (returnType : Option ScalarType) (i : Nat) :
    (a.push returnType).scope i =
      if i = a.scopes.size then { parent := some a.current, returnType } else a.scope i := by
  unfold scope push
  rw [Array.getElem?_push]
  split <;> rfl

theorem scope_put {s : Scope} (h : s.parent = (a.scope i).parent) (hi : i < a.scopes.size)
    (j : Nat) : (a.put i s h).scope j = if j = i then s else a.scope j := by
  unfold scope put
  simp only [Array.getElem?_setIfInBounds]
  by_cases hj : j = i
  · simp [hj, hi]
  · simp [hj, Ne.symm hj]

theorem parent?_put {s : Scope} (h : s.parent = (a.scope i).parent) (hi : i < a.scopes.size)
    (j : Nat) : (a.put i s h).parent? j = a.parent? j := by
  unfold parent?
  rw [scope_put h hi]
  split
  · rename_i hj
    rw [h, hj]
  · rfl

theorem toScopes_push (a : Arena) (returnType : Option ScalarType) :
    (a.push returnType).toScopes = a.toScopes.push returnType := by
  have hcurrent : (a.push returnType).current = a.scopes.size := rfl
  have hparent : (a.push returnType).parent? a.scopes.size = some a.current := by
    rw [parent?, scope_push, if_pos rfl]
  have hframe : ((a.push returnType).scope a.scopes.size).frame = { returnType } := by
    rw [scope_push, if_pos rfl]
    rfl
  have houter : (a.push returnType).framesFrom a.current = a.framesFrom a.current := by
    refine framesFrom_congr fun j hj ↦ ?_
    have hlt : j < a.scopes.size := Nat.lt_of_le_of_lt hj a.current_lt
    rw [scope_push, if_neg (Nat.ne_of_lt hlt)]
  refine toScopes_eq ?_
  rw [hcurrent, framesFrom, outward_of_some hparent, List.map_cons, hframe]
  have hpush : (a.toScopes.push returnType).frames = { returnType } :: a.toScopes.frames := rfl
  rw [hpush, frames_toScopes]
  exact congrArg _ houter

theorem toScopes_pop? (a : Arena) : a.pop?.map toScopes = a.toScopes.pop? := by
  unfold pop?
  split
  · rename_i h
    rw [Scopes.pop?, toScopes, framesFrom, outward_of_none h]
    rfl
  · rename_i p h
    obtain ⟨rest, hrest⟩ := a.exists_outward p
    rw [Scopes.pop?, toScopes, framesFrom, outward_of_some h, hrest]
    have hframes : a.framesFrom p = (a.scope p).frame :: rest.map fun j ↦ (a.scope j).frame := by
      rw [framesFrom, hrest, List.map_cons]
    let b : Arena :=
      { a with current := p, current_lt := Nat.lt_trans (a.parent?_lt h) a.current_lt }
    have hsame : b.framesFrom p = a.framesFrom p := framesFrom_congr fun _ _ ↦ rfl
    exact congrArg some (toScopes_eq (hsame.trans hframes))

/-- A change of the current scope changes the current frame only. -/
theorem framesFrom_put {s : Scope} (h : s.parent = (a.scope i).parent) (hi : i < a.scopes.size) :
    (a.put i s h).framesFrom i = s.frame :: (a.framesFrom i).tail := by
  have hself : (a.put i s h).scope i = s := (scope_put h hi i).trans (if_pos rfl)
  unfold framesFrom
  rw [outward_congr fun j _ ↦ parent?_put h hi j]
  obtain ⟨rest, hrest⟩ := a.exists_outward i
  have hpairwise := a.pairwise_outward i
  rw [hrest, List.pairwise_cons] at hpairwise
  rw [hrest, List.map_cons, List.map_cons, List.tail_cons, hself]
  refine congrArg _ (List.map_congr_left fun j hj ↦ ?_)
  rw [scope_put h hi, if_neg (Nat.ne_of_lt (hpairwise.1 j hj))]

theorem toScopes_declare? (a : Arena) (name : String) (identifier : Identifier) :
    (a.declare? name identifier).map toScopes = a.toScopes.declare? name identifier := by
  have hframe := (a.scope a.current).frame_declare? name identifier
  show _ = ((a.scope a.current).frame.declare? name identifier).map _
  rw [← hframe]
  unfold declare?
  split
  · rename_i h
    rw [h]
    rfl
  · rename_i s h
    simp only [h, Option.map_some]
    exact congrArg some (toScopes_eq (framesFrom_put _ a.current_lt))

/-! ### What walks find -/

/-- A walk sees the scopes on its way and nothing else. -/
theorem walk_eq_foldr (a : Arena) (visit : Nat → Scope → α → α) (ending : α) (i : Nat) :
    a.walk visit ending i = (a.outward i).foldr (fun j ↦ visit j (a.scope j)) ending := by
  induction i using a.inwards with
  | outermost i h => rw [walk_of_none h, outward_of_none h, List.foldr_cons, List.foldr_nil]
  | inner i p h ih => rw [walk_of_some h, outward_of_some h, List.foldr_cons, ih]

theorem depth_toScopes (a : Arena) : a.depth = a.toScopes.depth := by
  have hlength : ∀ indices : List Nat, indices.foldr (fun _ n ↦ n + 1) 0 = indices.length := by
    intro indices
    induction indices with
    | nil => rfl
    | cons _ _ ih => exact congrArg (· + 1) ih
  rw [depth, walk_eq_foldr, hlength, Scopes.depth, frames_toScopes, framesFrom, List.length_map]

/-- The current scope is the first of the arena if there is none around it. -/
theorem atGlobal_toScopes (a : Arena) : a.atGlobal = a.toScopes.atGlobal := by
  rw [atGlobal, Scopes.atGlobal, toScopes, framesFrom]
  cases h : a.parent? a.current with
  | none =>
    have hcurrent : a.current = 0 := by
      refine a.global a.current _ (Array.getElem?_eq_getElem a.current_lt) ?_
      rw [← scope_of_lt a.current_lt]
      exact h
    rw [outward_of_none h, decide_eq_true hcurrent]
    rfl
  | some p =>
    have hcurrent : a.current ≠ 0 := Nat.ne_of_gt (Nat.zero_lt_of_lt (a.parent?_lt h))
    obtain ⟨rest, hrest⟩ := a.exists_outward p
    rw [outward_of_some h, hrest, decide_eq_false hcurrent]
    rfl

theorem findScope_eq (a : Arena) (name : String) : a.findScope name =
    (a.outward a.current).find? fun j ↦ ((a.scope j).find? name).isSome := by
  have hfind : ∀ indices : List Nat,
      indices.foldr (fun j outer ↦ if ((a.scope j).find? name).isSome then some j else outer) none =
        indices.find? fun j ↦ ((a.scope j).find? name).isSome := by
    intro indices
    induction indices with
    | nil => rfl
    | cons j indices ih =>
      rw [List.foldr_cons, List.find?_cons, ih]
      cases ((a.scope j).find? name).isSome <;> rfl
  rw [findScope, walk_eq_foldr, hfind]

/-- The binding in the innermost scope that has one is the first binding on the way. -/
theorem lookup_toScopes (a : Arena) (name : String) : a.lookup name = a.toScopes.lookup name := by
  have hfind : ∀ indices : List Nat,
      ((indices.find? fun j ↦ ((a.scope j).find? name).isSome).bind
        fun j ↦ (a.scope j).find? name) =
          (indices.map fun j ↦ (a.scope j).frame).findSome? fun frame ↦ frame.find? name := by
    intro indices
    induction indices with
    | nil => rfl
    | cons j indices ih =>
      rw [List.find?_cons, List.map_cons, List.findSome?_cons, Scope.find?_frame]
      cases h : (a.scope j).find? name with
      | none => exact ih
      | some i => exact h
  rw [lookup, findScope_eq, hfind, Scopes.lookup, frames_toScopes]
  rfl

theorem lookupHere_toScopes (a : Arena) (name : String) :
    a.lookupHere name = a.toScopes.lookupHere name :=
  ((a.scope a.current).find?_frame name).symm

theorem returnType?_toScopes (a : Arena) : a.returnType? = a.toScopes.returnType? := by
  have hfind : ∀ indices : List Nat,
      indices.foldr (fun j outer ↦ (a.scope j).returnType.or outer) none =
        (indices.map fun j ↦ (a.scope j).frame).findSome? Frame.returnType := by
    intro indices
    induction indices with
    | nil => rfl
    | cons j indices ih =>
      rw [List.foldr_cons, List.map_cons, List.findSome?_cons]
      have hframe : (a.scope j).frame.returnType = (a.scope j).returnType := rfl
      rw [hframe]
      cases (a.scope j).returnType with
      | none => exact ih
      | some type => rfl
  rw [returnType?, walk_eq_foldr, hfind, Scopes.returnType?, frames_toScopes]
  rfl

/-! ### Visible names -/

theorem hasKind_toScopes (a : Arena) (kind : Option IdentifierKind) (name : String) :
    a.hasKind kind name = a.toScopes.hasKind kind name := by
  cases kind with
  | none => rfl
  | some kind =>
    show decide ((a.lookup name).map Identifier.kind = some kind) =
      decide ((a.toScopes.lookup name).map Identifier.kind = some kind)
    rw [lookup_toScopes]

/-- All names that are bound around the current place, the outermost scope first. -/
def declared (a : Arena) : List String :=
  a.chain.flatMap fun i ↦ (a.scope i).order

theorem declared_toScopes (a : Arena) : a.declared = a.toScopes.declared := by
  rw [declared, chain, Scopes.declared, frames_toScopes, framesFrom, ← List.map_reverse,
    List.flatMap_map]
  simp only [Scope.names_frame]
  rfl

theorem eraseDups_concat (names : List String) (last : String) :
    (names ++ [last]).eraseDups =
      if last ∈ names then names.eraseDups else names.eraseDups ++ [last] := by
  rw [List.eraseDups_append, List.removeAll, List.filter_cons, List.filter_nil]
  by_cases h : last ∈ names
  · simp [h]
  · simp [h, List.eraseDups_cons]

/-- Listing the names of a kind one after another keeps the first of each. -/
theorem foldl_list (a : Arena) (kind : Option IdentifierKind) (names : List String) :
    (names.foldl (a.list kind) {}).names = (names.filter (a.hasKind kind)).eraseDups ∧
      ∀ name, name ∈ (names.foldl (a.list kind) {}).seen ↔
        name ∈ names.filter (a.hasKind kind) := by
  induction names using List.reverseRecOn with
  | nil => exact ⟨rfl, fun name ↦ Iff.rfl⟩
  | append_singleton names last ih =>
    obtain ⟨hnames, hseen⟩ := ih
    rw [List.foldl_append, List.foldl_cons, List.foldl_nil, list, List.filter_append]
    by_cases hkind : a.hasKind kind last
    · rw [List.filter_cons_of_pos hkind, List.filter_nil, eraseDups_concat]
      by_cases hmem : last ∈ names.filter (a.hasKind kind)
      · have hlast := (hseen last).2 hmem
        rw [if_neg (by simp [hlast]), if_pos hmem]
        refine ⟨hnames, fun name ↦ (hseen name).trans ?_⟩
        rw [List.mem_append, List.mem_singleton]
        exact ⟨.inl, fun h ↦ h.elim id fun heq ↦ heq ▸ hmem⟩
      · have hlast := mt (hseen last).1 hmem
        rw [if_pos (by simp [hkind, hlast]), if_neg hmem, hnames]
        refine ⟨rfl, fun name ↦ ?_⟩
        rw [List.mem_cons, List.mem_append, List.mem_singleton, hseen]
        exact Or.comm
    · rw [List.filter_cons_of_neg hkind, List.filter_nil, List.append_nil,
        if_neg (by simp [hkind])]
      exact ⟨hnames, hseen⟩

theorem visibleNames_eq (a : Arena) (kind : Option IdentifierKind) :
    a.visibleNames kind = (a.declared.filter (a.hasKind kind)).eraseDups := by
  rw [visibleNames, ← (a.foldl_list kind a.declared).1, declared, List.foldl_flatMap]

theorem visibleNames_toScopes (a : Arena) (kind : Option IdentifierKind) :
    a.visibleNames kind = a.toScopes.visibleNames kind := by
  have hkind : a.hasKind kind = a.toScopes.hasKind kind := funext (a.hasKind_toScopes kind)
  rw [visibleNames_eq, declared_toScopes, hkind]
  rfl

/-- The first occurrences of some names stand in the order of all names. -/
theorem pairwise_eraseDups (names : List String) (keep : String → Bool) :
    (names.filter keep).eraseDups.Pairwise fun x y ↦ names.idxOf x < names.idxOf y := by
  induction names using List.reverseRecOn with
  | nil => exact .nil
  | append_singleton names last ih =>
    have hmem : ∀ x ∈ (names.filter keep).eraseDups, x ∈ names := fun x hx ↦
      (List.mem_filter.1 (List.mem_eraseDups.1 hx)).1
    have hearlier : (names.filter keep).eraseDups.Pairwise
        fun x y ↦ (names ++ [last]).idxOf x < (names ++ [last]).idxOf y := by
      refine ih.imp_of_mem fun {x y} hx hy hlt ↦ ?_
      rwa [List.idxOf_append_of_mem (hmem x hx), List.idxOf_append_of_mem (hmem y hy)]
    rw [List.filter_append]
    by_cases hkeep : keep last
    · rw [List.filter_cons_of_pos hkeep, List.filter_nil, eraseDups_concat]
      split
      · exact hearlier
      · rename_i hnew
        have hlast : last ∉ names := fun h ↦ hnew (List.mem_filter.2 ⟨h, hkeep⟩)
        refine List.pairwise_append.2 ⟨hearlier, List.pairwise_singleton _ _, fun x hx y hy ↦ ?_⟩
        obtain rfl := List.mem_singleton.1 hy
        rw [List.idxOf_append_of_mem (hmem x hx), List.idxOf_append_of_notMem hlast]
        exact Nat.lt_add_right _ (List.idxOf_lt_length_of_mem (hmem x hx))
    · rw [List.filter_cons_of_neg hkeep, List.filter_nil, List.append_nil]
      exact hearlier

theorem mem_declared_iff (a : Arena) (name : String) :
    name ∈ a.declared ↔ (a.lookup name).isSome := by
  rw [declared_toScopes, lookup_toScopes]
  exact a.toScopes.mem_declared_iff name

/-- A name is listed if its innermost binding has the kind that is asked for. -/
theorem mem_visibleNames (a : Arena) (kind : Option IdentifierKind) (name : String) :
    name ∈ a.visibleNames kind ↔
      ∃ i, a.lookup name = some i ∧ ∀ k, kind = some k → i.kind = k := by
  rw [visibleNames_eq, List.mem_eraseDups, List.mem_filter, mem_declared_iff,
    Option.isSome_iff_exists]
  constructor
  · rintro ⟨⟨i, hi⟩, hkind⟩
    refine ⟨i, hi, fun k hk ↦ ?_⟩
    subst hk
    simpa [hasKind, hi] using hkind
  · rintro ⟨i, hi, hkind⟩
    refine ⟨⟨i, hi⟩, ?_⟩
    cases kind with
    | none => rfl
    | some k => simpa [hasKind, hi] using hkind k rfl

/-! ### Changing a binding -/

/-- A change of the innermost binding hits the first frame on the way that has one. -/
theorem map_modify {name : String} {change : Identifier → Identifier} {j : Nat}
    (hscope : ∀ k, b.scope k = if k = j then (a.scope j).modify name change else a.scope k) :
    ∀ {indices : List Nat}, indices.Pairwise (· > ·) →
      indices.find? (fun k ↦ ((a.scope k).find? name).isSome) = some j →
      (indices.map fun k ↦ (b.scope k).frame) =
        Scopes.modifyInnermost name change (indices.map fun k ↦ (a.scope k).frame)
  | [], _, h => absurd h nofun
  | k :: indices, hpairwise, h => by
    obtain ⟨hfirst, hrest⟩ := List.pairwise_cons.1 hpairwise
    rw [List.map_cons, List.map_cons, Scopes.modifyInnermost, Scope.find?_frame]
    by_cases hbound : ((a.scope k).find? name).isSome
    · -- The scope itself is changed, and those around it have smaller numbers.
      rw [List.find?_cons_of_pos (p := fun k ↦ ((a.scope k).find? name).isSome) hbound] at h
      cases h
      rw [if_pos hbound, hscope, if_pos rfl, Scope.frame_modify]
      refine congrArg _ (List.map_congr_left fun i hi ↦ ?_)
      rw [hscope, if_neg (Nat.ne_of_lt (hfirst i hi))]
    · -- The scope that is changed is further out.
      rw [List.find?_cons_of_neg (p := fun k ↦ ((a.scope k).find? name).isSome) hbound] at h
      have hne : k ≠ j := Nat.ne_of_gt (hfirst j (List.mem_of_find?_eq_some h))
      rw [if_neg hbound, hscope, if_neg hne, map_modify hscope hrest h]

theorem toScopes_modify? (a : Arena) (name : String) (change : Identifier → Identifier) :
    (a.modify? name change).map toScopes =
      if (a.toScopes.lookup name).isSome then some (a.toScopes.modify name change) else none := by
  rw [← lookup_toScopes, lookup, modify?]
  cases h : a.findScope name with
  | none => rfl
  | some j =>
    rw [findScope_eq] at h
    have hbound : ((a.scope j).find? name).isSome :=
      List.find?_some (p := fun k ↦ ((a.scope k).find? name).isSome) h
    have hj : j < a.scopes.size :=
      Nat.lt_of_le_of_lt (le_of_mem_outward j (List.mem_of_find?_eq_some h)) a.current_lt
    have hparent := (a.scope j).parent_modify name change
    rw [Option.bind_some, if_pos hbound]
    refine congrArg some (toScopes_eq ?_)
    rw [Scopes.frames_modify, frames_toScopes]
    have houtward : (a.put j _ hparent).outward a.current = a.outward a.current :=
      outward_congr fun k _ ↦ parent?_put hparent hj k
    have hmap := map_modify (scope_put hparent hj) (a.pairwise_outward a.current) h
    exact (congrArg (List.map _) houtward).trans hmap

/-! ### Sequences of operations -/

end Arena

/-- Something that is done to scopes. -/
inductive ScopeOperation where
  /-- A scope is entered. -/
  | push (returnType : Option ScalarType)
  /-- A scope is left. -/
  | pop
  /-- A name is bound in the current scope. -/
  | declare (name : String) (identifier : Identifier)
  /-- A name is given a value. -/
  | markInitialized (name : String)
  /-- What is known of a name is replaced. -/
  | overwrite (name : String) (identifier : Identifier)

/-- An operation on a stack of frames, if it can be done. -/
def Scopes.perform (s : Scopes) : ScopeOperation → Option Scopes
  | .push returnType => some (s.push returnType)
  | .pop => s.pop?
  | .declare name identifier => s.declare? name identifier
  | .markInitialized name => if (s.lookup name).isSome then some (s.markInitialized name) else none
  | .overwrite name identifier =>
    if (s.lookup name).isSome then some (s.modify name fun _ ↦ identifier) else none

/-- An operation on an arena, if it can be done. -/
def Arena.perform (a : Arena) : ScopeOperation → Option Arena
  | .push returnType => some (a.push returnType)
  | .pop => a.pop?
  | .declare name identifier => a.declare? name identifier
  | .markInitialized name => a.markInitialized? name
  | .overwrite name identifier => a.modify? name fun _ ↦ identifier

/-- One operation after another. One that cannot be done changes nothing. The answers say which ones
were done. -/
def ScopeOperation.run {σ : Type} (perform : σ → ScopeOperation → Option σ) (s : σ) :
    List ScopeOperation → List Bool × σ
  | [] => ([], s)
  | operation :: operations =>
    let next := perform s operation
    let rest := run perform (next.getD s) operations
    (next.isSome :: rest.1, rest.2)

namespace Arena

theorem perform_toScopes (a : Arena) (operation : ScopeOperation) :
    (a.perform operation).map toScopes = a.toScopes.perform operation := by
  cases operation with
  | push returnType => exact congrArg some (a.toScopes_push returnType)
  | pop => exact a.toScopes_pop?
  | declare name identifier => exact a.toScopes_declare? name identifier
  | markInitialized name => exact a.toScopes_modify? name _
  | overwrite name identifier => exact a.toScopes_modify? name _

theorem run_toScopes (a : Arena) (operations : List ScopeOperation) :
    ScopeOperation.run Scopes.perform a.toScopes operations =
      (ScopeOperation.run perform a operations).map id toScopes := by
  induction operations generalizing a with
  | nil => rfl
  | cons operation operations ih =>
    have hperform := a.perform_toScopes operation
    have hnext : (a.toScopes.perform operation).getD a.toScopes =
        ((a.perform operation).getD a).toScopes := by
      rw [← hperform]
      cases a.perform operation <;> rfl
    simp only [ScopeOperation.run, hnext, ih]
    rw [← hperform, Option.isSome_map]
    rfl

/-- Nothing that can be asked tells an arena from a stack of frames. -/
structure Observes (a : Arena) (s : Scopes) : Prop where
  lookup : ∀ name, a.lookup name = s.lookup name
  lookupHere : ∀ name, a.lookupHere name = s.lookupHere name
  isDeclared : ∀ name, a.isDeclared name = (s.lookup name).isSome
  isDeclaredHere : ∀ name, a.isDeclaredHere name = (s.lookupHere name).isSome
  depth : a.depth = s.depth
  atGlobal : a.atGlobal = s.atGlobal
  returnType? : a.returnType? = s.returnType?
  visibleNames : ∀ kind, a.visibleNames kind = s.visibleNames kind

theorem observes_toScopes (a : Arena) : a.Observes a.toScopes where
  lookup := a.lookup_toScopes
  lookupHere := a.lookupHere_toScopes
  isDeclared name := congrArg Option.isSome (a.lookup_toScopes name)
  isDeclaredHere name := congrArg Option.isSome (a.lookupHere_toScopes name)
  depth := a.depth_toScopes
  atGlobal := a.atGlobal_toScopes
  returnType? := a.returnType?_toScopes
  visibleNames := a.visibleNames_toScopes

theorem atGlobal_iff (a : Arena) : a.atGlobal ↔ a.depth = 1 := by
  rw [atGlobal_toScopes, depth_toScopes, Scopes.atGlobal, Scopes.depth, Scopes.frames,
    List.length_cons, List.isEmpty_iff_length_eq_zero]
  omega

end Arena

/-- **An arena is as good as a stack of frames.** After any operations on a new arena and on a new
stack of frames, the same ones could be done, and whatever is asked has the same answer. The numbers
of the scopes around the current place get smaller outwards, the current scope is the global one
exactly at depth one, and the visible names of a kind are those whose innermost binding has the
kind, each once, in the order of their outermost bindings. -/
theorem arena_refines (operations : List ScopeOperation) :
    ∃ answers a s, ScopeOperation.run Arena.perform {} operations = (answers, a) ∧
      ScopeOperation.run Scopes.perform {} operations = (answers, s) ∧ a.Observes s ∧
      (∀ i p, a.parent? i = some p → p < i) ∧ a.chain.Pairwise (· < ·) ∧
      (a.atGlobal ↔ a.depth = 1) ∧
      ∀ kind, (a.visibleNames kind).Nodup ∧
        (∀ name, name ∈ a.visibleNames kind ↔
          ∃ i, a.lookup name = some i ∧ ∀ k, kind = some k → i.kind = k) ∧
        (a.visibleNames kind).Pairwise fun x y ↦ a.declared.idxOf x < a.declared.idxOf y := by
  have hnew : ({} : Arena).toScopes = {} :=
    Arena.toScopes_eq (congrArg (List.map _) (Arena.outward_of_none rfl))
  have hrun := Arena.run_toScopes {} operations
  rw [hnew] at hrun
  generalize ScopeOperation.run Arena.perform {} operations = result at hrun
  obtain ⟨answers, a⟩ := result
  refine ⟨answers, a, a.toScopes, rfl, hrun, a.observes_toScopes, fun i p ↦ a.parent?_lt, ?_,
    a.atGlobal_iff, fun kind ↦ ?_⟩
  · exact List.pairwise_reverse.2 (a.pairwise_outward a.current)
  · have horder := Arena.pairwise_eraseDups a.declared (a.hasKind kind)
    rw [← Arena.visibleNames_eq] at horder
    refine ⟨horder.imp fun {x y} hlt heq ↦ ?_, a.mem_visibleNames kind, horder⟩
    exact Nat.lt_irrefl _ (heq ▸ hlt)

end ScalarMips
