import ScalarMips.Scope

/-!
# Scopes in an arena

How scopes are stored. All scopes that were ever entered stand in one array, and each of them but
the first knows the number of the scope around it. To leave a scope moves the current number back
and removes nothing, so the order of the array is not that of the nesting once a scope has been left
and another one entered.

A scope is entered after the one around it, so numbers get smaller on the way outwards
(`parent?_lt`), and every walk along the scopes around a place ends. What the walks find is what a
stack of frames (`Scopes`) has.
-/

namespace ScalarMips

/-- A scope in an arena. -/
structure Scope where
  /-- The number of the scope around it. -/
  parent : Option Nat := none
  /-- The type returned by the function whose scope this is. -/
  returnType : Option ScalarType := none
  /-- What is known of the bound names, in no particular order. -/
  bindings : List (String × Identifier) := []
  /-- The bound names in the order of their declaration. -/
  order : List String := []
  /-- No name is bound twice. -/
  nodup : order.Nodup := by simp
  /-- The names in the order are those that are bound. -/
  mem_order : ∀ name, name ∈ order ↔ (bindings.lookup name).isSome := by simp

namespace Scope

/-- The binding of a name. -/
def find? (s : Scope) (name : String) : Option Identifier :=
  s.bindings.lookup name

theorem mem_order_iff (s : Scope) (name : String) : name ∈ s.order ↔ (s.find? name).isSome :=
  s.mem_order name

/-- Binds a name that is not yet bound. -/
def declare? (s : Scope) (name : String) (identifier : Identifier) : Option Scope :=
  if h : (s.find? name).isSome then none
  else some
    { s with
      bindings := (name, identifier) :: s.bindings
      order := s.order ++ [name]
      nodup := by
        refine List.nodup_append.2 ⟨s.nodup, by simp, fun n hn m hm heq ↦ ?_⟩
        obtain rfl := List.mem_singleton.1 hm
        exact h ((s.mem_order_iff m).1 (heq ▸ hn))
      mem_order := fun n ↦ by
        rw [List.mem_append, List.mem_singleton, s.mem_order n, List.lookup_cons]
        by_cases hn : n = name
        · simp [hn]
        · rw [beq_false_of_ne hn]
          exact or_iff_left hn }

theorem lookup_modify (bindings : List (String × Identifier)) (name : String)
    (change : Identifier → Identifier) (n : String) :
    (bindings.map fun (m, i) ↦ (m, if m = name then change i else i)).lookup n =
      (bindings.lookup n).map fun i ↦ if n = name then change i else i := by
  induction bindings with
  | nil => rfl
  | cons binding bindings ih =>
    obtain ⟨m, i⟩ := binding
    rw [List.map_cons, List.lookup_cons, List.lookup_cons]
    by_cases hn : n = m
    · simp [hn]
    · rw [beq_false_of_ne hn]
      exact ih

/-- Changes the binding of a name. -/
def modify (s : Scope) (name : String) (change : Identifier → Identifier) : Scope :=
  { s with
    bindings := s.bindings.map fun (n, i) ↦ (n, if n = name then change i else i)
    mem_order := fun n ↦ by rw [lookup_modify, Option.isSome_map, s.mem_order] }

@[simp] theorem parent_modify (s : Scope) (name : String) (change : Identifier → Identifier) :
    (s.modify name change).parent = s.parent := rfl

end Scope

/-- Scopes in the order in which they were entered. -/
structure Arena where
  /-- All scopes that were ever entered; the first one is that of the global names. -/
  scopes : Array Scope := #[{}]
  /-- The number of the current scope. -/
  current : Nat := 0
  /-- The current scope is there. -/
  current_lt : current < scopes.size := by decide
  /-- Every scope comes after the one around it. -/
  parent_lt : ∀ (i : Nat) (s : Scope) (p : Nat),
      scopes[i]? = some s → s.parent = some p → p < i := by
    rintro (_ | i) s p h hp
    · cases h
      cases hp
    · cases h
  /-- Only the first scope has none around it. -/
  global : ∀ (i : Nat) (s : Scope), scopes[i]? = some s → s.parent = none → i = 0 := by
    rintro (_ | i) s h hp
    · rfl
    · cases h

namespace Arena

/-! ### The nesting -/

/-- The scope with a given number. -/
def scope (a : Arena) (i : Nat) : Scope :=
  a.scopes[i]?.getD {}

/-- The number of the scope around the one with a given number. -/
def parent? (a : Arena) (i : Nat) : Option Nat :=
  (a.scope i).parent

theorem parent?_lt (a : Arena) {i p : Nat} (h : a.parent? i = some p) : p < i := by
  unfold parent? scope at h
  cases hs : a.scopes[i]? with
  | none =>
    rw [hs] at h
    cases h
  | some s =>
    rw [hs] at h
    exact a.parent_lt i s p hs h

/-- Visits the scopes from one of them outwards and puts together what is found there. -/
def walk {α : Type} (a : Arena) (visit : Nat → Scope → α → α) (ending : α) (i : Nat) : α :=
  visit i (a.scope i) <|
    match _h : a.parent? i with
    | none => ending
    | some p => a.walk visit ending p
termination_by i
decreasing_by exact a.parent?_lt (by assumption)

/-- How many scopes there are around the current place. -/
def depth (a : Arena) : Nat :=
  a.walk (fun _ _ depth ↦ depth + 1) 0 a.current

/-- Whether the current scope is the global one. -/
def atGlobal (a : Arena) : Bool :=
  a.current = 0

/-- The numbers of the scopes around the current place, the outermost first. -/
def chain (a : Arena) : List Nat :=
  (a.walk (fun i _ outer ↦ i :: outer) [] a.current).reverse

/-- Enters a new scope, that of a function if a return type is given. -/
def push (a : Arena) (returnType : Option ScalarType := none) : Arena where
  scopes := a.scopes.push { parent := some a.current, returnType }
  current := a.scopes.size
  current_lt := by simp
  parent_lt i s p h hp := by
    rw [Array.getElem?_push] at h
    split at h
    · rename_i hi
      cases h
      cases hp
      exact hi ▸ a.current_lt
    · exact a.parent_lt i s p h hp
  global i s h hp := by
    rw [Array.getElem?_push] at h
    split at h
    · cases h
      cases hp
    · exact a.global i s h hp

/-- Leaves the current scope, unless it is the global one. -/
def pop? (a : Arena) : Option Arena :=
  match h : a.parent? a.current with
  | none => none
  | some p => some
    { a with current := p, current_lt := Nat.lt_trans (a.parent?_lt h) a.current_lt }

/-! ### Names -/

/-- The innermost scope around the current place that binds a name. -/
def findScope (a : Arena) (name : String) : Option Nat :=
  a.walk (fun i s outer ↦ if (s.find? name).isSome then some i else outer) none a.current

/-- The innermost binding of a name. -/
def lookup (a : Arena) (name : String) : Option Identifier :=
  (a.findScope name).bind fun i ↦ (a.scope i).find? name

/-- The binding of a name in the current scope. -/
def lookupHere (a : Arena) (name : String) : Option Identifier :=
  (a.scope a.current).find? name

/-- Whether a name is bound. -/
def isDeclared (a : Arena) (name : String) : Bool :=
  (a.lookup name).isSome

/-- Whether a name is bound in the current scope. -/
def isDeclaredHere (a : Arena) (name : String) : Bool :=
  (a.lookupHere name).isSome

/-- The same arena with other bindings in one scope. -/
def put (a : Arena) (i : Nat) (s : Scope) (h : s.parent = (a.scope i).parent) : Arena where
  scopes := a.scopes.setIfInBounds i s
  current := a.current
  current_lt := by simpa using a.current_lt
  parent_lt j t p ht hp := by
    rw [Array.getElem?_setIfInBounds] at ht
    split at ht
    · rename_i hj
      split at ht
      · cases ht
        exact hj ▸ a.parent?_lt (h.symm.trans hp)
      · cases ht
    · exact a.parent_lt j t p ht hp
  global j t ht hp := by
    rw [Array.getElem?_setIfInBounds] at ht
    split at ht
    · rename_i hj
      split at ht
      · rename_i hi
        cases ht
        refine hj ▸ a.global i _ (Array.getElem?_eq_getElem hi) ?_
        have hscope : a.scope i = a.scopes[i] := by simp [scope, hi]
        rw [← hscope, ← h, hp]
      · cases ht
    · exact a.global j t ht hp

/-- Binds a name in the current scope, unless it is bound there. -/
def declare? (a : Arena) (name : String) (identifier : Identifier) : Option Arena :=
  match h : (a.scope a.current).declare? name identifier with
  | none => none
  | some s => some <| a.put a.current s <| by
    unfold Scope.declare? at h
    split at h
    · cases h
    · cases h
      rfl

/-- Changes the innermost binding of a name, if there is one. -/
def modify? (a : Arena) (name : String) (change : Identifier → Identifier) : Option Arena :=
  (a.findScope name).map fun i ↦ a.put i ((a.scope i).modify name change) (Scope.parent_modify ..)

/-- Notes that a name has been given a value, if it is bound. -/
def markInitialized? (a : Arena) (name : String) : Option Arena :=
  a.modify? name fun identifier ↦ { identifier with initialized := true }

/-- The return type of the innermost function around. -/
def returnType? (a : Arena) : Option ScalarType :=
  a.walk (fun _ s outer ↦ s.returnType.or outer) none a.current

/-- Whether a name means something of a given kind; any kind if none is given. -/
def hasKind (a : Arena) (kind : Option IdentifierKind) (name : String) : Bool :=
  match kind with
  | none => true
  | some kind => (a.lookup name).map Identifier.kind = some kind

/-- Names that were listed, in order, and the same names to look them up. -/
structure Listed where
  /-- The names in the order in which they were listed. -/
  names : List String := []
  /-- The names that were seen. -/
  seen : List String := []

/-- Lists a name if it has the given kind and was not seen yet. -/
def list (a : Arena) (kind : Option IdentifierKind) (listed : Listed) (name : String) : Listed :=
  if a.hasKind kind name && !listed.seen.contains name then
    ⟨listed.names ++ [name], name :: listed.seen⟩
  else listed

/-- The visible names of a kind, the outermost scope first. -/
def visibleNames (a : Arena) (kind : Option IdentifierKind := none) : List String :=
  (a.chain.foldl (fun listed i ↦ (a.scope i).order.foldl (a.list kind) listed) {}).names

end Arena

end ScalarMips
