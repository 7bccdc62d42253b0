import ScalarMips.Tree.Basic

/-!
# Scopes

What is known of the names that are visible at one place of a program: a stack of frames, each of
which binds names in the order of their declaration. The bottom frame holds the global names and is
never left.

A name means its innermost binding. Declaring a name binds it in the current frame only, and never
replaces a binding of that frame; an update changes the innermost binding and nothing else.
-/

namespace ScalarMips

/-- Whether a name stands for a variable or for a function. -/
inductive IdentifierKind where
  | var
  | fn
  deriving DecidableEq, Inhabited

namespace IdentifierKind

/-- The word for a kind. -/
def name : IdentifierKind → String
  | var => "variable"
  | fn => "function"

end IdentifierKind

/-- What is known of a name. -/
structure Identifier where
  /-- Whether it is a variable or a function. -/
  kind : IdentifierKind := .var
  /-- The type of the variable, or the one the function returns. -/
  type : ScalarType := .int
  /-- The parameters of the function. -/
  parameters : List Declarator := []
  /-- Whether the variable has been given a value, or the function has been reached. -/
  initialized : Bool := false
  /-- The name that is unique in the whole program. -/
  uniqueName : String := ""
  deriving DecidableEq, Inhabited

/-- The names bound in one scope. -/
structure Frame where
  /-- The bindings in the order of their declaration; no name is bound twice. -/
  bindings : List (String × Identifier) := []
  /-- The type returned by the function whose scope this is. -/
  returnType : Option ScalarType := none
  deriving DecidableEq, Inhabited

namespace Frame

/-- The binding of a name. -/
def find? (f : Frame) (name : String) : Option Identifier :=
  f.bindings.lookup name

/-- Binds a name that is not yet bound. -/
def declare? (f : Frame) (name : String) (identifier : Identifier) : Option Frame :=
  if (f.find? name).isSome then none
  else some { f with bindings := f.bindings ++ [(name, identifier)] }

/-- Changes the binding of a name. -/
def modify (f : Frame) (name : String) (change : Identifier → Identifier) : Frame :=
  { f with
    bindings := f.bindings.map fun (n, identifier) ↦
      (n, if n = name then change identifier else identifier) }

end Frame

/-- A stack of frames. -/
structure Scopes where
  /-- The innermost frame. -/
  current : Frame := {}
  /-- The frames around it, from the inside to the outside. -/
  outer : List Frame := []
  deriving DecidableEq, Inhabited

namespace Scopes

/-! ### The stack -/

/-- All frames, the innermost first. -/
def frames (s : Scopes) : List Frame :=
  s.current :: s.outer

/-- How many frames there are. -/
def depth (s : Scopes) : Nat :=
  s.frames.length

/-- Whether the current frame is the global one. -/
def atGlobal (s : Scopes) : Bool :=
  s.outer.isEmpty

/-- Enters a new scope, that of a function if a return type is given. -/
def push (s : Scopes) (returnType : Option ScalarType := none) : Scopes :=
  ⟨{ returnType }, s.frames⟩

/-- Leaves the current scope, unless it is the global one. -/
def pop? (s : Scopes) : Option Scopes :=
  match s.outer with
  | [] => none
  | frame :: outer => some ⟨frame, outer⟩

/-- Leaves the current scope; the global one is not left. -/
def pop (s : Scopes) : Scopes :=
  s.pop?.getD s

@[simp] theorem pop_push (s : Scopes) (returnType : Option ScalarType) :
    (s.push returnType).pop = s := rfl

/-! ### Names -/

/-- The innermost binding of a name. -/
def lookup (s : Scopes) (name : String) : Option Identifier :=
  s.frames.findSome? fun frame ↦ frame.find? name

/-- The binding of a name in the current scope. -/
def lookupHere (s : Scopes) (name : String) : Option Identifier :=
  s.current.find? name

/-- Binds a name in the current scope, unless it is bound there. -/
def declare? (s : Scopes) (name : String) (identifier : Identifier) : Option Scopes :=
  (s.current.declare? name identifier).map fun current ↦ { s with current }

/-- Binds a name in the current scope; a binding that is already there stays. -/
def declare (s : Scopes) (name : String) (identifier : Identifier) : Scopes :=
  (s.declare? name identifier).getD s

/-- Changes the innermost binding of a name in a list of frames. -/
def modifyInnermost (name : String) (change : Identifier → Identifier) : List Frame → List Frame
  | [] => []
  | frame :: frames =>
    if (frame.find? name).isSome then frame.modify name change :: frames
    else frame :: modifyInnermost name change frames

/-- Changes the innermost binding of a name. -/
def modify (s : Scopes) (name : String) (change : Identifier → Identifier) : Scopes :=
  if (s.current.find? name).isSome then { s with current := s.current.modify name change }
  else { s with outer := modifyInnermost name change s.outer }

/-- Notes that a name has been given a value. -/
def markInitialized (s : Scopes) (name : String) : Scopes :=
  s.modify name fun identifier ↦ { identifier with initialized := true }

/-- The return type of the innermost function around. -/
def returnType? (s : Scopes) : Option ScalarType :=
  s.frames.findSome? Frame.returnType

/-- Whether a name means something of a given kind; any kind if none is given. -/
def hasKind (s : Scopes) (kind : Option IdentifierKind) (name : String) : Bool :=
  match kind with
  | none => true
  | some kind => (s.lookup name).map Identifier.kind = some kind

/-- The visible names of a kind, each once, in the order of their first declaration from the
outermost scope inwards. -/
def visibleNames (s : Scopes) (kind : Option IdentifierKind := none) : List String :=
  ((s.frames.reverse.flatMap fun frame ↦ frame.bindings.map Prod.fst).filter
    (s.hasKind kind)).eraseDups

end Scopes

end ScalarMips
