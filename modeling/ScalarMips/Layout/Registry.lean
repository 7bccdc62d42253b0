import ScalarMips.Layout.Symbol

/-!
# Symbol tables with an index

How symbol tables are stored. A registry keeps its entries in an array, in the order of their
insertion, and next to them the place of each name in that array, so that a name is found without a
search. The offsets for the next variable and the next parameter are kept as well, so that nothing
is counted. The table of a function is a registry of its own and belongs to the entry of the
function.

A name that is in use is refused, and a refused insertion changes nothing. What is found in a
registry is what a symbol table (`SymbolTable`) has.
-/

namespace ScalarMips

namespace Registry

/-- An entry of a registry. The table of a function is of type `τ`. -/
inductive Entry (τ : Type) where
  /-- A variable, with its initial value if that is known. -/
  | var (name : String) (type : ScalarType) (offset : UInt32) (initial : Option Int32)
  /-- A parameter of the function that owns the table. -/
  | parameter (name : String) (type : ScalarType) (offset : UInt32)
  /-- A function, with its own table. -/
  | function (name : String) (type : ScalarType) (locals : τ)

namespace Entry

variable {τ : Type}

/-- The name of an entry. -/
def name : Entry τ → String
  | var name .. | parameter name .. | function name .. => name

/-- The offset of a variable or parameter; a function has none, which counts as zero. -/
def offset : Entry τ → UInt32
  | var _ _ offset _ | parameter _ _ offset => offset
  | function .. => 0

/-- The table of a function. -/
def locals? : Entry τ → Option τ
  | function _ _ locals => some locals
  | _ => none

/-- Whether an entry is a variable. -/
def isVar : Entry τ → Bool
  | var .. => true
  | _ => false

/-- Whether an entry is a parameter. -/
def isParameter : Entry τ → Bool
  | parameter .. => true
  | _ => false

/-- Whether an entry is a function. -/
def isFunction : Entry τ → Bool
  | function .. => true
  | _ => false

end Entry

/-- What can be put into a registry. -/
inductive Put where
  /-- A variable, with its initial value if that is known. -/
  | var (name : String) (type : ScalarType) (initial : Option Int32)
  /-- A parameter. -/
  | parameter (name : String) (type : ScalarType)
  /-- A function, whose own table is empty. -/
  | function (name : String) (type : ScalarType)
  deriving DecidableEq

namespace Put

/-- The name that is put into a registry. -/
def name : Put → String
  | var name .. | parameter name .. | function name .. => name

end Put

end Registry

/-- A symbol table with an index. -/
structure Registry where
  /-- The size of a word in bytes. -/
  wordSize : UInt32 := 4
  /-- The entries in the order of their insertion. -/
  entries : Array (Registry.Entry Registry) := #[]
  /-- The places of the names among the entries, in no particular order. -/
  index : List (String × Nat) := []
  /-- The offset of the next variable. -/
  nextVar : UInt32 := 0
  /-- The offset of the next parameter. -/
  nextParameter : UInt32 := 0
  deriving Inhabited

namespace Registry

/-! ### Looking up -/

/-- The place of a name. -/
def place? (r : Registry) (name : String) : Option Nat :=
  r.index.lookup name

/-- Whether a name is in use. -/
def contains (r : Registry) (name : String) : Bool :=
  (r.place? name).isSome

/-- The entry with a given name. -/
def find? (r : Registry) (name : String) : Option (Entry Registry) :=
  (r.place? name).bind fun i ↦ r.entries[i]?

/-- The variables in the order of their insertion. -/
def vars (r : Registry) : Array (Entry Registry) :=
  r.entries.filter Entry.isVar

/-- The parameters in the order of their insertion. -/
def parameters (r : Registry) : Array (Entry Registry) :=
  r.entries.filter Entry.isParameter

/-- The functions in the order of their insertion. -/
def functions (r : Registry) : Array (Entry Registry) :=
  r.entries.filter Entry.isFunction

/-- The size of all variables. -/
def localSize (r : Registry) : UInt32 :=
  r.nextVar

/-- The size of all parameters. -/
def parameterSize (r : Registry) : UInt32 :=
  r.nextParameter

/-- The table of a function. -/
def locals? (r : Registry) (function : String) : Option Registry :=
  (r.find? function).bind Entry.locals?

/-- The table reached by going from function to function along a path. -/
def at? (r : Registry) : List String → Option Registry
  | [] => some r
  | function :: path => (r.locals? function).bind fun locals ↦ locals.at? path

/-! ### Inserting -/

/-- Adds an entry whose name is not yet in use. -/
def insert? (r : Registry) (entry : Entry Registry) : Option Registry :=
  if r.contains entry.name then none
  else some
    { r with
      entries := r.entries.push entry
      index := (entry.name, r.entries.size) :: r.index }

/-- Adds a variable and says whether that was possible. -/
def putVar (r : Registry) (name : String) (type : ScalarType) (initial : Option Int32) :
    Registry × Bool :=
  match r.insert? (.var name type r.nextVar initial) with
  | some after => ({ after with nextVar := after.nextVar + after.wordSize }, true)
  | none => (r, false)

/-- Adds a parameter and says whether that was possible. -/
def putParameter (r : Registry) (name : String) (type : ScalarType) : Registry × Bool :=
  match r.insert? (.parameter name type r.nextParameter) with
  | some after => ({ after with nextParameter := after.nextParameter + after.wordSize }, true)
  | none => (r, false)

/-- Adds a function with an empty table and says whether that was possible. -/
def putFunction (r : Registry) (name : String) (type : ScalarType) : Registry × Bool :=
  match r.insert? (.function name type { wordSize := r.wordSize }) with
  | some after => (after, true)
  | none => (r, false)

/-- Adds what is put into a registry and says whether that was possible. -/
def put (r : Registry) : Put → Registry × Bool
  | .var name type initial => r.putVar name type initial
  | .parameter name type => r.putParameter name type
  | .function name type => r.putFunction name type

/-! ### Nested tables -/

/-- Changes the table of a function; nothing happens if there is none. -/
def within (r : Registry) (function : String) (change : Registry → Registry × Bool) :
    Registry × Bool :=
  match r.place? function with
  | none => (r, false)
  | some i =>
    match r.entries[i]? with
    | some (.function name type locals) =>
      let after := change locals
      ({ r with entries := r.entries.setIfInBounds i (.function name type after.1) }, after.2)
    | _ => (r, false)

/-- Puts something into the table at the end of a path. -/
def putAt (p : Put) : List String → Registry → Registry × Bool
  | [], r => r.put p
  | function :: path, r => r.within function (putAt p path)

/-- An insertion into the table at the end of a path. -/
structure Insertion where
  /-- The names of the functions that lead to the table. -/
  path : List String := []
  /-- What is put there. -/
  put : Put
  deriving DecidableEq

/-- Some insertions one after the other, and which of them were possible. -/
def run : Registry → List Insertion → Registry × List Bool
  | r, [] => (r, [])
  | r, first :: rest =>
    let step := putAt first.put first.path r
    let after := run step.1 rest
    (after.1, step.2 :: after.2)

/-! ### Symbol tables -/

/-- The symbol that an entry stands for. -/
def Entry.symbol : Entry Registry → Symbol
  | .var name type offset initial => .var name type offset initial
  | .parameter name type offset => .parameter name type offset
  | .function name type locals => .function name type (locals.entries.toList.map symbol)
decreasing_by
  obtain ⟨wordSize, entries, index, nextVar, nextParameter⟩ := locals
  have hsize := Array.sizeOf_lt_of_mem (Array.mem_toList_iff.1 ‹_›)
  simp only [Entry.function.sizeOf_spec, Registry.mk.sizeOf_spec] at hsize ⊢
  omega

/-- The symbol table that a registry stands for. -/
def table (r : Registry) : SymbolTable :=
  ⟨r.wordSize, r.entries.toList.map Entry.symbol⟩

end Registry

end ScalarMips
