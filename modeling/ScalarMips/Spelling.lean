/-!
# Spelling

How far one word is from another, and which word of a vocabulary a misspelt one was probably
meant to be.

The distance table has a line for every beginning of the first word and a column for every beginning
of the second. Only one row of it is kept: `nextRow` overwrites the row of one line with that of the
next, from left to right. What stood diagonally above an entry is then overwritten already, so it is
carried along beside the row (`Sweep`). The length of the row is part of its type, and no index is
ever out of range.

A suggestion is decided in two steps: the nearest word is chosen first, and only then is it asked
whether it is near enough.
-/

namespace ScalarMips.Spelling

/-! ### Edit distance -/

/-- A row of the distance table while it is overwritten. -/
structure Sweep (n : Nat) where
  /-- The new entries on the left, and on the right those of the line above. -/
  row : Vector Nat (n + 1)
  /-- The entry of the line above that was overwritten last. -/
  diagonal : Nat

namespace Sweep

variable {n : Nat}

/-- A sweep begins with the first entry, which is the number of the line. -/
def start (line : Nat) (row : Vector Nat (n + 1)) : Sweep n :=
  ⟨row.set 0 line, row[0]⟩

/-- Overwrites the entry right of a column. Equal letters keep the diagonal distance; otherwise one
edit is paid on top of the cheapest of substituting, deleting and inserting. -/
def step (s : Sweep n) (letter : Char) (target : Vector Char n) (column : Nat)
    (h : column < n) : Sweep n :=
  let above := s.row[column + 1]
  let entry :=
    if letter = target[column] then s.diagonal
    else 1 + min s.diagonal (min above s.row[column])
  ⟨s.row.set (column + 1) entry, above⟩

/-- Overwrites the entries right of the first columns. -/
def steps (s : Sweep n) (letter : Char) (target : Vector Char n) :
    (columns : Nat) → columns ≤ n → Sweep n
  | 0, _ => s
  | column + 1, h => (s.steps letter target column (Nat.le_of_succ_le h)).step letter target column h

end Sweep

variable {n : Nat}

/-- The row of a line, from the letter of the line and the row of the line above. -/
def nextRow (target : Vector Char n) (line : Nat) (letter : Char) (row : Vector Nat (n + 1)) :
    Vector Nat (n + 1) :=
  ((Sweep.start line row).steps letter target n (Nat.le_refl n)).row

/-- The row of the last line, from the letters of the lines that are left, the first of them with
number `line`, and the row above. -/
def lastRow (target : Vector Char n) (line : Nat) :
    List Char → Vector Nat (n + 1) → Vector Nat (n + 1)
  | [], row => row
  | letter :: word, row => lastRow target (line + 1) word (nextRow target line letter row)

/-- The least number of single-letter insertions, deletions and substitutions that turn `first`
into `second`. -/
def editDistance (first second : String) : Nat :=
  let target := second.toList.toArray.toVector
  (lastRow target 1 first.toList (Vector.range _)).back

/-! ### Suggestions -/

/-- The distance of two words when the case of ASCII letters is ignored. -/
def looseDistance (first second : String) : Nat :=
  editDistance (first.map Char.toLower) (second.map Char.toLower)

/-- The largest distance at which a word still passes for a misspelling of `word`. -/
def tolerance (word : String) : Nat :=
  max 1 (word.length / 2)

/-- The word of `vocabulary` nearest to `word`, the earliest of equally near ones, provided it lies
within the tolerance of `word`. -/
def suggest (word : String) (vocabulary : List String) : Option String :=
  (vocabulary.minOn? (looseDistance word)).filter
    fun candidate ↦ looseDistance word candidate ≤ tolerance word

end ScalarMips.Spelling
