/-!
# Lines of a source text

The lines that reports quote. Text after the last newline is a line only if there is any, and the
carriage return of a two-character line end is not part of its line.
-/

namespace ScalarMips.Source

/-- Cuts a text after each newline and drops the newlines. A text that ends in a newline has no
further, empty line. -/
def breakLines : List Char → List (List Char)
  | [] => []
  | c :: text =>
    if c = '\n' then
      [] :: breakLines text
    else
      match breakLines text with
      | [] => [[c]]
      | line :: lines => (c :: line) :: lines

/-- Drops one carriage return from the end of a line. -/
def dropReturn (line : List Char) : List Char :=
  if line.getLast? = some '\r' then line.dropLast else line

/-- The lines of a source text, without their line ends. -/
def lines (source : String) : List String :=
  (breakLines source.toList).map fun line ↦ String.ofList (dropReturn line)

end ScalarMips.Source
