/-!
# Edit distance

The distance between two texts is the least number of insertions, deletions and substitutions of
single characters that turn one into the other. It is computed row by row: the row of a prefix of the
first text holds its distance to every prefix of the second one.
-/

namespace LazyXPath.Text

/-- The rest of the next row. `diagonal` and `left` are the entries above to the left and to the
left; the list holds the characters of the second text with the entries above them. -/
def nextEntries (a : Char) (diagonal left : Nat) : List (Char × Nat) → List Nat
  | [] => []
  | (b, above) :: rest =>
    let entry := if a = b then diagonal else 1 + min (min diagonal above) left
    entry :: nextEntries a above entry rest

/-- The row after one more character of the first text. -/
def nextRow (bs : List Char) (row : List Nat) (a : Char) : List Nat :=
  match row with
  | [] => []
  | first :: above => (first + 1) :: nextEntries a first (first + 1) (bs.zip above)

/-- The edit distance of two texts. -/
def editDistance (as bs : List Char) : Nat :=
  (as.foldl (nextRow bs) (List.range (bs.length + 1))).getLastD 0

end LazyXPath.Text
