/-!
# Diagnostic/EditDistance — how far two names are apart

The edit distance of two texts is the least number of characters that have to be inserted, removed or
replaced to turn one into the other.  It is computed a row at a time: a row holds the distances of one
beginning of the first text to every beginning of the second.
-/

namespace Relspec.Diagnostic

/-- The rest of a row, behind the entry `left`; `above` stands over that entry, and `row` goes on from
there. -/
def restOfRow (c : Char) (left above : Nat) : List Char → List Nat → List Nat
  | d :: b, up :: row =>
    let entry := min (min (up + 1) (left + 1)) (above + if c = d then 0 else 1)
    entry :: restOfRow c entry up b row
  | _, _ => []

/-- The distances of a text with `c` behind it to the beginnings of `b`, from those of the text. -/
def nextRow (b : List Char) (row : List Nat) (c : Char) : List Nat :=
  match row with
  | first :: row => (first + 1) :: restOfRow c (first + 1) first b row
  | [] => []

/-- The distances of `a` to the beginnings of `b`, the empty one first. -/
def distances (a b : List Char) : List Nat := a.foldl (nextRow b) (List.range (b.length + 1))

/-- **The edit distance** of two texts. -/
def editDistance (a b : String) : Nat := (distances a.toList b.toList).getLast?.getD 0

end Relspec.Diagnostic
