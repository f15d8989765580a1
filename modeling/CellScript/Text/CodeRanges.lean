/-!
Sets of characters, as ranges of code points.
-/

namespace CellScript

/-- Ranges of code points with both ends included, in ascending order. -/
abbrev CodeRanges := List (Nat × Nat)

def CodeRanges.contains (ranges : CodeRanges) (code : Nat) : Bool :=
  ranges.any fun (first, last) => first ≤ code && code ≤ last

end CellScript
