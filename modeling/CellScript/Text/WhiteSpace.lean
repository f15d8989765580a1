import CellScript.Text.CodeRanges

/-!
White space: the 25 characters with the property `White_Space`, and texts without it at their ends.
-/

namespace CellScript

def whiteSpaceRanges : CodeRanges :=
  [(0x09, 0x0D), (0x20, 0x20), (0x85, 0x85), (0xA0, 0xA0), (0x1680, 0x1680), (0x2000, 0x200A),
   (0x2028, 0x2029), (0x202F, 0x202F), (0x205F, 0x205F), (0x3000, 0x3000)]

def isWhiteSpace (c : Char) : Bool := whiteSpaceRanges.contains c.toNat

/-- The text without white space at its start and at its end. -/
def trimmed (s : String) : String :=
  String.ofList ((s.toList.dropWhile isWhiteSpace).reverse.dropWhile isWhiteSpace).reverse

end CellScript
