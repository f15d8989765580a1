/-!
Lists in text: items with a comma and a blank between two of them.
-/

namespace CellScript

/-- The items in a row, with `separator` between two neighbours. -/
def separated (separator : String) : List String → String
  | [] => ""
  | [item] => item
  | item :: next :: rest => item ++ separator ++ separated separator (next :: rest)

/-- The items in a row, with a comma and a blank between two neighbours. -/
def commaSeparated (items : List String) : String := separated ", " items

end CellScript
