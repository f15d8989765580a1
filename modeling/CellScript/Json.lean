import CellScript.Text.Separated

/-!
JSON documents and their indented text: two blanks for each level, one item or field on a line,
and nothing between the brackets of an empty list. Fields keep their order. In strings only
quotes, backslashes and control characters are escaped.
-/

namespace CellScript

inductive Json
  | null
  | bool (value : Bool)
  | integer (value : Int)
  | string (value : String)
  | array (items : List Json)
  | object (fields : List (String × Json))
deriving Inhabited

namespace Json

/-- A hexadecimal digit in lower case. -/
def hexDigit (n : Nat) : Char := if n < 10 then Char.ofNat (48 + n) else Char.ofNat (87 + n)

/-- A character inside a string. Control characters without a short escape are written as
four hexadecimal digits, and no other character is escaped. -/
def escapeChar (c : Char) : String :=
  if c == '"' then "\\\""
  else if c == '\\' then "\\\\"
  else if c == '\n' then "\\n"
  else if c == '\r' then "\\r"
  else if c == '\t' then "\\t"
  else if c == '\x08' then "\\b"
  else if c == '\x0c' then "\\f"
  else if c.toNat < 32 then
    "\\u00" ++ String.ofList [hexDigit (c.toNat / 16), hexDigit (c.toNat % 16)]
  else String.singleton c

/-- A string between quotes. -/
def quote (s : String) : String :=
  "\"" ++ s.toList.foldr (fun c rest => escapeChar c ++ rest) "" ++ "\""

/-- The start of a line at a level. -/
def indent (level : Nat) : String := String.ofList (List.replicate (2 * level) ' ')

/-- Items between brackets, each on a line of its own, one level deeper than the brackets. -/
def bracketed (opening closing : String) (level : Nat) : List String → String
  | [] => opening ++ closing
  | items =>
    let start := "\n" ++ indent (level + 1)
    opening ++ start ++ separated ("," ++ start) items ++ "\n" ++ indent level ++ closing

mutual

/-- The indented text of a document that starts at a level. -/
def prettyAt (level : Nat) : Json → String
  | null => "null"
  | bool value => if value then "true" else "false"
  | integer value => toString value
  | string value => quote value
  | array items => bracketed "[" "]" level (prettyItems (level + 1) items)
  | object fields => bracketed "\x7b" "\x7d" level (prettyFields (level + 1) fields)

def prettyItems (level : Nat) : List Json → List String
  | [] => []
  | item :: rest => item.prettyAt level :: prettyItems level rest

def prettyFields (level : Nat) : List (String × Json) → List String
  | [] => []
  | (name, value) :: rest =>
    (quote name ++ ": " ++ value.prettyAt level) :: prettyFields level rest

end

/-- The indented text of a document. -/
def pretty (j : Json) : String := j.prettyAt 0

end Json

end CellScript
