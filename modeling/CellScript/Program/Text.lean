import CellScript.Program
import CellScript.Text.Separated

/-!
The canonical text of a program. Every operator stands in parentheses of its own, so the text shows
how operators group; strings stand between quotes with no escapes. The condition of `if` and
`while` gets no parentheses beyond those of its own form.
-/

namespace CellScript

/-- A truth value as it is written. -/
def renderBool (b : Bool) : String := if b then "true" else "false"

/-- An integer in decimal, with a minus sign if it is negative. -/
def renderInt (n : Int64) : String := toString n.toInt

/-- Statements that have been written, between braces. -/
def braced (statements : String) : String := "\x7b " ++ statements ++ "\x7d"

mutual

/-- The canonical text of an expression. -/
def Expr.render : Expr → String
  | .identifier name => name
  | .integer value => renderInt value
  | .text contents => "\"" ++ contents ++ "\""
  | .boolean value => renderBool value
  | .unary op operand => "(" ++ op.symbol ++ operand.render ++ ")"
  | .binary left op right => "(" ++ left.render ++ " " ++ op.symbol ++ " " ++ right.render ++ ")"
  | .conditional condition consequence alternative =>
    "if " ++ condition.render ++ " " ++ braced (renderStatements consequence) ++
      renderAlternative alternative
  | .loop condition body => "while " ++ condition.render ++ " " ++ braced (renderStatements body)
  | .function parameters body =>
    "def(" ++ commaSeparated parameters ++ ") " ++ braced (renderStatements body)
  | .call callee arguments =>
    callee.render ++ "(" ++ commaSeparated (renderExprs arguments) ++ ")"
  | .index container position => "(" ++ container.render ++ "[" ++ position.render ++ "])"
  | .sequence kind items => kind.opener ++ commaSeparated (renderExprs items) ++ kind.closer
  | .map entries => mapOpener ++ commaSeparated (renderEntries entries) ++ braceCloser
  | .set members => setOpener ++ commaSeparated (renderExprs members) ++ braceCloser
  | .heap order element items =>
    heapOpener order element ++ commaSeparated (renderExprs items) ++ braceCloser

/-- The canonical texts of some expressions. -/
def renderExprs : List Expr → List String
  | [] => []
  | item :: rest => item.render :: renderExprs rest

/-- The canonical texts of the entries of a map. -/
def renderEntries : List (Expr × Expr) → List String
  | [] => []
  | (key, value) :: rest => (key.render ++ ": " ++ value.render) :: renderEntries rest

/-- The canonical text of a statement. -/
def Stmt.render : Stmt → String
  | .declare name value => "let " ++ name ++ " = " ++ value.render ++ ";"
  | .assign name value => name ++ " = " ++ value.render ++ ";"
  | .giveBack (some value) => "return " ++ value.render ++ ";"
  | .giveBack none => "return;"
  | .expression value => value.render ++ ";"
  | .block body => braced (renderStatements body)

/-- Statements in a row, a blank after each. -/
def renderStatements : List Stmt → String
  | [] => ""
  | statement :: rest => statement.render ++ " " ++ renderStatements rest

/-- What follows the first block of `if`. -/
def renderAlternative : Option (List Stmt) → String
  | none => ""
  | some body => " else " ++ braced (renderStatements body)

end

/-- The canonical text of a block: its statements between braces, a blank after each. -/
def renderBlock (body : List Stmt) : String := braced (renderStatements body)

/-- The canonical text of a program: its statements, a line break after each. -/
def Program.render (p : Program) : String :=
  p.statements.foldr (fun statement rest => statement.render ++ "\n" ++ rest) ""

end CellScript
