import CellScript.Json
import CellScript.Program

/-!
Programs as JSON documents. A form of expression or statement is an object with one field, named
for the form, and a list of statements is an object with the one field `statements`.
-/

namespace CellScript

/-- The name of an operator in documents. -/
def UnaryOp.formName : UnaryOp → String
  | not => "Not"
  | negate => "Neg"

/-- The name of an operator in documents. -/
def BinaryOp.formName : BinaryOp → String
  | add => "Add"
  | sub => "Sub"
  | mul => "Mul"
  | div => "Div"
  | mod => "Mod"
  | equal => "Eq"
  | notEqual => "NotEq"
  | less => "Lt"
  | greater => "Gt"
  | lessEq => "LtEq"
  | greaterEq => "GtEq"

/-- The name of a form in documents. -/
def SequenceKind.formName : SequenceKind → String
  | array => "ArrayLiteral"
  | stack => "StackLiteral"
  | queue => "QueueLiteral"
  | deque => "DequeLiteral"

/-- The name of a form in documents. -/
def HeapOrder.formName : HeapOrder → String
  | max => "MaxHeapLiteral"
  | min => "MinHeapLiteral"

/-- The name of an element type in documents. -/
def HeapElement.formName : HeapElement → String
  | integer => "Int"
  | text => "Str"

/-- An object with one field, which names the form of what it holds. -/
def Json.tagged (form : String) (contents : Json) : Json := .object [(form, contents)]

/-- A list of statements as a document. -/
def Json.block (statements : List Json) : Json := .object [("statements", .array statements)]

mutual

def Expr.toJson : Expr → Json
  | .identifier name => .tagged "Identifier" (.string name)
  | .integer value => .tagged "IntegerLiteral" (.integer value.toInt)
  | .text contents => .tagged "StringLiteral" (.string contents)
  | .boolean value => .tagged "BooleanLiteral" (.bool value)
  | .unary op operand =>
    .tagged "Prefix" (.object [("op", .string op.formName), ("right", operand.toJson)])
  | .binary left op right =>
    .tagged "Infix" (.object
      [("left", left.toJson), ("op", .string op.formName), ("right", right.toJson)])
  | .conditional condition consequence alternative =>
    .tagged "If" (.object
      [("condition", condition.toJson), ("consequence", .block (stmtsJson consequence)),
       ("alternative", alternativeJson alternative)])
  | .loop condition body =>
    .tagged "While" (.object [("condition", condition.toJson), ("body", .block (stmtsJson body))])
  | .function parameters body =>
    .tagged "FunctionLiteral" (.object
      [("parameters", .array (parameters.map .string)), ("body", .block (stmtsJson body))])
  | .call callee arguments =>
    .tagged "Call" (.object
      [("function", callee.toJson), ("arguments", .array (exprsJson arguments))])
  | .index container position =>
    .tagged "Index" (.object [("left", container.toJson), ("index", position.toJson)])
  | .sequence kind items => .tagged kind.formName (.array (exprsJson items))
  | .map entries => .tagged "HashMapLiteral" (.array (entriesJson entries))
  | .set members => .tagged "HashSetLiteral" (.array (exprsJson members))
  | .heap order element items =>
    .tagged order.formName (.object
      [("element", .string element.formName), ("elements", .array (exprsJson items))])

def exprsJson : List Expr → List Json
  | [] => []
  | item :: rest => item.toJson :: exprsJson rest

def entriesJson : List (Expr × Expr) → List Json
  | [] => []
  | (key, value) :: rest => .array [key.toJson, value.toJson] :: entriesJson rest

def Stmt.toJson : Stmt → Json
  | .declare name value =>
    .tagged "Let" (.object [("name", .string name), ("value", value.toJson)])
  | .assign name value =>
    .tagged "Assign" (.object [("name", .string name), ("value", value.toJson)])
  | .giveBack none => .tagged "Return" .null
  | .giveBack (some value) => .tagged "Return" value.toJson
  | .expression value => .tagged "Expression" value.toJson
  | .block body => .tagged "Block" (.block (stmtsJson body))

def stmtsJson : List Stmt → List Json
  | [] => []
  | statement :: rest => statement.toJson :: stmtsJson rest

def alternativeJson : Option (List Stmt) → Json
  | none => .null
  | some body => .block (stmtsJson body)

end

def Program.toJson (p : Program) : Json := .block (stmtsJson p.statements)

end CellScript
