import CellScript.Outcome
import CellScript.Rendering

/-!
Operators on values: `!` and `-` before one, the arithmetic and comparisons between two, and
the brackets that take an item out of a container.

Integers are 64 bits wide and wrap around; division goes toward zero. Beyond integers, strings can
be joined, null with anything is null, and two values of one kind can be compared for being the
same.
-/

namespace CellScript

/-- An operator between integers. -/
def BinaryOp.onIntegers (op : BinaryOp) (a b : Int64) : Except Fault Value :=
  match op with
  | .add => .ok (.integer (a + b))
  | .sub => .ok (.integer (a - b))
  | .mul => .ok (.integer (a * b))
  | .div => if b = 0 then .error .divisionByZero else .ok (.integer (a / b))
  | .mod => if b = 0 then .error .divisionByZero else .ok (.integer (a % b))
  | .equal => .ok (.boolean (a == b))
  | .notEqual => .ok (.boolean (a != b))
  | .less => .ok (.boolean (a < b))
  | .greater => .ok (.boolean (b < a))
  | .lessEq => .ok (.boolean (a ≤ b))
  | .greaterEq => .ok (.boolean (b ≤ a))

/-- An operator between values of which neither is null, and which are neither two integers nor
two strings. -/
def BinaryOp.onOthers (op : BinaryOp) (left right : Value) : Except Fault Value :=
  if left.tag ≠ right.tag then .error (.typeMismatch left.tag op right.tag)
  else match op with
    | .equal => .ok (.boolean (left.same right))
    | .notEqual => .ok (.boolean (!left.same right))
    | _ => .error (.unknownBinary left.tag op right.tag)

/-- An operator before a value. -/
def UnaryOp.apply (op : UnaryOp) (operand : Value) : Except Fault Value :=
  match op with
  | .not => .ok (.boolean operand.negated)
  | .negate =>
    match operand with
    | .integer n => .ok (.integer (-n))
    | other => .error (.unknownUnary .negate other.tag)

/-- The number that counts items, if the integer is one. -/
def position? (index : Int64) : Option Nat := if 0 ≤ index then some index.toInt.toNat else none

namespace Store

/-- An operator between two values. Joining strings makes a new one. -/
def applyBinary (s : Store) (op : BinaryOp) (left right : Value) : Outcome :=
  match left, right with
  | .integer a, .integer b => .keep (op.onIntegers a b) s
  | .text a, .text b =>
    match op with
    | .add => .fresh (s.newText (s.textAt a ++ s.textAt b))
    | _ => .fault (.unknownBinary .string op .string) s
  | left, right =>
    if left.isNull || right.isNull then .value .null s else .keep (op.onOthers left right) s

/-- What stands at a position of a container. A character comes as a new string. -/
def index (s : Store) (container position : Value) : Outcome :=
  match container, position with
  | .text a, .integer i =>
    match (position? i).bind fun n => (s.textAt a).toList[n]? with
    | some c => .fresh (s.newText (String.singleton c))
    | none => .fault (.indexOutOfRange i) s
  | .sequence .array a, .integer i =>
    match (position? i).bind fun n => (s.itemsAt a)[n]? with
    | some value => .value value s
    | none => .fault (.indexOutOfRange i) s
  | .map a, key =>
    match (s.mapAt a).find? (s.key key) with
    | some entry => .value entry.2 s
    | none => .fault (.keyNotPresent (s.render key)) s
  | container, _ => .fault (.indexNotSupported container.tag) s

end Store

end CellScript
