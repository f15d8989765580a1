import CellScript.Program
import CellScript.Value

/-!
Faults: what can go wrong while a program runs, and the message for each case.
-/

namespace CellScript

inductive Fault
  | identifierNotFound (name : String)
  | typeMismatch (left : TypeTag) (op : BinaryOp) (right : TypeTag)
  | unknownUnary (op : UnaryOp) (operand : TypeTag)
  | unknownBinary (left : TypeTag) (op : BinaryOp) (right : TypeTag)
  | divisionByZero
  | notAFunction (callee : TypeTag)
  | arityMismatch (parameters arguments : Nat)
  | indexOutOfRange (index : Int64)
  | keyNotPresent (key : String)
  | indexNotSupported (container : TypeTag)
  | heapElementMismatch (wanted : HeapElement) (got : TypeTag)
  | wrongArgumentCount (function : Builtin) (wanted got : Nat)
  | unsupportedArgument (function : Builtin) (argument : TypeTag)
  | emptyContainer (function : Builtin) (container : TypeTag)
  | missingMember (function : Builtin) (key : String)
  | stackOverflow
deriving Repr, DecidableEq, Inhabited

/-- The kind of value that a heap with these elements takes in. -/
def HeapElement.tag : HeapElement → TypeTag
  | integer => .integer
  | text => .string

def Fault.message : Fault → String
  | identifierNotFound name => "identifier not found: " ++ name
  | typeMismatch left op right =>
    "type mismatch -> " ++ left.name ++ " " ++ op.symbol ++ " " ++ right.name
  | unknownUnary op operand => "unknown operator for " ++ operand.name ++ " -> " ++ op.symbol
  | unknownBinary left op right =>
    "unknown operator -> " ++ left.name ++ " " ++ op.symbol ++ " " ++ right.name
  | divisionByZero => "division by zero"
  | notAFunction callee => "not a function -> " ++ callee.name
  | arityMismatch parameters arguments =>
    "argument length (" ++ toString arguments ++ ") not equal to parameter length (" ++
      toString parameters ++ ")"
  | indexOutOfRange index => "index " ++ toString index.toInt ++ " out of range"
  | keyNotPresent key => "key not present -> " ++ key
  | indexNotSupported container =>
    "index operator [] not supported for -> " ++ container.name
  | heapElementMismatch wanted got =>
    "heap element type mismatch -> expected " ++ wanted.tag.name ++ ", got " ++ got.name
  | wrongArgumentCount function wanted got =>
    "wrong number of arguments to " ++ function.name ++ ": got " ++ toString got ++ ", want " ++
      toString wanted
  | unsupportedArgument function argument =>
    "argument to " ++ function.name ++ " not supported, got " ++ argument.name
  | emptyContainer function container => function.name ++ " on empty " ++ container.name
  | missingMember function key => function.name ++ ": " ++ key ++ " not present"
  | stackOverflow => "stack overflow: too deep recursion"

end CellScript
