import CellScript.Container

/-!
Programs. An expression computes a value; `if` and `while` are expressions as well, and the blocks
in them are lists of statements that share the scope around them.
-/

namespace CellScript

inductive UnaryOp
  | not | negate
deriving Repr, DecidableEq, Inhabited

inductive BinaryOp
  | add | sub | mul | div | mod
  | equal | notEqual | less | greater | lessEq | greaterEq
deriving Repr, DecidableEq, Inhabited

def UnaryOp.symbol : UnaryOp → String
  | not => "!"
  | negate => "-"

def BinaryOp.symbol : BinaryOp → String
  | add => "+"
  | sub => "-"
  | mul => "*"
  | div => "/"
  | mod => "%"
  | equal => "=="
  | notEqual => "!="
  | less => "<"
  | greater => ">"
  | lessEq => "<="
  | greaterEq => ">="

mutual

inductive Expr
  | identifier (name : String)
  | integer (value : Int64)
  | text (contents : String)
  | boolean (value : Bool)
  | unary (op : UnaryOp) (operand : Expr)
  | binary (left : Expr) (op : BinaryOp) (right : Expr)
  | conditional (condition : Expr) (consequence : List Stmt) (alternative : Option (List Stmt))
  | loop (condition : Expr) (body : List Stmt)
  | function (parameters : List String) (body : List Stmt)
  | call (callee : Expr) (arguments : List Expr)
  | index (container : Expr) (position : Expr)
  | sequence (kind : SequenceKind) (items : List Expr)
  | map (entries : List (Expr × Expr))
  | set (members : List Expr)
  | heap (order : HeapOrder) (element : HeapElement) (items : List Expr)

inductive Stmt
  | declare (name : String) (value : Expr)
  | assign (name : String) (value : Expr)
  | giveBack (value : Option Expr)
  | expression (value : Expr)
  | block (body : List Stmt)

end

instance : Inhabited Expr := ⟨.boolean false⟩

instance : Inhabited Stmt := ⟨.giveBack none⟩

/-- A program: statements that run one after the other. -/
structure Program where
  statements : List Stmt
deriving Inhabited

end CellScript
