import CellScript.Program
import CellScript.Program.Cursor

/-!
Parsing: from tokens to programs.

Expressions are read by precedence climbing. An operand starts with the token that the reader has
in hand; then, as long as the next token binds more tightly than the operator on the left, the
operand grows by a binary operator, a call or an index. A statement that fails is dropped, and
reading goes on behind the token at which it failed, so that one pass reports all it can find.
-/

namespace CellScript

/-- How tightly an operator binds. -/
inductive Precedence
  | lowest | equality | comparison | sum | product | unary | call | index
deriving Repr, DecidableEq, Inhabited

namespace Precedence

/-- The place in the order, the loosest first. -/
def rank : Precedence → Nat
  | lowest => 0
  | equality => 1
  | comparison => 2
  | sum => 3
  | product => 4
  | unary => 5
  | call => 6
  | index => 7

end Precedence

/-- The level of an operator. Note that `<=` and `>=` bind as loosely as `==`. -/
def BinaryOp.precedence : BinaryOp → Precedence
  | equal | notEqual | lessEq | greaterEq => .equality
  | less | greater => .comparison
  | add | sub => .sum
  | mul | div | mod => .product

/-- What may follow an operand and make it part of a larger expression. -/
inductive Extension
  | binary (op : BinaryOp)
  | call
  | index
deriving Repr, DecidableEq

namespace Extension

def precedence : Extension → Precedence
  | binary op => op.precedence
  | call => .call
  | index => .index

/-- The extension that a token starts. -/
def ofToken? : TokenKind → Option Extension
  | .plus => some (.binary .add)
  | .minus => some (.binary .sub)
  | .star => some (.binary .mul)
  | .slash => some (.binary .div)
  | .percent => some (.binary .mod)
  | .equal => some (.binary .equal)
  | .notEqual => some (.binary .notEqual)
  | .less => some (.binary .less)
  | .greater => some (.binary .greater)
  | .lessEq => some (.binary .lessEq)
  | .greaterEq => some (.binary .greaterEq)
  | .openParen => some .call
  | .openBracket => some .index
  | _ => none

end Extension

/-- The value of a string of decimal digits. -/
def digitsValue (digits : List Char) : Nat :=
  digits.foldl (fun value c => 10 * value + (c.toNat - '0'.toNat)) 0

/-- The integer that digits denote, if it fits in 64 bits with a sign. -/
def integerOfDigits? (digits : String) : Option Int64 :=
  let value := digitsValue digits.toList
  if value < 0x8000000000000000 then some (Int64.ofNat value) else none

namespace Reader

/-- The rest of a parameter list behind a name, up to the closing parenthesis. A comma may stand
before it. -/
def moreParameters : Nat → Reader (List String)
  | 0 => exhausted
  | bound + 1 => do
    if (← peek).kind = .comma then
      let _ ← next
      if (← peek).kind = .closeParen then
        let _ ← next
        return []
      let name ← expect .identifier
      return name.literal :: (← moreParameters bound)
    else
      let _ ← expect .closeParen
      return []

/-- A parameter list behind its opening parenthesis. -/
def parameters (bound : Nat) : Reader (List String) := do
  if (← peek).kind = .closeParen then
    let _ ← next
    return []
  let name ← expect .identifier
  return name.literal :: (← moreParameters bound)

/-- The element type of a heap, between angle brackets. -/
def heapElement : Reader HeapElement := do
  let _ ← expect .less
  let name ← expect .identifier
  match HeapElement.ofName? name.literal with
  | some element =>
    let _ ← expect .greater
    return element
  | none => report (.heapElement name.literal) name.span

/-- The empty angle brackets of the containers that name no element type, with the brace that
opens their items. -/
def emptyMark : Reader Unit := do
  let _ ← expect .less
  let _ ← expect .greater
  let _ ← expect .openBrace

mutual

/-- A statement that starts with the token `first`. -/
def statement : Nat → Token → Reader Stmt
  | 0, _ => exhausted
  | bound + 1, first => do
    match first.kind with
    | .letWord =>
      let name ← expect .identifier
      let _ ← expect .assign
      let value ← expression bound .lowest (← next)
      skipSemicolon
      return .declare name.literal value
    | .returnWord =>
      match (← peek).kind with
      | .semicolon =>
        let _ ← next
        return .giveBack none
      | .closeBrace | .finish => return .giveBack none
      | _ =>
        let value ← expression bound .lowest (← next)
        skipSemicolon
        return .giveBack (some value)
    | .identifier =>
      if (← peek).kind = .assign then
        let _ ← next
        let value ← expression bound .lowest (← next)
        skipSemicolon
        return .assign first.literal value
      else expressionStatement bound first
    | _ => expressionStatement bound first

/-- An expression that stands as a statement. -/
def expressionStatement : Nat → Token → Reader Stmt
  | 0, _ => exhausted
  | bound + 1, first => do
    let value ← expression bound .lowest first
    skipSemicolon
    return .expression value

/-- Statements up to the closing brace. -/
def block : Nat → Reader (List Stmt)
  | 0 => exhausted
  | bound + 1 => do
    let first ← next
    match first.kind with
    | .closeBrace => return []
    | .finish => report (.unexpected .closeBrace .finish) first.span
    | _ =>
      match ← recover (statement bound first) with
      | some s => return s :: (← block bound)
      | none => block bound

/-- An expression that starts with the token `first` and takes in what binds more tightly than
`precedence`. -/
def expression : Nat → Precedence → Token → Reader Expr
  | 0, _, _ => exhausted
  | bound + 1, precedence, first => do
    extend bound precedence (← operand bound first)

/-- Lets an operand grow as long as the next token binds more tightly than `precedence`. -/
def extend : Nat → Precedence → Expr → Reader Expr
  | 0, _, _ => exhausted
  | bound + 1, precedence, left => do
    match Extension.ofToken? (← peek).kind with
    | none => return left
    | some extension =>
      if precedence.rank < extension.precedence.rank then
        let _ ← next
        match extension with
        | .binary op =>
          let right ← expression bound op.precedence (← next)
          extend bound precedence (.binary left op right)
        | .call =>
          let arguments ← items bound .closeParen
          extend bound precedence (.call left arguments)
        | .index =>
          let position ← expression bound .lowest (← next)
          let _ ← expect .closeBracket
          extend bound precedence (.index left position)
      else return left

/-- The shortest expression that starts with the token `first`. -/
def operand : Nat → Token → Reader Expr
  | 0, _ => exhausted
  | bound + 1, first => do
    match first.kind with
    | .identifier => return .identifier first.literal
    | .integer =>
      match integerOfDigits? first.literal with
      | some value => return .integer value
      | none => report (.integerRange first.literal) first.span
    | .text => return .text first.literal
    | .trueWord => return .boolean true
    | .falseWord => return .boolean false
    | .bang => return .unary .not (← expression bound .unary (← next))
    | .minus => return .unary .negate (← expression bound .unary (← next))
    | .openParen =>
      let value ← expression bound .lowest (← next)
      let _ ← expect .closeParen
      return value
    | .ifWord => conditional bound
    | .whileWord =>
      let (condition, body) ← guarded bound
      return .loop condition body
    | .defWord =>
      let _ ← expect .openParen
      let names ← parameters bound
      let _ ← expect .openBrace
      return .function names (← block bound)
    | .openBracket => return .sequence .array (← items bound .closeBracket)
    | .openBrace => return .map (← entries bound)
    | .hashsetWord =>
      emptyMark
      return .set (← items bound .closeBrace)
    | .stackWord =>
      emptyMark
      return .sequence .stack (← items bound .closeBrace)
    | .queueWord =>
      emptyMark
      return .sequence .queue (← items bound .closeBrace)
    | .dequeWord =>
      emptyMark
      return .sequence .deque (← items bound .closeBrace)
    | .maxheapWord =>
      let element ← heapElement
      let _ ← expect .openBrace
      return .heap .max element (← items bound .closeBrace)
    | .minheapWord =>
      let element ← heapElement
      let _ ← expect .openBrace
      return .heap .min element (← items bound .closeBrace)
    | kind => report (.noExpression kind) first.span

/-- A condition in parentheses and the block behind it. -/
def guarded : Nat → Reader (Expr × List Stmt)
  | 0 => exhausted
  | bound + 1 => do
    let _ ← expect .openParen
    let condition ← expression bound .lowest (← next)
    let _ ← expect .closeParen
    let _ ← expect .openBrace
    return (condition, ← block bound)

/-- What follows the word `if`. An `if` behind `else` is the only statement of the alternative. -/
def conditional : Nat → Reader Expr
  | 0 => exhausted
  | bound + 1 => do
    let (condition, consequence) ← guarded bound
    if (← peek).kind = .elseWord then
      let _ ← next
      if (← peek).kind = .ifWord then
        let _ ← next
        let nested ← conditional bound
        return .conditional condition consequence (some [.expression nested])
      else
        let _ ← expect .openBrace
        return .conditional condition consequence (some (← block bound))
    else return .conditional condition consequence none

/-- Expressions up to the closing token, with commas between them. -/
def items : Nat → TokenKind → Reader (List Expr)
  | 0, _ => exhausted
  | bound + 1, closing => do
    if (← peek).kind = closing then
      let _ ← next
      return []
    let item ← expression bound .lowest (← next)
    return item :: (← moreItems bound closing)

/-- The rest of a list behind an item. A comma may stand before the closing token. -/
def moreItems : Nat → TokenKind → Reader (List Expr)
  | 0, _ => exhausted
  | bound + 1, closing => do
    if (← peek).kind = .comma then
      let _ ← next
      if (← peek).kind = closing then
        let _ ← next
        return []
      let item ← expression bound .lowest (← next)
      return item :: (← moreItems bound closing)
    else
      let _ ← expect closing
      return []

/-- The entries of a map up to the closing brace. A comma may stand before it. -/
def entries : Nat → Reader (List (Expr × Expr))
  | 0 => exhausted
  | bound + 1 => do
    if (← peek).kind = .closeBrace then
      let _ ← next
      return []
    let key ← expression bound .lowest (← next)
    let _ ← expect .colon
    let value ← expression bound .lowest (← next)
    if (← peek).kind = .closeBrace then
      let _ ← next
      return [(key, value)]
    let _ ← expect .comma
    return (key, value) :: (← entries bound)

end

/-- Statements up to the end of the input. -/
def statements : Nat → Reader (List Stmt)
  | 0 => exhausted
  | bound + 1 => do
    let first ← next
    if first.kind = .finish then return []
    match ← recover (statement bound first) with
    | some s => return s :: (← statements bound)
    | none => statements bound

end Reader

/-- A bound on the depth of calls that suffices for a cursor: between two calls that take a token
there are fewer than four that take none. -/
def Cursor.depthBound (c : Cursor) : Nat := 4 * c.upcoming.length + 8

/-- What reading a source text gives: the statements that could be read, and all errors. -/
structure Parsed where
  program : Program
  errors : List SyntaxError

namespace Parsed

/-- Reads a token stream to its end. -/
def ofStream (s : TokenStream) : Parsed :=
  let start := Cursor.start s
  match Reader.statements start.depthBound start with
  | .done statements c => ⟨⟨statements⟩, c.errors.toList⟩
  | .failed c => ⟨⟨[]⟩, c.errors.toList⟩
  | .exhausted => ⟨⟨[]⟩, []⟩

/-- Reads a source text. -/
def ofSource (source : String) : Parsed := ofStream (TokenStream.ofSource source)

end Parsed

/-- The program of a source text, or all that is wrong with the text. -/
def Program.parse (source : String) : Except (List SyntaxError) Program :=
  let parsed := Parsed.ofSource source
  if parsed.errors.isEmpty then .ok parsed.program else .error parsed.errors

end CellScript
