import CellScript.Span

/-!
Tokens: the words, literals, operators and marks of a source text, each with the range of bytes it
came from. A token that no rule accepts is illegal, and the end of the input is a token as well.
-/

namespace CellScript

inductive TokenKind
  | letWord | defWord | trueWord | falseWord | ifWord | elseWord | returnWord | whileWord
  | hashsetWord | stackWord | queueWord | dequeWord | maxheapWord | minheapWord
  | identifier | integer | text
  | assign | plus | minus | bang | star | slash | percent
  | less | greater | lessEq | greaterEq | equal | notEqual
  | comma | semicolon | colon
  | openParen | closeParen | openBrace | closeBrace | openBracket | closeBracket
  | illegal | finish
deriving Repr, DecidableEq, Inhabited

namespace TokenKind

/-- The name of a kind in listings and in messages. -/
def name : TokenKind → String
  | letWord => "LET"
  | defWord => "FUNCTION"
  | trueWord => "TRUE"
  | falseWord => "FALSE"
  | ifWord => "IF"
  | elseWord => "ELSE"
  | returnWord => "RETURN"
  | whileWord => "WHILE"
  | hashsetWord => "HASHSET"
  | stackWord => "STACK"
  | queueWord => "QUEUE"
  | dequeWord => "DEQUE"
  | maxheapWord => "MAXHEAP"
  | minheapWord => "MINHEAP"
  | identifier => "IDENT"
  | integer => "INT"
  | text => "STRING"
  | assign => "="
  | plus => "+"
  | minus => "-"
  | bang => "!"
  | star => "*"
  | slash => "/"
  | percent => "%"
  | less => "<"
  | greater => ">"
  | lessEq => "<="
  | greaterEq => ">="
  | equal => "=="
  | notEqual => "!="
  | comma => ","
  | semicolon => ";"
  | colon => ":"
  | openParen => "("
  | closeParen => ")"
  | openBrace => "\x7b"
  | closeBrace => "\x7d"
  | openBracket => "["
  | closeBracket => "]"
  | illegal => "ILLEGAL"
  | finish => "END"

end TokenKind

/-- The words that are not identifiers. -/
def keywords : List (String × TokenKind) :=
  [("let", .letWord), ("def", .defWord), ("true", .trueWord), ("false", .falseWord),
   ("if", .ifWord), ("else", .elseWord), ("return", .returnWord), ("while", .whileWord),
   ("hashset", .hashsetWord), ("stack", .stackWord), ("queue", .queueWord),
   ("deque", .dequeWord), ("maxheap", .maxheapWord), ("minheap", .minheapWord)]

/-- A word is a keyword if the table has it and an identifier otherwise. -/
def TokenKind.ofWord (word : String) : TokenKind := (keywords.lookup word).getD .identifier

/-- A token. The literal of a string is what stands between its quotes; any other literal is the
text of the token itself. -/
structure Token where
  kind : TokenKind
  literal : String
  span : Span
deriving Repr, DecidableEq, Inhabited

namespace Token

/-- The end of the input, seen at `offset`. -/
def finish (offset : Nat) : Token := ⟨.finish, "", .point offset⟩

/-- One line of a token listing. -/
def listing (t : Token) : String := "Type: " ++ t.kind.name ++ ", Literal: " ++ t.literal

/-- The token as it stands in a text that is `n` bytes longer on the left. -/
def shift (n : Nat) (t : Token) : Token := { t with span := t.span.shift n }

end Token

end CellScript
