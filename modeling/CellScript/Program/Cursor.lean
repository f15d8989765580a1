import CellScript.Token.Scan

/-!
Reading tokens: a cursor over a token stream, and readers that move it.

A reader looks one token ahead. It gives a value, or fails after recording what was wrong; a failure
keeps the cursor where it is, so that reading can go on behind it. Readers that call each other take
a bound on the depth of the calls, and `exhausted` says that the bound was too small.
-/

namespace CellScript

/-- What can be wrong with a source text. -/
inductive SyntaxError.Cause
  /-- Another kind of token had to stand here. -/
  | unexpected (wanted got : TokenKind)
  /-- No expression starts with a token of this kind. -/
  | noExpression (got : TokenKind)
  /-- The digits denote no 64-bit integer. -/
  | integerRange (digits : String)
  /-- A heap holds only integers or strings. -/
  | heapElement (name : String)
deriving Repr, DecidableEq, Inhabited

/-- Something wrong with a source text, and the range of the token at which it showed. -/
structure SyntaxError where
  cause : SyntaxError.Cause
  span : Span
deriving Repr, DecidableEq, Inhabited

def SyntaxError.Cause.message : SyntaxError.Cause → String
  | unexpected wanted got =>
    "expected token to be " ++ wanted.name ++ ", got " ++ got.name ++ " instead"
  | noExpression got => "no prefix parse function for " ++ got.name ++ " found"
  | integerRange digits => "could not parse " ++ digits ++ " as integer"
  | heapElement name =>
    "expected heap element type to be int or string, got " ++ name ++ " instead"

def SyntaxError.message (e : SyntaxError) : String := e.cause.message

/-- All errors of a source text in one line. -/
def SyntaxError.summary (errors : List SyntaxError) : String :=
  toString errors.length ++ " parse error(s), first: " ++
    ((errors.head?.map SyntaxError.message).getD "")

/-- A position in a token stream: the tokens to come, the end token that follows them for ever,
and the errors that have been recorded. -/
structure Cursor where
  upcoming : List Token
  afterEnd : Token
  errors : Array SyntaxError
deriving Repr, DecidableEq

namespace Cursor

/-- The start of a token stream. Its first end token counts as a token to come. -/
def start (s : TokenStream) : Cursor := ⟨s.tokens ++ [s.finish], s.afterFinish, #[]⟩

/-- The next token. -/
def peek (c : Cursor) : Token := c.upcoming.headD c.afterEnd

/-- The cursor behind the next token. -/
def advance (c : Cursor) : Cursor := { c with upcoming := c.upcoming.tail }

/-- The cursor with one more error recorded. -/
def record (c : Cursor) (e : SyntaxError) : Cursor := { c with errors := c.errors.push e }

end Cursor

/-- How a reader ends. -/
inductive Reply (α : Type)
  | done (value : α) (cursor : Cursor)
  | failed (cursor : Cursor)
  | exhausted

/-- A reader of tokens. -/
def Reader (α : Type) : Type := Cursor → Reply α

namespace Reader

@[always_inline, inline] def pure {α : Type} (value : α) : Reader α := fun c => .done value c

/-- Reads with `first`, then with what `next` makes of its value. -/
@[always_inline, inline] def bind {α β : Type} (first : Reader α) (next : α → Reader β) :
    Reader β := fun c =>
  match first c with
  | .done value c => next value c
  | .failed c => .failed c
  | .exhausted => .exhausted

@[always_inline] instance : Monad Reader where
  pure := Reader.pure
  bind := Reader.bind

/-- The bound on the depth of calls was too small. -/
@[always_inline, inline] def exhausted {α : Type} : Reader α := fun _ => .exhausted

/-- The next token, which stays in place. -/
@[always_inline, inline] def peek : Reader Token := fun c => .done c.peek c

/-- Takes the next token. -/
@[always_inline, inline] def next : Reader Token := fun c => .done c.peek c.advance

/-- Records an error and fails. -/
@[always_inline, inline] def report {α : Type} (cause : SyntaxError.Cause) (span : Span) :
    Reader α :=
  fun c => .failed (c.record ⟨cause, span⟩)

/-- Takes the next token if it is of the wanted kind, and reports it otherwise. -/
def expect (wanted : TokenKind) : Reader Token := fun c =>
  if c.peek.kind = wanted then .done c.peek c.advance
  else .failed (c.record ⟨.unexpected wanted c.peek.kind, c.peek.span⟩)

/-- Takes the next token if it is a semicolon. -/
def skipSemicolon : Reader Unit := fun c =>
  if c.peek.kind = .semicolon then .done () c.advance else .done () c

/-- Goes on behind a failure; what was recorded stays recorded. -/
@[always_inline, inline] def recover {α : Type} (reader : Reader α) : Reader (Option α) := fun c =>
  match reader c with
  | .done value c => .done (some value) c
  | .failed c => .done none c
  | .exhausted => .exhausted

end Reader

end CellScript
