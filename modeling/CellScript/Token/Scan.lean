import CellScript.Token

/-!
Scanning: cutting a source text into tokens by longest match.

Blanks between tokens are dropped. A string runs to the next quote, or to the end of the text when
there is none, and knows no escapes. A NUL character outside a string ends the input early: the
end token that follows stands at its offset, and every later one at the end of the text.
-/

namespace CellScript

/-- The characters that may stand between tokens. -/
def isBlank (c : Char) : Bool := c == ' ' || c == '\t' || c == '\n' || c == '\r'

/-- The characters that a word may start with. Only ASCII letters count. -/
def isWordStart (c : Char) : Bool := c.isAlpha || c == '_'

def isWordChar (c : Char) : Bool := c.isAlphanum || c == '_'

def isQuote (c : Char) : Bool := c == '"'

/-- How many bytes a run of characters takes. -/
def byteLength : List Char → Nat
  | [] => 0
  | c :: cs => c.utf8Size + byteLength cs

/-- A token found at the head of a text: its kind and literal, the characters that it covers
after its first one, and the characters that follow it. -/
structure Lexeme where
  kind : TokenKind
  literal : String
  tail : List Char
  rest : List Char

namespace Lexeme

/-- A token of one character. -/
def single (kind : TokenKind) (c : Char) (cs : List Char) : Lexeme :=
  ⟨kind, String.singleton c, [], cs⟩

/-- A token of two characters if the second one is `=`, and of one character otherwise. -/
def withEq (short long : TokenKind) (c : Char) : List Char → Lexeme
  | '=' :: cs => ⟨long, String.ofList [c, '='], ['='], cs⟩
  | cs => single short c cs

/-- The longest run of word characters after `c`. -/
def word (c : Char) (cs : List Char) : Lexeme :=
  let tail := cs.takeWhile isWordChar
  let text := String.ofList (c :: tail)
  ⟨.ofWord text, text, tail, cs.dropWhile isWordChar⟩

/-- The longest run of digits after `c`. -/
def number (c : Char) (cs : List Char) : Lexeme :=
  let tail := cs.takeWhile Char.isDigit
  ⟨.integer, String.ofList (c :: tail), tail, cs.dropWhile Char.isDigit⟩

/-- A string whose opening quote has been seen. The closing quote may be missing. -/
def quoted (cs : List Char) : Lexeme :=
  let body := cs.takeWhile (!isQuote ·)
  let text := String.ofList body
  match cs.dropWhile (!isQuote ·) with
  | [] => ⟨.text, text, body, []⟩
  | quote :: rest => ⟨.text, text, body ++ [quote], rest⟩

/-- The kind of the operators and marks that are one character and start no longer token. -/
def markKind : Char → TokenKind
  | '+' => .plus
  | '-' => .minus
  | '*' => .star
  | '/' => .slash
  | '%' => .percent
  | ',' => .comma
  | ';' => .semicolon
  | ':' => .colon
  | '(' => .openParen
  | ')' => .closeParen
  | '{' => .openBrace
  | '}' => .closeBrace
  | '[' => .openBracket
  | ']' => .closeBracket
  | _ => .illegal

/-- The longest token that starts with `c`, when `cs` follows. -/
def scan (c : Char) (cs : List Char) : Lexeme :=
  if isWordStart c then word c cs
  else if c.isDigit then number c cs
  else if isQuote c then quoted cs
  else if c == '=' then withEq .assign .equal c cs
  else if c == '!' then withEq .bang .notEqual c cs
  else if c == '<' then withEq .less .lessEq c cs
  else if c == '>' then withEq .greater .greaterEq c cs
  else single (markKind c) c cs

theorem withEq_append (short long : TokenKind) (c : Char) (cs : List Char) :
    (withEq short long c cs).tail ++ (withEq short long c cs).rest = cs := by
  unfold withEq
  split <;> simp [single]

theorem quoted_append (cs : List Char) : (quoted cs).tail ++ (quoted cs).rest = cs := by
  have h := List.takeWhile_append_dropWhile (p := fun c => !isQuote c) (l := cs)
  unfold quoted
  split
  · next hd => rw [hd] at h; simpa using h
  · next hd => rw [hd] at h; simpa using h

/-- Nothing is lost: what a token covers and what follows it make up the text. -/
theorem scan_append (c : Char) (cs : List Char) : (scan c cs).tail ++ (scan c cs).rest = cs := by
  unfold scan
  split
  · exact List.takeWhile_append_dropWhile
  · split
    · exact List.takeWhile_append_dropWhile
    · split
      · exact quoted_append cs
      · repeat' split
        all_goals first | exact withEq_append .. | simp [single]

theorem length_rest_scan (c : Char) (cs : List Char) : (scan c cs).rest.length ≤ cs.length := by
  have h := congrArg List.length (scan_append c cs)
  simp only [List.length_append] at h
  omega

end Lexeme

/-- The tokens of a text and the offset at which its first end token stands. -/
structure Scanned where
  tokens : List Token
  stop : Nat
deriving Repr, DecidableEq, Inhabited

/-- The tokens of `cs`, whose first character stands at `offset`. -/
def scanFrom (offset : Nat) : List Char → Scanned
  | [] => ⟨[], offset⟩
  | c :: cs =>
    if isBlank c then scanFrom (offset + c.utf8Size) cs
    else if c == '\x00' then ⟨[], offset⟩
    else
      let lexeme := Lexeme.scan c cs
      let stop := offset + byteLength (c :: lexeme.tail)
      let later := scanFrom stop lexeme.rest
      ⟨⟨lexeme.kind, lexeme.literal, ⟨offset, stop⟩⟩ :: later.tokens, later.stop⟩
termination_by cs => cs.length
decreasing_by
  · simp
  · have := Lexeme.length_rest_scan c cs
    simp only [List.length_cons]
    omega

/-- A scanned source text: its tokens, the offset of the first end token, and the length of the
text, at which every later end token stands. -/
structure TokenStream where
  tokens : List Token
  firstEnd : Nat
  laterEnd : Nat
deriving Repr, DecidableEq, Inhabited

namespace TokenStream

/-- Scans a source text. -/
def ofSource (source : String) : TokenStream :=
  let scanned := scanFrom 0 source.toList
  ⟨scanned.tokens, scanned.stop, source.utf8ByteSize⟩

/-- The first end token. -/
def finish (s : TokenStream) : Token := .finish s.firstEnd

/-- The end token that is seen from the second time on. -/
def afterFinish (s : TokenStream) : Token := .finish s.laterEnd

/-- The listing of a source text, one line for each token. -/
def listing (s : TokenStream) : List String := s.tokens.map Token.listing

end TokenStream

end CellScript
