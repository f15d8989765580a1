import CellScript.Program.Text
import CellScript.Session
import CellScript.Text.LineReader

/-!
The console: an interactive session that answers lines one by one.

Each line is a source text of its own. Depending on the mode it is run, listed as tokens, or shown
as the program it is. Lines that start with a colon are commands to the console itself. The lines
come from a reader, which may have changed them.
-/

namespace CellScript

/-- What the console does with a line. -/
inductive Mode
  | eval | tokens | parse
deriving Repr, DecidableEq, Inhabited

def Mode.name : Mode → String
  | eval => "eval"
  | tokens => "tokens"
  | parse => "parse"

structure Console where
  mode : Mode
  session : Session

/-- What a line brings about: a text, and the console afterwards unless the line ended it. -/
structure Turn where
  output : String
  console : Option Console

/-- Lines of output, each with its line break. -/
def unlines (lines : List String) : String := lines.foldr (fun line rest => line ++ "\n" ++ rest) ""

namespace Console

def banner (mode : Mode) : String :=
  unlines ["Kestrel REPL (" ++ mode.name ++ " mode)", "Type :help for help, :quit to exit.", ""]

def farewell : String := unlines ["Goodbye!"]

def help : String :=
  unlines
    ["Kestrel REPL Commands:",
     "  :help, :h, :?   Show this help",
     "  :quit, :q       Exit the REPL",
     "  :clear          Clear the screen",
     "  :env            List global bindings",
     "  :reset          Drop all global bindings",
     "",
     "You can enter:",
     "  - Bindings: let x = 5; x = x + 1",
     "  - Functions: let add = def(a, b) \x7b a + b \x7d; add(1, 2)",
     "  - Containers: [1, 2], \x7b\"k\": 1\x7d, stack<>\x7b\x7d, maxheap<int>\x7b3, 1\x7d",
     "",
     "Built-in functions:",
     "  print len size type find",
     "  push push_front push_back pop pop_front pop_back insert remove"]

/-- Clears a terminal and goes to its upper left corner. -/
def clearScreen : String := "\x1B[2J\x1B[1;1H"

/-- A command: a line that starts with a colon. -/
inductive Command
  | quit | help | clear | env | reset
  | unknown (line : String)
deriving Repr, DecidableEq

def Command.ofLine (line : String) : Command :=
  if line = ":quit" ∨ line = ":q" ∨ line = ":exit" then quit
  else if line = ":help" ∨ line = ":h" ∨ line = ":?" then help
  else if line = ":clear" then clear
  else if line = ":env" then env
  else if line = ":reset" then reset
  else unknown line

/-- The global bindings, one on a line. -/
def listing (c : Console) : String :=
  unlines ((c.session.bindings Store.globalScope).map fun (name, value) =>
    name ++ " = " ++ c.session.store.render value)

def obey (c : Console) : Command → Turn
  | .quit => ⟨farewell, none⟩
  | .help => ⟨help, some c⟩
  | .clear => ⟨clearScreen, some c⟩
  | .env => ⟨c.listing, some c⟩
  | .reset => ⟨unlines ["Global bindings cleared."], some { c with session := c.session.reset }⟩
  | .unknown line => ⟨unlines ["Unknown command: " ++ line, "Type :help for help."], some c⟩

def errorLines (errors : List SyntaxError) : String :=
  unlines (errors.map fun e => "parse error: " ++ e.message)

/-- The lines that show how a program ended. Null shows nothing. -/
def resultLines (s : Store) : Except Fault Value → List String
  | .ok .null => []
  | .ok value => [s.render value]
  | .error fault => [s.render (.failure fault.message)]

/-- Runs a program and shows what it printed and how it ended. -/
def eval (c : Console) (fuel : Nat) (program : Program) : Option Turn :=
  let mode := c.mode
  (c.session.run fuel program).map fun answer =>
    let (printed, session) := answer.session.takeOutput
    ⟨printed ++ unlines (resultLines session.store answer.result), some ⟨mode, session⟩⟩

/-- Answers a line that is a source text. -/
def respond (c : Console) (fuel : Nat) (line : String) : Option Turn :=
  match c.mode with
  | .tokens => some ⟨unlines (TokenStream.ofSource line).listing, some c⟩
  | .parse =>
    match Program.parse line with
    | .ok program => some ⟨program.render, some c⟩
    | .error errors => some ⟨errorLines errors, some c⟩
  | .eval =>
    match Program.parse line with
    | .ok program => c.eval fuel program
    | .error errors => some ⟨errorLines errors, some c⟩

/-- Answers a line as the reader hands it over. White space around it does not count, and a line of
nothing else is passed over. -/
def turn (reader : LineReader) (c : Console) (fuel : Nat) (line : String) : Option Turn :=
  let line := trimmed (reader.read line)
  if line.isEmpty then some ⟨"", some c⟩
  else if line.toList.head? = some ':' then some (c.obey (.ofLine line))
  else c.respond fuel line

/-- What the console writes when it is given lines. A line that is no text ends it at once;
otherwise it ends with the last line, or where a line ends it. -/
def transcript (reader : LineReader) (fuel : Nat) :
    Console → List (Option String) → Option String
  | _, [] => some farewell
  | _, none :: _ => some ""
  | c, some line :: rest =>
    match c.turn reader fuel line with
    | none => none
    | some ⟨output, none⟩ => some output
    | some ⟨output, some c⟩ => (transcript reader fuel c rest).map (output ++ ·)

end Console

/-- The lines of some bytes. The last one may lack its line break. -/
def byteLines (bytes : List UInt8) : List (List UInt8) :=
  match h : bytes with
  | [] => []
  | first :: rest =>
    let line := (first :: rest).takeWhile (· != 10)
    line :: byteLines (bytes.drop (line.length + 1))
termination_by bytes.length
decreasing_by simp only [h, List.length_drop, List.length_cons]; omega

/-- The text that bytes encode, if they encode one. -/
def decodeText? (bytes : List UInt8) : Option String := String.fromUTF8? ⟨bytes.toArray⟩

namespace Console

/-- All that an interactive session on some input writes. -/
def interactWith (reader : LineReader) (fuel limit : Nat) (mode : Mode) (input : List UInt8) :
    Option String :=
  (transcript reader fuel ⟨mode, .start limit⟩ ((byteLines input).map decodeText?)).map
    (banner mode ++ ·)

/-- An interactive session with the reader of the program. -/
def interact (fuel limit : Nat) (mode : Mode) (input : List UInt8) : Option String :=
  interactWith .typing fuel limit mode input

end Console

end CellScript
