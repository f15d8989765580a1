import CellScript.Console
import CellScript.Program.Document

/-!
The command line: what its arguments ask for, and what comes of it.

The commands are `run`, `repl`, `tokens` and `parse`; without one, an interactive session starts.
The options `--verbose` and `--max-depth` may stand before or behind the command, and behind it they
win. Arguments are taken from left to right, and the first one that is wrong, or that asks for help
or for the version, decides. One thing waits: a value that is an argument of its own is looked at
only when the next option comes or the arguments end. So before a command it is looked at after all
that stands behind the command.
-/

namespace CellScript.CommandLine

inductive Command
  | run | repl | tokens | parse
deriving Repr, DecidableEq, Inhabited

namespace Command

def name : Command → String
  | run => "run"
  | repl => "repl"
  | tokens => "tokens"
  | parse => "parse"

def about : Command → String
  | run => "Run a Kestrel source file"
  | repl => "Start an interactive session (the default)"
  | tokens => "Tokenize and dump tokens (debug)"
  | parse => "Parse and dump the program (debug)"

/-- What the file of a command is for. -/
def fileAbout? : Command → Option String
  | run => some "Source file to run"
  | repl => none
  | tokens => some "Source file to tokenize; interactive when omitted"
  | parse => some "Source file to parse; interactive when omitted"

/-- Whether a command needs a file. -/
def needsFile : Command → Bool
  | run => true
  | repl | tokens | parse => false

def all : List Command := [run, repl, tokens, parse]

def ofName? (name : String) : Option Command := all.find? fun c => c.name == name

end Command

/-- What is wrong with the arguments. -/
inductive UsageError
  | unexpected (argument : String)
  | unknownCommand (argument : String)
  | repeated (option : String)
  | missingValue (option : String)
  | unwantedValue (option : String)
  | badNumber (text : String)
  | missingFile
  | emptyFile
deriving Repr, DecidableEq

def UsageError.message : UsageError → String
  | unexpected argument => "unexpected argument '" ++ argument ++ "' found"
  | unknownCommand argument => "unrecognized subcommand '" ++ argument ++ "'"
  | repeated option => "the argument '" ++ option ++ "' cannot be used multiple times"
  | missingValue option => "a value is required for '" ++ option ++ "' but none was supplied"
  | unwantedValue option => "no value is wanted for '" ++ option ++ "'"
  | badNumber text => "invalid value '" ++ text ++ "' for '--max-depth <MAX_DEPTH>'"
  | missingFile => "the following required arguments were not provided:\n  <FILE>"
  | emptyFile => "a value is required for '<FILE>' but none was supplied"

/-- The options that have been given in one place, before the command or behind it. -/
structure Options where
  verbose : Bool
  limit : Option Nat
  json : Bool
deriving Repr, DecidableEq

def Options.initial : Options := ⟨false, none, false⟩

/-- The options of two places. A limit in the second place wins. -/
def Options.merge (first second : Options) : Options :=
  ⟨first.verbose || second.verbose, second.limit.or first.limit, second.json⟩

/-- A command with all that it needs. -/
structure Invocation where
  command : Command
  file : Option String
  options : Options
deriving Repr, DecidableEq

/-- What the arguments ask for. -/
inductive Request
  | invoke (invocation : Invocation)
  | help (command : Option Command)
  | helpOnHelp
  | version
deriving Repr, DecidableEq

/-- A number that fits in 64 bits: decimal digits, with or without a plus sign. -/
def limit? (text : String) : Option Nat :=
  let digits := match text.toList with
    | '+' :: digits => digits
    | digits => digits
  if digits.isEmpty || !digits.all Char.isDigit then none
  else
    let value := digitsValue digits
    if value < 0x10000000000000000 then some value else none

/-- How an argument is read where options are looked for. -/
inductive Argument
  | plain (text : String)
  | escape
  | long (name : String) (value : Option String)
  | short (letters : List Char)
deriving Repr, DecidableEq

/-- Two dashes start a long option, with its value behind an equals sign; one dash starts letters;
two dashes alone end the options, and one dash alone is a plain argument. -/
def Argument.ofText (text : String) : Argument :=
  match text.toList with
  | ['-', '-'] => escape
  | '-' :: '-' :: name =>
    match name.dropWhile (· != '=') with
    | [] => long (String.ofList name) none
    | _ :: value => long (String.ofList (name.takeWhile (· != '='))) (some (String.ofList value))
  | '-' :: letter :: letters => short (letter :: letters)
  | _ => plain text

/-- Takes a limit that has been given. -/
def Options.withLimit (o : Options) (text : String) : Except UsageError Options :=
  if o.limit.isSome then .error (.repeated "--max-depth <MAX_DEPTH>")
  else
    match limit? text with
    | some n => .ok { o with limit := some n }
    | none => .error (.badNumber text)

/-- Takes a limit that has been waiting. -/
def Options.settle (o : Options) : Option String → Except UsageError Options
  | some text => o.withLimit text
  | none => .ok o

/-- Takes an option without a value. -/
def Options.withFlag (o : Options) (name : String) : Except UsageError Options :=
  if name = "--verbose" then
    if o.verbose then .error (.repeated name) else .ok { o with verbose := true }
  else if o.json then .error (.repeated name) else .ok { o with json := true }

/-- The effect of an option on the reading of arguments. -/
inductive Effect
  | options (o : Options)
  | needsValue
  | request (r : Request)

/-- Reads a long option. `command` is the command it stands behind, if any: only `parse` takes
`--json`, and only where there is no command is the version asked for. -/
def longOption (command : Option Command) (o : Options) (name : String) (value : Option String) :
    Except UsageError Effect :=
  let option := "--" ++ name
  let flag := name = "verbose" ∨ (name = "json" ∧ command = some .parse)
  let asking := name = "help" ∨ (name = "version" ∧ command = none)
  if name = "max-depth" then
    match value with
    | some text => (o.withLimit text).map .options
    | none => .ok .needsValue
  else if flag ∨ asking then
    if value.isSome then .error (.unwantedValue option)
    else if name = "help" then .ok (.request (.help command))
    else if name = "version" then .ok (.request .version)
    else (o.withFlag option).map .options
  else .error (.unexpected option)

/-- Reads letters behind one dash, of which the first decides. -/
def shortOption (command : Option Command) : List Char → Except UsageError Request
  | 'h' :: _ => .ok (.help command)
  | 'V' :: _ => if command = none then .ok .version else .error (.unexpected "-V")
  | letters => .error (.unexpected (String.ofList ('-' :: letters)))

/-- Whether an argument can be the value of the option before it. -/
def isValue (text : String) : Bool :=
  match Argument.ofText text with
  | .plain _ => true
  | _ => false

/-- Takes a plain argument as the file of a command. -/
def takeFile (command : Command) (file : Option String) (text : String) :
    Except UsageError String :=
  if command.fileAbout?.isNone ∨ file.isSome then .error (.unexpected text)
  else if text.isEmpty then .error .emptyFile
  else .ok text

/-- The end of the arguments behind a command. -/
def conclude (command : Command) (o : Options) (file : Option String) :
    Except UsageError Request :=
  if command.needsFile ∧ file.isNone then .error .missingFile
  else .ok (.invoke ⟨command, file, o⟩)

/-- Reads the arguments behind the two dashes that end the options. -/
def readPlain (command : Command) (o : Options) (file : Option String) :
    List String → Except UsageError Request
  | [] => conclude command o file
  | text :: rest =>
    match takeFile command file text with
    | .error e => .error e
    | .ok file => readPlain command o (some file) rest

/-- Reads the arguments behind a command. Here no value needs to wait: whatever comes next looks at
it first. -/
def readCommand (command : Command) (o : Options) (file : Option String) :
    List String → Except UsageError Request
  | [] => conclude command o file
  | text :: rest =>
    match Argument.ofText text with
    | .escape => readPlain command o file rest
    | .short letters => shortOption (some command) letters
    | .plain text =>
      match takeFile command file text with
      | .error e => .error e
      | .ok file => readCommand command o (some file) rest
    | .long name value =>
      match longOption (some command) o name value with
      | .error e => .error e
      | .ok (.request r) => .ok r
      | .ok (.options o) => readCommand command o file rest
      | .ok .needsValue =>
        match rest with
        | [] => .error (.missingValue "--max-depth <MAX_DEPTH>")
        | value :: rest =>
          if isValue value then
            match o.withLimit value with
            | .error e => .error e
            | .ok o => readCommand command o file rest
          else .error (.missingValue "--max-depth <MAX_DEPTH>")

/-- What a name asks for help about. -/
def helpRequest? (name : String) : Option Request :=
  if name = "help" then some .helpOnHelp
  else (Command.ofName? name).map fun command => .help (some command)

/-- Reads the arguments behind `help`, which are names of commands. No command has commands of its
own, so a second name is one too many. -/
def readHelp : List String → Except UsageError Request
  | [] => .ok (.help none)
  | name :: rest =>
    match helpRequest? name, rest with
    | none, _ => .error (.unknownCommand name)
    | some request, [] => .ok request
    | some _, extra :: _ => .error (.unknownCommand extra)

/-- Joins what stands before a command with what is read behind it. The limit that waits before the
command is looked at only if the command is to be carried out. -/
def joinOptions (o : Options) (waiting : Option String) : Request → Except UsageError Request
  | .invoke i => (o.settle waiting).map fun o => .invoke { i with options := o.merge i.options }
  | request => .ok request

/-- Reads arguments up to the command. `waiting` is a limit that has been given and not yet been
looked at. -/
def readFrom (o : Options) (waiting : Option String) : List String → Except UsageError Request
  | [] => (o.settle waiting).map fun o => .invoke ⟨.repl, none, o⟩
  | text :: rest =>
    match Argument.ofText text with
    | .escape =>
      match rest with
      | [] => (o.settle waiting).map fun o => .invoke ⟨.repl, none, o⟩
      | extra :: _ => .error (.unexpected extra)
    | .short letters =>
      match o.settle waiting with
      | .error e => .error e
      | .ok _ => shortOption none letters
    | .plain text =>
      if text = "help" then readHelp rest
      else
        match Command.ofName? text with
        | none => .error (.unknownCommand text)
        | some command =>
          match readCommand command .initial none rest with
          | .error e => .error e
          | .ok request => joinOptions o waiting request
    | .long name value =>
      match o.settle waiting with
      | .error e => .error e
      | .ok o =>
        match longOption none o name value with
        | .error e => .error e
        | .ok (.request r) => .ok r
        | .ok (.options o) => readFrom o none rest
        | .ok .needsValue =>
          match rest with
          | [] => .error (.missingValue "--max-depth <MAX_DEPTH>")
          | value :: rest =>
            if isValue value then readFrom o (some value) rest
            else .error (.missingValue "--max-depth <MAX_DEPTH>")

/-- Reads the arguments of the program. -/
def read (arguments : List String) : Except UsageError Request := readFrom .initial none arguments

/-! ### Texts -/

def versionText : String := "kestrel 0.1.0\n"

def optionLines : List String :=
  ["      --verbose                Log pipeline stages to stderr",
   "      --max-depth <MAX_DEPTH>  Nested call depth that fails with a stack overflow error " ++
     "[default: 10000]",
   "  -h, --help                   Print help"]

/-- The help for the whole program. -/
def mainHelp : String :=
  unlines
    (["Kestrel - a small scripting language", "", "Usage: kestrel [OPTIONS] [COMMAND]", "",
      "Commands:",
      "  run     Run a Kestrel source file",
      "  repl    Start an interactive session (the default)",
      "  tokens  Tokenize and dump tokens (debug)",
      "  parse   Parse and dump the program (debug)",
      "  help    Print this message or the help of the given subcommand(s)", "", "Options:"] ++
     optionLines ++ ["  -V, --version                Print version"])

/-- The help for a command. -/
def commandHelp (command : Command) : String :=
  let shown := if command.needsFile then "<FILE>" else "[FILE]"
  let (usage, arguments) := match command.fileAbout? with
    | some about => (" " ++ shown, ["Arguments:", "  " ++ shown ++ "  " ++ about, ""])
    | none => ("", [])
  let json := if command = .parse then
      ["      --json                   Dump the AST as JSON instead of canonical source"]
    else []
  unlines
    ([command.about, "", "Usage: kestrel " ++ command.name ++ " [OPTIONS]" ++ usage, ""] ++
     arguments ++ ["Options:"] ++ json ++ optionLines)

/-- The help for asking for help. -/
def helpHelp : String :=
  unlines
    ["Print this message or the help of the given subcommand(s)", "",
     "Usage: kestrel help [COMMAND]...", "", "Arguments:",
     "  [COMMAND]...  Print help for the subcommand(s)"]

def helpText : Option Command → String
  | none => mainHelp
  | some command => commandHelp command

/-! ### Responses -/

/-- What the program leaves behind: the exit code, what it writes, and what it says of its own
troubles. -/
structure Response where
  code : UInt32
  output : String
  complaint : String
deriving Repr, DecidableEq

namespace Response

def success (output : String) : Response := ⟨0, output, ""⟩

def failure (output complaint : String) : Response := ⟨1, output, complaint⟩

def misuse (error : UsageError) : Response := ⟨2, "", unlines ["error: " ++ error.message]⟩

/-- The complaint about a source text: each error with its range. -/
def badSource (errors : List SyntaxError) : Response :=
  .failure ""
    (unlines (errors.map fun e => "parse error at " ++ e.span.render ++ ": " ++ e.message))

def unreadable (file : String) : Response :=
  .failure "" (unlines ["Error: cannot read " ++ file ++ " as text"])

end Response

/-- Runs a source text, and shows the value it gives unless that is null. -/
def runSource (fuel limit : Nat) (source : String) : Option Response :=
  ((Session.start limit).runSource fuel source).map fun answer =>
    let s := answer.session.store
    match answer.result with
    | .ok .null => .success s.output
    | .ok value => .success (s.output ++ unlines [s.render value])
    | .error (.runtime fault) =>
      .failure (s.output ++ unlines [s.render (.failure fault.message)]) ""
    | .error (.source errors) => .badSource errors

/-- Lists the tokens of a source text. -/
def listTokens (source : String) : Response :=
  .success (unlines (TokenStream.ofSource source).listing)

/-- Shows the program that a source text is. -/
def showProgram (json : Bool) (source : String) : Response :=
  match Program.parse source with
  | .ok program => .success (if json then unlines [program.toJson.pretty] else program.render)
  | .error errors => .badSource errors

/-- The mode of the session that a command starts when it has no file. -/
def Command.mode : Command → Mode
  | run | repl => .eval
  | tokens => .tokens
  | parse => .parse

/-- The calls that may be under way at once. -/
def Invocation.limit (i : Invocation) : Nat := i.options.limit.getD Session.defaultLimit

/-- What a command does with a source text. -/
def Invocation.onSource (i : Invocation) (fuel : Nat) (source : String) : Option Response :=
  match i.command with
  | .run | .repl => runSource fuel i.limit source
  | .tokens => some (listTokens source)
  | .parse => some (showProgram i.options.json source)

/-- What a command does with the bytes of its file, or without them if the file cannot be read. -/
def Invocation.onFile (i : Invocation) (fuel : Nat) (file : String)
    (contents : Option (List UInt8)) : Option Response :=
  match contents.bind decodeText? with
  | some source => i.onSource fuel source
  | none => some (.unreadable file)

/-- Carries out a command. `contents` gives the bytes of a file, and `input` is what an interactive
session reads. -/
def Invocation.perform (i : Invocation) (fuel : Nat) (contents : String → Option (List UInt8))
    (input : List UInt8) : Option Response :=
  match i.file with
  | some file => i.onFile fuel file (contents file)
  | none => (Console.interact fuel i.limit i.command.mode input).map .success

/-- Answers the arguments of the program. -/
def respond (arguments : List String) (fuel : Nat) (contents : String → Option (List UInt8))
    (input : List UInt8) : Option Response :=
  match read arguments with
  | .error e => some (.misuse e)
  | .ok (.help command) => some (.success (helpText command))
  | .ok .helpOnHelp => some (.success helpHelp)
  | .ok .version => some (.success versionText)
  | .ok (.invoke i) => i.perform fuel contents input

end CellScript.CommandLine
