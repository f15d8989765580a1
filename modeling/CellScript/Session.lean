import CellScript.Machine
import CellScript.Program.Parse

/-!
Sessions: programs that run one after the other on one store.

A fault or an error in a source text ends only the program it is in. Whatever runs may run for ever,
so each operation takes the number of machine steps that it may use and gives nothing if they do
not suffice.
-/

namespace CellScript

/-- How many calls may be under way at once, and the store. -/
structure Session where
  limit : Nat
  store : Store
deriving Inhabited

/-- Why a source text gave no value. -/
inductive Failure
  | source (errors : List SyntaxError)
  | runtime (fault : Fault)

/-- The end of an operation: a value or the reason why there is none, and the session after it. -/
structure Answer (ε : Type) where
  result : Except ε Value
  session : Session

namespace Session

/-- The number of calls under way that is allowed where nobody says another one. -/
def defaultLimit : Nat := 10000

def start (limit : Nat) : Session := ⟨limit, .initial⟩

/-- Runs the machine to its end. -/
def complete (s : Session) (fuel : Nat) (control : Control) : Option (Answer Fault) :=
  let limit := s.limit
  (Machine.run limit fuel ⟨control, [], s.store⟩).map fun outcome =>
    ⟨outcome.result, ⟨limit, outcome.store⟩⟩

/-- Runs a program in a scope. A `return` outside all functions ends it with what is returned. -/
def runIn (s : Session) (fuel : Nat) (scope : ScopeId) (program : Program) :
    Option (Answer Fault) :=
  (s.complete fuel (.perform program.statements scope)).map fun answer =>
    { answer with result := answer.result.map Value.unwrapped }

/-- Runs a program in the global scope. -/
def run (s : Session) (fuel : Nat) (program : Program) : Option (Answer Fault) :=
  s.runIn fuel Store.globalScope program

/-- Runs a program in the global scope and makes a value also of a fault. -/
def runToValue (s : Session) (fuel : Nat) (program : Program) : Option (Value × Session) :=
  (s.run fuel program).map fun answer =>
    match answer.result with
    | .ok value => (value, answer.session)
    | .error fault => (.failure fault.message, answer.session)

/-- Runs a statement in a scope. What a `return` gives stays wrapped. -/
def execute (s : Session) (fuel : Nat) (scope : ScopeId) (statement : Stmt) :
    Option (Answer Fault) :=
  s.complete fuel (.execute statement scope)

/-- Calls a function with arguments. -/
def call (s : Session) (fuel : Nat) (callee : Value) (arguments : List Value) :
    Option (Answer Fault) :=
  s.complete fuel (.apply callee arguments)

/-- Reads a source text and runs it in the global scope, unless something is wrong with it. -/
def runSource (s : Session) (fuel : Nat) (source : String) : Option (Answer Failure) :=
  match Program.parse source with
  | .error errors => some ⟨.error (.source errors), s⟩
  | .ok program => (s.run fuel program).map fun answer =>
      ⟨answer.result.mapError .runtime, answer.session⟩

/-- Drops all that is bound in the global scope. -/
def reset (s : Session) : Session :=
  { s with store := { s.store.clear Store.globalScope with depth := 0 } }

/-- The names bound in a scope itself with their values, by the names. -/
def bindings (s : Session) (scope : ScopeId) : List (String × Value) :=
  (s.store.bindingsOf scope).entries

/-- What has been printed since the last time, and the session without it. -/
def takeOutput (s : Session) : String × Session :=
  let (output, store) := s.store.takeOutput
  (output, { s with store := store })

end Session

end CellScript
