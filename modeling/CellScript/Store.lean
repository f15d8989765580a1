import CellScript.Heap
import CellScript.OrderedMap
import CellScript.Program
import CellScript.Value

/-!
The store: cells for what is shared, scopes for what is bound, the text that has been printed, and
the number of calls that are under way.

Cells and scopes are numbered in the order in which they are made and are never taken away. A scope
names the scope around it, which was made before it; so looking a name up goes to ever smaller
numbers and ends.
-/

namespace CellScript

/-- The number of a scope. -/
abbrev ScopeId := Nat

/-- A function with the scope that it was made in. -/
structure Closure where
  parameters : List String
  body : List Stmt
  scope : ScopeId
deriving Inhabited

/-- What a cell holds. The entry of a map holds the key's value beside the value. -/
inductive Cell
  | text (contents : String)
  | sequence (items : Array Value)
  | map (entries : OrderedMap Key (Value × Value))
  | set (members : OrderedMap Key Value)
  | heap (contents : Heap)
  | function (closure : Closure)
deriving Inhabited

/-- The names bound in one place, and the scope around it. -/
structure Scope where
  bindings : OrderedMap String Value
  outer : Option ScopeId
deriving Inhabited

structure Store where
  cells : Array Cell
  scopes : Array Scope
  output : String
  depth : Nat
deriving Inhabited

namespace Store

/-- The scope that every other one lies in. -/
def globalScope : ScopeId := 0

/-- Only the global scope, with nothing bound in it. -/
def initial : Store := ⟨#[], #[⟨.empty, none⟩], "", 0⟩

/-! ### Cells

A value says what its cell holds, and reading a cell as something else gives the empty thing. -/

/-- A new cell. -/
def alloc (s : Store) (cell : Cell) : Address × Store :=
  (s.cells.size, { s with cells := s.cells.push cell })

/-- A cell with other contents. -/
def modify (s : Store) (a : Address) (change : Cell → Cell) : Store :=
  { s with cells := s.cells.modify a change }

def textAt (s : Store) (a : Address) : String :=
  match s.cells[a]? with
  | some (.text contents) => contents
  | _ => ""

def itemsAt (s : Store) (a : Address) : Array Value :=
  match s.cells[a]? with
  | some (.sequence items) => items
  | _ => #[]

def mapAt (s : Store) (a : Address) : OrderedMap Key (Value × Value) :=
  match s.cells[a]? with
  | some (.map entries) => entries
  | _ => .empty

def setAt (s : Store) (a : Address) : OrderedMap Key Value :=
  match s.cells[a]? with
  | some (.set members) => members
  | _ => .empty

def heapAt (s : Store) (a : Address) : Heap :=
  match s.cells[a]? with
  | some (.heap contents) => contents
  | _ => default

def closureAt (s : Store) (a : Address) : Closure :=
  match s.cells[a]? with
  | some (.function closure) => closure
  | _ => default

/-- Changes the contents of a string. -/
def modifyText (s : Store) (a : Address) (change : String → String) : Store :=
  s.modify a fun
    | .text contents => .text (change contents)
    | cell => cell

/-- Changes the items of a sequence. -/
def modifyItems (s : Store) (a : Address) (change : Array Value → Array Value) : Store :=
  s.modify a fun
    | .sequence items => .sequence (change items)
    | cell => cell

/-- Changes the entries of a map. -/
def modifyMap (s : Store) (a : Address)
    (change : OrderedMap Key (Value × Value) → OrderedMap Key (Value × Value)) : Store :=
  s.modify a fun
    | .map entries => .map (change entries)
    | cell => cell

/-- Changes the members of a set. -/
def modifySet (s : Store) (a : Address)
    (change : OrderedMap Key Value → OrderedMap Key Value) : Store :=
  s.modify a fun
    | .set members => .set (change members)
    | cell => cell

/-- Puts another heap in the place of a heap. -/
def replaceHeap (s : Store) (a : Address) (contents : Heap) : Store :=
  s.modify a fun
    | .heap _ => .heap contents
    | cell => cell

/-! ### New values -/

def newText (s : Store) (contents : String) : Value × Store :=
  let (a, s) := s.alloc (.text contents)
  (.text a, s)

def newSequence (s : Store) (kind : SequenceKind) (items : Array Value) : Value × Store :=
  let (a, s) := s.alloc (.sequence items)
  (.sequence kind a, s)

def newMap (s : Store) (entries : OrderedMap Key (Value × Value)) : Value × Store :=
  let (a, s) := s.alloc (.map entries)
  (.map a, s)

def newSet (s : Store) (members : OrderedMap Key Value) : Value × Store :=
  let (a, s) := s.alloc (.set members)
  (.set a, s)

def newHeap (s : Store) (contents : Heap) : Value × Store :=
  let (a, s) := s.alloc (.heap contents)
  (.heap contents.order a, s)

def newFunction (s : Store) (closure : Closure) : Value × Store :=
  let (a, s) := s.alloc (.function closure)
  (.function a, s)

/-- The value of a heap's item; a string gets a cell of its own. -/
def newItem (s : Store) : HeapItem → Value × Store
  | .integer value => (.integer value, s)
  | .text contents => s.newText contents

/-- What a heap keeps of a value, if heaps can hold such values at all. -/
def heapItem? (s : Store) : Value → Option HeapItem
  | .integer value => some (.integer value)
  | .text a => some (.text (s.textAt a))
  | _ => none

/-! ### Scopes -/

/-- The names bound in a scope itself. -/
def bindingsOf (s : Store) (scope : ScopeId) : OrderedMap String Value :=
  match s.scopes[scope]? with
  | some here => here.bindings
  | none => .empty

/-- The scope around a scope. -/
def outerOf (s : Store) (scope : ScopeId) : Option ScopeId :=
  match s.scopes[scope]? with
  | some here => here.outer
  | none => none

/-- A new scope inside `outer`, with nothing bound in it. -/
def enter (s : Store) (outer : ScopeId) : ScopeId × Store :=
  (s.scopes.size, { s with scopes := s.scopes.push ⟨.empty, some outer⟩ })

/-- Binds a name in a scope. What is bound around it stays as it is. -/
def bind (s : Store) (scope : ScopeId) (name : String) (value : Value) : Store :=
  { s with
    scopes := s.scopes.modify scope fun here =>
      { here with bindings := here.bindings.insert name value } }

/-- Binds names to values, the first to the first and so on. -/
def bindAll (s : Store) (scope : ScopeId) : List (String × Value) → Store
  | [] => s
  | (name, value) :: rest => (s.bind scope name value).bindAll scope rest

/-- Drops all that is bound in a scope itself. -/
def clear (s : Store) (scope : ScopeId) : Store :=
  { s with scopes := s.scopes.modify scope fun here => { here with bindings := .empty } }

/-- What a name is bound to, from the innermost scope that binds it. -/
def lookup (s : Store) (scope : ScopeId) (name : String) : Option Value :=
  match (s.bindingsOf scope).find? name with
  | some value => some value
  | none =>
    match s.outerOf scope with
    | some outer => if outer < scope then s.lookup outer name else none
    | none => none
termination_by scope

/-- Whether a name is bound in a scope or around it. -/
def resolves (s : Store) (scope : ScopeId) (name : String) : Bool :=
  (s.bindingsOf scope).contains name ||
    match s.outerOf scope with
    | some outer => if outer < scope then s.resolves outer name else false
    | none => false
termination_by scope

/-! ### Output -/

/-- Prints a text and a line break. -/
def printLine (s : Store) (line : String) : Store := { s with output := s.output ++ line ++ "\n" }

/-- What has been printed, and the store with nothing printed. -/
def takeOutput (s : Store) : String × Store := (s.output, { s with output := "" })

end Store

end CellScript
