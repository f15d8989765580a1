/-!
The kinds of container that the language has literals for, with the words that write them.
-/

namespace CellScript

/-- Containers that keep their items in a row. They differ in the ends at which items come and
go. -/
inductive SequenceKind
  | array | stack | queue | deque
deriving Repr, DecidableEq, Inhabited

/-- Which item a heap hands out first. -/
inductive HeapOrder
  | max | min
deriving Repr, DecidableEq, Inhabited

/-- What a heap holds; it is fixed when the heap is made. -/
inductive HeapElement
  | integer | text
deriving Repr, DecidableEq, Inhabited

/-- The text that stands before the items of a sequence. -/
def SequenceKind.opener : SequenceKind → String
  | array => "["
  | stack => "stack<>\x7b"
  | queue => "queue<>\x7b"
  | deque => "deque<>\x7b"

/-- The text that stands after the items of a sequence. -/
def SequenceKind.closer : SequenceKind → String
  | array => "]"
  | stack | queue | deque => "\x7d"

def setOpener : String := "hashset<>\x7b"

def mapOpener : String := "\x7b"

/-- The text that stands after the items of a set, a map or a heap. -/
def braceCloser : String := "\x7d"

def HeapOrder.keyword : HeapOrder → String
  | max => "maxheap"
  | min => "minheap"

def HeapElement.name : HeapElement → String
  | integer => "int"
  | text => "string"

/-- The element type that a heap literal names. -/
def HeapElement.ofName? (name : String) : Option HeapElement :=
  if name = "int" then some .integer else if name = "string" then some .text else none

/-- The text that stands before the items of a heap. -/
def heapOpener (order : HeapOrder) (element : HeapElement) : String :=
  order.keyword ++ "<" ++ element.name ++ ">\x7b"

theorem HeapElement.ofName?_name (e : HeapElement) : ofName? e.name = some e := by
  cases e <;> rfl

theorem HeapElement.ofName?_eq_some_iff {name : String} {e : HeapElement} :
    ofName? name = some e ↔ name = e.name := by
  cases e <;> unfold ofName? HeapElement.name <;> split <;> simp_all

end CellScript
