import CellScript.Container

/-!
Values. Integers, truth values and null are plain. Strings, containers and functions live in
numbered cells, and a value names the cell, so that all copies of the value see a change to it.
-/

namespace CellScript

open Std

/-- The number of a cell. -/
abbrev Address := Nat

/-- The functions that are there without being defined. -/
inductive Builtin
  | print | len | size | push | pushBack | pushFront | pop | popBack | popFront
  | insert | remove | find | type
deriving Repr, DecidableEq, Inhabited

namespace Builtin

def name : Builtin → String
  | print => "print"
  | len => "len"
  | size => "size"
  | push => "push"
  | pushBack => "push_back"
  | pushFront => "push_front"
  | pop => "pop"
  | popBack => "pop_back"
  | popFront => "pop_front"
  | insert => "insert"
  | remove => "remove"
  | find => "find"
  | type => "type"

def all : List Builtin :=
  [print, len, size, push, pushBack, pushFront, pop, popBack, popFront, insert, remove, find, type]

/-- The function of a name. -/
def ofName? (name : String) : Option Builtin := all.find? fun b => b.name == name

end Builtin

/-- What kind of value a value is. -/
inductive TypeTag
  | integer | boolean | string | null | returnValue | error | function | builtin
  | array | hashmap | hashset | stack | queue | deque | maxheap | minheap
deriving Repr, DecidableEq, Inhabited

namespace TypeTag

def name : TypeTag → String
  | integer => "INTEGER"
  | boolean => "BOOLEAN"
  | string => "STRING"
  | null => "NULL"
  | returnValue => "RETURN_VALUE"
  | error => "ERROR"
  | function => "FUNCTION"
  | builtin => "BUILTIN"
  | array => "ARRAY"
  | hashmap => "HASHMAP"
  | hashset => "HASHSET"
  | stack => "STACK"
  | queue => "QUEUE"
  | deque => "DEQUE"
  | maxheap => "MAXHEAP"
  | minheap => "MINHEAP"

def ofSequence : SequenceKind → TypeTag
  | .array => array
  | .stack => stack
  | .queue => queue
  | .deque => deque

def ofHeap : HeapOrder → TypeTag
  | .max => maxheap
  | .min => minheap

theorem name_injective {s t : TypeTag} (h : s.name = t.name) : s = t := by
  revert h
  cases s <;> cases t <;> decide

end TypeTag

/-- A value. `returning` wraps what a `return` gives until a call or the program unwraps it, and
`failure` is a runtime error made into a value. -/
inductive Value
  | integer (value : Int64)
  | boolean (value : Bool)
  | null
  | text (cell : Address)
  | sequence (kind : SequenceKind) (cell : Address)
  | map (cell : Address)
  | set (cell : Address)
  | heap (order : HeapOrder) (cell : Address)
  | function (cell : Address)
  | builtin (function : Builtin)
  | returning (value : Value)
  | failure (message : String)
deriving Repr, DecidableEq, Inhabited

namespace Value

def tag : Value → TypeTag
  | integer _ => .integer
  | boolean _ => .boolean
  | null => .null
  | text _ => .string
  | sequence kind _ => .ofSequence kind
  | map _ => .hashmap
  | set _ => .hashset
  | heap order _ => .ofHeap order
  | function _ => .function
  | builtin _ => .builtin
  | returning _ => .returnValue
  | failure _ => .error

/-- Whether a condition holds: all but `false`, null and zero do. -/
def truthy : Value → Bool
  | boolean b => b
  | null => false
  | integer n => n != 0
  | _ => true

/-- The result of `!`. -/
def negated : Value → Bool
  | boolean b => !b
  | null => true
  | integer n => n == 0
  | _ => false

def isNull : Value → Bool
  | null => true
  | _ => false

def isReturning : Value → Bool
  | returning _ => true
  | _ => false

/-- Takes one wrapping off. -/
def unwrapped : Value → Value
  | returning v => v
  | v => v

/-- Whether two values are one and the same: plain values by what they are, all others by their
cell. A wrapped value and a failure are the same as nothing. -/
def same : Value → Value → Bool
  | integer a, integer b => a == b
  | boolean a, boolean b => a == b
  | null, null => true
  | text a, text b => a == b
  | sequence k a, sequence l b => k == l && a == b
  | map a, map b => a == b
  | set a, set b => a == b
  | heap o a, heap p b => o == p && a == b
  | function a, function b => a == b
  | builtin a, builtin b => a == b
  | _, _ => false

end Value

/-- What maps and sets file a value under: its kind and its text at that time. -/
structure Key where
  tag : TypeTag
  text : String
deriving Repr, DecidableEq, Inhabited

namespace Key

/-- By the name of the kind and then by the text, both by their characters. -/
instance : Ord Key where
  compare := compareLex (compareOn fun k => k.tag.name) (compareOn Key.text)

instance : TransOrd Key :=
  inferInstanceAs (TransCmp (compareLex (compareOn fun k => k.tag.name) (compareOn Key.text)))

instance : LawfulEqOrd Key where
  compare_self := ReflCmp.compare_self
  eq_of_compare {a b} h := by
    change ((compare a.tag.name b.tag.name).then (compare a.text b.text)) = .eq at h
    obtain ⟨htag, htext⟩ := Ordering.then_eq_eq.1 h
    cases a; cases b
    simp only [Key.mk.injEq]
    exact ⟨TypeTag.name_injective (LawfulEqCmp.eq_of_compare htag),
      LawfulEqCmp.eq_of_compare htext⟩

end Key

end CellScript
