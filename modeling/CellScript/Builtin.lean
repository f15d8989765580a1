import CellScript.Operator

/-!
The built-in functions. Each one checks the number and the kinds of its arguments before it changes
anything, so that a call that fails leaves the store as it was. Keys are taken before a container
changes, since a container may hold itself.
-/

namespace CellScript

/-- The first place at which `pattern` starts in a text, counted from `start`. -/
def positionOf (pattern : List Char) (start : Nat) : List Char → Option Nat
  | [] => if pattern.isEmpty then some start else none
  | c :: cs =>
    if pattern.isPrefixOf (c :: cs) then some start else positionOf pattern (start + 1) cs

/-- A position as a value; minus one where there is none. -/
def positionValue : Option Nat → Value
  | some n => .integer (Int64.ofNat n)
  | none => .integer (-1)

namespace Store

/-- How many characters, items, entries or members a value has. -/
def length? (s : Store) : Value → Option Nat
  | .text a => some (s.textAt a).length
  | .sequence _ a => some (s.itemsAt a).size
  | .map a => some (s.mapAt a).size
  | .set a => some (s.setAt a).size
  | .heap _ a => some (s.heapAt a).size
  | _ => none

/-- The heap with a value taken in. -/
def pushHeap (s : Store) (heap : Heap) (value : Value) : Except Fault Heap :=
  match (s.heapItem? value).bind heap.push? with
  | some heap => .ok heap
  | none => .error (.heapElementMismatch heap.element value.tag)

end Store

namespace Builtin

/-- Takes the last item of a sequence. -/
def takeBack (function : Builtin) (s : Store) (container : Value) (a : Address) : Outcome :=
  match (s.itemsAt a).back? with
  | some value => .value value (s.modifyItems a Array.pop)
  | none => .fault (.emptyContainer function container.tag) s

/-- Takes the first item of a sequence. -/
def takeFront (function : Builtin) (s : Store) (container : Value) (a : Address) : Outcome :=
  match (s.itemsAt a)[0]? with
  | some value => .value value (s.modifyItems a fun items => items.extract 1)
  | none => .fault (.emptyContainer function container.tag) s

/-- Takes the last character of a string, as a new string. -/
def takeLastChar (function : Builtin) (s : Store) (container : Value) (a : Address) : Outcome :=
  match (s.textAt a).toList.getLast? with
  | some c =>
    .fresh ((s.modifyText a fun text => String.ofList text.toList.dropLast).newText
      (String.singleton c))
  | none => .fault (.emptyContainer function container.tag) s

/-- Takes the next item of a heap. -/
def takeNext (function : Builtin) (s : Store) (container : Value) (a : Address) : Outcome :=
  match (s.heapAt a).pop? with
  | some (item, heap) => .fresh ((s.replaceHeap a heap).newItem item)
  | none => .fault (.emptyContainer function container.tag) s

def callPrint (s : Store) (arguments : List Value) : Outcome :=
  .value .null (s.printLine (separated " " (arguments.map s.render)))

def callLen (s : Store) : List Value → Outcome
  | [container] =>
    match s.length? container with
    | some n => .value (.integer (Int64.ofNat n)) s
    | none => .fault (.unsupportedArgument .len container.tag) s
  | arguments => .fault (.wrongArgumentCount .len 1 arguments.length) s

def callPush (s : Store) : List Value → Outcome
  | [container, value] =>
    match container with
    | .sequence _ a => .value .null (s.modifyItems a (·.push value))
    | .text a =>
      match value with
      | .text b =>
        let suffix := s.textAt b
        .value .null (s.modifyText a (· ++ suffix))
      | other => .fault (.unsupportedArgument .push other.tag) s
    | .heap _ a =>
      match s.pushHeap (s.heapAt a) value with
      | .ok heap => .value .null (s.replaceHeap a heap)
      | .error f => .fault f s
    | .set a =>
      let key := s.key value
      .value .null (s.modifySet a (·.insert key value))
    | other => .fault (.unsupportedArgument .push other.tag) s
  | arguments => .fault (.wrongArgumentCount .push 2 arguments.length) s

def callPushBack (s : Store) : List Value → Outcome
  | [container, value] =>
    match container with
    | .sequence .deque a | .sequence .queue a | .sequence .array a =>
      .value .null (s.modifyItems a (·.push value))
    | other => .fault (.unsupportedArgument .pushBack other.tag) s
  | arguments => .fault (.wrongArgumentCount .pushBack 2 arguments.length) s

def callPushFront (s : Store) : List Value → Outcome
  | [container, value] =>
    match container with
    | .sequence .deque a => .value .null (s.modifyItems a (#[value] ++ ·))
    | other => .fault (.unsupportedArgument .pushFront other.tag) s
  | arguments => .fault (.wrongArgumentCount .pushFront 2 arguments.length) s

def callPop (s : Store) : List Value → Outcome
  | [container] =>
    match container with
    | .sequence .array a | .sequence .stack a | .sequence .deque a =>
      takeBack .pop s container a
    | .sequence .queue a => takeFront .pop s container a
    | .text a => takeLastChar .pop s container a
    | .heap _ a => takeNext .pop s container a
    | other => .fault (.unsupportedArgument .pop other.tag) s
  | arguments => .fault (.wrongArgumentCount .pop 1 arguments.length) s

def callPopBack (s : Store) : List Value → Outcome
  | [container] =>
    match container with
    | .sequence .deque a => takeBack .popBack s container a
    | other => .fault (.unsupportedArgument .popBack other.tag) s
  | arguments => .fault (.wrongArgumentCount .popBack 1 arguments.length) s

def callPopFront (s : Store) : List Value → Outcome
  | [container] =>
    match container with
    | .sequence .deque a | .sequence .queue a => takeFront .popFront s container a
    | other => .fault (.unsupportedArgument .popFront other.tag) s
  | arguments => .fault (.wrongArgumentCount .popFront 1 arguments.length) s

/-- The kind of the first argument says how many there have to be. -/
def callInsert (s : Store) : List Value → Outcome
  | .set a :: arguments =>
    match arguments with
    | [value] =>
      let key := s.key value
      .value .null (s.modifySet a (·.insert key value))
    | arguments => .fault (.wrongArgumentCount .insert 2 (arguments.length + 1)) s
  | .map a :: arguments =>
    match arguments with
    | [keyValue, value] =>
      let key := s.key keyValue
      .value .null (s.modifyMap a (·.insert key (keyValue, value)))
    | arguments => .fault (.wrongArgumentCount .insert 3 (arguments.length + 1)) s
  | other :: _ => .fault (.unsupportedArgument .insert other.tag) s
  | [] => .fault (.wrongArgumentCount .insert 2 0) s

def callRemove (s : Store) : List Value → Outcome
  | [container, value] =>
    let key := s.key value
    match container with
    | .set a =>
      if (s.setAt a).contains key then .value .null (s.modifySet a (·.erase key))
      else .fault (.missingMember .remove key.text) s
    | .map a =>
      if (s.mapAt a).contains key then .value .null (s.modifyMap a (·.erase key))
      else .fault (.missingMember .remove key.text) s
    | other => .fault (.unsupportedArgument .remove other.tag) s
  | arguments => .fault (.wrongArgumentCount .remove 2 arguments.length) s

def callFind (s : Store) : List Value → Outcome
  | [container, value] =>
    match container with
    | .text a =>
      match value with
      | .text b =>
        .value (positionValue (positionOf (s.textAt b).toList 0 (s.textAt a).toList)) s
      | other => .fault (.unsupportedArgument .find other.tag) s
    | .sequence .array a =>
      let key := s.key value
      .value (positionValue ((s.itemsAt a).toList.findIdx? fun item => s.key item == key)) s
    | .map a => .value (.boolean ((s.mapAt a).contains (s.key value))) s
    | .set a => .value (.boolean ((s.setAt a).contains (s.key value))) s
    | other => .fault (.unsupportedArgument .find other.tag) s
  | arguments => .fault (.wrongArgumentCount .find 2 arguments.length) s

def callType (s : Store) : List Value → Outcome
  | [value] => .fresh (s.newText value.tag.name)
  | arguments => .fault (.wrongArgumentCount .type 1 arguments.length) s

/-- Calls a built-in function. `size` is another name for `len`, also in its faults. -/
def call (function : Builtin) (s : Store) (arguments : List Value) : Outcome :=
  match function with
  | print => callPrint s arguments
  | len | size => callLen s arguments
  | push => callPush s arguments
  | pushBack => callPushBack s arguments
  | pushFront => callPushFront s arguments
  | pop => callPop s arguments
  | popBack => callPopBack s arguments
  | popFront => callPopFront s arguments
  | insert => callInsert s arguments
  | remove => callRemove s arguments
  | find => callFind s arguments
  | type => callType s arguments

end Builtin

end CellScript
