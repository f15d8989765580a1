import CellScript.Builtin

/-!
The machine that runs programs.

Its state is what it does next, the frames of all that waits for the value of something else, and
the store. One step looks at the next thing to do, or, once a value or a fault is there, at the
innermost frame. So the depth of a program takes up frames, and a fault takes them off one by one.

A `return` makes a wrapped value. Blocks, bindings and loop bodies stop at one and pass it on, and a
call unwraps it; every other place takes it for a value like any other.
-/

namespace CellScript

/-- What the machine does next. -/
inductive Control
  | evaluate (expression : Expr) (scope : ScopeId)
  | execute (statement : Stmt) (scope : ScopeId)
  | perform (body : List Stmt) (scope : ScopeId)
  | apply (callee : Value) (arguments : List Value)
  | deliver (value : Value)
  | raise (fault : Fault)

/-- What waits for a value, and what it needs to go on. -/
inductive Frame
  | declare (name : String) (scope : ScopeId)
  | assign (name : String) (scope : ScopeId)
  | giveBack
  | block (rest : List Stmt) (scope : ScopeId)
  | unary (op : UnaryOp)
  | left (op : BinaryOp) (right : Expr) (scope : ScopeId)
  | right (left : Value) (op : BinaryOp)
  | branch (consequence : List Stmt) (alternative : Option (List Stmt)) (scope : ScopeId)
  | loopTest (condition : Expr) (body : List Stmt) (scope : ScopeId)
  | loopBody (condition : Expr) (body : List Stmt) (scope : ScopeId)
  | callee (arguments : List Expr) (scope : ScopeId)
  | argument (callee : Value) (done : Array Value) (rest : List Expr) (scope : ScopeId)
  | activeCall
  | container (position : Expr) (scope : ScopeId)
  | position (container : Value)
  | item (kind : SequenceKind) (done : Array Value) (rest : List Expr) (scope : ScopeId)
  | member (done : OrderedMap Key Value) (rest : List Expr) (scope : ScopeId)
  | entryKey (done : OrderedMap Key (Value × Value)) (value : Expr)
      (rest : List (Expr × Expr)) (scope : ScopeId)
  | entryValue (done : OrderedMap Key (Value × Value)) (key : Value)
      (rest : List (Expr × Expr)) (scope : ScopeId)
  | heapItem (done : Heap) (rest : List Expr) (scope : ScopeId)

structure Machine where
  control : Control
  frames : List Frame
  store : Store

/-- A machine that has its value or its fault. -/
def Outcome.resume (outcome : Outcome) (frames : List Frame) : Machine :=
  match outcome.result with
  | .ok value => ⟨.deliver value, frames, outcome.store⟩
  | .error fault => ⟨.raise fault, frames, outcome.store⟩

namespace Machine

/-! ### Lists of expressions

The expressions of a literal or of a call are evaluated from left to right. -/

/-- Goes on with the arguments of a call. -/
def nextArgument (callee : Value) (done : Array Value) (rest : List Expr) (scope : ScopeId)
    (frames : List Frame) (s : Store) : Machine :=
  match rest with
  | [] => ⟨.apply callee done.toList, frames, s⟩
  | expression :: rest =>
    ⟨.evaluate expression scope, .argument callee done rest scope :: frames, s⟩

/-- Goes on with the items of a sequence. -/
def nextItem (kind : SequenceKind) (done : Array Value) (rest : List Expr) (scope : ScopeId)
    (frames : List Frame) (s : Store) : Machine :=
  match rest with
  | [] => (Outcome.fresh (s.newSequence kind done)).resume frames
  | expression :: rest => ⟨.evaluate expression scope, .item kind done rest scope :: frames, s⟩

/-- Goes on with the members of a set. -/
def nextMember (done : OrderedMap Key Value) (rest : List Expr) (scope : ScopeId)
    (frames : List Frame) (s : Store) : Machine :=
  match rest with
  | [] => (Outcome.fresh (s.newSet done)).resume frames
  | expression :: rest => ⟨.evaluate expression scope, .member done rest scope :: frames, s⟩

/-- Goes on with the entries of a map. -/
def nextEntry (done : OrderedMap Key (Value × Value)) (rest : List (Expr × Expr))
    (scope : ScopeId) (frames : List Frame) (s : Store) : Machine :=
  match rest with
  | [] => (Outcome.fresh (s.newMap done)).resume frames
  | (key, value) :: rest => ⟨.evaluate key scope, .entryKey done value rest scope :: frames, s⟩

/-- Goes on with the items of a heap. -/
def nextHeapItem (done : Heap) (rest : List Expr) (scope : ScopeId) (frames : List Frame)
    (s : Store) : Machine :=
  match rest with
  | [] => (Outcome.fresh (s.newHeap done)).resume frames
  | expression :: rest => ⟨.evaluate expression scope, .heapItem done rest scope :: frames, s⟩

/-! ### The next thing to do -/

/-- The value of a name. What a program binds comes before the built-in functions. -/
def valueOf (s : Store) (scope : ScopeId) (name : String) : Except Fault Value :=
  match s.lookup scope name with
  | some value => .ok value
  | none =>
    match Builtin.ofName? name with
    | some function => .ok (.builtin function)
    | none => .error (.identifierNotFound name)

def evaluate (expression : Expr) (scope : ScopeId) (frames : List Frame) (s : Store) : Machine :=
  match expression with
  | .identifier name => (Outcome.keep (valueOf s scope name) s).resume frames
  | .integer value => ⟨.deliver (.integer value), frames, s⟩
  | .text contents => (Outcome.fresh (s.newText contents)).resume frames
  | .boolean value => ⟨.deliver (.boolean value), frames, s⟩
  | .unary op operand => ⟨.evaluate operand scope, .unary op :: frames, s⟩
  | .binary left op right => ⟨.evaluate left scope, .left op right scope :: frames, s⟩
  | .conditional condition consequence alternative =>
    ⟨.evaluate condition scope, .branch consequence alternative scope :: frames, s⟩
  | .loop condition body =>
    ⟨.evaluate condition scope, .loopTest condition body scope :: frames, s⟩
  | .function parameters body =>
    (Outcome.fresh (s.newFunction ⟨parameters, body, scope⟩)).resume frames
  | .call callee arguments => ⟨.evaluate callee scope, .callee arguments scope :: frames, s⟩
  | .index container position =>
    ⟨.evaluate container scope, .container position scope :: frames, s⟩
  | .sequence kind items => nextItem kind #[] items scope frames s
  | .map entries => nextEntry .empty entries scope frames s
  | .set members => nextMember .empty members scope frames s
  | .heap order element items => nextHeapItem (.empty order element) items scope frames s

def execute (statement : Stmt) (scope : ScopeId) (frames : List Frame) (s : Store) : Machine :=
  match statement with
  | .declare name value => ⟨.evaluate value scope, .declare name scope :: frames, s⟩
  | .assign name value => ⟨.evaluate value scope, .assign name scope :: frames, s⟩
  | .giveBack (some value) => ⟨.evaluate value scope, .giveBack :: frames, s⟩
  | .giveBack none => ⟨.deliver (.returning .null), frames, s⟩
  | .expression value => ⟨.evaluate value scope, frames, s⟩
  | .block body => ⟨.perform body scope, frames, s⟩

/-- The first statement of a block. A block of none gives null. -/
def perform (body : List Stmt) (scope : ScopeId) (frames : List Frame) (s : Store) : Machine :=
  match body with
  | [] => ⟨.deliver .null, frames, s⟩
  | statement :: rest => ⟨.execute statement scope, .block rest scope :: frames, s⟩

/-- A call of a function of the program: its body runs in a new scope inside the one that the
function was made in. The number of arguments is looked at before the depth of calls. -/
def callClosure (limit : Nat) (closure : Closure) (arguments : List Value) (frames : List Frame)
    (s : Store) : Machine :=
  if closure.parameters.length ≠ arguments.length then
    ⟨.raise (.arityMismatch closure.parameters.length arguments.length), frames, s⟩
  else if limit ≤ s.depth then ⟨.raise .stackOverflow, frames, s⟩
  else
    let (scope, s) := s.enter closure.scope
    let s := s.bindAll scope (closure.parameters.zip arguments)
    ⟨.perform closure.body scope, .activeCall :: frames, { s with depth := s.depth + 1 }⟩

def applyValue (limit : Nat) (callee : Value) (arguments : List Value) (frames : List Frame)
    (s : Store) : Machine :=
  match callee with
  | .function a => callClosure limit (s.closureAt a) arguments frames s
  | .builtin function => (function.call s arguments).resume frames
  | other => ⟨.raise (.notAFunction other.tag), frames, s⟩

/-! ### The innermost frame -/

/-- Gives a value to a frame. -/
def resume (frame : Frame) (value : Value) (frames : List Frame) (s : Store) : Machine :=
  match frame with
  | .declare name scope =>
    if value.isReturning then ⟨.deliver value, frames, s⟩
    else ⟨.deliver .null, frames, s.bind scope name value⟩
  | .assign name scope =>
    if value.isReturning then ⟨.deliver value, frames, s⟩
    else
      match s.lookup scope name with
      | some _ => ⟨.deliver .null, frames, s.bind scope name value⟩
      | none => ⟨.raise (.identifierNotFound name), frames, s⟩
  | .giveBack =>
    if value.isReturning then ⟨.deliver value, frames, s⟩
    else ⟨.deliver (.returning value), frames, s⟩
  | .block rest scope =>
    if value.isReturning then ⟨.deliver value, frames, s⟩
    else
      match rest with
      | [] => ⟨.deliver value, frames, s⟩
      | statement :: rest => ⟨.execute statement scope, .block rest scope :: frames, s⟩
  | .unary op => (Outcome.keep (op.apply value) s).resume frames
  | .left op right scope => ⟨.evaluate right scope, .right value op :: frames, s⟩
  | .right left op => (s.applyBinary op left value).resume frames
  | .branch consequence alternative scope =>
    if value.truthy then ⟨.perform consequence scope, frames, s⟩
    else
      match alternative with
      | some alternative => ⟨.perform alternative scope, frames, s⟩
      | none => ⟨.deliver .null, frames, s⟩
  | .loopTest condition body scope =>
    if value.truthy then ⟨.perform body scope, .loopBody condition body scope :: frames, s⟩
    else ⟨.deliver .null, frames, s⟩
  | .loopBody condition body scope =>
    if value.isReturning then ⟨.deliver value, frames, s⟩
    else ⟨.evaluate condition scope, .loopTest condition body scope :: frames, s⟩
  | .callee arguments scope => nextArgument value #[] arguments scope frames s
  | .argument callee done rest scope => nextArgument callee (done.push value) rest scope frames s
  | .activeCall => ⟨.deliver value.unwrapped, frames, { s with depth := s.depth - 1 }⟩
  | .container position scope => ⟨.evaluate position scope, .position value :: frames, s⟩
  | .position container => (s.index container value).resume frames
  | .item kind done rest scope => nextItem kind (done.push value) rest scope frames s
  | .member done rest scope => nextMember (done.insert (s.key value) value) rest scope frames s
  | .entryKey done valueExpr rest scope =>
    ⟨.evaluate valueExpr scope, .entryValue done value rest scope :: frames, s⟩
  | .entryValue done key rest scope =>
    nextEntry (done.insert (s.key key) (key, value)) rest scope frames s
  | .heapItem done rest scope =>
    match s.pushHeap done value with
    | .ok done => nextHeapItem done rest scope frames s
    | .error fault => ⟨.raise fault, frames, s⟩

/-- Takes a frame off on the way of a fault. A call that is left counts no longer. -/
def unwind (frame : Frame) (fault : Fault) (frames : List Frame) (s : Store) : Machine :=
  match frame with
  | .activeCall => ⟨.raise fault, frames, { s with depth := s.depth - 1 }⟩
  | _ => ⟨.raise fault, frames, s⟩

/-- One step. A machine with a value or a fault and no frames has come to its end and stays. -/
def step (limit : Nat) (m : Machine) : Machine :=
  match m with
  | ⟨.evaluate expression scope, frames, s⟩ => evaluate expression scope frames s
  | ⟨.execute statement scope, frames, s⟩ => execute statement scope frames s
  | ⟨.perform body scope, frames, s⟩ => perform body scope frames s
  | ⟨.apply callee arguments, frames, s⟩ => applyValue limit callee arguments frames s
  | ⟨.deliver value, frame :: frames, s⟩ => resume frame value frames s
  | ⟨.raise fault, frame :: frames, s⟩ => unwind frame fault frames s
  | ⟨.deliver value, [], s⟩ => ⟨.deliver value, [], s⟩
  | ⟨.raise fault, [], s⟩ => ⟨.raise fault, [], s⟩

/-- What a machine has come to, if it has come to its end. -/
@[inline] def outcome? : Machine → Option Outcome
  | ⟨.deliver value, [], s⟩ => some (.value value s)
  | ⟨.raise fault, [], s⟩ => some (.fault fault s)
  | _ => none

/-- Runs for at most `fuel` steps, and gives nothing if they do not suffice. -/
def run (limit : Nat) : Nat → Machine → Option Outcome
  | 0, m => m.outcome?
  | fuel + 1, m =>
    match m.outcome? with
    | some outcome => some outcome
    | none => run limit fuel (step limit m)

end Machine

end CellScript
