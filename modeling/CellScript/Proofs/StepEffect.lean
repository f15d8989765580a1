import CellScript.Proofs.Runs

/-!
What one step of the machine does to scopes and to the count of calls.

Apart from four kinds of step, the scopes and the count stay as they are, and the machine goes on
in scopes that it was at work in before. The four are: a name is bound in the scope of its
statement, a call opens a new scope, and a call ends with a value or with a fault.
-/

namespace CellScript

/-- The stores have the same scopes and the same number of calls under way. Cells and what has been
printed may differ. -/
structure Store.SameScopes (s t : Store) : Prop where
  scopes : t.scopes = s.scopes
  depth : t.depth = s.depth

theorem Store.SameScopes.refl (s : Store) : s.SameScopes s := ⟨rfl, rfl⟩

theorem Store.SameScopes.alloc (s : Store) (cell : Cell) : s.SameScopes (s.alloc cell).2 :=
  ⟨rfl, rfl⟩

/-! ### Operators and built-in functions -/

theorem Store.applyBinary_sameScopes (s : Store) (op : BinaryOp) (left right : Value) :
    s.SameScopes (s.applyBinary op left right).store := by
  unfold Store.applyBinary
  split
  · exact ⟨rfl, rfl⟩
  · split <;> exact ⟨rfl, rfl⟩
  · split <;> exact ⟨rfl, rfl⟩

theorem Store.index_sameScopes (s : Store) (container position : Value) :
    s.SameScopes (s.index container position).store := by
  unfold Store.index
  split
  · split <;> exact ⟨rfl, rfl⟩
  · split <;> exact ⟨rfl, rfl⟩
  · split <;> exact ⟨rfl, rfl⟩
  · exact ⟨rfl, rfl⟩

namespace Builtin

variable (function : Builtin) (s : Store) (container : Value) (a : Address)

theorem takeBack_sameScopes : s.SameScopes (takeBack function s container a).store := by
  unfold takeBack
  split <;> exact ⟨rfl, rfl⟩

theorem takeFront_sameScopes : s.SameScopes (takeFront function s container a).store := by
  unfold takeFront
  split <;> exact ⟨rfl, rfl⟩

theorem takeLastChar_sameScopes : s.SameScopes (takeLastChar function s container a).store := by
  unfold takeLastChar
  split <;> exact ⟨rfl, rfl⟩

theorem takeNext_sameScopes : s.SameScopes (takeNext function s container a).store := by
  unfold takeNext
  split
  · next item _ _ => cases item <;> exact ⟨rfl, rfl⟩
  · exact ⟨rfl, rfl⟩

theorem callPush_sameScopes (arguments : List Value) :
    s.SameScopes (callPush s arguments).store := by
  unfold callPush
  split
  · split
    · exact ⟨rfl, rfl⟩
    · split <;> exact ⟨rfl, rfl⟩
    · split <;> exact ⟨rfl, rfl⟩
    · exact ⟨rfl, rfl⟩
    · exact ⟨rfl, rfl⟩
  · exact ⟨rfl, rfl⟩

theorem callPop_sameScopes (arguments : List Value) : s.SameScopes (callPop s arguments).store := by
  unfold callPop
  split
  · split
    case h_4 => exact takeFront_sameScopes ..
    case h_5 => exact takeLastChar_sameScopes ..
    case h_6 => exact takeNext_sameScopes ..
    case h_7 => exact ⟨rfl, rfl⟩
    all_goals exact takeBack_sameScopes ..
  · exact ⟨rfl, rfl⟩

theorem callPopBack_sameScopes (arguments : List Value) :
    s.SameScopes (callPopBack s arguments).store := by
  unfold callPopBack
  split
  · split
    · exact takeBack_sameScopes ..
    · exact ⟨rfl, rfl⟩
  · exact ⟨rfl, rfl⟩

theorem callPopFront_sameScopes (arguments : List Value) :
    s.SameScopes (callPopFront s arguments).store := by
  unfold callPopFront
  split
  · split
    case h_3 => exact ⟨rfl, rfl⟩
    all_goals exact takeFront_sameScopes ..
  · exact ⟨rfl, rfl⟩

theorem callInsert_sameScopes (arguments : List Value) :
    s.SameScopes (callInsert s arguments).store := by
  unfold callInsert
  split
  · split <;> exact ⟨rfl, rfl⟩
  · split <;> exact ⟨rfl, rfl⟩
  · exact ⟨rfl, rfl⟩
  · exact ⟨rfl, rfl⟩

theorem callRemove_sameScopes (arguments : List Value) :
    s.SameScopes (callRemove s arguments).store := by
  unfold callRemove
  split
  · dsimp only
    split
    · split <;> exact ⟨rfl, rfl⟩
    · split <;> exact ⟨rfl, rfl⟩
    · exact ⟨rfl, rfl⟩
  · exact ⟨rfl, rfl⟩

theorem callFind_sameScopes (arguments : List Value) :
    s.SameScopes (callFind s arguments).store := by
  unfold callFind
  split
  · split
    · split <;> exact ⟨rfl, rfl⟩
    all_goals exact ⟨rfl, rfl⟩
  · exact ⟨rfl, rfl⟩

/-- No built-in function touches a scope or counts as a call. -/
theorem call_sameScopes (arguments : List Value) :
    s.SameScopes (function.call s arguments).store := by
  cases function
  case print => exact ⟨rfl, rfl⟩
  case len | size =>
    simp only [call, callLen]
    split
    · split <;> exact ⟨rfl, rfl⟩
    · exact ⟨rfl, rfl⟩
  case push => exact callPush_sameScopes s arguments
  case pushBack =>
    simp only [call, callPushBack]
    split
    · split <;> exact ⟨rfl, rfl⟩
    · exact ⟨rfl, rfl⟩
  case pushFront =>
    simp only [call, callPushFront]
    split
    · split <;> exact ⟨rfl, rfl⟩
    · exact ⟨rfl, rfl⟩
  case pop => exact callPop_sameScopes s arguments
  case popBack => exact callPopBack_sameScopes s arguments
  case popFront => exact callPopFront_sameScopes s arguments
  case insert => exact callInsert_sameScopes s arguments
  case remove => exact callRemove_sameScopes s arguments
  case find => exact callFind_sameScopes s arguments
  case type =>
    simp only [call, callType]
    split <;> exact ⟨rfl, rfl⟩

end Builtin

/-! ### Where a machine is at work -/

/-- The scope that an expression, a statement or a body runs in. A call makes its own, and a value
or a fault needs none. -/
def Control.scope? : Control → Option ScopeId
  | .evaluate _ scope | .execute _ scope | .perform _ scope => some scope
  | .apply _ _ | .deliver _ | .raise _ => none

/-- The scope that a frame goes on in. -/
def Frame.scope? : Frame → Option ScopeId
  | .declare _ scope | .assign _ scope | .block _ scope | .left _ _ scope | .branch _ _ scope
  | .loopTest _ _ scope | .loopBody _ _ scope | .callee _ scope | .argument _ _ _ scope
  | .container _ scope | .item _ _ _ scope | .member _ _ scope | .entryKey _ _ _ scope
  | .entryValue _ _ _ scope | .heapItem _ _ scope => some scope
  | .giveBack | .unary _ | .right _ _ | .activeCall | .position _ => none

/-- The frame of a call whose body is running. -/
def Frame.isCall : Frame → Bool
  | .activeCall => true
  | _ => false

/-- The number of calls whose bodies are running. -/
def activeCalls (frames : List Frame) : Nat := frames.countP Frame.isCall

@[simp] theorem activeCalls_nil : activeCalls [] = 0 := rfl

@[simp] theorem activeCalls_cons (frame : Frame) (frames : List Frame) :
    activeCalls (frame :: frames) = activeCalls frames + if frame.isCall then 1 else 0 :=
  List.countP_cons ..

@[simp] theorem activeCalls_append (frames frames' : List Frame) :
    activeCalls (frames ++ frames') = activeCalls frames + activeCalls frames' :=
  List.countP_append ..

/-- The scope `i` is that of the control or of a frame. -/
def InUse (control : Control) (frames : List Frame) (i : ScopeId) : Prop :=
  control.scope? = some i ∨ ∃ frame ∈ frames, frame.scope? = some i

namespace Machine

/-- From `m` to `m'` no scope changes, no call begins or ends, and no other scope comes into use.
-/
structure Stays (m m' : Machine) : Prop where
  store : m.store.SameScopes m'.store
  calls : activeCalls m'.frames = activeCalls m.frames
  inUse : ∀ i, InUse m'.control m'.frames i → InUse m.control m.frames i

/-- What a step does to scopes and to the count of calls. -/
inductive Effect (limit : Nat) : Machine → Machine → Prop
  | stays {m m' : Machine} (h : Stays m m') : Effect limit m m'
  | binds {frame : Frame} {name : String} {scope : ScopeId} {value : Value} {frames : List Frame}
      {s : Store} (hframe : frame = .declare name scope ∨ frame = .assign name scope) :
      Effect limit ⟨.deliver value, frame :: frames, s⟩
        ⟨.deliver .null, frames, s.bind scope name value⟩
  | enters {a : Address} {arguments : List Value} {frames : List Frame} {s entered : Store}
      (harity : (s.closureAt a).parameters.length = arguments.length) (hdepth : s.depth < limit)
      (hentered : entered = (s.enter (s.closureAt a).scope).2.bindAll s.scopes.size
        ((s.closureAt a).parameters.zip arguments)) :
      Effect limit ⟨.apply (.function a) arguments, frames, s⟩
        ⟨.perform (s.closureAt a).body s.scopes.size, .activeCall :: frames,
          { entered with depth := entered.depth + 1 }⟩
  | returns {value : Value} {frames : List Frame} {s : Store} :
      Effect limit ⟨.deliver value, .activeCall :: frames, s⟩
        ⟨.deliver value.unwrapped, frames, { s with depth := s.depth - 1 }⟩
  | fails {fault : Fault} {frames : List Frame} {s : Store} :
      Effect limit ⟨.raise fault, .activeCall :: frames, s⟩
        ⟨.raise fault, frames, { s with depth := s.depth - 1 }⟩

namespace Stays

variable {control control' : Control} {s s' : Store} {frames : List Frame}

theorem refl (m : Machine) : Stays m m := ⟨.refl _, rfl, fun _ h => h⟩

/-- The frames `gone` make way for the frames `new`, and all frames below them stay. -/
theorem exchange (hs : s.SameScopes s') (gone new : List Frame)
    (hcalls : activeCalls new = activeCalls gone)
    (hscopes : ∀ i, InUse control' new i → InUse control gone i) :
    Stays ⟨control, gone ++ frames, s⟩ ⟨control', new ++ frames, s'⟩ where
  store := hs
  calls := by simp [hcalls]
  inUse := by
    have below (i : ScopeId) (frame : Frame) (hmem : frame ∈ frames) (hi : frame.scope? = some i) :
        InUse control (gone ++ frames) i :=
      .inr ⟨frame, List.mem_append_right gone hmem, hi⟩
    have above (i : ScopeId) (h : InUse control gone i) : InUse control (gone ++ frames) i := by
      rcases h with h | ⟨frame, hmem, hi⟩
      · exact .inl h
      · exact .inr ⟨frame, List.mem_append_left frames hmem, hi⟩
    rintro i (h | ⟨frame, hmem, hi⟩)
    · exact above i (hscopes i (.inl h))
    · rcases List.mem_append.1 hmem with hmem | hmem
      · exact above i (hscopes i (.inr ⟨frame, hmem, hi⟩))
      · exact below i frame hmem hi

/-- A value or a fault takes the place of whatever was there. -/
theorem resume {o : Outcome} (hs : s.SameScopes o.store) (gone : List Frame)
    (hcalls : activeCalls gone = 0) :
    Stays ⟨control, gone ++ frames, s⟩ (o.resume frames) := by
  have hscopes (control' : Control) (h : control'.scope? = none) (i : ScopeId)
      (hi : InUse control' [] i) : InUse control gone i := by
    simp [InUse, h] at hi
  unfold Outcome.resume
  split
  · exact exchange hs gone [] hcalls.symm (hscopes _ rfl)
  · exact exchange hs gone [] hcalls.symm (hscopes _ rfl)

/-- The machine goes on in a scope that is in use, with frames of that scope. -/
theorem goesOn {scope : ScopeId} {gone : List Frame} (hscope : InUse control gone scope)
    (hcalls : activeCalls gone = 0) (hcontrol : control'.scope? = some scope) (new : List Frame)
    (hnone : activeCalls new = 0)
    (hnew : ∀ frame ∈ new, ∀ i, frame.scope? = some i → i = scope) :
    Stays ⟨control, gone ++ frames, s⟩ ⟨control', new ++ frames, s⟩ := by
  refine exchange (.refl s) gone new (hnone.trans hcalls.symm) ?_
  rintro i (h | ⟨frame, hmem, hi⟩)
  · rw [hcontrol] at h
    cases h
    exact hscope
  · rw [hnew frame hmem i hi]
    exact hscope

/-- An expression is evaluated next, and a frame waits for its value. -/
theorem evaluate {scope : ScopeId} {gone : List Frame} (hscope : InUse control gone scope)
    (hcalls : activeCalls gone = 0) (e : Expr) (frame : Frame) (hcall : frame.isCall = false)
    (hframe : ∀ i, frame.scope? = some i → i = scope) :
    Stays ⟨control, gone ++ frames, s⟩ ⟨.evaluate e scope, frame :: frames, s⟩ :=
  goesOn hscope hcalls rfl [frame] (by simp [hcall]) (by simpa using hframe)

section Lists

variable {scope : ScopeId} {gone : List Frame} (hscope : InUse control gone scope)
  (hcalls : activeCalls gone = 0)

include hscope hcalls

theorem nextArgument (callee : Value) (done : Array Value) (rest : List Expr) :
    Stays ⟨control, gone ++ frames, s⟩ (nextArgument callee done rest scope frames s) := by
  cases rest with
  | nil =>
    refine exchange (.refl s) gone [] hcalls.symm ?_
    intro i hi
    simp [InUse, Control.scope?] at hi
  | cons e rest => exact evaluate hscope hcalls e _ rfl (by simp [Frame.scope?])

theorem nextItem (kind : SequenceKind) (done : Array Value) (rest : List Expr) :
    Stays ⟨control, gone ++ frames, s⟩ (nextItem kind done rest scope frames s) := by
  cases rest with
  | nil => exact resume (o := .fresh (s.newSequence kind done)) (.alloc s _) gone hcalls
  | cons e rest => exact evaluate hscope hcalls e _ rfl (by simp [Frame.scope?])

theorem nextMember (done : OrderedMap Key Value) (rest : List Expr) :
    Stays ⟨control, gone ++ frames, s⟩ (nextMember done rest scope frames s) := by
  cases rest with
  | nil => exact resume (o := .fresh (s.newSet done)) (.alloc s _) gone hcalls
  | cons e rest => exact evaluate hscope hcalls e _ rfl (by simp [Frame.scope?])

theorem nextEntry (done : OrderedMap Key (Value × Value)) (rest : List (Expr × Expr)) :
    Stays ⟨control, gone ++ frames, s⟩ (nextEntry done rest scope frames s) := by
  cases rest with
  | nil => exact resume (o := .fresh (s.newMap done)) (.alloc s _) gone hcalls
  | cons entry rest => exact evaluate hscope hcalls entry.1 _ rfl (by simp [Frame.scope?])

theorem nextHeapItem (done : Heap) (rest : List Expr) :
    Stays ⟨control, gone ++ frames, s⟩ (nextHeapItem done rest scope frames s) := by
  cases rest with
  | nil => exact resume (o := .fresh (s.newHeap done)) (.alloc s _) gone hcalls
  | cons e rest => exact evaluate hscope hcalls e _ rfl (by simp [Frame.scope?])

end Lists

theorem evaluateStep (e : Expr) (scope : ScopeId) :
    Stays ⟨.evaluate e scope, frames, s⟩ (Machine.evaluate e scope frames s) := by
  have hscope : InUse (.evaluate e scope) [] scope := .inl rfl
  cases e
  case identifier name => exact resume (o := .keep (valueOf s scope name) s) (.refl s) [] rfl
  case integer value => exact resume (o := .value (.integer value) s) (.refl s) [] rfl
  case boolean value => exact resume (o := .value (.boolean value) s) (.refl s) [] rfl
  case text contents => exact resume (o := .fresh (s.newText contents)) (.alloc s _) [] rfl
  case function parameters body =>
    exact resume (o := .fresh (s.newFunction ⟨parameters, body, scope⟩)) (.alloc s _) [] rfl
  case sequence kind items => exact nextItem hscope rfl kind #[] items
  case map entries => exact nextEntry hscope rfl .empty entries
  case set members => exact nextMember hscope rfl .empty members
  case heap order element items => exact nextHeapItem hscope rfl _ items
  all_goals exact evaluate hscope rfl _ _ rfl (by simp [Frame.scope?])

theorem executeStep (statement : Stmt) (scope : ScopeId) :
    Stays ⟨.execute statement scope, frames, s⟩ (Machine.execute statement scope frames s) := by
  have hscope : InUse (.execute statement scope) [] scope := .inl rfl
  cases statement with
  | declare name value => exact evaluate hscope rfl value _ rfl (by simp [Frame.scope?])
  | assign name value => exact evaluate hscope rfl value _ rfl (by simp [Frame.scope?])
  | giveBack value =>
    cases value with
    | none => exact resume (o := .value (.returning .null) s) (.refl s) [] rfl
    | some value => exact evaluate hscope rfl value _ rfl (by simp [Frame.scope?])
  | expression value => exact goesOn hscope rfl rfl [] rfl (by simp)
  | block body => exact goesOn hscope rfl rfl [] rfl (by simp)

theorem performStep (body : List Stmt) (scope : ScopeId) :
    Stays ⟨.perform body scope, frames, s⟩ (Machine.perform body scope frames s) := by
  have hscope : InUse (.perform body scope) [] scope := .inl rfl
  cases body with
  | nil => exact resume (o := .value .null s) (.refl s) [] rfl
  | cons statement rest =>
    exact goesOn hscope rfl rfl [.block rest scope] rfl (by simp [Frame.scope?])

end Stays

namespace Effect

variable {limit : Nat} {s : Store} {frames : List Frame}

theorem applyStep (callee : Value) (arguments : List Value) :
    Effect limit ⟨.apply callee arguments, frames, s⟩
      (applyValue limit callee arguments frames s) := by
  have raised (fault : Fault) :
      Effect limit ⟨.apply callee arguments, frames, s⟩ ⟨.raise fault, frames, s⟩ :=
    .stays (.resume (o := .fault fault s) (.refl s) [] rfl)
  unfold applyValue
  split
  · next a =>
    unfold callClosure
    by_cases harity : (s.closureAt a).parameters.length = arguments.length
    · by_cases hdepth : limit ≤ s.depth
      · rw [if_neg (by simpa using harity), if_pos hdepth]
        exact raised _
      · rw [if_neg (by simpa using harity), if_neg hdepth]
        exact .enters harity (by omega) rfl
    · rw [if_pos harity]
      exact raised _
  · next function =>
    exact .stays (.resume (Builtin.call_sameScopes function s arguments) [] rfl)
  · exact raised _

theorem resumeStep (frame : Frame) (value : Value) :
    Effect limit ⟨.deliver value, frame :: frames, s⟩ (Machine.resume frame value frames s) := by
  have inUse (scope : ScopeId) (h : frame.scope? = some scope) :
      InUse (.deliver value) [frame] scope := .inr ⟨frame, List.mem_singleton_self frame, h⟩
  -- A frame that is no call hands a value on.
  have delivered (h : frame.isCall = false) (v : Value) :
      Effect limit ⟨.deliver value, frame :: frames, s⟩ ⟨.deliver v, frames, s⟩ :=
    .stays (.resume (o := .value v s) (.refl s) [frame] (by simp [h]))
  have raised (h : frame.isCall = false) (fault : Fault) :
      Effect limit ⟨.deliver value, frame :: frames, s⟩ ⟨.raise fault, frames, s⟩ :=
    .stays (.resume (o := .fault fault s) (.refl s) [frame] (by simp [h]))
  cases frame
  case declare name scope =>
    simp only [Machine.resume]
    split
    · exact delivered rfl value
    · exact .binds (.inl rfl)
  case assign name scope =>
    simp only [Machine.resume]
    split
    · exact delivered rfl value
    · split
      · exact .binds (.inr rfl)
      · exact raised rfl _
  case giveBack =>
    simp only [Machine.resume]
    split
    · exact delivered rfl _
    · exact delivered rfl _
  case block rest scope =>
    simp only [Machine.resume]
    split
    · exact delivered rfl _
    · cases rest with
      | nil => exact delivered rfl _
      | cons statement rest =>
        exact .stays (.goesOn (inUse scope rfl) rfl rfl [.block rest scope] rfl
          (by simp [Frame.scope?]))
  case loopBody condition body scope =>
    simp only [Machine.resume]
    split
    · exact delivered rfl _
    · exact .stays (.evaluate (inUse scope rfl) rfl _ _ rfl (by simp [Frame.scope?]))
  case activeCall => exact .returns
  case unary op =>
    exact .stays (.resume (o := .keep (op.apply value) s) (.refl s) [.unary op] rfl)
  case left op right scope =>
    exact .stays (.evaluate (inUse scope rfl) rfl _ _ rfl (by simp [Frame.scope?]))
  case right left op =>
    exact .stays (.resume (s.applyBinary_sameScopes op left value) [.right left op] rfl)
  case branch consequence alternative scope =>
    simp only [Machine.resume]
    split
    · exact .stays (.goesOn (inUse scope rfl) rfl rfl [] rfl (by simp))
    · split
      · exact .stays (.goesOn (inUse scope rfl) rfl rfl [] rfl (by simp))
      · exact delivered rfl _
  case loopTest condition body scope =>
    simp only [Machine.resume]
    split
    · exact .stays (.goesOn (inUse scope rfl) rfl rfl [.loopBody condition body scope] rfl
        (by simp [Frame.scope?]))
    · exact delivered rfl _
  case callee arguments scope => exact .stays (.nextArgument (inUse scope rfl) rfl _ _ _)
  case argument callee done rest scope => exact .stays (.nextArgument (inUse scope rfl) rfl _ _ _)
  case container position scope =>
    exact .stays (.evaluate (inUse scope rfl) rfl _ _ rfl (by simp [Frame.scope?]))
  case position container =>
    exact .stays (.resume (s.index_sameScopes container value) [.position container] rfl)
  case item kind done rest scope => exact .stays (.nextItem (inUse scope rfl) rfl _ _ _)
  case member done rest scope => exact .stays (.nextMember (inUse scope rfl) rfl _ _)
  case entryKey done valueExpr rest scope =>
    exact .stays (.evaluate (inUse scope rfl) rfl _ _ rfl (by simp [Frame.scope?]))
  case entryValue done key rest scope => exact .stays (.nextEntry (inUse scope rfl) rfl _ _)
  case heapItem done rest scope =>
    simp only [Machine.resume]
    split
    · exact .stays (.nextHeapItem (inUse scope rfl) rfl _ _)
    · exact raised rfl _

theorem unwindStep (frame : Frame) (fault : Fault) :
    Effect limit ⟨.raise fault, frame :: frames, s⟩ (Machine.unwind frame fault frames s) := by
  cases frame
  case activeCall => exact .fails
  all_goals exact .stays (.resume (o := .fault fault s) (.refl s) [_] rfl)

end Effect

/-- Every step has one of the effects. -/
theorem effect_step (limit : Nat) (m : Machine) : Effect limit m (m.step limit) := by
  obtain ⟨control, frames, s⟩ := m
  cases control with
  | evaluate e scope => exact .stays (.evaluateStep e scope)
  | execute statement scope => exact .stays (.executeStep statement scope)
  | perform body scope => exact .stays (.performStep body scope)
  | apply callee arguments => exact .applyStep callee arguments
  | deliver value =>
    cases frames with
    | nil => exact .stays (.refl _)
    | cons frame frames => exact .resumeStep frame value
  | raise fault =>
    cases frames with
    | nil => exact .stays (.refl _)
    | cons frame frames => exact .unwindStep frame fault

end Machine

end CellScript
