import CellScript.Proofs.KeyFiling

/-!
What stands beside the cells.

Built-in functions, operators and literals look at cells only. So a machine goes on in the same way
when its store has other scopes and another output, as long as the names that it is about to look up
or to bind mean the same there, and what it prints comes at the end of the output.
-/

namespace CellScript

open Std

/-! ### Stores -/

/-- Printing a line before the output is changed is printing it afterwards. -/
def PrintsAlike (g : String → String) : Prop :=
  ∀ printed line : String, g (printed ++ line ++ "\n") = g printed ++ line ++ "\n"

namespace Store

/-- A name is looked up in the same way in two stores if each scope binds it to the same value and
has the same scope around it. -/
theorem lookup_congr {s t : Store} {name : String}
    (hfind : ∀ i, (t.bindingsOf i).find? name = (s.bindingsOf i).find? name)
    (houter : ∀ i, t.outerOf i = s.outerOf i) (i : ScopeId) :
    t.lookup i name = s.lookup i name := by
  induction i using Nat.strongRecOn with
  | ind i ih =>
    rw [lookup, lookup, hfind, houter]
    split
    · rfl
    · split
      · next outer _ =>
        by_cases hlt : outer < i
        · rw [if_pos hlt, if_pos hlt, ih outer hlt]
        · rw [if_neg hlt, if_neg hlt]
      · rfl

/-- The store with other scopes and another output, and the same cells. -/
def beside (f : Array Scope → Array Scope) (g : String → String) (s : Store) : Store :=
  { s with scopes := f s.scopes, output := g s.output }

variable (f : Array Scope → Array Scope) (g : String → String) (s : Store)

theorem textAt_beside (a : Address) : (s.beside f g).textAt a = s.textAt a := rfl

theorem itemsAt_beside (a : Address) : (s.beside f g).itemsAt a = s.itemsAt a := rfl

theorem mapAt_beside (a : Address) : (s.beside f g).mapAt a = s.mapAt a := rfl

theorem setAt_beside (a : Address) : (s.beside f g).setAt a = s.setAt a := rfl

theorem heapAt_beside (a : Address) : (s.beside f g).heapAt a = s.heapAt a := rfl

theorem render_beside (value : Value) : (s.beside f g).render value = s.render value :=
  ((s.beside f g).shows_render value).unique ((s.shows_render value).congr fun _ _ _ _ => rfl)

theorem key_beside (value : Value) : (s.beside f g).key value = s.key value := by
  rw [key, key, render_beside]

variable {g}

theorem printLine_beside (hprint : PrintsAlike g) (line : String) :
    (s.beside f g).printLine line = (s.printLine line).beside f g := by
  have houtput : g s.output ++ line ++ "\n" = g (s.output ++ line ++ "\n") :=
    (hprint s.output line).symm
  exact congrArg (fun output => { s.beside f g with output := output }) houtput

end Store

/-! ### Operations -/

/-- The outcome with other scopes and another output in its store. -/
def Outcome.beside (f : Array Scope → Array Scope) (g : String → String) (o : Outcome) : Outcome :=
  { o with store := o.store.beside f g }

section Operations

variable (f : Array Scope → Array Scope) (g : String → String) (s : Store)

theorem Store.applyBinary_beside (op : BinaryOp) (left right : Value) :
    (s.beside f g).applyBinary op left right =
      (s.applyBinary op left right).beside f g := by
  unfold Store.applyBinary
  split
  · rfl
  · cases op <;> rfl
  · split <;> rfl

theorem Store.index_beside (container position : Value) :
    (s.beside f g).index container position =
      (s.index container position).beside f g := by
  unfold Store.index
  simp only [Store.key_beside, Store.render_beside, Store.textAt_beside,
    Store.itemsAt_beside, Store.mapAt_beside]
  split
  · next a i => cases (position? i).bind fun n => (s.textAt a).toList[n]? <;> rfl
  · next a i => cases (position? i).bind fun n => (s.itemsAt a)[n]? <;> rfl
  · next a => cases (s.mapAt a).find? (s.key position) <;> rfl
  · rfl

theorem Store.pushHeap_beside (heap : Heap) (value : Value) :
    (s.beside f g).pushHeap heap value = s.pushHeap heap value := by
  have hitem : (s.beside f g).heapItem? value = s.heapItem? value := by
    cases value <;> rfl
  rw [Store.pushHeap, hitem]
  rfl

namespace Builtin

variable (function : Builtin) (container : Value) (a : Address)

theorem takeBack_beside :
    takeBack function (s.beside f g) container a =
      (takeBack function s container a).beside f g := by
  simp only [takeBack, Store.itemsAt_beside]
  cases (s.itemsAt a).back? <;> rfl

theorem takeFront_beside :
    takeFront function (s.beside f g) container a =
      (takeFront function s container a).beside f g := by
  simp only [takeFront, Store.itemsAt_beside]
  cases (s.itemsAt a)[0]? <;> rfl

theorem takeLastChar_beside :
    takeLastChar function (s.beside f g) container a =
      (takeLastChar function s container a).beside f g := by
  simp only [takeLastChar, Store.textAt_beside]
  cases (s.textAt a).toList.getLast? <;> rfl

theorem takeNext_beside :
    takeNext function (s.beside f g) container a =
      (takeNext function s container a).beside f g := by
  simp only [takeNext, Store.heapAt_beside]
  cases (s.heapAt a).pop? with
  | none => rfl
  | some taken =>
    obtain ⟨item, heap⟩ := taken
    cases item <;> rfl

variable (arguments : List Value)

theorem callLen_beside :
    callLen (s.beside f g) arguments = (callLen s arguments).beside f g := by
  unfold callLen
  split
  · next container =>
    have hlength : (s.beside f g).length? container = s.length? container := by
      cases container <;> rfl
    rw [hlength]
    cases s.length? container <;> rfl
  · rfl

theorem callPush_beside :
    callPush (s.beside f g) arguments = (callPush s arguments).beside f g := by
  unfold callPush
  simp only [Store.key_beside, Store.heapAt_beside, Store.pushHeap_beside]
  split
  · next container value =>
    cases container
    case text a => cases value <;> rfl
    case heap order a =>
      dsimp only
      cases s.pushHeap (s.heapAt a) value <;> rfl
    all_goals rfl
  · rfl

theorem callPushBack_beside :
    callPushBack (s.beside f g) arguments = (callPushBack s arguments).beside f g := by
  unfold callPushBack
  split
  · next container value =>
    cases container
    case sequence kind a => cases kind <;> rfl
    all_goals rfl
  · rfl

theorem callPushFront_beside :
    callPushFront (s.beside f g) arguments = (callPushFront s arguments).beside f g := by
  unfold callPushFront
  split
  · next container value =>
    cases container
    case sequence kind a => cases kind <;> rfl
    all_goals rfl
  · rfl

theorem callPop_beside :
    callPop (s.beside f g) arguments = (callPop s arguments).beside f g := by
  unfold callPop
  split
  · next container =>
    cases container
    case sequence kind a =>
      cases kind
      case queue => exact takeFront_beside ..
      all_goals exact takeBack_beside ..
    case text a => exact takeLastChar_beside ..
    case heap order a => exact takeNext_beside ..
    all_goals rfl
  · rfl

theorem callPopBack_beside :
    callPopBack (s.beside f g) arguments = (callPopBack s arguments).beside f g := by
  unfold callPopBack
  split
  · next container =>
    cases container
    case sequence kind a =>
      cases kind
      case deque => exact takeBack_beside ..
      all_goals rfl
    all_goals rfl
  · rfl

theorem callPopFront_beside :
    callPopFront (s.beside f g) arguments = (callPopFront s arguments).beside f g := by
  unfold callPopFront
  split
  · next container =>
    cases container
    case sequence kind a =>
      cases kind
      case deque | queue => exact takeFront_beside ..
      all_goals rfl
    all_goals rfl
  · rfl

theorem callInsert_beside :
    callInsert (s.beside f g) arguments = (callInsert s arguments).beside f g := by
  unfold callInsert
  simp only [Store.key_beside]
  split
  · split <;> rfl
  · split <;> rfl
  · rfl
  · rfl

theorem callRemove_beside :
    callRemove (s.beside f g) arguments = (callRemove s arguments).beside f g := by
  unfold callRemove
  simp only [Store.key_beside, Store.setAt_beside, Store.mapAt_beside]
  split
  · next container value =>
    cases container
    case set a => cases h : (s.setAt a).contains (s.key value) <;> simp [h] <;> rfl
    case map a => cases h : (s.mapAt a).contains (s.key value) <;> simp [h] <;> rfl
    all_goals rfl
  · rfl

theorem callFind_beside :
    callFind (s.beside f g) arguments = (callFind s arguments).beside f g := by
  unfold callFind
  simp only [Store.key_beside]
  split
  · next container value =>
    cases container
    case text a => cases value <;> rfl
    case sequence kind a => cases kind <;> rfl
    all_goals rfl
  · rfl

/-- A built-in function looks at cells only, and prints at the end of what has been printed. -/
theorem call_beside (hprint : PrintsAlike g) :
    function.call (s.beside f g) arguments = (function.call s arguments).beside f g := by
  cases function
  case print =>
    have hrender : (s.beside f g).render = s.render :=
      funext fun value => s.render_beside f g value
    simp only [call, callPrint, hrender, Store.printLine_beside f s hprint]
    rfl
  case len | size => exact callLen_beside f g s arguments
  case push => exact callPush_beside f g s arguments
  case pushBack => exact callPushBack_beside f g s arguments
  case pushFront => exact callPushFront_beside f g s arguments
  case pop => exact callPop_beside f g s arguments
  case popBack => exact callPopBack_beside f g s arguments
  case popFront => exact callPopFront_beside f g s arguments
  case insert => exact callInsert_beside f g s arguments
  case remove => exact callRemove_beside f g s arguments
  case find => exact callFind_beside f g s arguments
  case type =>
    simp only [call, callType]
    split <;> rfl

end Builtin

end Operations

/-! ### Machines -/

namespace Machine

/-- The machine with other scopes and another output in its store. -/
def beside (f : Array Scope → Array Scope) (g : String → String) (m : Machine) : Machine :=
  { m with store := m.store.beside f g }

/-- The names that the next step looks up or binds. -/
def nextNames (m : Machine) : List String :=
  match m.control, m.frames with
  | .evaluate (.identifier name) _, _ => [name]
  | .deliver _, .declare name _ :: _ => [name]
  | .deliver _, .assign name _ :: _ => [name]
  | .apply (.function a) _, _ => (m.store.closureAt a).parameters
  | _, _ => []

/-- Names of a kind are looked up and bound in the same way in the other scopes, and printing adds
to the end of the output. -/
structure Passive (f : Array Scope → Array Scope) (g : String → String) (kind : String → Prop) :
    Prop where
  lookup : ∀ {name}, kind name → ∀ (s : Store) (scope : ScopeId),
    (s.beside f g).lookup scope name = s.lookup scope name
  bind : ∀ {name}, kind name → ∀ (s : Store) (scope : ScopeId) (value : Value),
    (s.beside f g).bind scope name value = (s.bind scope name value).beside f g
  prints : PrintsAlike g

/-- A new scope is the same one, whatever the other scopes are. -/
def EntersAlike (f : Array Scope → Array Scope) (g : String → String) (s : Store) : Prop :=
  ∀ outer, (s.beside f g).enter outer = ((s.enter outer).1, (s.enter outer).2.beside f g)

section Steps

variable (f : Array Scope → Array Scope) (g : String → String) (frames : List Frame) (s : Store)
  (scope : ScopeId)

theorem resume_beside (o : Outcome) :
    (o.beside f g).resume frames = (o.resume frames).beside f g := by
  obtain ⟨result, s⟩ := o
  cases result <;> rfl

theorem nextArgument_beside (callee : Value) (done : Array Value) (rest : List Expr) :
    nextArgument callee done rest scope frames (s.beside f g) =
      (nextArgument callee done rest scope frames s).beside f g := by
  cases rest <;> rfl

theorem nextItem_beside (kind : SequenceKind) (done : Array Value) (rest : List Expr) :
    nextItem kind done rest scope frames (s.beside f g) =
      (nextItem kind done rest scope frames s).beside f g := by
  cases rest <;> rfl

theorem nextMember_beside (done : OrderedMap Key Value) (rest : List Expr) :
    nextMember done rest scope frames (s.beside f g) =
      (nextMember done rest scope frames s).beside f g := by
  cases rest <;> rfl

theorem nextEntry_beside (done : OrderedMap Key (Value × Value))
    (rest : List (Expr × Expr)) :
    nextEntry done rest scope frames (s.beside f g) =
      (nextEntry done rest scope frames s).beside f g := by
  cases rest <;> rfl

theorem nextHeapItem_beside (done : Heap) (rest : List Expr) :
    nextHeapItem done rest scope frames (s.beside f g) =
      (nextHeapItem done rest scope frames s).beside f g := by
  cases rest <;> rfl

theorem execute_beside (statement : Stmt) :
    execute statement scope frames (s.beside f g) =
      (execute statement scope frames s).beside f g := by
  cases statement
  case giveBack value => cases value <;> rfl
  all_goals rfl

theorem perform_beside (body : List Stmt) :
    perform body scope frames (s.beside f g) =
      (perform body scope frames s).beside f g := by
  cases body <;> rfl

theorem unwind_beside (frame : Frame) (fault : Fault) :
    unwind frame fault frames (s.beside f g) =
      (unwind frame fault frames s).beside f g := by
  cases frame <;> rfl

variable {f g} {kind : String → Prop} (h : Passive f g kind)

include h

theorem bindAll_beside {pairs : List (String × Value)} (hpairs : ∀ pair ∈ pairs, kind pair.1) :
    (s.beside f g).bindAll scope pairs = (s.bindAll scope pairs).beside f g := by
  induction pairs generalizing s with
  | nil => rfl
  | cons pair rest ih =>
    obtain ⟨hpair, hrest⟩ := List.forall_mem_cons.1 hpairs
    rw [Store.bindAll, Store.bindAll, h.bind hpair, ih _ hrest]

theorem evaluate_beside {e : Expr} (hnames : ∀ name ∈ nextNames ⟨.evaluate e scope, frames, s⟩,
    kind name) :
    evaluate e scope frames (s.beside f g) = (evaluate e scope frames s).beside f g := by
  cases e
  case identifier name =>
    simp only [evaluate, valueOf, h.lookup (hnames name List.mem_cons_self)]
    exact resume_beside f g frames (.keep (valueOf s scope name) s)
  case sequence kind items => exact nextItem_beside f g frames s scope kind _ items
  case map entries => exact nextEntry_beside f g frames s scope _ entries
  case set members => exact nextMember_beside f g frames s scope _ members
  case heap order element items => exact nextHeapItem_beside f g frames s scope _ items
  all_goals rfl

theorem callClosure_beside (limit : Nat) {closure : Closure}
    (hclosure : ∀ name ∈ closure.parameters, kind name) (arguments : List Value)
    (henter : EntersAlike f g s) :
    callClosure limit closure arguments frames (s.beside f g) =
      (callClosure limit closure arguments frames s).beside f g := by
  have hpairs : ∀ pair ∈ closure.parameters.zip arguments, kind pair.1 :=
    fun pair hpair => hclosure pair.1 (List.of_mem_zip hpair).1
  have hdepth : (s.beside f g).depth = s.depth := rfl
  unfold callClosure
  rw [hdepth]
  by_cases harity : closure.parameters.length ≠ arguments.length
  · rw [if_pos harity, if_pos harity]
    rfl
  · by_cases hlimit : limit ≤ s.depth
    · rw [if_neg harity, if_neg harity, if_pos hlimit, if_pos hlimit]
      rfl
    · rw [if_neg harity, if_neg harity, if_neg hlimit, if_neg hlimit]
      simp only [henter closure.scope, bindAll_beside _ _ h hpairs]
      rfl

theorem applyValue_beside (limit : Nat) (callee : Value) (arguments : List Value)
    (hnames : ∀ name ∈ nextNames ⟨.apply callee arguments, frames, s⟩, kind name)
    (henter : EntersAlike f g s) :
    applyValue limit callee arguments frames (s.beside f g) =
      (applyValue limit callee arguments frames s).beside f g := by
  cases callee
  case function a => exact callClosure_beside frames s h limit hnames arguments henter
  case builtin function =>
    simp only [applyValue, Builtin.call_beside f g s function arguments h.prints]
    exact resume_beside f g frames _
  all_goals rfl

theorem resumeFrame_beside {frame : Frame} {value : Value}
    (hnames : ∀ name ∈ nextNames ⟨.deliver value, frame :: frames, s⟩, kind name) :
    resume frame value frames (s.beside f g) = (resume frame value frames s).beside f g := by
  cases frame
  case declare name scope =>
    simp only [resume, h.bind (hnames name List.mem_cons_self)]
    split <;> rfl
  case assign name scope =>
    simp only [resume, h.bind (hnames name List.mem_cons_self),
      h.lookup (hnames name List.mem_cons_self)]
    split
    · rfl
    · cases s.lookup scope name <;> rfl
  case unary op => exact resume_beside f g frames (.keep (op.apply value) s)
  case right left op =>
    simp only [resume, Store.applyBinary_beside]
    exact resume_beside f g frames _
  case position container =>
    simp only [resume, Store.index_beside]
    exact resume_beside f g frames _
  case callee arguments scope => exact nextArgument_beside f g frames s scope value _ arguments
  case argument callee done rest scope =>
    exact nextArgument_beside f g frames s scope callee _ rest
  case item kind done rest scope => exact nextItem_beside f g frames s scope kind _ rest
  case member done rest scope =>
    simp only [resume, Store.key_beside]
    exact nextMember_beside f g frames s scope _ rest
  case entryValue done key rest scope =>
    simp only [resume, Store.key_beside]
    exact nextEntry_beside f g frames s scope _ rest
  case heapItem done rest scope =>
    simp only [resume, Store.pushHeap_beside]
    cases s.pushHeap done value with
    | error fault => rfl
    | ok done => exact nextHeapItem_beside f g frames s scope done rest
  case giveBack | loopTest | loopBody =>
    simp only [resume]
    split <;> rfl
  case branch consequence alternative scope =>
    simp only [resume]
    split
    · rfl
    · cases alternative <;> rfl
  case block rest scope =>
    simp only [resume]
    split
    · rfl
    · cases rest <;> rfl
  all_goals rfl

end Steps

/-- A step does the same beside other scopes and another output. -/
theorem step_beside {f : Array Scope → Array Scope} {g : String → String} {kind : String → Prop}
    (h : Passive f g kind) {m : Machine} (hnames : ∀ name ∈ m.nextNames, kind name)
    (henter : EntersAlike f g m.store) (limit : Nat) :
    (m.beside f g).step limit = (m.step limit).beside f g := by
  obtain ⟨control, frames, s⟩ := m
  cases control with
  | evaluate e scope => exact evaluate_beside frames s scope h hnames
  | execute statement scope => exact execute_beside f g frames s scope statement
  | perform body scope => exact perform_beside f g frames s scope body
  | apply callee arguments =>
    exact applyValue_beside frames s h limit callee arguments hnames henter
  | deliver value =>
    cases frames with
    | nil => rfl
    | cons frame frames => exact resumeFrame_beside frames s h hnames
  | raise fault =>
    cases frames with
    | nil => rfl
    | cons frame frames => exact unwind_beside f g frames s frame fault

theorem outcome?_beside (f : Array Scope → Array Scope) (g : String → String) (m : Machine) :
    (m.beside f g).outcome? = m.outcome?.map (Outcome.beside f g) := by
  obtain ⟨control, frames, s⟩ := m
  cases control
  case deliver | raise => cases frames <;> rfl
  all_goals rfl

end Machine

end CellScript
