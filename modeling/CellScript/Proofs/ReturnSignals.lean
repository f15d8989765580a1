import CellScript.Proofs.Runs
import CellScript.Proofs.StoreValues

/-!
How a `return` travels.

A `return` wraps its value, and the wrapped value is meant to end the body around it. Statements,
blocks and loop bodies pass it on and a call unwraps it. A place that waits for an operand, a
condition, an argument or an item does neither: it takes the wrapped value for a value.
-/

namespace CellScript

theorem forall_mem_pairs {α : Type} {p : α → Prop} {pairs : List (α × α)} :
    (∀ x ∈ pairs.flatMap fun pair => [pair.1, pair.2], p x) ↔
      ∀ pair ∈ pairs, p pair.1 ∧ p pair.2 := by
  induction pairs with
  | nil => simp
  | cons pair pairs ih =>
    rw [List.flatMap_cons, List.forall_mem_append, ih, List.forall_mem_cons]
    simp

/-- The values that a frame keeps for later. -/
def Frame.values : Frame → List Value
  | .right first _ => [first]
  | .argument called done _ _ => called :: done.toList
  | .position indexed => [indexed]
  | .item _ done _ _ => done.toList
  | .member done _ _ => done.values
  | .entryKey done _ _ _ => done.values.flatMap fun entry => [entry.1, entry.2]
  | .entryValue done key _ _ => key :: done.values.flatMap fun entry => [entry.1, entry.2]
  | _ => []

/-- The frames that wait for an operand, a condition, a callee, an argument or an item. All others
wait for a body or for the value of a statement. -/
def Frame.isOperand : Frame → Bool
  | .declare .. | .assign .. | .giveBack | .block .. | .loopBody .. | .activeCall => false
  | _ => true

/-- The values that are about to be used in a call. -/
def Control.values : Control → List Value
  | .apply callee arguments => callee :: arguments
  | _ => []

/-- A value with at most one wrapping. -/
def Value.Single (v : Value) : Prop := v.unwrapped.isReturning = false

theorem Value.single_of_not_returning {v : Value} (h : v.isReturning = false) : v.Single := by
  cases v <;> first | rfl | cases h

namespace Machine

/-! ### Conditions on all values of a machine -/

/-- The values in the store, in frames and in calls meet `P`, functions meet `F`, and the value that
is on its way to a frame meets `Q`. -/
structure Keeps (P Q : Value → Prop) (F : Closure → Prop) (m : Machine) : Prop where
  store : m.store.All P F
  frames : ∀ frame ∈ m.frames, ∀ v ∈ frame.values, P v
  control : ∀ v ∈ m.control.values, P v
  delivered : ∀ v, m.control = .deliver v → Q v

namespace Keeps

variable {P Q : Value → Prop} {F : Closure → Prop} {s : Store} {frames : List Frame}

theorem deliver (hs : s.All P F) (hf : ∀ frame ∈ frames, ∀ v ∈ frame.values, P v) {v : Value}
    (hv : Q v) : Keeps P Q F ⟨.deliver v, frames, s⟩ where
  store := hs
  frames := hf
  control := by simp [Control.values]
  delivered _ h := by cases h; exact hv

theorem apply (hs : s.All P F) (hf : ∀ frame ∈ frames, ∀ v ∈ frame.values, P v) {callee : Value}
    {arguments : List Value} (hc : P callee) (ha : ∀ v ∈ arguments, P v) :
    Keeps P Q F ⟨.apply callee arguments, frames, s⟩ where
  store := hs
  frames := hf
  control := List.forall_mem_cons.2 ⟨hc, ha⟩
  delivered _ h := by cases h

/-- Any other control holds no values. -/
theorem other (hs : s.All P F) (hf : ∀ frame ∈ frames, ∀ v ∈ frame.values, P v) {control : Control}
    (hc : control.values = []) (hd : ∀ v, control ≠ .deliver v) :
    Keeps P Q F ⟨control, frames, s⟩ where
  store := hs
  frames := hf
  control := by simp [hc]
  delivered v h := absurd h (hd v)

theorem raise (hs : s.All P F) (hf : ∀ frame ∈ frames, ∀ v ∈ frame.values, P v) (fault : Fault) :
    Keeps P Q F ⟨.raise fault, frames, s⟩ := other hs hf rfl (by simp)

theorem evaluate (hs : s.All P F) (hf : ∀ frame ∈ frames, ∀ v ∈ frame.values, P v) (frame : Frame)
    (hv : ∀ v ∈ frame.values, P v) (expression : Expr) (scope : ScopeId) :
    Keeps P Q F ⟨.evaluate expression scope, frame :: frames, s⟩ :=
  other hs (List.forall_mem_cons.2 ⟨hv, hf⟩) rfl (by simp)

theorem perform (hs : s.All P F) (hf : ∀ frame ∈ frames, ∀ v ∈ frame.values, P v)
    (body : List Stmt) (scope : ScopeId) : Keeps P Q F ⟨.perform body scope, frames, s⟩ :=
  other hs hf rfl (by simp)

/-- The values among the entries of a map. -/
theorem forall_entries {done : OrderedMap Key (Value × Value)} :
    (∀ v ∈ done.values.flatMap fun entry => [entry.1, entry.2], P v) ↔
      ∀ entry ∈ done.entries, P entry.2.1 ∧ P entry.2.2 := by
  rw [forall_mem_pairs, OrderedMap.values, List.forall_mem_map]

section Steps

variable (hplain : ∀ v : Value, v.isReturning = false → P v) (hPQ : ∀ v, P v → Q v)

include hPQ in
theorem resume {o : Outcome} (ho : o.All P F) (hf : ∀ frame ∈ frames, ∀ v ∈ frame.values, P v) :
    Keeps P Q F (o.resume frames) := by
  unfold Outcome.resume
  split
  · next v hv => exact deliver ho.store hf (hPQ v (ho.result v hv))
  · exact raise ho.store hf _

theorem nextArgument (hs : s.All P F) (hf : ∀ frame ∈ frames, ∀ v ∈ frame.values, P v)
    {callee : Value} (hc : P callee) {done : Array Value} (hd : ∀ v ∈ done, P v)
    (rest : List Expr) (scope : ScopeId) :
    Keeps P Q F (nextArgument callee done rest scope frames s) := by
  cases rest with
  | nil => exact apply hs hf hc (by simpa using hd)
  | cons expression rest =>
    exact evaluate hs hf (.argument callee done rest scope)
      (List.forall_mem_cons.2 ⟨hc, by simpa using hd⟩) _ _

include hplain hPQ

theorem nextItem (hs : s.All P F) (hf : ∀ frame ∈ frames, ∀ v ∈ frame.values, P v)
    (kind : SequenceKind) {done : Array Value} (hd : ∀ v ∈ done, P v) (rest : List Expr)
    (scope : ScopeId) : Keeps P Q F (nextItem kind done rest scope frames s) := by
  cases rest with
  | nil => exact deliver (hs.alloc (.sequence done) hd) hf (hPQ _ (hplain _ rfl))
  | cons expression rest =>
    exact evaluate hs hf (.item kind done rest scope) (by simpa [Frame.values] using hd) _ _

theorem nextMember (hs : s.All P F) (hf : ∀ frame ∈ frames, ∀ v ∈ frame.values, P v)
    {done : OrderedMap Key Value} (hd : ∀ entry ∈ done.entries, P entry.2) (rest : List Expr)
    (scope : ScopeId) : Keeps P Q F (nextMember done rest scope frames s) := by
  cases rest with
  | nil => exact deliver (hs.alloc (.set done) hd) hf (hPQ _ (hplain _ rfl))
  | cons expression rest =>
    refine evaluate hs hf (.member done rest scope) (fun v hv => ?_) _ _
    obtain ⟨entry, hentry, rfl⟩ := List.mem_map.1 hv
    exact hd entry hentry

theorem nextEntry (hs : s.All P F) (hf : ∀ frame ∈ frames, ∀ v ∈ frame.values, P v)
    {done : OrderedMap Key (Value × Value)}
    (hd : ∀ entry ∈ done.entries, P entry.2.1 ∧ P entry.2.2) (rest : List (Expr × Expr))
    (scope : ScopeId) : Keeps P Q F (nextEntry done rest scope frames s) := by
  cases rest with
  | nil => exact deliver (hs.alloc (.map done) hd) hf (hPQ _ (hplain _ rfl))
  | cons pair rest =>
    exact evaluate hs hf (.entryKey done pair.2 rest scope) (forall_entries.2 hd) _ _

theorem nextHeapItem (hs : s.All P F) (hf : ∀ frame ∈ frames, ∀ v ∈ frame.values, P v)
    (done : Heap) (rest : List Expr) (scope : ScopeId) :
    Keeps P Q F (nextHeapItem done rest scope frames s) := by
  cases rest with
  | nil => exact deliver (hs.alloc (.heap done) trivial) hf (hPQ _ (hplain _ rfl))
  | cons expression rest =>
    exact evaluate hs hf (.heapItem done rest scope) (by simp [Frame.values]) _ _

theorem evaluateStep (hs : s.All P F) (hf : ∀ frame ∈ frames, ∀ v ∈ frame.values, P v)
    {expression : Expr} {scope : ScopeId}
    (hfunction : ∀ parameters body, expression = .function parameters body →
      F ⟨parameters, body, scope⟩) :
    Keeps P Q F (Machine.evaluate expression scope frames s) := by
  cases expression
  case identifier name =>
    refine resume hPQ (.keep hs fun v hv => ?_) hf
    unfold valueOf at hv
    split at hv
    · next hlookup =>
      cases hv
      exact hs.lookup hlookup
    · split at hv <;> cases hv
      exact hplain _ rfl
  case integer | boolean => exact deliver hs hf (hPQ _ (hplain _ rfl))
  case text contents => exact resume hPQ (.newText hplain hs contents) hf
  case function parameters body =>
    exact deliver (hs.alloc (.function ⟨parameters, body, scope⟩) (hfunction _ _ rfl)) hf
      (hPQ _ (hplain _ rfl))
  case sequence kind items => exact nextItem hplain hPQ hs hf kind (by simp) items scope
  case map entries => exact nextEntry hplain hPQ hs hf (by simp [OrderedMap.empty]) entries scope
  case set members => exact nextMember hplain hPQ hs hf (by simp [OrderedMap.empty]) members scope
  case heap order element items => exact nextHeapItem hplain hPQ hs hf _ items scope
  all_goals exact evaluate hs hf _ (by simp [Frame.values]) _ _

omit hplain hPQ in
theorem executeStep (hnull : Q (.returning .null)) (hs : s.All P F)
    (hf : ∀ frame ∈ frames, ∀ v ∈ frame.values, P v) (statement : Stmt) (scope : ScopeId) :
    Keeps P Q F (Machine.execute statement scope frames s) := by
  cases statement
  case giveBack value =>
    cases value with
    | none => exact deliver hs hf hnull
    | some value => exact evaluate hs hf _ (by simp [Frame.values]) _ _
  case expression value => exact other hs hf rfl (by simp)
  case block body => exact perform hs hf body scope
  all_goals exact evaluate hs hf _ (by simp [Frame.values]) _ _

theorem performStep (hs : s.All P F) (hf : ∀ frame ∈ frames, ∀ v ∈ frame.values, P v)
    (body : List Stmt) (scope : ScopeId) :
    Keeps P Q F (Machine.perform body scope frames s) := by
  cases body with
  | nil => exact deliver hs hf (hPQ _ (hplain _ rfl))
  | cons statement rest =>
    exact other hs (List.forall_mem_cons.2 ⟨by simp [Frame.values], hf⟩) rfl (by simp)

theorem applyStep (limit : Nat) (hs : s.All P F)
    (hf : ∀ frame ∈ frames, ∀ v ∈ frame.values, P v) (callee : Value) {arguments : List Value}
    (ha : ∀ v ∈ arguments, P v) : Keeps P Q F (applyValue limit callee arguments frames s) := by
  unfold applyValue
  split
  · unfold callClosure
    split
    · exact raise hs hf _
    · split
      · exact raise hs hf _
      · next a _ _ =>
        have hbound : ∀ pair ∈ (s.closureAt a).parameters.zip arguments, P pair.2 :=
          fun pair hpair => ha _ (List.of_mem_zip hpair).2
        have hentered := (hs.enter (s.closureAt a).scope).bindAll s.scopes.size hbound
        have hcall : ∀ v ∈ Frame.activeCall.values, P v := by simp [Frame.values]
        exact perform (hentered.withDepth _) (List.forall_mem_cons.2 ⟨hcall, hf⟩) _ _
  · exact resume hPQ (Builtin.call_all hplain hs _ ha) hf
  · exact raise hs hf _

theorem resumeStep (hwrap : ∀ v : Value, v.isReturning = false → Q (.returning v))
    (hunwrap : ∀ v, Q v → Q v.unwrapped) (hs : s.All P F)
    (hf : ∀ frame ∈ frames, ∀ v ∈ frame.values, P v) {frame : Frame}
    (hframe : ∀ v ∈ frame.values, P v) {value : Value} (hq : Q value)
    (hp : frame.isOperand = true → P value) :
    Keeps P Q F (Machine.resume frame value frames s) := by
  cases frame
  case declare name scope =>
    simp only [Machine.resume]
    split
    · exact deliver hs hf hq
    · next hreturning =>
      exact deliver (hs.bind scope name (hplain _ (by simpa using hreturning))) hf
        (hPQ _ (hplain _ rfl))
  case assign name scope =>
    simp only [Machine.resume]
    split
    · exact deliver hs hf hq
    · next hreturning =>
      split
      · exact deliver (hs.bind scope name (hplain _ (by simpa using hreturning))) hf
          (hPQ _ (hplain _ rfl))
      · exact raise hs hf _
  case giveBack =>
    simp only [Machine.resume]
    split
    · exact deliver hs hf hq
    · next hreturning => exact deliver hs hf (hwrap _ (by simpa using hreturning))
  case block rest scope =>
    simp only [Machine.resume]
    split
    · exact deliver hs hf hq
    · cases rest with
      | nil => exact deliver hs hf hq
      | cons statement rest =>
        exact other hs (List.forall_mem_cons.2 ⟨by simp [Frame.values], hf⟩) rfl (by simp)
  case loopBody condition body scope =>
    simp only [Machine.resume]
    split
    · exact deliver hs hf hq
    · exact evaluate hs hf _ (by simp [Frame.values]) _ _
  case activeCall => exact deliver (hs.withDepth _) hf (hunwrap _ hq)
  case unary op => exact resume hPQ (.keep hs (UnaryOp.apply_all hplain op value)) hf
  case left op right scope =>
    exact evaluate hs hf (.right value op) (by simpa [Frame.values] using hp rfl) _ _
  case right left op => exact resume hPQ (Store.applyBinary_all hplain hs op left value) hf
  case branch consequence alternative scope =>
    simp only [Machine.resume]
    split
    · exact perform hs hf _ _
    · split
      · exact perform hs hf _ _
      · exact deliver hs hf (hPQ _ (hplain _ rfl))
  case loopTest condition body scope =>
    simp only [Machine.resume]
    split
    · exact perform hs (List.forall_mem_cons.2 ⟨by simp [Frame.values], hf⟩) _ _
    · exact deliver hs hf (hPQ _ (hplain _ rfl))
  case callee arguments scope => exact nextArgument hs hf (hp rfl) (by simp) arguments scope
  case argument callee done rest scope =>
    obtain ⟨hcallee, hdone⟩ := List.forall_mem_cons.1 hframe
    refine nextArgument hs hf hcallee (fun v hv => ?_) rest scope
    rcases Array.mem_push.1 hv with hv | rfl
    · exact hdone v (by simpa using hv)
    · exact hp rfl
  case container position scope =>
    exact evaluate hs hf (.position value) (by simpa [Frame.values] using hp rfl) _ _
  case position container => exact resume hPQ (Store.index_all hplain hs container value) hf
  case item kind done rest scope =>
    refine nextItem hplain hPQ hs hf kind (fun v hv => ?_) rest scope
    rcases Array.mem_push.1 hv with hv | rfl
    · exact hframe v (by simpa [Frame.values] using hv)
    · exact hp rfl
  case member done rest scope =>
    refine nextMember hplain hPQ hs hf
      (OrderedMap.forall_insert (fun entry hentry => ?_) _ (hp rfl)) rest scope
    exact hframe _ (List.mem_map.2 ⟨entry, hentry, rfl⟩)
  case entryKey done valueExpr rest scope =>
    exact evaluate hs hf (.entryValue done value rest scope)
      (List.forall_mem_cons.2 ⟨hp rfl, hframe⟩) _ _
  case entryValue done key rest scope =>
    obtain ⟨hkey, hdone⟩ := List.forall_mem_cons.1 hframe
    exact nextEntry hplain hPQ hs hf (OrderedMap.forall_insert
      (p := fun pair : Value × Value => P pair.1 ∧ P pair.2) (forall_entries.1 hdone) _
        ⟨hkey, hp rfl⟩) rest scope
  case heapItem done rest scope =>
    simp only [Machine.resume]
    split
    · exact nextHeapItem hplain hPQ hs hf _ rest scope
    · exact raise hs hf _

omit hplain hPQ in
theorem unwindStep (hs : s.All P F) (hf : ∀ frame ∈ frames, ∀ v ∈ frame.values, P v)
    (frame : Frame) (fault : Fault) : Keeps P Q F (Machine.unwind frame fault frames s) := by
  unfold Machine.unwind
  split
  · exact raise (hs.withDepth _) hf fault
  · exact raise hs hf fault

/-- One step keeps the conditions, if what an operand gets meets `P` and new functions meet `F`. -/
theorem step (limit : Nat) (hwrap : ∀ v : Value, v.isReturning = false → Q (.returning v))
    (hunwrap : ∀ v, Q v → Q v.unwrapped) {m : Machine} (h : Keeps P Q F m)
    (hp : ∀ v frame frames s, m = ⟨.deliver v, frame :: frames, s⟩ → frame.isOperand = true → P v)
    (hfunction : ∀ parameters body scope frames s,
      m = ⟨.evaluate (.function parameters body) scope, frames, s⟩ → F ⟨parameters, body, scope⟩) :
    Keeps P Q F (m.step limit) := by
  obtain ⟨control, frames, s⟩ := m
  obtain ⟨hs, hf, hcontrol, hdelivered⟩ := h
  cases control with
  | evaluate expression scope =>
    refine evaluateStep hplain hPQ hs hf fun parameters body he => ?_
    exact hfunction parameters body scope frames s (by rw [he])
  | execute statement scope => exact executeStep (hwrap _ rfl) hs hf statement scope
  | perform body scope => exact performStep hplain hPQ hs hf body scope
  | apply callee arguments =>
    exact applyStep hplain hPQ limit hs hf callee (List.forall_mem_cons.1 hcontrol).2
  | deliver value =>
    cases frames with
    | nil => exact deliver hs hf (hdelivered value rfl)
    | cons frame frames =>
      obtain ⟨hframe, hf⟩ := List.forall_mem_cons.1 hf
      exact resumeStep hplain hPQ hwrap hunwrap hs hf hframe (hdelivered value rfl)
        (hp value frame frames s rfl)
  | raise fault =>
    cases frames with
    | nil => exact raise hs hf fault
    | cons frame frames =>
      exact unwindStep hs (List.forall_mem_cons.1 hf).2 frame fault

end Steps

end Keeps

/-! ### Runs -/

/-- A wrapped value that an operand, a condition, a callee, an argument or an item comes to is at
once the value of the whole expression, and nothing else happens. -/
def EndsAtOnce (limit : Nat) (m : Machine) : Prop :=
  ∀ v frame frames s, m = ⟨.deliver (.returning v), frame :: frames, s⟩ → frame.isOperand = true →
    m.step limit = ⟨.deliver (.returning v), frames, s⟩

/-- No wrapped value is bound, kept in a container or for an operator, or passed in a call. -/
def SignalFree (m : Machine) : Prop :=
  m.Keeps (·.isReturning = false) (fun _ => True) (fun _ => True)

/-- An operand, a condition, a callee, an argument or an item has come to a wrapped value. -/
def Leaks (m : Machine) : Prop :=
  ∃ v frame frames s, m = ⟨.deliver (.returning v), frame :: frames, s⟩ ∧ frame.isOperand = true

section Operands

variable {F : Closure → Prop} {s : Store} {frames : List Frame}

theorem resume_ne_returning {o : Outcome} (ho : o.All (·.isReturning = false) F) (v : Value) :
    (o.resume frames).control ≠ .deliver (.returning v) := by
  unfold Outcome.resume
  split
  · next value hvalue =>
    intro h
    cases h
    cases ho.result _ hvalue
  · simp

/-- No place for an operand passes a wrapped value on. -/
theorem resume_operand_ne {frame : Frame} (hframe : frame.isOperand = true)
    (hs : s.All (·.isReturning = false) F) (v : Value) :
    (resume frame (.returning v) frames s).control ≠ .deliver (.returning v) := by
  cases frame
  case declare | assign | giveBack | block | loopBody | activeCall => cases hframe
  case unary op => exact resume_ne_returning (.keep hs (UnaryOp.apply_all (fun _ h => h) op _)) v
  case right left op =>
    exact resume_ne_returning (Store.applyBinary_all (fun _ h => h) hs op left _) v
  case position container =>
    exact resume_ne_returning (Store.index_all (fun _ h => h) hs container _) v
  case argument callee done rest scope => cases rest <;> simp [resume, nextArgument]
  case callee arguments scope => cases arguments <;> simp [resume, nextArgument]
  case item kind done rest scope =>
    cases rest <;> simp [resume, nextItem, Outcome.resume, Outcome.fresh, Outcome.value,
      Store.newSequence]
  case member done rest scope =>
    cases rest <;> simp [resume, nextMember, Outcome.resume, Outcome.fresh, Outcome.value,
      Store.newSet]
  case entryValue done key rest scope =>
    cases rest <;> simp [resume, nextEntry, Outcome.resume, Outcome.fresh, Outcome.value,
      Store.newMap]
  case heapItem done rest scope => simp [resume, Store.pushHeap, Store.heapItem?]
  all_goals simp [resume, Value.truthy]

end Operands

/-- One step of a machine in which no operand has come to a wrapped value. -/
theorem Keeps.step_of_not_leaks {F : Closure → Prop} (limit : Nat) {m : Machine}
    (h : m.Keeps (·.isReturning = false) Value.Single F) (hm : ¬m.Leaks)
    (hfunction : ∀ parameters body scope frames s,
      m = ⟨.evaluate (.function parameters body) scope, frames, s⟩ → F ⟨parameters, body, scope⟩) :
    (m.step limit).Keeps (·.isReturning = false) Value.Single F := by
  refine h.step (fun _ h => h) (fun _ => Value.single_of_not_returning) limit (fun _ h => h)
    (fun _ => Value.single_of_not_returning) ?_ hfunction
  intro v frame frames s hstate hframe
  cases v
  case returning v => exact absurd ⟨v, frame, frames, s, hstate, hframe⟩ hm
  all_goals rfl

theorem keeps_start (p : Program) {P Q : Value → Prop} {F : Closure → Prop} :
    (start p).Keeps P Q F := .perform .initial (by simp) _ _

theorem keeps_after {limit : Nat} {p : Program} {n : Nat}
    (h : ∀ k < n, ¬((start p).after limit k).Leaks) :
    ((start p).after limit n).Keeps (·.isReturning = false) Value.Single (fun _ => True) := by
  induction n with
  | zero => exact keeps_start p
  | succ n ih =>
    have hn := ih fun k hk => h k (Nat.lt_succ_of_lt hk)
    exact hn.step_of_not_leaks limit (h n (Nat.lt_succ_self n)) fun _ _ _ _ _ _ => trivial

theorem signalFree_after {limit : Nat} {p : Program} {n : Nat}
    (h : ∀ k < n, ¬((start p).after limit k).Leaks) : ((start p).after limit n).SignalFree := by
  have hkeeps := keeps_after h
  exact ⟨hkeeps.store, hkeeps.frames, hkeeps.control, fun _ _ => trivial⟩

/-- Up to any step of a run, wrapped values end the bodies around them and are nowhere to be seen if
and only if no operand, condition, callee, argument or item has come to one. -/
theorem endsAtOnce_iff_not_leaks (limit : Nat) (p : Program) (n : Nat) :
    (∀ k ≤ n, ((start p).after limit k).EndsAtOnce limit ∧ ((start p).after limit k).SignalFree) ↔
      ∀ k ≤ n, ¬((start p).after limit k).Leaks := by
  constructor
  · rintro h k hk ⟨v, frame, frames, s, hstate, hframe⟩
    obtain ⟨hends, hfree⟩ := h k hk
    -- The place would have to hand the wrapped value on, and none does.
    have hstep := hends v frame frames s hstate hframe
    have hstore := hfree.store
    rw [hstate] at hstep hstore
    exact resume_operand_ne hframe hstore v (congrArg Machine.control hstep)
  · intro h k hk
    constructor
    · intro v frame frames s hstate hframe
      exact absurd ⟨v, frame, frames, s, hstate, hframe⟩ (h k hk)
    · exact signalFree_after fun j hj => h j (by omega)

/-- An array literal keeps the wrapped value of its item, and the program goes on: the condition
fails for `let a = [if (true) { return 1; }]; 2;`. -/
theorem signal_kept_in_array :
    ¬∀ (limit : Nat) (p : Program) (n : Nat),
      ((start p).after limit n).EndsAtOnce limit ∧ ((start p).after limit n).SignalFree := by
  intro h
  let item : Expr := .conditional (.boolean true) [.giveBack (some (.integer 1))] none
  have hends := (h 1 ⟨[.declare "a" (.sequence .array [item]), .expression (.integer 2)]⟩ 11).1
  -- After eleven steps the wrapped value is there and the array waits for it.
  have hstep := hends _ _ _ _ rfl rfl
  cases hstep

end Machine

end CellScript
