import CellScript.Proofs.ReturnPlacement

/-!
Conditions on all code that a machine holds.

Code comes into a machine with the program, and from then on it is only taken apart: a step runs
parts of what the control, the frames and the function cells hold. So a condition on all nodes that
the program meets is met by whatever the machine holds later on.
-/

namespace CellScript

/-- The code of the function meets the conditions. -/
def Closure.Every (good : Expr → Bool) (fine : Stmt → Bool) (closure : Closure) : Prop :=
  (Expr.function closure.parameters closure.body).every good fine = true

/-- What the control will run meets the conditions. -/
def Control.every (good : Expr → Bool) (fine : Stmt → Bool) : Control → Bool
  | .evaluate expression _ => expression.every good fine
  | .execute statement _ => statement.every good fine
  | .perform body _ => everyStmt good fine body
  | .apply _ _ | .deliver _ | .raise _ => true

/-- What the frame will still evaluate and run meets the conditions, and so does the statement that
it is to finish. -/
structure Frame.Every (good : Expr → Bool) (fine : Stmt → Bool) (frame : Frame) : Prop where
  pending : ∀ e ∈ frame.pending, e.every good fine = true
  bodies : ∀ body ∈ frame.bodies, everyStmt good fine body = true
  declares : ∀ name scope, frame = .declare name scope →
    ∃ value, fine (.declare name value) = true
  assigns : ∀ name scope, frame = .assign name scope → ∃ value, fine (.assign name value) = true

namespace Frame.Every

variable {good : Expr → Bool} {fine : Stmt → Bool}

theorem declare {name : String} {value : Expr} (h : fine (.declare name value) = true)
    (scope : ScopeId) : (Frame.declare name scope).Every good fine where
  pending := by simp [Frame.pending]
  bodies := by simp [Frame.bodies]
  declares _ _ heq := by
    cases heq
    exact ⟨value, h⟩
  assigns _ _ heq := by cases heq

theorem assign {name : String} {value : Expr} (h : fine (.assign name value) = true)
    (scope : ScopeId) : (Frame.assign name scope).Every good fine where
  pending := by simp [Frame.pending]
  bodies := by simp [Frame.bodies]
  declares _ _ heq := by cases heq
  assigns _ _ heq := by
    cases heq
    exact ⟨value, h⟩

/-- A frame that finishes no binding. -/
theorem other {frame : Frame} (hpending : ∀ e ∈ frame.pending, e.every good fine = true)
    (hbodies : ∀ body ∈ frame.bodies, everyStmt good fine body = true)
    (hdeclare : ∀ name scope, frame ≠ .declare name scope)
    (hassign : ∀ name scope, frame ≠ .assign name scope) : frame.Every good fine where
  pending := hpending
  bodies := hbodies
  declares name scope heq := absurd heq (hdeclare name scope)
  assigns name scope heq := absurd heq (hassign name scope)

/-- A frame that has only expressions before it. -/
theorem awaiting {frame : Frame} (hpending : ∀ e ∈ frame.pending, e.every good fine = true)
    (hbodies : frame.bodies = []) (hoperand : frame.isOperand = true) :
    frame.Every good fine := by
  refine other hpending (by simp [hbodies]) ?_ ?_
  · rintro name scope rfl
    cases hoperand
  · rintro name scope rfl
    cases hoperand

end Frame.Every

namespace Machine

/-- What the control and the frames will run meets the conditions. -/
structure Runs (good : Expr → Bool) (fine : Stmt → Bool) (m : Machine) : Prop where
  control : m.control.every good fine = true
  frames : ∀ frame ∈ m.frames, frame.Every good fine

/-- All code of the machine meets the conditions. -/
structure CodeEvery (good : Expr → Bool) (fine : Stmt → Bool) (m : Machine) : Prop where
  store : m.store.All (fun _ => True) (Closure.Every good fine)
  runs : m.Runs good fine

namespace Runs

variable {good : Expr → Bool} {fine : Stmt → Bool} {s : Store} {frames : List Frame}

section Steps

variable (hf : ∀ frame ∈ frames, frame.Every good fine)

include hf

theorem push {control : Control} {frame : Frame} (hcontrol : control.every good fine = true)
    (hframe : frame.Every good fine) : Runs good fine ⟨control, frame :: frames, s⟩ :=
  ⟨hcontrol, List.forall_mem_cons.2 ⟨hframe, hf⟩⟩

theorem resume (o : Outcome) : Runs good fine (o.resume frames) := by
  unfold Outcome.resume
  split <;> exact ⟨rfl, hf⟩

theorem nextArgument {rest : List Expr} (hrest : ∀ e ∈ rest, e.every good fine = true)
    (callee : Value) (done : Array Value) (scope : ScopeId) :
    Runs good fine (nextArgument callee done rest scope frames s) := by
  cases rest with
  | nil => exact ⟨rfl, hf⟩
  | cons e rest =>
    obtain ⟨he, hrest⟩ := List.forall_mem_cons.1 hrest
    exact push hf he (.awaiting hrest rfl rfl)

theorem nextItem {rest : List Expr} (hrest : ∀ e ∈ rest, e.every good fine = true)
    (kind : SequenceKind) (done : Array Value) (scope : ScopeId) :
    Runs good fine (nextItem kind done rest scope frames s) := by
  cases rest with
  | nil => exact ⟨rfl, hf⟩
  | cons e rest =>
    obtain ⟨he, hrest⟩ := List.forall_mem_cons.1 hrest
    exact push hf he (.awaiting hrest rfl rfl)

theorem nextMember {rest : List Expr} (hrest : ∀ e ∈ rest, e.every good fine = true)
    (done : OrderedMap Key Value) (scope : ScopeId) :
    Runs good fine (nextMember done rest scope frames s) := by
  cases rest with
  | nil => exact ⟨rfl, hf⟩
  | cons e rest =>
    obtain ⟨he, hrest⟩ := List.forall_mem_cons.1 hrest
    exact push hf he (.awaiting hrest rfl rfl)

theorem nextEntry {rest : List (Expr × Expr)}
    (hrest : ∀ entry ∈ rest, entry.1.every good fine = true ∧ entry.2.every good fine = true)
    (done : OrderedMap Key (Value × Value)) (scope : ScopeId) :
    Runs good fine (nextEntry done rest scope frames s) := by
  cases rest with
  | nil => exact ⟨rfl, hf⟩
  | cons entry rest =>
    obtain ⟨hentry, hrest⟩ := List.forall_mem_cons.1 hrest
    refine push hf hentry.1 (.awaiting ?_ rfl rfl)
    exact List.forall_mem_cons.2 ⟨hentry.2, forall_mem_pairs.2 hrest⟩

theorem nextHeapItem {rest : List Expr} (hrest : ∀ e ∈ rest, e.every good fine = true)
    (done : Heap) (scope : ScopeId) :
    Runs good fine (nextHeapItem done rest scope frames s) := by
  cases rest with
  | nil => exact ⟨rfl, hf⟩
  | cons e rest =>
    obtain ⟨he, hrest⟩ := List.forall_mem_cons.1 hrest
    exact push hf he (.awaiting hrest rfl rfl)

theorem evaluateStep {e : Expr} (he : e.every good fine = true) (scope : ScopeId) :
    Runs good fine (Machine.evaluate e scope frames s) := by
  have items {es : List Expr} (h : everyExpr good fine es = true) :
      ∀ e ∈ es, e.every good fine = true := by
    rw [everyExpr_eq_all] at h
    exact List.all_eq_true.1 h
  cases e <;> simp only [Expr.every, Bool.and_eq_true] at he
  case identifier name => exact resume hf _
  case integer | boolean | text | function => exact ⟨rfl, hf⟩
  case unary op operand => exact push hf he.2 (.awaiting (by simp [Frame.pending]) rfl rfl)
  case binary left op right =>
    exact push hf he.1.2 (.awaiting (by simpa [Frame.pending] using he.2) rfl rfl)
  case conditional condition consequence alternative =>
    refine push hf he.1.1.2 (.other (by simp [Frame.pending]) ?_ (by simp) (by simp))
    cases alternative with
    | none => simpa [Frame.bodies] using he.1.2
    | some body => simpa [Frame.bodies, everyAlternative] using And.intro he.1.2 he.2
  case loop condition body =>
    refine push hf he.1.2 (.other ?_ ?_ (by simp) (by simp))
    · simpa [Frame.pending] using he.1.2
    · simpa [Frame.bodies] using he.2
  case call callee arguments => exact push hf he.1.2 (.awaiting (items he.2) rfl rfl)
  case index container position =>
    exact push hf he.1.2 (.awaiting (by simpa [Frame.pending] using he.2) rfl rfl)
  case sequence kind members => exact nextItem hf (items he.2) kind #[] scope
  case map entries =>
    refine nextEntry hf (fun entry hentry => ?_) .empty scope
    rw [everyEntry_eq_all] at he
    simpa using List.all_eq_true.1 he.2 entry hentry
  case set members => exact nextMember hf (items he.2) .empty scope
  case heap order element members => exact nextHeapItem hf (items he.2) _ scope

theorem executeStep {statement : Stmt} (h : statement.every good fine = true) (scope : ScopeId) :
    Runs good fine (Machine.execute statement scope frames s) := by
  cases statement
  case giveBack value =>
    cases value with
    | none => exact ⟨rfl, hf⟩
    | some value =>
      simp only [Stmt.every, Bool.and_eq_true] at h
      exact push hf h.2 (.other (by simp [Frame.pending]) (by simp [Frame.bodies]) (by simp)
        (by simp))
  all_goals simp only [Stmt.every, Bool.and_eq_true] at h
  case declare name value => exact push hf h.2 (.declare h.1 scope)
  case assign name value => exact push hf h.2 (.assign h.1 scope)
  case expression value => exact ⟨h.2, hf⟩
  case block body => exact ⟨h.2, hf⟩

/-- The first statement of a body runs, with the rest in a frame. -/
theorem sequence {statement : Stmt} {rest : List Stmt}
    (h : everyStmt good fine (statement :: rest) = true) (scope : ScopeId) :
    Runs good fine ⟨.execute statement scope, .block rest scope :: frames, s⟩ := by
  simp only [everyStmt, Bool.and_eq_true] at h
  refine push hf h.1 (.other (by simp [Frame.pending]) ?_ (by simp) (by simp))
  simpa [Frame.bodies] using h.2

theorem performStep {body : List Stmt} (h : everyStmt good fine body = true) (scope : ScopeId) :
    Runs good fine (Machine.perform body scope frames s) := by
  cases body with
  | nil => exact ⟨rfl, hf⟩
  | cons statement rest => exact sequence hf h scope

theorem applyStep (limit : Nat) (hbody : ∀ a, everyStmt good fine (s.closureAt a).body = true)
    (callee : Value) (arguments : List Value) :
    Runs good fine (applyValue limit callee arguments frames s) := by
  unfold applyValue
  split
  · next a =>
    unfold callClosure
    split
    · exact ⟨rfl, hf⟩
    · split
      · exact ⟨rfl, hf⟩
      · exact push hf (hbody a)
          (.other (by simp [Frame.pending]) (by simp [Frame.bodies]) (by simp) (by simp))
  · exact resume hf _
  · exact ⟨rfl, hf⟩

theorem resumeStep {frame : Frame} (hframe : frame.Every good fine) (value : Value) :
    Runs good fine (Machine.resume frame value frames s) := by
  obtain ⟨hpending, hbodies, -, -⟩ := hframe
  cases frame
  case declare name scope =>
    simp only [Machine.resume]
    split <;> exact ⟨rfl, hf⟩
  case assign name scope =>
    simp only [Machine.resume]
    split
    · exact ⟨rfl, hf⟩
    · split <;> exact ⟨rfl, hf⟩
  case giveBack =>
    simp only [Machine.resume]
    split <;> exact ⟨rfl, hf⟩
  case block rest scope =>
    simp only [Machine.resume]
    split
    · exact ⟨rfl, hf⟩
    · cases rest with
      | nil => exact ⟨rfl, hf⟩
      | cons statement rest => exact sequence hf (hbodies _ (by simp [Frame.bodies])) scope
  case loopBody condition body scope =>
    simp only [Machine.resume]
    split
    · exact ⟨rfl, hf⟩
    · exact push hf (hpending condition (by simp [Frame.pending]))
        (.other hpending hbodies (by simp) (by simp))
  case activeCall => exact ⟨rfl, hf⟩
  case unary op => exact resume hf _
  case left op right scope =>
    exact push hf (hpending right (by simp [Frame.pending]))
      (.awaiting (by simp [Frame.pending]) rfl rfl)
  case right left op => exact resume hf _
  case branch consequence alternative scope =>
    simp only [Machine.resume]
    split
    · exact ⟨hbodies consequence (by simp [Frame.bodies]), hf⟩
    · split
      · next body => exact ⟨hbodies body (by simp [Frame.bodies]), hf⟩
      · exact ⟨rfl, hf⟩
  case loopTest condition body scope =>
    simp only [Machine.resume]
    split
    · exact push hf (hbodies body (by simp [Frame.bodies]))
        (.other hpending hbodies (by simp) (by simp))
    · exact ⟨rfl, hf⟩
  case callee arguments scope => exact nextArgument hf hpending value #[] scope
  case argument callee done rest scope => exact nextArgument hf hpending callee _ scope
  case container position scope =>
    exact push hf (hpending position (by simp [Frame.pending]))
      (.awaiting (by simp [Frame.pending]) rfl rfl)
  case position container => exact resume hf _
  case item kind done rest scope => exact nextItem hf hpending kind _ scope
  case member done rest scope => exact nextMember hf hpending _ scope
  case entryKey done valueExpr rest scope =>
    obtain ⟨hvalue, hrest⟩ := List.forall_mem_cons.1 hpending
    exact push hf hvalue (.awaiting hrest rfl rfl)
  case entryValue done key rest scope => exact nextEntry hf (forall_mem_pairs.1 hpending) _ scope
  case heapItem done rest scope =>
    simp only [Machine.resume]
    split
    · exact nextHeapItem hf hpending _ scope
    · exact ⟨rfl, hf⟩

theorem unwindStep (frame : Frame) (fault : Fault) :
    Runs good fine (Machine.unwind frame fault frames s) := by
  unfold Machine.unwind
  split <;> exact ⟨rfl, hf⟩

end Steps

end Runs

namespace CodeEvery

variable {good : Expr → Bool} {fine : Stmt → Bool} {m : Machine}

/-- What a step runs is a part of the code that was there. A call of a cell that holds no function
runs the empty function, which is why the condition has to hold of that one as well. -/
theorem runs_step (hempty : good (.function [] []) = true) (h : m.CodeEvery good fine)
    (limit : Nat) : (m.step limit).Runs good fine := by
  obtain ⟨control, frames, s⟩ := m
  obtain ⟨hs, hcontrol, hframes⟩ := h
  cases control with
  | evaluate expression scope => exact .evaluateStep hframes hcontrol scope
  | execute statement scope => exact .executeStep hframes hcontrol scope
  | perform body scope => exact .performStep hframes hcontrol scope
  | apply callee arguments =>
    refine .applyStep hframes limit (fun a => ?_) callee arguments
    have hclosure : (s.closureAt a).Every good fine := by
      refine hs.closureAt ?_ a
      show (good (.function [] []) && everyStmt good fine []) = true
      rw [hempty]
      rfl
    simp only [Closure.Every, Expr.every, Bool.and_eq_true] at hclosure
    exact hclosure.2
  | deliver value =>
    cases frames with
    | nil => exact ⟨hcontrol, hframes⟩
    | cons frame frames =>
      obtain ⟨hframe, hframes⟩ := List.forall_mem_cons.1 hframes
      exact .resumeStep hframes hframe value
  | raise fault =>
    cases frames with
    | nil => exact ⟨hcontrol, hframes⟩
    | cons frame frames => exact .unwindStep (List.forall_mem_cons.1 hframes).2 frame fault

theorem store_step (h : m.CodeEvery good fine) (limit : Nat) :
    (m.step limit).store.All (fun _ => True) (Closure.Every good fine) := by
  have hkeeps : m.Keeps (fun _ => True) (fun _ => True) (Closure.Every good fine) :=
    ⟨h.store, fun _ _ _ _ => trivial, fun _ _ => trivial, fun _ _ => trivial⟩
  refine (hkeeps.step (fun _ _ => trivial) (fun _ _ => trivial) limit (fun _ _ => trivial)
    (fun _ _ => trivial) (fun _ _ _ _ _ _ => trivial) ?_).store
  rintro parameters body scope frames s rfl
  exact h.runs.control

theorem step (hempty : good (.function [] []) = true) (h : m.CodeEvery good fine) (limit : Nat) :
    (m.step limit).CodeEvery good fine := ⟨h.store_step limit, h.runs_step hempty limit⟩

theorem after (hempty : good (.function [] []) = true) (h : m.CodeEvery good fine)
    (limit n : Nat) : (m.after limit n).CodeEvery good fine :=
  after_of_step (fun _ hm => hm.step hempty limit) h n

/-- A machine that begins to run code on a store with such code. -/
theorem start {control : Control} {s : Store} (hcontrol : control.every good fine = true)
    (hs : s.All (fun _ => True) (Closure.Every good fine)) :
    CodeEvery good fine ⟨control, [], s⟩ := ⟨hs, hcontrol, by simp⟩

end CodeEvery

end Machine

end CellScript
