import CellScript.Proofs.ReturnSignals
import CellScript.Proofs.Writing

/-!
Programs in which every `return` is well placed.

A wrapped value comes only from a `return`, and an expression passes one on only if it is an `if` or
a `while` whose blocks can come to a `return`. If no such expression is an operand, a condition, a
callee, an argument or an item, then no run ever brings a wrapped value to such a place.
-/

namespace CellScript

/-! ### The condition on programs -/

mutual

/-- The expression can come to a `return` that belongs to the body around it. -/
def Expr.mayReturn : Expr → Bool
  | .conditional _ consequence alternative =>
    bodyMayReturn consequence || alternativeMayReturn alternative
  | .loop _ body => bodyMayReturn body
  | _ => false

def Stmt.mayReturn : Stmt → Bool
  | .declare _ value | .assign _ value | .expression value => value.mayReturn
  | .giveBack _ => true
  | .block body => bodyMayReturn body

def bodyMayReturn : List Stmt → Bool
  | [] => false
  | statement :: rest => statement.mayReturn || bodyMayReturn rest

def alternativeMayReturn : Option (List Stmt) → Bool
  | none => false
  | some body => bodyMayReturn body

end

/-- The operands of a node come to no `return`, and neither do its condition, its callee, its
arguments and its items. -/
def Expr.operandsQuiet : Expr → Bool
  | .unary _ operand => !operand.mayReturn
  | .binary left _ right => !left.mayReturn && !right.mayReturn
  | .conditional condition _ _ | .loop condition _ => !condition.mayReturn
  | .call callee arguments => !callee.mayReturn && arguments.all (!·.mayReturn)
  | .index container position => !container.mayReturn && !position.mayReturn
  | .sequence _ items | .set items | .heap _ _ items => items.all (!·.mayReturn)
  | .map entries => entries.all fun entry => !entry.1.mayReturn && !entry.2.mayReturn
  | _ => true

/-- This holds of all nodes. -/
def Expr.placed (e : Expr) : Bool := e.every Expr.operandsQuiet fun _ => true

def Stmt.placed (s : Stmt) : Bool := s.every Expr.operandsQuiet fun _ => true

def bodyPlaced (body : List Stmt) : Bool := everyStmt Expr.operandsQuiet (fun _ => true) body

/-- No `return` of the program can end an operand, a condition, a callee, an argument or an item. -/
def Program.returnsPlaced (p : Program) : Bool := bodyPlaced p.statements

/-- The expression may stand as an operand. -/
def Expr.quiet (e : Expr) : Bool := e.placed && !e.mayReturn

theorem Expr.quiet_of {e : Expr} (hp : e.placed = true) (hm : (!e.mayReturn) = true) :
    e.quiet = true := by
  rw [Expr.quiet, hp, hm]
  rfl

theorem quiet_items {es : List Expr}
    (hp : everyExpr Expr.operandsQuiet (fun _ => true) es = true)
    (hm : es.all (!·.mayReturn) = true) : ∀ e ∈ es, e.quiet = true := by
  rw [everyExpr_eq_all] at hp
  exact fun e he => Expr.quiet_of (List.all_eq_true.1 hp e he) (List.all_eq_true.1 hm e he)

theorem quiet_entries {entries : List (Expr × Expr)}
    (hp : everyEntry Expr.operandsQuiet (fun _ => true) entries = true)
    (hm : (entries.all fun entry => !entry.1.mayReturn && !entry.2.mayReturn) = true) :
    ∀ entry ∈ entries, entry.1.quiet = true ∧ entry.2.quiet = true := by
  rw [everyEntry_eq_all] at hp
  intro entry hentry
  have hplaced := List.all_eq_true.1 hp entry hentry
  have hquiet := List.all_eq_true.1 hm entry hentry
  rw [Bool.and_eq_true] at hplaced hquiet
  exact ⟨Expr.quiet_of hplaced.1 hquiet.1, Expr.quiet_of hplaced.2 hquiet.2⟩

/-! ### The condition on machines -/

namespace Frame

/-- The expressions that a frame will still evaluate as operands. -/
def pending : Frame → List Expr
  | .left _ second _ => [second]
  | .loopTest condition _ _ | .loopBody condition _ _ => [condition]
  | .callee arguments _ => arguments
  | .argument _ _ rest _ | .item _ _ rest _ | .member _ rest _ | .heapItem _ rest _ => rest
  | .container index _ => [index]
  | .entryKey _ value rest _ => value :: rest.flatMap fun entry => [entry.1, entry.2]
  | .entryValue _ _ rest _ => rest.flatMap fun entry => [entry.1, entry.2]
  | _ => []

/-- The bodies that a frame may still run. -/
def bodies : Frame → List (List Stmt)
  | .block rest _ => [rest]
  | .branch consequence alternative _ => consequence :: alternative.toList
  | .loopTest _ body _ | .loopBody _ body _ => [body]
  | _ => []

/-- The frame may end with a wrapped value, if `given` says whether it may get one. -/
def mayGive (given : Bool) : Frame → Bool
  | .giveBack => true
  | .activeCall => false
  | frame => (given && !frame.isOperand) || frame.bodies.any bodyMayReturn

/-- What a frame will still evaluate and run is well placed. -/
structure Placed (frame : Frame) : Prop where
  pending : ∀ e ∈ frame.pending, e.quiet = true
  bodies : ∀ body ∈ frame.bodies, bodyPlaced body = true

end Frame

/-- The frames can get what the control may give, `given` saying whether that may be wrapped. -/
def Fits : Bool → List Frame → Prop
  | _, [] => True
  | given, frame :: frames =>
    (frame.isOperand = true → given = false) ∧ frame.Placed ∧ Fits (frame.mayGive given) frames

theorem Frame.mayGive_mono {given given' : Bool} (h : given' = true → given = true) (frame : Frame)
    (hg : frame.mayGive given' = true) : frame.mayGive given = true := by
  cases frame
  case giveBack => rfl
  case activeCall => cases hg
  all_goals
    simp only [Frame.mayGive, Bool.or_eq_true, Bool.and_eq_true] at hg ⊢
    exact hg.imp_left fun hg => ⟨h hg.1, hg.2⟩

/-- A frame may end with what one of its bodies comes to. -/
theorem Frame.mayGive_of_mem {frame : Frame} {body : List Stmt} (hmem : body ∈ frame.bodies)
    (hbody : bodyMayReturn body = true) (given : Bool) : frame.mayGive given = true := by
  have hany : frame.bodies.any bodyMayReturn = true := List.any_eq_true.2 ⟨body, hmem, hbody⟩
  cases frame
  case giveBack => rfl
  case activeCall => cases hmem
  all_goals
    rw [Frame.mayGive, hany, Bool.or_true]
    all_goals simp

theorem Fits.mono {given given' : Bool} {frames : List Frame} (hf : Fits given frames)
    (h : given' = true → given = true) : Fits given' frames := by
  induction frames generalizing given given' with
  | nil => trivial
  | cons frame frames ih =>
    -- A frame that gets less gives less, so the induction is over all frames outside it.
    obtain ⟨hoperand, hplaced, hrest⟩ := hf
    refine ⟨fun ho => ?_, hplaced, ih hrest (frame.mayGive_mono h)⟩
    have hnot := hoperand ho
    cases given'
    · rfl
    · rw [h rfl] at hnot
      exact hnot

theorem Fits.quiet {given : Bool} {frames : List Frame} (hf : Fits given frames) :
    Fits false frames := hf.mono (by simp)

/-- The control may give a wrapped value. -/
def Control.mayGive : Control → Bool
  | .evaluate expression _ => expression.mayReturn
  | .execute statement _ => statement.mayReturn
  | .perform body _ => bodyMayReturn body
  | .apply _ _ | .raise _ => false
  | .deliver value => value.isReturning

/-- What the control will run is well placed. -/
def Control.placed : Control → Bool
  | .evaluate expression _ => expression.placed
  | .execute statement _ => statement.placed
  | .perform body _ => bodyPlaced body
  | _ => true

namespace Machine

/-- What the machine will run is well placed, and its frames can get what its control may give. -/
structure Sits (m : Machine) : Prop where
  control : m.control.placed = true
  fits : Fits m.control.mayGive m.frames

namespace Sits

variable {F : Closure → Prop} {s : Store} {frames : List Frame}

/-- An operand is evaluated for a new frame. -/
theorem operand {e : Expr} (he : e.quiet = true) (frame : Frame) (hframe : frame.Placed)
    (hf : Fits (frame.mayGive false) frames) (scope : ScopeId) :
    Sits ⟨.evaluate e scope, frame :: frames, s⟩ := by
  simp only [Expr.quiet, Bool.and_eq_true, Bool.not_eq_true'] at he
  refine ⟨he.1, ?_⟩
  show Fits e.mayReturn (frame :: frames)
  rw [he.2]
  exact ⟨fun _ => rfl, hframe, hf⟩

theorem deliver {v : Value} (hf : Fits v.isReturning frames) : Sits ⟨.deliver v, frames, s⟩ :=
  ⟨rfl, hf⟩

theorem raise {given : Bool} (hf : Fits given frames) (fault : Fault) :
    Sits ⟨.raise fault, frames, s⟩ := ⟨rfl, hf.quiet⟩

/-- Operators and built-in functions give no wrapped values. -/
theorem resume {o : Outcome} (ho : o.All (·.isReturning = false) F) (hf : Fits false frames) :
    Sits (o.resume frames) := by
  unfold Outcome.resume
  split
  · next v hv =>
    refine deliver ?_
    rw [ho.result v hv]
    exact hf
  · exact raise hf _

theorem nextArgument {rest : List Expr} (hrest : ∀ e ∈ rest, e.quiet = true)
    (hf : Fits false frames) (callee : Value) (done : Array Value) (scope : ScopeId) :
    Sits (nextArgument callee done rest scope frames s) := by
  cases rest with
  | nil => exact ⟨rfl, hf⟩
  | cons e rest =>
    obtain ⟨he, hrest⟩ := List.forall_mem_cons.1 hrest
    exact operand he (.argument callee done rest scope) ⟨hrest, by simp [Frame.bodies]⟩ hf scope

theorem nextItem {rest : List Expr} (hrest : ∀ e ∈ rest, e.quiet = true) (hf : Fits false frames)
    (kind : SequenceKind) (done : Array Value) (scope : ScopeId) :
    Sits (nextItem kind done rest scope frames s) := by
  cases rest with
  | nil => exact deliver hf
  | cons e rest =>
    obtain ⟨he, hrest⟩ := List.forall_mem_cons.1 hrest
    exact operand he (.item kind done rest scope) ⟨hrest, by simp [Frame.bodies]⟩ hf scope

theorem nextMember {rest : List Expr} (hrest : ∀ e ∈ rest, e.quiet = true)
    (hf : Fits false frames) (done : OrderedMap Key Value) (scope : ScopeId) :
    Sits (nextMember done rest scope frames s) := by
  cases rest with
  | nil => exact deliver hf
  | cons e rest =>
    obtain ⟨he, hrest⟩ := List.forall_mem_cons.1 hrest
    exact operand he (.member done rest scope) ⟨hrest, by simp [Frame.bodies]⟩ hf scope

theorem nextEntry {rest : List (Expr × Expr)}
    (hrest : ∀ entry ∈ rest, entry.1.quiet = true ∧ entry.2.quiet = true)
    (hf : Fits false frames) (done : OrderedMap Key (Value × Value)) (scope : ScopeId) :
    Sits (nextEntry done rest scope frames s) := by
  cases rest with
  | nil => exact deliver hf
  | cons entry rest =>
    obtain ⟨hentry, hrest⟩ := List.forall_mem_cons.1 hrest
    refine operand hentry.1 (.entryKey done entry.2 rest scope) ⟨?_, by simp [Frame.bodies]⟩ hf
      scope
    exact List.forall_mem_cons.2 ⟨hentry.2, forall_mem_pairs.2 hrest⟩

theorem nextHeapItem {rest : List Expr} (hrest : ∀ e ∈ rest, e.quiet = true)
    (hf : Fits false frames) (done : Heap) (scope : ScopeId) :
    Sits (nextHeapItem done rest scope frames s) := by
  cases rest with
  | nil => exact deliver hf
  | cons e rest =>
    obtain ⟨he, hrest⟩ := List.forall_mem_cons.1 hrest
    exact operand he (.heapItem done rest scope) ⟨hrest, by simp [Frame.bodies]⟩ hf scope

theorem evaluateStep (hs : s.All (·.isReturning = false) F) {e : Expr} (he : e.placed = true)
    (hf : Fits e.mayReturn frames) (scope : ScopeId) :
    Sits (Machine.evaluate e scope frames s) := by
  unfold Expr.placed at he
  cases e <;> simp only [Expr.every, Expr.operandsQuiet, Bool.and_eq_true] at he
  case identifier name =>
    refine resume (.keep hs fun v hv => ?_) hf
    unfold valueOf at hv
    split at hv
    · next hlookup =>
      cases hv
      exact hs.lookup hlookup
    · split at hv <;> cases hv
      rfl
  case integer | boolean | function => exact deliver hf
  case text contents => exact resume (.newText (fun _ h => h) hs contents) hf
  case unary op inner =>
    exact operand (Expr.quiet_of he.2 he.1) (.unary op)
      ⟨by simp [Frame.pending], by simp [Frame.bodies]⟩ hf scope
  case binary left op right =>
    refine operand (Expr.quiet_of he.1.2 he.1.1.1) (.left op right scope)
      ⟨?_, by simp [Frame.bodies]⟩ hf scope
    simpa [Frame.pending] using Expr.quiet_of he.2 he.1.1.2
  case conditional condition consequence alternative =>
    refine operand (Expr.quiet_of he.1.1.2 he.1.1.1) (.branch consequence alternative scope)
      ⟨by simp [Frame.pending], ?_⟩ ?_ scope
    · cases alternative with
      | none => simpa [Frame.bodies, bodyPlaced] using he.1.2
      | some body => simpa [Frame.bodies, bodyPlaced, everyAlternative] using And.intro he.1.2 he.2
    · cases alternative <;>
        simpa [Frame.mayGive, Frame.bodies, Expr.mayReturn, alternativeMayReturn, Frame.isOperand]
          using hf
  case loop condition body =>
    refine operand (Expr.quiet_of he.1.2 he.1.1) (.loopTest condition body scope) ⟨?_, ?_⟩ ?_ scope
    · simpa [Frame.pending] using Expr.quiet_of he.1.2 he.1.1
    · simpa [Frame.bodies, bodyPlaced] using he.2
    · simpa [Frame.mayGive, Frame.isOperand, Frame.bodies, Expr.mayReturn] using hf
  case call callee arguments =>
    exact operand (Expr.quiet_of he.1.2 he.1.1.1) (.callee arguments scope)
      ⟨quiet_items he.2 he.1.1.2, by simp [Frame.bodies]⟩ hf scope
  case index container position =>
    refine operand (Expr.quiet_of he.1.2 he.1.1.1) (.container position scope)
      ⟨?_, by simp [Frame.bodies]⟩ hf scope
    simpa [Frame.pending] using Expr.quiet_of he.2 he.1.1.2
  case sequence kind items =>
    exact nextItem (quiet_items he.2 he.1) hf kind #[] scope
  case map entries =>
    exact nextEntry (quiet_entries he.2 he.1) hf .empty scope
  case set members =>
    exact nextMember (quiet_items he.2 he.1) hf .empty scope
  case heap order element items =>
    exact nextHeapItem (quiet_items he.2 he.1) hf _ scope

/-- A statement waits for its value, and passes on a wrapped one. -/
theorem awaited {e : Expr} (he : e.placed = true) (frame : Frame) (hp : frame.pending = [])
    (hb : frame.bodies = []) (ho : frame.isOperand = false)
    (hf : Fits (frame.mayGive e.mayReturn) frames) (scope : ScopeId) :
    Sits ⟨.evaluate e scope, frame :: frames, s⟩ :=
  ⟨he, by simp [ho], ⟨by simp [hp], by simp [hb]⟩, hf⟩

theorem executeStep {statement : Stmt} (hp : statement.placed = true)
    (hf : Fits statement.mayReturn frames) (scope : ScopeId) :
    Sits (Machine.execute statement scope frames s) := by
  unfold Stmt.placed at hp
  cases statement
  case declare name value =>
    simp only [Stmt.every, Bool.and_eq_true] at hp
    refine awaited hp.2 (.declare name scope) rfl rfl rfl ?_ scope
    simpa [Frame.mayGive, Frame.isOperand, Frame.bodies, Stmt.mayReturn] using hf
  case assign name value =>
    simp only [Stmt.every, Bool.and_eq_true] at hp
    refine awaited hp.2 (.assign name scope) rfl rfl rfl ?_ scope
    simpa [Frame.mayGive, Frame.isOperand, Frame.bodies, Stmt.mayReturn] using hf
  case giveBack value =>
    cases value with
    | none => exact deliver hf
    | some value =>
      simp only [Stmt.every, Bool.and_eq_true] at hp
      exact awaited hp.2 .giveBack rfl rfl rfl hf scope
  case expression | block =>
    simp only [Stmt.every, Bool.and_eq_true] at hp
    exact ⟨hp.2, hf⟩

/-- The statements of a body are run one by one, with the rest in a frame. -/
theorem sequence {statement : Stmt} {rest : List Stmt}
    (hp : bodyPlaced (statement :: rest) = true)
    (hf : Fits (bodyMayReturn (statement :: rest)) frames) (scope : ScopeId) :
    Sits ⟨.execute statement scope, .block rest scope :: frames, s⟩ := by
  simp only [bodyPlaced, everyStmt, Bool.and_eq_true] at hp
  refine ⟨hp.1, by simp [Frame.isOperand], ⟨by simp [Frame.pending], ?_⟩, ?_⟩
  · simpa [Frame.bodies, bodyPlaced] using hp.2
  · simpa [Frame.mayGive, Frame.isOperand, Frame.bodies, Control.mayGive, bodyMayReturn] using hf

theorem performStep {body : List Stmt} (hp : bodyPlaced body = true)
    (hf : Fits (bodyMayReturn body) frames) (scope : ScopeId) :
    Sits (Machine.perform body scope frames s) := by
  cases body with
  | nil => exact deliver hf
  | cons statement rest => exact sequence hp hf scope

theorem applyStep (limit : Nat)
    (hs : s.All (·.isReturning = false) fun closure => bodyPlaced closure.body = true)
    (hf : Fits false frames) (callee : Value) {arguments : List Value}
    (ha : ∀ v ∈ arguments, v.isReturning = false) :
    Sits (applyValue limit callee arguments frames s) := by
  unfold applyValue
  split
  · next a =>
    have hbody : bodyPlaced (s.closureAt a).body = true := hs.closureAt rfl a
    unfold callClosure
    split
    · exact raise hf _
    · split
      · exact raise hf _
      · -- The call ends a wrapped value of the body, so the frames outside get none.
        exact ⟨hbody, by simp [Frame.isOperand],
          ⟨by simp [Frame.pending], by simp [Frame.bodies]⟩, hf⟩
  · exact resume (Builtin.call_all (fun _ h => h) hs _ ha) hf
  · exact raise hf _

theorem resumeStep {given : Bool} (hs : s.All (·.isReturning = false) F) {frame : Frame} {v : Value}
    (hv : v.Single) (hgiven : v.isReturning = given) (hf : Fits given (frame :: frames)) :
    Sits (Machine.resume frame v frames s) := by
  obtain ⟨hoperand, hplaced, hrest⟩ := hf
  obtain ⟨hpending, hbodies⟩ := hplaced
  cases frame
  case declare name scope =>
    simp only [Machine.resume]
    split
    · refine deliver ?_
      simpa [hgiven, Frame.mayGive, Frame.isOperand, Frame.bodies] using hrest
    · exact deliver hrest.quiet
  case assign name scope =>
    simp only [Machine.resume]
    split
    · refine deliver ?_
      simpa [hgiven, Frame.mayGive, Frame.isOperand, Frame.bodies] using hrest
    · split
      · exact deliver hrest.quiet
      · exact raise hrest _
  case giveBack =>
    simp only [Machine.resume]
    split
    · exact deliver (hrest.mono fun _ => rfl)
    · exact deliver (hrest.mono fun _ => rfl)
  case block rest scope =>
    simp only [Machine.resume]
    split
    · refine deliver (hrest.mono fun hv => ?_)
      simp [← hgiven, hv, Frame.mayGive, Frame.isOperand]
    · cases rest with
      | nil =>
        refine deliver (hrest.mono fun hv => ?_)
        simp [← hgiven, hv, Frame.mayGive, Frame.isOperand]
      | cons statement rest =>
        have hmem : statement :: rest ∈ (Frame.block (statement :: rest) scope).bodies := by
          simp [Frame.bodies]
        exact sequence (hbodies _ hmem)
          (hrest.mono fun hbody => Frame.mayGive_of_mem hmem hbody _) scope
  case loopBody condition body scope =>
    simp only [Machine.resume]
    split
    · refine deliver (hrest.mono fun hv => ?_)
      simp [← hgiven, hv, Frame.mayGive, Frame.isOperand]
    · -- The next round may end with what the body comes to, as the round before it.
      refine operand (hpending condition (by simp [Frame.pending])) (.loopTest condition body scope)
        ⟨hpending, hbodies⟩ (hrest.mono fun hbody => ?_) scope
      refine Frame.mayGive_of_mem (List.mem_singleton_self body) ?_ _
      simpa [Frame.mayGive, Frame.bodies] using hbody
  case activeCall =>
    -- One wrapping at most, so the unwrapped value ends nothing outside the call.
    refine deliver ?_
    rw [hv]
    exact hrest
  case unary op => exact resume (.keep hs (UnaryOp.apply_all (fun _ h => h) op v)) hrest.quiet
  case left op right scope =>
    exact operand (hpending right (by simp [Frame.pending])) (.right v op)
      ⟨by simp [Frame.pending], by simp [Frame.bodies]⟩ hrest.quiet scope
  case right left op => exact resume (Store.applyBinary_all (fun _ h => h) hs op left v) hrest.quiet
  case branch consequence alternative scope =>
    have hbody {body : List Stmt}
        (hmem : body ∈ (Frame.branch consequence alternative scope).bodies) :
        Sits ⟨.perform body scope, frames, s⟩ :=
      ⟨hbodies body hmem, hrest.mono fun hbody => Frame.mayGive_of_mem hmem hbody _⟩
    simp only [Machine.resume]
    split
    · exact hbody (by simp [Frame.bodies])
    · split
      · exact hbody (by simp [Frame.bodies])
      · exact deliver hrest.quiet
  case loopTest condition body scope =>
    simp only [Machine.resume]
    split
    · have hmem := List.mem_singleton_self body
      refine ⟨hbodies body hmem, by simp [Frame.isOperand], ⟨hpending, hbodies⟩,
        hrest.mono fun hbody => Frame.mayGive_of_mem hmem ?_ _⟩
      simpa [Control.mayGive, Frame.mayGive, Frame.isOperand, Frame.bodies] using hbody
    · exact deliver hrest.quiet
  case callee arguments scope => exact nextArgument hpending hrest.quiet v #[] scope
  case argument callee done rest scope => exact nextArgument hpending hrest.quiet callee _ scope
  case container position scope =>
    exact operand (hpending position (by simp [Frame.pending])) (.position v)
      ⟨by simp [Frame.pending], by simp [Frame.bodies]⟩ hrest.quiet scope
  case position container =>
    exact resume (Store.index_all (fun _ h => h) hs container v) hrest.quiet
  case item kind done rest scope => exact nextItem hpending hrest.quiet kind _ scope
  case member done rest scope => exact nextMember hpending hrest.quiet _ scope
  case entryKey done value rest scope =>
    obtain ⟨hvalue, hrestQuiet⟩ := List.forall_mem_cons.1 hpending
    exact operand hvalue (.entryValue done v rest scope) ⟨hrestQuiet, by simp [Frame.bodies]⟩
      hrest.quiet scope
  case entryValue done key rest scope =>
    exact nextEntry (forall_mem_pairs.1 hpending) hrest.quiet _ scope
  case heapItem done rest scope =>
    simp only [Machine.resume]
    split
    · exact nextHeapItem hpending hrest.quiet _ scope
    · exact raise hrest _

theorem unwindStep {given : Bool} {frame : Frame} (hf : Fits given (frame :: frames))
    (fault : Fault) : Sits (Machine.unwind frame fault frames s) := by
  unfold Machine.unwind
  split <;> exact raise hf.2.2 fault

end Sits

/-! ### Runs -/

/-- A machine that runs well placed code, and in which no wrapped value has come to an operand. -/
structure Placed (m : Machine) : Prop where
  keeps : m.Keeps (·.isReturning = false) Value.Single fun closure => bodyPlaced closure.body = true
  sits : m.Sits

theorem Placed.not_leaks {m : Machine} (h : m.Placed) : ¬m.Leaks := by
  rintro ⟨v, frame, frames, s, rfl, hframe⟩
  cases h.sits.fits.1 hframe

theorem Placed.sits_step {m : Machine} (h : m.Placed) (limit : Nat) : (m.step limit).Sits := by
  obtain ⟨control, frames, s⟩ := m
  obtain ⟨⟨hs, _, hcontrol, hdelivered⟩, hplaced, hfits⟩ := h
  cases control with
  | evaluate expression scope => exact .evaluateStep hs hplaced hfits scope
  | execute statement scope => exact .executeStep hplaced hfits scope
  | perform body scope => exact .performStep hplaced hfits scope
  | apply callee arguments =>
    exact .applyStep limit hs hfits callee (List.forall_mem_cons.1 hcontrol).2
  | deliver value =>
    cases frames with
    | nil => exact ⟨hplaced, hfits⟩
    | cons frame frames => exact .resumeStep hs (hdelivered value rfl) rfl hfits
  | raise fault =>
    cases frames with
    | nil => exact ⟨hplaced, hfits⟩
    | cons frame frames => exact .unwindStep hfits fault

theorem Placed.step {m : Machine} (h : m.Placed) (limit : Nat) : (m.step limit).Placed where
  keeps := by
    refine h.keeps.step_of_not_leaks limit h.not_leaks ?_
    rintro parameters body scope frames s rfl
    have hplaced := h.sits.control
    simp only [Control.placed, Expr.placed, Expr.every, Bool.and_eq_true] at hplaced
    exact hplaced.2
  sits := h.sits_step limit

theorem placed_after {p : Program} (hp : p.returnsPlaced = true) (limit n : Nat) :
    ((start p).after limit n).Placed := by
  induction n with
  | zero => exact ⟨keeps_start p, hp, trivial⟩
  | succ n ih => exact ih.step limit

/-- In a program with well placed returns no operand comes to a wrapped value, and no state of a run
has one in the store, in a frame or in a call. -/
theorem signalFree_of_returnsPlaced {p : Program} (hp : p.returnsPlaced = true) (limit n : Nat) :
    ¬((start p).after limit n).Leaks ∧ ((start p).after limit n).SignalFree :=
  ⟨(placed_after hp limit n).not_leaks,
    signalFree_after fun k _ => (placed_after hp limit k).not_leaks⟩

/-- What a machine with well placed code comes to. -/
theorem Placed.outcome {m : Machine} (h : m.Placed) {o : Outcome} (ho : m.outcome? = some o) :
    o.store.All (·.isReturning = false) (fun closure => bodyPlaced closure.body = true) ∧
      ∀ v, o.result = .ok v → v.Single := by
  have hkeeps := h.keeps
  unfold outcome? at ho
  split at ho
  · next value s =>
    cases ho
    refine ⟨hkeeps.store, fun v hv => ?_⟩
    cases hv
    exact hkeeps.delivered value rfl
  · next fault s =>
    cases ho
    exact ⟨hkeeps.store, fun v hv => by cases hv⟩
  · cases ho

end Machine

/-- A program with well placed returns answers with no wrapped value and leaves none behind. -/
theorem Session.run_signalFree {p : Program} (hp : p.returnsPlaced = true) {limit fuel : Nat}
    {answer : Answer Fault} (h : (Session.start limit).run fuel p = some answer) :
    answer.session.store.All (·.isReturning = false)
        (fun closure => bodyPlaced closure.body = true) ∧
      ∀ v, answer.result = .ok v → v.isReturning = false := by
  simp only [Session.run, Session.runIn, Session.complete, Option.map_eq_some_iff] at h
  obtain ⟨_, ⟨o, ho, rfl⟩, rfl⟩ := h
  have hrun : ((Machine.start p).after limit fuel).outcome? = some o := by
    rw [← Machine.run_eq_outcome?_after]
    exact ho
  obtain ⟨hstore, hresult⟩ := (Machine.placed_after hp limit fuel).outcome hrun
  refine ⟨hstore, fun v hv => ?_⟩
  cases hvalue : o.result with
  | error fault => simp [hvalue, Except.map] at hv
  | ok value =>
    simp only [hvalue, Except.map, Except.ok.injEq] at hv
    rw [← hv]
    exact hresult value hvalue

end CellScript
