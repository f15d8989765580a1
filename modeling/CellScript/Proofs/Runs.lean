import CellScript.Session

/-!
Runs of the machine, step by step.

A run is the row of machines after each number of steps. What every step keeps, a run keeps, and an
operation of a session answers with what the last machine of its run holds.
-/

namespace CellScript

namespace Machine

/-- A machine that is about to run a program on a fresh store. -/
def start (p : Program) : Machine := ⟨.perform p.statements Store.globalScope, [], .initial⟩

/-- The machine after some steps. -/
def after (limit : Nat) (m : Machine) : Nat → Machine
  | 0 => m
  | n + 1 => (m.after limit n).step limit

theorem after_succ (limit : Nat) (m : Machine) (n : Nat) :
    m.after limit (n + 1) = (m.step limit).after limit n := by
  induction n with
  | zero => rfl
  | succ n ih =>
    rw [after, ih]
    rfl

theorem after_add (limit : Nat) (m : Machine) (n k : Nat) :
    m.after limit (n + k) = (m.after limit n).after limit k := by
  induction k with
  | zero => rfl
  | succ k ih =>
    rw [← Nat.add_assoc, after, ih]
    rfl

theorem step_of_outcome? {m : Machine} {o : Outcome} (h : m.outcome? = some o) (limit : Nat) :
    m.step limit = m := by
  unfold outcome? at h
  split at h
  · rfl
  · rfl
  · cases h

/-- The states of a run are the states after each number of steps. -/
theorem run_eq_outcome?_after (limit : Nat) (m : Machine) (n : Nat) :
    run limit n m = (m.after limit n).outcome? := by
  induction n generalizing m with
  | zero => rfl
  | succ n ih =>
    rw [run, after_succ, ← ih]
    split
    · next o ho =>
      -- A machine at its end stays as it is, and running it again finds the same end.
      rw [step_of_outcome? ho]
      cases n <;> simp [run, ho]
    · rfl

/-- What every step keeps holds of each machine of a run. -/
theorem after_of_step {P : Machine → Prop} {limit : Nat} (hstep : ∀ m, P m → P (m.step limit))
    {m : Machine} (h : P m) (n : Nat) : P (m.after limit n) := by
  induction n with
  | zero => exact h
  | succ n ih => exact hstep _ ih

/-- A machine has come to its end with a value or with a fault, and no frame is left. -/
theorem outcome?_eq_some {m : Machine} {o : Outcome} (h : m.outcome? = some o) :
    m.frames = [] ∧ o.store = m.store ∧
      ((∃ value, m.control = .deliver value ∧ o.result = .ok value) ∨
        ∃ fault, m.control = .raise fault ∧ o.result = .error fault) := by
  unfold outcome? at h
  split at h
  · next value s =>
    cases h
    exact ⟨rfl, rfl, .inl ⟨value, rfl, rfl⟩⟩
  · next fault s =>
    cases h
    exact ⟨rfl, rfl, .inr ⟨fault, rfl, rfl⟩⟩
  · cases h

theorem after_of_outcome? {m : Machine} {o : Outcome} (h : m.outcome? = some o) (limit n : Nat) :
    m.after limit n = m := by
  induction n with
  | zero => rfl
  | succ n ih => rw [after, ih, step_of_outcome? h]

/-- A machine that has not come to its end stands in its run before one that has. -/
theorem lt_of_outcome? {limit : Nat} {m : Machine} {n fuel : Nat} {o : Outcome}
    (hn : (m.after limit n).outcome? = none) (hfuel : (m.after limit fuel).outcome? = some o) :
    n < fuel := by
  apply Nat.lt_of_not_le
  intro hle
  obtain ⟨k, rfl⟩ := Nat.exists_eq_add_of_le hle
  rw [after_add, after_of_outcome? hfuel, hfuel] at hn
  cases hn

theorem outcome?_after_of_le {limit : Nat} {m : Machine} {n fuel : Nat} {o : Outcome}
    (h : (m.after limit n).outcome? = some o) (hn : n ≤ fuel) :
    (m.after limit fuel).outcome? = some o := by
  obtain ⟨k, rfl⟩ := Nat.exists_eq_add_of_le hn
  rw [after_add, after_of_outcome? h, h]

/-! ### Frames below

What a machine does before it comes to its end does not depend on the frames that wait below its
own. -/

/-- The machine with more frames below its own. -/
def onto (m : Machine) (base : List Frame) : Machine := { m with frames := m.frames ++ base }

section Below

variable (base frames : List Frame) (s : Store) (scope : ScopeId)

theorem onto_resume (o : Outcome) : (o.resume frames).onto base = o.resume (frames ++ base) := by
  unfold Outcome.resume
  split <;> rfl

theorem onto_nextArgument (callee : Value) (done : Array Value) (rest : List Expr) :
    (nextArgument callee done rest scope frames s).onto base =
      nextArgument callee done rest scope (frames ++ base) s := by
  cases rest <;> rfl

theorem onto_nextItem (kind : SequenceKind) (done : Array Value) (rest : List Expr) :
    (nextItem kind done rest scope frames s).onto base =
      nextItem kind done rest scope (frames ++ base) s := by
  cases rest <;> rfl

theorem onto_nextMember (done : OrderedMap Key Value) (rest : List Expr) :
    (nextMember done rest scope frames s).onto base =
      nextMember done rest scope (frames ++ base) s := by
  cases rest <;> rfl

theorem onto_nextEntry (done : OrderedMap Key (Value × Value)) (rest : List (Expr × Expr)) :
    (nextEntry done rest scope frames s).onto base =
      nextEntry done rest scope (frames ++ base) s := by
  cases rest <;> rfl

theorem onto_nextHeapItem (done : Heap) (rest : List Expr) :
    (nextHeapItem done rest scope frames s).onto base =
      nextHeapItem done rest scope (frames ++ base) s := by
  cases rest <;> rfl

theorem onto_evaluate (expression : Expr) :
    (evaluate expression scope frames s).onto base =
      evaluate expression scope (frames ++ base) s := by
  cases expression
  case identifier name => exact onto_resume base frames _
  case sequence kind items => exact onto_nextItem base frames s scope kind _ items
  case map entries => exact onto_nextEntry base frames s scope _ entries
  case set members => exact onto_nextMember base frames s scope _ members
  case heap order element items => exact onto_nextHeapItem base frames s scope _ items
  all_goals rfl

theorem onto_execute (statement : Stmt) :
    (execute statement scope frames s).onto base =
      execute statement scope (frames ++ base) s := by
  cases statement
  case giveBack value => cases value <;> rfl
  all_goals rfl

theorem onto_perform (body : List Stmt) :
    (perform body scope frames s).onto base = perform body scope (frames ++ base) s := by
  cases body <;> rfl

theorem onto_applyValue (limit : Nat) (callee : Value) (arguments : List Value) :
    (applyValue limit callee arguments frames s).onto base =
      applyValue limit callee arguments (frames ++ base) s := by
  cases callee
  case function a =>
    simp only [applyValue, callClosure]
    split
    · rfl
    · split <;> rfl
  case builtin function => exact onto_resume base frames _
  all_goals rfl

theorem onto_resumeFrame (frame : Frame) (value : Value) :
    (resume frame value frames s).onto base = resume frame value (frames ++ base) s := by
  cases frame
  case unary | right | position => exact onto_resume base frames _
  case callee arguments scope => exact onto_nextArgument base frames s scope value _ arguments
  case argument callee done rest scope =>
    exact onto_nextArgument base frames s scope callee _ rest
  case item kind done rest scope => exact onto_nextItem base frames s scope kind _ rest
  case member done rest scope => exact onto_nextMember base frames s scope _ rest
  case entryValue done key rest scope => exact onto_nextEntry base frames s scope _ rest
  case heapItem done rest scope =>
    simp only [resume]
    split
    · exact onto_nextHeapItem base frames s scope _ rest
    · rfl
  case declare | giveBack | loopTest | loopBody =>
    simp only [resume]
    split <;> rfl
  case assign | branch =>
    simp only [resume]
    split
    · rfl
    · split <;> rfl
  case block rest scope =>
    simp only [resume]
    split
    · rfl
    · cases rest <;> rfl
  all_goals rfl

theorem onto_unwind (frame : Frame) (fault : Fault) :
    (unwind frame fault frames s).onto base = unwind frame fault (frames ++ base) s := by
  cases frame <;> rfl

end Below

theorem step_onto (limit : Nat) {m : Machine} (h : m.outcome? = none) (base : List Frame) :
    (m.onto base).step limit = (m.step limit).onto base := by
  obtain ⟨control, frames, s⟩ := m
  cases control with
  | evaluate expression scope => exact (onto_evaluate base frames s scope expression).symm
  | execute statement scope => exact (onto_execute base frames s scope statement).symm
  | perform body scope => exact (onto_perform base frames s scope body).symm
  | apply callee arguments => exact (onto_applyValue base frames s limit callee arguments).symm
  | deliver value =>
    cases frames with
    | nil => cases h
    | cons frame frames => exact (onto_resumeFrame base frames s frame value).symm
  | raise fault =>
    cases frames with
    | nil => cases h
    | cons frame frames => exact (onto_unwind base frames s frame fault).symm

theorem outcome?_onto_cons (m : Machine) (frame : Frame) (base : List Frame) :
    (m.onto (frame :: base)).outcome? = none := by
  obtain ⟨control, frames, s⟩ := m
  cases control
  case deliver | raise => cases frames <;> rfl
  all_goals rfl

/-- Where a run ends that has a frame waiting below, it has come before to the end that it would
have without the frame, and up to there it runs in the same way above any frames. -/
theorem exists_outcome_of_onto {limit : Nat} {m : Machine} {frame : Frame} {base : List Frame}
    {n : Nat} {o : Outcome} (h : ((m.onto (frame :: base)).after limit n).outcome? = some o) :
    ∃ k inner, (m.after limit k).outcome? = some inner ∧
      ∀ frames, (m.onto frames).after limit k = (m.after limit k).onto frames := by
  induction n generalizing m with
  | zero =>
    rw [after, outcome?_onto_cons] at h
    cases h
  | succ n ih =>
    cases hend : m.outcome? with
    | some inner => exact ⟨0, inner, hend, fun _ => rfl⟩
    | none =>
      rw [after_succ, step_onto limit hend] at h
      obtain ⟨k, inner, hinner, hframes⟩ := ih h
      refine ⟨k + 1, inner, by rw [after_succ]; exact hinner, fun frames => ?_⟩
      rw [after_succ, after_succ, step_onto limit hend, hframes]

end Machine

namespace Session

/-- The machine that an operation of a session starts with. -/
def machine (session : Session) (control : Control) : Machine := ⟨control, [], session.store⟩

theorem complete_eq (session : Session) (fuel : Nat) (control : Control) :
    session.complete fuel control =
      (((session.machine control).after session.limit fuel).outcome?).map fun outcome =>
        ⟨outcome.result, ⟨session.limit, outcome.store⟩⟩ := by
  rw [← Machine.run_eq_outcome?_after]
  rfl

/-- The session after an operation has the store of the last machine. -/
theorem store_of_complete {session : Session} {fuel : Nat} {control : Control}
    {answer : Answer Fault} (h : session.complete fuel control = some answer) :
    ((session.machine control).after session.limit fuel).frames = [] ∧
      answer.session =
        ⟨session.limit, ((session.machine control).after session.limit fuel).store⟩ := by
  rw [complete_eq, Option.map_eq_some_iff] at h
  obtain ⟨outcome, hend, rfl⟩ := h
  obtain ⟨hframes, hstore, -⟩ := Machine.outcome?_eq_some hend
  exact ⟨hframes, by rw [hstore]⟩

/-- A program ends in the session that its statements end in. -/
theorem complete_of_runIn {session : Session} {fuel : Nat} {scope : ScopeId} {program : Program}
    {answer : Answer Fault} (h : session.runIn fuel scope program = some answer) :
    ∃ inner, session.complete fuel (.perform program.statements scope) = some inner ∧
      answer.session = inner.session ∧ answer.result = inner.result.map Value.unwrapped := by
  rw [runIn, Option.map_eq_some_iff] at h
  obtain ⟨inner, hinner, rfl⟩ := h
  exact ⟨inner, hinner, rfl, rfl⟩

/-- What a program comes to, from the machine that its run ends with. -/
theorem run_eq (session : Session) (fuel : Nat) (p : Program) :
    session.run fuel p =
      ((session.machine (.perform p.statements Store.globalScope)).after
        session.limit fuel).outcome?.map fun outcome =>
          ⟨outcome.result.map Value.unwrapped, ⟨session.limit, outcome.store⟩⟩ := by
  rw [run, runIn, complete_eq, Option.map_map]
  rfl

/-- The machine `m` occurs in the run of an operation. -/
def Passes (session : Session) (control : Control) (m : Machine) : Prop :=
  ∃ n, m = (session.machine control).after session.limit n

/-- The sessions that come about from a fresh one by programs, statements and calls, whatever they
end with, and by the operations in between. -/
inductive Reached (limit : Nat) : Session → Prop
  | start : Reached limit (.start limit)
  | runIn {s : Session} {fuel : Nat} {scope : ScopeId} {program : Program} {answer : Answer Fault} :
      Reached limit s → s.runIn fuel scope program = some answer → Reached limit answer.session
  | runSource {s : Session} {fuel : Nat} {source : String} {answer : Answer Failure} :
      Reached limit s → s.runSource fuel source = some answer → Reached limit answer.session
  | execute {s : Session} {fuel : Nat} {scope : ScopeId} {statement : Stmt}
      {answer : Answer Fault} :
      Reached limit s → s.execute fuel scope statement = some answer → Reached limit answer.session
  | call {s : Session} {fuel : Nat} {callee : Value} {arguments : List Value}
      {answer : Answer Fault} :
      Reached limit s → s.call fuel callee arguments = some answer → Reached limit answer.session
  | alloc {s : Session} (cell : Cell) :
      Reached limit s → Reached limit { s with store := (s.store.alloc cell).2 }
  | enter {s : Session} (outer : ScopeId) :
      Reached limit s → Reached limit { s with store := (s.store.enter outer).2 }
  | bind {s : Session} (scope : ScopeId) (name : String) (value : Value) :
      Reached limit s → Reached limit { s with store := s.store.bind scope name value }
  | clear {s : Session} (scope : ScopeId) :
      Reached limit s → Reached limit { s with store := s.store.clear scope }
  | takeOutput {s : Session} : Reached limit s → Reached limit s.takeOutput.2
  | reset {s : Session} : Reached limit s → Reached limit s.reset

/-- The machines of the first `n` steps of an operation, the latest first. -/
def passed (session : Session) (control : Control) : Nat → List Machine
  | 0 => [session.machine control]
  | n + 1 => (session.machine control).after session.limit (n + 1) :: session.passed control n

/-- The sessions that come about from a fresh one by programs alone, whatever they end with, and all
machines that these programs have passed, the latest first. A program may run in a scope that was
made for it. -/
inductive Ran (limit : Nat) : List Machine → Session → Prop
  | start : Ran limit [] (.start limit)
  | runIn {past : List Machine} {s : Session} {fuel : Nat} {scope : ScopeId} {program : Program}
      {answer : Answer Fault} :
      Ran limit past s → s.runIn fuel scope program = some answer →
        Ran limit (s.passed (.perform program.statements scope) fuel ++ past) answer.session
  | enter {past : List Machine} {s : Session} (outer : ScopeId) :
      Ran limit past s → Ran limit past { s with store := (s.store.enter outer).2 }

/-- The machine comes up while programs run one after the other from a fresh session, and the
history has all machines up to it, the latest first. -/
def ComesUp (limit : Nat) (history : List Machine) (m : Machine) : Prop :=
  ∃ (past : List Machine) (session : Session) (scope : ScopeId) (program : Program) (n : Nat),
    Ran limit past session ∧
      history = session.passed (.perform program.statements scope) n ++ past ∧
      m = (session.machine (.perform program.statements scope)).after session.limit n

end Session

end CellScript
