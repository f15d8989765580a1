import CellScript.Proofs.ReturnSignals
import Mathlib.Control.Monad.Basic

/-!
How deep `return` signals nest.

A wrapped value can be kept in a container and come out again at another place, so a body may end
with a signal that it did not make. Still no signal is ever wrapped once more: only `return` wraps,
and it passes on what is wrapped already. So the one unwrapping at the end of a call and of a
program is enough.
-/

namespace CellScript

/-- Nowhere in the machine is a wrapped value wrapped once more. -/
def Machine.SignalsSingle (m : Machine) : Prop :=
  m.Keeps Value.Single Value.Single fun _ => True

theorem Value.Single.unwrapped {v : Value} (h : v.Single) : v.unwrapped.Single :=
  Value.single_of_not_returning h

theorem Value.tag_ne_returnValue {v : Value} (h : v.isReturning = false) :
    v.tag ≠ .returnValue := by
  cases v
  case returning => cases h
  case sequence kind _ => cases kind <;> exact (nomatch ·)
  case heap order _ => cases order <;> exact (nomatch ·)
  all_goals exact (nomatch ·)

theorem Value.Single.tag_unwrapped {v : Value} (h : v.Single) :
    v.unwrapped.tag ≠ .returnValue := Value.tag_ne_returnValue h

namespace Machine

theorem SignalsSingle.step {m : Machine} (h : m.SignalsSingle) (limit : Nat) :
    (m.step limit).SignalsSingle := by
  refine Keeps.step (fun _ => Value.single_of_not_returning) (fun _ hv => hv) limit
    (fun _ hv => hv) (fun _ hv => hv.unwrapped) h ?_ (fun _ _ _ _ _ _ => trivial)
  intro v frame frames s hm _
  exact h.delivered v (by rw [hm])

theorem SignalsSingle.after {m : Machine} (h : m.SignalsSingle) (limit n : Nat) :
    (m.after limit n).SignalsSingle := after_of_step (fun _ hm => hm.step limit) h n

/-- What a machine comes to is wrapped once at most. -/
theorem SignalsSingle.outcome {m : Machine} (h : m.SignalsSingle) {o : Outcome}
    (ho : m.outcome? = some o) : ∀ v, o.result = .ok v → v.Single := by
  intro v hv
  obtain ⟨-, -, ⟨value, hcontrol, hresult⟩ | ⟨fault, -, hresult⟩⟩ := outcome?_eq_some ho
  · rw [hresult] at hv
    cases hv
    exact h.delivered _ hcontrol
  · rw [hresult] at hv
    cases hv

/-- A call hands on what its body came to, with one wrapping less. -/
theorem after_activeCall (limit : Nat) {m : Machine} {o : Outcome} (ho : m.outcome? = some o)
    (n : Nat) :
    ((m.onto [.activeCall]).after limit (n + 1)).outcome? =
      some ⟨o.result.map Value.unwrapped, { o.store with depth := o.store.depth - 1 }⟩ := by
  rw [after_succ]
  obtain ⟨control, frames, s⟩ := m
  obtain ⟨hframes, hstore, ⟨value, hcontrol, hresult⟩ | ⟨fault, hcontrol, hresult⟩⟩ :=
    outcome?_eq_some ho
  all_goals
    cases hframes
    cases hcontrol
    cases hstore
    rw [hresult]
    exact congrArg outcome? (after_of_outcome? rfl limit n)

/-- A call of a function of the program begins to run a body, or it fails. -/
theorem step_function (limit : Nat) (a : Address) (arguments : List Value) (frames : List Frame)
    (s : Store) :
    (∃ fault, step limit ⟨.apply (.function a) arguments, frames, s⟩ = ⟨.raise fault, frames, s⟩) ∨
      ∃ body scope s', step limit ⟨.apply (.function a) arguments, frames, s⟩ =
        ⟨.perform body scope, .activeCall :: frames, s'⟩ := by
  simp only [step, applyValue, callClosure]
  split
  · exact .inl ⟨_, rfl⟩
  · split
    · exact .inl ⟨_, rfl⟩
    · exact .inr ⟨_, _, _, rfl⟩

/-- The end of a call under way is the end of its body. -/
theorem outcome?_of_activeCall {limit : Nat} {m : Machine} {n : Nat} {o : Outcome}
    (h : ((m.onto [.activeCall]).after limit n).outcome? = some o) :
    ∃ k inner, (m.after limit k).outcome? = some inner ∧
      o.result = inner.result.map Value.unwrapped := by
  obtain ⟨k, inner, hinner, honto⟩ := exists_outcome_of_onto h
  have hk : k < n := by
    refine lt_of_outcome? ?_ h
    rw [honto, outcome?_onto_cons]
  obtain ⟨j, rfl⟩ := Nat.exists_eq_add_of_lt hk
  rw [Nat.add_assoc, after_add, honto, after_activeCall limit hinner] at h
  cases h
  exact ⟨k, inner, hinner, rfl⟩

end Machine

namespace Session

/-- No program leaves a nested signal behind. -/
theorem single_of_ran {limit : Nat} {past : List Machine} {session : Session}
    (h : Ran limit past session) : session.store.All Value.Single fun _ => True := by
  induction h with
  | start => exact .initial
  | @runIn past s fuel scope program answer _ ha ih =>
    obtain ⟨inner, hinner, hsession, -⟩ := complete_of_runIn ha
    have hlast :
        ((s.machine (.perform program.statements scope)).after s.limit fuel).SignalsSingle :=
      .after (.perform ih (by simp) _ _) _ _
    rw [hsession, (store_of_complete hinner).2]
    exact hlast.store
  | enter outer _ ih => exact ih.enter outer

section Programs

variable {session : Session} (hs : session.store.All Value.Single fun _ => True)

include hs

theorem signalsSingle_of_passes {scope : ScopeId} {program : Program} {m : Machine}
    (hm : session.Passes (.perform program.statements scope) m) : m.SignalsSingle := by
  obtain ⟨n, rfl⟩ := hm
  exact .after (.perform hs (by simp) _ _) _ _

omit hs in
theorem tag_of_unwrapped {result : Except Fault Value} (h : ∀ v, result = .ok v → v.Single)
    {v : Value} (hv : result.map Value.unwrapped = .ok v) : v.tag ≠ .returnValue := by
  cases result with
  | error fault => cases hv
  | ok value =>
    cases hv
    exact (h value rfl).tag_unwrapped

/-- A program does not end with a signal. -/
theorem tag_of_runIn {fuel : Nat} {scope : ScopeId} {program : Program} {answer : Answer Fault}
    (ha : session.runIn fuel scope program = some answer) {v : Value}
    (hv : answer.result = .ok v) : v.tag ≠ .returnValue := by
  obtain ⟨inner, hinner, -, hresult⟩ := complete_of_runIn ha
  rw [complete_eq, Option.map_eq_some_iff] at hinner
  obtain ⟨o, ho, rfl⟩ := hinner
  have hpasses : session.Passes (.perform program.statements scope) _ := ⟨fuel, rfl⟩
  exact tag_of_unwrapped ((signalsSingle_of_passes hs hpasses).outcome ho) (hresult ▸ hv)

/-- A call of a function of the program does not end with a signal. -/
theorem tag_of_call {fuel : Nat} {a : Address} {arguments : List Value}
    (ha : ∀ u ∈ arguments, u.Single) {answer : Answer Fault}
    (hanswer : session.call fuel (.function a) arguments = some answer) {v : Value}
    (hv : answer.result = .ok v) : v.tag ≠ .returnValue := by
  rw [call, complete_eq, Option.map_eq_some_iff] at hanswer
  obtain ⟨o, ho, rfl⟩ := hanswer
  have hstart : (session.machine (.apply (.function a) arguments)).SignalsSingle :=
    .apply hs (by simp) (Value.single_of_not_returning rfl) ha
  cases fuel with
  | zero => cases ho
  | succ n =>
    have hbody := hstart.step session.limit
    rw [Machine.after_succ] at ho
    rcases Machine.step_function session.limit a arguments [] session.store with
      ⟨fault, hstep⟩ | ⟨body, scope, s, hstep⟩
    · rw [machine, hstep, Machine.after_of_outcome? rfl] at ho
      cases ho
      cases hv
    · rw [machine, hstep] at ho hbody
      -- The body runs alone until the call unwraps what it came to.
      obtain ⟨k, inner, hinner, hresult⟩ :=
        Machine.outcome?_of_activeCall (m := ⟨.perform body scope, [], s⟩) ho
      have hlast : (Machine.after session.limit ⟨.perform body scope, [], s⟩ k).SignalsSingle :=
        .after (.perform hbody.store (by simp) body scope) _ _
      exact tag_of_unwrapped (hlast.outcome hinner) (hresult ▸ hv)

end Programs

/-- Signals never nest, whatever programs have run one after the other, and so no program and no
call of a function of a program ends with one. -/
theorem signals_never_nest {limit : Nat} {past : List Machine} {session : Session}
    (h : Ran limit past session) :
    (∀ scope (program : Program) m, session.Passes (.perform program.statements scope) m →
      m.SignalsSingle ∧ ∀ v frames s, m = ⟨.deliver v, .activeCall :: frames, s⟩ →
        ∃ w s', m.step session.limit = ⟨.deliver w, frames, s'⟩ ∧ w.tag ≠ .returnValue) ∧
    (∀ fuel scope program answer v, session.runIn fuel scope program = some answer →
      answer.result = .ok v → v.tag ≠ .returnValue) ∧
    (∀ fuel program v session', session.runToValue fuel program = some (v, session') →
      v.tag ≠ .returnValue) ∧
    ∀ fuel a arguments answer v, (∀ u ∈ arguments, u.Single) →
      session.call fuel (.function a) arguments = some answer → answer.result = .ok v →
        v.tag ≠ .returnValue := by
  have hs := single_of_ran h
  refine ⟨?_, ?_, ?_, ?_⟩
  · intro scope program m hm
    have hsingle := signalsSingle_of_passes hs hm
    refine ⟨hsingle, ?_⟩
    rintro v frames s rfl
    exact ⟨v.unwrapped, _, rfl, (hsingle.delivered v rfl).tag_unwrapped⟩
  · intro fuel scope program answer v ha hv
    exact tag_of_runIn hs ha hv
  · intro fuel program v session' hv
    rw [runToValue, Option.map_eq_some_iff] at hv
    obtain ⟨answer, ha, hanswer⟩ := hv
    split at hanswer
    · next hresult =>
      cases hanswer
      exact tag_of_runIn hs ha hresult
    · cases hanswer
      exact (nomatch ·)
  · intro fuel a arguments answer v hsingle ha hv
    exact tag_of_call hs hsingle ha hv

/-- The array of the first program keeps a signal. The second program calls a function that takes it
out, and the call and the program give what was wrapped. -/
theorem signals_never_nest_kept :
    let kept : Expr := .conditional (.boolean true) [.giveBack (some (.integer 1))] none
    let first : Program := ⟨[.declare "a" (.sequence .array [kept])]⟩
    let body : List Stmt := [.expression (.call (.identifier "pop") [.identifier "a"])]
    let second : Program := ⟨[.expression (.call (.function [] body) [])]⟩
    ∃ answer answer', (start 1).run 40 first = some answer ∧
      answer.session.store.itemsAt 0 = #[.returning (.integer 1)] ∧
      answer.session.run 40 second = some answer' ∧ answer'.result = .ok (.integer 1) ∧
      (Value.integer 1).tag ≠ .returnValue := by
  intro kept first body second
  obtain ⟨answer, ha⟩ := Option.isSome_iff_exists.1
    (show ((start 1).run 40 first).isSome by decide +kernel)
  have hitems : ((start 1).run 40 first).map (·.session.store.itemsAt 0) =
      some #[.returning (.integer 1)] := by decide +kernel
  have hsecond : ((start 1).run 40 first).bind (fun answer =>
      (answer.session.run 40 second).map Answer.result) = some (.ok (.integer 1)) := by
    decide +kernel
  rw [ha] at hitems hsecond
  obtain ⟨answer', ha', hresult⟩ := Option.map_eq_some_iff.1 hsecond
  have hran : Ran 1 _ answer.session := .runIn .start ha
  exact ⟨answer, answer', ha, Option.some.inj hitems, ha', hresult,
    (signals_never_nest hran).2.1 _ _ _ _ _ ha' hresult⟩

end Session

end CellScript
