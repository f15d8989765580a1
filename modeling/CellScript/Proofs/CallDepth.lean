import CellScript.Proofs.StepEffect
import Mathlib.Control.Monad.Basic

/-!
The count of calls under way, and what its limit does.

The count is exact: at each moment of a run it is the number of calls whose bodies are running, and
so it is after a run what it was before. The limit is only a cut-off: a run that does not come to
it is the same for every larger limit.
-/

namespace CellScript

@[simp] theorem Store.depth_bindAll (s : Store) (scope : ScopeId) (pairs : List (String × Value)) :
    (s.bindAll scope pairs).depth = s.depth := by
  induction pairs generalizing s with
  | nil => rfl
  | cons pair rest ih =>
    rw [bindAll, ih]
    rfl

/-! ### The count is exact -/

namespace Machine

/-- The count of a machine is that of the calls around it and of its own, and the limit holds. -/
structure Counts (limit outside : Nat) (m : Machine) : Prop where
  depth : m.store.depth = outside + activeCalls m.frames
  within : m.store.depth ≤ limit

theorem activeCalls_call (frames : List Frame) :
    activeCalls (.activeCall :: frames) = activeCalls frames + 1 := by
  simp [Frame.isCall]

/-- A call ends, with a value or with a fault. -/
theorem Counts.leave {limit outside : Nat} {control : Control} {frames : List Frame} {s : Store}
    (h : Counts limit outside ⟨control, .activeCall :: frames, s⟩) (control' : Control) :
    Counts limit outside ⟨control', frames, { s with depth := s.depth - 1 }⟩ := by
  have hdepth : s.depth = outside + activeCalls (.activeCall :: frames) := h.depth
  have hwithin : s.depth ≤ limit := h.within
  rw [activeCalls_call] at hdepth
  constructor
  · show s.depth - 1 = outside + activeCalls frames
    omega
  · show s.depth - 1 ≤ limit
    omega

theorem Counts.step {limit outside : Nat} {m : Machine} (h : Counts limit outside m) :
    Counts limit outside (m.step limit) := by
  have heffect := effect_step limit m
  generalize m.step limit = m' at heffect
  cases heffect with
  | stays hstays =>
    constructor
    · rw [hstays.store.depth, hstays.calls, h.depth]
    · rw [hstays.store.depth]
      exact h.within
  | @binds frame name scope value frames s hframe =>
    have hcalls : activeCalls (frame :: frames) = activeCalls frames := by
      rcases hframe with rfl | rfl <;> simp [Frame.isCall]
    exact ⟨h.depth.trans (by rw [hcalls]), h.within⟩
  | @enters a arguments frames s entered _ hlimit hentered =>
    have hsame : entered.depth = s.depth := by
      rw [hentered, Store.depth_bindAll]
      rfl
    have hdepth : s.depth = outside + activeCalls frames := h.depth
    constructor
    · rw [activeCalls_call]
      show entered.depth + 1 = outside + (activeCalls frames + 1)
      omega
    · show entered.depth + 1 ≤ limit
      omega
  | returns => exact h.leave _
  | fails => exact h.leave _

/-- A call of a function of the program fails for the limit, and only then, if it is given as many
arguments as it wants and no further call may begin. -/
theorem step_apply_eq_overflow_iff (limit : Nat) (a : Address) (arguments : List Value)
    (frames : List Frame) (s : Store) :
    step limit ⟨.apply (.function a) arguments, frames, s⟩ = ⟨.raise .stackOverflow, frames, s⟩ ↔
      (s.closureAt a).parameters.length = arguments.length ∧ limit ≤ s.depth := by
  simp only [step, applyValue, callClosure]
  by_cases harity : (s.closureAt a).parameters.length = arguments.length
  · by_cases hdepth : limit ≤ s.depth
    · simp [harity, hdepth]
    · simp [harity, hdepth]
  · simp [harity]

end Machine

namespace Session

theorem counts {session : Session} (h : session.store.depth ≤ session.limit) {control : Control}
    {m : Machine} (hm : session.Passes control m) :
    m.Counts session.limit session.store.depth := by
  obtain ⟨n, rfl⟩ := hm
  exact Machine.after_of_step (fun _ h => h.step) ⟨rfl, h⟩ n

/-- An operation gives back every call that it has counted. -/
theorem depth_of_complete {session : Session} (h : session.store.depth ≤ session.limit)
    {fuel : Nat} {control : Control} {answer : Answer Fault}
    (ha : session.complete fuel control = some answer) :
    answer.session.limit = session.limit ∧
      answer.session.store.depth = session.store.depth := by
  obtain ⟨hframes, hsession⟩ := store_of_complete ha
  have hlast : session.Passes control _ := ⟨fuel, rfl⟩
  have hdepth := (counts h hlast).depth
  rw [hframes] at hdepth
  rw [hsession]
  exact ⟨rfl, hdepth⟩

theorem depth_of_runIn {session : Session} (h : session.store.depth ≤ session.limit) {fuel : Nat}
    {scope : ScopeId} {program : Program} {answer : Answer Fault}
    (ha : session.runIn fuel scope program = some answer) :
    answer.session.limit = session.limit ∧
      answer.session.store.depth = session.store.depth := by
  obtain ⟨inner, hinner, hsession, -⟩ := complete_of_runIn ha
  rw [hsession]
  exact depth_of_complete h hinner

/-- Between the operations of a session no call is counted, also where one of them has failed. -/
theorem depth_of_reached {limit : Nat} {session : Session} (h : Reached limit session) :
    session.limit = limit ∧ session.store.depth = 0 := by
  have after {s s' : Session} (ih : s.limit = limit ∧ s.store.depth = 0)
      (hs : s'.limit = s.limit ∧ s'.store.depth = s.store.depth) :
      s'.limit = limit ∧ s'.store.depth = 0 := ⟨hs.1.trans ih.1, hs.2.trans ih.2⟩
  induction h with
  | start => exact ⟨rfl, rfl⟩
  | runIn _ ha ih => exact after ih (depth_of_runIn (by omega) ha)
  | @runSource s fuel source answer _ ha ih =>
    simp only [runSource] at ha
    split at ha
    · cases ha
      exact ih
    · rw [Option.map_eq_some_iff] at ha
      obtain ⟨inner, hrun, rfl⟩ := ha
      exact after ih (depth_of_runIn (by omega) hrun)
  | execute _ ha ih => exact after ih (depth_of_complete (by omega) ha)
  | call _ ha ih => exact after ih (depth_of_complete (by omega) ha)
  | alloc _ _ ih => exact ih
  | enter _ _ ih => exact ih
  | bind _ _ _ _ ih => exact ih
  | clear _ _ ih => exact ih
  | takeOutput _ ih => exact ih
  | reset _ ih => exact ⟨ih.1, rfl⟩

/-- The count of calls is exact: an operation leaves it as it was, at each moment it is the number
of calls under way and within the limit, a call is refused for the limit just if the limit is used
up, and between the operations of a session nothing is counted. -/
theorem depth_exact :
    (∀ (session : Session) (control : Control), session.store.depth ≤ session.limit →
      (∀ fuel answer, session.complete fuel control = some answer →
        answer.session.store.depth = session.store.depth) ∧
      (∀ m, session.Passes control m →
        m.store.depth = session.store.depth + activeCalls m.frames ∧
          m.store.depth ≤ session.limit) ∧
      (∀ a arguments frames s,
        session.Passes control ⟨.apply (.function a) arguments, frames, s⟩ →
          (Machine.step session.limit ⟨.apply (.function a) arguments, frames, s⟩ =
              ⟨.raise .stackOverflow, frames, s⟩ ↔
            (s.closureAt a).parameters.length = arguments.length ∧
              session.store.depth + activeCalls frames = session.limit))) ∧
    (∀ (session : Session) fuel scope program answer, session.store.depth ≤ session.limit →
      session.runIn fuel scope program = some answer →
        answer.session.store.depth = session.store.depth) ∧
    ∀ limit session, Reached limit session → session.limit = limit ∧ session.store.depth = 0 := by
  refine ⟨fun session control hdepth => ⟨?_, ?_, ?_⟩, ?_, fun _ _ h => depth_of_reached h⟩
  · intro fuel answer ha
    exact (depth_of_complete hdepth ha).2
  · intro m hm
    have hcounts := counts hdepth hm
    exact ⟨hcounts.depth, hcounts.within⟩
  · intro a arguments frames s hm
    obtain ⟨hcount, hwithin⟩ := counts hdepth hm
    simp only at hcount hwithin
    rw [Machine.step_apply_eq_overflow_iff]
    constructor
    · rintro ⟨harity, hfull⟩
      exact ⟨harity, by omega⟩
    · rintro ⟨harity, hfull⟩
      exact ⟨harity, by omega⟩
  · intro session fuel scope program answer hdepth ha
    exact (depth_of_runIn hdepth ha).2

/-- A call inside a call, where only one may be under way: when the inner one has its arguments, it
is refused, and after the program nothing is counted. -/
theorem depth_exact_nested :
    let once : Expr := .call (.function [] [.expression (.integer 1)]) []
    let p : Program := ⟨[.expression (.call (.function [] [.expression once]) [])]⟩
    let m := ((start 1).machine (.perform p.statements Store.globalScope)).after 1 11
    (m.control = .apply (.function 1) [] ∧ activeCalls m.frames = 1 ∧
      m.step 1 = ⟨.raise .stackOverflow, m.frames, m.store⟩) ∧
    ∃ answer, (start 1).run 20 p = some answer ∧
      answer.session.store.depth = (start 1).store.depth ∧ answer.session.store.depth = 0 := by
  intro once p m
  obtain ⟨hexact, hrunIn, hreached⟩ := depth_exact
  obtain ⟨-, -, hoverflow⟩ :=
    hexact (start 1) (.perform p.statements Store.globalScope) (Nat.zero_le 1)
  have hcontrol : m.control = .apply (.function 1) [] := rfl
  have hcalls : activeCalls m.frames = 1 := by decide +kernel
  have harity : (m.store.closureAt 1).parameters.length = 0 := by decide +kernel
  have hm : m = ⟨.apply (.function 1) [], m.frames, m.store⟩ := by rw [← hcontrol]
  constructor
  · refine ⟨hcontrol, hcalls, ?_⟩
    rw [hm]
    exact (hoverflow 1 [] m.frames m.store ⟨11, hm.symm⟩).2 ⟨harity, by rw [hcalls]; rfl⟩
  · obtain ⟨answer, ha⟩ := Option.isSome_iff_exists.1
      (show ((start 1).run 20 p).isSome by decide +kernel)
    exact ⟨answer, ha, hrunIn _ _ _ _ _ (Nat.zero_le 1) ha,
      (hreached 1 answer.session (.runIn .start ha)).2⟩

end Session

/-! ### The limit is a cut-off -/

namespace Machine

/-- A step looks at the limit only to begin a call, and a smaller limit can only refuse it. -/
theorem step_eq_or_overflow {N M : Nat} (h : N ≤ M) (m : Machine) :
    m.step N = m.step M ∨ ∃ frames s, m.step N = ⟨.raise .stackOverflow, frames, s⟩ := by
  obtain ⟨control, frames, s⟩ := m
  cases control with
  | apply callee arguments =>
    cases callee with
    | function a =>
      simp only [step, applyValue, callClosure]
      by_cases harity : (s.closureAt a).parameters.length = arguments.length
      · by_cases hdepth : N ≤ s.depth
        · exact .inr ⟨frames, s, by simp [harity, hdepth]⟩
        · have hM : ¬M ≤ s.depth := by omega
          exact .inl (by simp [harity, hdepth, hM])
      · exact .inl (by simp [harity])
    | _ => exact .inl rfl
  | deliver value => cases frames <;> exact .inl rfl
  | raise fault => cases frames <;> exact .inl rfl
  | _ => exact .inl rfl

/-- Nothing stops a fault. -/
theorem step_raise (limit : Nat) (fault : Fault) (frames : List Frame) (s : Store) :
    ∃ s', step limit ⟨.raise fault, frames, s⟩ = ⟨.raise fault, frames.tail, s'⟩ := by
  cases frames with
  | nil => exact ⟨s, rfl⟩
  | cons frame frames =>
    cases frame
    case activeCall => exact ⟨_, rfl⟩
    all_goals exact ⟨s, rfl⟩

/-- A fault ends the run after as many steps as there are frames. -/
theorem after_raise (limit : Nat) (fault : Fault) (frames : List Frame) (s : Store) :
    ∃ s', after limit ⟨.raise fault, frames, s⟩ frames.length = ⟨.raise fault, [], s'⟩ := by
  induction frames generalizing s with
  | nil => exact ⟨s, rfl⟩
  | cons frame frames ih =>
    obtain ⟨s', hstep⟩ := step_raise limit fault (frame :: frames) s
    rw [List.length_cons, after_succ, hstep]
    exact ih s'

/-- Under a smaller limit the same has happened, or a call has been refused. -/
theorem after_eq_or_overflow {N M : Nat} (h : N ≤ M) (m : Machine) (n : Nat) :
    m.after N n = m.after M n ∨ ∃ frames s, m.after N n = ⟨.raise .stackOverflow, frames, s⟩ := by
  induction n with
  | zero => exact .inl rfl
  | succ n ih =>
    rcases ih with hsame | ⟨frames, s, hraise⟩
    · rw [after, after, hsame]
      exact step_eq_or_overflow h _
    · obtain ⟨s', hstep⟩ := step_raise N .stackOverflow frames s
      exact .inr ⟨frames.tail, s', by rw [after, hraise, hstep]⟩

end Machine

namespace Session

variable {N M : Nat} (h : N ≤ M) (store : Store) (control : Control)

include h

/-- An operation that does not fail for the smaller limit ends in the same way under the larger
one. -/
theorem complete_of_le {fuel : Nat} {answer : Answer Fault}
    (ha : complete ⟨N, store⟩ fuel control = some answer)
    (hresult : answer.result ≠ .error .stackOverflow) :
    complete ⟨M, store⟩ fuel control = some ⟨answer.result, ⟨M, answer.session.store⟩⟩ := by
  rw [complete_eq, Option.map_eq_some_iff] at ha
  obtain ⟨outcome, hend, rfl⟩ := ha
  rcases Machine.after_eq_or_overflow h ⟨control, [], store⟩ fuel with hsame | ⟨frames, s, hraise⟩
  · have hend' : ((machine ⟨M, store⟩ control).after M fuel).outcome? = some outcome :=
      hsame ▸ hend
    rw [complete_eq, hend']
    rfl
  · -- A refused call ends the run, and its fault is what the run ends with.
    exfalso
    obtain ⟨hframes, -, hvalue⟩ := Machine.outcome?_eq_some hend
    have hcontrol : ((machine ⟨N, store⟩ control).after N fuel).control = .raise .stackOverflow :=
      congrArg Machine.control hraise
    rcases hvalue with ⟨value, hdeliver, -⟩ | ⟨fault, hfault, herror⟩
    · rw [hcontrol] at hdeliver
      cases hdeliver
    · rw [hcontrol] at hfault
      cases hfault
      exact hresult herror

/-- An operation that fails for the larger limit fails for the smaller one. -/
theorem overflow_of_le {fuel : Nat} {answer : Answer Fault}
    (ha : complete ⟨M, store⟩ fuel control = some answer)
    (hresult : answer.result = .error .stackOverflow) :
    ∃ fuel' answer', complete ⟨N, store⟩ fuel' control = some answer' ∧
      answer'.result = .error .stackOverflow := by
  rcases Machine.after_eq_or_overflow h ⟨control, [], store⟩ fuel with hsame | ⟨frames, s, hraise⟩
  · rw [complete_eq, Option.map_eq_some_iff] at ha
    obtain ⟨outcome, hend, rfl⟩ := ha
    have hend' : ((machine ⟨N, store⟩ control).after N fuel).outcome? = some outcome :=
      hsame ▸ hend
    refine ⟨fuel, ⟨outcome.result, ⟨N, outcome.store⟩⟩, ?_, hresult⟩
    rw [complete_eq, hend']
    rfl
  · obtain ⟨s', hlast⟩ := Machine.after_raise N .stackOverflow frames s
    have hend : (machine ⟨N, store⟩ control).after N (fuel + frames.length) =
        ⟨.raise .stackOverflow, [], s'⟩ := by
      rw [Machine.after_add, machine, hraise, hlast]
    refine ⟨fuel + frames.length, ⟨.error .stackOverflow, ⟨N, s'⟩⟩, ?_, rfl⟩
    rw [complete_eq, hend]
    rfl

omit h in
theorem unwrapped_eq_overflow_iff {result : Except Fault Value} :
    result.map Value.unwrapped = .error .stackOverflow ↔ result = .error .stackOverflow := by
  cases result <;> simp [Except.map]

/-- The limit is only a cut-off: a program that ends without coming to it ends under every larger
limit with the same value or fault and the same store, and a program that comes to a limit comes to
every smaller one. -/
theorem limit_only_cuts_off (p : Program) :
    (∀ fuel answer, (start N).run fuel p = some answer → answer.result ≠ .error .stackOverflow →
      ∃ answer', (start M).run fuel p = some answer' ∧ answer'.result = answer.result ∧
        answer'.session.store = answer.session.store) ∧
    ∀ fuel answer, (start M).run fuel p = some answer → answer.result = .error .stackOverflow →
      ∃ fuel' answer', (start N).run fuel' p = some answer' ∧
        answer'.result = .error .stackOverflow := by
  constructor
  · intro fuel answer ha hresult
    obtain ⟨inner, hinner, hsession, hmap⟩ := complete_of_runIn ha
    rw [hmap, ne_eq, unwrapped_eq_overflow_iff] at hresult
    have hlarger := complete_of_le h Store.initial _ hinner hresult
    refine ⟨⟨answer.result, ⟨M, inner.session.store⟩⟩, ?_, rfl, by rw [hsession]⟩
    rw [run, runIn, start, hlarger, hmap]
    rfl
  · intro fuel answer ha hresult
    obtain ⟨inner, hinner, -, hmap⟩ := complete_of_runIn ha
    rw [hmap, unwrapped_eq_overflow_iff] at hresult
    obtain ⟨fuel', answer', hsmaller, herror⟩ := overflow_of_le h Store.initial _ hinner hresult
    refine ⟨fuel', { answer' with result := answer'.result.map Value.unwrapped }, ?_, ?_⟩
    · rw [run, runIn, start, hsmaller]
      rfl
    · exact unwrapped_eq_overflow_iff.2 herror

omit h in
/-- A call inside a call needs two calls under way. Five allow it as well, and one is too few, as
none is. -/
theorem limit_only_cuts_off_nested :
    let once : Expr := .call (.function [] [.expression (.integer 1)]) []
    let p : Program := ⟨[.expression (.call (.function [] [.expression once]) [])]⟩
    (∃ answer, (start 2).run 20 p = some answer ∧ answer.result ≠ .error .stackOverflow ∧
      ∃ answer', (start 5).run 20 p = some answer' ∧ answer'.result = answer.result ∧
        answer'.session.store = answer.session.store) ∧
    ∃ answer, (start 1).run 20 p = some answer ∧ answer.result = .error .stackOverflow ∧
      ∃ fuel' answer', (start 0).run fuel' p = some answer' ∧
        answer'.result = .error .stackOverflow := by
  intro once p
  have hvalue : ((start 2).run 20 p).map Answer.result = some (.ok (.integer 1)) := by
    decide +kernel
  have hfault : ((start 1).run 20 p).map Answer.result = some (.error .stackOverflow) := by
    decide +kernel
  obtain ⟨answer, ha, hok⟩ := Option.map_eq_some_iff.1 hvalue
  obtain ⟨failed, hf, herror⟩ := Option.map_eq_some_iff.1 hfault
  have hne : answer.result ≠ .error .stackOverflow := by simp [hok]
  constructor
  · exact ⟨answer, ha, hne, (limit_only_cuts_off (by decide) p).1 20 answer ha hne⟩
  · exact ⟨failed, hf, herror, (limit_only_cuts_off (by decide) p).2 20 failed hf herror⟩

end Session

end CellScript
