import CellScript.Proofs.BesideCells

/-!
Programs statement by statement.

A program runs its statements one after the other. Each of them does what it does alone in the store
that the statements before it have left, whatever comes after it and whatever has been printed
before. So a program that ends with a value can be cut after any statement, and the run goes on from
the store at the cut.
-/

namespace CellScript

/-! ### What has been printed before -/

namespace Store

/-- The store with a text printed before all that has been printed. -/
def printedAfter (s : Store) (earlier : String) : Store := s.beside id (earlier ++ ·)

theorem printedAfter_takeOutput (s : Store) : s.takeOutput.2.printedAfter s.output = s := by
  have houtput : s.output ++ "" = s.output := String.append_empty
  exact congrArg (fun output => { s with output := output }) houtput

theorem printedAfter_inj {s t : Store} {earlier : String}
    (h : s.printedAfter earlier = t.printedAfter earlier) : s = t := by
  have hrest : s.takeOutput.2 = t.takeOutput.2 := congrArg (fun u => u.takeOutput.2) h
  have houtput : s.output = t.output := (String.append_right_inj earlier).1 (congrArg output h)
  calc s = s.takeOutput.2.printedAfter s.output := s.printedAfter_takeOutput.symm
    _ = t.takeOutput.2.printedAfter t.output := by rw [hrest, houtput]
    _ = t := t.printedAfter_takeOutput

theorem render_takeOutput (s : Store) (value : Value) :
    s.takeOutput.2.render value = s.render value :=
  s.render_beside id (fun _ => "") value

end Store

theorem Value.unwrapped_of_not_returning {v : Value} (h : v.isReturning = false) :
    v.unwrapped = v := by
  cases v <;> first | rfl | cases h

namespace Machine

theorem passive_append (earlier : String) : Passive id (earlier ++ ·) fun _ => True where
  lookup _ s scope := by
    apply Store.lookup_congr
    · intro i
      rfl
    · intro i
      rfl
  bind _ _ _ _ := rfl
  prints printed line := by simp only [String.append_assoc]

/-- A step prints at the end of what has been printed. -/
theorem step_printedAfter (earlier : String) (limit : Nat) (m : Machine) :
    (m.beside id (earlier ++ ·)).step limit = (m.step limit).beside id (earlier ++ ·) :=
  step_beside (passive_append earlier) (fun _ _ => trivial) (fun _ => rfl) limit

theorem after_printedAfter (earlier : String) (limit : Nat) (m : Machine) (n : Nat) :
    (m.beside id (earlier ++ ·)).after limit n = (m.after limit n).beside id (earlier ++ ·) := by
  induction n with
  | zero => rfl
  | succ n ih =>
    rw [after, ih, step_printedAfter]
    rfl

end Machine

/-! ### One statement -/

/-- The statement comes to a value in `k` steps, whatever waits for it. -/
def Stmt.Gives (limit : Nat) (s : Store) (statement : Stmt) (k : Nat) (v : Value) (t : Store) :
    Prop :=
  ∀ frames, (Machine.mk (.execute statement Store.globalScope) frames s).after limit k =
    ⟨.deliver v, frames, t⟩

/-- A statement that comes to a value does so with nothing printed before it. -/
theorem Stmt.Gives.takeOutput {limit : Nat} {s t : Store} {statement : Stmt} {k : Nat} {v : Value}
    (h : statement.Gives limit s k v t) :
    ∃ u, statement.Gives limit s.takeOutput.2 k v u ∧ t = u.printedAfter s.output := by
  -- the machine with nothing printed before, which has the same control and the same frames
  let before (frames : List Frame) : Machine :=
    ⟨.execute statement Store.globalScope, frames, s.takeOutput.2⟩
  have hafter (frames : List Frame) :
      ((before frames).after limit k).beside id (s.output ++ ·) = ⟨.deliver v, frames, t⟩ := by
    have hbefore : (before frames).beside id (s.output ++ ·) =
        ⟨.execute statement Store.globalScope, frames, s⟩ :=
      congrArg (Machine.mk _ frames) s.printedAfter_takeOutput
    rw [← Machine.after_printedAfter, hbefore, h frames]
  have hstore (frames : List Frame) :
      ((before frames).after limit k).store.printedAfter s.output = t :=
    congrArg Machine.store (hafter frames)
  refine ⟨((before []).after limit k).store, fun frames => ?_, (hstore []).symm⟩
  have hsame : ((before frames).after limit k).store = ((before []).after limit k).store :=
    Store.printedAfter_inj ((hstore frames).trans (hstore []).symm)
  have hcontrol : ((before frames).after limit k).control = .deliver v :=
    congrArg Machine.control (hafter frames)
  have hframes : ((before frames).after limit k).frames = frames :=
    congrArg Machine.frames (hafter frames)
  show (before frames).after limit k = _
  rw [← hsame]
  generalize (before frames).after limit k = m at hcontrol hframes
  subst hframes
  rw [← hcontrol]

/-! ### Statements in a row -/

/-- The statements come to a value and a store in `n` steps: a program of them alone has come to its
end, and one that goes on is about to execute the next statement. -/
structure Reaches (limit : Nat) (done : List Stmt) (n : Nat) (v : Value) (s : Store) : Prop where
  ends : (Machine.start ⟨done⟩).after limit n = ⟨.deliver v, [], s⟩
  goesOn : ∀ statement rest, (Machine.start ⟨done ++ statement :: rest⟩).after limit n =
    ⟨.execute statement Store.globalScope, [.block rest Store.globalScope], s⟩

namespace Reaches

theorem nil (limit : Nat) : Reaches limit [] 1 .null .initial where
  ends := rfl
  goesOn _ _ := rfl

variable {limit : Nat} {done : List Stmt} {n : Nat} {v : Value} {s : Store}
  (h : Reaches limit done n v s)

include h

theorem pos : 0 < n := by
  rw [Nat.pos_iff_ne_zero]
  rintro rfl
  injection h.ends with hcontrol
  cases hcontrol

theorem concat {statement : Stmt} {k : Nat} {w : Value} {t : Store}
    (hgives : statement.Gives limit s k w t) (hw : w.isReturning = false) :
    Reaches limit (done ++ [statement]) (n + k + 1) w t := by
  have hdelivers (rest : List Stmt) :
      (Machine.start ⟨done ++ statement :: rest⟩).after limit (n + k) =
        ⟨.deliver w, [.block rest Store.globalScope], t⟩ := by
    rw [Machine.after_add, h.goesOn, hgives]
  constructor
  · rw [Machine.after, hdelivers []]
    simp [Machine.step, Machine.resume, hw]
  · intro next rest
    rw [List.append_assoc, List.singleton_append, Machine.after, hdelivers (next :: rest)]
    simp [Machine.step, Machine.resume, hw]

theorem run_eq {fuel : Nat} (hn : n ≤ fuel) (hv : v.isReturning = false) :
    (Session.start limit).run fuel ⟨done⟩ = some ⟨.ok v, ⟨limit, s⟩⟩ := by
  have hend : ((Machine.start ⟨done⟩).after limit n).outcome? = some (.value v s) := by
    rw [h.ends]
    rfl
  have hafter := Machine.outcome?_after_of_le hend hn
  rw [Session.run_eq]
  show Option.map _ ((Machine.start ⟨done⟩).after limit fuel).outcome? = _
  rw [hafter]
  simp [Outcome.value, Except.map, Value.unwrapped_of_not_returning hv, Session.start]

/-- In a program that ends with a value, the next statement comes to a value too. -/
theorem exists_gives {statement : Stmt} {rest : List Stmt} {fuel : Nat} {w : Value}
    {session : Session} (hrun : (Session.start limit).run fuel ⟨done ++ statement :: rest⟩ =
      some ⟨.ok w, session⟩) :
    ∃ k u t, statement.Gives limit s k u t ∧ n + k + 1 ≤ fuel := by
  rw [Session.run_eq, Option.map_eq_some_iff] at hrun
  obtain ⟨o, hend, ho⟩ := hrun
  change ((Machine.start ⟨done ++ statement :: rest⟩).after limit fuel).outcome? = some o at hend
  let alone : Machine := ⟨.execute statement Store.globalScope, [], s⟩
  have hreached : (Machine.start ⟨done ++ statement :: rest⟩).after limit n =
      alone.onto [.block rest Store.globalScope] := h.goesOn statement rest
  have hn : n < fuel := Machine.lt_of_outcome? (by rw [hreached]; rfl) hend
  obtain ⟨j, rfl⟩ := Nat.exists_eq_add_of_le hn.le
  rw [Machine.after_add, hreached] at hend
  obtain ⟨k, inner, hinner, honto⟩ := Machine.exists_outcome_of_onto hend
  have hk : k < j := by
    refine Machine.lt_of_outcome? ?_ hend
    rw [honto, Machine.outcome?_onto_cons]
  obtain ⟨hframes, -, hcontrol⟩ := Machine.outcome?_eq_some hinner
  have hwaits (frames : List Frame) : (alone.onto frames).after limit k =
      ⟨(alone.after limit k).control, frames, (alone.after limit k).store⟩ := by
    rw [honto, Machine.onto, hframes]
    rfl
  rcases hcontrol with ⟨u, hcontrol, -⟩ | ⟨fault, hcontrol, -⟩
  · refine ⟨k, u, (alone.after limit k).store, fun frames => ?_, by omega⟩
    rw [← hcontrol]
    exact hwaits frames
  · -- a fault in the statement would be the end of the program
    have hfault : ((alone.onto [.block rest Store.globalScope]).after limit (k + 1)).outcome? =
        some (.fault fault (alone.after limit k).store) := by
      rw [Machine.after, hwaits, hcontrol]
      rfl
    rw [Machine.outcome?_after_of_le hfault hk] at hend
    cases hend
    cases ho

end Reaches

/-! ### Sessions -/

namespace Session

variable {limit : Nat} {s t : Store} {statement : Stmt} {k fuel : Nat} {v : Value}
  (h : statement.Gives limit s k v t)

include h

theorem execute_of_gives (hk : k ≤ fuel) :
    (Session.mk limit s).execute fuel Store.globalScope statement =
      some ⟨.ok v, ⟨limit, t⟩⟩ := by
  have hend : (((Session.mk limit s).machine (.execute statement Store.globalScope)).after limit
      k).outcome? = some (.value v t) := congrArg Machine.outcome? (h [])
  rw [execute, complete_eq, Machine.outcome?_after_of_le hend hk]
  rfl

/-- A program of one statement ends with the value of the statement. -/
theorem run_of_gives (hv : v.isReturning = false) (hk : k + 2 ≤ fuel) :
    (Session.mk limit s).run fuel ⟨[statement]⟩ = some ⟨.ok v, ⟨limit, t⟩⟩ := by
  have hend : (((Session.mk limit s).machine (.perform [statement] Store.globalScope)).after limit
      (k + 2)).outcome? = some (.value v t) := by
    rw [Machine.after_succ, Machine.after]
    show (Machine.step limit ((Machine.mk (.execute statement Store.globalScope)
      [.block [] Store.globalScope] s).after limit k)).outcome? = _
    rw [h]
    simp [Machine.step, Machine.resume, hv, Machine.outcome?]
  rw [run_eq, Machine.outcome?_after_of_le hend hk]
  simp [Outcome.value, Except.map, Value.unwrapped_of_not_returning hv]

end Session

end CellScript
