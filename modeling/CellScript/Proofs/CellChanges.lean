import CellScript.Proofs.KeyFiling
import CellScript.Proofs.StepEffect

/-!
When the contents of a cell change.

A call of a built-in function that fails leaves the store as it was, and one that succeeds changes
no cell but that of its first argument. All other steps only add cells. So wherever a run finds a
cell with other contents than before, a built-in function that changes its argument has been called
with that cell on the way.
-/

namespace CellScript

/-- The built-in functions that change their first argument. -/
def Builtin.mutates : Builtin → Bool
  | push | pushBack | pushFront | pop | popBack | popFront | insert | remove => true
  | print | len | size | find | type => false

namespace Store

/-- The cells of `s` are there in `t`, and all but the cell `own` have the same contents. -/
structure CellsKept (own : Option Address) (s t : Store) : Prop where
  size : s.cells.size ≤ t.cells.size
  same : ∀ a < s.cells.size, own ≠ some a → t.cells[a]? = s.cells[a]?

namespace CellsKept

variable {own : Option Address} {s t u : Store}

theorem of_cells_eq (h : t.cells = s.cells) : s.CellsKept own t where
  size := by rw [h]
  same a _ _ := by rw [h]

theorem refl (s : Store) : s.CellsKept own s := of_cells_eq rfl

theorem trans (h : s.CellsKept own t) (h' : t.CellsKept own u) : s.CellsKept own u where
  size := Nat.le_trans h.size h'.size
  same a ha hne := (h'.same a (Nat.lt_of_lt_of_le ha h.size) hne).trans (h.same a ha hne)

theorem alloc (s : Store) (cell : Cell) : s.CellsKept own (s.alloc cell).2 where
  size := by simp [Store.alloc]
  same a ha _ := by simp [Store.alloc, Array.getElem?_push, Nat.ne_of_lt ha]

theorem modify (s : Store) (a : Address) (change : Cell → Cell) :
    s.CellsKept (some a) (s.modify a change) where
  size := by simp [Store.modify]
  same b _ hne := by
    have hab : a ≠ b := fun h => hne (congrArg some h)
    simp [Store.modify, Array.getElem?_modify, hab]

/-- A change that a new cell follows. -/
theorem modify_alloc (s : Store) (a : Address) (change : Cell → Cell) (cell : Cell) :
    s.CellsKept (some a) ((s.modify a change).alloc cell).2 :=
  (modify s a change).trans (alloc _ cell)

theorem modify_newItem (s : Store) (a : Address) (change : Cell → Cell) (item : HeapItem) :
    s.CellsKept (some a) ((s.modify a change).newItem item).2 := by
  cases item with
  | integer value => exact modify s a change
  | text contents => exact modify_alloc s a change _

theorem applyBinary (s : Store) (op : BinaryOp) (left right : Value) :
    s.CellsKept own (s.applyBinary op left right).store := by
  unfold Store.applyBinary
  split
  · exact refl s
  · split
    · exact alloc s _
    · exact refl s
  · split <;> exact refl s

theorem index (s : Store) (container position : Value) :
    s.CellsKept own (s.index container position).store := by
  unfold Store.index
  split
  · split
    · exact alloc s _
    · exact refl s
  · split <;> exact refl s
  · split <;> exact refl s
  · exact refl s

theorem bindAll (s : Store) (scope : ScopeId) (pairs : List (String × Value)) :
    s.CellsKept own (s.bindAll scope pairs) := by
  induction pairs generalizing s with
  | nil => exact refl s
  | cons pair rest ih =>
    have hbind : s.CellsKept own (s.bind scope pair.1 pair.2) := of_cells_eq rfl
    exact hbind.trans (ih _)

end CellsKept

end Store

/-! ### Calls of built-in functions -/

namespace Builtin

variable {s : Store} {arguments : List Value} {o : Outcome}

theorem Effect.store_of_error (h : Effect s arguments o) {fault : Fault}
    (herror : o.result = .error fault) : o.store = s := by
  cases h
  case fails => rfl
  all_goals cases herror

theorem Effect.cellsKept (h : Effect s arguments o) :
    s.CellsKept (arguments.head?.bind Value.cell?) o.store := by
  cases h with
  | fails | answers => exact .refl s
  | prints line => exact .of_cells_eq rfl
  | makesText contents => exact .alloc s _
  | changesItems kind a change v => exact .modify s a _
  | extendsText a change => exact .modify s a _
  | cutsText a change contents => exact .modify_alloc s a _ _
  | fillsHeap order a heap => exact .modify s a _
  | drawsFromHeap order a heap item => exact .modify_newItem s a _ item
  | putsMember a member | putsEntry a key value => exact .modify s a _
  | dropsMember a key | dropsEntry a key => exact .modify s a _

/-- The other functions change no cell at all. -/
theorem cellsKept_of_not_mutates {function : Builtin} (h : function.mutates = false)
    {own : Option Address} (s : Store) (arguments : List Value) :
    s.CellsKept own (function.call s arguments).store := by
  cases function
  case print => exact .of_cells_eq rfl
  case len | size =>
    simp only [call, callLen]
    split
    · split <;> exact .refl s
    · exact .refl s
  case find =>
    simp only [call, callFind]
    split
    · split
      · split <;> exact .refl s
      all_goals exact .refl s
    · exact .refl s
  case type =>
    simp only [call, callType]
    split
    · exact .alloc s _
    · exact .refl s
  all_goals cases h

end Builtin

/-! ### Steps and runs -/

/-- The cell that the next step may change: that of the first argument of a built-in function that
changes it. -/
def Control.changed? : Control → Option Address
  | .apply (.builtin function) (first :: _) => if function.mutates then first.cell? else none
  | _ => none

theorem Control.changed?_eq_some {control : Control} {a : Address}
    (h : control.changed? = some a) :
    ∃ (function : Builtin) (first : Value) (rest : List Value),
      control = .apply (.builtin function) (first :: rest) ∧ function.mutates = true ∧
        first.cell? = some a := by
  unfold Control.changed? at h
  split at h
  · next function first rest =>
    by_cases hmutates : function.mutates = true
    · rw [if_pos hmutates] at h
      exact ⟨function, first, rest, rfl, hmutates, h⟩
    · rw [if_neg hmutates] at h
      cases h
  · cases h

namespace Machine

variable {own : Option Address} {s : Store} {frames : List Frame}

theorem store_resume (o : Outcome) (frames : List Frame) : (o.resume frames).store = o.store := by
  unfold Outcome.resume
  split <;> rfl

theorem cellsKept_resume {o : Outcome} (h : s.CellsKept own o.store) :
    s.CellsKept own (o.resume frames).store := by
  rw [store_resume]
  exact h

section Lists

variable (scope : ScopeId)

theorem cellsKept_nextItem (kind : SequenceKind) (done : Array Value) (rest : List Expr) :
    s.CellsKept own (nextItem kind done rest scope frames s).store := by
  cases rest with
  | nil => exact .alloc s _
  | cons e rest => exact .refl s

theorem cellsKept_nextMember (done : OrderedMap Key Value) (rest : List Expr) :
    s.CellsKept own (nextMember done rest scope frames s).store := by
  cases rest with
  | nil => exact .alloc s _
  | cons e rest => exact .refl s

theorem cellsKept_nextEntry (done : OrderedMap Key (Value × Value)) (rest : List (Expr × Expr)) :
    s.CellsKept own (nextEntry done rest scope frames s).store := by
  cases rest with
  | nil => exact .alloc s _
  | cons entry rest => exact .refl s

theorem cellsKept_nextHeapItem (done : Heap) (rest : List Expr) :
    s.CellsKept own (nextHeapItem done rest scope frames s).store := by
  cases rest with
  | nil => exact .alloc s _
  | cons e rest => exact .refl s

end Lists

theorem cellsKept_evaluate (e : Expr) (scope : ScopeId) :
    s.CellsKept own (evaluate e scope frames s).store := by
  cases e
  case identifier name => exact cellsKept_resume (.refl s)
  case text contents => exact .alloc s _
  case function parameters body => exact .alloc s _
  case sequence kind items => exact cellsKept_nextItem scope kind _ items
  case map entries => exact cellsKept_nextEntry scope _ entries
  case set members => exact cellsKept_nextMember scope _ members
  case heap order element items => exact cellsKept_nextHeapItem scope _ items
  all_goals exact .refl s

theorem cellsKept_execute (statement : Stmt) (scope : ScopeId) :
    s.CellsKept own (execute statement scope frames s).store := by
  cases statement
  case giveBack value => cases value <;> exact .refl s
  all_goals exact .refl s

theorem cellsKept_perform (body : List Stmt) (scope : ScopeId) :
    s.CellsKept own (perform body scope frames s).store := by
  cases body <;> exact .refl s

theorem cellsKept_callClosure (limit : Nat) (closure : Closure) (arguments : List Value) :
    s.CellsKept own (callClosure limit closure arguments frames s).store := by
  unfold callClosure
  split
  · exact .refl s
  · split
    · exact .refl s
    · have hentered : s.CellsKept own (s.enter closure.scope).2 := .of_cells_eq rfl
      have hbound := hentered.trans (.bindAll _ s.scopes.size (closure.parameters.zip arguments))
      exact ⟨hbound.size, hbound.same⟩

theorem cellsKept_resumeFrame (frame : Frame) (value : Value) :
    s.CellsKept own (resume frame value frames s).store := by
  cases frame
  case unary op => exact cellsKept_resume (.refl s)
  case right left op => exact cellsKept_resume (.applyBinary s op left value)
  case position container => exact cellsKept_resume (.index s container value)
  case callee arguments scope => cases arguments <;> exact .refl s
  case argument callee done rest scope => cases rest <;> exact .refl s
  case item kind done rest scope => exact cellsKept_nextItem scope kind _ rest
  case member done rest scope => exact cellsKept_nextMember scope _ rest
  case entryValue done key rest scope => exact cellsKept_nextEntry scope _ rest
  case heapItem done rest scope =>
    simp only [resume]
    split
    · exact cellsKept_nextHeapItem scope _ rest
    · exact .refl s
  case declare name scope =>
    simp only [resume]
    split
    · exact .refl s
    · exact .of_cells_eq rfl
  case assign name scope =>
    simp only [resume]
    split
    · exact .refl s
    · split
      · exact .of_cells_eq rfl
      · exact .refl s
  case giveBack | loopTest | loopBody =>
    simp only [resume]
    split <;> exact .refl s
  case branch =>
    simp only [resume]
    split
    · exact .refl s
    · split <;> exact .refl s
  case block rest scope =>
    simp only [resume]
    split
    · exact .refl s
    · cases rest <;> exact .refl s
  case activeCall => exact .of_cells_eq rfl
  all_goals exact .refl s

theorem cellsKept_unwind (frame : Frame) (fault : Fault) :
    s.CellsKept own (unwind frame fault frames s).store := by
  cases frame
  case activeCall => exact .of_cells_eq rfl
  all_goals exact .refl s

theorem cellsKept_applyValue (limit : Nat) (callee : Value) (arguments : List Value) :
    s.CellsKept (Control.apply callee arguments).changed?
      (applyValue limit callee arguments frames s).store := by
  cases callee
  case function a => exact cellsKept_callClosure limit _ arguments
  case builtin function =>
    refine cellsKept_resume ?_
    by_cases h : function.mutates = true
    · have hkept := (Builtin.call_effect s arguments function).cellsKept
      cases arguments with
      | nil => exact hkept
      | cons first rest =>
        rw [Control.changed?, if_pos h]
        exact hkept
    · exact Builtin.cellsKept_of_not_mutates (by simpa using h) s arguments
  all_goals exact .refl s

/-- A step keeps all cells, but for the cell that a call of a built-in function may change. -/
theorem cellsKept_step (limit : Nat) (m : Machine) :
    m.store.CellsKept m.control.changed? (m.step limit).store := by
  obtain ⟨control, frames, s⟩ := m
  cases control with
  | evaluate e scope => exact cellsKept_evaluate e scope
  | execute statement scope => exact cellsKept_execute statement scope
  | perform body scope => exact cellsKept_perform body scope
  | apply callee arguments => exact cellsKept_applyValue limit callee arguments
  | deliver value =>
    cases frames with
    | nil => exact .refl s
    | cons frame frames => exact cellsKept_resumeFrame frame value
  | raise fault =>
    cases frames with
    | nil => exact .refl s
    | cons frame frames => exact cellsKept_unwind frame fault

theorem cells_size_le_after (limit : Nat) (m : Machine) (n : Nat) :
    m.store.cells.size ≤ (m.after limit n).store.cells.size := by
  induction n with
  | zero => exact Nat.le_refl _
  | succ n ih => exact Nat.le_trans ih (cellsKept_step limit _).size

/-- The next step calls a built-in function that changes its first argument. That is the cell `a`,
and the call succeeds. -/
def Changes (m : Machine) (a : Address) : Prop :=
  ∃ (function : Builtin) (first : Value) (rest : List Value) (value : Value),
    m.control = .apply (.builtin function) (first :: rest) ∧ function.mutates = true ∧
      first.cell? = some a ∧ (function.call m.store (first :: rest)).result = .ok value

theorem kept_or_changes (limit : Nat) (m : Machine) {a : Address} (ha : a < m.store.cells.size) :
    (m.step limit).store.cells[a]? = m.store.cells[a]? ∨ m.Changes a := by
  by_cases hchanged : m.control.changed? = some a
  · obtain ⟨control, frames, s⟩ := m
    obtain ⟨function, first, rest, rfl, hmutates, hcell⟩ := Control.changed?_eq_some hchanged
    cases hresult : (function.call s (first :: rest)).result with
    | ok value => exact .inr ⟨function, first, rest, value, rfl, hmutates, hcell, hresult⟩
    | error fault =>
      -- A call that fails leaves the store as it was, also where it might have changed the cell.
      have hstore := (Builtin.call_effect s (first :: rest) function).store_of_error hresult
      left
      show ((function.call s (first :: rest)).resume frames).store.cells[a]? = s.cells[a]?
      rw [store_resume, hstore]
  · exact .inl ((cellsKept_step limit m).same a ha hchanged)

/-- A cell has the contents that it had some steps before, or one of the steps in between is a call
that changes it. -/
theorem kept_or_changes_after (limit : Nat) (m : Machine) {a : Address}
    (ha : a < m.store.cells.size) (k : Nat) :
    (m.after limit k).store.cells[a]? = m.store.cells[a]? ∨
      ∃ j < k, (m.after limit j).Changes a := by
  induction k with
  | zero => exact .inl rfl
  | succ k ih =>
    rcases ih with hsame | ⟨j, hj, hchanges⟩
    · have hlt : a < (m.after limit k).store.cells.size :=
        Nat.lt_of_lt_of_le ha (cells_size_le_after limit m k)
      rcases kept_or_changes limit (m.after limit k) hlt with hkept | hchanges
      · exact .inl (hkept.trans hsame)
      · exact .inr ⟨k, Nat.lt_succ_self k, hchanges⟩
    · exact .inr ⟨j, Nat.lt_succ_of_lt hj, hchanges⟩

/-- A call of a built-in function that fails leaves cells, scopes and output as they were. One that
succeeds leaves all scopes as they were, and all cells but that of its first argument. In a run of
any machine a cell that is there has the contents that it had, unless a built-in function that
changes its first argument has been called with the cell and has succeeded. -/
theorem cells_change_by_calls :
    (∀ (function : Builtin) (s : Store) (arguments : List Value) (fault : Fault),
      (function.call s arguments).result = .error fault →
        (function.call s arguments).store = s) ∧
    (∀ (function : Builtin) (s : Store) (arguments : List Value) (value : Value),
      (function.call s arguments).result = .ok value →
        s.SameScopes (function.call s arguments).store ∧
          s.CellsKept (arguments.head?.bind Value.cell?) (function.call s arguments).store) ∧
    ∀ (limit : Nat) (m : Machine) (k : Nat) (a : Address), a < m.store.cells.size →
      (m.after limit k).store.cells[a]? = m.store.cells[a]? ∨
        ∃ j < k, (m.after limit j).Changes a := by
  refine ⟨?_, ?_, ?_⟩
  · intro function s arguments fault herror
    exact (Builtin.call_effect s arguments function).store_of_error herror
  · intro function s arguments value _
    exact ⟨Builtin.call_sameScopes function s arguments,
      (Builtin.call_effect s arguments function).cellsKept⟩
  · intro limit m k a ha
    exact kept_or_changes_after limit m ha k

/-- An empty array has no last item to take and takes in a first one. A string that is bound to a
name gets longer by a call of `push` that has it as an argument. -/
theorem cells_change_by_calls_push :
    let s := (Store.initial.alloc (.sequence #[])).2
    let m := (start ⟨[.declare "s" (.text "a"),
      .expression (.call (.identifier "push") [.identifier "s", .text "b"])]⟩).after 1 3
    (∃ fault, (Builtin.pop.call s [.sequence .array 0]).result = .error fault ∧
      (Builtin.pop.call s [.sequence .array 0]).store = s) ∧
    (∃ value, (Builtin.push.call s [.sequence .array 0, .null]).result = .ok value ∧
      s.SameScopes (Builtin.push.call s [.sequence .array 0, .null]).store ∧
        s.CellsKept (some 0) (Builtin.push.call s [.sequence .array 0, .null]).store) ∧
    (m.after 1 11).store.cells[0]? ≠ m.store.cells[0]? ∧ ∃ j < 11, (m.after 1 j).Changes 0 := by
  intro s m
  obtain ⟨hfails, hsucceeds, hruns⟩ := cells_change_by_calls
  refine ⟨⟨_, rfl, hfails _ _ _ _ rfl⟩, ⟨_, rfl, hsucceeds _ _ _ _ rfl⟩, ?_⟩
  have hdiffers : (m.after 1 11).store.cells[0]? ≠ m.store.cells[0]? := by
    intro h
    have htext : (m.after 1 11).store.textAt 0 = m.store.textAt 0 := by
      simp only [Store.textAt, h]
    exact absurd htext (by decide +kernel)
  have hthere : 0 < m.store.cells.size := by decide +kernel
  exact ⟨hdiffers, (hruns 1 m 11 0 hthere).resolve_left hdiffers⟩

end Machine

end CellScript
