import CellScript.Proofs.StepEffect

/-!
Calls and the scopes that are there before them.

Whatever runs in a scope binds names in that scope and in scopes that are made on the way. A call
works only in the scope it makes, so all scopes that were there before it are the same after it.
-/

namespace CellScript

namespace Store

variable (s : Store)

/-- The scopes of `s` are there in `t` and lie where they did, and in all but the scope `own` the
same names are bound to the same values. -/
structure ScopesKept (own : Option ScopeId) (t : Store) : Prop where
  size : s.scopes.size ≤ t.scopes.size
  same : ∀ i < s.scopes.size, own ≠ some i → t.scopes[i]? = s.scopes[i]?
  outer : ∀ i < s.scopes.size, t.outerOf i = s.outerOf i

/-! ### Scopes after each operation -/

@[simp] theorem size_bind (scope : ScopeId) (name : String) (value : Value) :
    (s.bind scope name value).scopes.size = s.scopes.size := by
  simp [bind]

theorem scope_bind_of_ne {i scope : ScopeId} (h : i ≠ scope) (name : String) (value : Value) :
    (s.bind scope name value).scopes[i]? = s.scopes[i]? := by
  simp [bind, Array.getElem?_modify, Ne.symm h]

/-- Binding a name keeps the links between scopes. -/
theorem outerOf_bind (scope : ScopeId) (name : String) (value : Value) (i : ScopeId) :
    (s.bind scope name value).outerOf i = s.outerOf i := by
  by_cases h : i = scope
  · subst h
    simp only [outerOf, bind, Array.getElem?_modify, if_pos]
    cases s.scopes[i]? <;> rfl
  · simp only [outerOf, s.scope_bind_of_ne h]

@[simp] theorem size_bindAll (scope : ScopeId) (pairs : List (String × Value)) :
    (s.bindAll scope pairs).scopes.size = s.scopes.size := by
  induction pairs generalizing s with
  | nil => rfl
  | cons pair rest ih => rw [bindAll, ih, size_bind]

theorem scope_bindAll_of_ne {i scope : ScopeId} (h : i ≠ scope) (pairs : List (String × Value)) :
    (s.bindAll scope pairs).scopes[i]? = s.scopes[i]? := by
  induction pairs generalizing s with
  | nil => rfl
  | cons pair rest ih => rw [bindAll, ih, s.scope_bind_of_ne h]

@[simp] theorem size_enter (outer : ScopeId) :
    (s.enter outer).2.scopes.size = s.scopes.size + 1 := by
  simp [enter]

theorem scope_enter_of_lt {i : ScopeId} (h : i < s.scopes.size) (outer : ScopeId) :
    (s.enter outer).2.scopes[i]? = s.scopes[i]? := by
  simp [enter, Array.getElem?_push, Nat.ne_of_lt h]

end Store

/-! ### Runs -/

namespace Machine

/-- Since the store `origin`, the machine has been at work in the scope `own` and in scopes that
were made later. -/
structure Confined (origin : Store) (own : Option ScopeId) (m : Machine) : Prop where
  kept : origin.ScopesKept own m.store
  inUse : ∀ i, InUse m.control m.frames i → own = some i ∨ origin.scopes.size ≤ i

namespace Confined

variable {origin : Store} {own : Option ScopeId} {m m' : Machine} {limit : Nat}

theorem start (control : Control) : Confined origin control.scope? ⟨control, [], origin⟩ where
  kept := ⟨Nat.le_refl _, fun _ _ _ => rfl, fun _ _ => rfl⟩
  inUse i hi := by
    rcases hi with h | ⟨frame, hmem, -⟩
    · exact .inl h
    · cases hmem

/-- The scopes are as they were, and no other scope has come into use. -/
theorem of_scopes_eq (h : Confined origin own m) (hs : m'.store.scopes = m.store.scopes)
    (hi : ∀ i, InUse m'.control m'.frames i → InUse m.control m.frames i) :
    Confined origin own m' where
  kept := by
    refine ⟨hs ▸ h.kept.size, ?_, ?_⟩
    · intro i hlt hne
      rw [hs, h.kept.same i hlt hne]
    · intro i hlt
      rw [← h.kept.outer i hlt]
      simp only [Store.outerOf, hs]
  inUse i hu := h.inUse i (hi i hu)

/-- A frame of the machine is gone, and a value or a fault is there. -/
theorem inUse_tail {control control' : Control} {frame : Frame} {frames : List Frame}
    (hcontrol : control'.scope? = none) (i : ScopeId) (hi : InUse control' frames i) :
    InUse control (frame :: frames) i := by
  rcases hi with h | ⟨other, hmem, h⟩
  · rw [hcontrol] at h
    cases h
  · exact .inr ⟨other, List.mem_cons_of_mem frame hmem, h⟩

/-- A name is bound in the scope of a frame. That scope is `own` or was made later. -/
theorem bind {frame : Frame} {frames : List Frame} {s : Store} {value : Value} {scope : ScopeId}
    (h : Confined origin own ⟨.deliver value, frame :: frames, s⟩)
    (hframe : frame.scope? = some scope) (name : String) :
    Confined origin own ⟨.deliver .null, frames, s.bind scope name value⟩ where
  kept := by
    have hscope := h.inUse scope (.inr ⟨frame, List.mem_cons_self, hframe⟩)
    refine ⟨by simpa using h.kept.size, ?_, ?_⟩
    · intro i hlt hne
      have hother : i ≠ scope := by
        rintro rfl
        rcases hscope with hown | hlater
        · exact hne hown
        · omega
      rw [s.scope_bind_of_ne hother]
      exact h.kept.same i hlt hne
    · intro i hlt
      rw [Store.outerOf_bind]
      exact h.kept.outer i hlt
  inUse i hi := h.inUse i (inUse_tail rfl i hi)

/-- A call opens a scope behind all others and binds its arguments there. -/
theorem enter {control : Control} {frames : List Frame} {s : Store} (body : List Stmt)
    (h : Confined origin own ⟨control, frames, s⟩) (outer : ScopeId)
    (pairs : List (String × Value)) (depth : Nat) :
    Confined origin own ⟨.perform body s.scopes.size, .activeCall :: frames,
      { (s.enter outer).2.bindAll s.scopes.size pairs with depth := depth }⟩ := by
  have hsize : origin.scopes.size ≤ s.scopes.size := h.kept.size
  have hold (i : ScopeId) (hlt : i < origin.scopes.size) :
      ((s.enter outer).2.bindAll s.scopes.size pairs).scopes[i]? = s.scopes[i]? := by
    have hi : i < s.scopes.size := Nat.lt_of_lt_of_le hlt hsize
    rw [Store.scope_bindAll_of_ne _ (Nat.ne_of_lt hi), Store.scope_enter_of_lt _ hi]
  refine ⟨⟨?_, ?_, ?_⟩, ?_⟩
  · show origin.scopes.size ≤ ((s.enter outer).2.bindAll s.scopes.size pairs).scopes.size
    rw [Store.size_bindAll, Store.size_enter]
    omega
  · intro i hlt hne
    exact (hold i hlt).trans (h.kept.same i hlt hne)
  · intro i hlt
    have houter := h.kept.outer i hlt
    simp only [Store.outerOf] at houter ⊢
    rw [hold i hlt, houter]
  · rintro i (hi | ⟨frame, hmem, hi⟩)
    · cases hi
      exact .inr hsize
    · rcases List.mem_cons.1 hmem with rfl | hmem
      · cases hi
      · exact h.inUse i (.inr ⟨frame, hmem, hi⟩)

theorem step (h : Confined origin own m) : Confined origin own (m.step limit) := by
  have heffect := effect_step limit m
  generalize m.step limit = m' at heffect
  cases heffect with
  | stays hstays => exact h.of_scopes_eq hstays.store.scopes hstays.inUse
  | binds hframe =>
    rcases hframe with rfl | rfl
    · exact h.bind rfl _
    · exact h.bind rfl _
  | enters _ _ hentered =>
    subst hentered
    exact h.enter _ _ _ _
  | returns => exact h.of_scopes_eq rfl (inUse_tail rfl)
  | fails => exact h.of_scopes_eq rfl (inUse_tail rfl)

end Confined

end Machine

namespace Session

/-- At every moment of an operation all scopes that were there before it are as they were, but for
the scope that the operation works in. -/
theorem scopesKept_of_passes {session : Session} {control : Control} {m : Machine}
    (h : session.Passes control m) : session.store.ScopesKept control.scope? m.store := by
  obtain ⟨n, rfl⟩ := h
  have hconfined : Machine.Confined session.store control.scope?
      ((session.machine control).after session.limit n) :=
    Machine.after_of_step (fun _ h => h.step) (.start control) n
  exact hconfined.kept

theorem scopesKept_of_complete {session : Session} {fuel : Nat} {control : Control}
    {answer : Answer Fault} (h : session.complete fuel control = some answer) :
    session.store.ScopesKept control.scope? answer.session.store := by
  rw [(store_of_complete h).2]
  exact scopesKept_of_passes ⟨fuel, rfl⟩

/-- A call leaves all scopes that were there before it as they were, whether it gives a value or a
fault. An expression, a statement or a body leaves all but its own as they were. This holds at each
moment on the way, so also of what never ends. -/
theorem call_keeps_scopes (session : Session) :
    (∀ fuel callee arguments answer, session.call fuel callee arguments = some answer →
      session.store.ScopesKept none answer.session.store) ∧
    (∀ fuel expression scope answer,
      session.complete fuel (.evaluate expression scope) = some answer →
        session.store.ScopesKept (some scope) answer.session.store) ∧
    (∀ fuel statement scope answer, session.execute fuel scope statement = some answer →
      session.store.ScopesKept (some scope) answer.session.store) ∧
    (∀ fuel body scope answer, session.complete fuel (.perform body scope) = some answer →
      session.store.ScopesKept (some scope) answer.session.store) ∧
    ∀ control m, session.Passes control m → session.store.ScopesKept control.scope? m.store := by
  refine ⟨?_, ?_, ?_, ?_, ?_⟩
  · intro fuel callee arguments answer h
    exact scopesKept_of_complete h
  · intro fuel expression scope answer h
    exact scopesKept_of_complete h
  · intro fuel statement scope answer h
    exact scopesKept_of_complete h
  · intro fuel body scope answer h
    exact scopesKept_of_complete h
  · intro control m h
    exact scopesKept_of_passes h

/-- A function that assigns to a global name and then fails, called and evaluated beside statements
that bind the same name. -/
theorem call_keeps_scopes_assign :
    let assigned : List Stmt := [.assign "x" (.identifier "y"), .expression (.identifier "z")]
    let session : Session :=
      ⟨1, ((Store.initial.bind 0 "x" (.integer 1)).alloc (.function ⟨["y"], assigned, 0⟩)).2⟩
    (∃ answer, session.call 20 (.function 0) [.integer 5] = some answer ∧
      session.store.ScopesKept none answer.session.store) ∧
    (∃ answer, session.complete 20 (.evaluate (.call (.function ["y"] assigned) [.integer 5]) 0) =
      some answer ∧ session.store.ScopesKept (some 0) answer.session.store) ∧
    (∃ answer, session.execute 20 0 (.assign "x" (.integer 2)) = some answer ∧
      session.store.ScopesKept (some 0) answer.session.store) ∧
    (∃ answer, session.complete 20 (.perform assigned 0) = some answer ∧
      session.store.ScopesKept (some 0) answer.session.store) ∧
    session.store.ScopesKept none
      ((session.machine (.apply (.function 0) [.integer 5])).after 1 5).store := by
  intro assigned session
  obtain ⟨hcall, hevaluate, hexecute, hperform, hpasses⟩ := call_keeps_scopes session
  obtain ⟨called, hcalled⟩ := Option.isSome_iff_exists.1
    (show (session.call 20 (.function 0) [.integer 5]).isSome by decide +kernel)
  obtain ⟨evaluated, hevaluated⟩ := Option.isSome_iff_exists.1
    (show (session.complete 20
      (.evaluate (.call (.function ["y"] assigned) [.integer 5]) 0)).isSome by decide +kernel)
  obtain ⟨executed, hexecuted⟩ := Option.isSome_iff_exists.1
    (show (session.execute 20 0 (.assign "x" (.integer 2))).isSome by decide +kernel)
  obtain ⟨performed, hperformed⟩ := Option.isSome_iff_exists.1
    (show (session.complete 20 (.perform assigned 0)).isSome by decide +kernel)
  exact ⟨⟨called, hcalled, hcall _ _ _ _ hcalled⟩,
    ⟨evaluated, hevaluated, hevaluate _ _ _ _ hevaluated⟩,
    ⟨executed, hexecuted, hexecute _ _ _ _ hexecuted⟩,
    ⟨performed, hperformed, hperform _ _ _ _ hperformed⟩,
    hpasses (.apply (.function 0) [.integer 5]) _ ⟨5, rfl⟩⟩

end Session

end CellScript
