import CellScript.Proofs.CanonicalReader
import CellScript.Proofs.CodeKept
import CellScript.Proofs.CyclicRendering

/-!
The keys of functions.

Maps and sets file a function under its text, and the text of a function is the canonical text of
its code. All code that comes from source texts can be written, and canonical text tells apart what
can be written. So two functions have the same key exactly if they have the same parameters and the
same body. The scopes in which they were made play no part.
-/

namespace CellScript

/-! ### Code that comes from source texts -/

/-- What a session can be told to run: a program that has been read from a source text, one of its
statements, or the call of a value. -/
inductive Control.FromSource : Control → Prop
  | program {source : String} {p : Program} (h : Program.parse source = .ok p) (scope : ScopeId) :
      FromSource (.perform p.statements scope)
  | statement {source : String} {p : Program} (h : Program.parse source = .ok p) {s : Stmt}
      (hs : s ∈ p.statements) (scope : ScopeId) : FromSource (.execute s scope)
  | call (callee : Value) (arguments : List Value) : FromSource (.apply callee arguments)

/-- The sessions that come about from a fresh one by code that has been read from source texts,
whatever it ends with, and by the operations in between. -/
inductive Session.FromSources (limit : Nat) : Session → Prop
  | start : FromSources limit (.start limit)
  | complete {s : Session} {fuel : Nat} {control : Control} {answer : Answer Fault} :
      FromSources limit s → control.FromSource → s.complete fuel control = some answer →
        FromSources limit answer.session
  | enter {s : Session} (outer : ScopeId) :
      FromSources limit s → FromSources limit { s with store := (s.store.enter outer).2 }
  | bind {s : Session} (scope : ScopeId) (name : String) (value : Value) :
      FromSources limit s → FromSources limit { s with store := s.store.bind scope name value }
  | clear {s : Session} (scope : ScopeId) :
      FromSources limit s → FromSources limit { s with store := s.store.clear scope }
  | takeOutput {s : Session} : FromSources limit s → FromSources limit s.takeOutput.2
  | reset {s : Session} : FromSources limit s → FromSources limit s.reset

/-- The machine comes up while a session runs code that has been read from source texts. -/
def Machine.FromSources (limit : Nat) (m : Machine) : Prop :=
  ∃ (session : Session) (control : Control),
    session.FromSources limit ∧ control.FromSource ∧ session.Passes control m

theorem everyStmt_of_writable {body : List Stmt} (h : ∀ s ∈ body, s.writable = true) :
    everyStmt Expr.plain Stmt.plain body = true := by
  rw [everyStmt_eq_all]
  exact List.all_eq_true.2 h

/-- What has been read can be written. -/
theorem Control.FromSource.writable {control : Control} (h : control.FromSource) :
    control.every Expr.plain Stmt.plain = true := by
  cases h with
  | program h scope => exact (Program.senses_of_parse h).1
  | statement h hs scope =>
    have hwritable := (Program.senses_of_parse h).1
    rw [Program.writable, everyStmt_eq_all] at hwritable
    exact List.all_eq_true.1 hwritable _ hs
  | call => rfl

/-- What is bound in scopes is no matter if nothing is asked of values. -/
theorem Store.All.of_cells_eq {F : Closure → Prop} {s t : Store} (h : s.All (fun _ => True) F)
    (hcells : t.cells = s.cells) : t.All (fun _ => True) F where
  cells _ _ hcell := h.cells (hcells ▸ hcell)
  bound _ _ _ _ _ := trivial

theorem Machine.codeEvery_of_passes {session : Session} {control : Control} {m : Machine}
    (hs : session.store.All (fun _ => True) (Closure.Every Expr.plain Stmt.plain))
    (hcontrol : control.FromSource) (h : session.Passes control m) :
    m.CodeEvery Expr.plain Stmt.plain := by
  obtain ⟨n, rfl⟩ := h
  exact (CodeEvery.start hcontrol.writable hs).after rfl session.limit n

theorem Session.FromSources.closures {limit : Nat} {session : Session}
    (h : session.FromSources limit) :
    session.store.All (fun _ => True) (Closure.Every Expr.plain Stmt.plain) := by
  induction h with
  | start => exact .initial
  | complete _ hcontrol hanswer ih =>
    obtain ⟨-, hsession⟩ := Session.store_of_complete hanswer
    rw [hsession]
    exact (Machine.codeEvery_of_passes ih hcontrol ⟨_, rfl⟩).store
  | enter outer _ ih => exact ih.of_cells_eq rfl
  | bind scope name value _ ih => exact ih.of_cells_eq rfl
  | clear scope _ ih => exact ih.of_cells_eq rfl
  | takeOutput _ ih => exact ih.of_cells_eq rfl
  | reset _ ih => exact ih.of_cells_eq rfl

/-- The code of every function that a machine holds can be written. -/
theorem Machine.FromSources.closureAt {limit : Nat} {m : Machine} (h : m.FromSources limit)
    (a : Address) : (m.store.closureAt a).Every Expr.plain Stmt.plain := by
  obtain ⟨session, control, hsession, hcontrol, hpasses⟩ := h
  exact (codeEvery_of_passes hsession.closures hcontrol hpasses).store.closureAt rfl a

/-! ### Keys -/

theorem Store.key_function (s : Store) (a : Address) :
    s.key (.function a) =
      ⟨.function, (Expr.function (s.closureAt a).parameters (s.closureAt a).body).render⟩ := by
  rw [key, render, s.run_write_plain rfl, Expr.render]
  rfl

/-- Functions that come from source texts have the same key exactly if they have the same parameters
and the same body, also if they live in different sessions. For what can be read can be written, and
expressions, statements and blocks that can be written are told apart by their canonical texts,
whatever their conditions look like. -/
theorem function_keys_eq_iff :
    (∀ {limit limit' : Nat} {m m' : Machine}, m.FromSources limit → m'.FromSources limit' →
      ∀ a a' : Address, m.store.key (.function a) = m'.store.key (.function a') ↔
        (m.store.closureAt a).parameters = (m'.store.closureAt a').parameters ∧
          (m.store.closureAt a).body = (m'.store.closureAt a').body) ∧
    (∀ {source : String} {p : Program}, Program.parse source = .ok p → p.writable = true) ∧
    (∀ {e e' : Expr}, e.writable = true → e'.writable = true →
      (e.render = e'.render ↔ e = e')) ∧
    (∀ {s s' : Stmt}, s.writable = true → s'.writable = true →
      (s.render = s'.render ↔ s = s')) ∧
    ∀ {body body' : List Stmt}, (∀ s ∈ body, s.writable = true) →
      (∀ s ∈ body', s.writable = true) → (renderBlock body = renderBlock body' ↔ body = body') := by
  refine ⟨?_, fun h => (Program.senses_of_parse h).1, Expr.render_inj, Stmt.render_inj, ?_⟩
  · intro limit limit' m m' hm hm' a a'
    rw [Store.key_function, Store.key_function, Key.mk.injEq]
    simp only [true_and]
    exact Expr.render_function_inj (hm.closureAt a) (hm'.closureAt a')
  · intro body body' h h'
    exact renderBlock_inj (everyStmt_of_writable h) (everyStmt_of_writable h')

/-- The first two functions have the same code, though they are spelled differently. The conditions
are names, and so their parentheses are not in the canonical text. In the texts of `e` and `e'` the
condition is itself an `if`, and the `else` belongs to the outer or to the inner one. -/
theorem function_keys_eq_iff_condition :
    let source := "def(x) \x7b if (x) \x7b 1 \x7d \x7d; " ++
      "def(x,) \x7b if ((x)) \x7b 01; \x7d; \x7d; def(x) \x7b while (x) \x7b 1 \x7d \x7d"
    let p : Program :=
      ⟨[.expression (.function ["x"]
          [.expression (.conditional (.identifier "x") [.expression (.integer 1)] none)]),
        .expression (.function ["x"]
          [.expression (.conditional (.identifier "x") [.expression (.integer 1)] none)]),
        .expression (.function ["x"]
          [.expression (.loop (.identifier "x") [.expression (.integer 1)])])]⟩
    let m := ((Session.start 1).machine (.perform p.statements Store.globalScope)).after 1 12
    let e : Expr := .conditional (.conditional (.identifier "x") [] none) [] (some [])
    let e' : Expr := .conditional (.conditional (.identifier "x") [] (some [])) [] none
    Program.parse source = .ok p ∧ p.writable = true ∧ m.store.cells.size = 3 ∧
    m.store.key (.function 0) = m.store.key (.function 1) ∧
    m.store.key (.function 0) ≠ m.store.key (.function 2) ∧
    e.render ≠ e'.render ∧ (Stmt.expression e).render ≠ (Stmt.expression e').render ∧
    renderBlock [.expression e] ≠ renderBlock [.expression e'] := by
  intro source p m e e'
  have hparse : Program.parse source = .ok p :=
    Program.parse_of_renderBlock (by decide) (by decide +kernel)
  have hm : m.FromSources 1 := ⟨.start 1, _, .start, .program hparse _, 12, rfl⟩
  obtain ⟨hkeys, hread, hexprs, hstmts, hblocks⟩ := function_keys_eq_iff
  have hne : e ≠ e' := by simp [e, e']
  refine ⟨hparse, hread hparse, by decide +kernel, (hkeys hm hm 0 1).2 ⟨rfl, rfl⟩, ?_, ?_, ?_, ?_⟩
  · intro heq
    have hbody := ((hkeys hm hm 0 2).1 heq).2
    cases hbody
  · intro heq
    exact hne ((hexprs (by decide) (by decide)).1 heq)
  · intro heq
    exact hne (Stmt.expression.inj ((hstmts (by decide) (by decide)).1 heq))
  · intro heq
    have hbody := (hblocks (by decide) (by decide)).1 heq
    exact hne (Stmt.expression.inj (List.cons.inj hbody).1)

end CellScript
