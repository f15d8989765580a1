import CellScript.Proofs.BesideCells
import CellScript.Proofs.CodeKept
import CellScript.Proofs.ScopeIsolation

/-!
Names that a program does not use.

A machine whose code does not mention a name runs in step with the machine that has the name bound
in the global scope as well: after each step the two stores differ in that binding and in nothing
else. So a global binding that a program does not mention has no effect on what it comes to, on what
it prints and on what it binds.
-/

namespace CellScript

open Std

/-! ### Stores with another global binding -/

namespace Store

/-- The store with a name bound in the global scope as well. -/
def withGlobal (z : String) (w : Value) (s : Store) : Store := s.bind globalScope z w

/-- The scopes of a store with a name bound in the first one as well. -/
def bindGlobal (z : String) (w : Value) (scopes : Array Scope) : Array Scope :=
  scopes.modify globalScope fun here => { here with bindings := here.bindings.insert z w }

variable (s : Store) (z : String) (w : Value)

theorem render_withGlobal (value : Value) :
    (s.withGlobal z w).render value = s.render value :=
  s.render_beside (bindGlobal z w) id value

theorem outerOf_withGlobal (i : ScopeId) : (s.withGlobal z w).outerOf i = s.outerOf i :=
  s.outerOf_bind globalScope z w i

variable {z} {name : String} (hname : name ≠ z)

include hname

theorem find?_withGlobal (i : ScopeId) :
    ((s.withGlobal z w).bindingsOf i).find? name = (s.bindingsOf i).find? name := by
  by_cases hi : i = globalScope
  · subst hi
    simp only [bindingsOf, withGlobal, bind, Array.getElem?_modify, if_pos]
    cases s.scopes[globalScope]? with
    | none => rfl
    | some here => exact here.bindings.find?_insert_of_ne hname w
  · simp only [bindingsOf, withGlobal, s.scope_bind_of_ne hi]

theorem lookup_withGlobal (i : ScopeId) :
    (s.withGlobal z w).lookup i name = s.lookup i name :=
  lookup_congr (s.find?_withGlobal w hname) (s.outerOf_withGlobal z w) i

theorem bind_withGlobal (i : ScopeId) (value : Value) :
    (s.withGlobal z w).bind i name value = (s.bind i name value).withGlobal z w := by
  have hscopes : ((s.withGlobal z w).bind i name value).scopes =
      ((s.bind i name value).withGlobal z w).scopes := by
    refine Array.ext_getElem? fun j => ?_
    simp only [withGlobal, bind, Array.getElem?_modify]
    by_cases hi : i = j
    · subst hi
      by_cases hglobal : globalScope = i
      · subst hglobal
        simp only [if_pos, Option.map_map]
        refine congrArg (Option.map · _) (funext fun here => ?_)
        simp only [Function.comp_apply, here.bindings.insert_comm hname w value]
      · simp only [if_neg hglobal]
    · simp only [if_neg hi]
  exact congrArg (fun scopes => { s with scopes := scopes }) hscopes

omit hname in
theorem enter_withGlobal (h : 0 < s.scopes.size) (outer : ScopeId) :
    (s.withGlobal z w).enter outer = ((s.enter outer).1, (s.enter outer).2.withGlobal z w) := by
  have hscopes : ((s.withGlobal z w).enter outer).2.scopes =
      ((s.enter outer).2.withGlobal z w).scopes := by
    refine Array.ext_getElem? fun j => ?_
    simp only [withGlobal, bind, enter, Array.getElem?_modify, Array.getElem?_push,
      Array.size_modify, globalScope]
    by_cases hj : j = s.scopes.size
    · subst hj
      simp only [if_neg (Nat.ne_of_lt h), if_pos]
    · simp only [if_neg hj]
  refine Prod.ext (size_bind s globalScope z w) ?_
  exact congrArg (fun scopes => { s with scopes := scopes }) hscopes

end Store

/-- The outcome with a name bound in the global scope of its store as well. -/
def Outcome.withGlobal (z : String) (w : Value) (o : Outcome) : Outcome :=
  { o with store := o.store.withGlobal z w }

/-! ### Code that does not mention a name -/

/-- The node is not the name, and no parameter is called so. -/
def Expr.omits (z : String) : Expr → Bool
  | .identifier name => name != z
  | .function parameters _ => parameters.all (· != z)
  | _ => true

/-- The statement does not bind the name. -/
def Stmt.omits (z : String) : Stmt → Bool
  | .declare name _ | .assign name _ => name != z
  | _ => true

/-- The program does not mention the name: it neither uses nor binds it, and has no parameter of
that name. -/
def Program.omits (z : String) (p : Program) : Bool :=
  everyStmt (Expr.omits z) (Stmt.omits z) p.statements

/-! ### Machines in step -/

namespace Machine

/-- The machine with a name bound in the global scope of its store as well. -/
def withGlobal (z : String) (w : Value) (m : Machine) : Machine :=
  { m with store := m.store.withGlobal z w }

/-- No code of the machine mentions the name, and there is a global scope. -/
structure Omits (z : String) (m : Machine) : Prop where
  code : m.CodeEvery (Expr.omits z) (Stmt.omits z)
  global : 0 < m.store.scopes.size

theorem passive_bindGlobal (z : String) (w : Value) :
    Passive (Store.bindGlobal z w) id (· ≠ z) where
  lookup hname s scope := s.lookup_withGlobal w hname scope
  bind hname s scope value := s.bind_withGlobal w hname scope value
  prints _ _ := rfl

/-- Code that does not mention a name neither looks it up nor binds it. -/
theorem Omits.nextNames {z : String} {m : Machine} (h : m.Omits z) :
    ∀ name ∈ m.nextNames, name ≠ z := by
  obtain ⟨control, frames, s⟩ := m
  obtain ⟨⟨hs, hcontrol, hframes⟩, -⟩ := h
  intro name hname
  unfold Machine.nextNames at hname
  split at hname
  · next here scope hc =>
    cases hc
    rw [List.mem_singleton] at hname
    subst hname
    simpa [Control.every, Expr.every, Expr.omits] using hcontrol
  · next scope rest hc hf =>
    cases hf
    rw [List.mem_singleton] at hname
    subst hname
    obtain ⟨_, hfine⟩ := (hframes _ List.mem_cons_self).declares name scope rfl
    simpa [Stmt.omits] using hfine
  · next scope rest hc hf =>
    cases hf
    rw [List.mem_singleton] at hname
    subst hname
    obtain ⟨_, hfine⟩ := (hframes _ List.mem_cons_self).assigns name scope rfl
    simpa [Stmt.omits] using hfine
  · next a _ hc =>
    have hclosure : (s.closureAt a).Every (Expr.omits z) (Stmt.omits z) := hs.closureAt rfl a
    simp only [Closure.Every, Expr.every, Expr.omits, Bool.and_eq_true, List.all_eq_true,
      bne_iff_ne] at hclosure
    exact hclosure.1 name hname
  · cases hname

theorem step_withGlobal {z : String} {m : Machine} (h : m.Omits z) (w : Value) (limit : Nat) :
    (m.withGlobal z w).step limit = (m.step limit).withGlobal z w :=
  step_beside (passive_bindGlobal z w) h.nextNames (m.store.enter_withGlobal w h.global) limit

theorem scopes_size_le_step (limit : Nat) (m : Machine) :
    m.store.scopes.size ≤ (m.step limit).store.scopes.size := by
  have heffect := effect_step limit m
  generalize m.step limit = m' at heffect
  cases heffect with
  | stays hstays => rw [hstays.store.scopes]
  | binds hframe => rw [Store.size_bind]
  | enters harity hdepth hentered =>
    subst hentered
    show _ ≤ (Store.bindAll _ _ _).scopes.size
    rw [Store.size_bindAll, Store.size_enter]
    exact Nat.le_succ _
  | returns | fails => exact Nat.le_refl _

theorem Omits.step {z : String} {m : Machine} (h : m.Omits z) (limit : Nat) :
    (m.step limit).Omits z where
  code := h.code.step rfl limit
  global := Nat.lt_of_lt_of_le h.global (scopes_size_le_step limit m)

theorem after_withGlobal {z : String} {m : Machine} (h : m.Omits z) (w : Value) (limit n : Nat) :
    (m.withGlobal z w).after limit n = (m.after limit n).withGlobal z w := by
  induction n with
  | zero => rfl
  | succ n ih =>
    have homits : (m.after limit n).Omits z := after_of_step (fun _ hm => hm.step limit) h n
    rw [after, ih, step_withGlobal homits]
    rfl

theorem outcome?_withGlobal (z : String) (w : Value) (m : Machine) :
    (m.withGlobal z w).outcome? = m.outcome?.map (Outcome.withGlobal z w) :=
  outcome?_beside (Store.bindGlobal z w) id m

theorem omits_start {z : String} {p : Program} (h : p.omits z = true) : (start p).Omits z where
  code := .start h .initial
  global := Nat.one_pos

/-- A binding of an integer, with or without a sign, takes a few steps. -/
theorem after_declare {n : Int64} {literal : Expr}
    (hliteral : literal = .integer n ∨ literal = .unary .negate (.integer (-n))) (z : String)
    (limit : Nat) (scope : ScopeId) (frames : List Frame) (s : Store) :
    ∃ k, (Machine.mk (.execute (.declare z literal) scope) frames s).after limit k =
      ⟨.deliver .null, frames, s.bind scope z (.integer n)⟩ := by
  rcases hliteral with rfl | rfl
  · exact ⟨3, rfl⟩
  · have hvalue : s.bind scope z (.integer n) = s.bind scope z (.integer (- -n)) := by
      rw [Int64.neg_neg]
    rw [hvalue]
    exact ⟨5, rfl⟩

end Machine

/-! ### Sessions -/

/-- The answer with a name bound in the global scope of its session as well. -/
def Answer.withGlobal (z : String) (w : Value) (answer : Answer Fault) : Answer Fault :=
  { answer with
    session := { answer.session with store := answer.session.store.withGlobal z w } }

/-- The answers can be told apart by the name `z` alone: both have the same value or the same fault,
values have the same texts, the same has been printed, and all other names are bound to the same
values in the global scope. -/
structure Answer.Alike (z : String) (answer other : Answer Fault) : Prop where
  result : other.result = answer.result
  texts : ∀ value, other.session.store.render value = answer.session.store.render value
  output : other.session.store.output = answer.session.store.output
  bindings : (other.session.bindings Store.globalScope).filter (fun entry => entry.1 ≠ z) =
    (answer.session.bindings Store.globalScope).filter fun entry => entry.1 ≠ z

theorem Answer.alike_withGlobal (z : String) (w : Value) (answer : Answer Fault) :
    answer.Alike z (answer.withGlobal z w) where
  result := rfl
  texts value := answer.session.store.render_withGlobal z w value
  output := rfl
  bindings := by
    simp only [Session.bindings, Answer.withGlobal, Store.withGlobal, Store.bind,
      Store.bindingsOf, Array.getElem?_modify, if_pos]
    cases answer.session.store.scopes[Store.globalScope]? with
    | none => rfl
    | some here => exact here.bindings.filter_insert z w

namespace Session

theorem rel_map {R : Answer Fault → Answer Fault → Prop} {f : Answer Fault → Answer Fault}
    (h : ∀ answer, R answer (f answer)) (o : Option (Answer Fault)) : Option.Rel R o (o.map f) := by
  cases o with
  | none => exact .none
  | some answer => exact .some (h answer)

theorem run_withGlobal {z : String} {p : Program} (h : p.omits z = true) (w : Value)
    (limit fuel : Nat) :
    (Session.mk limit (Store.initial.withGlobal z w)).run fuel p =
      ((Session.start limit).run fuel p).map (Answer.withGlobal z w) := by
  have hafter := Machine.after_withGlobal (Machine.omits_start h) w limit fuel
  have hend := congrArg Machine.outcome? hafter
  rw [Machine.outcome?_withGlobal] at hend
  rw [run_eq, run_eq, Option.map_map]
  refine (congrArg (Option.map _) hend).trans ?_
  rw [Option.map_map]
  rfl

section Declaration

variable {z : String} {n : Int64} {literal : Expr}
  (hliteral : literal = .integer n ∨ literal = .unary .negate (.integer (-n)))

include hliteral

/-- A program that begins with a declaration goes on as its rest does with the name bound. -/
theorem run_declare (limit : Nat) (rest : List Stmt) :
    ∃ steps, ∀ fuel, (Session.start limit).run (fuel + steps) ⟨.declare z literal :: rest⟩ =
      (Session.mk limit (Store.initial.withGlobal z (.integer n))).run fuel ⟨rest⟩ := by
  obtain ⟨k, hk⟩ := Machine.after_declare hliteral z limit Store.globalScope
    [.block rest Store.globalScope] .initial
  refine ⟨k + 1, fun fuel => ?_⟩
  have hdeclared : (Machine.start ⟨.declare z literal :: rest⟩).after limit (k + 1) =
      ⟨.deliver .null, [.block rest Store.globalScope],
        Store.initial.withGlobal z (.integer n)⟩ := by
    rw [Machine.after_succ]
    exact hk
  rw [run_eq, run_eq]
  refine congrArg (Option.map _) ?_
  show ((Machine.start ⟨.declare z literal :: rest⟩).after limit (fuel + (k + 1))).outcome? =
    (((Machine.start ⟨rest⟩).withGlobal z (.integer n)).after limit fuel).outcome?
  rw [Nat.add_comm, Machine.after_add, hdeclared]
  cases fuel with
  | zero => rfl
  | succ fuel =>
    -- What waits for the rest begins with it as the rest itself does.
    rw [Machine.after_succ, Machine.after_succ]
    cases rest <;> rfl

theorem run_declaration (limit : Nat) :
    ∃ steps, ∀ fuel ≥ steps, (Session.start limit).run fuel ⟨[.declare z literal]⟩ =
      some ⟨.ok .null, ⟨limit, Store.initial.withGlobal z (.integer n)⟩⟩ := by
  obtain ⟨k, hk⟩ := run_declare (z := z) hliteral limit []
  refine ⟨k + 1, fun fuel hfuel => ?_⟩
  obtain ⟨j, rfl⟩ : ∃ j, fuel = j + 1 + k := ⟨fuel - (k + 1), by omega⟩
  rw [hk, run_eq, Machine.after_succ]
  exact congrArg (fun m => (Machine.outcome? m).map _) (Machine.after_of_outcome? rfl limit j)

end Declaration

/-- A global binding of an integer to a name that a program does not mention has no effect on the
program, whether it is made by a program before it or by a first statement. -/
theorem unused_binding_invisible (limit : Nat) {z : String} {p : Program} (h : p.omits z = true)
    {n : Int64} {literal : Expr}
    (hliteral : literal = .integer n ∨ literal = .unary .negate (.integer (-n))) :
    (∃ declared steps,
      (∀ fuel ≥ steps, (Session.start limit).run fuel ⟨[.declare z literal]⟩ = some declared) ∧
        declared.result = .ok .null ∧
        ∀ fuel, Option.Rel (Answer.Alike z) ((Session.start limit).run fuel p)
          (declared.session.run fuel p)) ∧
    ∃ steps, ∀ fuel, Option.Rel (Answer.Alike z) ((Session.start limit).run fuel p)
      ((Session.start limit).run (fuel + steps) ⟨.declare z literal :: p.statements⟩) := by
  have halike (fuel : Nat) : Option.Rel (Answer.Alike z) ((Session.start limit).run fuel p)
      ((Session.mk limit (Store.initial.withGlobal z (.integer n))).run fuel p) := by
    rw [run_withGlobal h]
    exact rel_map (Answer.alike_withGlobal z (.integer n)) _
  constructor
  · obtain ⟨steps, hdeclared⟩ := run_declaration (z := z) hliteral limit
    exact ⟨_, steps, hdeclared, rfl, halike⟩
  · obtain ⟨steps, hdeclared⟩ := run_declare (z := z) hliteral limit p.statements
    refine ⟨steps, fun fuel => ?_⟩
    rw [hdeclared]
    exact halike fuel

/-- A program that calls a function of its own and a built-in one, after the name of another
built-in function has been bound. -/
theorem unused_binding_invisible_len :
    let p : Program := ⟨[.declare "g" (.function ["a"]
        [.giveBack (some (.binary (.identifier "a") .add (.integer 1)))]),
      .expression (.call (.identifier "print") [.call (.identifier "g") [.integer 2]])]⟩
    let literal : Expr := .unary .negate (.integer 7)
    p.omits "len" = true ∧ ((Session.start 1).run 40 p).isSome = true ∧
    (∃ declared steps,
      (∀ fuel ≥ steps, (Session.start 1).run fuel ⟨[.declare "len" literal]⟩ = some declared) ∧
        declared.result = .ok .null ∧
        ∀ fuel, Option.Rel (Answer.Alike "len") ((Session.start 1).run fuel p)
          (declared.session.run fuel p)) ∧
    ∃ steps, ∀ fuel, Option.Rel (Answer.Alike "len") ((Session.start 1).run fuel p)
      ((Session.start 1).run (fuel + steps) ⟨.declare "len" literal :: p.statements⟩) := by
  intro p literal
  have homits : p.omits "len" = true := by decide +kernel
  have hruns : ((Session.start 1).run 40 p).isSome = true := by decide +kernel
  exact ⟨homits, hruns, unused_binding_invisible 1 homits (n := -7) (.inr rfl)⟩

end Session

end CellScript
