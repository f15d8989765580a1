import CellScript.Proofs.CodeKeys
import CellScript.Proofs.UnusedNames
import Mathlib.Logic.Relation

/-!
Chains of scopes.

A scope is made inside one that is there, by a call or by whoever uses the session, and the link to
that one never changes. A function keeps the scope that it was made in, and that scope is there as
long as the function is. So the links lead to ever older scopes, each chain of them ends, and the
innermost binding of a name is found along the chain. Scopes and functions refer to each other in
circles; it is the links between scopes alone that do not.
-/

namespace CellScript

/-! ### Chains -/

namespace Store

variable (s : Store)

/-- The scopes from one outward, to the one that has none around it. -/
inductive Chain : ScopeId → List ScopeId → Prop
  | outermost {scope : ScopeId} (h : s.outerOf scope = none) : Chain scope [scope]
  | inside {scope outer : ScopeId} {rest : List ScopeId} (h : s.outerOf scope = some outer)
      (hrest : Chain outer rest) : Chain scope (scope :: rest)

/-- What a name is bound to, with a fault for a name that is not bound. -/
def get (scope : ScopeId) (name : String) : Except Fault Value :=
  match s.lookup scope name with
  | some value => .ok value
  | none => .error (.identifierNotFound name)

/-- Every scope lies in an older one or in none. -/
def LinksOutward : Prop := ∀ i outer, s.outerOf i = some outer → outer < i

/-- Looking names up makes sense: chains are finite, they are what is searched, and the ways to ask
for a name agree. -/
structure Coherent (s : Store) : Prop where
  older : s.LinksOutward
  wellFounded : WellFounded fun outer i => s.outerOf i = some outer
  /-- The recursion along the links needs no check that it goes on. -/
  lookup_eq : ∀ scope name, s.lookup scope name =
    ((s.bindingsOf scope).find? name).or ((s.outerOf scope).bind fun outer => s.lookup outer name)
  resolves_eq : ∀ scope name, s.resolves scope name =
    ((s.bindingsOf scope).contains name || (s.outerOf scope).any fun outer => s.resolves outer name)
  /-- A name is found in the first scope of the chain that binds it. -/
  innermost : ∀ scope, ∃ chain, s.Chain scope chain ∧ chain.Pairwise (· > ·) ∧ ∀ name,
    s.lookup scope name = chain.findSome? fun i => (s.bindingsOf i).find? name
  lookup_iff : ∀ scope name,
    s.resolves scope name = true ↔ ∃ value, s.lookup scope name = some value
  get_iff : ∀ scope name, s.resolves scope name = true ↔ ∃ value, s.get scope name = .ok value

variable {s} {scope : ScopeId} {chain : List ScopeId} {name : String}

theorem lookup_of_links (h : s.LinksOutward) (scope : ScopeId) (name : String) :
    s.lookup scope name = ((s.bindingsOf scope).find? name).or
      ((s.outerOf scope).bind fun outer => s.lookup outer name) := by
  rw [lookup]
  cases (s.bindingsOf scope).find? name with
  | some value => rfl
  | none =>
    cases houter : s.outerOf scope with
    | none => rfl
    | some outer => exact if_pos (h scope outer houter)

theorem resolves_of_links (h : s.LinksOutward) (scope : ScopeId) (name : String) :
    s.resolves scope name =
      ((s.bindingsOf scope).contains name ||
        (s.outerOf scope).any fun outer => s.resolves outer name) := by
  rw [resolves]
  cases houter : s.outerOf scope with
  | none => rfl
  | some outer =>
    simp only [if_pos (h scope outer houter)]
    rfl

theorem exists_chain (h : s.LinksOutward) (scope : ScopeId) : ∃ chain, s.Chain scope chain := by
  induction scope using Nat.strongRecOn with
  | ind scope ih =>
    cases houter : s.outerOf scope with
    | none => exact ⟨_, .outermost houter⟩
    | some outer =>
      obtain ⟨rest, hrest⟩ := ih outer (h scope outer houter)
      exact ⟨_, .inside houter hrest⟩

/-- A chain goes on to ever older scopes. -/
theorem Chain.descends (hchain : s.Chain scope chain) (h : s.LinksOutward) :
    (∀ i ∈ chain, i ≤ scope) ∧ chain.Pairwise (· > ·) := by
  induction hchain with
  | outermost => simp
  | @inside scope outer rest houter _ ih =>
    have hlt := h scope outer houter
    refine ⟨?_, List.pairwise_cons.2 ⟨fun i hi => ?_, ih.2⟩⟩
    · intro i hi
      rcases List.mem_cons.1 hi with rfl | hi
      · exact Nat.le_refl _
      · exact Nat.le_trans (ih.1 i hi) (Nat.le_of_lt hlt)
    · exact Nat.lt_of_le_of_lt (ih.1 i hi) hlt

theorem Chain.lookup_eq (hchain : s.Chain scope chain) (h : s.LinksOutward) (name : String) :
    s.lookup scope name = chain.findSome? fun i => (s.bindingsOf i).find? name := by
  induction hchain with
  | @outermost scope houter =>
    rw [lookup_of_links h, houter, List.findSome?_cons]
    cases (s.bindingsOf scope).find? name <;> rfl
  | @inside scope outer rest houter _ ih =>
    rw [lookup_of_links h, houter, List.findSome?_cons, ← ih]
    cases (s.bindingsOf scope).find? name <;> rfl

/-- Asking whether a name is bound goes the same way as looking it up. -/
theorem resolves_eq_isSome (s : Store) (scope : ScopeId) (name : String) :
    s.resolves scope name = (s.lookup scope name).isSome := by
  induction scope using Nat.strongRecOn with
  | ind scope ih =>
    rw [resolves, lookup, OrderedMap.contains]
    cases (s.bindingsOf scope).find? name with
    | some value => rfl
    | none =>
      cases houter : s.outerOf scope with
      | none => rfl
      | some outer =>
        by_cases hlt : outer < scope
        · simp only [if_pos hlt, ih outer hlt, Option.isSome_none, Bool.false_or]
        · simp only [if_neg hlt, Option.isSome_none, Bool.false_or]

theorem get_eq_ok {value : Value} :
    s.get scope name = .ok value ↔ s.lookup scope name = some value := by
  unfold get
  cases s.lookup scope name <;> simp

theorem coherent_of_links (h : s.LinksOutward) : s.Coherent where
  older := h
  wellFounded := Subrelation.wf (h _ _) Nat.lt_wfRel.wf
  lookup_eq := lookup_of_links h
  resolves_eq := resolves_of_links h
  innermost scope := by
    obtain ⟨chain, hchain⟩ := exists_chain h scope
    exact ⟨chain, hchain, (hchain.descends h).2, hchain.lookup_eq h⟩
  lookup_iff scope name := by
    rw [resolves_eq_isSome, Option.isSome_iff_exists]
  get_iff scope name := by
    simp only [get_eq_ok]
    rw [resolves_eq_isSome, Option.isSome_iff_exists]

end Store

/-! ### Stores whose links lead outward -/

/-- The store has a scope, its scopes lie in older ones, and every function was made in a scope that
is there. -/
structure Store.Nests (s : Store) : Prop where
  global : 0 < s.scopes.size
  outward : s.LinksOutward
  captured : s.All (fun _ => True) fun closure => closure.scope < s.scopes.size

namespace Store

theorem All.captured_mono {s : Store} {n m : Nat}
    (h : s.All (fun _ => True) fun closure => closure.scope < n) (hle : n ≤ m) :
    s.All (fun _ => True) fun closure => closure.scope < m where
  cells a cell hcell := by
    have hall := h.cells hcell
    cases cell
    case function closure => exact Nat.lt_of_lt_of_le hall hle
    all_goals exact hall
  bound := h.bound

theorem LinksOutward.congr {s t : Store} (h : s.LinksOutward)
    (hlinks : ∀ i, t.outerOf i = s.outerOf i) : t.LinksOutward :=
  fun i outer hi => h i outer (hlinks i ▸ hi)

/-- The scope that has been made last lies in the one that it was made in. -/
theorem outerOf_enter (s : Store) (outer i : ScopeId) :
    (s.enter outer).2.outerOf i = if i = s.scopes.size then some outer else s.outerOf i := by
  simp only [outerOf, enter, Array.getElem?_push]
  by_cases hi : i = s.scopes.size <;> simp [hi]

theorem LinksOutward.enter {s : Store} (h : s.LinksOutward) {outer : ScopeId}
    (houter : outer < s.scopes.size) : (s.enter outer).2.LinksOutward := by
  intro i found hi
  rw [outerOf_enter] at hi
  split at hi
  · next hsize =>
    cases hi
    exact hsize ▸ houter
  · exact h i found hi

theorem outerOf_bindAll (s : Store) (scope : ScopeId) (pairs : List (String × Value))
    (i : ScopeId) : (s.bindAll scope pairs).outerOf i = s.outerOf i := by
  induction pairs generalizing s with
  | nil => rfl
  | cons pair rest ih => rw [bindAll, ih, outerOf_bind]

theorem outerOf_clear (s : Store) (scope i : ScopeId) :
    (s.clear scope).outerOf i = s.outerOf i := by
  simp only [outerOf, clear, Array.getElem?_modify]
  by_cases h : scope = i
  · rw [if_pos h]
    cases s.scopes[i]? <;> rfl
  · rw [if_neg h]

theorem nests_initial : Store.initial.Nests where
  global := by decide
  outward i outer h := by cases i <;> simp [outerOf, initial] at h
  captured := .initial

/-- No scope is new and no link has changed. -/
theorem Nests.congr {s t : Store} (h : s.Nests) (hsize : t.scopes.size = s.scopes.size)
    (hlinks : ∀ i, t.outerOf i = s.outerOf i)
    (hcaptured : t.All (fun _ => True) fun closure => closure.scope < s.scopes.size) : t.Nests where
  global := hsize ▸ h.global
  outward := h.outward.congr hlinks
  captured := hsize ▸ hcaptured

theorem Nests.enter {s : Store} (h : s.Nests) {outer : ScopeId} (houter : outer < s.scopes.size) :
    (s.enter outer).2.Nests where
  global := by
    rw [size_enter]
    exact Nat.succ_pos _
  outward := h.outward.enter houter
  captured := by
    rw [size_enter]
    exact (h.captured.captured_mono (Nat.le_succ _)).of_cells_eq rfl

end Store

/-! ### Runs -/

namespace Machine

/-- The links of the store lead outward, and the machine is at work in scopes that are there. -/
structure Nests (m : Machine) : Prop where
  store : m.store.Nests
  inUse : ∀ i, InUse m.control m.frames i → i < m.store.scopes.size

namespace Nests

variable {m : Machine} (h : m.Nests) (limit : Nat)

include h

/-- A function is made in a scope that the machine is at work in. -/
theorem captured_step :
    (m.step limit).store.All (fun _ => True)
      fun closure => closure.scope < m.store.scopes.size := by
  have hkeeps : m.Keeps (fun _ => True) (fun _ => True)
      fun closure => closure.scope < m.store.scopes.size :=
    ⟨h.store.captured, fun _ _ _ _ => trivial, fun _ _ => trivial, fun _ _ => trivial⟩
  refine (hkeeps.step (fun _ _ => trivial) (fun _ _ => trivial) limit (fun _ _ => trivial)
    (fun _ _ => trivial) (fun _ _ _ _ _ _ => trivial) ?_).store
  rintro parameters body scope frames s rfl
  exact h.inUse scope (.inl rfl)

theorem links_step : (m.step limit).store.LinksOutward := by
  have heffect := effect_step limit m
  generalize m.step limit = m' at heffect
  cases heffect with
  | stays hstays =>
    refine h.store.outward.congr fun i => ?_
    simp only [Store.outerOf, hstays.store.scopes]
  | binds hframe => exact h.store.outward.congr fun i => Store.outerOf_bind _ _ _ _ i
  | @enters a arguments frames s entered harity hdepth hentered =>
    subst hentered
    -- a cell that holds no function is called as the empty function of the global scope
    have houter : (s.closureAt a).scope < s.scopes.size :=
      h.store.captured.closureAt h.store.global a
    exact (h.store.outward.enter houter).congr fun i => Store.outerOf_bindAll _ _ _ i
  | returns => exact h.store.outward
  | fails => exact h.store.outward

theorem inUse_step (i : ScopeId) (hi : InUse (m.step limit).control (m.step limit).frames i) :
    i < (m.step limit).store.scopes.size := by
  have heffect := effect_step limit m
  generalize m.step limit = m' at heffect hi
  cases heffect with
  | stays hstays =>
    rw [hstays.store.scopes]
    exact h.inUse i (hstays.inUse i hi)
  | binds hframe =>
    rw [Store.size_bind]
    exact h.inUse i (Confined.inUse_tail rfl i hi)
  | enters harity hdepth hentered =>
    subst hentered
    show i < (Store.bindAll _ _ _).scopes.size
    rw [Store.size_bindAll, Store.size_enter]
    rcases hi with hi | ⟨frame, hmem, hi⟩
    · cases hi
      exact Nat.lt_succ_self _
    · rcases List.mem_cons.1 hmem with rfl | hmem
      · cases hi
      · exact Nat.lt_succ_of_lt (h.inUse i (.inr ⟨frame, hmem, hi⟩))
  | returns => exact h.inUse i (Confined.inUse_tail rfl i hi)
  | fails => exact h.inUse i (Confined.inUse_tail rfl i hi)

theorem step : (m.step limit).Nests where
  store :=
    { global := Nat.lt_of_lt_of_le h.store.global (scopes_size_le_step limit m)
      outward := h.links_step limit
      captured := (h.captured_step limit).captured_mono (scopes_size_le_step limit m) }
  inUse := h.inUse_step limit

theorem after (n : Nat) : (m.after limit n).Nests := after_of_step (fun _ hm => hm.step limit) h n

end Nests

end Machine

/-! ### Sessions -/

/-- Whatever runs in a scope runs in one that is there. -/
def Store.Admits (s : Store) (control : Control) : Prop :=
  ∀ scope, control.scope? = some scope → scope < s.scopes.size

namespace Session

/-- What can be done with a session: programs, source texts, statements, expressions and calls run
to whatever end, scopes are made and cleared, names are bound, cells are made and the session is
reset. All of it happens in scopes that are there. -/
inductive Operation (session : Session) : Session → Prop
  | complete {fuel : Nat} {control : Control} {answer : Answer Fault}
      (hcontrol : session.store.Admits control)
      (h : session.complete fuel control = some answer) : Operation session answer.session
  | runIn {fuel : Nat} {scope : ScopeId} {program : Program} {answer : Answer Fault}
      (hscope : scope < session.store.scopes.size)
      (h : session.runIn fuel scope program = some answer) : Operation session answer.session
  | runSource {fuel : Nat} {source : String} {answer : Answer Failure}
      (h : session.runSource fuel source = some answer) : Operation session answer.session
  | enter {outer : ScopeId} (houter : outer < session.store.scopes.size) :
      Operation session { session with store := (session.store.enter outer).2 }
  | bind (scope : ScopeId) (name : String) (value : Value) :
      Operation session { session with store := session.store.bind scope name value }
  | alloc {cell : Cell} (h : cell.All (fun _ => True)
        fun closure => closure.scope < session.store.scopes.size) :
      Operation session { session with store := (session.store.alloc cell).2 }
  | clear (scope : ScopeId) : Operation session { session with store := session.store.clear scope }
  | takeOutput : Operation session session.takeOutput.2
  | reset : Operation session session.reset

/-- The session comes about from a fresh one by any operations. -/
def Arises (limit : Nat) (session : Session) : Prop :=
  Relation.ReflTransGen Operation (.start limit) session

theorem nests_of_passes {session : Session} (h : session.store.Nests) {control : Control}
    (hcontrol : session.store.Admits control) {m : Machine} (hm : session.Passes control m) :
    m.Nests := by
  obtain ⟨n, rfl⟩ := hm
  refine Machine.Nests.after ⟨h, ?_⟩ session.limit n
  rintro i (hi | ⟨frame, hmem, -⟩)
  · exact hcontrol i hi
  · cases hmem

theorem nests_of_complete {session : Session} (h : session.store.Nests) {fuel : Nat}
    {control : Control} (hcontrol : session.store.Admits control) {answer : Answer Fault}
    (ha : session.complete fuel control = some answer) : answer.session.store.Nests := by
  rw [(store_of_complete ha).2]
  exact (nests_of_passes h hcontrol ⟨fuel, rfl⟩).store

theorem nests_of_runIn {session : Session} (h : session.store.Nests) {fuel : Nat} {scope : ScopeId}
    (hscope : scope < session.store.scopes.size) {program : Program} {answer : Answer Fault}
    (ha : session.runIn fuel scope program = some answer) : answer.session.store.Nests := by
  obtain ⟨inner, hinner, hsession, -⟩ := complete_of_runIn ha
  rw [hsession]
  refine nests_of_complete h ?_ hinner
  rintro _ ⟨⟩
  exact hscope

theorem Operation.nests {s t : Session} (h : Operation s t) (hs : s.store.Nests) :
    t.store.Nests := by
  cases h with
  | complete hcontrol ha => exact nests_of_complete hs hcontrol ha
  | runIn hscope ha => exact nests_of_runIn hs hscope ha
  | runSource ha =>
    simp only [Session.runSource] at ha
    split at ha
    · cases ha
      exact hs
    · rw [Option.map_eq_some_iff] at ha
      obtain ⟨inner, hrun, rfl⟩ := ha
      exact nests_of_runIn hs hs.global hrun
  | enter houter => exact hs.enter houter
  | bind scope name value =>
    exact hs.congr (Store.size_bind ..) (Store.outerOf_bind _ _ _ _) (hs.captured.of_cells_eq rfl)
  | alloc hcell => exact hs.congr rfl (fun _ => rfl) (hs.captured.alloc _ hcell)
  | clear scope =>
    exact hs.congr (by simp [Store.clear]) (Store.outerOf_clear _ _) (hs.captured.of_cells_eq rfl)
  | takeOutput => exact hs.congr rfl (fun _ => rfl) (hs.captured.of_cells_eq rfl)
  | reset =>
    exact hs.congr (by simp [Session.reset, Store.clear]) (Store.outerOf_clear _ _)
      (hs.captured.of_cells_eq rfl)

theorem Arises.nests {limit : Nat} {session : Session} (h : Arises limit session) :
    session.store.Nests := by
  induction h with
  | refl => exact Store.nests_initial
  | tail _ hop ih => exact hop.nests ih

/-- Scopes keep their numbers and their links for good, and new ones get higher numbers. -/
theorem Operation.linksKept {s t : Session} (h : Operation s t) :
    s.store.scopes.size ≤ t.store.scopes.size ∧
      ∀ i < s.store.scopes.size, t.store.outerOf i = s.store.outerOf i := by
  have completed {fuel : Nat} {control : Control} {answer : Answer Fault}
      (ha : s.complete fuel control = some answer) :
      s.store.scopes.size ≤ answer.session.store.scopes.size ∧
        ∀ i < s.store.scopes.size, answer.session.store.outerOf i = s.store.outerOf i :=
    ⟨(scopesKept_of_complete ha).size, (scopesKept_of_complete ha).outer⟩
  cases h with
  | complete _ ha => exact completed ha
  | runIn _ ha =>
    obtain ⟨inner, hinner, hsession, -⟩ := complete_of_runIn ha
    rw [hsession]
    exact completed hinner
  | runSource ha =>
    simp only [Session.runSource] at ha
    split at ha
    · cases ha
      exact ⟨Nat.le_refl _, fun _ _ => rfl⟩
    · rw [Option.map_eq_some_iff] at ha
      obtain ⟨answer, hrun, rfl⟩ := ha
      obtain ⟨inner, hinner, hsession, -⟩ := complete_of_runIn hrun
      rw [hsession]
      exact completed hinner
  | @enter outer _ =>
    refine ⟨Nat.le_of_lt ?_, fun i hi => ?_⟩
    · rw [Store.size_enter]
      exact Nat.lt_succ_self _
    · rw [Store.outerOf_enter, if_neg (Nat.ne_of_lt hi)]
  | bind scope name value => exact ⟨by simp, fun i _ => Store.outerOf_bind _ _ _ _ i⟩
  | alloc _ => exact ⟨Nat.le_refl _, fun _ _ => rfl⟩
  | clear scope => exact ⟨by simp [Store.clear], fun i _ => Store.outerOf_clear _ _ i⟩
  | takeOutput => exact ⟨Nat.le_refl _, fun _ _ => rfl⟩
  | reset => exact ⟨by simp [Session.reset, Store.clear], fun i _ => Store.outerOf_clear _ _ i⟩

end Session

/-! ### What is bound on the way -/

namespace Store

theorem contains_bind {s : Store} {i : ScopeId} (hi : i < s.scopes.size) (scope : ScopeId)
    (name : String) (value : Value) (other : String) :
    ((s.bind scope name value).bindingsOf i).contains other = true ↔
      (s.bindingsOf i).contains other = true ∨ i = scope ∧ other = name := by
  by_cases hscope : i = scope
  · subst hscope
    have hhere : (s.bind i name value).bindingsOf i = (s.bindingsOf i).insert name value := by
      simp [bindingsOf, bind, Array.getElem?_modify, Array.getElem?_eq_getElem hi]
    rw [hhere, OrderedMap.contains, OrderedMap.contains]
    by_cases hname : other = name
    · subst hname
      simp [OrderedMap.find?_insert_self]
    · simp [OrderedMap.find?_insert_of_ne _ hname, hname]
  · simp [bindingsOf, s.scope_bind_of_ne hscope, hscope]

end Store

namespace Machine

/-- The next step binds the name in the scope. -/
def Binds (limit : Nat) (m : Machine) (scope : ScopeId) (name : String) : Prop :=
  ∃ value frame frames, m = ⟨.deliver value, frame :: frames, m.store⟩ ∧
    (frame = .declare name scope ∨ frame = .assign name scope) ∧
    m.step limit = ⟨.deliver .null, frames, m.store.bind scope name value⟩

/-- A step leaves the scopes that are there as they are, or it binds a name. -/
theorem scopes_step (limit : Nat) (m : Machine) :
    (∀ i < m.store.scopes.size, (m.step limit).store.scopes[i]? = m.store.scopes[i]?) ∨
      ∃ scope name, m.Binds limit scope name := by
  have heffect := effect_step limit m
  generalize hm : m.step limit = m' at heffect
  cases heffect with
  | stays hstays => exact .inl fun i _ => by rw [hstays.store.scopes]
  | binds hframe => exact .inr ⟨_, _, _, _, _, rfl, hframe, hm⟩
  | enters harity hdepth hentered =>
    subst hentered
    refine .inl fun i hi => ?_
    show (Store.bindAll _ _ _).scopes[i]? = _
    rw [Store.scope_bindAll_of_ne _ (Nat.ne_of_lt hi), Store.scope_enter_of_lt _ hi]
  | returns => exact .inl fun _ _ => rfl
  | fails => exact .inl fun _ _ => rfl

/-- In a scope that is there, a step binds what it is about to bind, and it drops nothing. -/
theorem contains_step {m : Machine} {scope : ScopeId} (hscope : scope < m.store.scopes.size)
    (limit : Nat) (name : String) :
    ((m.step limit).store.bindingsOf scope).contains name = true ↔
      (m.store.bindingsOf scope).contains name = true ∨ m.Binds limit scope name := by
  have hbinds (h : m.Binds limit scope name) :
      ((m.step limit).store.bindingsOf scope).contains name = true := by
    obtain ⟨value, frame, frames, -, -, hstep⟩ := h
    rw [hstep]
    exact (Store.contains_bind hscope scope name value name).2 (.inr ⟨rfl, rfl⟩)
  rcases scopes_step limit m with hsame | ⟨there, bound, hbound⟩
  · have hhere : (m.step limit).store.bindingsOf scope = m.store.bindingsOf scope := by
      simp only [Store.bindingsOf, hsame scope hscope]
    exact ⟨fun h => .inl (hhere ▸ h), Or.rec (fun h => hhere ▸ h) hbinds⟩
  · have hstep := hbound
    obtain ⟨value, frame, frames, -, -, hstep⟩ := hstep
    have hcontains := Store.contains_bind hscope there bound value name
    constructor
    · intro hafter
      rw [hstep] at hafter
      rcases hcontains.1 hafter with hbefore | ⟨rfl, rfl⟩
      · exact .inl hbefore
      · exact .inr hbound
    · rintro (hbefore | h)
      · rw [hstep]
        exact hcontains.2 (.inl hbefore)
      · exact hbinds h

theorem scopes_size_le_after (limit : Nat) (m : Machine) (n : Nat) :
    m.store.scopes.size ≤ (m.after limit n).store.scopes.size :=
  after_of_step (P := fun m' => m.store.scopes.size ≤ m'.store.scopes.size)
    (fun m' h => Nat.le_trans h (scopes_size_le_step limit m')) (Nat.le_refl _) n

/-- In a scope that is there, a run adds the names that it binds on the way. -/
theorem contains_after {m : Machine} {scope : ScopeId} (hscope : scope < m.store.scopes.size)
    (limit n : Nat) (name : String) :
    ((m.after limit n).store.bindingsOf scope).contains name = true ↔
      (m.store.bindingsOf scope).contains name = true ∨
        ∃ k < n, (m.after limit k).Binds limit scope name := by
  induction n with
  | zero => simp [after]
  | succ n ih =>
    have hthere := Nat.lt_of_lt_of_le hscope (scopes_size_le_after limit m n)
    rw [after, contains_step hthere, ih, or_assoc]
    refine or_congr_right ⟨?_, ?_⟩
    · rintro (⟨k, hk, h⟩ | h)
      · exact ⟨k, Nat.lt_succ_of_lt hk, h⟩
      · exact ⟨n, Nat.lt_succ_self n, h⟩
    · rintro ⟨k, hk, h⟩
      rcases Nat.lt_succ_iff_lt_or_eq.1 hk with hk | rfl
      · exact .inl ⟨k, hk, h⟩
      · exact .inr h

end Machine

/-! ### Names that resolve -/

namespace Store

variable {s t : Store} {name : String}

theorem resolves_congr {bound : ScopeId}
    (h : ∀ i < bound, t.scopes[i]? = s.scopes[i]?) {i : ScopeId} (hi : i < bound) :
    t.resolves i name = s.resolves i name := by
  induction i using Nat.strongRecOn with
  | ind i ih =>
    have hbindings : t.bindingsOf i = s.bindingsOf i := by simp only [bindingsOf, h i hi]
    have houter : t.outerOf i = s.outerOf i := by simp only [outerOf, h i hi]
    rw [resolves, resolves, hbindings, houter]
    split
    · next outer _ =>
      by_cases hlt : outer < i
      · rw [if_pos hlt, if_pos hlt, ih outer hlt (Nat.lt_trans hlt hi)]
      · rw [if_neg hlt, if_neg hlt]
    · rfl

/-- Where one scope alone has changed, the names that resolve from it differ by its bindings. -/
theorem resolves_iff_of_kept {scope : ScopeId} (h : s.ScopesKept (some scope) t)
    (hscope : scope < s.scopes.size) {P : Prop}
    (hP : (t.bindingsOf scope).contains name = true ↔
      (s.bindingsOf scope).contains name = true ∨ P) :
    t.resolves scope name = true ↔ s.resolves scope name = true ∨ P := by
  rw [resolves, resolves, h.outer scope hscope]
  split
  · next outer _ =>
    by_cases hlt : outer < scope
    · have haround : t.resolves outer name = s.resolves outer name := by
        have hinner : ∀ i < scope, t.scopes[i]? = s.scopes[i]? := by
          intro i hi
          refine h.same i (Nat.lt_trans hi hscope) ?_
          rintro ⟨⟩
          exact Nat.lt_irrefl _ hi
        exact resolves_congr hinner hlt
      rw [if_pos hlt, if_pos hlt, haround, Bool.or_eq_true, Bool.or_eq_true, hP, or_right_comm]
    · rw [if_neg hlt, if_neg hlt, Bool.or_false, Bool.or_false, hP]
  · rw [Bool.or_false, Bool.or_false, hP]

theorem scopesKept_bind (s : Store) (scope : ScopeId) (name : String) (value : Value) :
    s.ScopesKept (some scope) (s.bind scope name value) where
  size := by rw [size_bind]
  same i _ hne := s.scope_bind_of_ne (fun h => hne (congrArg some h.symm)) name value
  outer i _ := s.outerOf_bind scope name value i

/-- A name that resolves already can be bound again, and the same names resolve as before. -/
theorem resolves_bind {scope : ScopeId} (hscope : scope < s.scopes.size) {bound : String}
    (h : s.resolves scope bound = true) (value : Value) (name : String) :
    (s.bind scope bound value).resolves scope name = true ↔ s.resolves scope name = true := by
  have hbind := resolves_iff_of_kept (s.scopesKept_bind scope bound value) hscope
    (s.contains_bind hscope scope bound value name)
  rw [hbind]
  refine ⟨?_, .inl⟩
  rintro (hname | ⟨-, rfl⟩)
  · exact hname
  · exact h

end Store

namespace Machine

/-- An assignment asks for the old value of its name, and fails as that fails. -/
theorem resume_assign (name : String) (scope : ScopeId) (value : Value) (frames : List Frame)
    (s : Store) : resume (.assign name scope) value frames s =
      if value.isReturning then ⟨.deliver value, frames, s⟩
      else match s.get scope name with
        | .ok _ => ⟨.deliver .null, frames, s.bind scope name value⟩
        | .error fault => ⟨.raise fault, frames, s⟩ := by
  simp only [resume, Store.get]
  cases s.lookup scope name <;> rfl

/-- An assignment evaluates its expression first. After that it leaves the store as it is, or it
binds a name that resolves. -/
theorem outcome_of_assign {limit : Nat} {s : Store} {scope : ScopeId} {name : String} {e : Expr}
    {n : Nat} {o : Outcome}
    (h : ((⟨.execute (.assign name e) scope, [], s⟩ : Machine).after limit n).outcome? = some o) :
    ∃ k inner, ((⟨.evaluate e scope, [], s⟩ : Machine).after limit k).outcome? = some inner ∧
      (o.store = inner.store ∨ ∃ old value, inner.store.get scope name = .ok old ∧
        o.store = inner.store.bind scope name value) := by
  let alone : Machine := ⟨.evaluate e scope, [], s⟩
  cases n with
  | zero => cases h
  | succ n =>
    rw [after_succ] at h
    change ((alone.onto [.assign name scope]).after limit n).outcome? = some o at h
    obtain ⟨k, inner, hinner, honto⟩ := exists_outcome_of_onto h
    refine ⟨k, inner, hinner, ?_⟩
    obtain ⟨hframes, hstore, hcontrol⟩ := outcome?_eq_some hinner
    have hreached : (alone.onto [.assign name scope]).after limit k =
        ⟨(alone.after limit k).control, [.assign name scope], inner.store⟩ := by
      rw [honto, onto, hframes, hstore]
      rfl
    -- one more step ends the statement, and a statement that has ended stays as it is
    have hends (o' : Outcome)
        (hend : (step limit ((alone.onto [.assign name scope]).after limit k)).outcome? = some o') :
        o = o' := by
      have hlate := outcome?_after_of_le (n := k + 1) hend (Nat.le_max_left (k + 1) n)
      rw [outcome?_after_of_le h (Nat.le_max_right _ _)] at hlate
      exact Option.some.inj hlate
    rw [hreached] at hends
    rcases hcontrol with ⟨value, hvalue, -⟩ | ⟨fault, hfault, -⟩
    · rw [hvalue] at hends
      simp only [step, resume_assign] at hends
      cases hreturning : value.isReturning with
      | true =>
        rw [if_pos hreturning] at hends
        exact .inl (by rw [hends _ rfl]; rfl)
      | false =>
        rw [if_neg (by simp [hreturning])] at hends
        cases hold : inner.store.get scope name with
        | ok old =>
          rw [hold] at hends
          exact .inr ⟨old, value, rfl, by rw [hends _ rfl]; rfl⟩
        | error fault =>
          rw [hold] at hends
          exact .inl (by rw [hends _ rfl]; rfl)
    · rw [hfault] at hends
      exact .inl (by rw [hends _ rfl]; rfl)

end Machine

namespace Session

/-- Evaluating the expression in the scope binds the name there. -/
def EvaluationBinds (session : Session) (e : Expr) (scope : ScopeId) (name : String) : Prop :=
  ∃ m, session.Passes (.evaluate e scope) m ∧ m.Binds session.limit scope name

/-- The names that resolve from a scope after an expression are those that resolved before it and
those that it has bound there. -/
theorem resolves_of_evaluated {session : Session} {scope : ScopeId}
    (hscope : scope < session.store.scopes.size) {e : Expr} {k : Nat} {o : Outcome}
    (h : ((session.machine (.evaluate e scope)).after session.limit k).outcome? = some o)
    (name : String) : o.store.resolves scope name = true ↔
      session.store.resolves scope name = true ∨ session.EvaluationBinds e scope name := by
  have hpasses : session.Passes (.evaluate e scope)
      ((session.machine (.evaluate e scope)).after session.limit k) := ⟨k, rfl⟩
  have hkept := scopesKept_of_passes hpasses
  have hcontains := Machine.contains_after (m := session.machine (.evaluate e scope)) hscope
    session.limit k name
  rw [(Machine.outcome?_eq_some h).2.1, Store.resolves_iff_of_kept hkept hscope hcontains]
  refine or_congr_right ⟨fun ⟨j, _, hbinds⟩ => ⟨_, ⟨j, rfl⟩, hbinds⟩, ?_⟩
  rintro ⟨_, ⟨j, rfl⟩, hbinds⟩
  refine ⟨j, Machine.lt_of_outcome? ?_ h, hbinds⟩
  -- a machine that is about to bind a name has a frame
  obtain ⟨value, frame, frames, hm, -, -⟩ := hbinds
  rw [hm]
  rfl

/-- After an assignment the names resolve that resolve after its expression. -/
theorem resolves_of_assigned {session : Session} {scope : ScopeId}
    (hscope : scope < session.store.scopes.size) {x : String} {e : Expr} {fuel : Nat}
    {answer : Answer Fault} (h : session.execute fuel scope (.assign x e) = some answer)
    (name : String) : answer.session.store.resolves scope name = true ↔
      session.store.resolves scope name = true ∨ session.EvaluationBinds e scope name := by
  rw [execute, complete_eq, Option.map_eq_some_iff] at h
  obtain ⟨o, hend, rfl⟩ := h
  obtain ⟨k, inner, hinner, hstore⟩ := Machine.outcome_of_assign hend
  have hevaluated := resolves_of_evaluated hscope hinner
  rcases hstore with hstore | ⟨old, value, hold, hstore⟩
  · rw [show (Session.mk session.limit o.store).store = _ from hstore, hevaluated]
  · have hresolves : inner.store.resolves scope x = true := by
      rw [Store.resolves_eq_isSome, Store.get_eq_ok.1 hold]
      rfl
    have hthere : scope < inner.store.scopes.size := by
      rw [(Machine.outcome?_eq_some hinner).2.1]
      exact Nat.lt_of_lt_of_le hscope (Machine.scopes_size_le_after session.limit
        (session.machine (.evaluate e scope)) k)
    rw [show (Session.mk session.limit o.store).store = _ from hstore,
      Store.resolves_bind hthere hresolves, hevaluated]

/-- In every session that comes about, and at every moment of what is done in it, scopes lie in
older ones for good, so that chains are finite and looking a name up comes to the innermost scope
that binds it; and the names that resolve after an assignment are those that resolved before it and
those that its expression has bound. -/
theorem scope_chains_coherent {limit : Nat} {session : Session} (h : session.Arises limit) :
    (∀ t, session.Operation t → session.store.scopes.size ≤ t.store.scopes.size ∧
      ∀ i < session.store.scopes.size, t.store.outerOf i = session.store.outerOf i) ∧
    ∀ control m, session.store.Admits control → session.Passes control m →
      m.store.Coherent ∧ session.store.scopes.size ≤ m.store.scopes.size ∧
      (∀ i < session.store.scopes.size, m.store.outerOf i = session.store.outerOf i) ∧
      ∀ scope < m.store.scopes.size, ∀ x e fuel answer,
        (Session.mk session.limit m.store).execute fuel scope (.assign x e) = some answer →
        ∀ name, answer.session.store.resolves scope name = true ↔
          m.store.resolves scope name = true ∨
            (Session.mk session.limit m.store).EvaluationBinds e scope name := by
  refine ⟨fun t ht => ht.linksKept, fun control m hcontrol hm => ?_⟩
  have hnests := nests_of_passes h.nests hcontrol hm
  have hkept := scopesKept_of_passes hm
  refine ⟨Store.coherent_of_links hnests.store.outward, hkept.size, hkept.outer, ?_⟩
  intro scope hscope x e fuel answer ha name
  exact @resolves_of_assigned ⟨session.limit, m.store⟩ scope hscope x e fuel answer ha name

/-- The body of a function is about to assign to a global name, and the expression of the assignment
binds another name in the scope of the call. -/
theorem scope_chains_coherent_nested :
    let e : Expr := .conditional (.boolean true)
      [.declare "y" (.integer 2), .expression (.integer 3)] none
    let made : Session :=
      ⟨4, ((Store.initial.bind 0 "x" (.integer 1)).alloc (.function ⟨[], [.assign "x" e], 0⟩)).2⟩
    let session : Session := { made with store := (made.store.enter 0).2 }
    let m := (session.machine (.apply (.function 0) [])).after 4 2
    let middle : Session := ⟨4, m.store⟩
    session.Arises 4 ∧ m.control = .execute (.assign "x" e) 2 ∧
      m.store.Coherent ∧ m.store.Chain 2 [2, 0] ∧
      ∃ answer, middle.execute 20 2 (.assign "x" e) = some answer ∧
        middle.EvaluationBinds e 2 "y" ∧ answer.session.store.resolves 2 "y" = true ∧
        ∀ name, answer.session.store.resolves 2 name = true ↔
          m.store.resolves 2 name = true ∨ middle.EvaluationBinds e 2 name := by
  intro e made session m middle
  have harises : session.Arises 4 := by
    have hmade : made.Arises 4 := by
      refine (Relation.ReflTransGen.refl.tail (.bind 0 "x" (.integer 1))).tail (.alloc ?_)
      exact Nat.zero_lt_one
    exact hmade.tail (.enter Nat.zero_lt_one)
  have hpasses : session.Passes (.apply (.function 0) []) m := ⟨2, rfl⟩
  have hadmits : session.store.Admits (.apply (.function 0) []) := by
    rintro scope ⟨⟩
  obtain ⟨hcoherent, -, -, hassigned⟩ := (scope_chains_coherent harises).2 _ m hadmits hpasses
  obtain ⟨answer, hanswer⟩ := Option.isSome_iff_exists.1
    (show (middle.execute 20 2 (.assign "x" e)).isSome by decide +kernel)
  have hresolves := hassigned 2 (by decide +kernel) "x" e 20 answer hanswer
  have hbinds : middle.EvaluationBinds e 2 "y" :=
    ⟨_, ⟨6, rfl⟩, .integer 2, .declare "y" 2, _, rfl, .inl rfl, rfl⟩
  exact ⟨harises, rfl, hcoherent, .inside rfl (.outermost rfl), answer, hanswer, hbinds,
    (hresolves "y").2 (.inr hbinds), hresolves⟩

end Session

end CellScript
