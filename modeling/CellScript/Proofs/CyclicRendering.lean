import CellScript.Rendering
import Mathlib.Data.Finset.Card
import Mathlib.Logic.Relation

/-!
The texts of containers that may hold themselves.

Writing comes to an end on every store, leaves the stack of containers as it was, and gives the
text in which a container has dots for its entries just where it stands inside its own text. A
value in which no container reaches itself has the text that it would have without the stack,
however often a container is shared.
-/

namespace CellScript

/-! ### Texts -/

/-- The text of a value inside the containers of `path`. Every container is written out with its
entries, but for the occurrences that `cut` names by what they stand inside of: these have dots. -/
inductive Store.Shows (s : Store) (cut : List Address → Address → Prop) :
    List Address → Value → String → Prop
  | plain {path : List Address} {value : Value} {text : String}
      (h : s.shape value = .plain text) : Shows s cut path value text
  | dots {path : List Address} {value : Value} {cell : Address} {opener closer : String}
      {entries : List (List Value)} (h : s.shape value = .container cell opener closer entries)
      (hcut : cut path cell) : Shows s cut path value (Shape.placeholder opener closer)
  | container {path : List Address} {value : Value} {cell : Address} {opener closer : String}
      {entries : List (List Value)} (h : s.shape value = .container cell opener closer entries)
      (hcut : ¬cut path cell) (text : Value → String)
      (hparts : ∀ parts ∈ entries, ∀ part ∈ parts, Shows s cut (cell :: path) part (text part)) :
      Shows s cut path value
        (Shape.enclosed opener closer (entries.map fun parts => Shape.entry (parts.map text)))

/-- The container stands inside its own text. -/
def insideItself (path : List Address) (cell : Address) : Prop := cell ∈ path

/-- No occurrence is cut. -/
def nowhere (_ : List Address) (_ : Address) : Prop := False

namespace Store

variable {s : Store}

/-- A value has one text at most. -/
theorem Shows.unique {cut : List Address → Address → Prop} {path : List Address} {value : Value}
    {text text' : String} (h : s.Shows cut path value text) (h' : s.Shows cut path value text') :
    text = text' := by
  induction h generalizing text' with
  | plain hshape =>
    cases h' with
    | plain hshape' => simpa [hshape] using hshape'
    | dots hshape' => simp [hshape] at hshape'
    | container hshape' => simp [hshape] at hshape'
  | dots hshape hcut =>
    cases h' with
    | plain hshape' => simp [hshape] at hshape'
    | dots hshape' _ =>
      simp only [hshape, Shape.container.injEq] at hshape'
      obtain ⟨-, rfl, rfl, -⟩ := hshape'
      rfl
    | container hshape' hnot _ _ =>
      simp only [hshape, Shape.container.injEq] at hshape'
      exact absurd (hshape'.1 ▸ hcut) hnot
  | @container path value cell opener closer entries hshape hcut text hparts ih =>
    cases h' with
    | plain hshape' => simp [hshape] at hshape'
    | dots hshape' hcut' =>
      simp only [hshape, Shape.container.injEq] at hshape'
      exact absurd (hshape'.1 ▸ hcut') hcut
    | container hshape' _ other hother =>
      simp only [hshape, Shape.container.injEq] at hshape'
      obtain ⟨rfl, rfl, rfl, rfl⟩ := hshape'
      have hsame : entries.map (fun parts => Shape.entry (parts.map text)) =
          entries.map fun parts => Shape.entry (parts.map other) := by
        refine List.map_congr_left fun parts hmem => congrArg Shape.entry ?_
        exact List.map_congr_left fun part hpart =>
          ih parts hmem part hpart (hother parts hmem part hpart)
      rw [hsame]

end Store

/-! ### The stack -/

/-- Writing that leaves the state as it was can be done entry by entry. -/
theorem run_mapM_of_restores {α β σ : Type} {f : α → StateM σ β} {state : σ} {xs : List α}
    (h : ∀ x ∈ xs, ((f x).run state).2 = state) :
    (xs.mapM f).run state = (xs.map fun x => ((f x).run state).1, state) := by
  induction xs with
  | nil => rfl
  | cons x xs ih =>
    obtain ⟨hx, hxs⟩ := List.forall_mem_cons.1 h
    -- The rest is written from the state that the first one leaves.
    have hcons : ((x :: xs).mapM f).run state =
        (((f x).run state).1 :: ((xs.mapM f).run ((f x).run state).2).1,
          ((xs.mapM f).run ((f x).run state).2).2) := by
      rw [List.mapM_cons]
      rfl
    rw [hcons, hx, ih hxs]
    rfl

theorem run_guarded (cell : Address) (placeholder : String) (body : Writing String)
    (active : List Address) :
    (guarded cell placeholder body).run active =
      if cell ∈ active then (placeholder, active)
      else ((body.run (cell :: active)).1, (body.run (cell :: active)).2.tail) := by
  by_cases h : cell ∈ active
  · rw [if_pos h]
    simp only [guarded, StateT.run_bind, StateT.run_get, pure_bind, if_pos h, StateT.run_pure]
    rfl
  · rw [if_neg h]
    simp only [guarded, StateT.run_bind, StateT.run_get, pure_bind, if_neg h]
    rfl

namespace Store

variable (s : Store)

section Equations

variable {bound : Nat} {value : Value} {active : List Address} {cell : Address}
  {opener closer : String} {entries : List (List Value)}

theorem run_write_plain {text : String} (h : s.shape value = .plain text) :
    (s.write (bound + 1) value).run active = (text, active) := by
  rw [write, h]
  rfl

theorem run_write_dots (h : s.shape value = .container cell opener closer entries)
    (hcell : cell ∈ active) :
    (s.write (bound + 1) value).run active = (Shape.placeholder opener closer, active) := by
  rw [write, h]
  simp only [run_guarded, if_pos hcell]

/-- The entries leave the stack with the container on it, and then the container is taken off. -/
theorem run_write_container (h : s.shape value = .container cell opener closer entries)
    (hcell : cell ∉ active)
    (hrestores : ∀ part, ((s.write bound part).run (cell :: active)).2 = cell :: active) :
    (s.write (bound + 1) value).run active =
      (Shape.enclosed opener closer (entries.map fun parts =>
        Shape.entry (parts.map fun part => ((s.write bound part).run (cell :: active)).1)),
        active) := by
  have hparts (parts : List Value) :
      (Shape.entry <$> parts.mapM (s.write bound)).run (cell :: active) =
        (Shape.entry (parts.map fun part => ((s.write bound part).run (cell :: active)).1),
          cell :: active) := by
    rw [StateT.run_map, run_mapM_of_restores fun part _ => hrestores part]
    rfl
  rw [write, h]
  simp only [run_guarded, if_neg hcell]
  rw [StateT.run_bind, run_mapM_of_restores fun parts _ => by rw [hparts parts]]
  simp only [hparts]
  rfl

end Equations

/-- Writing leaves the stack as it was. -/
theorem write_restores (bound : Nat) (value : Value) (active : List Address) :
    ((s.write bound value).run active).2 = active := by
  induction bound generalizing value active with
  | zero => rfl
  | succ bound ih =>
    cases h : s.shape value with
    | plain text => rw [s.run_write_plain h]
    | container cell opener closer entries =>
      by_cases hcell : cell ∈ active
      · rw [s.run_write_dots h hcell]
      · rw [s.run_write_container h hcell fun part => ih part (cell :: active)]

/-! ### Writing comes to an end -/

theorem lt_size_of_mem_itemsAt {a : Address} {item : Value} (h : item ∈ s.itemsAt a) :
    a < s.cells.size := by
  unfold itemsAt at h
  split at h
  · next hcell => exact (Array.getElem?_eq_some_iff.1 hcell).1
  · simp at h

theorem lt_size_of_mem_mapAt {a : Address} {entry : Value × Value}
    (h : entry ∈ (s.mapAt a).values) : a < s.cells.size := by
  unfold mapAt at h
  split at h
  · next hcell => exact (Array.getElem?_eq_some_iff.1 hcell).1
  · simp [OrderedMap.values, OrderedMap.empty] at h

theorem lt_size_of_mem_setAt {a : Address} {member : Value} (h : member ∈ (s.setAt a).values) :
    a < s.cells.size := by
  unfold setAt at h
  split at h
  · next hcell => exact (Array.getElem?_eq_some_iff.1 hcell).1
  · simp [OrderedMap.values, OrderedMap.empty] at h

/-- A container that has entries is a cell of the store. -/
theorem cell_lt_size {value : Value} {cell : Address} {opener closer : String}
    {entries : List (List Value)} (h : s.shape value = .container cell opener closer entries)
    {parts : List Value} (hparts : parts ∈ entries) : cell < s.cells.size := by
  induction value with
  | sequence kind a =>
    cases h
    obtain ⟨item, hitem, -⟩ := List.mem_map.1 hparts
    exact s.lt_size_of_mem_itemsAt (Array.mem_toList_iff.1 hitem)
  | map a =>
    cases h
    obtain ⟨entry, hentry, -⟩ := List.mem_map.1 hparts
    exact s.lt_size_of_mem_mapAt hentry
  | set a =>
    cases h
    obtain ⟨member, hmember, -⟩ := List.mem_map.1 hparts
    exact s.lt_size_of_mem_setAt hmember
  | returning value ih => exact ih h
  | _ => cases h

/-- The number of cells that do not stand on the stack. -/
def unentered (active : List Address) : Nat :=
  ((Finset.range s.cells.size).filter (· ∉ active)).card

theorem unentered_le (active : List Address) : s.unentered active ≤ s.cells.size := by
  calc s.unentered active ≤ (Finset.range s.cells.size).card := Finset.card_filter_le _ _
    _ = s.cells.size := Finset.card_range _

theorem unentered_cons_lt {active : List Address} {cell : Address} (hlt : cell < s.cells.size)
    (hcell : cell ∉ active) : s.unentered (cell :: active) < s.unentered active := by
  refine Finset.card_lt_card (Finset.ssubset_iff_of_subset ?_ |>.2 ⟨cell, ?_, ?_⟩)
  · intro a ha
    simp only [Finset.mem_filter, List.mem_cons, not_or] at ha ⊢
    exact ⟨ha.1, ha.2.2⟩
  · simp [hlt, hcell]
  · simp

/-- What is written is the text with dots just where a container stands inside itself, if the bound
exceeds the number of cells that can still be entered. -/
theorem write_shows {bound : Nat} {active : List Address} (value : Value)
    (h : s.unentered active < bound) :
    s.Shows insideItself active value ((s.write bound value).run active).1 := by
  induction bound generalizing value active with
  | zero => omega
  | succ bound ih =>
    cases hshape : s.shape value with
    | plain text =>
      rw [s.run_write_plain hshape]
      exact .plain hshape
    | container cell opener closer entries =>
      by_cases hcell : cell ∈ active
      · rw [s.run_write_dots hshape hcell]
        exact .dots hshape hcell
      · rw [s.run_write_container hshape hcell fun part => s.write_restores _ _ _]
        refine .container hshape hcell _ ?_
        intro parts hparts part hpart
        have hlt := s.unentered_cons_lt (s.cell_lt_size hshape hparts) hcell
        exact ih part (by omega)

end Store

/-! ### Containers that do not reach themselves -/

/-- The values that stand in the entries. -/
def Shape.held : Shape → List Value
  | plain _ => []
  | container _ _ _ entries => entries.flatten

/-- The cell of a container. -/
def Shape.cell? : Shape → Option Address
  | plain _ => none
  | container cell _ _ _ => some cell

namespace Store

variable (s : Store)

/-- The value `v` is a container and `w` stands in one of its entries. -/
def Holds (v w : Value) : Prop := w ∈ (s.shape v).held

/-- The value is a container that comes up again among all that it holds. -/
def ReachesItself (v : Value) : Prop :=
  ∃ w cell, Relation.TransGen s.Holds v w ∧ (s.shape v).cell? = some cell ∧
    (s.shape w).cell? = some cell

/-- A text with no dots is also the text without any cut. -/
theorem Shows.uncut {s : Store} {root : Value}
    (hroot : ∀ v, Relation.ReflTransGen s.Holds root v → ¬s.ReachesItself v)
    {path : List Address} {value : Value} {text : String}
    (h : s.Shows insideItself path value text)
    (hvalue : Relation.ReflTransGen s.Holds root value)
    (hpath : ∀ cell ∈ path, ∃ v, Relation.ReflTransGen s.Holds root v ∧
      Relation.TransGen s.Holds v value ∧ (s.shape v).cell? = some cell) :
    s.Shows nowhere path value text := by
  induction h with
  | plain hshape => exact .plain hshape
  | dots hshape hcut =>
    -- The container that the occurrence stands inside of reaches itself.
    obtain ⟨v, hv, hreach, hcell⟩ := hpath _ hcut
    exact absurd ⟨_, _, hreach, hcell, by rw [hshape]; rfl⟩ (hroot v hv)
  | @container path value cell opener closer entries hshape hcut text hparts ih =>
    refine .container hshape id text ?_
    intro parts hmem part hpart
    have hholds : s.Holds value part := by
      simp only [Holds, hshape, Shape.held]
      exact List.mem_flatten.2 ⟨parts, hmem, hpart⟩
    refine ih parts hmem part hpart (hvalue.tail hholds) ?_
    intro outer houter
    rcases List.mem_cons.1 houter with rfl | houter
    · exact ⟨value, hvalue, .single hholds, by rw [hshape]; rfl⟩
    · obtain ⟨v, hv, hreach, hcell⟩ := hpath outer houter
      exact ⟨v, hv, hreach.tail hholds, hcell⟩

/-- Writing ends with one text for every bound that exceeds the number of cells, and with the stack
it began with. The text has dots for a container just where the container stands inside itself, and
is the text without any dots if no container in the value reaches itself. -/
theorem render_exact (value : Value) :
    (∀ active, ∃ text,
      (∀ bound, s.cells.size < bound → (s.write bound value).run active = (text, active)) ∧
        ∀ t, s.Shows insideItself active value t ↔ t = text) ∧
    (∀ t, s.Shows insideItself [] value t ↔ t = s.render value) ∧
    ((∀ v, Relation.ReflTransGen s.Holds value v → ¬s.ReachesItself v) →
      ∀ t, s.Shows nowhere [] value t ↔ t = s.render value) := by
  have hshows (active : List Address) (bound : Nat) (hbound : s.cells.size < bound) :
      s.Shows insideItself active value ((s.write bound value).run active).1 :=
    s.write_shows value (Nat.lt_of_le_of_lt (s.unentered_le active) hbound)
  have hexact (cut : List Address → Address → Prop) (active : List Address) (text t : String)
      (htext : s.Shows cut active value text) : s.Shows cut active value t ↔ t = text :=
    ⟨fun ht => ht.unique htext, fun ht => ht ▸ htext⟩
  have hrender : s.Shows insideItself [] value (s.render value) := hshows [] _ (Nat.lt_succ_self _)
  refine ⟨fun active => ?_, fun t => hexact _ _ _ _ hrender, fun hroot t => ?_⟩
  · refine ⟨((s.write (s.cells.size + 1) value).run active).1, ?_, ?_⟩
    · intro bound hbound
      have hsame := (hshows active bound hbound).unique (hshows active _ (Nat.lt_succ_self _))
      exact Prod.ext hsame (s.write_restores bound value active)
    · exact fun t => hexact _ _ _ _ (hshows active _ (Nat.lt_succ_self _))
  · exact hexact _ _ _ _ (hrender.uncut hroot .refl (by simp))

/-- Where containers hold only older containers, none reaches itself. -/
theorem not_reachesItself_of_older
    (h : ∀ v w a b, s.Holds v w → (s.shape v).cell? = some a → (s.shape w).cell? = some b → b < a)
    (v : Value) : ¬s.ReachesItself v := by
  rintro ⟨w, cell, hreach, hv, hw⟩
  have hbelow (w : Value) (hreach : Relation.TransGen s.Holds v w) (b : Address)
      (hw : (s.shape w).cell? = some b) : b < cell := by
    induction hreach generalizing b with
    | single hholds => exact h _ _ _ _ hholds hv hw
    | @tail u w _ hholds ih =>
      cases hu : s.shape u with
      | plain text => simp [Holds, hu, Shape.held] at hholds
      | container between opener closer entries =>
        have hcell : (s.shape u).cell? = some between := by rw [hu]; rfl
        exact Nat.lt_trans (h _ _ _ _ hholds hcell hw) (ih between hcell)
  exact Nat.lt_irrefl cell (hbelow w hreach cell hw)

/-- An array that holds another one twice has no dots in its text. -/
theorem render_exact_shared :
    let inner : Value := .sequence .array 0
    let s : Store :=
      { Store.initial with cells := #[.sequence #[.integer 1], .sequence #[inner, inner]] }
    (∀ v, Relation.ReflTransGen s.Holds (.sequence .array 1) v → ¬s.ReachesItself v) ∧
      s.Shows nowhere [] (.sequence .array 1) "[[1], [1]]" := by
  intro inner s
  have hnone (v : Value) : ¬s.ReachesItself v := by
    refine s.not_reachesItself_of_older ?_ v
    intro v w a b hholds hv hw
    induction v with
    | sequence kind c =>
      cases hv
      rcases a with _ | _ | a
      · obtain rfl : w = .integer 1 := by simpa [Holds, shape, Shape.held, itemsAt, s] using hholds
        cases hw
      · obtain rfl : w = inner := by simpa [Holds, shape, Shape.held, itemsAt, s] using hholds
        cases hw
        decide
      · simp [Holds, shape, Shape.held, itemsAt, s] at hholds
    | map c =>
      rcases c with _ | _ | c <;>
        simp [Holds, shape, Shape.held, mapAt, s, OrderedMap.values, OrderedMap.empty] at hholds
    | set c =>
      rcases c with _ | _ | c <;>
        simp [Holds, shape, Shape.held, setAt, s, OrderedMap.values, OrderedMap.empty] at hholds
    | returning v ih => exact ih hholds hv
    | _ => cases hv
  have htext : s.render (.sequence .array 1) = "[[1], [1]]" := by decide +kernel
  refine ⟨fun v _ => hnone v, ?_⟩
  exact ((s.render_exact _).2.2 (fun v _ => hnone v) _).2 htext.symm

/-- An array that holds itself. -/
example : ({ Store.initial with cells := #[.sequence #[.sequence .array 0]] } : Store).render
    (.sequence .array 0) = "[[...]]" := by decide +kernel

end Store

end CellScript
