import CellScript.Proofs.DatumText
import CellScript.Proofs.KeyFiling

/-!
Values that are data.

A value spells a datum if its cells unfold into the datum, however often they are shared. No such
value comes up again among all that it holds, so its text is the text of the datum, and data with
the same key are the same. A value shows its keys in order wherever it is a map or a set just if the
datum is in order.
-/

namespace CellScript

/-- The heap holds the integers of the row. -/
structure Heap.Lists {order : HeapOrder} (heap : Heap) (row : HeapRow order) : Prop where
  order_eq : heap.order = order
  element_eq : heap.element = .integer
  items_eq : heap.items = row.items.map fun n => .integer n.value

theorem Heap.Lists.unique {order : HeapOrder} {heap : Heap} {row other : HeapRow order}
    (h : heap.Lists row) (hother : heap.Lists other) : row = other := by
  have hitems := h.items_eq.symm.trans hother.items_eq
  refine HeapRow.ext (map_inj_of_forall (fun m _ n hmn => ?_) hitems)
  exact Numeral.ext (HeapItem.integer.inj hmn)

/-- The value unfolds into the datum. -/
inductive Store.Spells (s : Store) : Value → Datum → Prop
  | integer (n : Numeral) : Spells s (.integer n.value) (.integer n)
  | boolean (value : Bool) : Spells s (.boolean value) (.boolean value)
  | sequence (kind : SequenceKind) {a : Address} {items : Array Value}
      (hcell : s.cells[a]? = some (.sequence items)) (datum : Value → Datum)
      (h : ∀ x ∈ items, Spells s x (datum x)) :
      Spells s (.sequence kind a) (.sequence kind (items.toList.map datum))
  | map {a : Address} {entries : OrderedMap Key (Value × Value)}
      (hcell : s.cells[a]? = some (.map entries)) (datum : Value → Datum)
      (hkeys : ∀ entry ∈ entries.values, Spells s entry.1 (datum entry.1))
      (hvalues : ∀ entry ∈ entries.values, Spells s entry.2 (datum entry.2)) :
      Spells s (.map a) (.map (entries.values.map fun entry => (datum entry.1, datum entry.2)))
  | set {a : Address} {members : OrderedMap Key Value}
      (hcell : s.cells[a]? = some (.set members)) (datum : Value → Datum)
      (h : ∀ x ∈ members.values, Spells s x (datum x)) :
      Spells s (.set a) (.set (members.values.map datum))
  | heap {order : HeapOrder} (row : HeapRow order) {a : Address} {heap : Heap}
      (hcell : s.cells[a]? = some (.heap heap)) (h : heap.Lists row) :
      Spells s (.heap order a) (.heap order row)

namespace Store

variable {s t : Store} {v w : Value} {d e : Datum}

theorem Spells.tag_eq (h : s.Spells v d) : v.tag = d.tag := by
  cases h <;> rfl

theorem Spells.not_returning (h : s.Spells v d) : v.isReturning = false := by
  cases h <;> rfl

theorem Spells.unwrapped_eq (h : s.Spells v d) : v.unwrapped = v := by
  cases h <;> rfl

/-- A value spells one datum at most. -/
theorem Spells.unique (h : s.Spells v d) (h' : s.Spells v e) : d = e := by
  induction h generalizing e with
  | integer n =>
    generalize hv : Value.integer n.value = v at h'
    cases h' with
    | integer m => rw [Numeral.ext (Value.integer.inj hv)]
    | _ => cases hv
  | boolean value =>
    cases h'
    rfl
  | sequence kind hcell datum _ ih =>
    cases h' with
    | sequence _ hother other h' =>
      rw [hcell] at hother
      cases hother
      rw [List.map_congr_left fun x hx => ih x (by simpa using hx) (h' x (by simpa using hx))]
  | map hcell datum _ _ ihkeys ihvalues =>
    cases h' with
    | map hother other hkeys hvalues =>
      rw [hcell] at hother
      cases hother
      refine congrArg Datum.map (List.map_congr_left fun entry hentry => ?_)
      rw [ihkeys entry hentry (hkeys entry hentry), ihvalues entry hentry (hvalues entry hentry)]
  | set hcell datum _ ih =>
    cases h' with
    | set hother other h' =>
      rw [hcell] at hother
      cases hother
      rw [List.map_congr_left fun x hx => ih x hx (h' x hx)]
  | heap row hcell h =>
    cases h' with
    | heap other hother h' =>
      rw [hcell] at hother
      cases hother
      rw [h.unique h']

/-! ### What a container holds -/

theorem holds_sequence {kind : SequenceKind} {a : Address} {items : Array Value}
    (h : s.cells[a]? = some (.sequence items)) : s.Holds (.sequence kind a) w ↔ w ∈ items := by
  simp [Holds, shape, Shape.held, itemsAt, h]

theorem holds_map {a : Address} {entries : OrderedMap Key (Value × Value)}
    (h : s.cells[a]? = some (.map entries)) :
    s.Holds (.map a) w ↔ ∃ entry ∈ entries.values, w = entry.1 ∨ w = entry.2 := by
  simp [Holds, shape, Shape.held, mapAt, h]

theorem holds_set {a : Address} {members : OrderedMap Key Value}
    (h : s.cells[a]? = some (.set members)) : s.Holds (.set a) w ↔ w ∈ members.values := by
  simp [Holds, shape, Shape.held, setAt, h]

/-- What a value holds spells a part of its datum. -/
theorem Spells.of_holds (h : s.Spells v d) (hw : s.Holds v w) :
    ∃ e, s.Spells w e ∧ sizeOf e < sizeOf d := by
  cases h with
  | integer | boolean | heap => cases hw
  | @sequence kind a items hcell datum h =>
    have hmem := (holds_sequence hcell).1 hw
    refine ⟨datum w, h w hmem, ?_⟩
    have hlt : sizeOf (datum w) < sizeOf (items.toList.map datum) :=
      List.sizeOf_lt_of_mem (List.mem_map_of_mem (by simpa using hmem))
    rw [Datum.sequence.sizeOf_spec]
    omega
  | map hcell datum hkeys hvalues =>
    obtain ⟨entry, hentry, rfl | rfl⟩ := (holds_map hcell).1 hw
    · have hmem := List.mem_map_of_mem (f := fun entry => (datum entry.1, datum entry.2)) hentry
      exact ⟨datum entry.1, hkeys entry hentry, Datum.sizeOf_key_lt hmem⟩
    · have hmem := List.mem_map_of_mem (f := fun entry => (datum entry.1, datum entry.2)) hentry
      exact ⟨datum entry.2, hvalues entry hentry, Datum.sizeOf_value_lt hmem⟩
  | @set a members hcell datum h =>
    have hmem := (holds_set hcell).1 hw
    refine ⟨datum w, h w hmem, ?_⟩
    have hlt : sizeOf (datum w) < sizeOf (members.values.map datum) :=
      List.sizeOf_lt_of_mem (List.mem_map_of_mem hmem)
    rw [Datum.set.sizeOf_spec]
    omega

theorem Spells.of_reaches (h : s.Spells v d) (hw : Relation.TransGen s.Holds v w) :
    ∃ e, s.Spells w e ∧ sizeOf e < sizeOf d := by
  induction hw with
  | single hw => exact h.of_holds hw
  | tail _ hw ih =>
    obtain ⟨e, he, hlt⟩ := ih
    obtain ⟨f, hf, hlt'⟩ := he.of_holds hw
    exact ⟨f, hf, Nat.lt_trans hlt' hlt⟩

/-- Values of one cell hold the same. -/
theorem Spells.held_eq (h : s.Spells v d) (h' : s.Spells w e) {a : Address}
    (hv : (s.shape v).cell? = some a) (hw : (s.shape w).cell? = some a) :
    (s.shape v).held = (s.shape w).held := by
  cases h with
  | integer | boolean | heap => cases hv
  | sequence kind hcell | map hcell | set hcell =>
    cases hv
    cases h' with
    | integer | boolean | heap => cases hw
    | sequence other hother | map hother | set hother =>
      cases hw
      first | rfl | (rw [hcell] at hother; cases hother)

theorem Spells.not_reachesItself (h : s.Spells v d) : ¬s.ReachesItself v := by
  rintro ⟨w, cell, hreach, hv, hw⟩
  obtain ⟨e, he, -⟩ := h.of_reaches hreach
  -- What `v` holds `w` holds too, so that `w` reaches itself and spells a part of its own datum.
  have hcycle : Relation.TransGen s.Holds w w := by
    obtain ⟨x, hx, hxw⟩ := Relation.TransGen.head'_iff.1 hreach
    have hwx : s.Holds w x := by
      rw [Holds, ← h.held_eq he hv hw]
      exact hx
    exact Relation.TransGen.head' hwx hxw
  obtain ⟨f, hf, hlt⟩ := he.of_reaches hcycle
  rw [hf.unique he] at hlt
  exact Nat.lt_irrefl _ hlt

/-! ### Texts and keys -/

/-- The text of a container is made of the texts of what it holds. -/
theorem Shows.written {α : Type} {cell : Address} {opener closer : String} {xs : List α}
    {parts : α → List Value} {path : List Address}
    (hshape : s.shape v = .container cell opener closer (xs.map parts)) (text : Value → String)
    (h : ∀ x ∈ xs, ∀ part ∈ parts x, s.Shows nowhere (cell :: path) part (text part)) :
    s.Shows nowhere path v
      (Shape.enclosed opener closer (xs.map fun x => Shape.entry ((parts x).map text))) := by
  have hshows := Shows.container hshape id text (List.forall_mem_map.2 h)
  rwa [List.map_map] at hshows

theorem Spells.shows (h : s.Spells v d) (path : List Address) : s.Shows nowhere path v d.text := by
  induction h generalizing path with
  | integer | boolean =>
    rw [Datum.text]
    exact .plain rfl
  | @sequence kind a items hcell datum _ ih =>
    have hshape : s.shape (.sequence kind a) =
        .container a kind.opener kind.closer (items.toList.map fun item => [item]) := by
      simp [shape, itemsAt, hcell]
    rw [Datum.text, List.map_map]
    refine Shows.written hshape (fun x => (datum x).text) ?_
    simpa using fun x hx => ih x hx (a :: path)
  | @map a entries hcell datum _ _ ihkeys ihvalues =>
    have hshape : s.shape (.map a) = .container a mapOpener braceCloser
        (entries.values.map fun entry => [entry.1, entry.2]) := by
      simp [shape, mapAt, hcell]
    rw [Datum.text, List.map_map]
    refine Shows.written hshape (fun x => (datum x).text) fun entry hentry part hpart => ?_
    rcases List.mem_pair.1 hpart with rfl | rfl
    · exact ihkeys entry hentry (a :: path)
    · exact ihvalues entry hentry (a :: path)
  | @set a members hcell datum _ ih =>
    have hshape : s.shape (.set a) = .container a setOpener braceCloser
        (members.values.map fun member => [member]) := by
      simp [shape, setAt, hcell]
    rw [Datum.text, List.map_map]
    refine Shows.written hshape (fun x => (datum x).text) ?_
    simpa using fun x hx => ih x hx (a :: path)
  | @heap order row a heap hcell h =>
    have hshape : s.shape (.heap order a) = .plain heap.render := by
      simp [shape, heapAt, hcell]
    rw [Datum.text]
    refine .plain (hshape.trans ?_)
    simp [Heap.render, h.order_eq, h.element_eq, h.items_eq, Shape.enclosed, Function.comp_def,
      HeapItem.render]

theorem Spells.render_eq (h : s.Spells v d) : s.render v = d.text := by
  have hacyclic : ∀ w, Relation.ReflTransGen s.Holds v w → ¬s.ReachesItself w := by
    intro w hw
    rcases Relation.reflTransGen_iff_eq_or_transGen.1 hw with rfl | hw
    · exact h.not_reachesItself
    · obtain ⟨e, he, -⟩ := h.of_reaches hw
      exact he.not_reachesItself
  exact ((s.shows_render v).uncut hacyclic .refl (by simp)).unique (h.shows [])

theorem Spells.key_eq (h : s.Spells v d) : s.key v = d.key := by
  rw [key, Datum.key, h.tag_eq, h.render_eq]

/-! ### Keys as they are shown -/

/-- The present keys of a map or set, in the order in which its text shows them. -/
def shownKeys (s : Store) : Value → List Key
  | .map a => (s.mapAt a).values.map fun entry => s.key entry.1
  | .set a => (s.setAt a).values.map s.key
  | _ => []

/-- Every map and set in the value shows its keys in ascending order, none of them twice. -/
def KeysInOrder (s : Store) (v : Value) : Prop :=
  ∀ u, Relation.ReflTransGen s.Holds v u → (s.shownKeys u).Pairwise fun k l => compare k l = .lt

theorem keysInOrder_iff : s.KeysInOrder v ↔
    (s.shownKeys v).Pairwise (fun k l => compare k l = .lt) ∧
      ∀ w, s.Holds v w → s.KeysInOrder w := by
  constructor
  · intro h
    exact ⟨h v .refl, fun w hw u hu => h u (.head hw hu)⟩
  · rintro ⟨hself, hheld⟩ u hu
    rcases Relation.ReflTransGen.cases_head hu with rfl | ⟨w, hw, hwu⟩
    · exact hself
    · exact hheld w hw u hwu

theorem keysInOrder_of_held_eq_nil (hshown : s.shownKeys v = []) (hheld : (s.shape v).held = []) :
    s.KeysInOrder v :=
  keysInOrder_iff.2 ⟨by simp [hshown], by simp [Holds, hheld]⟩

/-- All that stands in the maps and sets of the value is filed under its present key. -/
def FiledByPresentKeys (s : Store) (v : Value) : Prop :=
  ∀ u a cell, Relation.ReflTransGen s.Holds v u → u.cell? = some a → s.cells[a]? = some cell →
    ∀ p ∈ cell.filed, s.key p.2 = p.1

theorem FiledByPresentKeys.keysInOrder (h : s.FiledByPresentKeys v) : s.KeysInOrder v := by
  intro u hu
  cases u with
  | map a =>
    rw [shownKeys, List.pairwise_map]
    refine values_ascend (fun entry : Value × Value => s.key entry.1) fun entry hentry => ?_
    have hmem : (entry.1, entry.2.1) ∈ (Cell.map (s.mapAt a)).filed := List.mem_map_of_mem hentry
    exact (h _ a _ hu rfl (cell_of_mem_mapAt hentry) _ hmem).symm
  | set a =>
    rw [shownKeys, List.pairwise_map]
    refine values_ascend s.key fun member hmember => ?_
    exact (h _ a _ hu rfl (cell_of_mem_setAt hmember) member hmember).symm
  | _ => exact .nil

theorem Spells.inOrder_iff (h : s.Spells v d) : d.InOrder ↔ s.KeysInOrder v := by
  induction h with
  | integer n => exact iff_of_true (.integer n) (keysInOrder_of_held_eq_nil rfl rfl)
  | boolean value => exact iff_of_true (.boolean value) (keysInOrder_of_held_eq_nil rfl rfl)
  | heap row hcell _ => exact iff_of_true (.heap _ row) (keysInOrder_of_held_eq_nil rfl rfl)
  | sequence kind hcell datum h ih =>
    rw [keysInOrder_iff, Datum.inOrder_sequence]
    simp only [shownKeys, List.Pairwise.nil, true_and, List.forall_mem_map, Array.mem_toList_iff,
      holds_sequence hcell]
    exact forall₂_congr ih
  | @map a entries hcell datum hkeys hvalues ihkeys ihvalues =>
    have hshown : s.shownKeys (.map a) = entries.values.map fun entry => (datum entry.1).key := by
      simp only [shownKeys, mapAt, hcell]
      exact List.map_congr_left fun entry hentry => (hkeys entry hentry).key_eq
    rw [keysInOrder_iff, Datum.inOrder_map, hshown, List.pairwise_map, List.pairwise_map]
    refine and_congr .rfl ?_
    simp only [List.forall_mem_map, holds_map hcell]
    constructor
    · rintro h w ⟨entry, hentry, rfl | rfl⟩
      · exact (ihkeys entry hentry).1 (h entry hentry).1
      · exact (ihvalues entry hentry).1 (h entry hentry).2
    · intro h entry hentry
      exact ⟨(ihkeys entry hentry).2 (h _ ⟨entry, hentry, .inl rfl⟩),
        (ihvalues entry hentry).2 (h _ ⟨entry, hentry, .inr rfl⟩)⟩
  | @set a members hcell datum h ih =>
    have hshown : s.shownKeys (.set a) = members.values.map fun x => (datum x).key := by
      simp only [shownKeys, setAt, hcell]
      exact List.map_congr_left fun x hx => (h x hx).key_eq
    rw [keysInOrder_iff, Datum.inOrder_set, hshown, List.pairwise_map, List.pairwise_map]
    simp only [List.forall_mem_map, holds_set hcell]
    exact and_congr .rfl (forall₂_congr ih)

/-! ### Stores that grow -/

/-- All cells of the one store are there in the other, with the same contents. -/
def Extends (s t : Store) : Prop :=
  ∀ (a : Address) (cell : Cell), s.cells[a]? = some cell → t.cells[a]? = some cell

theorem Extends.refl (s : Store) : s.Extends s := fun _ _ h => h

theorem Extends.trans {u : Store} (h : s.Extends t) (h' : t.Extends u) : s.Extends u :=
  fun a cell ha => h' a cell (h a cell ha)

theorem extends_alloc (s : Store) (cell : Cell) : s.Extends (s.alloc cell).2 := by
  intro a old ha
  have hlt : a < s.cells.size := (Array.getElem?_eq_some_iff.1 ha).1
  simp only [alloc, Array.getElem?_push, if_neg (Nat.ne_of_lt hlt), ha]

theorem getElem?_alloc (s : Store) (cell : Cell) :
    (s.alloc cell).2.cells[s.cells.size]? = some cell := by
  simp [alloc]

theorem Spells.mono (h : s.Spells v d) (hst : s.Extends t) : t.Spells v d := by
  induction h with
  | integer n => exact .integer n
  | boolean value => exact .boolean value
  | sequence kind hcell datum _ ih => exact .sequence kind (hst _ _ hcell) datum ih
  | map hcell datum _ _ ihkeys ihvalues => exact .map (hst _ _ hcell) datum ihkeys ihvalues
  | set hcell datum _ ih => exact .set (hst _ _ hcell) datum ih
  | heap row hcell h => exact .heap row (hst _ _ hcell) h

/-! ### Containers from lists -/

/-- The datum that a value spells, if it spells one. -/
noncomputable def datumOf (s : Store) (v : Value) : Datum :=
  open Classical in if h : ∃ d, s.Spells v d then h.choose else .boolean false

theorem Spells.datumOf_eq (h : s.Spells v d) : s.datumOf v = d := by
  have hex : ∃ d, s.Spells v d := ⟨d, h⟩
  rw [datumOf, dif_pos hex]
  exact hex.choose_spec.unique h

end Store

/-- Where a relation is that of a function, the lists that it relates are images. -/
theorem eq_map_of_forall₂ {α β : Type} {R : α → β → Prop} {f : α → β}
    (hf : ∀ x y, R x y → f x = y) {xs : List α} {ys : List β} (h : List.Forall₂ R xs ys) :
    ys = xs.map f ∧ ∀ x ∈ xs, R x (f x) := by
  induction h with
  | nil => simp
  | @cons x y xs ys hxy _ ih =>
    have hy := hf x y hxy
    exact ⟨by rw [List.map_cons, hy, ih.1], List.forall_mem_cons.2 ⟨hy ▸ hxy, ih.2⟩⟩

namespace Store

variable {s : Store}

theorem cell_of_mem_itemsAt {a : Address} {item : Value} (h : item ∈ s.itemsAt a) :
    s.cells[a]? = some (.sequence (s.itemsAt a)) := by
  unfold itemsAt at h ⊢
  split at h
  · next hcell => simp only [hcell]
  · simp at h

/-- Items that spell data make a sequence that spells the sequence of these. -/
theorem spells_sequence (kind : SequenceKind) {a : Address} {items : Array Value}
    {ds : List Datum} (hcell : s.cells[a]? = some (.sequence items))
    (h : List.Forall₂ s.Spells items.toList ds) :
    s.Spells (.sequence kind a) (.sequence kind ds) := by
  obtain ⟨rfl, hitems⟩ := eq_map_of_forall₂ (fun _ _ h => h.datumOf_eq) h
  exact .sequence kind hcell _ fun x hx => hitems x (by simpa using hx)

/-- The entry of a map spells an entry of data. -/
def SpellsEntry (s : Store) (entry : Value × Value) (d : Datum × Datum) : Prop :=
  s.Spells entry.1 d.1 ∧ s.Spells entry.2 d.2

theorem spells_map {a : Address} {entries : OrderedMap Key (Value × Value)}
    {ds : List (Datum × Datum)} (hcell : s.cells[a]? = some (.map entries))
    (h : List.Forall₂ s.SpellsEntry entries.values ds) : s.Spells (.map a) (.map ds) := by
  have hdatum : ∀ entry d, s.SpellsEntry entry d → (s.datumOf entry.1, s.datumOf entry.2) = d :=
    fun _ _ h => Prod.ext h.1.datumOf_eq h.2.datumOf_eq
  obtain ⟨rfl, hentries⟩ := eq_map_of_forall₂ hdatum h
  exact .map hcell _ (fun entry hentry => (hentries entry hentry).1)
    fun entry hentry => (hentries entry hentry).2

theorem spells_set {a : Address} {members : OrderedMap Key Value} {ds : List Datum}
    (hcell : s.cells[a]? = some (.set members))
    (h : List.Forall₂ s.Spells members.values ds) : s.Spells (.set a) (.set ds) := by
  obtain ⟨rfl, hmembers⟩ := eq_map_of_forall₂ (fun _ _ h => h.datumOf_eq) h
  exact .set hcell _ hmembers

end Store

end CellScript
