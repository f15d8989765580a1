import CellScript.Proofs.Runs
import CellScript.Proofs.Spelling

/-!
Running the text of a datum.

The literal of a datum comes to a value that spells the filed form of the datum, with new cells and
no other change to the cells that were there. So the text of a value that spells a datum runs in
every session, and the result has the same text just if the value shows its keys in order.
-/

namespace CellScript

open Std

/-! ### Evaluation -/

/-- From the machine a value is delivered to the frames, which spells the datum in a store that
keeps all cells of `s`. -/
def Machine.Yields (limit : Nat) (m : Machine) (frames : List Frame) (s : Store) (d : Datum) :
    Prop :=
  ∃ n w t, m.after limit n = ⟨.deliver w, frames, t⟩ ∧ s.Extends t ∧ t.Spells w d

/-- Evaluating the expression gives a value that spells the datum, wherever it stands. -/
def Expr.Makes (limit : Nat) (e : Expr) (d : Datum) : Prop :=
  ∀ scope frames s, Machine.Yields limit ⟨.evaluate e scope, frames, s⟩ frames s d

namespace Machine

variable {limit : Nat} {m : Machine} {frames : List Frame} {s : Store} {scope : ScopeId}
  {d : Datum}

theorem Yields.of_step (h : (m.step limit).Yields limit frames s d) :
    m.Yields limit frames s d := by
  obtain ⟨n, w, t, hafter, hgrow, hspells⟩ := h
  exact ⟨n + 1, w, t, by rw [after_succ, hafter], hgrow, hspells⟩

/-- What the innermost frame makes of the value is what the machine comes to. -/
theorem Yields.resume {frame : Frame} {e : Datum} (h : m.Yields limit (frame :: frames) s d)
    (hresume : ∀ w t, s.Extends t → t.Spells w d →
      (Machine.resume frame w frames t).Yields limit frames t e) :
    m.Yields limit frames s e := by
  obtain ⟨n, w, t, hafter, hgrow, hspells⟩ := h
  obtain ⟨k, x, u, hrest, hgrow', hspells'⟩ := hresume w t hgrow hspells
  refine ⟨n + (k + 1), x, u, ?_, hgrow.trans hgrow', hspells'⟩
  rw [after_add, hafter, after_succ]
  exact hrest

/-! ### Sequences -/

theorem yields_nextItem {kind : SequenceKind} {es : List Expr} {ds dones : List Datum}
    {done : Array Value} (h : List.Forall₂ (Expr.Makes limit) es ds)
    (hdone : List.Forall₂ s.Spells done.toList dones) :
    (nextItem kind done es scope frames s).Yields limit frames s
      (.sequence kind (dones ++ ds)) := by
  induction h generalizing s done dones with
  | nil =>
    rw [List.append_nil]
    have hgrow := s.extends_alloc (.sequence done)
    refine ⟨0, _, _, rfl, hgrow, Store.spells_sequence kind (s.getElem?_alloc _) ?_⟩
    exact hdone.imp fun _ _ h => h.mono hgrow
  | @cons e d es ds he _ ih =>
    refine (he scope (.item kind done es scope :: frames) s).resume fun w t hgrow hw => ?_
    have hmore : List.Forall₂ t.Spells (done.push w).toList (dones ++ [d]) := by
      rw [Array.toList_push]
      exact List.rel_append (hdone.imp fun _ _ h => h.mono hgrow) (.cons hw .nil)
    have hrest := ih hmore
    rwa [List.append_assoc] at hrest

end Machine

/-! ### Maps and sets -/

/-- The maps have the same keys, and what they file under them is related. -/
def FilesAlike {α β : Type} (R : α → β → Prop) (m : OrderedMap Key α) (n : OrderedMap Key β) :
    Prop :=
  List.Forall₂ (fun p q => p.1 = q.1 ∧ R p.2 q.2) m.entries n.entries

namespace FilesAlike

variable {α β : Type} {R S : α → β → Prop} {m : OrderedMap Key α} {n : OrderedMap Key β}

theorem insert (h : FilesAlike R m n) (key : Key) {x : α} {y : β} (hxy : R x y) :
    FilesAlike R (m.insert key x) (n.insert key y) := by
  unfold FilesAlike at h ⊢
  simp only [OrderedMap.insert]
  generalize m.entries = ps, n.entries = qs at h
  induction h with
  | nil => exact .cons ⟨rfl, hxy⟩ .nil
  | @cons p q ps qs hpq hrest ih =>
    simp only [insertEntry, hpq.1]
    split
    · exact .cons ⟨rfl, hxy⟩ (.cons hpq hrest)
    · exact .cons ⟨rfl, hxy⟩ hrest
    · exact .cons hpq ih

theorem imp (h : FilesAlike R m n) (hRS : ∀ x y, R x y → S x y) : FilesAlike S m n :=
  List.Forall₂.imp (fun _ _ hpq => ⟨hpq.1, hRS _ _ hpq.2⟩) h

theorem values (h : FilesAlike R m n) : List.Forall₂ R m.values n.values :=
  List.forall₂_map_left_iff.2 (List.forall₂_map_right_iff.2
    (List.Forall₂.imp (fun _ _ hpq => hpq.2) h))

end FilesAlike

namespace Machine

variable {limit : Nat} {frames : List Frame} {s : Store} {scope : ScopeId}

theorem yields_nextMember {es : List Expr} {ds : List Datum} {done : OrderedMap Key Value}
    {filed : OrderedMap Key Datum} (h : List.Forall₂ (Expr.Makes limit) es ds)
    (hdone : FilesAlike s.Spells done filed) :
    (nextMember done es scope frames s).Yields limit frames s
      (.set (fileInto Datum.key filed ds).values) := by
  induction h generalizing s done filed with
  | nil =>
    have hgrow := s.extends_alloc (.set done)
    refine ⟨0, _, _, rfl, hgrow, Store.spells_set (s.getElem?_alloc _) ?_⟩
    exact hdone.values.imp fun _ _ h => h.mono hgrow
  | @cons e d es ds he _ ih =>
    refine (he scope (.member done es scope :: frames) s).resume fun w t hgrow hw => ?_
    have hmore : FilesAlike t.Spells (done.insert (t.key w) w) (filed.insert d.key d) := by
      rw [hw.key_eq]
      exact (hdone.imp fun _ _ h => h.mono hgrow).insert d.key hw
    exact ih hmore

theorem yields_nextEntry {es : List (Expr × Expr)} {ds : List (Datum × Datum)}
    {done : OrderedMap Key (Value × Value)} {filed : OrderedMap Key (Datum × Datum)}
    (h : List.Forall₂ (fun e d => e.1.Makes limit d.1 ∧ e.2.Makes limit d.2) es ds)
    (hdone : FilesAlike s.SpellsEntry done filed) :
    (nextEntry done es scope frames s).Yields limit frames s
      (.map (fileInto (·.1.key) filed ds).values) := by
  induction h generalizing s done filed with
  | nil =>
    have hgrow := s.extends_alloc (.map done)
    refine ⟨0, _, _, rfl, hgrow, Store.spells_map (s.getElem?_alloc _) ?_⟩
    exact hdone.values.imp fun _ _ h => ⟨h.1.mono hgrow, h.2.mono hgrow⟩
  | @cons e d es ds he _ ih =>
    refine (he.1 scope (.entryKey done e.2 es scope :: frames) s).resume fun k t hgrow hk => ?_
    refine (he.2 scope (.entryValue done k es scope :: frames) t).resume fun w u hgrow' hw => ?_
    -- The entry is filed only after its value has come, but that has not changed the key.
    have hkey : u.Spells k d.1 := hk.mono hgrow'
    have hmore : FilesAlike u.SpellsEntry (done.insert (u.key k) (k, w))
        (filed.insert d.1.key d) := by
      rw [hkey.key_eq]
      refine (hdone.imp fun _ _ h => ?_).insert d.1.key ⟨hkey, hw⟩
      exact ⟨h.1.mono (hgrow.trans hgrow'), h.2.mono (hgrow.trans hgrow')⟩
    exact ih hmore

end Machine

/-! ### Heaps -/

/-- An item that may come last goes to the end of the row. -/
theorem Heap.Lists.push? {order : HeapOrder} {heap : Heap} {row more : HeapRow order} {n : Numeral}
    (h : heap.Lists row) (hmore : more.items = row.items ++ [n]) :
    ∃ after, heap.push? (.integer n.value) = some after ∧ after.Lists more := by
  have hkind : (HeapItem.integer n.value).element = heap.element := h.element_eq.symm
  obtain ⟨after, hpush⟩ := Heap.push?_of_element hkind
  obtain ⟨horder, helement, hperm⟩ := Heap.push?_eq_some hpush
  refine ⟨after, hpush, horder.trans h.order_eq, helement.trans h.element_eq, ?_⟩
  have hafter : InPopOrder order after.items := by
    rw [← h.order_eq, ← horder]
    exact after.inPopOrder_items
  refine hafter.eq_of_perm more.inOrder (hperm.trans ?_)
  rw [h.items_eq, hmore, List.map_append]
  exact (List.perm_append_singleton _ _).symm

theorem Numeral.makes (limit : Nat) (n : Numeral) : n.literal.Makes limit (.integer n) := by
  intro scope frames s
  by_cases h : 0 ≤ n.value
  · rw [literal, if_pos h]
    exact ⟨1, _, _, rfl, .refl s, .integer n⟩
  · rw [literal, if_neg h]
    refine ⟨3, .integer n.value, s, ?_, .refl s, .integer n⟩
    show (⟨.deliver (.integer (- -n.value)), frames, s⟩ : Machine) = _
    rw [Int64.neg_neg]

namespace Machine

variable {limit : Nat} {frames : List Frame} {s : Store} {scope : ScopeId} {order : HeapOrder}

theorem yields_nextHeapItem {heap : Heap} {row whole : HeapRow order} {rest : List Numeral}
    (hheap : heap.Lists row) (h : whole.items = row.items ++ rest) :
    (nextHeapItem heap (rest.map Numeral.literal) scope frames s).Yields limit frames s
      (.heap order whole) := by
  induction rest generalizing heap row s with
  | nil =>
    rw [List.append_nil] at h
    rw [HeapRow.ext h]
    have hdeliver : nextHeapItem heap [] scope frames s =
        ⟨.deliver (.heap order s.cells.size), frames, (s.alloc (.heap heap)).2⟩ := by
      rw [← hheap.order_eq]
      rfl
    exact ⟨0, _, _, hdeliver, s.extends_alloc _, .heap row (s.getElem?_alloc _) hheap⟩
  | cons n rest ih =>
    rw [List.append_cons] at h
    have hsome : InPopOrder order ((row.items ++ [n]).map fun n => .integer n.value) := by
      have hwhole := whole.inOrder
      rw [h, List.map_append] at hwhole
      exact hwhole.sublist (List.sublist_append_left _ _)
    -- The items come in the order of pops, so each goes behind those that are there.
    let more : HeapRow order := ⟨row.items ++ [n], hsome⟩
    have hitems : more.items = row.items ++ [n] := rfl
    obtain ⟨after, hafter, hmore⟩ := hheap.push? hitems
    refine (n.makes limit scope (.heapItem heap (rest.map _) scope :: frames) s).resume ?_
    intro w t hgrow hw
    cases hw
    have hpush : t.pushHeap heap (.integer n.value) = .ok after := by
      simp only [Store.pushHeap, Store.heapItem?, Option.bind_some, hafter]
    have hnext : (nextHeapItem after (rest.map Numeral.literal) scope frames t).Yields limit
        frames t (.heap order whole) := ih hmore h
    simpa only [Machine.resume, hpush] using hnext

end Machine

/-! ### Data -/

/-- The literal of a datum makes its filed form. -/
theorem Datum.makes (limit : Nat) (d : Datum) : d.literal.Makes limit d.filed := by
  induction d with
  | integer n =>
    rw [literal, filed]
    exact n.makes limit
  | boolean value =>
    rw [literal, filed]
    exact fun scope frames s => ⟨1, _, _, rfl, .refl s, .boolean value⟩
  | sequence kind items ih =>
    rw [literal, filed]
    exact fun scope frames s => .of_step (Machine.yields_nextItem (forall₂_map ih) .nil)
  | map entries hkeys hvalues =>
    rw [literal, filed]
    refine fun scope frames s => .of_step (Machine.yields_nextEntry (forall₂_map ?_) .nil)
    exact fun entry hentry => ⟨hkeys entry hentry, hvalues entry hentry⟩
  | set members ih =>
    rw [literal, filed]
    exact fun scope frames s => .of_step (Machine.yields_nextMember (forall₂_map ih) .nil)
  | heap order row =>
    rw [literal, filed]
    intro scope frames s
    have hempty : (Heap.empty order .integer).Lists (⟨[], .nil⟩ : HeapRow order) := ⟨rfl, rfl, rfl⟩
    exact .of_step (Machine.yields_nextHeapItem hempty rfl)

/-- Running the text of a datum gives a value that spells its filed form. -/
theorem Session.runSource_text (session : Session) (d : Datum) :
    ∃ fuel w t, session.runSource fuel d.text = some ⟨.ok w, session.limit, t⟩ ∧
      session.store.Extends t ∧ t.Spells w d.filed := by
  have hyields : (session.machine (.perform [.expression d.literal] Store.globalScope)).Yields
      session.limit [] session.store d.filed := by
    -- The first two steps lead into the block and into its only statement.
    refine .of_step (.of_step ?_)
    refine (d.makes session.limit Store.globalScope [.block [] Store.globalScope]
      session.store).resume fun w t _ hw => ?_
    exact ⟨0, w, t, by simp [Machine.resume, Machine.after, hw.not_returning], .refl t, hw⟩
  obtain ⟨n, w, t, hafter, hgrow, hw⟩ := hyields
  refine ⟨n, w, t, ?_, hgrow, hw⟩
  simp [runSource, d.parse_text, run, runIn, complete_eq, hafter, Machine.outcome?, Outcome.value,
    hw.unwrapped_eq, Except.map, Except.mapError]

/-- The text of a value that spells a datum runs in every session. The result is of the same kind,
and it has the same text just if every map and set in the value shows its keys in ascending order,
as they do where all is filed under its present key. Values that spell data and have the same key
spell the same datum. -/
theorem Session.displayed_data_runs {s : Store} {v : Value} {d : Datum} (hv : s.Spells v d) :
    (∀ session : Session, ∃ fuel answer w,
      session.runSource fuel (s.render v) = some answer ∧ answer.result = .ok w ∧ w.tag = v.tag ∧
        (answer.session.store.render w = s.render v ↔ s.KeysInOrder v)) ∧
    (s.FiledByPresentKeys v → s.KeysInOrder v) ∧
    ∀ (t : Store) (w : Value) (e : Datum), t.Spells w e → t.key w = s.key v → e = d := by
  refine ⟨fun session => ?_, Store.FiledByPresentKeys.keysInOrder, fun t w e hw hkey => ?_⟩
  · obtain ⟨fuel, w, t, hrun, -, hw⟩ := session.runSource_text d
    refine ⟨fuel, _, w, hv.render_eq ▸ hrun, rfl, ?_, ?_⟩
    · rw [hw.tag_eq, hv.tag_eq, d.tag_filed]
    · calc t.render w = s.render v ↔ d.filed.text = d.text := by rw [hw.render_eq, hv.render_eq]
        _ ↔ d.filed = d := ⟨Datum.text_inj, congrArg Datum.text⟩
        _ ↔ d.InOrder := Datum.filed_eq_self_iff
        _ ↔ s.KeysInOrder v := hv.inOrder_iff
  · rw [hw.key_eq, hv.key_eq] at hkey
    exact Datum.text_inj (congrArg Key.text hkey)

/-- A map from a heap to an array, which shares an array of integers with a set in it, comes back
with the text that it has. -/
theorem Session.displayed_data_runs_nested :
    let heap : Heap :=
      ⟨.min, .integer, [⟨.integer 3, .min⟩, ⟨.integer 1, .min⟩], by decide⟩
    let members : OrderedMap Key Value :=
      ⟨[(⟨.array, "[-5, 2]"⟩, .sequence .array 0), (⟨.boolean, "true"⟩, .boolean true)],
        by unfold KeysAscend; decide +kernel⟩
    let entries : OrderedMap Key (Value × Value) :=
      ⟨[(⟨.minheap, "minheap<int>\x7b1, 3\x7d"⟩, .heap .min 3, .sequence .array 2)],
        List.pairwise_singleton _ _⟩
    let s : Store := { Store.initial with
      cells := #[.sequence #[.integer (-5), .integer 2], .set members,
        .sequence #[.set 1, .sequence .array 0], .heap heap, .map entries] }
    let text := "\x7bminheap<int>\x7b1, 3\x7d: [hashset<>\x7b[-5, 2], true\x7d, [-5, 2]]\x7d"
    s.render (.map 4) = text ∧ (∃ d, s.Spells (.map 4) d) ∧
      ∃ fuel answer w, (start 0).runSource fuel text = some answer ∧ answer.result = .ok w ∧
        w.tag = .hashmap ∧ answer.session.store.render w = text := by
  intro heap members entries s text
  let row : HeapRow .min :=
    ⟨[⟨1, by decide⟩, ⟨3, by decide⟩], by unfold InPopOrder; decide +kernel⟩
  let low : Numeral := ⟨-5, by decide⟩
  let two : Numeral := ⟨2, by decide⟩
  have hpair : s.Spells (.sequence .array 0) (.sequence .array [.integer low, .integer two]) :=
    Store.spells_sequence .array rfl (.cons (.integer low) (.cons (.integer two) .nil))
  have hset := Store.spells_set (s := s) (a := 1) rfl (.cons hpair (.cons (.boolean true) .nil))
  have harray := Store.spells_sequence .array (s := s) (a := 2) rfl (.cons hset (.cons hpair .nil))
  have hheap : s.Spells (.heap .min 3) (.heap .min row) :=
    .heap row rfl ⟨rfl, rfl, by decide +kernel⟩
  have hentry : s.SpellsEntry (.heap .min 3, .sequence .array 2) (_, _) := ⟨hheap, harray⟩
  have hmap := Store.spells_map (s := s) (a := 4) rfl (.cons hentry .nil)
  have htext : s.render (.map 4) = text := by decide +kernel
  have hfiled : ∀ cell ∈ s.cells, ∀ p ∈ cell.filed, s.key p.2 = p.1 := by decide +kernel
  obtain ⟨hruns, hkeys, -⟩ := displayed_data_runs hmap
  have horder : s.KeysInOrder (.map 4) :=
    hkeys fun _ _ cell _ _ hcell => hfiled cell (Array.mem_of_getElem? hcell)
  obtain ⟨fuel, answer, w, hrun, hresult, htag, hsame⟩ := hruns (start 0)
  rw [htext] at hrun hsame
  exact ⟨htext, ⟨_, hmap⟩, fuel, answer, w, hrun, hresult, htag, hsame.2 horder⟩

/-- A member of a set is changed after it went in, and stays in the place of its old key. The text
of the set then runs, but gives a set with its members in another order. -/
theorem Session.changed_member_moves :
    let program : Program :=
      ⟨[.declare "a" (.sequence .array [.integer 1]),
        .declare "s" (.set [.identifier "a", .sequence .array [.integer 2]]),
        .expression (.call (.identifier "pop") [.identifier "a"]),
        .expression (.call (.identifier "push") [.identifier "a", .integer 3]),
        .expression (.identifier "s")]⟩
    let m := ((start 8).machine (.perform program.statements Store.globalScope)).after 8 80
    let again := (start 8).runSource 80 (m.store.render (.set 2))
    m.outcome?.map Outcome.result = some (.ok (.set 2)) ∧
      m.store.Spells (.set 2) (.set [.sequence .array [.integer ⟨3, by decide⟩],
        .sequence .array [.integer ⟨2, by decide⟩]]) ∧
      m.store.render (.set 2) = "hashset<>\x7b[3], [2]\x7d" ∧
      (again.map fun answer => answer.result.toOption.map answer.session.store.render) =
        some (some "hashset<>\x7b[2], [3]\x7d") := by
  intro program m again
  have hmembers : (m.store.setAt 2).entries =
      [(⟨.array, "[1]"⟩, .sequence .array 0), (⟨.array, "[2]"⟩, .sequence .array 1)] := by
    decide +kernel
  have hthree : m.store.itemsAt 0 = #[.integer 3] := by decide +kernel
  have htwo : m.store.itemsAt 1 = #[.integer 2] := by decide +kernel
  refine ⟨by decide +kernel, ?_, by decide +kernel, by decide +kernel⟩
  clear again
  clear_value m
  have harray (a : Address) (n : Numeral) (h : m.store.itemsAt a = #[.integer n.value]) :
      m.store.Spells (.sequence .array a) (.sequence .array [.integer n]) := by
    have hmem : .integer n.value ∈ m.store.itemsAt a := by simp [h]
    refine Store.spells_sequence .array (Store.cell_of_mem_itemsAt hmem) ?_
    rw [h]
    exact .cons (.integer n) .nil
  have hmem : (⟨.array, "[1]"⟩, .sequence .array 0) ∈ (m.store.setAt 2).entries := by
    simp [hmembers]
  refine Store.spells_set (Store.cell_of_mem_setAt hmem) ?_
  rw [OrderedMap.values, hmembers]
  exact .cons (harray 0 _ hthree) (.cons (harray 1 _ htwo) .nil)

end CellScript
