import CellScript.Proofs.CellChanges
import CellScript.Proofs.DatumEvaluation
import CellScript.Proofs.Utf8
import Mathlib.Algebra.Order.Group.Multiset
import Mathlib.Tactic.Abel

/-!
Heaps are priority queues.

Built-in functions are called one after the other, with any arguments, and some of the calls fail. A
heap holds at every moment what has been pushed onto it and not been popped since, each item as
often as that. A pop hands out an item that no other one has to precede, and the text of the heap
lists the items as pops would hand them out. No other call changes the heap; a string that has been
pushed may change afterwards, but its item does not.
-/

namespace CellScript

/-! ### The order of items -/

/-- Integers by value, strings by their bytes. Items of different kinds do not compare. -/
def HeapItem.AtMost : HeapItem → HeapItem → Prop
  | integer a, integer b => a.toInt ≤ b.toInt
  | text a, text b => utf8Bytes a ≤ utf8Bytes b
  | _, _ => False

/-- The first item may be handed out before the second: it is as large in a max-heap, and as small
in a min-heap. -/
def HeapOrder.Precedes : HeapOrder → HeapItem → HeapItem → Prop
  | .max, a, b => b.AtMost a
  | .min, a, b => a.AtMost b

theorem HeapItem.isLE_compare_iff {a b : HeapItem} (h : a.element = b.element) :
    (HeapItem.compare a b).isLE ↔ a.AtMost b := by
  cases a <;> cases b
  case integer.integer a b =>
    show (Ord.compare a b).isLE ↔ a.toInt ≤ b.toInt
    rw [← Int64.le_iff_toInt_le]
    exact Std.isLE_compare
  case text.text a b => exact isLE_compare_iff_utf8Bytes_le
  all_goals cases h

theorem HeapOrder.isLE_compare_iff {order : HeapOrder} {a b : HeapItem}
    (h : a.element = b.element) : (order.compare a b).isLE ↔ order.Precedes a b := by
  cases order with
  | max => exact HeapItem.isLE_compare_iff h.symm
  | min => exact HeapItem.isLE_compare_iff h

theorem HeapOrder.precedes_refl (order : HeapOrder) (item : HeapItem) :
    order.Precedes item item :=
  (isLE_compare_iff rfl).1 Std.ReflCmp.isLE_rfl

namespace Heap

theorem pairwise_precedes (h : Heap) : h.items.Pairwise h.order.Precedes := by
  refine h.inPopOrder_items.imp_of_mem fun {a b} ha hb hle => ?_
  have hsame : a.element = b.element :=
    (element_of_mem_items ha).trans (element_of_mem_items hb).symm
  exact (HeapOrder.isLE_compare_iff hsame).1 hle

theorem length_items (h : Heap) : h.items.length = h.size := by
  rw [h.perm_items.length_eq, List.length_map, size]

end Heap

/-! ### Calls on a heap -/

/-- A call of a built-in function with its arguments. -/
structure Call where
  function : Builtin
  arguments : List Value

namespace Call

def outcome (c : Call) (s : Store) : Outcome := c.function.call s c.arguments

/-- The item that the call has put into the heap in the cell `a`. -/
def accepted (a : Address) (s : Store) (c : Call) : Multiset HeapItem :=
  match c.function, c.arguments, (c.outcome s).result with
  | .push, [.heap _ b, value], .ok _ => if b = a then (s.heapItem? value).toList else 0
  | _, _, _ => 0

/-- The item that the call has handed out of the heap in the cell `a`. -/
def popped (a : Address) (s : Store) (c : Call) : Multiset HeapItem :=
  match c.function, c.arguments, (c.outcome s).result with
  | .pop, [.heap _ b], .ok value =>
    if b = a then ((c.outcome s).store.heapItem? value).toList else 0
  | _, _, _ => 0

/-- The call is a push of one value onto the heap in the cell `a`. -/
def Pushes (a : Address) (c : Call) : Prop :=
  ∃ label value, c = ⟨.push, [.heap label a, value]⟩

/-- The call is a pop of the heap in the cell `a`. -/
def Pops (a : Address) (c : Call) : Prop := ∃ label, c = ⟨.pop, [.heap label a]⟩

theorem accepted_of_not_pushes {a : Address} {c : Call} (h : ¬c.Pushes a) (s : Store) :
    c.accepted a s = 0 := by
  obtain ⟨function, arguments⟩ := c
  unfold accepted
  split
  · next label b value v hfunction harguments _ =>
    cases hfunction
    cases harguments
    by_cases hab : b = a
    · exact absurd ⟨label, value, by rw [hab]⟩ h
    · rw [if_neg hab]
  · rfl

theorem popped_of_not_pops {a : Address} {c : Call} (h : ¬c.Pops a) (s : Store) :
    c.popped a s = 0 := by
  obtain ⟨function, arguments⟩ := c
  unfold popped
  split
  · next label b value hfunction harguments _ =>
    cases hfunction
    cases harguments
    by_cases hab : b = a
    · exact absurd ⟨label, by rw [hab]⟩ h
    · rw [if_neg hab]
  · rfl

theorem not_pops_of_pushes {a : Address} {c : Call} (h : c.Pushes a) : ¬c.Pops a := by
  obtain ⟨label, value, rfl⟩ := h
  rintro ⟨_, hpop⟩
  cases hpop

end Call

namespace Store

/-- The store after calls, whether they fail or not. -/
def calls (s : Store) : List Call → Store
  | [] => s
  | c :: rest => (c.outcome s).store.calls rest

/-- All items that calls put into the heap in the cell `a`. -/
def accepted (a : Address) (s : Store) : List Call → Multiset HeapItem
  | [] => 0
  | c :: rest => c.accepted a s + (c.outcome s).store.accepted a rest

/-- All items that calls hand out of the heap in the cell `a`. -/
def popped (a : Address) (s : Store) : List Call → Multiset HeapItem
  | [] => 0
  | c :: rest => c.popped a s + (c.outcome s).store.popped a rest

/-- Popping the heap in the cell `a` until it is empty gives these items. -/
inductive Drains (order : HeapOrder) (a : Address) : Store → List HeapItem → Prop
  | empty {s : Store}
      (hpop : Builtin.pop.call s [.heap order a] =
        .fault (.emptyContainer .pop (.ofHeap order)) s) : Drains order a s []
  | next {s : Store} {value : Value} {item : HeapItem} {items : List HeapItem}
      (hpop : (Builtin.pop.call s [.heap order a]).result = .ok value)
      (hitem : (Builtin.pop.call s [.heap order a]).store.heapItem? value = some item)
      (hrest : Drains order a (Builtin.pop.call s [.heap order a]).store items) :
      Drains order a s (item :: items)

/-- The heap in the cell `a` is a priority queue that holds the items `due`. -/
structure PriorityQueue (s : Store) (a : Address) (order : HeapOrder) (kind : HeapElement)
    (due : Multiset HeapItem) : Prop where
  /-- A value of the right kind goes in. -/
  accepts : ∀ value : Value, value.tag = kind.tag → ∃ item, s.heapItem? value = some item ∧
    (Builtin.push.call s [.heap order a, value]).result = .ok .null
  /-- A value of another kind is rejected, and nothing changes. -/
  rejects : ∀ value : Value, value.tag ≠ kind.tag → Builtin.push.call s [.heap order a, value] =
    .fault (.heapElementMismatch kind value.tag) s
  len : Builtin.len.call s [.heap order a] = .value (.integer (Int64.ofNat due.card)) s
  /-- There is nothing to pop. -/
  popEmpty : due = 0 → Builtin.pop.call s [.heap order a] =
    .fault (.emptyContainer .pop (.ofHeap order)) s
  /-- A pop hands out one of the items, and no other one has to come before it. -/
  pop : due ≠ 0 → ∃ value item, (Builtin.pop.call s [.heap order a]).result = .ok value ∧
    (Builtin.pop.call s [.heap order a]).store.heapItem? value = some item ∧
    item ∈ due ∧ ∀ other ∈ due, order.Precedes item other
  /-- The sorted slots, read backwards, have the items as pops hand them out, and the text lists
  them so. -/
  popOrder : ∃ items : List HeapItem, HeapSlot.popOrder (s.heapAt a).slots = items ∧
    Drains order a s items ∧ (items : Multiset HeapItem) = due ∧
    items.Pairwise order.Precedes ∧ s.render (.heap order a) =
      heapOpener order kind ++ commaSeparated (items.map HeapItem.render) ++ braceCloser
  /-- A call whose first argument is not the heap does not change it. -/
  kept : ∀ (function : Builtin) (arguments : List Value),
    (∀ label, arguments.head? ≠ some (.heap label a)) →
      (function.call s arguments).store.cells[a]? = s.cells[a]?

variable {s : Store} {a : Address} {heap : Heap} {cell : Cell}

/-! ### One call -/

theorem getElem?_replaceHeap (h : s.cells[a]? = some (.heap heap)) (contents : Heap) :
    (s.replaceHeap a contents).cells[a]? = some (.heap contents) := by
  simp [replaceHeap, modify, Array.getElem?_modify, h]

theorem heapAt_eq (h : s.cells[a]? = some (.heap heap)) : s.heapAt a = heap := by
  simp [heapAt, h]

/-- A change for contents of another sort leaves a cell alone, wherever it takes place. -/
theorem getElem?_modify_of_eq (h : s.cells[a]? = some cell) (b : Address) {change : Cell → Cell}
    (hchange : change cell = cell) : (s.modify b change).cells[a]? = some cell := by
  by_cases hab : b = a <;> simp [modify, Array.getElem?_modify, hab, h, hchange]

theorem getElem?_alloc_of_some (h : s.cells[a]? = some cell) (new : Cell) :
    (s.alloc new).2.cells[a]? = some cell := by
  obtain ⟨ha, -⟩ := Array.getElem?_eq_some_iff.1 h
  have hkept : s.CellsKept none (s.alloc new).2 := .alloc s new
  rw [hkept.same a ha (by simp), h]

theorem getElem?_newItem_of_some (h : s.cells[a]? = some cell) (item : HeapItem) :
    (s.newItem item).2.cells[a]? = some cell := by
  cases item with
  | integer value => exact h
  | text contents => exact getElem?_alloc_of_some h _

/-- A value that has just been made from an item is read back as that item. -/
theorem heapItem?_newItem (s : Store) (item : HeapItem) :
    (s.newItem item).2.heapItem? (s.newItem item).1 = some item := by
  cases item with
  | integer value => rfl
  | text contents => simp [newItem, newText, alloc, heapItem?, textAt]

/-- A call on something else leaves the heap alone. -/
theorem heap_kept_of_head (h : s.cells[a]? = some (.heap heap)) (function : Builtin)
    {arguments : List Value} (hhead : ∀ label, arguments.head? ≠ some (.heap label a)) :
    (function.call s arguments).store.cells[a]? = some (.heap heap) := by
  have heffect := Builtin.call_effect s arguments function
  generalize function.call s arguments = o at heffect
  have hother {label : HeapOrder} {b : Address} {rest : List Value} (contents : Heap)
      (hargs : arguments = .heap label b :: rest) :
      (s.replaceHeap b contents).cells[a]? = some (.heap heap) := by
    have hab : b ≠ a := by
      intro hab
      rw [hargs, hab] at hhead
      exact hhead label rfl
    simp [replaceHeap, modify, Array.getElem?_modify, hab, h]
  cases heffect with
  | fails | answers | prints line => exact h
  | makesText contents => exact getElem?_alloc_of_some h _
  | changesItems kind b change v => exact getElem?_modify_of_eq h b rfl
  | extendsText b change => exact getElem?_modify_of_eq h b rfl
  | cutsText b change contents => exact getElem?_alloc_of_some (getElem?_modify_of_eq h b rfl) _
  | fillsHeap order b contents => exact hother contents rfl
  | drawsFromHeap order b contents item => exact getElem?_newItem_of_some (hother contents rfl) item
  | putsMember b member | dropsMember b key => exact getElem?_modify_of_eq h b rfl
  | putsEntry b key value | dropsEntry b key => exact getElem?_modify_of_eq h b rfl

/-- Of the calls on a heap, only `push` with one value and `pop` alone change it. -/
theorem heap_kept_of_function (h : s.cells[a]? = some (.heap heap)) {function : Builtin}
    {label : HeapOrder} {rest : List Value} (hpush : function = .push → ∀ value, rest ≠ [value])
    (hpop : function = .pop → rest ≠ []) :
    (function.call s (.heap label a :: rest)).store.cells[a]? = some (.heap heap) := by
  by_cases hmutates : function.mutates = false
  · obtain ⟨ha, -⟩ := Array.getElem?_eq_some_iff.1 h
    have hkept : s.CellsKept none (function.call s (.heap label a :: rest)).store :=
      Builtin.cellsKept_of_not_mutates hmutates s _
    rw [hkept.same a ha (by simp), h]
  -- the other functions that change their argument do not take a heap
  cases function
  case push =>
    match rest, hpush rfl with
    | [], _ => exact h
    | [value], hne => exact absurd rfl (hne value)
    | _ :: _ :: _, _ => exact h
  case pop =>
    match rest, hpop rfl with
    | [], hne => exact absurd rfl hne
    | _ :: _, _ => exact h
  case pushBack | pushFront | remove =>
    match rest with
    | [] => exact h
    | [_] => exact h
    | _ :: _ :: _ => exact h
  case popBack | popFront =>
    match rest with
    | [] => exact h
    | _ :: _ => exact h
  case insert => exact h
  all_goals exact absurd rfl hmutates

theorem element_of_tag {value : Value} {kind : HeapElement} (htag : value.tag = kind.tag) :
    ∃ item, s.heapItem? value = some item ∧ item.element = kind := by
  cases value
  case integer n =>
    cases kind with
    | integer => exact ⟨.integer n, rfl, rfl⟩
    | text => cases htag
  case text b =>
    cases kind with
    | integer => cases htag
    | text => exact ⟨.text (s.textAt b), rfl, rfl⟩
  case sequence sort b => cases sort <;> cases kind <;> cases htag
  case heap label b => cases label <;> cases kind <;> cases htag
  all_goals cases kind <;> cases htag

theorem tag_of_heapItem? {value : Value} {item : HeapItem} (h : s.heapItem? value = some item) :
    value.tag = item.element.tag := by
  cases value <;> cases h <;> rfl

/-- A push of a value of the right kind. -/
theorem push_accepted (h : s.cells[a]? = some (.heap heap)) (label : HeapOrder) {value : Value}
    (htag : value.tag = heap.element.tag) :
    ∃ item after, s.heapItem? value = some item ∧
      Builtin.push.call s [.heap label a, value] = .value .null (s.replaceHeap a after) ∧
      after.order = heap.order ∧ after.element = heap.element ∧
      (after.items : Multiset HeapItem) = item ::ₘ heap.items := by
  obtain ⟨item, hitem, hkind⟩ := element_of_tag (s := s) htag
  obtain ⟨after, hpush⟩ := Heap.push?_of_element hkind
  obtain ⟨horder, helement, hitems⟩ := Heap.push?_eq_some hpush
  refine ⟨item, after, hitem, ?_, horder, helement, Multiset.coe_eq_coe.2 hitems⟩
  simp [Builtin.call, Builtin.callPush, pushHeap, heapAt_eq h, hitem, hpush]

/-- A push of a value of another kind. -/
theorem push_rejected (h : s.cells[a]? = some (.heap heap)) (label : HeapOrder) {value : Value}
    (htag : value.tag ≠ heap.element.tag) :
    Builtin.push.call s [.heap label a, value] =
      .fault (.heapElementMismatch heap.element value.tag) s := by
  have hnone : (s.heapItem? value).bind heap.push? = none := by
    cases hitem : s.heapItem? value with
    | none => rfl
    | some item =>
      refine Heap.push?_of_ne fun hkind => htag ?_
      rw [tag_of_heapItem? hitem, hkind]
  simp [Builtin.call, Builtin.callPush, pushHeap, heapAt_eq h, hnone]

/-- A pop of an empty heap. -/
theorem pop_empty (h : s.cells[a]? = some (.heap heap)) (label : HeapOrder)
    (hitems : heap.items = []) :
    Builtin.pop.call s [.heap label a] = .fault (.emptyContainer .pop (.ofHeap label)) s := by
  have hpop := Heap.pop?_eq_none_iff.2 hitems
  simp [Builtin.call, Builtin.callPop, Builtin.takeNext, heapAt_eq h, hpop, Value.tag]

/-- A pop of a heap with an item in front. -/
theorem pop_next (h : s.cells[a]? = some (.heap heap)) (label : HeapOrder) {item : HeapItem}
    {items : List HeapItem} (hitems : heap.items = item :: items) :
    ∃ after : Heap, Builtin.pop.call s [.heap label a] =
        .fresh ((s.replaceHeap a after).newItem item) ∧
      after.order = heap.order ∧ after.element = heap.element ∧ after.items = items := by
  cases hpop : heap.pop? with
  | none =>
    rw [Heap.pop?_eq_none_iff.1 hpop] at hitems
    cases hitems
  | some next =>
    obtain ⟨first, after⟩ := next
    obtain ⟨horder, helement, hrest⟩ := Heap.pop?_eq_some hpop
    rw [hitems] at hrest
    cases hrest
    refine ⟨after, ?_, horder, helement, rfl⟩
    simp [Builtin.call, Builtin.callPop, Builtin.takeNext, heapAt_eq h, hpop]

/-- Any other call leaves the heap alone. -/
theorem heap_kept (h : s.cells[a]? = some (.heap heap)) {c : Call} (hpush : ¬c.Pushes a)
    (hpop : ¬c.Pops a) : (c.outcome s).store.cells[a]? = some (.heap heap) := by
  obtain ⟨function, arguments⟩ := c
  by_cases hhead : ∃ label, arguments.head? = some (.heap label a)
  · obtain ⟨label, hlabel⟩ := hhead
    obtain ⟨rest, rfl⟩ := List.head?_eq_some_iff.1 hlabel
    refine heap_kept_of_function h ?_ ?_
    · rintro rfl value rfl
      exact hpush ⟨label, value, rfl⟩
    · rintro rfl rfl
      exact hpop ⟨label, rfl⟩
  · exact heap_kept_of_head h function fun label hlabel => hhead ⟨label, hlabel⟩

/-- One call keeps the books: what is there after it and what it has handed out make up what was
there and what it has put in. -/
theorem heap_balance_call (h : s.cells[a]? = some (.heap heap)) (c : Call) :
    ∃ after : Heap, (c.outcome s).store.cells[a]? = some (.heap after) ∧
      after.order = heap.order ∧ after.element = heap.element ∧
      (after.items : Multiset HeapItem) + c.popped a s = heap.items + c.accepted a s := by
  by_cases hpush : c.Pushes a
  · rw [Call.popped_of_not_pops (Call.not_pops_of_pushes hpush)]
    obtain ⟨label, value, rfl⟩ := hpush
    by_cases htag : value.tag = heap.element.tag
    · obtain ⟨item, after, hitem, hcall, horder, helement, hitems⟩ := push_accepted h label htag
      have haccepted : Call.accepted a s ⟨.push, [.heap label a, value]⟩ = {item} := by
        simp [Call.accepted, Call.outcome, hcall, Outcome.value, hitem]
      refine ⟨after, ?_, horder, helement, ?_⟩
      · rw [Call.outcome, hcall]
        exact getElem?_replaceHeap h after
      · rw [haccepted, hitems, add_zero, add_comm, Multiset.singleton_add]
    · have hcall := push_rejected h label htag
      have haccepted : Call.accepted a s ⟨.push, [.heap label a, value]⟩ = 0 := by
        simp [Call.accepted, Call.outcome, hcall, Outcome.fault]
      refine ⟨heap, ?_, rfl, rfl, by rw [haccepted]⟩
      rw [Call.outcome, hcall]
      exact h
  rw [Call.accepted_of_not_pushes hpush]
  by_cases hpop : c.Pops a
  · obtain ⟨label, rfl⟩ := hpop
    cases hitems : heap.items with
    | nil =>
      have hcall := pop_empty h label hitems
      have hpopped : Call.popped a s ⟨.pop, [.heap label a]⟩ = 0 := by
        simp [Call.popped, Call.outcome, hcall, Outcome.fault]
      refine ⟨heap, ?_, rfl, rfl, by rw [hpopped, hitems]⟩
      rw [Call.outcome, hcall]
      exact h
    | cons item items =>
      obtain ⟨after, hcall, horder, helement, rfl⟩ := pop_next h label hitems
      have hpopped : Call.popped a s ⟨.pop, [.heap label a]⟩ = {item} := by
        simp [Call.popped, Call.outcome, hcall, Outcome.fresh, Outcome.value, heapItem?_newItem]
      refine ⟨after, ?_, horder, helement, ?_⟩
      · rw [Call.outcome, hcall]
        exact getElem?_newItem_of_some (getElem?_replaceHeap h after) item
      · rw [hpopped, add_zero, add_comm, Multiset.singleton_add]
        rfl
  · rw [Call.popped_of_not_pops hpop]
    exact ⟨heap, heap_kept h hpush hpop, rfl, rfl, rfl⟩

/-! ### Any number of calls -/

theorem heap_balance (h : s.cells[a]? = some (.heap heap)) (calls : List Call) :
    ∃ after : Heap, (s.calls calls).cells[a]? = some (.heap after) ∧
      after.order = heap.order ∧ after.element = heap.element ∧
      (after.items : Multiset HeapItem) + s.popped a calls = heap.items + s.accepted a calls := by
  induction calls generalizing s heap with
  | nil => exact ⟨heap, h, rfl, rfl, rfl⟩
  | cons c rest ih =>
    obtain ⟨next, hnext, horder, helement, hbalance⟩ := heap_balance_call h c
    obtain ⟨after, hafter, horder', helement', hbalance'⟩ := ih hnext
    refine ⟨after, hafter, horder'.trans horder, helement'.trans helement, ?_⟩
    calc (after.items : Multiset HeapItem) + s.popped a (c :: rest)
        = (after.items + (c.outcome s).store.popped a rest) + c.popped a s := by
          rw [popped]
          abel
      _ = (next.items + c.popped a s) + (c.outcome s).store.accepted a rest := by
          rw [hbalance']
          abel
      _ = heap.items + s.accepted a (c :: rest) := by
          rw [hbalance, accepted]
          abel

/-- Pops hand out the items in the order that comes of sorting. -/
theorem drains_items (h : s.cells[a]? = some (.heap heap)) (label : HeapOrder) :
    Drains label a s heap.items := by
  generalize hitems : heap.items = items
  induction items generalizing s heap with
  | nil => exact .empty (pop_empty h label hitems)
  | cons item items ih =>
    obtain ⟨after, hcall, -, -, hrest⟩ := pop_next h label hitems
    have hafter := getElem?_newItem_of_some (getElem?_replaceHeap h after) item
    have hresult : (Builtin.pop.call s [.heap label a]).result =
        .ok ((s.replaceHeap a after).newItem item).1 := by
      rw [hcall]
      rfl
    have hstore : (Builtin.pop.call s [.heap label a]).store =
        ((s.replaceHeap a after).newItem item).2 := by
      rw [hcall]
      rfl
    refine .next hresult ?_ ?_
    · rw [hstore]
      exact heapItem?_newItem _ item
    · rw [hstore]
      exact ih hafter hrest

theorem render_heap (h : s.cells[a]? = some (.heap heap)) (label : HeapOrder) :
    s.render (.heap label a) = heapOpener heap.order heap.element ++
      commaSeparated (heap.items.map HeapItem.render) ++ braceCloser := by
  show (s.heapAt a).render = _
  rw [heapAt_eq h, Heap.render]

theorem priorityQueue_of_heap (h : s.cells[a]? = some (.heap heap)) :
    s.PriorityQueue a heap.order heap.element heap.items where
  accepts value htag := by
    obtain ⟨item, after, hitem, hcall, -⟩ := push_accepted h heap.order htag
    refine ⟨item, hitem, ?_⟩
    rw [hcall]
    rfl
  rejects value htag := push_rejected h heap.order htag
  len := by simp [Builtin.call, Builtin.callLen, length?, heapAt_eq h, heap.length_items]
  popEmpty hdue := pop_empty h heap.order (Multiset.coe_eq_zero _ |>.1 hdue)
  pop hdue := by
    cases hitems : heap.items with
    | nil => exact absurd (by rw [hitems]; rfl) hdue
    | cons item items =>
      obtain ⟨after, hcall, -⟩ := pop_next h heap.order hitems
      refine ⟨((s.replaceHeap a after).newItem item).1, item, ?_, ?_, ?_, ?_⟩
      · rw [hcall]
        rfl
      · rw [hcall]
        exact heapItem?_newItem _ item
      · exact Multiset.mem_coe.2 List.mem_cons_self
      · intro other hother
        have hpairwise := heap.pairwise_precedes
        rw [hitems] at hpairwise
        rcases List.mem_cons.1 (Multiset.mem_coe.1 hother) with rfl | hother
        · exact heap.order.precedes_refl other
        · exact (List.pairwise_cons.1 hpairwise).1 other hother
  popOrder := ⟨heap.items, by rw [heapAt_eq h, Heap.items], drains_items h heap.order, rfl,
    heap.pairwise_precedes, render_heap h _⟩
  kept function arguments hhead := by rw [heap_kept_of_head h function hhead, h]

/-- After any calls, a heap is a priority queue of the items that it held at first and those that
have been pushed onto it, less those that have been popped. -/
theorem heap_is_priority_queue (h : s.cells[a]? = some (.heap heap)) (calls : List Call) :
    ∃ due : Multiset HeapItem,
      due + s.popped a calls = heap.items + s.accepted a calls ∧
      (s.calls calls).PriorityQueue a heap.order heap.element due := by
  obtain ⟨after, hafter, horder, helement, hbalance⟩ := heap_balance h calls
  refine ⟨after.items, hbalance, ?_⟩
  rw [← horder, ← helement]
  exact priorityQueue_of_heap hafter

/-- A string that is pushed onto a heap of strings and then made longer, a number that is rejected,
a smaller string and a pop. -/
theorem heap_is_priority_queue_strings :
    let s : Store := { Store.initial with
      cells := #[.heap (.empty .min .text), .text "b", .text "a"] }
    let calls : List Call := [⟨.push, [.heap .min 0, .text 1]⟩, ⟨.push, [.text 1, .text 2]⟩,
      ⟨.push, [.heap .min 0, .integer 3]⟩, ⟨.push, [.heap .min 0, .text 2]⟩,
      ⟨.pop, [.heap .min 0]⟩]
    s.accepted 0 calls = {.text "b", .text "a"} ∧ s.popped 0 calls = {.text "a"} ∧
      (s.calls calls).textAt 1 = "ba" ∧
      ∃ due : Multiset HeapItem, due + {.text "a"} = 0 + {.text "b", .text "a"} ∧
        (s.calls calls).PriorityQueue 0 .min .text due := by
  intro s calls
  have haccepted : s.accepted 0 calls = {.text "b", .text "a"} := by decide
  have hpopped : s.popped 0 calls = {.text "a"} := by decide
  refine ⟨haccepted, hpopped, by decide, ?_⟩
  obtain ⟨due, hbalance, hqueue⟩ := heap_is_priority_queue (s := s) (a := 0) rfl calls
  rw [hpopped, haccepted] at hbalance
  exact ⟨due, hbalance, hqueue⟩

end Store

end CellScript
