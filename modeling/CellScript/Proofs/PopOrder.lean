import CellScript.Heap

/-!
The order of pops.

A heap has two ways to its items. Pops take them out one by one, the greatest slot first, and the
text of the heap has them all at once, from the sorted slots read backwards. The two give the same
list: items that may stand either way round are equal, so the items of a heap can be arranged in the
order of pops in one way only.
-/

namespace CellScript

open Std

/-! ### The order -/

/-- How two items stand in the order of pops. -/
def HeapOrder.compare : HeapOrder → HeapItem → HeapItem → Ordering
  | .max, a, b => HeapItem.compare b a
  | .min, a, b => HeapItem.compare a b

/-- No item comes before an earlier one. -/
def InPopOrder (order : HeapOrder) (items : List HeapItem) : Prop :=
  items.Pairwise fun a b => (order.compare a b).isLE

instance : TransCmp HeapItem.compare where
  eq_swap {a b} := by
    cases a <;> cases b
    case integer.integer | text.text =>
      simp only [HeapItem.compare]
      exact OrientedCmp.eq_swap
    all_goals rfl
  isLE_trans {a b c} := by
    cases a <;> cases b <;> cases c <;> simp only [HeapItem.compare, Ordering.isLE] <;>
      first | exact TransCmp.isLE_trans | simp

instance : LawfulEqCmp HeapItem.compare where
  eq_of_compare {a b} h := by
    cases a <;> cases b <;> simp only [HeapItem.compare] at h
    case integer.integer | text.text => rw [LawfulEqCmp.eq_of_compare h]
    all_goals cases h

instance (order : HeapOrder) : TransCmp order.compare where
  eq_swap {a b} := by
    cases order
    · change HeapItem.compare b a = (HeapItem.compare a b).swap
      exact OrientedCmp.eq_swap
    · change HeapItem.compare a b = (HeapItem.compare b a).swap
      exact OrientedCmp.eq_swap
  isLE_trans {a b c} hab hbc := by
    cases order
    · change (HeapItem.compare c a).isLE
      exact TransCmp.isLE_trans (show (HeapItem.compare c b).isLE from hbc) hab
    · change (HeapItem.compare a c).isLE
      exact TransCmp.isLE_trans (show (HeapItem.compare a b).isLE from hab) hbc

namespace HeapOrder

variable {order : HeapOrder} {a b : HeapItem}

theorem isLE_of_not_isLE (h : ¬(order.compare a b).isLE) : (order.compare b a).isLE := by
  have hgt : order.compare a b = .gt := by
    cases hc : order.compare a b <;> simp_all
  rw [OrientedCmp.gt_iff_lt.1 hgt]
  rfl

theorem eq_of_isLE (hab : (order.compare a b).isLE) (hba : (order.compare b a).isLE) : a = b := by
  have heq : order.compare a b = .eq := OrientedCmp.isLE_antisymm hab hba
  cases order with
  | max =>
    have hitems : HeapItem.compare b a = .eq := heq
    exact (LawfulEqCmp.eq_of_compare hitems).symm
  | min =>
    have hitems : HeapItem.compare a b = .eq := heq
    exact LawfulEqCmp.eq_of_compare hitems

end HeapOrder

theorem InPopOrder.eq_of_perm {order : HeapOrder} {items others : List HeapItem}
    (h : InPopOrder order items) (hothers : InPopOrder order others) (hperm : items.Perm others) :
    items = others :=
  hperm.eq_of_pairwise (fun _ _ _ _ => HeapOrder.eq_of_isLE) h hothers

/-! ### Slots -/

namespace HeapSlot

variable {order : HeapOrder} {slot : HeapSlot} {slots : List HeapSlot}

/-- The greater slot has the item that comes out first. -/
theorem compare_eq (a b : HeapSlot) : a.compare b = a.order.compare b.item a.item := by
  unfold compare
  split
  · next horder => rw [horder, HeapOrder.compare]
  · next horder => rw [horder, HeapOrder.compare]

theorem perm_insert (slot : HeapSlot) (slots : List HeapSlot) :
    (insert slot slots).Perm (slot :: slots) := by
  induction slots with
  | nil => exact .refl _
  | cons first rest ih =>
    rw [insert]
    split
    · exact .refl _
    · exact (ih.cons first).trans (.swap slot first rest)

theorem perm_sorted (slots : List HeapSlot) : (sorted slots).Perm slots := by
  induction slots with
  | nil => exact .refl _
  | cons slot rest ih => exact (perm_insert slot (sorted rest)).trans (ih.cons slot)

theorem perm_popOrder (slots : List HeapSlot) : (popOrder slots).Perm (slots.map item) :=
  ((List.reverse_perm _).trans (perm_sorted slots)).map item

/-- No slot has to come out before a later one. -/
def Ascend (order : HeapOrder) (slots : List HeapSlot) : Prop :=
  slots.Pairwise fun a b => (order.compare b.item a.item).isLE

theorem Ascend.insert (h : Ascend order slots) (hslot : slot.order = order)
    (hslots : ∀ other ∈ slots, other.order = order) : Ascend order (insert slot slots) := by
  induction slots with
  | nil => exact List.pairwise_singleton _ _
  | cons first rest ih =>
    obtain ⟨habove, hrest⟩ := List.pairwise_cons.1 h
    rw [HeapSlot.insert, compare_eq, hslot]
    split
    · next hle =>
      refine List.pairwise_cons.2 ⟨fun other hother => ?_, h⟩
      rcases List.mem_cons.1 hother with rfl | hother
      · exact hle
      · exact TransCmp.isLE_trans (habove other hother) hle
    · next hle =>
      have hmore := ih hrest fun other hother => hslots other (List.mem_cons_of_mem first hother)
      refine List.pairwise_cons.2 ⟨fun other hother => ?_, hmore⟩
      rcases List.mem_cons.1 ((perm_insert slot rest).subset hother) with rfl | hother
      · exact HeapOrder.isLE_of_not_isLE hle
      · exact habove other hother

theorem ascend_sorted (h : ∀ slot ∈ slots, slot.order = order) : Ascend order (sorted slots) := by
  induction slots with
  | nil => exact .nil
  | cons slot rest ih =>
    obtain ⟨hslot, hrest⟩ := List.forall_mem_cons.1 h
    refine (ih hrest).insert hslot fun other hother => ?_
    exact hrest other ((perm_sorted rest).subset hother)

theorem inPopOrder_popOrder (h : ∀ slot ∈ slots, slot.order = order) :
    InPopOrder order (popOrder slots) := by
  unfold InPopOrder popOrder
  rw [List.pairwise_map, List.pairwise_reverse]
  exact ascend_sorted h

/-- The greatest slot may come out before all others. -/
theorem isLE_of_takeGreatest? {greatest : HeapSlot} {others : List HeapSlot}
    (h : takeGreatest? slots = some (greatest, others))
    (horder : ∀ slot ∈ slots, slot.order = order) :
    ∀ other ∈ others, (order.compare greatest.item other.item).isLE := by
  induction slots generalizing greatest others with
  | nil => cases h
  | cons first rest ih =>
    obtain ⟨-, hrest⟩ := List.forall_mem_cons.1 horder
    rw [takeGreatest?] at h
    split at h
    · cases h
      simp
    · next best left hbest =>
      have hperm := perm_of_takeGreatest? hbest
      have hbelow := ih hbest hrest
      rw [compare_eq, hrest best (hperm.subset List.mem_cons_self)] at h
      split at h
      · next hle =>
        cases h
        intro other hother
        rcases List.mem_cons.1 (hperm.symm.subset hother) with rfl | hother
        · exact hle
        · exact TransCmp.isLE_trans hle (hbelow other hother)
      · next hle =>
        cases h
        exact List.forall_mem_cons.2 ⟨HeapOrder.isLE_of_not_isLE hle, hbelow⟩

end HeapSlot

/-! ### Heaps -/

namespace Heap

variable {h k : Heap} {item : HeapItem}

theorem perm_items (h : Heap) : h.items.Perm (h.slots.map HeapSlot.item) :=
  HeapSlot.perm_popOrder h.slots

theorem inPopOrder_items (h : Heap) : InPopOrder h.order h.items :=
  HeapSlot.inPopOrder_popOrder fun slot hslot => (h.uniform slot hslot).1

theorem element_of_mem_items (hitem : item ∈ h.items) : item.element = h.element := by
  obtain ⟨slot, hslot, rfl⟩ := List.mem_map.1 (h.perm_items.subset hitem)
  exact (h.uniform slot hslot).2

/-- The items of the slots, in the order of pops, are the items of the heap. -/
theorem items_eq {items : List HeapItem} (hperm : items.Perm (h.slots.map HeapSlot.item))
    (horder : InPopOrder h.order items) : h.items = items :=
  h.inPopOrder_items.eq_of_perm horder (h.perm_items.trans hperm.symm)

theorem push?_eq_some (hpush : h.push? item = some k) :
    k.order = h.order ∧ k.element = h.element ∧ k.items.Perm (item :: h.items) := by
  unfold push? at hpush
  split at hpush
  · cases hpush
    exact ⟨rfl, rfl, (perm_items _).trans (h.perm_items.symm.cons item)⟩
  · cases hpush

theorem push?_of_element (hkind : item.element = h.element) : ∃ k, h.push? item = some k := by
  unfold push?
  rw [dif_pos hkind]
  exact ⟨_, rfl⟩

theorem push?_of_ne (hkind : item.element ≠ h.element) : h.push? item = none := by
  unfold push?
  rw [dif_neg hkind]

theorem slots_eq_nil_of_pop? (hpop : h.pop? = none) : h.slots = [] := by
  unfold pop? at hpop
  split at hpop
  · next hnext => exact HeapSlot.takeGreatest?_eq_none_iff.1 hnext
  · cases hpop

/-- A pop hands out the first of the items, and the others stay as they are. -/
theorem pop?_eq_some (hpop : h.pop? = some (item, k)) :
    k.order = h.order ∧ k.element = h.element ∧ h.items = item :: k.items := by
  unfold pop? at hpop
  split at hpop
  · cases hpop
  · next slot others hnext =>
    cases hpop
    refine ⟨rfl, rfl, items_eq ?_ (List.pairwise_cons.2 ⟨fun other hother => ?_, ?_⟩)⟩
    · exact ((perm_items _).cons slot.item).trans
        ((HeapSlot.perm_of_takeGreatest? hnext).map HeapSlot.item)
    · obtain ⟨left, hleft, rfl⟩ := List.mem_map.1 ((perm_items _).subset hother)
      have horder : ∀ slot ∈ h.slots, slot.order = h.order := fun slot hslot =>
        (h.uniform slot hslot).1
      exact HeapSlot.isLE_of_takeGreatest? hnext horder left hleft
    · exact inPopOrder_items ⟨h.order, h.element, others, _⟩

theorem pop?_eq_none_iff : h.pop? = none ↔ h.items = [] := by
  constructor
  · intro hpop
    rw [items, slots_eq_nil_of_pop? hpop]
    rfl
  · intro hitems
    cases hpop : h.pop? with
    | none => rfl
    | some next =>
      obtain ⟨item, k⟩ := next
      obtain ⟨-, -, hnext⟩ := pop?_eq_some hpop
      rw [hitems] at hnext
      cases hnext

end Heap

end CellScript
