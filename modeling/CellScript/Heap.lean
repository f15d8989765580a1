import CellScript.Container

/-!
Heaps: priority queues of integers or of strings.

A heap keeps its items in slots. Slots are compared so that the greatest one is always the next to
come out; for a min-heap the comparison of the items is turned round. The slots stand in no order:
a pop takes out a greatest one, wherever it is. What all pops would hand out is found in another
way, by sorting the slots and reading them backwards.
-/

namespace CellScript

/-- An item of a heap. A string is a copy: it does not change with the string it came from. -/
inductive HeapItem
  | integer (value : Int64)
  | text (contents : String)
deriving Repr, DecidableEq, Inhabited

namespace HeapItem

def element : HeapItem → HeapElement
  | integer _ => .integer
  | text _ => .text

/-- Integers by value and strings by their characters; an integer is below every string. -/
def compare : HeapItem → HeapItem → Ordering
  | integer a, integer b => Ord.compare a b
  | integer _, text _ => .lt
  | text _, integer _ => .gt
  | text a, text b => Ord.compare a b

end HeapItem

/-- An item in a heap of the order. -/
structure HeapSlot where
  item : HeapItem
  order : HeapOrder
deriving Repr, DecidableEq, Inhabited

namespace HeapSlot

/-- The order of the first slot counts. -/
def compare (a b : HeapSlot) : Ordering :=
  match a.order with
  | .max => a.item.compare b.item
  | .min => b.item.compare a.item

/-- A greatest slot, and the other ones. -/
def takeGreatest? : List HeapSlot → Option (HeapSlot × List HeapSlot)
  | [] => none
  | first :: rest =>
    match takeGreatest? rest with
    | none => some (first, [])
    | some (greatest, others) =>
      if (greatest.compare first).isLE then some (first, rest)
      else some (greatest, first :: others)

/-- Puts a slot before the first one that is not less. -/
def insert (slot : HeapSlot) : List HeapSlot → List HeapSlot
  | [] => [slot]
  | first :: rest =>
    if (slot.compare first).isLE then slot :: first :: rest else first :: insert slot rest

/-- The slots from the least to the greatest. -/
def sorted : List HeapSlot → List HeapSlot
  | [] => []
  | slot :: rest => insert slot (sorted rest)

/-- The items in the order in which pops would hand them out. -/
def popOrder (slots : List HeapSlot) : List HeapItem := (sorted slots).reverse.map item

theorem takeGreatest?_eq_none_iff {slots : List HeapSlot} :
    takeGreatest? slots = none ↔ slots = [] := by
  cases slots with
  | nil => exact iff_of_true rfl rfl
  | cons first rest =>
    refine iff_of_false ?_ (List.cons_ne_nil first rest)
    rw [takeGreatest?]
    split
    · simp
    · split <;> simp

theorem perm_of_takeGreatest? {slots others : List HeapSlot} {greatest : HeapSlot}
    (h : takeGreatest? slots = some (greatest, others)) : (greatest :: others).Perm slots := by
  induction slots generalizing greatest others with
  | nil => cases h
  | cons first rest ih =>
    rw [takeGreatest?] at h
    split at h
    · next hnone =>
      cases h
      rw [takeGreatest?_eq_none_iff.1 hnone]
    · next best left hbest =>
      split at h
      · cases h
        exact .refl _
      · cases h
        exact (List.Perm.swap first greatest left).trans ((ih hbest).cons first)

end HeapSlot

/-- A heap: its slots have its own order, and all items are of one kind. -/
structure Heap where
  order : HeapOrder
  element : HeapElement
  slots : List HeapSlot
  uniform : ∀ slot ∈ slots, slot.order = order ∧ slot.item.element = element

namespace Heap

def empty (order : HeapOrder) (element : HeapElement) : Heap := ⟨order, element, [], by simp⟩

instance : Inhabited Heap := ⟨empty .max .integer⟩

def size (h : Heap) : Nat := h.slots.length

def isEmpty (h : Heap) : Bool := h.slots.isEmpty

/-- Takes in an item if it is of the kind that the heap holds. -/
def push? (h : Heap) (item : HeapItem) : Option Heap :=
  if fits : item.element = h.element then
    some { h with
      slots := ⟨item, h.order⟩ :: h.slots
      uniform := List.forall_mem_cons.2 ⟨⟨rfl, fits⟩, h.uniform⟩ }
  else none

/-- The next item and the heap without it. -/
def pop? (h : Heap) : Option (HeapItem × Heap) :=
  match hnext : HeapSlot.takeGreatest? h.slots with
  | none => none
  | some (slot, others) =>
    some (slot.item,
      { h with
        slots := others
        uniform := fun other hother => h.uniform other
          ((HeapSlot.perm_of_takeGreatest? hnext).subset (List.mem_cons_of_mem slot hother)) })

/-- The items, in the order of pops. -/
def items (h : Heap) : List HeapItem := HeapSlot.popOrder h.slots

end Heap

end CellScript
