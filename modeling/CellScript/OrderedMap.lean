/-!
Finite maps as lists of entries in the order of their keys. There is one list for each map, so
two maps with the same entries are equal, whatever the order in which the entries came.
-/

namespace CellScript

open Std

variable {κ α : Type} [Ord κ]

/-- Keys that get larger from each entry to every later one. -/
def KeysAscend (entries : List (κ × α)) : Prop :=
  entries.Pairwise fun a b => compare a.1 b.1 = .lt

/-- Puts an entry at its place, and over an entry of the same key. -/
def insertEntry (key : κ) (value : α) : List (κ × α) → List (κ × α)
  | [] => [(key, value)]
  | entry :: rest =>
    match compare key entry.1 with
    | .lt => (key, value) :: entry :: rest
    | .eq => (key, value) :: rest
    | .gt => entry :: insertEntry key value rest

theorem mem_insertEntry {key : κ} {value : α} {entries : List (κ × α)} {x : κ × α}
    (h : x ∈ insertEntry key value entries) : x = (key, value) ∨ x ∈ entries := by
  induction entries with
  | nil => simpa [insertEntry] using h
  | cons entry rest ih =>
    unfold insertEntry at h
    split at h
    · simpa using h
    · rcases List.mem_cons.1 h with h | h
      · exact .inl h
      · exact .inr (List.mem_cons_of_mem _ h)
    · rcases List.mem_cons.1 h with h | h
      · exact .inr (h ▸ List.mem_cons_self)
      · exact (ih h).imp_right (List.mem_cons_of_mem _)

theorem KeysAscend.insertEntry [TransOrd κ] (key : κ) (value : α) {entries : List (κ × α)}
    (h : KeysAscend entries) : KeysAscend (CellScript.insertEntry key value entries) := by
  induction entries with
  | nil => exact List.pairwise_singleton _ _
  | cons entry rest ih =>
    obtain ⟨below, tail⟩ := List.pairwise_cons.1 h
    unfold CellScript.insertEntry
    split
    · next hlt =>
      refine List.pairwise_cons.2 ⟨fun x hx => ?_, h⟩
      rcases List.mem_cons.1 hx with rfl | hx
      · exact hlt
      · exact TransCmp.lt_trans hlt (below x hx)
    · next heq =>
      exact List.pairwise_cons.2
        ⟨fun x hx => TransCmp.lt_of_eq_of_lt heq (below x hx), tail⟩
    · next hgt =>
      refine List.pairwise_cons.2 ⟨fun x hx => ?_, ih tail⟩
      rcases mem_insertEntry hx with rfl | hx
      · exact OrientedCmp.gt_iff_lt.1 hgt
      · exact below x hx

/-- A finite map with its entries in the order of their keys. -/
structure OrderedMap (κ α : Type) [Ord κ] where
  entries : List (κ × α)
  ascend : KeysAscend entries

namespace OrderedMap

def empty : OrderedMap κ α := ⟨[], List.Pairwise.nil⟩

instance : Inhabited (OrderedMap κ α) := ⟨empty⟩

/-- The map with `key` bound to `value`, and all else as it was. -/
def insert [TransOrd κ] (m : OrderedMap κ α) (key : κ) (value : α) : OrderedMap κ α :=
  ⟨insertEntry key value m.entries, m.ascend.insertEntry key value⟩

/-- The map without an entry for `key`. -/
def erase (m : OrderedMap κ α) (key : κ) : OrderedMap κ α :=
  ⟨m.entries.filter fun entry => compare key entry.1 != .eq, m.ascend.filter _⟩

/-- The value that `key` is bound to. -/
def find? (m : OrderedMap κ α) (key : κ) : Option α :=
  (m.entries.find? fun entry => compare key entry.1 == .eq).map Prod.snd

def contains (m : OrderedMap κ α) (key : κ) : Bool := (m.find? key).isSome

def size (m : OrderedMap κ α) : Nat := m.entries.length

/-- The values in the order of their keys. -/
def values (m : OrderedMap κ α) : List α := m.entries.map Prod.snd

theorem ext {m n : OrderedMap κ α} (h : m.entries = n.entries) : m = n := by
  cases m; cases n; cases h; rfl

end OrderedMap

end CellScript
