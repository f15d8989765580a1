import CellScript.Proofs.PopOrder
import CellScript.Rendering

/-!
Data: integers and truth values, and what containers make of them.

A datum is what a value looks like apart from its cells. It has a text and a literal, and it has a
filed form, in which the members of a set and the entries of a map stand in the order of their keys
and no key comes twice. A datum is its own filed form just if they stand so already.
-/

namespace CellScript

open Std

/-- An integer that has an opposite, so that a sign and digits can write it. -/
structure Numeral where
  value : Int64
  ne_min : value ≠ Int64.minValue

theorem Numeral.ext {m n : Numeral} (h : m.value = n.value) : m = n := by
  cases m; cases n; cases h; rfl

/-- Integers in the order in which a heap hands them out. -/
structure HeapRow (order : HeapOrder) where
  items : List Numeral
  inOrder : InPopOrder order (items.map fun n => .integer n.value)

inductive Datum
  | integer (n : Numeral)
  | boolean (value : Bool)
  | sequence (kind : SequenceKind) (items : List Datum)
  | map (entries : List (Datum × Datum))
  | set (members : List Datum)
  | heap (order : HeapOrder) (row : HeapRow order)

namespace Datum

theorem sizeOf_key_lt {entries : List (Datum × Datum)} {entry : Datum × Datum}
    (h : entry ∈ entries) : sizeOf entry.1 < sizeOf (map entries) := by
  have hlt := List.sizeOf_lt_of_mem h
  rw [Prod.mk.sizeOf_spec] at hlt
  rw [map.sizeOf_spec]
  omega

theorem sizeOf_value_lt {entries : List (Datum × Datum)} {entry : Datum × Datum}
    (h : entry ∈ entries) : sizeOf entry.2 < sizeOf (map entries) := by
  have hlt := List.sizeOf_lt_of_mem h
  rw [Prod.mk.sizeOf_spec] at hlt
  rw [map.sizeOf_spec]
  omega

/-! ### Texts and literals -/

def tag : Datum → TypeTag
  | integer _ => .integer
  | boolean _ => .boolean
  | sequence kind _ => .ofSequence kind
  | map _ => .hashmap
  | set _ => .hashset
  | heap order _ => .ofHeap order

def text : Datum → String
  | integer n => renderInt n.value
  | boolean value => renderBool value
  | sequence kind items => Shape.enclosed kind.opener kind.closer (items.map text)
  | map entries =>
    Shape.enclosed mapOpener braceCloser
      (entries.map fun entry => Shape.entry [text entry.1, text entry.2])
  | set members => Shape.enclosed setOpener braceCloser (members.map text)
  | heap order row =>
    Shape.enclosed (heapOpener order .integer) braceCloser
      (row.items.map fun n => renderInt n.value)
decreasing_by
  · decreasing_tactic
  · exact sizeOf_key_lt ‹_›
  · exact sizeOf_value_lt ‹_›
  · decreasing_tactic

/-- The key that maps and sets file the datum under. -/
def key (d : Datum) : Key := ⟨d.tag, d.text⟩

/-- Induction over the parts of a datum. -/
@[elab_as_elim, induction_eliminator]
theorem induct {motive : Datum → Prop} (integer : ∀ n, motive (integer n))
    (boolean : ∀ value, motive (boolean value))
    (sequence : ∀ kind items, (∀ d ∈ items, motive d) → motive (sequence kind items))
    (map : ∀ entries, (∀ entry ∈ entries, motive entry.1) → (∀ entry ∈ entries, motive entry.2) →
      motive (map entries))
    (set : ∀ members, (∀ d ∈ members, motive d) → motive (set members))
    (heap : ∀ order row, motive (heap order row)) (d : Datum) : motive d :=
  text.induct motive integer boolean sequence map set heap d

end Datum

/-- The expression for an integer. A negative one is the opposite of digits. -/
def Numeral.literal (n : Numeral) : Expr :=
  if 0 ≤ n.value then .integer n.value else .unary .negate (.integer (-n.value))

namespace Datum

/-- The expression that makes the datum. -/
def literal : Datum → Expr
  | integer n => n.literal
  | boolean value => .boolean value
  | sequence kind items => .sequence kind (items.map literal)
  | map entries => .map (entries.map fun entry => (literal entry.1, literal entry.2))
  | set members => .set (members.map literal)
  | heap order row => .heap order .integer (row.items.map Numeral.literal)
decreasing_by
  · decreasing_tactic
  · exact sizeOf_key_lt ‹_›
  · exact sizeOf_value_lt ‹_›
  · decreasing_tactic

end Datum

theorem Numeral.literal_cases (n : Numeral) :
    n.literal = .integer n.value ∨ n.literal = .unary .negate (.integer (-n.value)) := by
  unfold literal
  split
  · exact .inl rfl
  · exact .inr rfl

theorem Numeral.literal_inj {m n : Numeral} (h : m.literal = n.literal) : m = n := by
  rcases m.literal_cases with hm | hm <;> rcases n.literal_cases with hn | hn <;> rw [hm, hn] at h
  · exact Numeral.ext (Expr.integer.inj h)
  · cases h
  · cases h
  · exact Numeral.ext (Int64.neg_inj.1 (Expr.integer.inj (Expr.unary.inj h).2))

theorem HeapRow.ext {order : HeapOrder} {r t : HeapRow order} (h : r.items = t.items) : r = t := by
  cases r; cases t; cases h; rfl

theorem map_inj_of_forall {α β : Type} {f : α → β} {xs ys : List α}
    (hf : ∀ x ∈ xs, ∀ y, f x = f y → x = y) (h : xs.map f = ys.map f) : xs = ys := by
  induction xs generalizing ys with
  | nil => simpa using h.symm
  | cons x xs ih =>
    cases ys with
    | nil => cases h
    | cons y ys =>
      rw [List.map_cons, List.map_cons, List.cons.injEq] at h
      rw [hf x (by simp) y h.1, ih (fun x hx => hf x (by simp [hx])) h.2]

namespace Datum

/-- A literal makes one datum only. -/
theorem literal_inj {d e : Datum} (h : d.literal = e.literal) : d = e := by
  induction d generalizing e with
  | integer n =>
    cases e with
    | integer m =>
      rw [literal, literal] at h
      rw [Numeral.literal_inj h]
    | _ => rcases n.literal_cases with hn | hn <;> simp [literal, hn] at h
  | boolean value =>
    cases e with
    | boolean other => simpa [literal] using h
    | integer m => rcases m.literal_cases with hm | hm <;> simp [literal, hm] at h
    | _ => simp [literal] at h
  | sequence kind items ih =>
    cases e with
    | sequence other others =>
      simp only [literal, Expr.sequence.injEq] at h
      rw [h.1, map_inj_of_forall (fun d hd _ => ih d hd) h.2]
    | integer m => rcases m.literal_cases with hm | hm <;> simp [literal, hm] at h
    | _ => simp [literal] at h
  | map entries hkeys hvalues =>
    cases e with
    | map others =>
      simp only [literal, Expr.map.injEq] at h
      refine congrArg map (map_inj_of_forall (fun entry hentry other heq => ?_) h)
      obtain ⟨hkey, hvalue⟩ := Prod.mk.inj heq
      exact Prod.ext (hkeys entry hentry hkey) (hvalues entry hentry hvalue)
    | integer m => rcases m.literal_cases with hm | hm <;> simp [literal, hm] at h
    | _ => simp [literal] at h
  | set members ih =>
    cases e with
    | set others =>
      simp only [literal, Expr.set.injEq] at h
      rw [map_inj_of_forall (fun d hd _ => ih d hd) h]
    | integer m => rcases m.literal_cases with hm | hm <;> simp [literal, hm] at h
    | _ => simp [literal] at h
  | heap order row =>
    cases e with
    | heap other otherRow =>
      simp only [literal, Expr.heap.injEq] at h
      obtain ⟨rfl, -, hitems⟩ := h
      rw [HeapRow.ext (map_inj_of_forall (fun _ _ _ => Numeral.literal_inj) hitems)]
    | integer m => rcases m.literal_cases with hm | hm <;> simp [literal, hm] at h
    | _ => simp [literal] at h

end Datum

/-! ### Filing -/

section Filing

variable {α : Type} (key : α → Key)

/-- What is filed under its own keys stands in the order of these. -/
theorem values_ascend {m : OrderedMap Key α} (h : ∀ entry ∈ m.entries, entry.1 = key entry.2) :
    m.values.Pairwise fun x y => compare (key x) (key y) = .lt := by
  refine List.pairwise_map.2 (m.ascend.imp_of_mem ?_)
  intro a b ha hb hlt
  rwa [← h a ha, ← h b hb]

/-- Files things under their keys one after the other. Of two with the same key the later stays. -/
def fileInto (done : OrderedMap Key α) (xs : List α) : OrderedMap Key α :=
  xs.foldl (fun done x => done.insert (key x) x) done

theorem mem_fileInto {done : OrderedMap Key α} {xs : List α} {entry : Key × α}
    (h : entry ∈ (fileInto key done xs).entries) :
    entry ∈ done.entries ∨ entry.1 = key entry.2 ∧ entry.2 ∈ xs := by
  induction xs generalizing done with
  | nil => exact .inl h
  | cons x xs ih =>
    rcases ih h with h | ⟨hkey, hmem⟩
    · rcases mem_insertEntry h with rfl | h
      · exact .inr ⟨rfl, by simp⟩
      · exact .inl h
    · exact .inr ⟨hkey, by simp [hmem]⟩

/-- The things in the order of their keys, without repeated keys. -/
def inKeyOrder (xs : List α) : List α := (fileInto key .empty xs).values

theorem mem_of_mem_inKeyOrder {xs : List α} {x : α} (h : x ∈ inKeyOrder key xs) : x ∈ xs := by
  obtain ⟨entry, hentry, rfl⟩ := List.mem_map.1 h
  rcases mem_fileInto key hentry with hnone | ⟨-, hmem⟩
  · cases hnone
  · exact hmem

theorem inKeyOrder_ascends (xs : List α) :
    (inKeyOrder key xs).Pairwise fun x y => compare (key x) (key y) = .lt := by
  refine values_ascend key fun entry hentry => ?_
  rcases mem_fileInto key hentry with hnone | ⟨hkey, -⟩
  · cases hnone
  · exact hkey

theorem insertEntry_last {k : Key} {x : α} {entries : List (Key × α)}
    (h : ∀ entry ∈ entries, compare entry.1 k = .lt) :
    insertEntry k x entries = entries ++ [(k, x)] := by
  induction entries with
  | nil => rfl
  | cons entry rest ih =>
    have hgt : compare k entry.1 = .gt := OrientedCmp.gt_iff_lt.2 (h entry (by simp))
    rw [insertEntry, hgt]
    simp only [List.cons_append, List.cons.injEq, true_and]
    exact ih fun e he => h e (by simp [he])

theorem entries_fileInto (done : OrderedMap Key α) {xs : List α}
    (hdone : ∀ entry ∈ done.entries, ∀ x ∈ xs, compare entry.1 (key x) = .lt)
    (hxs : xs.Pairwise fun x y => compare (key x) (key y) = .lt) :
    (fileInto key done xs).entries = done.entries ++ xs.map fun x => (key x, x) := by
  induction xs generalizing done with
  | nil => simp [fileInto]
  | cons x xs ih =>
    obtain ⟨hx, hxs⟩ := List.pairwise_cons.1 hxs
    -- All that is filed already stays below all that is still to come.
    have hlast : (done.insert (key x) x).entries = done.entries ++ [(key x, x)] :=
      insertEntry_last fun entry hentry => hdone entry hentry x (by simp)
    have hbelow : ∀ entry ∈ (done.insert (key x) x).entries, ∀ y ∈ xs,
        compare entry.1 (key y) = .lt := by
      intro entry hentry y hy
      rw [hlast, List.mem_append, List.mem_singleton] at hentry
      rcases hentry with hentry | rfl
      · exact hdone entry hentry y (by simp [hy])
      · exact hx y hy
    have hrest := ih (done.insert (key x) x) hbelow hxs
    rw [hlast] at hrest
    simpa [fileInto] using hrest

theorem inKeyOrder_eq_self {xs : List α}
    (h : xs.Pairwise fun x y => compare (key x) (key y) = .lt) : inKeyOrder key xs = xs := by
  have hentries := entries_fileInto key .empty (by simp [OrderedMap.empty]) h
  rw [inKeyOrder, OrderedMap.values, hentries]
  simp [OrderedMap.empty, Function.comp_def]

end Filing

namespace Datum

/-- The datum with all its maps and sets in the order of their keys. -/
def filed : Datum → Datum
  | integer n => integer n
  | boolean value => boolean value
  | sequence kind items => sequence kind (items.map filed)
  | map entries =>
    map (inKeyOrder (·.1.key) (entries.map fun entry => (filed entry.1, filed entry.2)))
  | set members => set (inKeyOrder key (members.map filed))
  | heap order row => heap order row
decreasing_by
  · decreasing_tactic
  · exact sizeOf_key_lt ‹_›
  · exact sizeOf_value_lt ‹_›
  · decreasing_tactic

theorem tag_filed (d : Datum) : d.filed.tag = d.tag := by
  cases d <;> rw [filed] <;> rfl

/-- All maps and sets are in the order of their keys, and no key comes twice. -/
inductive InOrder : Datum → Prop
  | integer (n : Numeral) : InOrder (integer n)
  | boolean (value : Bool) : InOrder (boolean value)
  | sequence (kind : SequenceKind) {items : List Datum} (h : ∀ d ∈ items, InOrder d) :
      InOrder (sequence kind items)
  | map {entries : List (Datum × Datum)} (hkeys : ∀ entry ∈ entries, InOrder entry.1)
      (hvalues : ∀ entry ∈ entries, InOrder entry.2)
      (h : entries.Pairwise fun a b => compare a.1.key b.1.key = .lt) : InOrder (map entries)
  | set {members : List Datum} (hmembers : ∀ d ∈ members, InOrder d)
      (h : members.Pairwise fun a b => compare a.key b.key = .lt) : InOrder (set members)
  | heap (order : HeapOrder) (row : HeapRow order) : InOrder (heap order row)

theorem inOrder_sequence {kind : SequenceKind} {items : List Datum} :
    (sequence kind items).InOrder ↔ ∀ d ∈ items, d.InOrder := by
  constructor
  · rintro ⟨⟩
    assumption
  · exact .sequence kind

theorem inOrder_map {entries : List (Datum × Datum)} :
    (map entries).InOrder ↔ (entries.Pairwise fun a b => compare a.1.key b.1.key = .lt) ∧
      ∀ entry ∈ entries, entry.1.InOrder ∧ entry.2.InOrder := by
  constructor
  · rintro (_ | _ | _ | ⟨hkeys, hvalues, h⟩)
    exact ⟨h, fun entry hentry => ⟨hkeys entry hentry, hvalues entry hentry⟩⟩
  · rintro ⟨h, hparts⟩
    exact .map (fun entry hentry => (hparts entry hentry).1)
      (fun entry hentry => (hparts entry hentry).2) h

theorem inOrder_set {members : List Datum} :
    (set members).InOrder ↔ (members.Pairwise fun a b => compare a.key b.key = .lt) ∧
      ∀ d ∈ members, d.InOrder := by
  constructor
  · rintro (_ | _ | _ | _ | ⟨hmembers, h⟩)
    exact ⟨h, hmembers⟩
  · rintro ⟨h, hmembers⟩
    exact .set hmembers h

theorem InOrder.filed_eq {d : Datum} (h : d.InOrder) : d.filed = d := by
  induction h with
  | integer | boolean | heap => rw [filed]
  | sequence kind h ih => rw [filed, List.map_congr_left ih, List.map_id']
  | map hkeys hvalues h ihkeys ihvalues =>
    rw [filed, List.map_congr_left fun entry hentry =>
      show _ = entry from Prod.ext (ihkeys entry hentry) (ihvalues entry hentry), List.map_id',
      inKeyOrder_eq_self _ h]
  | set hmembers h ih => rw [filed, List.map_congr_left ih, List.map_id', inKeyOrder_eq_self _ h]

theorem inOrder_filed (d : Datum) : d.filed.InOrder := by
  induction d with
  | integer n => rw [filed]; exact .integer n
  | boolean value => rw [filed]; exact .boolean value
  | sequence kind items ih =>
    rw [filed]
    exact .sequence kind (by simpa using ih)
  | map entries hkeys hvalues =>
    rw [filed]
    refine .map ?_ ?_ (inKeyOrder_ascends _ _)
    · intro entry hentry
      obtain ⟨old, hold, rfl⟩ := List.mem_map.1 (mem_of_mem_inKeyOrder _ hentry)
      exact hkeys old hold
    · intro entry hentry
      obtain ⟨old, hold, rfl⟩ := List.mem_map.1 (mem_of_mem_inKeyOrder _ hentry)
      exact hvalues old hold
  | set members ih =>
    rw [filed]
    refine .set ?_ (inKeyOrder_ascends _ _)
    intro d hd
    obtain ⟨old, hold, rfl⟩ := List.mem_map.1 (mem_of_mem_inKeyOrder _ hd)
    exact ih old hold
  | heap order row => rw [filed]; exact .heap order row

/-- A datum is its own filed form just if it is in order. -/
theorem filed_eq_self_iff {d : Datum} : d.filed = d ↔ d.InOrder :=
  ⟨fun h => h ▸ d.inOrder_filed, InOrder.filed_eq⟩

end Datum

end CellScript
