import CellScript.Builtin

/-!
Invariants of all that a store holds.

A condition on values and one on functions hold of a store if they hold of whatever is bound or kept
in a container, and of every function cell. Operators and built-in functions only make values of a
few plain forms or hand on values that they got or found, so conditions that the plain forms meet
are kept by them all.
-/

namespace CellScript

/-- What a cell holds meets the conditions. -/
def Cell.All (P : Value → Prop) (F : Closure → Prop) : Cell → Prop
  | .text _ | .heap _ => True
  | .sequence items => ∀ v ∈ items, P v
  | .map entries => ∀ entry ∈ entries.entries, P entry.2.1 ∧ P entry.2.2
  | .set members => ∀ entry ∈ members.entries, P entry.2
  | .function closure => F closure

/-- All that a store holds meets the conditions. -/
structure Store.All (P : Value → Prop) (F : Closure → Prop) (s : Store) : Prop where
  cells : ∀ ⦃a : Address⦄ ⦃cell : Cell⦄, s.cells[a]? = some cell → cell.All P F
  bound : ∀ ⦃i : ScopeId⦄ ⦃scope : Scope⦄, s.scopes[i]? = some scope →
    ∀ entry ∈ scope.bindings.entries, P entry.2

namespace OrderedMap

variable {κ α : Type} [Ord κ]

theorem mem_of_find? {m : OrderedMap κ α} {key : κ} {value : α} (h : m.find? key = some value) :
    ∃ entry ∈ m.entries, entry.2 = value := by
  simp only [find?, Option.map_eq_some_iff] at h
  obtain ⟨entry, hfind, rfl⟩ := h
  exact ⟨entry, List.mem_of_find?_eq_some hfind, rfl⟩

theorem forall_insert [Std.TransOrd κ] {p : α → Prop} {m : OrderedMap κ α}
    (h : ∀ entry ∈ m.entries, p entry.2) (key : κ) {value : α} (hv : p value) :
    ∀ entry ∈ (m.insert key value).entries, p entry.2 := by
  intro entry hentry
  rcases mem_insertEntry hentry with rfl | hentry
  · exact hv
  · exact h entry hentry

end OrderedMap

namespace Store.All

variable {P : Value → Prop} {F : Closure → Prop} {s : Store}

theorem initial : Store.initial.All P F where
  cells a cell h := by simp [Store.initial] at h
  bound i scope h := by
    cases i with
    | zero =>
      obtain rfl : ⟨.empty, none⟩ = scope := by simpa [Store.initial] using h
      simp [OrderedMap.empty]
    | succ i => simp [Store.initial] at h

theorem withDepth (h : s.All P F) (n : Nat) : ({ s with depth := n } : Store).All P F :=
  ⟨h.cells, h.bound⟩

theorem printLine (h : s.All P F) (line : String) : (s.printLine line).All P F :=
  ⟨h.cells, h.bound⟩

theorem alloc (h : s.All P F) (cell : Cell) (hcell : cell.All P F) :
    (s.alloc cell).2.All P F where
  cells a found hfound := by
    simp only [Store.alloc, Array.getElem?_push] at hfound
    split at hfound
    · cases hfound
      exact hcell
    · exact h.cells hfound
  bound := h.bound

theorem modify (h : s.All P F) (a : Address) {change : Cell → Cell}
    (hchange : ∀ cell, cell.All P F → (change cell).All P F) : (s.modify a change).All P F where
  cells b found hfound := by
    simp only [Store.modify, Array.getElem?_modify] at hfound
    split at hfound
    · obtain ⟨cell, hcell, rfl⟩ := Option.map_eq_some_iff.1 hfound
      exact hchange cell (h.cells hcell)
    · exact h.cells hfound
  bound := h.bound

theorem modifyText (h : s.All P F) (a : Address) (change : String → String) :
    (s.modifyText a change).All P F := by
  refine h.modify a fun cell hcell => ?_
  cases cell <;> exact hcell

theorem modifyItems (h : s.All P F) (a : Address) {change : Array Value → Array Value}
    (hchange : ∀ items, (∀ v ∈ items, P v) → ∀ v ∈ change items, P v) :
    (s.modifyItems a change).All P F := by
  refine h.modify a fun cell hcell => ?_
  cases cell
  case sequence items => exact hchange items hcell
  all_goals exact hcell

theorem modifyMap (h : s.All P F) (a : Address)
    {change : OrderedMap Key (Value × Value) → OrderedMap Key (Value × Value)}
    (hchange : ∀ entries, (∀ entry ∈ entries.entries, P entry.2.1 ∧ P entry.2.2) →
      ∀ entry ∈ (change entries).entries, P entry.2.1 ∧ P entry.2.2) :
    (s.modifyMap a change).All P F := by
  refine h.modify a fun cell hcell => ?_
  cases cell
  case map entries => exact hchange entries hcell
  all_goals exact hcell

theorem modifySet (h : s.All P F) (a : Address)
    {change : OrderedMap Key Value → OrderedMap Key Value}
    (hchange : ∀ members, (∀ entry ∈ members.entries, P entry.2) →
      ∀ entry ∈ (change members).entries, P entry.2) :
    (s.modifySet a change).All P F := by
  refine h.modify a fun cell hcell => ?_
  cases cell
  case set members => exact hchange members hcell
  all_goals exact hcell

theorem replaceHeap (h : s.All P F) (a : Address) (contents : Heap) :
    (s.replaceHeap a contents).All P F := by
  refine h.modify a fun cell hcell => ?_
  cases cell
  case heap => trivial
  all_goals exact hcell

theorem enter (h : s.All P F) (outer : ScopeId) : (s.enter outer).2.All P F where
  cells := h.cells
  bound i scope hscope := by
    simp only [Store.enter, Array.getElem?_push] at hscope
    split at hscope
    · cases hscope
      simp [OrderedMap.empty]
    · exact h.bound hscope

theorem bind (h : s.All P F) (scope : ScopeId) (name : String) {value : Value} (hv : P value) :
    (s.bind scope name value).All P F where
  cells := h.cells
  bound i here hhere := by
    simp only [Store.bind, Array.getElem?_modify] at hhere
    split at hhere
    · obtain ⟨old, hold, rfl⟩ := Option.map_eq_some_iff.1 hhere
      exact OrderedMap.forall_insert (h.bound hold) name hv
    · exact h.bound hhere

theorem bindAll (h : s.All P F) (scope : ScopeId) {pairs : List (String × Value)}
    (hp : ∀ pair ∈ pairs, P pair.2) : (s.bindAll scope pairs).All P F := by
  induction pairs generalizing s with
  | nil => exact h
  | cons pair rest ih =>
    exact ih (h.bind scope pair.1 (hp pair (by simp))) fun pair hpair => hp pair (by simp [hpair])

theorem lookup (h : s.All P F) {scope : ScopeId} {name : String} {value : Value}
    (hl : s.lookup scope name = some value) : P value := by
  induction scope using Nat.strongRecOn with
  | ind scope ih =>
    rw [Store.lookup] at hl
    split at hl
    · next found hfound =>
      cases hl
      obtain ⟨entry, hentry, rfl⟩ := OrderedMap.mem_of_find? hfound
      unfold Store.bindingsOf at hentry
      split at hentry
      · next here hhere => exact h.bound hhere entry hentry
      · simp [OrderedMap.empty] at hentry
    · split at hl
      · next outer _ =>
        split at hl
        · next hlt => exact ih outer hlt hl
        · cases hl
      · cases hl

theorem itemsAt (h : s.All P F) (a : Address) : ∀ v ∈ s.itemsAt a, P v := by
  unfold Store.itemsAt
  split
  · next items hitems => exact h.cells hitems
  · simp

theorem mapAt (h : s.All P F) (a : Address) :
    ∀ entry ∈ (s.mapAt a).entries, P entry.2.1 ∧ P entry.2.2 := by
  unfold Store.mapAt
  split
  · next entries hentries => exact h.cells hentries
  · simp [OrderedMap.empty]

theorem closureAt (h : s.All P F) (hdefault : F default) (a : Address) : F (s.closureAt a) := by
  unfold Store.closureAt
  split
  · next closure hclosure => exact h.cells hclosure
  · exact hdefault

end Store.All

/-! ### Operations -/

/-- The value of an outcome and its store meet the conditions. -/
structure Outcome.All (P : Value → Prop) (F : Closure → Prop) (o : Outcome) : Prop where
  store : o.store.All P F
  result : ∀ v, o.result = .ok v → P v

section Operations

variable {P : Value → Prop} {F : Closure → Prop} {s : Store}

theorem Outcome.All.value (hs : s.All P F) {v : Value} (hv : P v) :
    (Outcome.value v s).All P F where
  store := hs
  result _ h := by cases h; exact hv

theorem Outcome.All.fault (hs : s.All P F) (f : Fault) : (Outcome.fault f s).All P F where
  store := hs
  result _ h := by cases h

theorem Outcome.All.keep (hs : s.All P F) {result : Except Fault Value}
    (h : ∀ v, result = .ok v → P v) : (Outcome.keep result s).All P F := ⟨hs, h⟩

-- all forms but a wrapped value
variable (hplain : ∀ v : Value, v.isReturning = false → P v)

include hplain

theorem Outcome.All.newText (hs : s.All P F) (contents : String) :
    (Outcome.fresh (s.newText contents)).All P F :=
  .value (hs.alloc (.text contents) trivial) (hplain _ rfl)

theorem UnaryOp.apply_all (op : UnaryOp) (operand : Value) :
    ∀ v, op.apply operand = .ok v → P v := by
  intro v h
  cases op with
  | not =>
    cases h
    exact hplain _ rfl
  | negate =>
    cases operand <;> cases h
    exact hplain _ rfl

theorem BinaryOp.onIntegers_all (op : BinaryOp) (a b : Int64) :
    ∀ v, op.onIntegers a b = .ok v → P v := by
  intro v h
  unfold BinaryOp.onIntegers at h
  split at h
  case h_4 | h_5 =>
    split at h <;> cases h
    exact hplain _ rfl
  all_goals
    cases h
    exact hplain _ rfl

theorem BinaryOp.onOthers_all (op : BinaryOp) (left right : Value) :
    ∀ v, op.onOthers left right = .ok v → P v := by
  intro v h
  unfold BinaryOp.onOthers at h
  split at h
  · cases h
  · split at h <;> cases h
    · exact hplain _ rfl
    · exact hplain _ rfl

theorem Store.applyBinary_all (hs : s.All P F) (op : BinaryOp) (left right : Value) :
    (s.applyBinary op left right).All P F := by
  unfold Store.applyBinary
  split
  · exact .keep hs (BinaryOp.onIntegers_all hplain op _ _)
  · split
    · exact .newText hplain hs _
    · exact .fault hs _
  · split
    · exact .value hs (hplain _ rfl)
    · exact .keep hs (BinaryOp.onOthers_all hplain op _ _)

theorem Store.index_all (hs : s.All P F) (container position : Value) :
    (s.index container position).All P F := by
  unfold Store.index
  split
  · split
    · exact .newText hplain hs _
    · exact .fault hs _
  · split
    · next value hvalue =>
      obtain ⟨n, -, hn⟩ := Option.bind_eq_some_iff.1 hvalue
      exact .value hs (hs.itemsAt _ _ (Array.mem_of_getElem? hn))
    · exact .fault hs _
  · split
    · next entry hentry =>
      obtain ⟨found, hfound, rfl⟩ := OrderedMap.mem_of_find? hentry
      exact .value hs (hs.mapAt _ _ hfound).2
    · exact .fault hs _
  · exact .fault hs _

/-! ### Built-in functions -/

namespace Builtin

omit hplain in
theorem takeBack_all (hs : s.All P F) (function : Builtin) (container : Value) (a : Address) :
    (takeBack function s container a).All P F := by
  unfold takeBack
  split
  · next value hvalue =>
    refine .value (hs.modifyItems a fun items hitems v hv => hitems v ?_)
      (hs.itemsAt a value (Array.mem_of_back? hvalue))
    rw [← Array.mem_toList_iff, Array.toList_pop] at hv
    exact Array.mem_toList_iff.1 ((List.dropLast_sublist _).subset hv)
  · exact .fault hs _

omit hplain in
theorem takeFront_all (hs : s.All P F) (function : Builtin) (container : Value) (a : Address) :
    (takeFront function s container a).All P F := by
  unfold takeFront
  split
  · next value hvalue =>
    refine .value (hs.modifyItems a fun items hitems v hv => hitems v ?_)
      (hs.itemsAt a value (Array.mem_of_getElem? hvalue))
    rw [← Array.mem_toList_iff, Array.toList_extract] at hv
    exact Array.mem_toList_iff.1 (List.mem_of_mem_drop (List.mem_of_mem_take hv))
  · exact .fault hs _

theorem takeLastChar_all (hs : s.All P F) (function : Builtin) (container : Value)
    (a : Address) : (takeLastChar function s container a).All P F := by
  unfold takeLastChar
  split
  · exact .newText hplain (hs.modifyText a _) _
  · exact .fault hs _

theorem takeNext_all (hs : s.All P F) (function : Builtin) (container : Value) (a : Address) :
    (takeNext function s container a).All P F := by
  unfold takeNext
  split
  · next item heap _ =>
    have hheap := hs.replaceHeap a heap
    cases item with
    | integer value => exact .value hheap (hplain _ rfl)
    | text contents => exact .newText hplain hheap contents
  · exact .fault hs _

theorem pushed_all (hs : s.All P F) (a : Address) {value : Value} (hv : P value) :
    (Outcome.value .null (s.modifyItems a (·.push value))).All P F := by
  refine .value (hs.modifyItems a fun items hitems v hmem => ?_) (hplain _ rfl)
  rcases Array.mem_push.1 hmem with hmem | rfl
  · exact hitems v hmem
  · exact hv

theorem inserted_all (hs : s.All P F) (a : Address) (key : Key) {value : Value} (hv : P value) :
    (Outcome.value .null (s.modifySet a (·.insert key value))).All P F := by
  refine .value (hs.modifySet a fun members hmembers => ?_) (hplain _ rfl)
  exact OrderedMap.forall_insert hmembers key hv

theorem callPush_all (hs : s.All P F) {arguments : List Value} (ha : ∀ v ∈ arguments, P v) :
    (callPush s arguments).All P F := by
  unfold callPush
  split
  · next container value =>
    have hv : P value := ha value (by simp)
    split
    · exact pushed_all hplain hs _ hv
    · split
      · exact .value (hs.modifyText _ _) (hplain _ rfl)
      · exact .fault hs _
    · split
      · exact .value (hs.replaceHeap _ _) (hplain _ rfl)
      · exact .fault hs _
    · exact inserted_all hplain hs _ _ hv
    · exact .fault hs _
  · exact .fault hs _

theorem callPushBack_all (hs : s.All P F) {arguments : List Value} (ha : ∀ v ∈ arguments, P v) :
    (callPushBack s arguments).All P F := by
  unfold callPushBack
  split
  · next container value =>
    have hv : P value := ha value (by simp)
    split
    case h_4 => exact .fault hs _
    all_goals exact pushed_all hplain hs _ hv
  · exact .fault hs _

theorem callPushFront_all (hs : s.All P F) {arguments : List Value} (ha : ∀ v ∈ arguments, P v) :
    (callPushFront s arguments).All P F := by
  unfold callPushFront
  split
  · next container value =>
    split
    · refine .value (hs.modifyItems _ fun items hitems v hmem => ?_) (hplain _ rfl)
      rcases Array.mem_append.1 hmem with hmem | hmem
      · exact ha v (by simp_all)
      · exact hitems v hmem
    · exact .fault hs _
  · exact .fault hs _

theorem callInsert_all (hs : s.All P F) {arguments : List Value} (ha : ∀ v ∈ arguments, P v) :
    (callInsert s arguments).All P F := by
  unfold callInsert
  split
  · split
    · next value => exact inserted_all hplain hs _ _ (ha value (by simp))
    · exact .fault hs _
  · split
    · next keyValue value =>
      refine .value (hs.modifyMap _ fun entries hentries => ?_) (hplain _ rfl)
      exact OrderedMap.forall_insert (p := fun pair : Value × Value => P pair.1 ∧ P pair.2)
        hentries _ ⟨ha keyValue (by simp), ha value (by simp)⟩
    · exact .fault hs _
  · exact .fault hs _
  · exact .fault hs _

theorem callRemove_all (hs : s.All P F) (arguments : List Value) :
    (callRemove s arguments).All P F := by
  unfold callRemove
  split
  · split
    · dsimp only
      split
      · refine .value (hs.modifySet _ fun members hmembers entry hentry => ?_) (hplain _ rfl)
        exact hmembers entry (List.mem_filter.1 hentry).1
      · exact .fault hs _
    · dsimp only
      split
      · refine .value (hs.modifyMap _ fun entries hentries entry hentry => ?_) (hplain _ rfl)
        exact hentries entry (List.mem_filter.1 hentry).1
      · exact .fault hs _
    · exact .fault hs _
  · exact .fault hs _

theorem callFind_all (hs : s.All P F) (arguments : List Value) :
    (callFind s arguments).All P F := by
  have hposition (n : Option Nat) : P (positionValue n) := by
    cases n <;> exact hplain _ rfl
  unfold callFind
  split
  · split
    · split
      · exact .value hs (hposition _)
      · exact .fault hs _
    · exact .value hs (hposition _)
    · exact .value hs (hplain _ rfl)
    · exact .value hs (hplain _ rfl)
    · exact .fault hs _
  · exact .fault hs _

theorem callPop_all (hs : s.All P F) (arguments : List Value) :
    (callPop s arguments).All P F := by
  unfold callPop
  split
  · split
    · exact takeBack_all hs _ _ _
    · exact takeBack_all hs _ _ _
    · exact takeBack_all hs _ _ _
    · exact takeFront_all hs _ _ _
    · exact takeLastChar_all hplain hs _ _ _
    · exact takeNext_all hplain hs _ _ _
    · exact .fault hs _
  · exact .fault hs _

omit hplain in
theorem callPopBack_all (hs : s.All P F) (arguments : List Value) :
    (callPopBack s arguments).All P F := by
  unfold callPopBack
  split
  · split
    · exact takeBack_all hs _ _ _
    · exact .fault hs _
  · exact .fault hs _

omit hplain in
theorem callPopFront_all (hs : s.All P F) (arguments : List Value) :
    (callPopFront s arguments).All P F := by
  unfold callPopFront
  split
  · split
    case h_3 => exact .fault hs _
    all_goals exact takeFront_all hs _ _ _
  · exact .fault hs _

theorem callPrint_all (hs : s.All P F) (arguments : List Value) :
    (callPrint s arguments).All P F := .value (hs.printLine _) (hplain _ rfl)

theorem callLen_all (hs : s.All P F) (arguments : List Value) :
    (callLen s arguments).All P F := by
  unfold callLen
  split
  · split
    · exact .value hs (hplain _ rfl)
    · exact .fault hs _
  · exact .fault hs _

theorem callType_all (hs : s.All P F) (arguments : List Value) :
    (callType s arguments).All P F := by
  unfold callType
  split
  · exact .newText hplain hs _
  · exact .fault hs _

/-- Every built-in function keeps the conditions, whether it fails or not. -/
theorem call_all (hs : s.All P F) (function : Builtin) {arguments : List Value}
    (ha : ∀ v ∈ arguments, P v) : (function.call s arguments).All P F := by
  cases function
  case print => exact callPrint_all hplain hs arguments
  case len | size => exact callLen_all hplain hs arguments
  case push => exact callPush_all hplain hs ha
  case pushBack => exact callPushBack_all hplain hs ha
  case pushFront => exact callPushFront_all hplain hs ha
  case pop => exact callPop_all hplain hs arguments
  case popBack => exact callPopBack_all hs arguments
  case popFront => exact callPopFront_all hs arguments
  case insert => exact callInsert_all hplain hs ha
  case remove => exact callRemove_all hplain hs arguments
  case find => exact callFind_all hplain hs arguments
  case type => exact callType_all hplain hs arguments

end Builtin

end Operations

end CellScript
