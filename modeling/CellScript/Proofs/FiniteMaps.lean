import CellScript.Proofs.Datum
import CellScript.Proofs.KeyFiling

/-!
Maps and sets are finite maps on keys.

A value that does not reach a container has the same key before and after a change of the container.
So inserting, removing and finding such values in a map or a set act on keys alone, as they do on
finite maps: what goes in last counts, entries of different keys do not touch each other, and the
order in which they go in does not show.
-/

namespace CellScript

open Std

namespace Store

/-! ### Values that do not reach a cell -/

/-- Neither the value nor anything in it names the cell. -/
def Avoids (s : Store) (a : Address) (v : Value) : Prop :=
  ∀ w, Relation.ReflTransGen s.Holds v w → w.cell? ≠ some a

/-- The stores have the same cells, but for the cell `a`. -/
def SameBut (a : Address) (s t : Store) : Prop := ∀ b, b ≠ a → t.cells[b]? = s.cells[b]?

variable {s t : Store} {a : Address} {v : Value}

theorem avoids_of_held (hcell : v.cell? ≠ some a)
    (hheld : ∀ w ∈ (s.shape v).held, s.Avoids a w) : s.Avoids a v := by
  intro w hreach
  rcases Relation.ReflTransGen.cases_head hreach with rfl | ⟨u, hholds, hrest⟩
  · exact hcell
  · exact hheld u hholds w hrest

theorem SameBut.unchanged (h : SameBut a s t) (hv : s.Avoids a v) : s.Unchanged t v := by
  intro w b hreach hcell
  refine h b ?_
  rintro rfl
  exact hv w hreach hcell

theorem SameBut.key_eq (h : SameBut a s t) (hv : s.Avoids a v) : t.key v = s.key v :=
  (h.unchanged hv).key_eq

/-- What a value reaches in one of the stores it reaches in the other. -/
theorem SameBut.avoids (h : SameBut a s t) (hv : s.Avoids a v) : t.Avoids a v := by
  have hreach {w : Value} (hw : Relation.ReflTransGen t.Holds v w) :
      Relation.ReflTransGen s.Holds v w := by
    induction hw with
    | refl => exact .refl
    | @tail u w _ hholds ih =>
      have hshape : t.shape u = s.shape u :=
        shape_congr fun b hb => h.unchanged hv u b ih hb
      refine ih.tail ?_
      rw [Holds, ← hshape]
      exact hholds
  intro w hw
  exact hv w (hreach hw)

/-! ### One cell with other contents -/

/-- The store with other contents in a cell. -/
def putCell (s : Store) (a : Address) (cell : Cell) : Store := s.modify a fun _ => cell

theorem getElem?_putCell {old : Cell} (h : s.cells[a]? = some old) (cell : Cell) :
    (s.putCell a cell).cells[a]? = some cell := by
  simp [putCell, modify, Array.getElem?_modify, h]

theorem sameBut_putCell (s : Store) (a : Address) (cell : Cell) :
    SameBut a s (s.putCell a cell) := by
  intro b hne
  simp [putCell, modify, Array.getElem?_modify, Ne.symm hne]

theorem putCell_putCell (s : Store) (a : Address) (cell cell' : Cell) :
    (s.putCell a cell).putCell a cell' = s.putCell a cell' := by
  have hcells : (s.cells.modify a fun _ => cell).modify a (fun _ => cell') =
      s.cells.modify a fun _ => cell' := by
    refine Array.ext_getElem? fun b => ?_
    by_cases hab : a = b <;> simp [Array.getElem?_modify, hab, Function.comp_def]
  simp only [putCell, modify, hcells]

/-- A change of a cell whose contents are known. -/
theorem modify_eq_putCell {cell : Cell} (h : s.cells[a]? = some cell) (change : Cell → Cell) :
    s.modify a change = s.putCell a (change cell) := by
  have hcells : s.cells.modify a change = s.cells.modify a fun _ => change cell := by
    refine Array.ext_getElem? fun b => ?_
    by_cases hab : a = b
    · subst hab
      simp [Array.getElem?_modify, h]
    · simp [Array.getElem?_modify, hab]
  simp only [putCell, modify, hcells]

theorem putCell_self {cell : Cell} (h : s.cells[a]? = some cell) : s.putCell a cell = s := by
  have hcells : s.cells.modify a id = s.cells := by
    refine Array.ext_getElem? fun b => ?_
    by_cases hab : a = b <;> simp [Array.getElem?_modify, hab]
  have hid := modify_eq_putCell h id
  rw [modify, hcells] at hid
  exact hid.symm

theorem mapAt_eq {m : OrderedMap Key (Value × Value)} (h : s.cells[a]? = some (.map m)) :
    s.mapAt a = m := by
  simp only [mapAt, h]

theorem setAt_eq {m : OrderedMap Key Value} (h : s.cells[a]? = some (.set m)) : s.setAt a = m := by
  simp only [setAt, h]

/-- A new cell whose contents change at once. -/
theorem putCell_alloc (s : Store) (cell cell' : Cell) :
    (s.alloc cell).2.putCell s.cells.size cell' = (s.alloc cell').2 := by
  have hcells : (s.cells.push cell).modify s.cells.size (fun _ => cell') = s.cells.push cell' := by
    refine Array.ext_getElem? fun b => ?_
    by_cases hb : s.cells.size = b
    · subst hb
      rw [Array.getElem?_modify, Array.getElem?_push_size, Array.getElem?_push_size]
      simp
    · simp [Array.getElem?_modify, Array.getElem?_push, hb, Ne.symm hb]
  simp only [putCell, modify, alloc, hcells]

theorem sameBut_alloc (s : Store) (cell : Cell) : SameBut s.cells.size s (s.alloc cell).2 := by
  intro b hne
  simp [alloc, Array.getElem?_push, hne]

end Store

/-! ### Containers that file entries under keys -/

/-- A kind of container that files entries under keys: the value that names its cell, what the cell
holds, the value whose key an entry is filed under, and the arguments that put an entry in. -/
structure Filing (α : Type) where
  container : Address → Value
  cell : OrderedMap Key α → Cell
  filed : α → Value
  parts : α → List Value

namespace Filing

/-- A map files a key and a value under the key. -/
def map : Filing (Value × Value) := ⟨.map, .map, Prod.fst, fun entry => [entry.1, entry.2]⟩

/-- A set files a member under its own key. -/
def set : Filing Value := ⟨.set, .set, id, fun member => [member]⟩

variable {α : Type} (F : Filing α)

def insert (s : Store) (a : Address) (entry : α) : Outcome :=
  Builtin.insert.call s (F.container a :: F.parts entry)

def remove (s : Store) (a : Address) (key : Value) : Outcome :=
  Builtin.remove.call s [F.container a, key]

def find (s : Store) (a : Address) (key : Value) : Outcome :=
  Builtin.find.call s [F.container a, key]

def len (s : Store) (a : Address) : Outcome := Builtin.len.call s [F.container a]

/-- The store after entries have gone in from left to right. -/
def insertAll (s : Store) (a : Address) : List α → Store
  | [] => s
  | entry :: rest => insertAll (F.insert s a entry).store a rest

/-- What the built-in functions do on a container, in terms of its entries. -/
structure Acts : Prop where
  insert : ∀ {s : Store} {a : Address} {m : OrderedMap Key α}, s.cells[a]? = some (F.cell m) →
    ∀ entry, F.insert s a entry =
      .value .null (s.putCell a (F.cell (m.insert (s.key (F.filed entry)) entry)))
  remove : ∀ {s : Store} {a : Address} {m : OrderedMap Key α}, s.cells[a]? = some (F.cell m) →
    ∀ key, F.remove s a key =
      if m.contains (s.key key) then .value .null (s.putCell a (F.cell (m.erase (s.key key))))
      else .fault (.missingMember .remove (s.render key)) s
  find : ∀ {s : Store} {a : Address} {m : OrderedMap Key α}, s.cells[a]? = some (F.cell m) →
    ∀ key, F.find s a key = .value (.boolean (m.contains (s.key key))) s
  len : ∀ {s : Store} {a : Address} {m : OrderedMap Key α}, s.cells[a]? = some (F.cell m) →
    F.len s a = .value (.integer (Int64.ofNat m.size)) s

theorem acts_map : map.Acts where
  insert h entry := by
    show Outcome.value .null (Store.modifyMap _ _ _) = _
    rw [Store.modifyMap, Store.modify_eq_putCell h]
    rfl
  remove h key := by
    simp only [remove, Builtin.call, Builtin.callRemove, map, Store.mapAt_eq h, Store.modifyMap,
      Store.modify_eq_putCell h]
    rfl
  find h key := by simp only [find, Builtin.call, Builtin.callFind, map, Store.mapAt_eq h]
  len h := by
    simp only [len, Builtin.call, Builtin.callLen, map, Store.length?, Store.mapAt_eq h]

theorem acts_set : set.Acts where
  insert h member := by
    show Outcome.value .null (Store.modifySet _ _ _) = _
    rw [Store.modifySet, Store.modify_eq_putCell h]
    rfl
  remove h key := by
    simp only [remove, Builtin.call, Builtin.callRemove, set, Store.setAt_eq h, Store.modifySet,
      Store.modify_eq_putCell h]
    rfl
  find h key := by simp only [find, Builtin.call, Builtin.callFind, set, Store.setAt_eq h]
  len h := by
    simp only [len, Builtin.call, Builtin.callLen, set, Store.length?, Store.setAt_eq h]

end Filing

/-! ### Many entries -/

section FileInto

variable {α : Type} {key key' : α → Key} {done : OrderedMap Key α} {xs ys : List α}

theorem fileInto_congr (h : ∀ x ∈ xs, key x = key' x) :
    fileInto key done xs = fileInto key' done xs := by
  induction xs generalizing done with
  | nil => rfl
  | cons x xs ih =>
    show fileInto key (done.insert (key x) x) xs = fileInto key' (done.insert (key' x) x) xs
    rw [h x List.mem_cons_self]
    exact ih fun y hy => h y (List.mem_cons_of_mem x hy)

/-- Where the keys are different, all that is filed is there, and what was there under other keys.
-/
theorem mem_fileInto_iff (h : xs.Pairwise fun x y => key x ≠ key y) {entry : Key × α} :
    entry ∈ (fileInto key done xs).entries ↔
      (entry.1 = key entry.2 ∧ entry.2 ∈ xs) ∨
        (entry ∈ done.entries ∧ ∀ x ∈ xs, entry.1 ≠ key x) := by
  induction xs generalizing done with
  | nil => simp [fileInto]
  | cons x xs ih =>
    obtain ⟨hx, hxs⟩ := List.pairwise_cons.1 h
    show entry ∈ (fileInto key (done.insert (key x) x) xs).entries ↔ _
    rw [ih hxs, OrderedMap.mem_insert]
    constructor
    · rintro (⟨hkey, hmem⟩ | ⟨rfl | ⟨hmem, hne⟩, hother⟩)
      · exact .inl ⟨hkey, List.mem_cons_of_mem x hmem⟩
      · exact .inl ⟨rfl, List.mem_cons_self⟩
      · exact .inr ⟨hmem, List.forall_mem_cons.2 ⟨hne, hother⟩⟩
    · rintro (⟨hkey, hmem⟩ | ⟨hmem, hother⟩)
      · rcases List.mem_cons.1 hmem with heq | hmem
        · refine .inr ⟨.inl (Prod.ext (heq ▸ hkey) heq), fun y hy => ?_⟩
          rw [hkey, heq]
          exact hx y hy
        · exact .inl ⟨hkey, hmem⟩
      · obtain ⟨hne, hother⟩ := List.forall_mem_cons.1 hother
        exact .inr ⟨.inr ⟨hmem, hne⟩, hother⟩

theorem fileInto_perm (hperm : xs.Perm ys) (h : xs.Pairwise fun x y => key x ≠ key y) :
    fileInto key done xs = fileInto key done ys := by
  have h' : ys.Pairwise fun x y => key x ≠ key y := (hperm.pairwise_iff fun hne => hne.symm).1 h
  refine OrderedMap.ext (KeysAscend.eq_of_mem_iff (OrderedMap.ascend _) (OrderedMap.ascend _) ?_)
  intro entry
  simp only [mem_fileInto_iff h, mem_fileInto_iff h', hperm.mem_iff]

end FileInto

namespace Filing

variable {α : Type} {F : Filing α} {s : Store} {a : Address} {m : OrderedMap Key α}

/-- Entries whose values do not reach the container go in under the keys that they have at first. -/
theorem Acts.insertAll (hF : F.Acts) (h : s.cells[a]? = some (F.cell m)) {entries : List α}
    (havoid : ∀ entry ∈ entries, s.Avoids a (F.filed entry)) :
    F.insertAll s a entries =
      s.putCell a (F.cell (fileInto (fun entry => s.key (F.filed entry)) m entries)) := by
  induction entries generalizing s m with
  | nil => exact (Store.putCell_self h).symm
  | cons entry rest ih =>
    obtain ⟨-, hrest⟩ := List.forall_mem_cons.1 havoid
    have hsame := s.sameBut_putCell a (F.cell (m.insert (s.key (F.filed entry)) entry))
    rw [Filing.insertAll, hF.insert h entry]
    show F.insertAll (s.putCell a _) a rest = _
    rw [ih (Store.getElem?_putCell h _) fun e he => hsame.avoids (hrest e he),
      Store.putCell_putCell, fileInto_congr fun e he => hsame.key_eq (hrest e he)]
    rfl

/-- The laws of a finite map, for the container in the cell `a`. -/
structure Laws (F : Filing α) (s : Store) (a : Address) : Prop where
  /-- An entry goes in, and the container is still one of its kind. -/
  insert : ∀ entry, ∃ m, F.insert s a entry = .value .null (F.insert s a entry).store ∧
    (F.insert s a entry).store.cells[a]? = some (F.cell m)
  /-- Values that do not reach the container keep their keys. -/
  key_insert : ∀ entry key, s.Avoids a key → (F.insert s a entry).store.key key = s.key key
  /-- The key of the entry is found afterwards, and any other key just if it was before. -/
  find_insert : ∀ entry key, s.Avoids a key →
    (s.key key = s.key (F.filed entry) →
      (F.find (F.insert s a entry).store a key).result = .ok (.boolean true)) ∧
    (s.key key ≠ s.key (F.filed entry) →
      (F.find (F.insert s a entry).store a key).result = (F.find s a key).result)
  /-- The number of entries grows by one just if the key was absent. -/
  len_insert : ∀ entry, ∃ n : Int64, F.len s a = .value (.integer n) s ∧
    (F.find s a (F.filed entry) = .value (.boolean true) s →
      (F.len (F.insert s a entry).store a).result = .ok (.integer n)) ∧
    (F.find s a (F.filed entry) = .value (.boolean false) s →
      (F.len (F.insert s a entry).store a).result = .ok (.integer (n + 1)))
  /-- Removing an entry that was absent before restores the store. -/
  remove_insert : ∀ entry, s.Avoids a (F.filed entry) →
    F.find s a (F.filed entry) = .value (.boolean false) s →
      F.remove (F.insert s a entry).store a (F.filed entry) = .value .null s
  /-- Just what is found can be removed. -/
  remove : ∀ key,
    (F.find s a key = .value (.boolean true) s ∧ (F.remove s a key).result = .ok .null) ∨
    (F.find s a key = .value (.boolean false) s ∧
      F.remove s a key = .fault (.missingMember .remove (s.render key)) s)
  /-- Entries of different keys can go in one way round or the other. -/
  insert_comm : ∀ entry entry', s.Avoids a (F.filed entry) → s.Avoids a (F.filed entry') →
    s.key (F.filed entry) ≠ s.key (F.filed entry') →
      (F.insert (F.insert s a entry).store a entry').store =
        (F.insert (F.insert s a entry').store a entry).store
  /-- Entries of different keys can go in in any order. -/
  insertAll_perm : ∀ entries entries' : List α, entries.Perm entries' →
    (∀ entry ∈ entries, s.Avoids a (F.filed entry)) →
    entries.Pairwise (fun x y => s.key (F.filed x) ≠ s.key (F.filed y)) →
      F.insertAll s a entries = F.insertAll s a entries' ∧
        (F.insertAll s a entries).render (F.container a) =
          (F.insertAll s a entries').render (F.container a)

namespace Acts

variable (hF : F.Acts) (h : s.cells[a]? = some (F.cell m))

include hF h

theorem store_insert (entry : α) :
    (F.insert s a entry).store =
      s.putCell a (F.cell (m.insert (s.key (F.filed entry)) entry)) := by
  rw [hF.insert h entry]
  rfl

theorem cell_insert (entry : α) : (F.insert s a entry).store.cells[a]? =
    some (F.cell (m.insert (s.key (F.filed entry)) entry)) := by
  rw [hF.store_insert h]
  exact Store.getElem?_putCell h _

theorem sameBut_insert (entry : α) : Store.SameBut a s (F.insert s a entry).store := by
  rw [hF.store_insert h]
  exact s.sameBut_putCell a _

theorem contains_of_find {key : Value} {found : Bool}
    (hfind : F.find s a key = .value (.boolean found) s) : m.contains (s.key key) = found := by
  rw [hF.find h] at hfind
  simpa [Outcome.value] using hfind

theorem remove_of_insert {entry : α} (havoid : s.Avoids a (F.filed entry))
    (habsent : F.find s a (F.filed entry) = .value (.boolean false) s) :
    F.remove (F.insert s a entry).store a (F.filed entry) = .value .null s := by
  have hnone : m.find? (s.key (F.filed entry)) = none := by
    simpa [OrderedMap.contains] using hF.contains_of_find h habsent
  have hpresent : (m.insert (s.key (F.filed entry)) entry).contains
      (s.key (F.filed entry)) = true := by
    rw [OrderedMap.contains, OrderedMap.find?_insert_self]
    rfl
  rw [hF.remove (hF.cell_insert h entry), (hF.sameBut_insert h entry).key_eq havoid,
    if_pos hpresent, hF.store_insert h, Store.putCell_putCell, OrderedMap.erase_insert,
    OrderedMap.erase_of_absent m hnone, Store.putCell_self h]

theorem insertAll_of_perm {entries entries' : List α} (hp : entries.Perm entries')
    (havoid : ∀ entry ∈ entries, s.Avoids a (F.filed entry))
    (hkeys : entries.Pairwise fun x y => s.key (F.filed x) ≠ s.key (F.filed y)) :
    F.insertAll s a entries = F.insertAll s a entries' := by
  rw [hF.insertAll h havoid, hF.insertAll h fun e he => havoid e (hp.mem_iff.2 he),
    fileInto_perm hp hkeys]

theorem laws : F.Laws s a := by
  constructor
  case insert =>
    intro entry
    refine ⟨_, ?_, hF.cell_insert h entry⟩
    rw [hF.insert h entry]
    rfl
  case key_insert =>
    intro entry key hkey
    exact (hF.sameBut_insert h entry).key_eq hkey
  case find_insert =>
    intro entry key hkey
    rw [hF.find (hF.cell_insert h entry), hF.find h, (hF.sameBut_insert h entry).key_eq hkey]
    constructor
    · intro heq
      rw [heq, OrderedMap.contains, OrderedMap.find?_insert_self]
      rfl
    · intro hne
      rw [OrderedMap.contains, OrderedMap.find?_insert_of_ne m hne]
      rfl
  case len_insert =>
    intro entry
    refine ⟨Int64.ofNat m.size, hF.len h, ?_, ?_⟩
    · intro hfound
      rw [hF.len (hF.cell_insert h entry), OrderedMap.size_insert, hF.contains_of_find h hfound]
      rfl
    · intro habsent
      rw [hF.len (hF.cell_insert h entry), OrderedMap.size_insert,
        hF.contains_of_find h habsent]
      exact congrArg (fun n => Except.ok (Value.integer n)) (Int64.ofNat_add m.size 1)
  case remove_insert =>
    intro entry havoid habsent
    exact hF.remove_of_insert h havoid habsent
  case remove =>
    intro key
    rw [hF.find h, hF.remove h]
    cases m.contains (s.key key) with
    | true => exact .inl ⟨rfl, rfl⟩
    | false => exact .inr ⟨rfl, rfl⟩
  case insert_comm =>
    intro entry entry' havoid havoid' hne
    apply hF.insertAll_of_perm h (List.Perm.swap entry' entry [])
    · simp [havoid, havoid']
    · simp [hne]
  case insertAll_perm =>
    intro entries entries' hp havoid hkeys
    have heq := hF.insertAll_of_perm h hp havoid hkeys
    exact ⟨heq, by rw [heq]⟩

end Acts

end Filing

/-! ### Literals -/

/-- Evaluating the expression gives the value and leaves the store as it is. -/
def Expr.Gives (limit : Nat) (scope : ScopeId) (s : Store) (e : Expr) (value : Value) : Prop :=
  ∀ frames, ∃ n, (Machine.mk (.evaluate e scope) frames s).after limit n =
    ⟨.deliver value, frames, s⟩

namespace Machine

variable {limit : Nat} {scope : ScopeId} {s : Store} (frames : List Frame)

/-- The value of an expression goes to the innermost frame. -/
theorem exists_after_of_gives {e : Expr} {value : Value} {frame : Frame} {m : Machine}
    (he : e.Gives limit scope s value)
    (hrest : ∃ n, (Machine.resume frame value frames s).after limit n = m) :
    ∃ n, (Machine.mk (.evaluate e scope) (frame :: frames) s).after limit n = m := by
  obtain ⟨n, hn⟩ := he (frame :: frames)
  obtain ⟨k, hk⟩ := hrest
  refine ⟨n + (k + 1), ?_⟩
  rw [after_add, hn, after_succ]
  exact hk

theorem exists_after_nextEntry {expressions : List (Expr × Expr)} {pairs : List (Value × Value)}
    (h : List.Forall₂ (fun e p => e.1.Gives limit scope s p.1 ∧ e.2.Gives limit scope s p.2)
      expressions pairs) (done : OrderedMap Key (Value × Value)) :
    ∃ n, (nextEntry done expressions scope frames s).after limit n =
      ⟨.deliver (.map s.cells.size), frames,
        (s.newMap (fileInto (fun p => s.key p.1) done pairs)).2⟩ := by
  induction h generalizing done with
  | nil => exact ⟨0, rfl⟩
  | @cons e p expressions pairs he _ ih =>
    refine exists_after_of_gives frames he.1 (exists_after_of_gives frames he.2 ?_)
    exact ih (done.insert (s.key p.1) p)

theorem exists_after_nextMember {expressions : List Expr} {members : List Value}
    (h : List.Forall₂ (fun e v => e.Gives limit scope s v) expressions members)
    (done : OrderedMap Key Value) :
    ∃ n, (nextMember done expressions scope frames s).after limit n =
      ⟨.deliver (.set s.cells.size), frames, (s.newSet (fileInto s.key done members)).2⟩ := by
  induction h generalizing done with
  | nil => exact ⟨0, rfl⟩
  | @cons e v expressions members he _ ih =>
    exact exists_after_of_gives frames he (ih (done.insert (s.key v) v))

end Machine

/-- Entries go into a new container as they are filed at once. -/
theorem Filing.Acts.insertAll_alloc {α : Type} {F : Filing α} (hF : F.Acts) (s : Store)
    {entries : List α}
    (havoid : ∀ entry ∈ entries, (s.alloc (F.cell .empty)).2.Avoids s.cells.size (F.filed entry)) :
    F.insertAll (s.alloc (F.cell .empty)).2 s.cells.size entries =
      (s.alloc (F.cell (fileInto (fun entry => s.key (F.filed entry)) .empty entries))).2 := by
  have hcell : (s.alloc (F.cell .empty)).2.cells[s.cells.size]? = some (F.cell .empty) := by
    simp [Store.alloc]
  have hsame : Store.SameBut s.cells.size (s.alloc (F.cell .empty)).2 s := by
    intro b hne
    exact (s.sameBut_alloc (F.cell .empty) b hne).symm
  rw [hF.insertAll hcell havoid, Store.putCell_alloc]
  rw [fileInto_congr fun entry hentry => (hsame.key_eq (havoid entry hentry)).symm]

/-! ### Maps and sets -/

namespace Store

/-- The laws of the map in the cell `a`. -/
structure MapLaws (s : Store) (a : Address) : Prop extends Filing.map.Laws s a where
  /-- Just what is found can be looked up. -/
  index : ∀ key,
    (Filing.map.find s a key = .value (.boolean true) s ∧
      ∃ value, s.index (.map a) key = .value value s) ∨
    (Filing.map.find s a key = .value (.boolean false) s ∧
      s.index (.map a) key = .fault (.keyNotPresent (s.render key)) s)
  /-- The key of the entry gives its value afterwards, and any other key what it gave before. -/
  index_insert : ∀ key value other, s.Avoids a other →
    (s.key other = s.key key →
      ((Filing.map.insert s a (key, value)).store.index (.map a) other).result = .ok value) ∧
    (s.key other ≠ s.key key →
      ((Filing.map.insert s a (key, value)).store.index (.map a) other).result =
        (s.index (.map a) other).result)

/-- The laws of the set in the cell `a`. -/
structure SetLaws (s : Store) (a : Address) : Prop extends Filing.set.Laws s a where
  push : ∀ member, Builtin.push.call s [.set a, member] = Filing.set.insert s a member

variable {s : Store} {a : Address}

theorem index_map {m : OrderedMap Key (Value × Value)} (h : s.cells[a]? = some (.map m))
    (key : Value) : s.index (.map a) key = match m.find? (s.key key) with
      | some entry => .value entry.2 s
      | none => .fault (.keyNotPresent (s.key key).text) s := by
  simp only [Store.index, mapAt_eq h]
  rfl

theorem mapLaws {m : OrderedMap Key (Value × Value)} (h : s.cells[a]? = some (.map m)) :
    s.MapLaws a := by
  refine ⟨Filing.acts_map.laws h, ?_, ?_⟩
  · intro key
    rw [Filing.acts_map.find h, index_map h, OrderedMap.contains]
    cases m.find? (s.key key) with
    | some entry => exact .inl ⟨rfl, entry.2, rfl⟩
    | none => exact .inr ⟨rfl, rfl⟩
  · intro key value other hother
    have hinsert := Filing.acts_map.insert h (key, value)
    have hafter : (Filing.map.insert s a (key, value)).store =
        s.putCell a (.map (m.insert (s.key key) (key, value))) := by
      rw [hinsert]
      rfl
    have hkey := (s.sameBut_putCell a (.map (m.insert (s.key key) (key, value)))).key_eq hother
    rw [hafter, index_map (getElem?_putCell h _), hkey, index_map h]
    constructor
    · intro heq
      rw [heq, OrderedMap.find?_insert_self]
      rfl
    · intro hne
      rw [OrderedMap.find?_insert_of_ne m hne]
      cases m.find? (s.key other) <;> rfl

theorem setLaws {m : OrderedMap Key Value} (h : s.cells[a]? = some (.set m)) : s.SetLaws a :=
  ⟨Filing.acts_set.laws h, fun _ => rfl⟩

/-- Maps and sets are finite maps on keys, for all values that do not reach them. A literal whose
parts are computed already is the empty literal, into which the entries have gone from left to
right. -/
theorem containers_are_finite_maps :
    (∀ (s : Store) (a : Address) (m : OrderedMap Key (Value × Value)),
      s.cells[a]? = some (.map m) → s.MapLaws a) ∧
    (∀ (s : Store) (a : Address) (m : OrderedMap Key Value),
      s.cells[a]? = some (.set m) → s.SetLaws a) ∧
    (∀ (limit : Nat) (scope : ScopeId) (frames : List Frame) (s : Store)
      (expressions : List (Expr × Expr)) (pairs : List (Value × Value)),
      List.Forall₂ (fun e p => e.1.Gives limit scope s p.1 ∧ e.2.Gives limit scope s p.2)
        expressions pairs →
      (∀ p ∈ pairs, (s.newMap .empty).2.Avoids s.cells.size p.1) →
      ∃ n, (Machine.mk (.evaluate (.map expressions) scope) frames s).after limit n =
        ⟨.deliver (s.newMap .empty).1, frames,
          Filing.map.insertAll (s.newMap .empty).2 s.cells.size pairs⟩) ∧
    ∀ (limit : Nat) (scope : ScopeId) (frames : List Frame) (s : Store)
      (expressions : List Expr) (members : List Value),
      List.Forall₂ (fun e v => e.Gives limit scope s v) expressions members →
      (∀ v ∈ members, (s.newSet .empty).2.Avoids s.cells.size v) →
      ∃ n, (Machine.mk (.evaluate (.set expressions) scope) frames s).after limit n =
        ⟨.deliver (s.newSet .empty).1, frames,
          Filing.set.insertAll (s.newSet .empty).2 s.cells.size members⟩ := by
  refine ⟨?_, ?_, ?_, ?_⟩
  · intro s a m h
    exact mapLaws h
  · intro s a m h
    exact setLaws h
  · intro limit scope frames s expressions pairs hgives havoid
    obtain ⟨n, hn⟩ := Machine.exists_after_nextEntry frames hgives .empty
    have hall : Filing.map.insertAll (s.newMap .empty).2 s.cells.size pairs =
        (s.newMap (fileInto (fun p => s.key p.1) .empty pairs)).2 :=
      Filing.acts_map.insertAll_alloc s havoid
    refine ⟨n + 1, ?_⟩
    rw [Machine.after_succ, hall]
    exact hn
  · intro limit scope frames s expressions members hgives havoid
    obtain ⟨n, hn⟩ := Machine.exists_after_nextMember frames hgives .empty
    have hall : Filing.set.insertAll (s.newSet .empty).2 s.cells.size members =
        (s.newSet (fileInto s.key .empty members)).2 :=
      Filing.acts_set.insertAll_alloc s havoid
    refine ⟨n + 1, ?_⟩
    rw [Machine.after_succ, hall]
    exact hn

/-- An array as a key that goes into a map and a set and out again, and literals of two numbers. -/
theorem containers_are_finite_maps_array :
    let s : Store := { Store.initial with
      cells := #[.map .empty, .set .empty, .sequence #[.integer 1]] }
    let key : Value := .sequence .array 2
    (s.Avoids 0 key ∧ Filing.map.find s 0 key = .value (.boolean false) s ∧
      Filing.map.remove (Filing.map.insert s 0 (key, .null)).store 0 key = .value .null s) ∧
    (s.Avoids 1 key ∧ Filing.set.find s 1 key = .value (.boolean false) s ∧
      Filing.set.remove (Filing.set.insert s 1 key).store 1 key = .value .null s) ∧
    (∃ n, (Machine.mk (.evaluate (.map [(.integer 2, .boolean true), (.integer 1, .boolean false)])
        0) [] s).after 1 n = ⟨.deliver (.map 3), [], Filing.map.insertAll (s.newMap .empty).2 3
          [(.integer 2, .boolean true), (.integer 1, .boolean false)]⟩) ∧
    ∃ n, (Machine.mk (.evaluate (.set [.integer 2, .integer 1]) 0) [] s).after 1 n =
      ⟨.deliver (.set 3), [], Filing.set.insertAll (s.newSet .empty).2 3
        [.integer 2, .integer 1]⟩ := by
  intro s key
  obtain ⟨hmap, hset, hmapLiteral, hsetLiteral⟩ := containers_are_finite_maps
  have hinteger (t : Store) (a : Address) (n : Int64) : t.Avoids a (.integer n) :=
    avoids_of_held (by simp [Value.cell?]) (by simp [shape, Shape.held])
  have hkey (a : Address) (hne : a ≠ 2) : s.Avoids a key := by
    refine avoids_of_held (by simpa [key, Value.cell?] using Ne.symm hne) fun w hw => ?_
    obtain rfl : w = .integer 1 := by simpa [s, key, shape, itemsAt, Shape.held] using hw
    exact hinteger s a 1
  have hnumber (n : Int64) : (Expr.integer n).Gives 1 0 s (.integer n) := fun _ => ⟨1, rfl⟩
  have hboolean (b : Bool) : (Expr.boolean b).Gives 1 0 s (.boolean b) := fun _ => ⟨1, rfl⟩
  have hmapLaws := hmap s 0 .empty rfl
  have hsetLaws := hset s 1 .empty rfl
  refine ⟨⟨hkey 0 (by decide), rfl, hmapLaws.remove_insert (key, .null) (hkey 0 (by decide)) rfl⟩,
    ⟨hkey 1 (by decide), rfl, hsetLaws.remove_insert key (hkey 1 (by decide)) rfl⟩, ?_, ?_⟩
  · refine hmapLiteral 1 0 [] s _ _ (.cons ⟨hnumber 2, hboolean true⟩
      (.cons ⟨hnumber 1, hboolean false⟩ .nil)) ?_
    simp [hinteger]
  · refine hsetLiteral 1 0 [] s _ _ (.cons (hnumber 2) (.cons (hnumber 1) .nil)) ?_
    simp [hinteger]

end Store

end CellScript
