import CellScript.OrderedMap
import Mathlib.Data.List.Perm.Basic

/-!
Laws of finite maps.

A map is known by its entries, since there is only one list for them. So what an operation does is
said by the entries that it leaves, and two ways to the same entries lead to the same map.
-/

namespace CellScript

open Std

variable {κ α : Type} [Ord κ] [TransOrd κ] [LawfulEqOrd κ]

omit [TransOrd κ] in
theorem KeysAscend.nodup {l : List (κ × α)} (h : KeysAscend l) : l.Nodup := by
  refine h.imp fun {a b} hlt heq => ?_
  simp [heq, ReflCmp.compare_self] at hlt

/-- Where keys ascend, lists with the same entries are the same. -/
theorem KeysAscend.eq_of_mem_iff {l l' : List (κ × α)} (h : KeysAscend l) (h' : KeysAscend l')
    (hmem : ∀ entry, entry ∈ l ↔ entry ∈ l') : l = l' := by
  refine ((List.perm_ext_iff_of_nodup h.nodup h'.nodup).2 hmem).eq_of_pairwise ?_ h h'
  intro a b _ _ hlt hgt
  have hnot := OrientedCmp.gt_iff_lt.2 hgt
  rw [hlt] at hnot
  cases hnot

theorem mem_insertEntry_iff {key : κ} {value : α} {entries : List (κ × α)}
    (h : KeysAscend entries) {entry : κ × α} :
    entry ∈ insertEntry key value entries ↔
      entry = (key, value) ∨ entry ∈ entries ∧ entry.1 ≠ key := by
  induction entries with
  | nil => simp [insertEntry]
  | cons first rest ih =>
    obtain ⟨hbelow, hrest⟩ := List.pairwise_cons.1 h
    -- An entry behind one that is not below the key is above it.
    have above (hle : compare key first.1 ≠ .gt) (hmem : entry ∈ rest) : entry.1 ≠ key := by
      rintro rfl
      have hgt := OrientedCmp.gt_iff_lt.2 (hbelow entry hmem)
      exact hle hgt
    have other (hne : compare key first.1 ≠ .eq) : first.1 ≠ key := by
      rintro rfl
      exact hne ReflCmp.compare_self
    cases hcompare : compare key first.1 with
    | lt =>
      have hne := other (by simp [hcompare])
      simp only [insertEntry, hcompare, List.mem_cons]
      grind
    | eq =>
      have hkey : key = first.1 := LawfulEqCmp.eq_of_compare hcompare
      simp only [insertEntry, hcompare, List.mem_cons]
      grind
    | gt =>
      have hne := other (by simp [hcompare])
      simp only [insertEntry, hcompare, List.mem_cons, ih hrest]
      grind

namespace OrderedMap

theorem find?_of_mem {m : OrderedMap κ α} {key : κ} {value : α} (h : (key, value) ∈ m.entries) :
    m.find? key = some value := by
  obtain ⟨entries, hascend⟩ := m
  rw [find?, Option.map_eq_some_iff]
  refine ⟨(key, value), ?_, rfl⟩
  induction entries with
  | nil => cases h
  | cons entry rest ih =>
    obtain ⟨hbelow, hrest⟩ := List.pairwise_cons.1 hascend
    rcases List.mem_cons.1 h with rfl | h
    · simp [ReflCmp.compare_self]
    · have hgt := OrientedCmp.gt_iff_lt.2 (hbelow _ h)
      rw [List.find?_cons_of_neg (by simp [hgt])]
      exact ih hrest h

theorem contains_of_mem {m : OrderedMap κ α} {key : κ} {value : α}
    (h : (key, value) ∈ m.entries) : m.contains key = true := by
  rw [contains, find?_of_mem h, Option.isSome_some]

/-- Of two entries of one key there is only one. -/
theorem mem_erase {m : OrderedMap κ α} {entry other : κ × α} (h : entry ∈ m.entries) :
    other ∈ (m.erase entry.1).entries ↔ other ∈ m.entries ∧ other ≠ entry := by
  simp only [erase, List.mem_filter, bne_iff_ne, ne_eq, Std.compare_eq_iff_eq]
  refine and_congr_right fun hother => not_congr ⟨fun hkey => ?_, fun heq => by rw [heq]⟩
  have hvalue := find?_of_mem hother
  rw [← hkey, find?_of_mem h] at hvalue
  exact Prod.ext hkey.symm (Option.some.inj hvalue.symm)

variable (m : OrderedMap κ α)

theorem mem_insert {key : κ} {value : α} {entry : κ × α} :
    entry ∈ (m.insert key value).entries ↔
      entry = (key, value) ∨ entry ∈ m.entries ∧ entry.1 ≠ key :=
  mem_insertEntry_iff m.ascend

theorem find?_eq_some_iff {key : κ} {value : α} :
    m.find? key = some value ↔ (key, value) ∈ m.entries := by
  refine ⟨fun h => ?_, find?_of_mem⟩
  obtain ⟨entry, hfind, rfl⟩ := Option.map_eq_some_iff.1 h
  have hkey : key = entry.1 := by
    simpa using List.find?_some hfind
  rw [hkey]
  exact List.mem_of_find?_eq_some hfind

theorem find?_insert_of_ne {key other : κ} (h : other ≠ key) (value : α) :
    (m.insert key value).find? other = m.find? other := by
  ext found
  simp only [find?_eq_some_iff, mem_insert, Prod.mk.injEq]
  grind

theorem find?_insert_self (key : κ) (value : α) : (m.insert key value).find? key = some value :=
  find?_of_mem (m.mem_insert.2 (.inl rfl))

theorem find?_eq_none_iff {key : κ} : m.find? key = none ↔ ∀ entry ∈ m.entries, entry.1 ≠ key := by
  constructor
  · intro hnone entry hentry hkey
    have hfind : m.find? entry.1 = some entry.2 := find?_of_mem hentry
    rw [hkey, hnone] at hfind
    cases hfind
  · intro habsent
    cases hfind : m.find? key with
    | none => rfl
    | some value => exact absurd rfl (habsent _ (m.find?_eq_some_iff.1 hfind))

omit [TransOrd κ] in
theorem mem_erase_iff {key : κ} {entry : κ × α} :
    entry ∈ (m.erase key).entries ↔ entry ∈ m.entries ∧ entry.1 ≠ key := by
  simp only [erase, List.mem_filter, bne_iff_ne, ne_eq, Std.compare_eq_iff_eq]
  exact and_congr_right fun _ => not_congr eq_comm

theorem erase_of_absent {key : κ} (h : m.find? key = none) : m.erase key = m := by
  refine ext (KeysAscend.eq_of_mem_iff (ascend _) m.ascend fun entry => ?_)
  rw [mem_erase_iff]
  exact and_iff_left_of_imp (m.find?_eq_none_iff.1 h entry)

/-- An entry that goes in and out again leaves only the entries of other keys. -/
theorem erase_insert (key : κ) (value : α) : (m.insert key value).erase key = m.erase key := by
  refine ext (KeysAscend.eq_of_mem_iff (ascend _) (ascend _) fun entry => ?_)
  simp only [mem_erase_iff, mem_insert]
  grind

/-- An entry goes in beside the entries of other keys. -/
theorem perm_insert (key : κ) (value : α) :
    (m.insert key value).entries.Perm ((key, value) :: (m.erase key).entries) := by
  have hnodup : ((key, value) :: (m.erase key).entries).Nodup := by
    refine List.nodup_cons.2 ⟨fun hmem => ?_, (m.erase key).ascend.nodup⟩
    exact (m.mem_erase_iff.1 hmem).2 rfl
  refine (List.perm_ext_iff_of_nodup (ascend _).nodup hnodup).2 fun entry => ?_
  rw [mem_insert, List.mem_cons, mem_erase_iff]

theorem size_insert (key : κ) (value : α) :
    (m.insert key value).size = if m.contains key then m.size else m.size + 1 := by
  have hlength : (m.insert key value).size = (m.erase key).size + 1 :=
    (m.perm_insert key value).length_eq
  cases hfind : m.find? key with
  | none =>
    rw [hlength, m.erase_of_absent hfind, contains, hfind]
    rfl
  | some old =>
    -- putting the old value in changes nothing
    have hsame : m.insert key old = m := by
      refine ext (KeysAscend.eq_of_mem_iff (ascend _) m.ascend fun entry => ?_)
      have hmem := m.find?_eq_some_iff.1 hfind
      have hunique : m.find? entry.1 = some entry.2 ↔ entry ∈ m.entries := m.find?_eq_some_iff
      rw [mem_insert]
      grind
    have hold : (m.insert key old).size = (m.erase key).size + 1 :=
      (m.perm_insert key old).length_eq
    rw [hsame] at hold
    rw [hlength, ← hold, contains, hfind]
    rfl

/-- Entries of different keys can go in one way round or the other. -/
theorem insert_comm {key other : κ} (h : other ≠ key) (value value' : α) :
    (m.insert key value).insert other value' = (m.insert other value').insert key value := by
  refine ext (KeysAscend.eq_of_mem_iff (ascend _) (ascend _) fun entry => ?_)
  simp only [mem_insert]
  grind

/-- Without the key, the map is as it was. -/
theorem filter_insert [DecidableEq κ] (key : κ) (value : α) :
    (m.insert key value).entries.filter (fun entry => entry.1 ≠ key) =
      m.entries.filter fun entry => entry.1 ≠ key := by
  refine KeysAscend.eq_of_mem_iff ((ascend _).filter _) (m.ascend.filter _) fun entry => ?_
  simp only [List.mem_filter, mem_insert, decide_eq_true_eq]
  grind

end OrderedMap

end CellScript
