import CellScript.Proofs.Spelling
import CellScript.Proofs.TokenCover
import CellScript.Proofs.Utf8

/-!
Finding, counting and indexing agree.

The length of a string counts its characters, an index selects one of them, and `find` says behind
how many of them another string starts for the first time. The bytes of the two strings give the
same answer: no character's bytes are found within those of another one or across two of them, so
the bytes of a string start only where a character does. In an array, `find` looks for a value with
the same key.
-/

namespace CellScript

/-! ### First positions -/

/-- The pattern stands in the text behind its first `i` places. -/
def OccursAt {α : Type} (pattern text : List α) (i : Nat) : Prop := pattern <+: text.drop i

/-- The integer is the first position that has the property, or minus one if none has it. -/
structure Locates (P : Nat → Prop) (n : Int64) : Prop where
  found : ∀ i : Nat, n.toInt = i ↔ IsLeast {i | P i} i
  absent : n.toInt = -1 ↔ ∀ i, ¬P i

/-- A position that integers can count is located by its value. -/
theorem locates_positionValue {P : Nat → Prop} {position : Option Nat}
    (hsome : ∀ i, position = some i → IsLeast {i | P i} i ∧ i < 2 ^ 63)
    (hnone : position = none → ∀ i, ¬P i) :
    ∃ n, positionValue position = .integer n ∧ Locates P n := by
  cases position with
  | none =>
    refine ⟨-1, rfl, ?_, ?_⟩
    · intro i
      refine iff_of_false ?_ fun hleast => hnone rfl i hleast.1
      show (-1 : Int) ≠ i
      omega
    · exact iff_of_true rfl (hnone rfl)
  | some k =>
    obtain ⟨hleast, hlt⟩ := hsome k rfl
    have hk : (Int64.ofNat k).toInt = k := Int64.toInt_ofNat_of_lt hlt
    refine ⟨Int64.ofNat k, rfl, ?_, ?_⟩
    · intro i
      rw [hk]
      constructor
      · intro hi
        rwa [← Int.ofNat_inj.1 hi]
      · intro hi
        exact_mod_cast hleast.unique hi
    · rw [hk]
      refine iff_of_false (by omega) fun hnone => hnone k hleast.1

/-! ### Searching in characters -/

/-- The search finds the first place, counted from `start`. -/
theorem positionOf_eq_some {pattern : List Char} {start k : Nat} {text : List Char}
    (h : positionOf pattern start text = some k) :
    ∃ i, k = start + i ∧ i ≤ text.length ∧ IsLeast {i | OccursAt pattern text i} i := by
  induction text generalizing start with
  | nil =>
    simp only [positionOf, Option.ite_none_right_eq_some, Option.some.injEq] at h
    obtain ⟨hempty, rfl⟩ := h
    refine ⟨0, rfl, Nat.le_refl 0, ?_, fun j _ => Nat.zero_le j⟩
    rw [List.isEmpty_iff.1 hempty]
    exact List.nil_prefix
  | cons c text ih =>
    rw [positionOf] at h
    by_cases hhere : pattern.isPrefixOf (c :: text) = true
    · rw [if_pos hhere, Option.some.injEq] at h
      exact ⟨0, h.symm, Nat.zero_le _, List.isPrefixOf_iff_prefix.1 hhere, fun j _ => Nat.zero_le j⟩
    · rw [if_neg hhere] at h
      obtain ⟨i, rfl, hle, hoccurs, hleast⟩ := ih h
      refine ⟨i + 1, by omega, by simpa using hle, hoccurs, ?_⟩
      rintro (_ | j) hj
      · exact absurd (List.isPrefixOf_iff_prefix.2 hj) hhere
      · exact Nat.succ_le_succ (hleast hj)

theorem positionOf_eq_none {pattern : List Char} {start : Nat} {text : List Char}
    (h : positionOf pattern start text = none) (i : Nat) : ¬OccursAt pattern text i := by
  induction text generalizing start i with
  | nil =>
    intro hoccurs
    rw [OccursAt, List.drop_nil, List.prefix_nil] at hoccurs
    rw [hoccurs] at h
    cases h
  | cons c text ih =>
    rw [positionOf] at h
    by_cases hhere : pattern.isPrefixOf (c :: text) = true
    · rw [if_pos hhere] at h
      cases h
    · rw [if_neg hhere] at h
      cases i with
      | zero => exact fun hoccurs => hhere (List.isPrefixOf_iff_prefix.2 hoccurs)
      | succ i => exact ih h i

theorem locates_positionOf (pattern text : List Char) (hlength : text.length < 2 ^ 63) :
    ∃ n, positionValue (positionOf pattern 0 text) = .integer n ∧
      Locates (OccursAt pattern text) n := by
  refine locates_positionValue (fun k hk => ?_) positionOf_eq_none
  obtain ⟨i, rfl, hle, hleast⟩ := positionOf_eq_some hk
  rw [Nat.zero_add]
  exact ⟨hleast, by omega⟩

/-- The search for an item finds the first one that is accepted. -/
theorem locates_findIdx? {α : Type} (accepts : α → Bool) (xs : List α)
    (hsize : xs.length < 2 ^ 63) :
    ∃ n, positionValue (xs.findIdx? accepts) = .integer n ∧
      Locates (fun i => ∃ x, xs[i]? = some x ∧ accepts x = true) n := by
  apply locates_positionValue
  · intro k hk
    obtain ⟨hlt, haccepts, hfirst⟩ := List.findIdx?_eq_some_iff_getElem.1 hk
    refine ⟨⟨⟨xs[k], List.getElem?_eq_getElem hlt, haccepts⟩, ?_⟩, by omega⟩
    rintro j ⟨x, hx, hj⟩
    by_contra hle
    obtain ⟨hj', rfl⟩ := List.getElem?_eq_some_iff.1 hx
    exact hfirst j (Nat.not_le.1 hle) hj
  · rintro hnone i ⟨x, hx, haccepts⟩
    rw [List.findIdx?_eq_none_iff.1 hnone x (List.mem_of_getElem? hx)] at haccepts
    cases haccepts

/-! ### Searching in bytes -/

/-- Different characters have different bytes, whatever follows. -/
theorem utf8EncodeChar_append_inj {c d : Char} {xs ys : List UInt8}
    (h : String.utf8EncodeChar c ++ xs = String.utf8EncodeChar d ++ ys) : c = d ∧ xs = ys := by
  have hcd : c = d := by
    by_contra hne
    rcases lt_or_gt_of_ne hne with hlt | hlt
    · exact List.lt_irrefl _ (h ▸ utf8EncodeChar_lt hlt xs ys)
    · exact List.lt_irrefl _ (h ▸ utf8EncodeChar_lt hlt ys xs)
  subst hcd
  exact ⟨rfl, List.append_cancel_left h⟩

theorem prefix_of_utf8_prefix {cs ds : List Char}
    (h : cs.flatMap String.utf8EncodeChar <+: ds.flatMap String.utf8EncodeChar) : cs <+: ds := by
  induction cs generalizing ds with
  | nil => exact List.nil_prefix
  | cons c cs ih =>
    cases ds with
    | nil =>
      have hnil := List.prefix_nil.1 h
      rw [List.flatMap_cons, List.append_eq_nil_iff] at hnil
      exact absurd hnil.1 String.utf8EncodeChar_ne_nil
    | cons d ds =>
      obtain ⟨rest, hrest⟩ := h
      rw [List.flatMap_cons, List.flatMap_cons, List.append_assoc] at hrest
      obtain ⟨rfl, htail⟩ := utf8EncodeChar_append_inj hrest
      exact List.cons_prefix_cons.2 ⟨rfl, ih ⟨rest, htail⟩⟩

theorem length_utf8 (cs : List Char) :
    (cs.flatMap String.utf8EncodeChar).length = byteLength cs := by
  induction cs with
  | nil => rfl
  | cons c cs ih =>
    rw [List.flatMap_cons, List.length_append, String.length_utf8EncodeChar, ih, byteLength]

/-- The bytes behind those of the first characters are the bytes of the characters behind them. -/
theorem drop_utf8 (cs : List Char) (i : Nat) :
    (cs.flatMap String.utf8EncodeChar).drop (byteLength (cs.take i)) =
      (cs.drop i).flatMap String.utf8EncodeChar := by
  have hsplit : cs.flatMap String.utf8EncodeChar =
      (cs.take i).flatMap String.utf8EncodeChar ++ (cs.drop i).flatMap String.utf8EncodeChar := by
    rw [← List.flatMap_append, List.take_append_drop]
  rw [hsplit, ← length_utf8, List.drop_left]

/-- Within the bytes of a character no other character starts. -/
theorem not_starts_within {c p : Char} {k : Nat} (hpos : 0 < k)
    (hk : k < (String.utf8EncodeChar c).length) (xs ys : List UInt8) :
    ¬String.utf8EncodeChar p ++ xs <+: (String.utf8EncodeChar c ++ ys).drop k := by
  intro h
  have hp : 0 < (String.utf8EncodeChar p).length :=
    List.length_pos_iff.2 String.utf8EncodeChar_ne_nil
  have hfirst := List.prefix_iff_getElem?.1 h 0 (by rw [List.length_append]; omega)
  rw [List.getElem?_drop, Nat.add_zero, List.getElem?_append_left hk, List.getElem?_eq_getElem hk,
    List.getElem_append_left hp, Option.some.injEq] at hfirst
  have hstart : (String.utf8EncodeChar p)[0].IsUTF8FirstByte :=
    UInt8.isUTF8FirstByte_getElem_utf8EncodeChar.2 rfl
  rw [← hfirst, UInt8.isUTF8FirstByte_getElem_utf8EncodeChar] at hstart
  omega

/-- The bytes of a pattern start only where a character of the text starts. -/
theorem occursAt_of_utf8 {pattern text : List Char} (hne : pattern ≠ []) {k : Nat}
    (h : OccursAt (pattern.flatMap String.utf8EncodeChar)
      (text.flatMap String.utf8EncodeChar) k) :
    ∃ i, k = byteLength (text.take i) ∧ OccursAt pattern text i := by
  induction text generalizing k with
  | nil =>
    rw [OccursAt, List.flatMap_nil, List.drop_nil] at h
    have hnil : pattern <+: [] := prefix_of_utf8_prefix h
    exact absurd (List.prefix_nil.1 hnil) hne
  | cons c text ih =>
    by_cases hzero : k = 0
    · subst hzero
      exact ⟨0, rfl, prefix_of_utf8_prefix h⟩
    rw [OccursAt, List.flatMap_cons] at h
    by_cases hk : k < (String.utf8EncodeChar c).length
    · obtain ⟨p, pattern, rfl⟩ := List.exists_cons_of_ne_nil hne
      rw [List.flatMap_cons] at h
      exact absurd h (not_starts_within (Nat.pos_of_ne_zero hzero) hk _ _)
    · rw [Nat.not_lt] at hk
      rw [List.drop_append, List.drop_eq_nil_of_le hk, List.nil_append] at h
      obtain ⟨i, hi, hoccurs⟩ := ih h
      refine ⟨i + 1, ?_, hoccurs⟩
      rw [List.take_succ_cons, byteLength, ← String.length_utf8EncodeChar]
      omega

/-- The first place in bytes is the first place in characters. -/
theorem isLeast_utf8 {pattern text : List Char} {i : Nat}
    (h : IsLeast {i | OccursAt pattern text i} i) :
    IsLeast {k | OccursAt (pattern.flatMap String.utf8EncodeChar)
      (text.flatMap String.utf8EncodeChar) k} (byteLength (text.take i)) := by
  obtain ⟨hoccurs, hleast⟩ := h
  constructor
  · show _ <+: _
    rw [drop_utf8]
    obtain ⟨rest, hrest⟩ := hoccurs
    rw [← hrest, List.flatMap_append]
    exact List.prefix_append _ _
  · intro k hk
    by_cases hne : pattern = []
    · -- the empty pattern is found at the start
      have hzero : i = 0 := Nat.le_zero.1 (hleast (by rw [hne]; exact List.nil_prefix))
      rw [hzero]
      exact Nat.zero_le k
    · obtain ⟨j, rfl, hj⟩ := occursAt_of_utf8 hne hk
      have hle : i ≤ j := hleast hj
      rw [← Nat.add_sub_cancel' hle, List.take_add, byteLength_append]
      exact Nat.le_add_right _ _

theorem not_occursAt_utf8 {pattern text : List Char} (h : ∀ i, ¬OccursAt pattern text i) (k : Nat) :
    ¬OccursAt (pattern.flatMap String.utf8EncodeChar) (text.flatMap String.utf8EncodeChar) k := by
  intro hk
  by_cases hne : pattern = []
  · refine h 0 ?_
    rw [hne]
    exact List.nil_prefix
  · obtain ⟨j, -, hj⟩ := occursAt_of_utf8 hne hk
    exact h j hj

/-! ### Positions -/

theorem position?_eq_some_iff {i : Int64} {k : Nat} : position? i = some k ↔ i.toInt = k := by
  have hle : 0 ≤ i ↔ 0 ≤ i.toInt := Int64.le_iff_toInt_le
  unfold position?
  by_cases hi : 0 ≤ i
  · rw [if_pos hi, Option.some.injEq]
    have := hle.1 hi
    omega
  · rw [if_neg hi]
    have := mt hle.2 hi
    constructor
    · intro h
      cases h
    · intro h
      omega

/-- An integer outside a container's positions selects nothing. -/
theorem position?_bind_eq_none {α : Type} {get? : Nat → Option α} {size : Nat}
    (hget : ∀ k, size ≤ k → get? k = none) {i : Int64}
    (hi : ¬(0 ≤ i.toInt ∧ i.toInt < size)) : (position? i).bind get? = none := by
  cases hposition : position? i with
  | none => rfl
  | some k =>
    have hk := position?_eq_some_iff.1 hposition
    exact hget k (by omega)

theorem length_le_byteLength (cs : List Char) : cs.length ≤ byteLength cs := by
  induction cs with
  | nil => exact Nat.le_refl 0
  | cons c cs ih =>
    have hpos := c.utf8Size_pos
    rw [List.length_cons, byteLength]
    omega

theorem length_le_utf8ByteSize (text : String) : text.length ≤ text.utf8ByteSize := by
  rw [← byteLength_toList, ← String.length_toList]
  exact length_le_byteLength text.toList

/-! ### Strings and arrays -/

namespace Store

/-- The string `"" + s[0] + … + s[n - 1]`, where `s` is the string in the cell `a`. -/
def joinCharacters (s : Store) (a : Address) : Nat → Outcome
  | 0 => .fresh (s.newText "")
  | n + 1 =>
    match s.joinCharacters a n with
    | ⟨.ok joined, s⟩ =>
      match s.index (.text a) (.integer (Int64.ofNat n)) with
      | ⟨.ok character, s⟩ => s.applyBinary .add joined character
      | failed => failed
    | failed => failed

/-- What the built-in functions and the operators say of two strings. -/
structure TextLaws (s : Store) (a b : Address) (text pattern : String) : Prop where
  len : ∃ n : Int64, Builtin.len.call s [.text a] = .value (.integer n) s ∧ n.toInt = text.length
  /-- Searching in characters and searching in bytes come to the same place. -/
  find : ∃ n : Int64, Builtin.find.call s [.text a, .text b] = .value (.integer n) s ∧
    Locates (OccursAt pattern.toList text.toList) n ∧
    (∀ i : Nat, n.toInt = i →
      IsLeast {k | OccursAt (utf8Bytes pattern) (utf8Bytes text) k}
        (byteLength (text.toList.take i))) ∧
    (n.toInt = -1 → ∀ k, ¬OccursAt (utf8Bytes pattern) (utf8Bytes text) k)
  /-- Just the positions below the length have a character. -/
  index : ∀ i : Int64,
    (0 ≤ i.toInt ∧ i.toInt < text.length → ∃ c, text.toList[i.toInt.toNat]? = some c ∧
      s.index (.text a) (.integer i) = .fresh (s.newText (String.singleton c))) ∧
    (¬(0 ≤ i.toInt ∧ i.toInt < text.length) →
      s.index (.text a) (.integer i) = .fault (.indexOutOfRange i) s)
  /-- The characters make up the string. -/
  join : ∃ c t, s.joinCharacters a text.length = .value (.text c) t ∧
    t.cells[c]? = some (.text text)
  /-- The length of a sum is the sum of the lengths. -/
  append : ∃ (c : Address) (t : Store) (n m k : Int64),
    s.applyBinary .add (.text a) (.text b) = .value (.text c) t ∧
    t.cells[c]? = some (.text (text ++ pattern)) ∧
    Builtin.len.call s [.text a] = .value (.integer n) s ∧
    Builtin.len.call s [.text b] = .value (.integer m) s ∧
    Builtin.len.call t [.text c] = .value (.integer k) t ∧
    s.applyBinary .add (.integer n) (.integer m) = .value (.integer k) s ∧
    ((text ++ pattern).utf8ByteSize < 2 ^ 63 → k.toInt = n.toInt + m.toInt)

/-- What the built-in functions and the brackets say of an array. -/
structure ArrayLaws (s : Store) (a : Address) (items : Array Value) : Prop where
  len : ∃ n : Int64, Builtin.len.call s [.sequence .array a] = .value (.integer n) s ∧
    n.toInt = items.size
  find : ∀ v, ∃ n : Int64, Builtin.find.call s [.sequence .array a, v] = .value (.integer n) s ∧
    Locates (fun i => ∃ item, items[i]? = some item ∧ s.key item = s.key v) n
  index : ∀ i : Int64,
    (0 ≤ i.toInt ∧ i.toInt < items.size → ∃ item, items[i.toInt.toNat]? = some item ∧
      s.index (.sequence .array a) (.integer i) = .value item s) ∧
    (¬(0 ≤ i.toInt ∧ i.toInt < items.size) →
      s.index (.sequence .array a) (.integer i) = .fault (.indexOutOfRange i) s)

variable {s : Store} {a b : Address} {text pattern : String} {items : Array Value}

theorem textAt_eq (h : s.cells[a]? = some (.text text)) : s.textAt a = text := by
  simp only [textAt, h]

theorem itemsAt_eq (h : s.cells[a]? = some (.sequence items)) : s.itemsAt a = items := by
  simp only [itemsAt, h]

theorem len_text (h : s.cells[a]? = some (.text text)) :
    Builtin.len.call s [.text a] = .value (.integer (Int64.ofNat text.length)) s := by
  simp only [Builtin.call, Builtin.callLen, length?, textAt_eq h]

theorem find_text (ha : s.cells[a]? = some (.text text)) (hb : s.cells[b]? = some (.text pattern)) :
    Builtin.find.call s [.text a, .text b] =
      .value (positionValue (positionOf pattern.toList 0 text.toList)) s := by
  simp only [Builtin.call, Builtin.callFind, textAt_eq ha, textAt_eq hb]

theorem index_text (h : s.cells[a]? = some (.text text)) {i : Int64} {k : Nat} (hi : i.toInt = k)
    {c : Char} (hc : text.toList[k]? = some c) :
    s.index (.text a) (.integer i) = .fresh (s.newText (String.singleton c)) := by
  simp [index, textAt_eq h, position?_eq_some_iff.2 hi, hc]

theorem index_text_outside (h : s.cells[a]? = some (.text text)) {i : Int64}
    (hi : ¬(0 ≤ i.toInt ∧ i.toInt < text.length)) :
    s.index (.text a) (.integer i) = .fault (.indexOutOfRange i) s := by
  rw [← String.length_toList] at hi
  simp [index, textAt_eq h, position?_bind_eq_none (fun k => List.getElem?_eq_none) hi]

theorem index_array (h : s.cells[a]? = some (.sequence items)) {i : Int64} {k : Nat}
    (hi : i.toInt = k) {item : Value} (hitem : items[k]? = some item) :
    s.index (.sequence .array a) (.integer i) = .value item s := by
  simp [index, itemsAt_eq h, position?_eq_some_iff.2 hi, hitem]

theorem index_array_outside (h : s.cells[a]? = some (.sequence items)) {i : Int64}
    (hi : ¬(0 ≤ i.toInt ∧ i.toInt < items.size)) :
    s.index (.sequence .array a) (.integer i) = .fault (.indexOutOfRange i) s := by
  simp [index, itemsAt_eq h, position?_bind_eq_none (fun k => Array.getElem?_eq_none) hi]

theorem applyBinary_texts (ha : s.cells[a]? = some (.text text))
    (hb : s.cells[b]? = some (.text pattern)) :
    s.applyBinary .add (.text a) (.text b) =
      .value (.text s.cells.size) (s.alloc (.text (text ++ pattern))).2 := by
  simp only [applyBinary, textAt_eq ha, textAt_eq hb]
  rfl

/-- The first `n` characters, one by one. -/
theorem joinCharacters_eq (h : s.cells[a]? = some (.text text)) (hsize : text.length < 2 ^ 63)
    {n : Nat} (hn : n ≤ text.length) :
    ∃ c t, s.joinCharacters a n = .value (.text c) t ∧
      t.cells[c]? = some (.text (String.ofList (text.toList.take n))) ∧
      t.cells[a]? = some (.text text) := by
  induction n with
  | zero => exact ⟨s.cells.size, _, rfl, getElem?_alloc s _, extends_alloc s _ a _ h⟩
  | succ n ih =>
    obtain ⟨c, t, hjoin, hc, ha⟩ := ih (Nat.le_of_succ_le hn)
    obtain ⟨d, hd⟩ : ∃ d, text.toList[n]? = some d := by
      refine ⟨_, List.getElem?_eq_getElem ?_⟩
      rwa [String.length_toList]
    have htake : String.ofList (text.toList.take (n + 1)) =
        String.ofList (text.toList.take n) ++ String.singleton d := by
      rw [List.take_add_one, hd, String.ofList_append, String.singleton_eq_ofList]
      rfl
    -- the character goes into a first new cell and the longer string into a second one
    have hindex := index_text ha (Int64.toInt_ofNat_of_lt (by omega)) hd
    have happly := applyBinary_texts (extends_alloc t (.text (String.singleton d)) c _ hc)
      (getElem?_alloc t _)
    refine ⟨(t.alloc (.text (String.singleton d))).2.cells.size,
      ((t.alloc (.text (String.singleton d))).2.alloc
        (.text (String.ofList (text.toList.take n) ++ String.singleton d))).2, ?_, ?_, ?_⟩
    · rw [joinCharacters, hjoin]
      dsimp only [Outcome.value]
      rw [hindex]
      exact happly
    · rw [htake]
      exact getElem?_alloc _ _
    · exact extends_alloc _ _ a _ (extends_alloc t _ a _ ha)

theorem textLaws (ha : s.cells[a]? = some (.text text)) (hb : s.cells[b]? = some (.text pattern))
    (hsize : text.utf8ByteSize < 2 ^ 63) : s.TextLaws a b text pattern := by
  have hlength : text.length < 2 ^ 63 := Nat.lt_of_le_of_lt (length_le_utf8ByteSize text) hsize
  constructor
  case len => exact ⟨_, len_text ha, Int64.toInt_ofNat_of_lt hlength⟩
  case find =>
    obtain ⟨n, hn, hlocates⟩ := locates_positionOf pattern.toList text.toList
      (by rwa [String.length_toList])
    refine ⟨n, by rw [find_text ha hb, hn], hlocates, ?_, ?_⟩
    · intro i hi
      rw [utf8Bytes_eq, utf8Bytes_eq]
      exact isLeast_utf8 ((hlocates.found i).1 hi)
    · intro hnone
      rw [utf8Bytes_eq, utf8Bytes_eq]
      exact not_occursAt_utf8 (hlocates.absent.1 hnone)
  case index =>
    intro i
    refine ⟨?_, index_text_outside ha⟩
    rintro ⟨hpos, hlt⟩
    have hk : i.toInt.toNat < text.toList.length := by
      rw [String.length_toList]
      omega
    exact ⟨_, List.getElem?_eq_getElem hk,
      index_text ha (by omega) (List.getElem?_eq_getElem hk)⟩
  case join =>
    obtain ⟨c, t, hjoin, hc, -⟩ := joinCharacters_eq ha hlength (Nat.le_refl text.length)
    refine ⟨c, t, hjoin, ?_⟩
    rw [hc, ← String.length_toList, List.take_length, String.ofList_toList]
  case append =>
    have hsum : Int64.ofNat (text ++ pattern).length =
        Int64.ofNat text.length + Int64.ofNat pattern.length := by
      rw [String.length_append, Int64.ofNat_add]
    refine ⟨_, _, _, _, _, applyBinary_texts ha hb, getElem?_alloc s _, len_text ha, len_text hb,
      len_text (getElem?_alloc s _), ?_, ?_⟩
    · rw [hsum]
      rfl
    · intro hfits
      have hle := length_le_utf8ByteSize (text ++ pattern)
      rw [String.length_append] at hle ⊢
      rw [Int64.toInt_ofNat_of_lt (by omega), Int64.toInt_ofNat_of_lt hlength,
        Int64.toInt_ofNat_of_lt (by omega)]
      rfl

theorem arrayLaws (h : s.cells[a]? = some (.sequence items)) (hsize : items.size < 2 ^ 63) :
    s.ArrayLaws a items := by
  constructor
  case len =>
    refine ⟨Int64.ofNat items.size, ?_, Int64.toInt_ofNat_of_lt hsize⟩
    simp only [Builtin.call, Builtin.callLen, length?, itemsAt_eq h]
  case find =>
    intro v
    obtain ⟨n, hn, hlocates⟩ := locates_findIdx? (fun item => s.key item == s.key v) items.toList
      (by simpa using hsize)
    refine ⟨n, ?_, ?_⟩
    · simp only [Builtin.call, Builtin.callFind, itemsAt_eq h, hn]
    · simpa using hlocates
  case index =>
    intro i
    refine ⟨?_, index_array_outside h⟩
    rintro ⟨hpos, hlt⟩
    have hk : i.toInt.toNat < items.size := by omega
    exact ⟨_, Array.getElem?_eq_getElem hk,
      index_array h (by omega) (Array.getElem?_eq_getElem hk)⟩

/-- `find`, `len` and the brackets agree on strings and on arrays. The bytes of a string and the
items of an array are no more than integers can count, since no memory holds more. -/
theorem find_len_index_agree :
    (∀ (s : Store) (a b : Address) (text pattern : String), s.cells[a]? = some (.text text) →
      s.cells[b]? = some (.text pattern) → text.utf8ByteSize < 2 ^ 63 →
        s.TextLaws a b text pattern) ∧
    ∀ (s : Store) (a : Address) (items : Array Value), s.cells[a]? = some (.sequence items) →
      items.size < 2 ^ 63 → s.ArrayLaws a items := by
  constructor
  · intro s a b text pattern ha hb hsize
    exact textLaws ha hb hsize
  · intro s a items h hsize
    exact arrayLaws h hsize

/-- A string with characters of one, two and four bytes, and an array that holds itself. -/
theorem find_len_index_agree_mixed :
    let s : Store := { Store.initial with
      cells := #[.text "a😀éé", .text "é", .sequence #[.integer 1, .sequence .array 2]] }
    ("a😀éé".utf8ByteSize < 2 ^ 63 ∧ s.TextLaws 0 1 "a😀éé" "é" ∧
      Builtin.find.call s [.text 0, .text 1] = .value (.integer 2) s) ∧
    s.ArrayLaws 2 #[.integer 1, .sequence .array 2] ∧
      Builtin.find.call s [.sequence .array 2, .sequence .array 2] = .value (.integer 1) s := by
  intro s
  obtain ⟨htexts, harrays⟩ := find_len_index_agree
  have hsize : "a😀éé".utf8ByteSize < 2 ^ 63 := by decide
  have htext : positionOf "é".toList 0 "a😀éé".toList = some 2 := by decide +kernel
  have hitem : (s.itemsAt 2).toList.findIdx?
      (fun item => s.key item == s.key (.sequence .array 2)) = some 1 := by decide +kernel
  refine ⟨⟨hsize, htexts s 0 1 _ _ rfl rfl hsize, ?_⟩, harrays s 2 _ rfl (by decide), ?_⟩
  · rw [find_text rfl rfl, htext]
    rfl
  · show Outcome.value (positionValue _) s = _
    rw [hitem]
    rfl

end Store

end CellScript
