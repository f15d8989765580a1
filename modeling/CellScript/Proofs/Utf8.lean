import Mathlib.Data.String.Basic
import Mathlib.Tactic.ByContra
import Mathlib.Tactic.SplitIfs

/-!
Texts as bytes.

UTF-8 keeps the order of texts: where two texts first differ, the bytes of the smaller character and
those of the larger one first differ in the same direction, since longer codes start with larger
bytes and the bits of a character are written from the highest down. So comparing texts character by
character is the same as comparing them byte by byte.
-/

namespace CellScript

/-- The bytes of a text in UTF-8. -/
def utf8Bytes (text : String) : List UInt8 := text.toByteArray.data.toList

theorem utf8Bytes_eq (text : String) :
    utf8Bytes text = text.toList.flatMap String.utf8EncodeChar := by
  have htext : text.toByteArray = text.toList.utf8Encode := by
    rw [← String.toByteArray_ofList, String.ofList_toList]
  rw [utf8Bytes, htext, List.utf8Encode, List.toList_data_toByteArray]

/-- Two numbers compare as their digits in base 64 do. -/
theorem lt_base64 {v w : Nat} (h : v < w) :
    v / 64 < w / 64 ∨ v / 64 = w / 64 ∧ v % 64 < w % 64 := by
  omega

/-- The bytes of a smaller character are smaller, whatever follows. -/
theorem utf8EncodeChar_lt {c d : Char} (h : c < d) (xs ys : List UInt8) :
    String.utf8EncodeChar c ++ xs < String.utf8EncodeChar d ++ ys := by
  have hlt : c.val.toNat < d.val.toNat := h
  have hd : d.val.toNat < 0x110000 := by
    rcases d.valid with hsmall | ⟨-, hlarge⟩ <;> omega
  unfold String.utf8EncodeChar
  generalize c.val.toNat = v at hlt
  generalize d.val.toNat = w at hlt hd
  dsimp only
  -- codes of different lengths differ in the first byte, and codes of one length digit by digit
  have hlow := lt_base64 hlt
  have hmid := lt_base64 (v := v / 64) (w := w / 64)
  have hhigh := lt_base64 (v := v / 4096) (w := w / 4096)
  rw [Nat.div_div_eq_div_mul, Nat.div_div_eq_div_mul] at hmid hhigh
  split_ifs <;>
    simp (disch := omega) only [List.cons_append, List.nil_append, List.cons_lt_cons_iff,
      UInt8.lt_iff_toNat_lt, ← UInt8.toNat_inj, UInt8.toNat_ofNat', Nat.mod_eq_of_lt] <;>
    omega

theorem flatMap_utf8EncodeChar_lt {cs ds : List Char} (h : cs < ds) :
    cs.flatMap String.utf8EncodeChar < ds.flatMap String.utf8EncodeChar := by
  induction cs generalizing ds with
  | nil =>
    cases ds with
    | nil => exact absurd h (List.lt_irrefl _)
    | cons d ds =>
      obtain ⟨first, rest, hcode⟩ := List.exists_cons_of_ne_nil (@String.utf8EncodeChar_ne_nil d)
      rw [List.flatMap_cons, hcode]
      exact List.nil_lt_cons _ _
  | cons c cs ih =>
    cases ds with
    | nil => exact absurd h (List.not_lt_nil _)
    | cons d ds =>
      rw [List.flatMap_cons, List.flatMap_cons]
      rcases List.cons_lt_cons_iff.1 h with hlt | ⟨rfl, hlt⟩
      · exact utf8EncodeChar_lt hlt _ _
      · exact List.append_left_lt (ih hlt)

theorem utf8Bytes_lt {a b : String} (h : a < b) : utf8Bytes a < utf8Bytes b := by
  rw [utf8Bytes_eq, utf8Bytes_eq]
  exact flatMap_utf8EncodeChar_lt (String.lt_iff_toList_lt.1 h)

/-- Texts compare as their bytes do. -/
theorem utf8Bytes_le_iff {a b : String} : utf8Bytes a ≤ utf8Bytes b ↔ a ≤ b := by
  constructor
  · intro hbytes
    by_contra hle
    exact List.not_lt.2 hbytes (utf8Bytes_lt (String.not_le.1 hle))
  · intro hle
    by_cases heq : a = b
    · rw [heq]
      exact List.le_refl _
    · have hlt : a < b := by
        by_contra hnot
        exact heq (String.le_antisymm hle (String.not_lt.1 hnot))
      exact List.le_of_lt (utf8Bytes_lt hlt)

theorem isLE_compare_iff_utf8Bytes_le {a b : String} :
    (compare a b).isLE ↔ utf8Bytes a ≤ utf8Bytes b := by
  rw [utf8Bytes_le_iff]
  show (compareOfLessAndEq a b).isLE ↔ _
  unfold compareOfLessAndEq
  by_cases hlt : a < b
  · rw [if_pos hlt]
    exact iff_of_true rfl (List.le_of_lt hlt)
  · rw [if_neg hlt]
    by_cases heq : a = b
    · rw [if_pos heq, heq]
      exact iff_of_true rfl (String.le_refl b)
    · rw [if_neg heq]
      exact iff_of_false (by simp) fun hle => heq (String.le_antisymm hle (String.not_lt.1 hlt))

end CellScript
