import CellScript.Program.Parse
import CellScript.Program.Text

/-!
Integers in decimal. An integer without a sign is written as a run of digits, and the digits denote
it again.
-/

namespace CellScript

theorem digitsValue_toDigits (n : Nat) : digitsValue (Nat.toDigits 10 n) = n := by
  have h := Nat.ofDigitChars_ten_toDigits (n := n)
  rwa [Nat.ofDigitChars_eq_foldl] at h

theorem toInt_nonneg {n : Int64} (h : 0 ≤ n) :
    ∃ k : Nat, n.toInt = k ∧ k < 0x8000000000000000 := by
  have hn : 0 ≤ n.toInt := by simpa using Int64.le_iff_toInt_le.1 h
  have hlt := n.toInt_lt
  exact ⟨n.toInt.toNat, by omega, by omega⟩

theorem renderInt_of_nonneg {n : Int64} {k : Nat} (h : n.toInt = k) :
    (renderInt n).toList = Nat.toDigits 10 k := by
  rw [renderInt, h]
  exact Nat.toList_repr

theorem integerOfDigits?_renderInt {n : Int64} (h : 0 ≤ n) :
    integerOfDigits? (renderInt n) = some n := by
  obtain ⟨k, hk, hlt⟩ := toInt_nonneg h
  have hn : Int64.ofNat k = n := by
    rw [← Int64.toInt_inj, hk]
    exact Int64.toInt_ofNat_of_lt (by omega)
  simp only [integerOfDigits?, renderInt_of_nonneg hk, digitsValue_toDigits]
  rw [if_pos hlt, hn]

/-- What digits denote is written with digits of the same value. -/
theorem digitsValue_renderInt {digits : String} {n : Int64}
    (h : integerOfDigits? digits = some n) :
    0 ≤ n ∧ digitsValue (renderInt n).toList = digitsValue digits.toList := by
  unfold integerOfDigits? at h
  simp only [Option.ite_none_right_eq_some, Option.some.injEq] at h
  obtain ⟨hlt, rfl⟩ := h
  have hint : (Int64.ofNat (digitsValue digits.toList)).toInt = digitsValue digits.toList :=
    Int64.toInt_ofNat_of_lt (by omega)
  constructor
  · rw [Int64.le_iff_toInt_le, hint]
    simp
  · rw [renderInt_of_nonneg hint, digitsValue_toDigits]

/-- The digits of an integer without a sign: at least one, and nothing but digits. -/
theorem renderInt_digits {n : Int64} (h : 0 ≤ n) :
    (renderInt n).toList ≠ [] ∧ ∀ c ∈ (renderInt n).toList, c.isDigit = true := by
  obtain ⟨k, hk, -⟩ := toInt_nonneg h
  rw [renderInt_of_nonneg hk]
  exact ⟨Nat.toDigits_ne_nil, fun c hc => Nat.isDigit_of_mem_toDigits (by decide) (by decide) hc⟩

end CellScript
