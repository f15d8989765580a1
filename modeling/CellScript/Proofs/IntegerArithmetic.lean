import CellScript.Proofs.FiniteMaps
import Mathlib.Data.Int.ModEq
import Mathlib.Data.Rat.Floor
import Mathlib.Tactic.FieldSimp
import Mathlib.Tactic.Linarith

/-!
Integer arithmetic.

Sums, differences, products and negations are those of the whole numbers, taken modulo `2 ^ 64`.
Division goes toward zero, and the remainder makes up for what it loses: its size is less than that
of the divisor, and its sign is that of the dividend. One quotient has no integer of 64 bits, that
of the least integer by minus one. It comes out as the least integer again, and the remainder is
zero, so that the law of division holds there too.
-/

namespace CellScript

/-! ### Integers modulo `2 ^ 64` -/

/-- The integer is the only one of 64 bits that agrees with the exact result modulo `2 ^ 64`. -/
def WrapsTo (result : Int) (n : Int64) : Prop :=
  ∀ m : Int64, m.toInt ≡ result [ZMOD 2 ^ 64] ↔ m = n

theorem bmod_modEq (x : Int) : x.bmod (2 ^ 64) ≡ x [ZMOD 2 ^ 64] := Int.bmod_emod

/-- No two integers of 64 bits agree modulo `2 ^ 64`. -/
theorem eq_of_toInt_modEq {m n : Int64} (h : m.toInt ≡ n.toInt [ZMOD 2 ^ 64]) : m = n := by
  have hm := m.le_toInt
  have hm' := m.toInt_lt
  have hn := n.le_toInt
  have hn' := n.toInt_lt
  obtain ⟨k, hk⟩ := h.dvd
  rw [← Int64.toInt_inj]
  omega

theorem wrapsTo_of_modEq {result : Int} {n : Int64} (h : n.toInt ≡ result [ZMOD 2 ^ 64]) :
    WrapsTo result n := by
  intro m
  constructor
  · intro hm
    exact eq_of_toInt_modEq (hm.trans h.symm)
  · intro hm
    rw [hm]
    exact h

/-! ### Division -/

/-- A number without what stands behind the point: the whole number next to it on the side of
zero. -/
def truncated (x : ℚ) : Int := if 0 ≤ x then ⌊x⌋ else ⌈x⌉

/-- The remainder lies on the side of zero on which the dividend lies, and is less than the
divisor. -/
theorem tmod_side {a b : Int} (hb : b ≠ 0) :
    |a.tmod b| < |b| ∧ (0 ≤ a → 0 ≤ a.tmod b) ∧ (a ≤ 0 → a.tmod b ≤ 0) := by
  refine ⟨?_, Int.tmod_nonneg b, ?_⟩
  · rw [Int.abs_eq_natAbs, Int.abs_eq_natAbs, Int.natAbs_tmod]
    exact_mod_cast Nat.mod_lt _ (Int.natAbs_pos.2 hb)
  · intro ha
    have hneg := Int.tmod_nonneg b (Int.neg_nonneg_of_nonpos ha)
    rw [Int.neg_tmod] at hneg
    omega

theorem sign_tmod_eq (a b : Int) : a.tmod b = 0 ∨ (a.tmod b).sign = a.sign := by
  rw [← Int.sign_eq_zero_iff_zero, Int.sign_tmod]
  split
  · exact .inl rfl
  · exact .inr rfl

/-- The exact quotient goes beyond the truncated one by the remainder's share of the divisor. -/
theorem truncated_div {a b : Int} (hb : b ≠ 0) : truncated ((a : ℚ) / b) = a.tdiv b := by
  obtain ⟨hsize, hpos, hneg⟩ := tmod_side (a := a) hb
  have hb' : (b : ℚ) ≠ 0 := by exact_mod_cast hb
  have hquotient : (a : ℚ) / b = a.tdiv b + a.tmod b / b := by
    have hlaw : ((b * a.tdiv b + a.tmod b : Int) : ℚ) = a := by rw [Int.mul_tdiv_add_tmod]
    rw [← hlaw]
    push_cast
    field_simp
  have hshare : |(a.tmod b : ℚ) / b| < 1 := by
    rw [abs_div, div_lt_one (abs_pos.2 hb')]
    exact_mod_cast hsize
  obtain ⟨hlow, hhigh⟩ := abs_lt.1 hshare
  unfold truncated
  by_cases hsign : 0 ≤ (a : ℚ) / b
  · have hrest : 0 ≤ (a.tmod b : ℚ) / b := by
      rcases div_nonneg_iff.1 hsign with ⟨ha, hb⟩ | ⟨ha, hb⟩
      · exact div_nonneg (by exact_mod_cast hpos (by exact_mod_cast ha)) hb
      · exact div_nonneg_of_nonpos (by exact_mod_cast hneg (by exact_mod_cast ha)) hb
    rw [if_pos hsign, Int.floor_eq_iff, hquotient]
    constructor <;> linarith
  · have hrest : (a.tmod b : ℚ) / b ≤ 0 := by
      rcases div_neg_iff.1 (not_le.1 hsign) with ⟨ha, hb⟩ | ⟨ha, hb⟩
      · have hrem : (0 : ℚ) ≤ a.tmod b := by exact_mod_cast hpos (by exact_mod_cast ha.le)
        exact div_nonpos_of_nonneg_of_nonpos hrem hb.le
      · have hrem : (a.tmod b : ℚ) ≤ 0 := by exact_mod_cast hneg (by exact_mod_cast ha.le)
        exact div_nonpos_of_nonpos_of_nonneg hrem hb.le
    rw [if_neg hsign, Int.ceil_eq_iff, hquotient]
    constructor <;> linarith

/-- The truncated quotient of two integers is an integer of 64 bits, but for one pair. -/
theorem tdiv_bounds {a b : Int64} (hb : b.toInt ≠ 0)
    (hpair : ¬(a.toInt = -2 ^ 63 ∧ b.toInt = -1)) :
    -2 ^ 63 ≤ a.toInt.tdiv b.toInt ∧ a.toInt.tdiv b.toInt < 2 ^ 63 := by
  have hlow := a.le_toInt
  have hhigh := a.toInt_lt
  have hsize := Int.natAbs_tdiv_le_natAbs a.toInt b.toInt
  by_cases hleast : a.toInt = -2 ^ 63
  · -- only the least integer has a size that is out of reach, and its quotient shrinks
    by_cases hone : b.toInt = 1
    · rw [hone, Int.tdiv_one]
      omega
    have hb2 : 2 ≤ b.toInt.natAbs := by omega
    have hhalf : (a.toInt.tdiv b.toInt).natAbs ≤ a.toInt.natAbs / 2 := by
      rw [Int.natAbs_tdiv]
      exact Nat.div_le_div_left hb2 (by decide)
    omega
  · omega

/-- The quotient of two integers: the truncated one, where that has 64 bits. -/
theorem toInt_div_eq {a b : Int64} (hb : b.toInt ≠ 0) :
    (a / b).toInt =
      if a.toInt = -2 ^ 63 ∧ b.toInt = -1 then -2 ^ 63
      else truncated ((a.toInt : ℚ) / b.toInt) := by
  rw [Int64.toInt_div]
  split
  · next hpair =>
    rw [hpair.1, hpair.2]
    decide
  · next hpair =>
    obtain ⟨hlow, hhigh⟩ := tdiv_bounds hb hpair
    rw [truncated_div hb]
    exact Int.bmod_eq_of_le (by omega) (by omega)

/-- Quotient and remainder make up the dividend, also where the product wraps around. -/
theorem div_mul_add_mod (a b : Int64) : a / b * b + a % b = a := by
  apply eq_of_toInt_modEq
  have hquotient : (a / b).toInt ≡ a.toInt.tdiv b.toInt [ZMOD 2 ^ 64] := by
    rw [Int64.toInt_div]
    exact bmod_modEq _
  have hproduct : (a / b * b).toInt ≡ a.toInt.tdiv b.toInt * b.toInt [ZMOD 2 ^ 64] := by
    rw [Int64.toInt_mul]
    exact (bmod_modEq _).trans (hquotient.mul_right _)
  rw [Int64.toInt_add, Int64.toInt_mod]
  refine (bmod_modEq _).trans ((hproduct.add_right _).trans ?_)
  rw [Int.mul_comm, Int.mul_tdiv_add_tmod]

/-! ### Operators -/

/-- The exact result of the operators that never fail. -/
def BinaryOp.exact? : BinaryOp → Int → Int → Option Int
  | .add, x, y => some (x + y)
  | .sub, x, y => some (x - y)
  | .mul, x, y => some (x * y)
  | _, _, _ => none

/-- What the comparisons say of two numbers. -/
def BinaryOp.comparison? : BinaryOp → Int → Int → Option Bool
  | .equal, x, y => some (x = y)
  | .notEqual, x, y => some (x ≠ y)
  | .less, x, y => some (x < y)
  | .greater, x, y => some (x > y)
  | .lessEq, x, y => some (x ≤ y)
  | .greaterEq, x, y => some (x ≥ y)
  | _, _, _ => none

theorem onIntegers_exact {op : BinaryOp} {a b : Int64} {result : Int}
    (h : op.exact? a.toInt b.toInt = some result) :
    ∃ n : Int64, op.onIntegers a b = .ok (.integer n) ∧ WrapsTo result n := by
  cases op <;> cases h
  case add =>
    refine ⟨a + b, rfl, wrapsTo_of_modEq ?_⟩
    rw [Int64.toInt_add]
    exact bmod_modEq _
  case sub =>
    refine ⟨a - b, rfl, wrapsTo_of_modEq ?_⟩
    rw [Int64.toInt_sub]
    exact bmod_modEq _
  case mul =>
    refine ⟨a * b, rfl, wrapsTo_of_modEq ?_⟩
    rw [Int64.toInt_mul]
    exact bmod_modEq _

theorem negate_exact (a : Int64) :
    ∃ n : Int64, UnaryOp.negate.apply (.integer a) = .ok (.integer n) ∧ WrapsTo (-a.toInt) n := by
  refine ⟨-a, rfl, wrapsTo_of_modEq ?_⟩
  rw [Int64.toInt_neg]
  exact bmod_modEq _

theorem onIntegers_comparison {op : BinaryOp} {a b : Int64} {holds : Bool}
    (h : op.comparison? a.toInt b.toInt = some holds) :
    op.onIntegers a b = .ok (.boolean holds) := by
  have hequal : (a == b) = decide (a.toInt = b.toInt) := by
    rw [beq_eq_decide, decide_eq_decide, Int64.toInt_inj]
  cases op <;> cases h
  case equal => simp only [BinaryOp.onIntegers, hequal]
  case notEqual => simp only [BinaryOp.onIntegers, bne, hequal, decide_not]
  all_goals simp only [BinaryOp.onIntegers, Int64.lt_iff_toInt_lt, Int64.le_iff_toInt_le]

theorem onIntegers_division {op : BinaryOp} (h : op = .div ∨ op = .mod) (a b : Int64) :
    op.onIntegers a b = .error .divisionByZero ↔ b.toInt = 0 := by
  have hzero : b.toInt = 0 ↔ b = 0 := by
    rw [← Int64.toInt_inj]
    rfl
  rw [hzero]
  rcases h with rfl | rfl <;> by_cases hb : b = 0 <;> simp [BinaryOp.onIntegers, hb]

/-! ### Expressions -/

/-- An operator between two expressions gives what it gives between their values. -/
theorem Expr.Gives.binary {limit : Nat} {scope : ScopeId} {s : Store} {x y : Expr}
    {op : BinaryOp} {v w result : Value} (hx : x.Gives limit scope s v)
    (hy : y.Gives limit scope s w) (h : s.applyBinary op v w = .value result s) :
    (Expr.binary x op y).Gives limit scope s result := by
  intro frames
  have hright : ∃ n, (Machine.resume (.right v op) w frames s).after limit n =
      ⟨.deliver result, frames, s⟩ := by
    refine ⟨0, ?_⟩
    show (s.applyBinary op v w).resume frames = _
    rw [h]
    rfl
  have hleft : ∃ n, (Machine.resume (.left op y scope) v frames s).after limit n =
      ⟨.deliver result, frames, s⟩ := Machine.exists_after_of_gives frames hy hright
  obtain ⟨n, hn⟩ := Machine.exists_after_of_gives frames hx hleft
  refine ⟨n + 1, ?_⟩
  rw [Machine.after_succ]
  exact hn

namespace Store

/-- The laws of arithmetic for two integers. -/
structure ArithmeticLaws (s : Store) (a b : Int64) : Prop where
  /-- Sums, differences and products are exact modulo `2 ^ 64`. -/
  wraps : ∀ op result, BinaryOp.exact? op a.toInt b.toInt = some result →
    ∃ n, s.applyBinary op (.integer a) (.integer b) = .value (.integer n) s ∧ WrapsTo result n
  negate : ∃ n, UnaryOp.negate.apply (.integer a) = .ok (.integer n) ∧ WrapsTo (-a.toInt) n
  /-- Only division by zero fails. -/
  div_fails : s.applyBinary .div (.integer a) (.integer b) = .fault .divisionByZero s ↔ b.toInt = 0
  mod_fails : s.applyBinary .mod (.integer a) (.integer b) = .fault .divisionByZero s ↔ b.toInt = 0
  /-- The quotient is truncated, with one exception, and the remainder is smaller than the divisor
  and on the side of the dividend. -/
  division : b.toInt ≠ 0 → ∃ q r : Int64,
    s.applyBinary .div (.integer a) (.integer b) = .value (.integer q) s ∧
    s.applyBinary .mod (.integer a) (.integer b) = .value (.integer r) s ∧
    q.toInt = (if a.toInt = -2 ^ 63 ∧ b.toInt = -1 then -2 ^ 63
      else truncated ((a.toInt : ℚ) / b.toInt)) ∧
    |r.toInt| < |b.toInt| ∧ (r.toInt = 0 ∨ r.toInt.sign = a.toInt.sign)
  /-- Where `x` is `a` and `y` is `b`, the expression `x / y * y + x % y` is `a`. -/
  restores : b.toInt ≠ 0 → ∀ (limit : Nat) (scope : ScopeId) (x y : Expr),
    x.Gives limit scope s (.integer a) → y.Gives limit scope s (.integer b) →
      (Expr.binary (.binary (.binary x .div y) .mul y) .add (.binary x .mod y)).Gives limit scope s
        (.integer a)
  comparison : ∀ op holds, BinaryOp.comparison? op a.toInt b.toInt = some holds →
    s.applyBinary op (.integer a) (.integer b) = .value (.boolean holds) s

variable (s : Store) (a b : Int64)

theorem applyBinary_integers (op : BinaryOp) :
    s.applyBinary op (.integer a) (.integer b) = .keep (op.onIntegers a b) s := rfl

theorem applyBinary_fails_iff {op : BinaryOp} (h : op = .div ∨ op = .mod) :
    s.applyBinary op (.integer a) (.integer b) = .fault .divisionByZero s ↔ b.toInt = 0 := by
  rw [← onIntegers_division h a b, applyBinary_integers]
  simp [Outcome.keep, Outcome.fault]

theorem applyBinary_division {b : Int64} (hb : b.toInt ≠ 0) :
    s.applyBinary .div (.integer a) (.integer b) = .value (.integer (a / b)) s ∧
      s.applyBinary .mod (.integer a) (.integer b) = .value (.integer (a % b)) s := by
  have hne : b ≠ 0 := by
    rintro rfl
    exact hb rfl
  simp [applyBinary_integers, BinaryOp.onIntegers, hne, Outcome.keep, Outcome.value]

/-- Integer arithmetic is exact modulo `2 ^ 64`, and division obeys its law for all integers. -/
theorem arithmetic_laws : s.ArithmeticLaws a b := by
  constructor
  case wraps =>
    intro op result h
    obtain ⟨n, hn, hwraps⟩ := onIntegers_exact h
    refine ⟨n, ?_, hwraps⟩
    rw [applyBinary_integers, hn]
    rfl
  case negate => exact negate_exact a
  case div_fails => exact s.applyBinary_fails_iff a b (.inl rfl)
  case mod_fails => exact s.applyBinary_fails_iff a b (.inr rfl)
  case division =>
    intro hb
    obtain ⟨hdiv, hmod⟩ := s.applyBinary_division a hb
    have hremainder : (a % b).toInt = a.toInt.tmod b.toInt := Int64.toInt_mod a b
    refine ⟨a / b, a % b, hdiv, hmod, toInt_div_eq hb, ?_, ?_⟩
    · rw [hremainder]
      exact (tmod_side hb).1
    · rw [hremainder]
      exact sign_tmod_eq a.toInt b.toInt
  case restores =>
    intro hb limit scope x y hx hy
    obtain ⟨hdiv, hmod⟩ := s.applyBinary_division a hb
    have hsum : s.applyBinary .add (.integer (a / b * b)) (.integer (a % b)) =
        .value (.integer a) s := by
      show Outcome.value (.integer (a / b * b + a % b)) s = _
      rw [div_mul_add_mod]
    exact .binary (.binary (.binary hx hy hdiv) hy rfl) (.binary hx hy hmod) hsum
  case comparison =>
    intro op holds h
    rw [applyBinary_integers, onIntegers_comparison h]
    rfl

end Store

end CellScript
