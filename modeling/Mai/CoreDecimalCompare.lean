import Mai.CoreDecimal

/-!
# Comparison of decimals

`Compare` looks at the two signs first and at the magnitudes only when the signs
agree. Arithmetic can leave a zero of either sign, and a positive and a negative
zero are then ordered although they are the same number.
-/
namespace Mai.CoreDecimal

open Mai.BaseBig

namespace Decimal

def number (d : Decimal) : ℚ := d.value / 10 ^ d.exp

def compare (lhs rhs : Decimal) : ℤ :=
  if lhs.negative = rhs.negative then
    let rv := absCompare lhs rhs
    if lhs.negative then -rv else rv
  else if lhs.negative then -1 else 1

def isZero (d : Decimal) : Bool := d.segments.all (· == 0)

lemma isZero_iff (d : Decimal) : d.isZero = true ↔ magnitude d.segments = 0 := by
  rw [isZero]
  induction d.segments with
  | nil => simp [magnitude, low]
  | cons w ws ih =>
    have hpos : 0 < base ^ ws.length := Nat.pow_pos (by decide)
    rw [List.all_cons, magnitude_cons, Bool.and_eq_true, ih, Nat.add_eq_zero_iff, beq_iff_eq,
      ← UInt32.toNat_inj, Nat.mul_eq_zero, or_iff_left hpos.ne']
    rfl

lemma value_eq_zero_iff (d : Decimal) : d.value = 0 ↔ magnitude d.segments = 0 := by
  rw [value]
  split_ifs <;> omega

variable {a b : Decimal}

lemma number_lt_iff (hexp : a.exp = b.exp) :
    a.number < b.number ↔ a.value < b.value := by
  rw [number, number, hexp, div_lt_div_iff_of_pos_right (by positivity), Int.cast_lt]

lemma number_eq_iff (hexp : a.exp = b.exp) :
    a.number = b.number ↔ a.value = b.value := by
  rw [number, number, hexp, div_left_inj' (by positivity), Int.cast_inj]

lemma compare_same_sign (hsign : a.negative = b.negative) :
    a.compare b = Int.sign (a.value - b.value) := by
  rw [compare, if_pos hsign, absCompare, compare_eq_sign, value, value, ← hsign]
  cases a.negative
  · rfl
  · rw [if_pos rfl, if_pos rfl, if_pos rfl, ← Int.sign_neg]
    congr 1
    ring

lemma compare_other_sign (hsign : a.negative ≠ b.negative) :
    a.compare b = Int.sign (a.value - b.value) ↔ a.value ≠ 0 ∨ b.value ≠ 0 := by
  rw [compare, if_neg hsign, Ne, Ne, value_eq_zero_iff, value_eq_zero_iff, value, value]
  cases ha : a.negative <;> cases hb : b.negative
  · exact absurd (ha.trans hb.symm) hsign
  · simp only [Bool.false_eq_true, if_false, if_true, sub_neg_eq_add]
    rw [eq_comm, Int.sign_eq_one_iff_pos]
    omega
  · simp only [Bool.false_eq_true, if_false, if_true]
    rw [eq_comm, Int.sign_eq_neg_one_iff_neg]
    omega
  · exact absurd (ha.trans hb.symm) hsign

lemma compare_sign (a b : Decimal) : Int.sign (a.compare b) = a.compare b := by
  rw [compare, absCompare, compare_eq_sign]
  split_ifs
  · rw [Int.sign_neg, Int.sign_sign]
  · rw [Int.sign_sign]
  · rfl
  · rfl

lemma sign_compare_iff (a b : Decimal) :
    Int.sign (a.compare b) = Int.sign (a.value - b.value) ↔ a.negative = b.negative ∨ a.value ≠ 0 ∨
      b.value ≠ 0 := by
  rw [compare_sign]
  by_cases hsign : a.negative = b.negative
  · simp [hsign, compare_same_sign hsign]
  · rw [compare_other_sign hsign]
    simp [hsign]

end Decimal

lemma order_iff_sign (c x y : ℤ) :
    ((c < 0 ↔ x < y) ∧ (c = 0 ↔ x = y) ∧ (0 < c ↔ y < x)) ↔ Int.sign c = Int.sign (x - y) := by
  rw [← sub_neg (a := x), ← sub_pos (b := y), ← sub_eq_zero (a := x)]
  generalize x - y = v
  rcases lt_trichotomy c 0 with hc | rfl | hc <;> rcases lt_trichotomy v 0 with hv | rfl | hv <;>
    simp [Int.sign_eq_neg_one_of_neg, Int.sign_eq_one_of_pos, *] <;> omega

/-- `Compare` is the order of the numbers exactly when it is not asked about a positive and a
negative zero. -/
theorem compare_order_iff (a b : Decimal) (hexp : a.exp = b.exp) :
    ((a.compare b < 0 ↔ a.number < b.number) ∧ (a.compare b = 0 ↔ a.number = b.number)
        ∧ (0 < a.compare b ↔ b.number < a.number))
      ↔ a.negative = b.negative ∨ a.value ≠ 0 ∨ b.value ≠ 0 := by
  rw [Decimal.number_lt_iff hexp, Decimal.number_eq_iff hexp, Decimal.number_lt_iff hexp.symm,
    order_iff_sign, Decimal.sign_compare_iff]

def zeroOf (negative : Bool) : Decimal := ⟨negative, 2, [0]⟩

theorem compare_order_fiveOne :
    (five.compare one < 0 ↔ five.number < one.number)
      ∧ (five.compare one = 0 ↔ five.number = one.number)
      ∧ (0 < five.compare one ↔ one.number < five.number) :=
  (compare_order_iff five one rfl).mpr (.inl rfl)

/-- Zero and minus zero are taken for different numbers. -/
theorem compare_zeros :
    (zeroOf false).compare (zeroOf true) = 1 ∧ (zeroOf false).number = (zeroOf true).number
      ∧ ¬ ((zeroOf false).compare (zeroOf true) = 0
        ↔ (zeroOf false).number = (zeroOf true).number) := by
  have hcmp : (zeroOf false).compare (zeroOf true) = 1 := by decide
  have hnum : (zeroOf false).number = (zeroOf true).number :=
    (Decimal.number_eq_iff rfl).mpr (by decide)
  exact ⟨hcmp, hnum, by simp [hcmp, hnum]⟩

end Mai.CoreDecimal
