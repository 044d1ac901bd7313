import Mathlib

/-!
# Alignment

`RoundUp` of `base/base.h`, which masks the low bits of a word. It is asked for powers of two, where
the result is the next multiple.
-/
namespace Mai.BaseAlign

def kPointerSize : ℕ := 8

/-- `RoundUp` for a power of two. -/
def roundUp (x m : ℕ) : ℕ := (x + m - 1) / m * m

/-- `RoundUp` as it is computed, for every `m`. -/
def roundUpMasked (x m : ℕ) : ℕ := (x + m - 1) &&& (2 ^ 64 - m)

/-- The mask takes the bits below the exponent away, and words have no others to lose. -/
lemma and_mask {n k : ℕ} (hn : n < 2 ^ 64) (hk : k ≤ 64) :
    n &&& (2 ^ 64 - 2 ^ k) = n / 2 ^ k * 2 ^ k := by
  have hmask : 2 ^ 64 - 2 ^ k = (2 ^ (64 - k) - 1) <<< k := by
    rw [Nat.shiftLeft_eq, Nat.sub_mul, one_mul, ← pow_add, Nat.sub_add_cancel hk]
  refine Nat.eq_of_testBit_eq fun i => ?_
  rw [hmask, ← Nat.shiftRight_eq_div_pow, ← Nat.shiftLeft_eq, Nat.testBit_and,
    Nat.testBit_shiftLeft, Nat.testBit_shiftLeft, Nat.testBit_two_pow_sub_one,
    Nat.testBit_shiftRight]
  rcases le_or_gt k i with hki | hki
  · rw [Nat.add_sub_cancel' hki]
    rcases lt_or_ge i 64 with hi | hi
    · simp [hki, show i - k < 64 - k by omega]
    · have hbit : n.testBit i = false :=
        Nat.testBit_lt_two_pow (hn.trans_le (Nat.pow_le_pow_right (by decide) hi))
      simp [hbit]
  · simp [not_le.mpr hki]

lemma roundUpMasked_two_pow {x k : ℕ} (hk : k ≤ 64) (hx : x + 2 ^ k - 1 < 2 ^ 64) :
    roundUpMasked x (2 ^ k) = roundUp x (2 ^ k) :=
  and_mask hx hk

/-- Rounding to a multiple of four leaves a multiple of four, also where `m` is no power of two. -/
lemma four_dvd_roundUpMasked {x m : ℕ} (hm : 4 ∣ m) (hle : m ≤ 2 ^ 64) : 4 ∣ roundUpMasked x m := by
  have hmask : (2 ^ 64 - m) % 2 ^ 2 = 0 := by omega
  have hmod : roundUpMasked x m % 2 ^ 2 = 0 := by
    rw [roundUpMasked, Nat.and_mod_two_pow, hmask, Nat.and_zero]
  omega

end Mai.BaseAlign
