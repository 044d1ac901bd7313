import Mai.BaseBigQuotient

/-!
# Shifts of numbers of 32-bit words

Division by several words shifts the divisor until its first bit is set. The two
primitive shifts move the bits of neighbouring words into each other; both are
described by what they do to the number of the view.
-/
namespace Mai.BaseBig
open List

def primitiveShl (n : ℕ) : Words → Words
  | b :: c :: ws => (b <<< UInt32.ofNat n ||| c >>> UInt32.ofNat (32 - n)) ::
      primitiveShl n (c :: ws)
  | [b] => [b <<< UInt32.ofNat n]
  | [] => []

def shrFrom (n : ℕ) : UInt32 → Words → Words
  | c, b :: ws => (c <<< UInt32.ofNat (32 - n) ||| b >>> UInt32.ofNat n) :: shrFrom n b ws
  | _, [] => []

def primitiveShr (n : ℕ) : Words → Words
  | b :: ws => b >>> UInt32.ofNat n :: shrFrom n b ws
  | [] => []

lemma and_high_eq_zero_iff {x m : UInt32} {k w : ℕ} (hk : k + w = 32)
    (hm : m.toNat = (2 ^ w - 1) * 2 ^ k) : x &&& m = 0 ↔ x.toNat < 2 ^ k := by
  rw [← UInt32.toNat_inj, UInt32.toNat_and, hm]
  constructor
  · intro h
    apply Nat.lt_pow_two_of_testBit
    intro i hi
    have hbit := congrArg (Nat.testBit · i) h
    simp only [Nat.testBit_and, Nat.testBit_mul_two_pow, Nat.testBit_two_pow_sub_one] at hbit
    rcases Nat.lt_or_ge i 32 with hlt | hge
    · simpa [hi, show i - k < w by omega] using hbit
    · exact Nat.testBit_lt_two_pow
        (lt_of_lt_of_le x.toNat_lt (Nat.pow_le_pow_right (by norm_num) hge))
  · intro h
    apply Nat.eq_of_testBit_eq
    intro i
    simp only [Nat.testBit_and, Nat.testBit_mul_two_pow, Nat.testBit_two_pow_sub_one]
    rcases Nat.lt_or_ge i k with hlt | hge
    · simp [show ¬ k ≤ i by omega]
    · simp [Nat.testBit_lt_two_pow (lt_of_lt_of_le h (Nat.pow_le_pow_right (by norm_num) hge))]

lemma toNat_shiftLeft_small {x n : UInt32} (hn : n.toNat < 32)
    (hx : x.toNat < 2 ^ (32 - n.toNat)) : (x <<< n).toNat = x.toNat * 2 ^ n.toNat := by
  rw [UInt32.toNat_shiftLeft, Nat.mod_eq_of_lt hn, Nat.shiftLeft_eq]
  apply Nat.mod_eq_of_lt
  calc x.toNat * 2 ^ n.toNat < 2 ^ (32 - n.toNat) * 2 ^ n.toNat :=
        Nat.mul_lt_mul_of_pos_right hx (by positivity)
    _ = 2 ^ 32 := by
        rw [← pow_add]
        congr 1
        omega

lemma round_spec {x y m : UInt32} {b k : ℕ} (n : UInt32) (hn : n.toNat = k) (hk : 2 * k ≤ 32)
    (hm : m.toNat = (2 ^ k - 1) * 2 ^ (32 - k))
    (hxy : x.toNat * 2 ^ b = y.toNat) (hy : 2 ^ (32 - 2 * k) ≤ y.toNat) :
    ∃ c z, (if y &&& m = 0 then (b + k, y <<< n) else (b, y)) = (c, z)
      ∧ x.toNat * 2 ^ c = z.toNat ∧ 2 ^ (32 - k) ≤ z.toNat := by
  have hiff : y &&& m = 0 ↔ y.toNat < 2 ^ (32 - k) := and_high_eq_zero_iff (by omega) hm
  by_cases hzero : y &&& m = 0
  · have hshift : (y <<< n).toNat = y.toNat * 2 ^ k := by
      rw [toNat_shiftLeft_small (by omega) (by rw [hn]; exact hiff.mp hzero), hn]
    refine ⟨_, _, if_pos hzero, by rw [hshift, pow_add, ← mul_assoc, hxy], ?_⟩
    rw [hshift]
    calc 2 ^ (32 - k) = 2 ^ (32 - 2 * k) * 2 ^ k := by
          rw [← pow_add]
          congr 1
          omega
      _ ≤ y.toNat * 2 ^ k := Nat.mul_le_mul_right _ hy
  · exact ⟨_, _, if_neg hzero, hxy, not_lt.mp fun h => hzero (hiff.mpr h)⟩

lemma zval_spec {x : UInt32} (hx : 2 ^ 28 ≤ x.toNat) :
    ∃ z, [4, 3, 2, 2, 1, 1, 1, 1, 0, 0, 0, 0, 0, 0, 0, 0].getD (x >>> 28).toNat 0 = z
      ∧ 2 ^ 31 ≤ x.toNat * 2 ^ z ∧ x.toNat * 2 ^ z < 2 ^ 32 := by
  have hlt := x.toNat_lt
  have htop : (x >>> 28).toNat = x.toNat / 2 ^ 28 := by
    rw [UInt32.toNat_shiftRight]
    simp [Nat.shiftRight_eq_div_pow]
  rw [htop]
  obtain ⟨t, ht⟩ : ∃ t, x.toNat / 2 ^ 28 = t := ⟨_, rfl⟩
  have hlow : 1 ≤ t := by omega
  have hhigh : t ≤ 15 := by omega
  rw [ht]
  interval_cases t <;> refine ⟨_, rfl, ?_, ?_⟩ <;> simp <;> omega

theorem countLeadingZeros32_spec {x : UInt32} (hx : x ≠ 0) :
    2 ^ 31 ≤ x.toNat * 2 ^ countLeadingZeros32 x
      ∧ x.toNat * 2 ^ countLeadingZeros32 x < 2 ^ 32 := by
  have hpos : 0 < x.toNat := toNat_pos hx
  obtain ⟨b₁, y₁, h₁, hx₁, hy₁⟩ :=
    round_spec (x := x) (y := x) (m := 0xFFFF0000) (b := 0) 16 (k := 16)
    rfl (by norm_num) rfl (by simp) hpos
  obtain ⟨b₂, y₂, h₂, hx₂, hy₂⟩ := round_spec (m := 0xFF000000) (k := 8) 8
    rfl (by norm_num) rfl hx₁ hy₁
  obtain ⟨b₃, y₃, h₃, hx₃, hy₃⟩ := round_spec (m := 0xF0000000) (k := 4) 4
    rfl (by norm_num) rfl hx₂ hy₂
  obtain ⟨z, hz, hlow, hhigh⟩ := zval_spec hy₃
  have hclz : countLeadingZeros32 x = b₃ + z := by
    rw [countLeadingZeros32, ← hz]
    simp only [Nat.zero_add] at h₁
    simp only [h₁, h₂, h₃]
  rw [hclz, pow_add, ← mul_assoc, hx₃]
  exact ⟨hlow, hhigh⟩

lemma countLeadingZeros32_zero : countLeadingZeros32 0 = 32 := by decide

lemma countLeadingZeros32_le (x : UInt32) : countLeadingZeros32 x ≤ 32 := by
  by_cases hx : x = 0
  · rw [hx, countLeadingZeros32_zero]
  · have hpos : 0 < x.toNat := toNat_pos hx
    by_contra hlarge
    have hpow : 2 ^ 32 ≤ 2 ^ countLeadingZeros32 x := Nat.pow_le_pow_right (by norm_num) (by omega)
    have := (countLeadingZeros32_spec hx).2
    nlinarith

section Shift

variable {n : ℕ}

lemma toNat_ofNat_shift (hn : n < 32) : (UInt32.ofNat n).toNat % 32 = n := by
  rw [UInt32.toNat_ofNat', Nat.mod_eq_of_lt (show n < 2 ^ 32 by omega), Nat.mod_eq_of_lt hn]

lemma toNat_shr (b : UInt32) (hn : n < 32) : (b >>> UInt32.ofNat n).toNat = b.toNat / 2 ^ n := by
  rw [UInt32.toNat_shiftRight, toNat_ofNat_shift hn, Nat.shiftRight_eq_div_pow]

lemma toNat_shl (b : UInt32) (hn : n < 32) :
    (b <<< UInt32.ofNat n).toNat = 2 ^ n * (b.toNat % 2 ^ (32 - n)) := by
  rw [UInt32.toNat_shiftLeft, toNat_ofNat_shift hn, Nat.shiftLeft_eq, Nat.mul_comm,
    ← Nat.mul_mod_mul_left, ← pow_add, Nat.add_sub_cancel' hn.le]

lemma toNat_joined (b c : UInt32) (hpos : 0 < n) (hn : n < 32) :
    (b <<< UInt32.ofNat n ||| c >>> UInt32.ofNat (32 - n)).toNat
      = 2 ^ n * (b.toNat % 2 ^ (32 - n)) + c.toNat / 2 ^ (32 - n) := by
  have hhigh : c.toNat / 2 ^ (32 - n) < 2 ^ n := by
    apply Nat.div_lt_of_lt_mul
    rw [← pow_add, Nat.sub_add_cancel hn.le]
    exact c.toNat_lt
  rw [UInt32.toNat_or, toNat_shl b hn, toNat_shr c (by omega), Nat.two_pow_add_eq_or_of_lt hhigh]

lemma base_split (hn : n ≤ 32) : base = 2 ^ n * 2 ^ (32 - n) := by
  rw [base, ← pow_add, Nat.add_sub_cancel' hn]

lemma primitiveShl_length (n : ℕ) (z : Words) : (primitiveShl n z).length = z.length := by
  fun_induction primitiveShl n z <;> simp_all

lemma magnitude_primitiveShl (hpos : 0 < n) (hn : n < 32) (w : UInt32) (ws : Words) :
    magnitude (primitiveShl n (w :: ws)) + w.toNat / 2 ^ (32 - n) * base ^ (ws.length + 1)
      = magnitude (w :: ws) * 2 ^ n := by
  have hbase := base_split hn.le
  induction ws generalizing w with
  | nil =>
    have hdiv := Nat.div_add_mod w.toNat (2 ^ (32 - n))
    rw [primitiveShl, magnitude_cons, toNat_shl w hn, magnitude_cons]
    simp only [length_nil, pow_zero, Nat.mul_one, Nat.zero_add, pow_one, magnitude, low,
      reverse_nil, Nat.add_zero]
    rw [hbase]
    linear_combination 2 ^ n * hdiv
  | cons v ws ih =>
    have hdiv := Nat.div_add_mod w.toNat (2 ^ (32 - n))
    have hrest := ih v
    rw [primitiveShl, magnitude_cons, toNat_joined w v hpos hn, primitiveShl_length,
      magnitude_cons w]
    simp only [length_cons] at hrest ⊢
    have hpow : base ^ (ws.length + 1 + 1) = base ^ (ws.length + 1) * (2 ^ n * 2 ^ (32 - n)) := by
      rw [pow_succ, ← hbase]
    rw [hpow]
    linear_combination hrest + base ^ (ws.length + 1) * 2 ^ n * hdiv

lemma magnitude_primitiveShl_of_lt (hpos : 0 < n) (hn : n < 32) {w : UInt32} (ws : Words)
    (hw : w.toNat < 2 ^ (32 - n)) :
    magnitude (primitiveShl n (w :: ws)) = magnitude (w :: ws) * 2 ^ n := by
  have h := magnitude_primitiveShl hpos hn w ws
  rwa [Nat.div_eq_of_lt hw, Nat.zero_mul, Nat.add_zero] at h

lemma shrFrom_length (n : ℕ) (c : UInt32) (ws : Words) : (shrFrom n c ws).length = ws.length := by
  induction ws generalizing c with
  | nil => rfl
  | cons b ws ih => simp [shrFrom, ih]

lemma primitiveShr_length (n : ℕ) (z : Words) : (primitiveShr n z).length = z.length := by
  cases z <;> simp [primitiveShr, shrFrom_length]

lemma magnitude_shrFrom (hpos : 0 < n) (hn : n < 32) (c : UInt32) (ws : Words) :
    magnitude (shrFrom n c ws)
      = (c.toNat % 2 ^ n * base ^ ws.length + magnitude ws) / 2 ^ n := by
  have hbase := base_split hn.le
  induction ws generalizing c with
  | nil => simp [shrFrom, magnitude, low, Nat.div_eq_of_lt (Nat.mod_lt c.toNat (Nat.two_pow_pos n))]
  | cons b ws ih =>
    have hsub : 32 - (32 - n) = n := by omega
    have hjoin := toNat_joined (n := 32 - n) c b (by omega) (by omega)
    rw [hsub] at hjoin
    have hdiv := (Nat.div_add_mod b.toNat (2 ^ n)).symm
    have hsplit : c.toNat % 2 ^ n * base ^ (ws.length + 1) +
        (b.toNat * base ^ ws.length + magnitude ws)
        = 2 ^ n * ((2 ^ (32 - n) * (c.toNat % 2 ^ n) + b.toNat / 2 ^ n) * base ^ ws.length)
          + (b.toNat % 2 ^ n * base ^ ws.length + magnitude ws) := by
      rw [pow_succ]
      linear_combination base ^ ws.length * hdiv + c.toNat % 2 ^ n * base ^ ws.length * hbase
    rw [shrFrom, magnitude_cons, hjoin, shrFrom_length, ih, magnitude_cons, length_cons, hsplit,
      Nat.mul_add_div (Nat.two_pow_pos n)]

lemma magnitude_primitiveShr (hpos : 0 < n) (hn : n < 32) (z : Words) :
    magnitude (primitiveShr n z) = magnitude z / 2 ^ n := by
  cases z with
  | nil => simp [primitiveShr, magnitude, low]
  | cons b ws =>
    have hdiv := (Nat.div_add_mod b.toNat (2 ^ n)).symm
    have hsplit : b.toNat * base ^ ws.length + magnitude ws
        = 2 ^ n * (b.toNat / 2 ^ n * base ^ ws.length)
          + (b.toNat % 2 ^ n * base ^ ws.length + magnitude ws) := by
      linear_combination base ^ ws.length * hdiv
    rw [primitiveShr, magnitude_cons, magnitude_cons, toNat_shr b hn, shrFrom_length,
      magnitude_shrFrom hpos hn, hsplit, Nat.mul_add_div (Nat.two_pow_pos n)]

end Shift
end Mai.BaseBig
