import Mai.CoreDecimalScale

/-!
# Products of decimals

`Mul` multiplies the magnitudes and divides the product by the power of ten of
the common exponent. The division is exact for powers of one word, that is up to
the ninth, unless the product is zero, which has no word to divide. Longer powers
go through the long division, and the product is right if each of its digits is.
-/
namespace Mai.CoreDecimal

open Mai.BaseBig Option

namespace Decimal

def mul (before : UInt32) (lhs rhs : Decimal) : Option Decimal :=
  let rv := trim (basicMul before lhs.segments rhs.segments)
  let negative := lhs.negative != rhs.negative
  if 0 < lhs.exp then
    (getFastPow10 lhs.exp).bind fun scale =>
      (divRaw rv scale).map fun r => ⟨negative, lhs.exp, r.1⟩
  else some ⟨negative, lhs.exp, rv⟩

def MulExact (before : UInt32) (a b : Decimal) : Prop :=
  ∃ r, a.mul before b = some r ∧ r.exp = a.exp ∧ r.negative = (a.negative != b.negative)
    ∧ r.value = (a.value * b.value).tdiv (10 ^ a.exp)

def exactProduct (a b : Decimal) : ℕ := magnitude a.segments * magnitude b.segments

def product (before : UInt32) (a b : Decimal) : ℕ :=
  if a.segments = [] then before.toNat * magnitude b.segments % base ^ b.segments.length
  else exactProduct a b

def productWords (before : UInt32) (a b : Decimal) : Words :=
  trim (basicMul before a.segments b.segments)

def MulHolds (before : UInt32) (a b : Decimal) : Prop :=
  product before a b / 10 ^ a.exp = exactProduct a b / 10 ^ a.exp
    ∧ (0 < a.exp → ∀ scale ∈ getFastPow10 a.exp, DividesByPow10 (productWords before a b) scale)

lemma magnitude_product (before : UInt32) (a b : Decimal) :
    magnitude (productWords before a b) = product before a b := by
  rw [productWords, trim, magnitude_dropWhile, product]
  split_ifs with hwords
  · rw [hwords, magnitude_basicMul_nil]
  · exact magnitude_basicMul before b.segments hwords

lemma value_mul_value (a b : Decimal) :
    a.value * b.value
      = if a.negative != b.negative then -(exactProduct a b : ℤ) else exactProduct a b := by
  rw [value, value, exactProduct]
  cases a.negative <;> cases b.negative <;> simp

lemma value_eq_tdiv_iff (a b : Decimal) (exp : ℕ) (z : Words) :
    value ⟨a.negative != b.negative, exp, z⟩ = (a.value * b.value).tdiv (10 ^ a.exp)
      ↔ magnitude z = exactProduct a b / 10 ^ a.exp := by
  rw [value_mul_value, tdiv_signed, value]
  cases a.negative != b.negative
  · exact Nat.cast_inj
  · exact neg_inj.trans Nat.cast_inj

variable {a : Decimal}

lemma mul_zero_exp (before : UInt32) (b : Decimal) (he : a.exp = 0) :
    a.MulExact before b ↔ a.MulHolds before b := by
  have hres : a.mul before b = some ⟨a.negative != b.negative, a.exp,
      productWords before a b⟩ := by
    rw [mul, if_neg (by omega), productWords]
  have hvalue := value_eq_tdiv_iff a b a.exp (productWords before a b)
  have hone : 10 ^ a.exp = 1 := by rw [he, pow_zero]
  rw [magnitude_product, hone, Nat.div_one] at hvalue
  rw [MulExact, hres, MulHolds, hone, Nat.div_one, Nat.div_one, ← hvalue]
  simp [he]

lemma divided (before : UInt32) (b : Decimal) {scale : Words} (he : 0 < a.exp)
    (hscale : getFastPow10 a.exp = some scale) :
    a.MulExact before b ↔ ∃ q r, divRaw (productWords before a b) scale = some (q, r)
      ∧ magnitude q = exactProduct a b / 10 ^ a.exp := by
  rw [MulExact, mul, if_pos he, hscale, bind_some]
  constructor
  · rintro ⟨d, hd, -, -, hvalue⟩
    obtain ⟨⟨q, r⟩, hres, rfl⟩ := map_eq_some_iff.mp hd
    exact ⟨q, r, hres, (value_eq_tdiv_iff a b _ q).mp hvalue⟩
  · rintro ⟨q, r, hres, hmag⟩
    rw [productWords] at hres
    exact ⟨⟨a.negative != b.negative, a.exp, q⟩, by rw [hres, map_some], rfl, rfl,
      (value_eq_tdiv_iff a b _ q).mpr hmag⟩

/-- What else a product can come out right by: a borrow that is made up, or a first factor without
words. -/
def MulSlips (before : UInt32) (a b : Decimal) : Prop :=
  10 ≤ a.exp ∧ (a.segments = []
    ∨ ∀ scale ∈ getFastPow10 a.exp, QuotientSlips (productWords before a b) scale)

lemma mul_scaled (before : UInt32) (b : Decimal) (he : 0 < a.exp)
    (hle : a.exp ≤ 30) :
    (a.MulHolds before b → a.MulExact before b)
      ∧ (a.MulExact before b → a.MulHolds before b ∨ a.MulSlips before b) := by
  obtain ⟨scale, hscale, hmag, -, hone, -⟩ := table_entry a.exp (by omega)
  have hproduct := magnitude_product before a b
  rw [divided before b he hscale, MulHolds, MulSlips]
  simp only [hscale, mem_def, some_inj, forall_eq', he, true_implies]
  by_cases hcan : CanDivide (productWords before a b) scale
  · obtain ⟨q, r, hres, hquot, honly⟩ := divRaw_pow10 hscale hcan
    rw [hproduct] at hquot honly
    rw [hres]
    constructor
    · rintro ⟨heq, hdiv⟩
      exact ⟨q, r, rfl, (hquot hdiv).trans heq⟩
    · rintro ⟨q', r', hpair, hq⟩
      obtain ⟨rfl, rfl⟩ : q = q' ∧ r = r' := by simpa using hpair
      by_cases hdiv : DividesByPow10 (productWords before a b) scale
      · exact .inl ⟨(hquot hdiv).symm.trans hq, hdiv⟩
      · have hten : 10 ≤ a.exp := by
          by_contra hlt
          exact hdiv ⟨hcan, .inl (hone.mpr (by omega))⟩
        refine .inr ⟨hten, ?_⟩
        by_cases hwords : a.segments = []
        · exact .inl hwords
        · rw [product, if_neg hwords] at honly
          exact .inr ((honly hq).resolve_left hdiv)
  · rw [divRaw_none hscale hcan]
    constructor
    · rintro ⟨-, hdiv⟩
      exact absurd hdiv.1 hcan
    · rintro ⟨q, r, hres, -⟩
      cases hres

end Decimal

def unlucky (exp : ℕ) : Decimal :=
  ⟨false, exp, [0x80000000, 0, 0x7fffffff, 0x7fffffff, 0xffffffff]⟩

def unit (exp : ℕ) : Decimal := ⟨false, exp, [1]⟩

lemma unlucky_mul : ∀ exp < 31, 10 ≤ exp → ∀ r ∈ (unlucky exp).mul 0 (unit exp),
    r.value ≠ ((unlucky exp).value * (unit exp).value).tdiv (10 ^ exp) := by
  decide +kernel

lemma mul_before {a : Decimal} (before : UInt32) (b : Decimal) (h : a.segments ≠ []) :
    a.mul before b = a.mul 0 b := by
  rw [Decimal.mul, Decimal.mul, basicMul, basicMul, if_neg h, if_neg h]

/-- Products are truncated exactly under the condition, and up to the ninth power of ten only then.
Beyond it a wrong borrow may be made up, or a factor without words be read as one that happens to
fit, and there is no power for which all products are right. -/
theorem mul_exact_iff (before : UInt32) (a b : Decimal) (hexp : a.exp = b.exp) (he : a.exp ≤ 30) :
    (a.MulHolds before b → a.MulExact before b)
      ∧ (a.MulExact before b → a.MulHolds before b ∨ a.MulSlips before b)
      ∧ (10 ≤ a.exp → ∃ x y : Decimal, x.exp = a.exp ∧ y.exp = b.exp ∧ x.segments ≠ []
        ∧ y.segments ≠ [] ∧ ¬ x.MulExact before y) := by
  refine ⟨fun h => ?_, fun h => ?_, fun hge => ?_⟩
  · rcases Nat.eq_zero_or_pos a.exp with hzero | hpos
    · exact (Decimal.mul_zero_exp before b hzero).mpr h
    · exact (Decimal.mul_scaled before b hpos he).1 h
  · rcases Nat.eq_zero_or_pos a.exp with hzero | hpos
    · exact .inl ((Decimal.mul_zero_exp before b hzero).mp h)
    · exact (Decimal.mul_scaled before b hpos he).2 h
  · refine ⟨unlucky a.exp, unit a.exp, rfl, hexp, by simp [unlucky], by simp [unit], ?_⟩
    rintro ⟨r, hres, -, -, hvalue⟩
    rw [mul_before before _ (by simp [unlucky])] at hres
    exact unlucky_mul a.exp (by omega) hge r hres hvalue

def oneTwelve : Decimal := ⟨false, 12, [0xe8, 0xd4a51000]⟩

def oneTen : Decimal := ⟨false, 10, [2, 0x540be400]⟩

theorem mul_exact_oneTen : oneTen.MulExact 7 oneTen := by
  have hholds : oneTen.MulHolds 7 oneTen := by
    refine ⟨by decide +kernel, fun _ scale hscale => ?_⟩
    obtain rfl : [2, 0x540be400] = scale := Option.some.inj hscale
    decide +kernel
  exact (mul_exact_iff 7 oneTen oneTen rfl (by decide)).1 hholds

/-- The square of 1 with twelve digits behind the point is too small. -/
theorem mul_oneTwelve :
    oneTwelve.value = 10 ^ 12 ∧ oneTwelve.mul 0 oneTwelve = some ⟨false, 12, [0xe8, 0xd4a50fff]⟩
      ∧ ¬ oneTwelve.MulExact 0 oneTwelve := by
  have hres : oneTwelve.mul 0 oneTwelve = some ⟨false, 12, [0xe8, 0xd4a50fff]⟩ := by
    decide +kernel
  refine ⟨by decide +kernel, hres, ?_⟩
  rintro ⟨r, hr, -, -, hvalue⟩
  obtain rfl := Option.some.inj (hres.symm.trans hr)
  revert hvalue
  decide +kernel

end Mai.CoreDecimal
