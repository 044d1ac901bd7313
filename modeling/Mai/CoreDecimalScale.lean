import Mai.BaseBigProduct
import Mai.CoreDecimalDivision

/-!
# Powers of ten and changes of precision

Decimals are scaled with a table of the powers of ten up to the thirtieth, of one
to four words each. `Extend` multiplies by an entry of the table and `Shrink`
divides by one, so that both have a result only for exponents that are less than
31 apart.
-/
namespace Mai.CoreDecimal

open Mai.BaseBig List Option

def kPow10Decimal : List Words := [
  [0x1],
  [0xa],
  [0x64],
  [0x3e8],
  [0x2710],
  [0x186a0],
  [0xf4240],
  [0x989680],
  [0x5f5e100],
  [0x3b9aca00],
  [0x2, 0x540be400],
  [0x17, 0x4876e800],
  [0xe8, 0xd4a51000],
  [0x918, 0x4e72a000],
  [0x5af3, 0x107a4000],
  [0x38d7e, 0xa4c68000],
  [0x2386f2, 0x6fc10000],
  [0x1634578, 0x5d8a0000],
  [0xde0b6b3, 0xa7640000],
  [0x8ac72304, 0x89e80000],
  [0x5, 0x6bc75e2d, 0x63100000],
  [0x36, 0x35c9adc5, 0xdea00000],
  [0x21e, 0x19e0c9ba, 0xb2400000],
  [0x152d, 0x2c7e14a, 0xf6800000],
  [0xd3c2, 0x1bcecced, 0xa1000000],
  [0x84595, 0x16140148, 0x4a000000],
  [0x52b7d2, 0xdcc80cd2, 0xe4000000],
  [0x33b2e3c, 0x9fd0803c, 0xe8000000],
  [0x204fce5e, 0x3e250261, 0x10000000],
  [0x1, 0x431e0fae, 0x6d7217ca, 0xa0000000],
  [0xc, 0x9f2c9cd0, 0x4674edea, 0x40000000]]

def kMaxExp : ℕ := 31

def getFastPow10 (exp : ℕ) : Option Words := kPow10Decimal[exp]?

lemma kPow10Decimal_length : kPow10Decimal.length = 31 := rfl

lemma getFastPow10_isSome_iff (exp : ℕ) : (getFastPow10 exp).isSome ↔ exp ≤ 30 := by
  rw [getFastPow10, isSome_getElem?, kPow10Decimal_length]
  omega

lemma table_entry : ∀ exp < 31, ∃ scale, getFastPow10 exp = some scale
    ∧ magnitude scale = 10 ^ exp ∧ scale.headD 0 ≠ 0
    ∧ (scale.length = 1 ↔ exp ≤ 9) ∧ scale ≠ [] := by
  decide +kernel

variable {exp : ℕ}

lemma getFastPow10_spec {scale : Words} (h : getFastPow10 exp = some scale) :
    exp ≤ 30 ∧ magnitude scale = 10 ^ exp ∧ scale.headD 0 ≠ 0
      ∧ (scale.length = 1 ↔ exp ≤ 9) ∧ scale ≠ [] := by
  have hle := (getFastPow10_isSome_iff exp).mp (by simp [h])
  obtain ⟨s, hs, hrest⟩ := table_entry exp (by omega)
  obtain rfl : s = scale := Option.some.inj (hs.symm.trans h)
  exact ⟨hle, hrest⟩

namespace Decimal

/-- `Extend`. The word `before` stands in front of the decimal's words. -/
def extend (before : UInt32) (d : Decimal) (newExp : ℕ) : Option Decimal :=
  if newExp ≤ d.exp then some d
  else (getFastPow10 (newExp - d.exp)).map fun scale =>
    normalize ⟨d.negative, newExp, basicMul before d.segments scale⟩

def shrink (d : Decimal) (newExp : ℕ) : Option Decimal :=
  if d.exp ≤ newExp then some d
  else (getFastPow10 (d.exp - newExp)).bind fun scale =>
    (divRaw d.segments scale).map fun r => normalize ⟨d.negative, newExp, r.1⟩

def newPrecision (before : UInt32) (d : Decimal) (newExp : ℕ) : Option Decimal :=
  if newExp < d.exp then d.shrink newExp
  else if d.exp < newExp then d.extend before newExp
  else some d

end Decimal

/-- There are words enough to divide: one for a power of ten of one word, and otherwise one less
than the power has. -/
def CanDivide (z scale : Words) : Prop :=
  if scale.length = 1 then z ≠ [] else scale.length ≤ z.length + 1

/-- A power of one word always divides exactly. One of several words does when the digits of the
long division are found. -/
def DividesByPow10 (z scale : Words) : Prop :=
  CanDivide z scale ∧ (scale.length = 1 ∨ DivQuotientHolds z scale)

/-- Only a quotient of several words can come out right after a borrow went wrong. -/
def QuotientSlips (z scale : Words) : Prop :=
  scale.length ≠ 1 ∧ DivSlips z scale ∧ base ≤ magnitude z / magnitude scale

instance instDecidableCanDivide (z scale : Words) : Decidable (CanDivide z scale) :=
  inferInstanceAs (Decidable (ite _ _ _))

instance instDecidableDividesByPow10 (z scale : Words) : Decidable (DividesByPow10 z scale) :=
  inferInstanceAs (Decidable (_ ∧ (_ ∨ _)))

lemma toNat_lt_of_table {w : UInt32} (h : getFastPow10 exp = some [w]) :
    w ≠ 0 ∧ w.toNat = 10 ^ exp ∧ w.toNat ≤ 2 ^ 31 := by
  obtain ⟨-, hmag, hhead, hone, -⟩ := getFastPow10_spec h
  have hword : w.toNat = 10 ^ exp := by simpa [magnitude, low] using hmag
  have hexp : exp ≤ 9 := hone.mp rfl
  refine ⟨hhead, hword, ?_⟩
  calc w.toNat = 10 ^ exp := hword
    _ ≤ 10 ^ 9 := Nat.pow_le_pow_right (by norm_num) hexp
    _ ≤ 2 ^ 31 := by norm_num

lemma newWord_magnitude (w : UInt32) : magnitude (newWord w) = w.toNat := by
  rw [newWord]
  split_ifs with hw
  · simp [hw, magnitude, low]
  · simp [magnitude, low]

lemma le_length_trim_iff (z : Words) {n : ℕ} (hn : 2 ≤ n) :
    n ≤ (trim z).length + 1 ↔ base ^ (n - 2) ≤ magnitude (trim z) := by
  cases h : trim z with
  | nil =>
    have hpos : 0 < base ^ (n - 2) := Nat.pow_pos (by decide)
    simp only [length_nil, magnitude, reverse_nil, low]
    omega
  | cons w ws =>
    have hw : w ≠ 0 := by
      have := head?_dropWhile_not (· == 0) z
      rw [← trim, h] at this
      simpa using this
    have hpos : 1 ≤ w.toNat := toNat_pos hw
    have hlow : base ^ ws.length ≤ magnitude (w :: ws) := by
      rw [magnitude_cons]
      exact le_trans (by simpa using Nat.mul_le_mul_right (base ^ ws.length) hpos)
        (Nat.le_add_right _ _)
    have hhigh := magnitude_lt (w :: ws)
    rw [length_cons] at hhigh ⊢
    constructor
    · intro hle
      exact le_trans (Nat.pow_le_pow_right (by decide) (by omega)) hlow
    · intro hle
      have := (Nat.pow_lt_pow_iff_right (by decide : 1 < base)).mp (lt_of_le_of_lt hle hhigh)
      omega

lemma divRaw_word {lhs : Words} {d : UInt32} (hd : d ≠ 0) (hlhs : lhs ≠ []) :
    ∃ q r, divRaw lhs [d] = some (q, r) ∧ q.length = lhs.length
      ∧ (magnitude q = magnitude lhs / d.toNat ↔ Estimable d.toNat 0 lhs)
      ∧ (Estimable d.toNat 0 lhs → magnitude r = magnitude lhs % d.toNat) := by
  obtain ⟨q, r, hres, hlen, hquot, hrem⟩ := divWord_quotient_iff hd hlhs
  refine ⟨q, newWord r, by rw [divRaw, hres]; rfl, hlen, hquot, fun h => ?_⟩
  rw [newWord_magnitude, hrem h]

lemma divRaw_nil (d : UInt32) : divRaw [] [d] = none := by
  rw [divRaw, divWord_nil]
  rfl

lemma divRaw_none {scale z : Words} (hscale : getFastPow10 exp = some scale)
    (h : ¬ CanDivide z scale) : divRaw z scale = none := by
  obtain ⟨-, -, -, -, hne⟩ := getFastPow10_spec hscale
  obtain ⟨d, ds, rfl⟩ := exists_cons_of_ne_nil hne
  cases ds with
  | nil =>
    have hz : z = [] := not_not.mp (by simpa [CanDivide] using h)
    rw [hz, divRaw_nil]
  | cons e ds =>
    rw [CanDivide, if_neg (by simp)] at h
    exact divMagnitude_short (not_le.mp h)

/-- Division by a power of ten: the quotient is right under the condition, and otherwise only if a
borrow that went wrong is made up. -/
lemma divRaw_pow10 {scale z : Words} (hscale : getFastPow10 exp = some scale)
    (h : CanDivide z scale) :
    ∃ q r, divRaw z scale = some (q, r)
      ∧ (DividesByPow10 z scale → magnitude q = magnitude z / 10 ^ exp)
      ∧ (magnitude q = magnitude z / 10 ^ exp → DividesByPow10 z scale ∨
        QuotientSlips z scale) := by
  obtain ⟨-, hmag, hhead, -, hne⟩ := getFastPow10_spec hscale
  obtain ⟨d, ds, rfl⟩ := exists_cons_of_ne_nil hne
  cases ds with
  | nil =>
    obtain ⟨hd, hword, hle⟩ := toNat_lt_of_table hscale
    obtain ⟨q, r, hres, -, hquot, -⟩ := divRaw_word hd (show z ≠ [] from h)
    refine ⟨q, r, hres, fun _ => ?_, fun _ => .inl ⟨h, .inl rfl⟩⟩
    rw [← hword]
    exact hquot.mpr (estimable_of_small z (.inr hle) (toNat_pos hd))
  | cons e ds =>
    have hd : d ≠ 0 := hhead
    have hlen : ds.length + 1 ≤ z.length := by
      rw [CanDivide, if_neg (by simp)] at h
      simpa using h
    obtain ⟨q, r, hres, hquot, -, honly, -⟩ := divMagnitude_spec (e := e) hd hlen
    rw [← hmag]
    refine ⟨q, r, hres, fun hdiv => hquot (hdiv.2.resolve_left (by simp)), fun hq => ?_⟩
    rcases honly hq with hholds | hslips
    · exact .inl ⟨h, .inr hholds⟩
    · refine .inr ⟨by simp, hslips, not_lt.mp fun hsmall => ?_⟩
      exact not_divSlips hd hlen hsmall hslips

namespace Decimal

lemma value_of_magnitude (negative : Bool) (exp : ℕ) {z : Words} {n : ℕ} (h : magnitude z = n) :
    value ⟨negative, exp, z⟩ = if negative then -(n : ℤ) else n := by
  rw [value, h]

lemma tdiv_signed (negative : Bool) (n k : ℕ) :
    (if negative then -(n : ℤ) else n).tdiv (10 ^ k)
      = if negative then -((n / 10 ^ k : ℕ) : ℤ) else ((n / 10 ^ k : ℕ) : ℤ) := by
  have h : ((n / 10 ^ k : ℕ) : ℤ) = (n : ℤ).tdiv (10 ^ k) := by
    rw [Int.ofNat_tdiv]
    norm_num
  split_ifs
  · rw [Int.neg_tdiv, h]
  · exact h.symm

variable {d : Decimal}

lemma extend_spec (before : UInt32) {newExp : ℕ} (hexp : d.exp ≤ newExp)
    (hdelta : newExp - d.exp ≤ 30) (hwords : d.exp < newExp → d.segments ≠ []) :
    ∃ r, d.extend before newExp = some r ∧ r.exp = newExp ∧ r.negative = d.negative
      ∧ r.value = d.value * 10 ^ (newExp - d.exp) := by
  rw [extend]
  split_ifs with hle
  · exact ⟨d, rfl, by omega, rfl, by simp [show newExp - d.exp = 0 by omega]⟩
  · obtain ⟨scale, hscale, hmag, -⟩ := table_entry (newExp - d.exp) (by omega)
    refine ⟨normalize ⟨d.negative, newExp, basicMul before d.segments scale⟩,
      by rw [hscale, map_some], rfl, rfl, ?_⟩
    have hprod := magnitude_basicMul before scale (hwords (by omega))
    rw [hmag] at hprod
    rw [value_normalize, value_of_magnitude _ _ hprod, value]
    split_ifs <;> push_cast <;> ring

/-- The value of a decimal that is extended. One without words is multiplied as the word in front
of it, and what does not fit the words of the power is cut off. -/
def extended (before : UInt32) (d : Decimal) (newExp : ℕ) : ℤ :=
  if d.exp < newExp ∧ d.segments = [] then
    let n := before.toNat * 10 ^ (newExp - d.exp)
      % base ^ ((getFastPow10 (newExp - d.exp)).getD []).length
    if d.negative then -(n : ℤ) else n
  else d.value * 10 ^ (newExp - d.exp)

lemma newPrecision_extended (word : UInt32) {e : ℕ} (hexp : d.exp ≤ e)
    (hdelta : e ≤ d.exp + 30) :
    ∃ r, d.newPrecision word e = some r ∧ r.exp = e ∧ r.negative = d.negative ∧
      r.value = d.extended word e := by
  by_cases hnone : d.exp < e ∧ d.segments = []
  · obtain ⟨scale, hscale, hmag, -⟩ := table_entry (e - d.exp) (by omega)
    rw [newPrecision, if_neg (by omega), if_pos hnone.1, extend, if_neg (by omega), hscale,
      extended, if_pos hnone, hscale]
    refine ⟨_, rfl, rfl, rfl, ?_⟩
    rw [value_normalize, hnone.2]
    exact value_of_magnitude _ _ (by rw [magnitude_basicMul_nil, hmag, getD_some])
  · rw [newPrecision, if_neg (by omega), extended, if_neg hnone]
    split_ifs with hlt
    · exact extend_spec word hexp (by omega) fun h hnil => hnone ⟨h, hnil⟩
    · exact ⟨d, rfl, by omega, rfl, by simp [show e - d.exp = 0 by omega]⟩

lemma shrink_some {newExp : ℕ} {scale : Words} (hexp : newExp < d.exp)
    (hscale : getFastPow10 (d.exp - newExp) = some scale) (h : CanDivide d.segments scale) :
    ∃ r, d.shrink newExp = some r ∧ r.exp = newExp ∧ r.negative = d.negative
      ∧ (∃ z, r.segments = trim z)
      ∧ (DividesByPow10 d.segments scale →
        magnitude r.segments = magnitude d.segments / 10 ^ (d.exp - newExp)) := by
  obtain ⟨q, r, hres, hquot, -⟩ := divRaw_pow10 hscale h
  refine ⟨normalize ⟨d.negative, newExp, q⟩, ?_, rfl, rfl, ⟨q, rfl⟩, fun hdiv => ?_⟩
  · rw [shrink, if_neg (by omega), hscale, bind_some, hres, map_some]
  · rw [normalize, magnitude_dropWhile, hquot hdiv]

end Decimal
end Mai.CoreDecimal
