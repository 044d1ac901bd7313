import Mai.CoreDecimalCompare
import Mai.CoreDecimalScale

/-!
# Quotients of decimals

`Div` scales the dividend by the power of ten of the common exponent and divides
the magnitudes. A zero dividend and two equal magnitudes are answered by small
integers, which have the exponent zero. The sign of the quotient is found by
comparing the dividend's sign with itself, so that both results are never
negative.
-/
namespace Mai.CoreDecimal

open Mai.BaseBig List Option

namespace Decimal

def newZero : Decimal := ⟨false, 0, []⟩

def newOne (negative : Bool) : Decimal := ⟨negative, 0, [1]⟩

/-- The words of the scaled dividend. A dividend that is scaled is not zero, so that it has a
word and the one in front of it is not read. -/
def dividend (d : Decimal) : Option Words :=
  if 0 < d.exp then (getFastPow10 d.exp).map (basicMul 0 d.segments) else some d.segments

/-- `Div`: the quotient and the remainder, and none for a divisor that is zero. -/
def div (lhs rhs : Decimal) : Option (Decimal × Decimal) :=
  if rhs.isZero then none
  else if lhs.isZero then some (newZero, newZero)
  else if absCompare lhs rhs < 0 ∧ lhs.exp = 0 ∧ rhs.exp = 0 then some (newZero, lhs)
  else if absCompare lhs rhs = 0 then
    some (newOne (lhs.negative != rhs.negative), newZero)
  else
    lhs.dividend.bind fun z => (divRaw z rhs.segments).map fun r =>
      (normalize ⟨false, lhs.exp, r.1⟩, normalize ⟨false, lhs.exp, r.2⟩)

/-- Quotient and remainder have the operands' exponent and satisfy the equation of division, the
quotient rounded toward zero and the remainder zero or of the dividend's sign. -/
def DivExact (a b : Decimal) : Prop :=
  ∃ q r, a.div b = some (q, r) ∧ q.exp = a.exp ∧ r.exp = a.exp
    ∧ a.value * 10 ^ a.exp = q.value * b.value + r.value ∧ |r.value| < |b.value|
    ∧ q.value = (a.value * 10 ^ a.exp).tdiv b.value
    ∧ (r.value = 0 ∨ r.value.sign = a.value.sign)

def scaled (a : Decimal) : ℕ := magnitude a.segments * 10 ^ a.exp

def Answered (a b : Decimal) : Prop :=
  a.exp = 0 ∧ magnitude a.segments ≤ magnitude b.segments

def SignsFit (a b : Decimal) : Prop :=
  (a.negative = b.negative ∨ a.scaled / magnitude b.segments = 0)
    ∧ (a.negative = false ∨ a.scaled % magnitude b.segments = 0)

/-- The division of `z` by `divisor` is exact: no word is halved in vain by a divisor of one word,
and one of several words finds every digit and loses or makes up no borrow. -/
def DividesExactly (z divisor : Words) : Prop :=
  if divisor.length = 1 then z ≠ [] ∧ Estimable (magnitude divisor) 0 z
  else DivMagnitudeHolds z divisor

def DivHolds (a b : Decimal) : Prop :=
  a.Answered b ∨ (magnitude a.segments ≠ 0 ∧ magnitude a.segments ≠ magnitude b.segments
    ∧ a.SignsFit b ∧ ∃ z, a.dividend = some z ∧ DividesExactly z b.segments)

/-- A borrow goes wrong before the last word of a quotient of several words. -/
def DivisionSlips (a b : Decimal) : Prop :=
  b.segments.length ≠ 1 ∧ a.SignsFit b ∧ ∃ z, a.dividend = some z ∧ DivSlips z b.segments
    ∧ base ≤ magnitude z / magnitude b.segments

lemma tdiv_value (a b : Decimal) :
    (a.value * 10 ^ a.exp).tdiv b.value
      = if a.negative = b.negative then ((a.scaled / magnitude b.segments : ℕ) : ℤ)
        else -((a.scaled / magnitude b.segments : ℕ) : ℤ) := by
  have h : ((a.scaled / magnitude b.segments : ℕ) : ℤ)
      = ((magnitude a.segments : ℤ) * 10 ^ a.exp).tdiv (magnitude b.segments) := by
    rw [Int.ofNat_tdiv, scaled]
    push_cast
    rfl
  rw [h, value, value]
  cases a.negative <;> cases b.negative <;> simp

lemma tmod_value (a b : Decimal) :
    (a.value * 10 ^ a.exp).tmod b.value
      = if a.negative then -((a.scaled % magnitude b.segments : ℕ) : ℤ)
        else ((a.scaled % magnitude b.segments : ℕ) : ℤ) := by
  have h : ((a.scaled % magnitude b.segments : ℕ) : ℤ)
      = ((magnitude a.segments : ℤ) * 10 ^ a.exp).tmod (magnitude b.segments) := by
    rw [Int.ofNat_tmod, scaled]
    push_cast
    rfl
  rw [h, value, value]
  cases a.negative <;> cases b.negative <;> simp

lemma abs_value (d : Decimal) : |d.value| = magnitude d.segments := by
  rw [value]
  split_ifs <;> simp

lemma divExact_iff (a b : Decimal) (hb : magnitude b.segments ≠ 0) :
    a.DivExact b ↔ ∃ q r, a.div b = some (q, r) ∧ q.exp = a.exp ∧ r.exp = a.exp
      ∧ q.value = (a.value * 10 ^ a.exp).tdiv b.value
      ∧ r.value = (a.value * 10 ^ a.exp).tmod b.value := by
  have hdiv := Int.mul_tdiv_add_tmod (a.value * 10 ^ a.exp) b.value
  constructor
  · rintro ⟨q, r, hres, hq, hr, heq, -, hquot, -⟩
    refine ⟨q, r, hres, hq, hr, hquot, ?_⟩
    rw [← hquot] at hdiv
    linarith
  · rintro ⟨q, r, hres, hq, hr, hquot, hrem⟩
    refine ⟨q, r, hres, hq, hr, ?_, ?_, hquot, ?_⟩
    · rw [hquot, hrem]
      linarith
    · have hlt := Nat.mod_lt a.scaled (Nat.pos_of_ne_zero hb)
      rw [hrem, tmod_value, abs_value]
      split_ifs
      · rw [abs_neg, Nat.abs_cast]
        exact_mod_cast hlt
      · rw [Nat.abs_cast]
        exact_mod_cast hlt
    · rw [hrem, tmod_value, value]
      rcases Nat.eq_zero_or_pos (a.scaled % magnitude b.segments) with hzero | hpos
      · left
        rw [hzero]
        simp
      · have hmag : 0 < magnitude a.segments := by
          by_contra hnone
          rw [scaled, Nat.eq_zero_of_not_pos hnone, Nat.zero_mul, Nat.zero_mod] at hpos
          omega
        right
        split_ifs
        · rw [Int.sign_neg, Int.sign_neg, Int.sign_natCast_of_ne_zero hpos.ne',
            Int.sign_natCast_of_ne_zero hmag.ne']
        · rw [Int.sign_natCast_of_ne_zero hpos.ne', Int.sign_natCast_of_ne_zero hmag.ne']

lemma natCast_eq_signed_iff (p : Prop) [Decidable p] (m n : ℕ) :
    ((m : ℤ) = if p then (n : ℤ) else -(n : ℤ)) ↔ m = n ∧ (p ∨ n = 0) := by
  split_ifs with hp
  · simp [hp]
  · simp only [hp, false_or]
    omega

section Paths

variable {a b : Decimal}

lemma absCompare_lt_zero_iff (a b : Decimal) :
    absCompare a b < 0 ↔ magnitude a.segments < magnitude b.segments := by
  rw [absCompare, compare_eq_sign, Int.sign_neg_iff]
  omega

lemma absCompare_eq_zero_iff (a b : Decimal) :
    absCompare a b = 0 ↔ magnitude a.segments = magnitude b.segments := by
  rw [absCompare, compare_eq_sign, Int.sign_eq_zero_iff_zero]
  omega

lemma div_of_zero (hb : magnitude b.segments ≠ 0) (ha : magnitude a.segments = 0) :
    a.DivExact b ↔ a.exp = 0 := by
  have hres : a.div b = some (newZero, newZero) := by
    rw [div, if_neg (mt b.isZero_iff.mp hb), if_pos (a.isZero_iff.mpr ha)]
  have hvalue : a.value = 0 := a.value_eq_zero_iff.mpr ha
  rw [divExact_iff a b hb, hres]
  constructor
  · rintro ⟨q, r, heq, hq, -⟩
    obtain ⟨rfl, -⟩ : newZero = q ∧ newZero = r := by simpa using heq
    exact hq.symm
  · intro he
    have hzero : newZero.value = 0 := rfl
    exact ⟨newZero, newZero, rfl, he.symm, he.symm, by rw [hvalue, hzero, zero_mul, Int.zero_tdiv],
      by rw [hvalue, hzero, zero_mul, Int.zero_tmod]⟩

lemma div_of_less (hb : magnitude b.segments ≠ 0) (ha : magnitude a.segments ≠ 0)
    (hexp : a.exp = b.exp) (he : a.exp = 0) (hlt : magnitude a.segments < magnitude b.segments) :
    a.DivExact b := by
  have hres : a.div b = some (newZero, a) := by
    rw [div, if_neg (mt b.isZero_iff.mp hb), if_neg (mt a.isZero_iff.mp ha),
      if_pos ⟨(absCompare_lt_zero_iff a b).mpr hlt, he, hexp ▸ he⟩]
  have hscaled : a.scaled = magnitude a.segments := by rw [scaled, he, pow_zero, Nat.mul_one]
  refine (divExact_iff a b hb).mpr ⟨newZero, a, hres, he.symm, rfl, ?_, ?_⟩
  · rw [tdiv_value, hscaled, Nat.div_eq_of_lt hlt]
    simp [newZero, value, magnitude, low]
  · rw [tmod_value, hscaled, Nat.mod_eq_of_lt hlt, value]

lemma div_of_equal (hb : magnitude b.segments ≠ 0) (ha : magnitude a.segments ≠ 0)
    (heq : magnitude a.segments = magnitude b.segments) : a.DivExact b ↔ a.exp = 0 := by
  have hcmp : ¬ (absCompare a b < 0 ∧ a.exp = 0 ∧ b.exp = 0) := by
    rw [absCompare_lt_zero_iff]
    omega
  have hres : a.div b = some (newOne (a.negative != b.negative), newZero) := by
    rw [div, if_neg (mt b.isZero_iff.mp hb), if_neg (mt a.isZero_iff.mp ha), if_neg hcmp,
      if_pos ((absCompare_eq_zero_iff a b).mpr heq)]
  rw [divExact_iff a b hb, hres]
  constructor
  · rintro ⟨q, r, hpair, hq, -⟩
    obtain ⟨rfl, -⟩ : newOne (a.negative != b.negative) = q ∧ newZero = r := by simpa using hpair
    exact hq.symm
  · intro he
    have hscaled : a.scaled = magnitude b.segments := by rw [scaled, he, pow_zero, Nat.mul_one, heq]
    refine ⟨_, _, rfl, he.symm, he.symm, ?_, ?_⟩
    · rw [tdiv_value, hscaled, Nat.div_self (Nat.pos_of_ne_zero hb)]
      cases a.negative <;> cases b.negative <;> decide
    · rw [tmod_value, hscaled, Nat.mod_self]
      simp [newZero, value, magnitude, low]

lemma dividend_spec {z : Words} (ha : magnitude a.segments ≠ 0) (h : a.dividend = some z) :
    magnitude z = a.scaled ∧ z ≠ [] := by
  have hwords : a.segments ≠ [] := by
    intro hnil
    rw [hnil] at ha
    exact ha rfl
  rw [dividend] at h
  split_ifs at h with hpos
  · obtain ⟨scale, hscale, rfl⟩ := map_eq_some_iff.mp h
    obtain ⟨-, hmag, -⟩ := getFastPow10_spec hscale
    refine ⟨by rw [magnitude_basicMul 0 scale hwords, hmag, scaled], ?_⟩
    apply ne_nil_of_length_pos
    rw [basicMul_length]
    exact Nat.add_pos_left (length_pos_of_ne_nil hwords) _
  · obtain rfl := Option.some.inj h
    exact ⟨by rw [scaled, Nat.eq_zero_of_not_pos hpos, pow_zero, Nat.mul_one], hwords⟩

structure Divided (a b : Decimal) : Prop where
  divisor : magnitude b.segments ≠ 0
  dividend : magnitude a.segments ≠ 0
  differ : magnitude a.segments ≠ magnitude b.segments
  scaled : a.exp = 0 → magnitude b.segments < magnitude a.segments

lemma Divided.exact_iff (h : Divided a b) :
    a.DivExact b ↔ a.SignsFit b ∧ ∃ z q r, a.dividend = some z ∧ divRaw z b.segments = some (q, r)
      ∧ magnitude q = a.scaled / magnitude b.segments
      ∧ magnitude r = a.scaled % magnitude b.segments := by
  have hcmp : ¬ (absCompare a b < 0 ∧ a.exp = 0 ∧ b.exp = 0) := by
    rintro ⟨hlt, he, -⟩
    have := h.scaled he
    rw [absCompare_lt_zero_iff] at hlt
    omega
  have hrun : a.div b = a.dividend.bind fun z => (divRaw z b.segments).map fun r =>
      (normalize ⟨false, a.exp, r.1⟩, normalize ⟨false, a.exp, r.2⟩) := by
    rw [div, if_neg (mt b.isZero_iff.mp h.divisor), if_neg (mt a.isZero_iff.mp h.dividend),
      if_neg hcmp, if_neg (mt (absCompare_eq_zero_iff a b).mp h.differ)]
  have hquot : ∀ z : Words, (normalize ⟨false, a.exp, z⟩).value
        = (a.value * 10 ^ a.exp).tdiv b.value
      ↔ magnitude z = a.scaled / magnitude b.segments
        ∧ (a.negative = b.negative ∨ a.scaled / magnitude b.segments = 0) := by
    intro z
    rw [value_normalize, tdiv_value, value, if_neg Bool.false_ne_true, natCast_eq_signed_iff]
  have hrem : ∀ z : Words, (normalize ⟨false, a.exp, z⟩).value
        = (a.value * 10 ^ a.exp).tmod b.value
      ↔ magnitude z = a.scaled % magnitude b.segments
        ∧ (a.negative = false ∨ a.scaled % magnitude b.segments = 0) := by
    intro z
    rw [value_normalize, tmod_value, value, if_neg Bool.false_ne_true, ← natCast_eq_signed_iff]
    cases a.negative <;> simp
  rw [divExact_iff a b h.divisor, hrun]
  constructor
  · rintro ⟨q, r, hres, -, -, hq, hr⟩
    obtain ⟨z, hz, hmap⟩ := bind_eq_some_iff.mp hres
    obtain ⟨⟨q', r'⟩, hdiv, hpair⟩ := map_eq_some_iff.mp hmap
    obtain ⟨rfl, rfl⟩ : normalize ⟨false, a.exp, q'⟩ = q ∧ normalize ⟨false, a.exp, r'⟩ = r := by
      simpa using hpair
    obtain ⟨hqmag, hqsign⟩ := (hquot q').mp hq
    obtain ⟨hrmag, hrsign⟩ := (hrem r').mp hr
    exact ⟨⟨hqsign, hrsign⟩, z, q', r', hz, hdiv, hqmag, hrmag⟩
  · rintro ⟨⟨hqsign, hrsign⟩, z, q, r, hz, hdiv, hqmag, hrmag⟩
    exact ⟨normalize ⟨false, a.exp, q⟩, normalize ⟨false, a.exp, r⟩,
      by rw [hz, bind_some, hdiv, map_some], rfl, rfl,
      (hquot q).mpr ⟨hqmag, hqsign⟩, (hrem r).mpr ⟨hrmag, hrsign⟩⟩

lemma Divided.one_word (h : Divided a b) {d : UInt32} (hd : b.segments = [d]) :
    a.DivExact b ↔ a.SignsFit b ∧ ∃ z, a.dividend = some z ∧ DividesExactly z b.segments := by
  have hmag : magnitude b.segments = d.toNat := by simp [hd, magnitude, low]
  have hne : d ≠ 0 := by
    rintro rfl
    exact h.divisor hmag
  rw [h.exact_iff]
  refine and_congr_right fun _ => exists_congr fun z => ?_
  constructor
  · rintro ⟨q, r, hz, hdiv, hq, -⟩
    obtain ⟨hscaled, hwords⟩ := dividend_spec h.dividend hz
    obtain ⟨q', r', hres, -, hquot, -⟩ := divRaw_word hne hwords
    rw [hd, hres] at hdiv
    obtain ⟨rfl, rfl⟩ : q' = q ∧ r' = r := by simpa using hdiv
    refine ⟨hz, ?_⟩
    rw [DividesExactly, hd, if_pos length_singleton, ← hd, hmag]
    exact ⟨hwords, hquot.mp (by rw [hq, hscaled, hmag])⟩
  · rintro ⟨hz, hdivides⟩
    obtain ⟨hscaled, hwords⟩ := dividend_spec h.dividend hz
    rw [DividesExactly, hd, if_pos length_singleton, ← hd, hmag] at hdivides
    obtain ⟨q, r, hres, -, hquot, hrem⟩ := divRaw_word hne hwords
    exact ⟨q, r, hz, by rw [hd, hres], by rw [hquot.mpr hdivides.2, hscaled, hmag],
      by rw [hrem hdivides.2, hscaled, hmag]⟩

lemma Divided.many_words (h : Divided a b) (hlen : b.segments.length ≠ 1) :
    a.DivExact b ↔ a.SignsFit b ∧ ∃ z, a.dividend = some z ∧ DivMagnitudeExact z b.segments := by
  have hpos := Nat.pos_of_ne_zero h.divisor
  rw [h.exact_iff]
  refine and_congr_right fun _ => exists_congr fun z => ?_
  constructor
  · rintro ⟨q, r, hz, hdiv, hq, hr⟩
    obtain ⟨hscaled, -⟩ := dividend_spec h.dividend hz
    rw [divRaw_many z hlen] at hdiv
    refine ⟨hz, q, r, hdiv, ?_, ?_⟩
    · rw [hscaled, hq, hr, Nat.mul_comm, Nat.div_add_mod]
    · rw [hr]
      exact Nat.mod_lt _ hpos
  · rintro ⟨hz, q, r, hdiv, heq, hlt⟩
    obtain ⟨hscaled, -⟩ := dividend_spec h.dividend hz
    obtain ⟨hq, hr⟩ := (Nat.div_mod_unique hpos).mpr
      ⟨show magnitude r + magnitude b.segments * magnitude q = a.scaled by
        rw [← hscaled, heq]; ring, hlt⟩
    exact ⟨q, r, hz, by rw [divRaw_many z hlen, hdiv], hq.symm, hr.symm⟩

lemma Divided.exact (h : Divided a b) (hsigns : a.SignsFit b) {z : Words}
    (hz : a.dividend = some z) (hdivides : DividesExactly z b.segments) : a.DivExact b := by
  by_cases hone : b.segments.length = 1
  · obtain ⟨d, hd⟩ := length_eq_one_iff.mp hone
    exact (h.one_word hd).mpr ⟨hsigns, z, hz, hdivides⟩
  · rw [DividesExactly, if_neg hone] at hdivides
    exact (h.many_words hone).mpr ⟨hsigns, z, hz, hdivides.exact⟩

lemma Divided.holds_or_slips (h : Divided a b) (hexact : a.DivExact b) :
    (a.SignsFit b ∧ ∃ z, a.dividend = some z ∧ DividesExactly z b.segments)
      ∨ a.DivisionSlips b := by
  by_cases hone : b.segments.length = 1
  · obtain ⟨d, hd⟩ := length_eq_one_iff.mp hone
    exact .inl ((h.one_word hd).mp hexact)
  · obtain ⟨hsigns, z, hz, hdiv⟩ := (h.many_words hone).mp hexact
    rcases hdiv.holds_or_slips with hholds | ⟨-, hslips⟩
    · exact .inl ⟨hsigns, z, hz, by rw [DividesExactly, if_neg hone]; exact hholds⟩
    · exact .inr ⟨hone, hsigns, z, hz, hslips⟩

lemma divided_or_answered (hb : magnitude b.segments ≠ 0) (ha : magnitude a.segments ≠ 0)
    (hne : magnitude a.segments ≠ magnitude b.segments) : Divided a b ∨ a.Answered b := by
  by_cases hless : a.exp = 0 ∧ magnitude a.segments < magnitude b.segments
  · exact .inr ⟨hless.1, hless.2.le⟩
  · exact .inl ⟨hb, ha, hne, fun he => by omega⟩

lemma Divided.not_answered (h : Divided a b) : ¬ a.Answered b := by
  rintro ⟨he, hle⟩
  have := h.scaled he
  omega

end Paths
end Decimal

/-- Division satisfies its equation when no result is scaled that was found without dividing, the
results are positive, and the division of the words is exact. It does so only then, unless a borrow
that went wrong before the last word of the quotient is made up. -/
theorem div_exact_iff (a b : Decimal) (hexp : a.exp = b.exp) (hb : b.value ≠ 0) :
    (a.DivHolds b → a.DivExact b)
      ∧ (a.DivExact b → a.DivHolds b ∨ a.DivisionSlips b) := by
  have hbmag : magnitude b.segments ≠ 0 := mt b.value_eq_zero_iff.mpr hb
  by_cases ha : magnitude a.segments = 0
  · rw [Decimal.div_of_zero hbmag ha]
    refine ⟨?_, fun he => .inl (.inl ⟨he, by omega⟩)⟩
    rintro (hanswered | ⟨hne, -⟩)
    · exact hanswered.1
    · exact absurd ha hne
  · by_cases heq : magnitude a.segments = magnitude b.segments
    · rw [Decimal.div_of_equal hbmag ha heq]
      refine ⟨?_, fun he => .inl (.inl ⟨he, heq.le⟩)⟩
      rintro (hanswered | ⟨-, hne, -⟩)
      · exact hanswered.1
      · exact absurd heq hne
    · rcases Decimal.divided_or_answered hbmag ha heq with hdiv | hanswered
      · constructor
        · rintro (hanswered | ⟨-, -, hsigns, z, hz, hdivides⟩)
          · exact absurd hanswered hdiv.not_answered
          · exact hdiv.exact hsigns hz hdivides
        · exact fun hexact => (hdiv.holds_or_slips hexact).imp_left fun h => .inr ⟨ha, heq, h⟩
      · exact ⟨fun _ => Decimal.div_of_less hbmag ha hexp hanswered.1
          (lt_of_le_of_ne hanswered.2 heq), fun _ => .inl (.inl hanswered)⟩

def seven (negative : Bool) : Decimal := ⟨negative, 0, [7]⟩

def two : Decimal := ⟨false, 0, [2]⟩

def oneScaled : Decimal := ⟨false, 10, [2, 0x540be400]⟩

def twoScaled : Decimal := ⟨false, 10, [4, 0xa817c800]⟩

theorem div_exact_oneTwo : oneScaled.DivExact twoScaled := by
  have hdigits : DivDigitsHold [0, 5, 0x6bc75e2d, 0x63100000] twoScaled.segments := by
    decide +kernel
  have hholds : oneScaled.DivHolds twoScaled :=
    .inr ⟨by decide, by decide, ⟨.inl rfl, .inl rfl⟩, [0, 5, 0x6bc75e2d, 0x63100000],
      by decide +kernel, ⟨by decide, by decide, by decide⟩, fun _ => hdigits⟩
  exact (div_exact_iff oneScaled twoScaled rfl (by decide)).1 hholds

/-- The quotient of -7 and 2 comes without its sign. -/
theorem div_minusSeven :
    (seven true).div two = some (⟨false, 0, [3]⟩, ⟨false, 0, [1]⟩)
      ∧ (seven true).value = -7 ∧ two.value = 2 ∧ ¬ (seven true).DivExact two := by
  have hres : (seven true).div two = some (⟨false, 0, [3]⟩, ⟨false, 0, [1]⟩) := by
    decide +kernel
  refine ⟨hres, by decide, by decide, ?_⟩
  rintro ⟨q, r, hpair, -, -, heq, -⟩
  obtain ⟨rfl, rfl⟩ := Prod.mk.inj (Option.some.inj (hres.symm.trans hpair))
  revert heq
  decide

end Mai.CoreDecimal
