import Mai.CoreDecimalCompare
import Mai.CoreDecimalScale

/-!
# Decimals and 64-bit integers

`NewP64` stores the high word of an integer first, as every other operation does.
`ToI64` and `ToU64` read two words back the other way around, and take the first
two of a longer number.
-/
namespace Mai.CoreDecimal

open Mai.BaseBig List Option

namespace Decimal

/-- `NewP64`. A second word that was not reserved lies outside of the decimal. -/
def newP64 (val : UInt64) (neg : Bool) (exp reserved : ℕ) : Option Decimal :=
  let hiBits := (val >>> 32).toUInt32
  if hiBits ≠ 0 then
    if reserved < 2 then none else some ⟨neg, exp, [hiBits, val.toUInt32]⟩
  else if val ≠ 0 then
    if reserved < 1 then none else some ⟨neg, exp, [val.toUInt32]⟩
  else some ⟨neg, exp, []⟩

def newI64 (val : Int64) : Option Decimal :=
  let neg : Bool := val < 0
  let val := if neg then -val else val
  newP64 val.toUInt64 neg 0 (if 0xffffffff < val then 2 else 1)

def newU64 (val : UInt64) : Option Decimal :=
  newP64 val false 0 (if 0xffffffff < val then 2 else 1)

/-- The words that are read: the first is the low one, and of the second those bits that the
`mask` lets through are the high ones. -/
def assemble (mask : UInt32) (z : Words) : UInt64 :=
  if z.all (· == 0) then 0
  else if z.length < 2 then (z.headD 0).toUInt64
  else ((z.getD 1 0) &&& mask).toUInt64 <<< 32 ||| (z.headD 0).toUInt64

def integral (d : Decimal) : Option Decimal := if 0 < d.exp then d.shrink 0 else some d

def toI64 (d : Decimal) : Option ℤ :=
  d.integral.map fun r =>
    (assemble 0x7fffffff r.segments).toNat * (if d.negative then -1 else 1)

def toU64 (d : Decimal) : Option UInt64 :=
  d.integral.map fun r =>
    let val := assemble 0xffffffff r.segments
    if d.negative then -val else val

def truncated (d : Decimal) : ℤ := d.value.tdiv (10 ^ d.exp)

def whole (d : Decimal) : ℕ := magnitude d.segments / 10 ^ d.exp

def EqualWords (n : ℕ) : Prop := n < base ∨ n / base = n % base

def Readable : Words → Prop
  | [] => True
  | [_] => True
  | [hi, lo] => hi = lo
  | [_, _, lo] => lo = 0
  | z => magnitude z = 0

def Shrinks (d : Decimal) : Prop :=
  d.exp = 0 ∨ ∃ scale, getFastPow10 d.exp = some scale ∧ DividesByPow10 d.segments scale

/-- The fraction is divided off, exactly or not. -/
def CanShrink (d : Decimal) : Prop :=
  d.exp = 0 ∨ ∃ scale, getFastPow10 d.exp = some scale ∧ CanDivide d.segments scale

/-- What else the integral part can come out right by: a borrow that is made up, or a wrong quotient
whose words happen to be read as the right one's. -/
def ReadByChance (d : Decimal) : Prop :=
  10 ≤ d.exp ∧ ∃ scale, getFastPow10 d.exp = some scale ∧
    (QuotientSlips d.segments scale
      ∨ ∃ r, d.integral = some r ∧ magnitude r.segments ≠ magnitude d.segments / 10 ^ d.exp)

def ReadsBack (d : Decimal) : Prop :=
  if d.exp = 0 then Readable d.segments else EqualWords d.whole

section Words

variable {mask : UInt32} {k : ℕ} {z : Words}

lemma all_zero_iff (z : Words) : z.all (· == 0) = true ↔ magnitude z = 0 :=
  isZero_iff ⟨false, 0, z⟩

lemma toNat_assemble (hmask : ∀ w : UInt32, (w &&& mask).toNat = w.toNat % 2 ^ k) (z : Words) :
    (assemble mask z).toNat = if magnitude z = 0 then 0
      else if z.length < 2 then (z.headD 0).toNat
      else (z.getD 1 0).toNat % 2 ^ k * base + (z.headD 0).toNat := by
  rw [assemble]
  by_cases hz : magnitude z = 0
  · rw [if_pos ((all_zero_iff z).mpr hz), if_pos hz]
    rfl
  · rw [if_neg (mt (all_zero_iff z).mp hz), if_neg hz]
    split_ifs
    · exact UInt32.toNat_toUInt64 _
    · rw [toNat_estimate, hmask]

lemma assemble_eq_iff (hmask : ∀ w : UInt32, (w &&& mask).toNat = w.toNat % 2 ^ k)
    (hk : k = 31 ∨ k = 32) (hz : magnitude z < 2 ^ 64) :
    (assemble mask z).toNat = magnitude z ↔ Readable z ∧ magnitude z < 2 ^ k * base := by
  rw [toNat_assemble hmask]
  match z with
  | [] => simp [Readable, magnitude, low, base]
  | [w] =>
    have hw := w.toNat_lt
    have hlarge : 2 ^ 32 ≤ 2 ^ k * base := by
      rcases hk with rfl | rfl <;> simp [base]
    simp only [magnitude, reverse_cons, reverse_nil, nil_append, low, Readable,
      length_singleton, headD_cons, true_and]
    simp
    omega
  | [hi, lo] =>
    have hhi := hi.toNat_lt
    have hlo := lo.toNat_lt
    have hmag : magnitude [hi, lo] = hi.toNat * base + lo.toNat := by
      simp [magnitude, low]
      ring
    rw [hmag, base] at *
    simp only [Readable, length_cons, length_nil, getD_cons_succ,
      getD_cons_zero, headD_cons, ← UInt32.toNat_inj]
    rcases hk with rfl | rfl <;> split_ifs <;> omega
  | [a, hi, lo] =>
    have hhi := hi.toNat_lt
    have hlo := lo.toNat_lt
    have hmag : magnitude [a, hi, lo] = a.toNat * 2 ^ 64 + (hi.toNat * 2 ^ 32 + lo.toNat) := by
      simp [magnitude, low, base]
      ring
    rw [hmag, base] at *
    simp only [Readable, length_cons, length_nil, getD_cons_succ,
      getD_cons_zero, headD_cons, ← UInt32.toNat_inj, UInt32.toNat_zero]
    rcases hk with rfl | rfl <;> split_ifs <;> omega
  | a :: b :: c :: d :: ws =>
    have hpos : 1 ≤ base ^ ws.length := Nat.pow_pos (by decide)
    have hmag : a.toNat * (2 ^ 96 * base ^ ws.length) + b.toNat * (2 ^ 64 * base ^ ws.length)
        ≤ magnitude (a :: b :: c :: d :: ws) := by
      rw [magnitude_cons, magnitude_cons]
      simp only [length_cons, pow_succ, base]
      nlinarith
    have ha : a.toNat = 0 := by
      by_contra hne
      have := Nat.mul_le_mul (Nat.pos_of_ne_zero hne) (Nat.mul_le_mul_left (2 ^ 96) hpos)
      omega
    have hb : b.toNat = 0 := by
      by_contra hne
      have := Nat.mul_le_mul (Nat.pos_of_ne_zero hne) (Nat.mul_le_mul_left (2 ^ 64) hpos)
      omega
    simp only [Readable, length_cons, getD_cons_succ, getD_cons_zero,
      headD_cons, ha, hb, Nat.zero_mod, Nat.zero_mul]
    have : 0 < 2 ^ k * base := Nat.mul_pos (Nat.two_pow_pos k) (by decide)
    split_ifs <;> omega

lemma toNat_and_mask (w : UInt32) : (w &&& 0x7fffffff).toNat = w.toNat % 2 ^ 31 := by
  rw [UInt32.toNat_and]
  exact Nat.and_two_pow_sub_one_eq_mod w.toNat 31

lemma toNat_and_all (w : UInt32) : (w &&& 0xffffffff).toNat = w.toNat % 2 ^ 32 := by
  rw [UInt32.toNat_and]
  exact Nat.and_two_pow_sub_one_eq_mod w.toNat 32

lemma readable_trim_iff (hz : magnitude (trim z) < 2 ^ 64) :
    Readable (trim z) ↔ EqualWords (magnitude (trim z)) := by
  have hlen := le_length_trim_iff z (show 2 ≤ 4 by omega)
  have hbound : (trim z).length ≤ 2 := by
    by_contra hlong
    have := hlen.mp (by omega)
    simp only [base] at this
    omega
  rw [EqualWords]
  rcases hw : trim z with _ | ⟨hi, _ | ⟨lo, _ | ⟨w, ws⟩⟩⟩
  · simp [Readable, magnitude, low, base]
  · have := hi.toNat_lt
    simp [Readable, magnitude, low, base, this]
  · have hhi := hi.toNat_lt
    have hlo := lo.toNat_lt
    have hlarge := (le_length_trim_iff z (show 2 ≤ 3 by omega)).mp (by simp [hw])
    have hmag : magnitude [hi, lo] = hi.toNat * base + lo.toNat := by
      simp [magnitude, low]
      ring
    rw [hw, hmag] at hlarge
    rw [hmag]
    simp only [Readable, ← UInt32.toNat_inj, base] at *
    omega
  · simp [hw] at hbound

end Words

section Conversion

variable {d : Decimal}

lemma integral_spec (h : d.Shrinks) (hwhole : d.whole < 2 ^ 64) :
    ∃ r, d.integral = some r ∧ magnitude r.segments = d.whole
      ∧ (Readable r.segments ↔ d.ReadsBack) := by
  rw [integral, ReadsBack, whole] at *
  rcases Nat.eq_zero_or_pos d.exp with he | he
  · rw [if_neg (by omega), if_pos he, he, pow_zero, Nat.div_one]
    exact ⟨d, rfl, rfl, Iff.rfl⟩
  · obtain ⟨scale, hscale, hdiv⟩ := h.resolve_left he.ne'
    obtain ⟨r, hres, -, -, ⟨z, hz⟩, hmag⟩ := shrink_some he (by rwa [Nat.sub_zero]) hdiv.1
    have hmag := hmag hdiv
    rw [Nat.sub_zero] at hmag
    rw [if_pos he, if_neg he.ne', ← hmag, hz]
    exact ⟨r, hres, by rw [hz],
      by rw [hz]; exact readable_trim_iff (by rw [← hz, hmag]; exact hwhole)⟩

lemma integral_some_iff (d : Decimal) : (∃ r, d.integral = some r) ↔ d.CanShrink := by
  rw [integral, CanShrink]
  rcases Nat.eq_zero_or_pos d.exp with he | he
  · rw [if_neg (by omega)]
    exact iff_of_true ⟨d, rfl⟩ (.inl he)
  · rw [if_pos he, or_iff_right he.ne']
    constructor
    · rintro ⟨r, hr⟩
      rw [shrink, if_neg (by omega), Nat.sub_zero] at hr
      obtain ⟨scale, hscale, hdiv⟩ := bind_eq_some_iff.mp hr
      refine ⟨scale, hscale, by_contra fun hcan => ?_⟩
      rw [divRaw_none hscale hcan] at hdiv
      cases hdiv
    · rintro ⟨scale, hscale, hcan⟩
      obtain ⟨r, hres, -⟩ := shrink_some he (by rwa [Nat.sub_zero]) hcan
      exact ⟨r, hres⟩

lemma readByChance_of_integral (h : ¬ d.Shrinks) {r : Decimal} (hr : d.integral = some r) :
    d.ReadByChance := by
  have he : 0 < d.exp := Nat.pos_of_ne_zero fun h0 => h (.inl h0)
  have hrun := hr
  rw [integral, if_pos he, shrink, if_neg (by omega), Nat.sub_zero] at hrun
  obtain ⟨scale, hscale, hdiv⟩ := bind_eq_some_iff.mp hrun
  obtain ⟨⟨q, r'⟩, hres, rfl⟩ := map_eq_some_iff.mp hdiv
  obtain ⟨hle, -, -, hone, -⟩ := getFastPow10_spec hscale
  have hnot : ¬ DividesByPow10 d.segments scale := fun hd => h (.inr ⟨scale, hscale, hd⟩)
  have hcan : CanDivide d.segments scale := by_contra fun hcan => by
    rw [divRaw_none hscale hcan] at hres
    cases hres
  obtain ⟨q', r'', hres', -, honly⟩ := divRaw_pow10 hscale hcan
  obtain ⟨rfl, rfl⟩ := Prod.mk.inj (Option.some.inj (hres.symm.trans hres'))
  refine ⟨?_, scale, hscale, ?_⟩
  · by_contra hlt
    exact hnot ⟨hcan, .inl (hone.mpr (by omega))⟩
  · by_cases hq : magnitude q = magnitude d.segments / 10 ^ d.exp
    · exact .inl ((honly hq).resolve_left hnot)
    · exact .inr ⟨_, hr, by rwa [normalize, magnitude_dropWhile]⟩

lemma truncated_eq (d : Decimal) :
    d.truncated = if d.negative then -(d.whole : ℤ) else d.whole := by
  rw [truncated, value, tdiv_signed, whole]

def ToI64Holds (d : Decimal) : Prop := d.Shrinks ∧ d.ReadsBack ∧ d.whole < 2 ^ 63

def ToU64Holds (d : Decimal) : Prop := d.Shrinks ∧ d.ReadsBack

lemma toI64_of_shrinks (h : d.Shrinks) (hwhole : d.whole < 2 ^ 64) :
    d.toI64 = some d.truncated ↔ d.ReadsBack ∧ d.whole < 2 ^ 63 := by
  obtain ⟨r, hres, hmag, hread⟩ := integral_spec h hwhole
  have hiff := assemble_eq_iff toNat_and_mask (.inl rfl) (hmag ▸ hwhole)
  rw [hmag, hread] at hiff
  rw [toI64, hres, map_some, some_inj, truncated_eq]
  refine Iff.trans ?_ hiff
  cases d.negative
  · simp
  · simp

lemma toI64_truncated (hwhole : d.whole < 2 ^ 64) :
    (d.ToI64Holds → d.toI64 = some d.truncated) ∧
      (d.toI64 = some d.truncated → d.ToI64Holds ∨ d.ReadByChance) := by
  refine ⟨fun h => (toI64_of_shrinks h.1 hwhole).mpr h.2, fun h => ?_⟩
  by_cases hshrinks : d.Shrinks
  · exact .inl ⟨hshrinks, (toI64_of_shrinks hshrinks hwhole).mp h⟩
  · obtain ⟨r, hr, -⟩ := map_eq_some_iff.mp h
    exact .inr (readByChance_of_integral hshrinks hr)

lemma toU64_of_shrinks (h : d.Shrinks) (hnonneg : 0 ≤ d.truncated) (hlt : d.truncated < 2 ^ 64) :
    (∃ u, d.toU64 = some u ∧ (u.toNat : ℤ) = d.truncated) ↔ d.ReadsBack := by
  rw [truncated_eq] at *
  have hwhole : d.whole < 2 ^ 64 := by
    split_ifs at * <;> omega
  obtain ⟨r, hres, hmag, hread⟩ := integral_spec h hwhole
  have hiff := assemble_eq_iff toNat_and_all (.inr rfl) (hmag ▸ hwhole)
  have hall : d.whole < 2 ^ 32 * base := by
    rw [base]
    omega
  rw [hmag, hread, and_iff_left hall] at hiff
  simp only [toU64, hres, map_some, some_inj, exists_eq_left']
  rw [← hiff]
  cases hneg : d.negative with
  | false => simp
  | true =>
    rw [hneg] at hnonneg
    have hzero : d.whole = 0 := by
      simp at hnonneg
      exact hnonneg
    simp only [hzero, if_true, UInt64.toNat_neg, UInt64.size]
    have := (assemble 0xffffffff r.segments).toNat_lt
    omega

end Conversion

lemma newP64_spec (val : UInt64) (neg : Bool) {reserved : ℕ} (hone : 1 ≤ reserved)
    (htwo : base ≤ val.toNat → 2 ≤ reserved) :
    ∃ z, newP64 val neg 0 reserved = some ⟨neg, 0, z⟩ ∧ magnitude z = val.toNat
      ∧ (Readable z ↔ EqualWords val.toNat) := by
  have hval := val.toNat_lt
  have hhi : (val >>> 32).toUInt32.toNat = val.toNat / base := by
    rw [UInt64.toNat_toUInt32, UInt64.toNat_shiftRight, base]
    simp [Nat.shiftRight_eq_div_pow]
    omega
  have hlo : val.toUInt32.toNat = val.toNat % base := by
    rw [UInt64.toNat_toUInt32, base]
  rw [newP64]
  by_cases hlarge : base ≤ val.toNat
  · have hne : (val >>> 32).toUInt32 ≠ 0 := by
      intro h0
      have := congrArg UInt32.toNat h0
      rw [hhi, base] at *
      simp only [UInt32.toNat_zero] at this
      omega
    simp only [if_pos hne]
    rw [if_neg (by have := htwo hlarge; omega)]
    refine ⟨_, rfl, ?_, ?_⟩
    · simp only [magnitude, reverse_cons, reverse_nil, nil_append,
        singleton_append, low, hhi, hlo, Nat.mul_zero, Nat.add_zero]
      have := Nat.div_add_mod val.toNat base
      omega
    · rw [Readable, EqualWords, ← UInt32.toNat_inj, hhi, hlo]
      omega
  · have heq : ¬ (val >>> 32).toUInt32 ≠ 0 := by
      rw [not_not, ← UInt32.toNat_inj, hhi, Nat.div_eq_of_lt (by omega)]
      rfl
    simp only [if_neg heq]
    have hequal : EqualWords val.toNat := .inl (by omega)
    by_cases hzero : val ≠ 0
    · rw [if_pos hzero, if_neg (by omega)]
      refine ⟨_, rfl, ?_, by simp [Readable, hequal]⟩
      simp only [magnitude, reverse_cons, reverse_nil, nil_append, low, hlo,
        Nat.mul_zero, Nat.add_zero]
      exact Nat.mod_eq_of_lt (by omega)
    · rw [if_neg hzero]
      refine ⟨_, rfl, ?_, by simp [Readable, hequal]⟩
      rw [not_not.mp hzero]
      rfl

variable {v : Int64}

lemma toNat_toUInt64_of_nonneg (h : 0 ≤ v.toInt) : (v.toUInt64.toNat : ℤ) = v.toInt := by
  have hbits : v.toUInt64.toNat = v.toBitVec.toNat := rfl
  rw [Int64.toInt, BitVec.toInt_eq_toNat_cond] at *
  rw [hbits]
  split_ifs at * <;> omega

lemma reserved_spec (h : 0 ≤ v.toInt) :
    1 ≤ (if 0xffffffff < v then 2 else 1)
      ∧ (base ≤ v.toUInt64.toNat → 2 ≤ (if 0xffffffff < v then 2 else 1)) := by
  have hnat := toNat_toUInt64_of_nonneg h
  have hiff : 0xffffffff < v ↔ 0xffffffff < v.toInt := Int64.lt_iff_toInt_lt
  simp only [hiff, base]
  split_ifs <;> omega

lemma toNat_magnitude (v : Int64) : (if v < 0 then -v else v).toUInt64.toNat = v.toInt.natAbs := by
  have hbits (w : Int64) : w.toUInt64.toNat = w.toBitVec.toNat := rfl
  have hsign : v < 0 ↔ v.toInt < 0 := Int64.lt_iff_toInt_lt
  have hlt := v.toBitVec.isLt
  have hint : v.toInt = if 2 * v.toBitVec.toNat < 2 ^ 64 then (v.toBitVec.toNat : ℤ)
      else v.toBitVec.toNat - (2 ^ 64 : ℕ) :=
    BitVec.toInt_eq_toNat_cond v.toBitVec
  rw [hbits]
  split_ifs with h
  · have hneg := hsign.mp h
    rw [Int64.toBitVec_neg, BitVec.toNat_neg]
    split_ifs at hint <;> omega
  · have hnonneg := mt hsign.mpr h
    split_ifs at hint <;> omega

lemma value_signed (v : Int64) {z : Words} (hmag : magnitude z = v.toInt.natAbs) :
    value ⟨decide (v < 0), 0, z⟩ = v.toInt := by
  have hsign : v < 0 ↔ v.toInt < 0 := Int64.lt_iff_toInt_lt
  rw [value, hmag]
  simp only [decide_eq_true_eq, hsign]
  split_ifs <;> omega

lemma newI64_spec (hmin : v.toInt ≠ -2 ^ 63) :
    ∃ z, newI64 v = some ⟨decide (v < 0), 0, z⟩ ∧ magnitude z = v.toInt.natAbs ∧
      (Readable z ↔ EqualWords v.toInt.natAbs) := by
  have hneg : (-v).toInt = (-v.toInt).bmod (2 ^ 64) := Int64.toInt_neg v
  have hlow := v.le_toInt
  have hhigh := v.toInt_lt
  have hsign : v < 0 ↔ v.toInt < 0 := Int64.lt_iff_toInt_lt
  have hnonneg : 0 ≤ (if v < 0 then -v else v).toInt := by
    rw [apply_ite Int64.toInt, hneg, Int.bmod_eq_of_le (by omega) (by omega)]
    split_ifs with h
    · have := hsign.mp h
      omega
    · have := mt hsign.mpr h
      omega
  obtain ⟨hone, htwo⟩ := reserved_spec hnonneg
  obtain ⟨z, hres, hmag, hread⟩ :=
    newP64_spec (if v < 0 then -v else v).toUInt64 (decide (v < 0)) hone htwo
  rw [toNat_magnitude] at hmag hread
  refine ⟨z, ?_, hmag, hread⟩
  rw [← hres, newI64]
  simp only [decide_eq_true_eq]

lemma newU64_spec (u : UInt64) :
    ∃ z, newU64 u = some ⟨false, 0, z⟩ ∧ magnitude z = u.toNat ∧
      (Readable z ↔ EqualWords u.toNat) := by
  have hlt : 0xffffffff < u ↔ 0xffffffff < u.toNat := UInt64.lt_iff_toNat_lt
  exact newP64_spec u false (show 1 ≤ if 0xffffffff < u then 2 else 1 by split_ifs <;> omega)
    (by simp only [hlt, base]; split_ifs <;> omega)

lemma whole_integer {d : Decimal} (hexp : d.exp = 0) : d.whole = magnitude d.segments := by
  rw [whole, hexp, pow_zero, Nat.div_one]

lemma newI64_toI64 (v : Int64) :
    (newI64 v).bind toI64 = some v.toInt ↔ EqualWords v.toInt.natAbs := by
  have hlow := v.le_toInt
  have hhigh := v.toInt_lt
  by_cases hmin : v.toInt = -2 ^ 63
  · obtain rfl : v = Int64.minValue := Int64.toInt_inj.mp (by rw [hmin]; rfl)
    have hnone : newI64 Int64.minValue = none := by decide +kernel
    rw [hnone, hmin]
    simp [EqualWords, base]
  · obtain ⟨z, hrun, hmag, hread⟩ := newI64_spec hmin
    have hwhole : (⟨decide (v < 0), 0, z⟩ : Decimal).whole = v.toInt.natAbs :=
      (whole_integer rfl).trans hmag
    have htrunc : (⟨decide (v < 0), 0, z⟩ : Decimal).truncated = v.toInt := by
      rw [truncated, value_signed v hmag, pow_zero, Int.tdiv_one]
    have hiff := toI64_of_shrinks (d := ⟨decide (v < 0), 0, z⟩) (.inl rfl) (by omega)
    rw [htrunc, ReadsBack, if_pos rfl, hread, hwhole] at hiff
    rw [hrun, bind_some, hiff, and_iff_left (by omega)]

lemma newU64_toU64 (u : UInt64) :
    (newU64 u).bind toU64 = some u ↔ EqualWords u.toNat := by
  obtain ⟨z, hres, hmag, hread⟩ := newU64_spec u
  have hwhole : (⟨false, 0, z⟩ : Decimal).whole = u.toNat := (whole_integer rfl).trans hmag
  have htrunc : (⟨false, 0, z⟩ : Decimal).truncated = u.toNat := by
    rw [truncated_eq, hwhole]
    rfl
  have hult := u.toNat_lt
  have hiff := toU64_of_shrinks (d := ⟨false, 0, z⟩) (.inl rfl) (by omega) (by omega)
  rw [htrunc, ReadsBack, if_pos rfl, hread] at hiff
  rw [hres, bind_some, ← hiff]
  constructor
  · intro h
    exact ⟨u, h, rfl⟩
  · rintro ⟨u', h, heq⟩
    have hsame : u' = u := UInt64.toNat_inj.mp (by exact_mod_cast heq)
    rw [h, hsame]

end Decimal

/-- Integers survive the way through a decimal exactly when they fit a word or have two equal
words. So does a decimal's integral part when the fraction can be divided off exactly, and only
then, unless fractions of ten or more digits are divided off wrongly and read back by chance. -/
theorem integer_conversion_iff (v : Int64) (u : UInt64) (d : Decimal) :
    ((Decimal.newI64 v).bind Decimal.toI64 = some v.toInt
      ↔ Decimal.EqualWords v.toInt.natAbs)
    ∧ ((Decimal.newU64 u).bind Decimal.toU64 = some u
      ↔ Decimal.EqualWords u.toNat)
    ∧ (-2 ^ 63 ≤ d.truncated → d.truncated < 2 ^ 63 →
      (d.ToI64Holds → d.toI64 = some d.truncated)
      ∧ (d.toI64 = some d.truncated → d.ToI64Holds ∨ d.ReadByChance))
    ∧ (0 ≤ d.truncated → d.truncated < 2 ^ 64 →
      (d.ToU64Holds → ∃ u, d.toU64 = some u ∧ (u.toNat : ℤ) = d.truncated)
      ∧ ((∃ u, d.toU64 = some u ∧ (u.toNat : ℤ) = d.truncated) →
        d.ToU64Holds ∨ d.ReadByChance)) := by
  refine ⟨Decimal.newI64_toI64 v, Decimal.newU64_toU64 u, ?_, ?_⟩
  · intro hlow hhigh
    have hwhole : d.whole < 2 ^ 64 := by
      rw [Decimal.truncated_eq] at hlow hhigh
      split_ifs at * <;> omega
    exact Decimal.toI64_truncated hwhole
  · intro hlow hhigh
    refine ⟨fun h => (Decimal.toU64_of_shrinks h.1 hlow hhigh).mpr h.2, fun h => ?_⟩
    by_cases hshrinks : d.Shrinks
    · exact .inl ⟨hshrinks, (Decimal.toU64_of_shrinks hshrinks hlow hhigh).mp h⟩
    · obtain ⟨u, hu, -⟩ := h
      obtain ⟨r, hr, -⟩ := map_eq_some_iff.mp hu
      exact .inr (Decimal.readByChance_of_integral hshrinks hr)

def threeBillion : Decimal := ⟨false, 10, [1, 0xa055690d, 0x9db80000]⟩

theorem integer_conversion_threeBillion :
    threeBillion.toI64 = some threeBillion.truncated ∧ threeBillion.truncated = 3000000000 := by
  have htrunc : threeBillion.truncated = 3000000000 := by decide +kernel
  have hdivides : DividesByPow10 threeBillion.segments [2, 0x540be400] := by decide +kernel
  have hholds : threeBillion.ToI64Holds :=
    ⟨.inr ⟨[2, 0x540be400], rfl, hdivides⟩, .inl (by decide +kernel), by decide +kernel⟩
  exact ⟨((integer_conversion_iff 0 0 threeBillion).2.2.1 (by rw [htrunc]; decide)
    (by rw [htrunc]; decide)).1 hholds, htrunc⟩

/-- Only one of the two words of `2 ^ 32` is read. -/
theorem toI64_twoWords :
    (Decimal.newI64 4294967296).bind Decimal.toI64 = some 1 := by
  decide +kernel

end Mai.CoreDecimal
