import Mai.CoreDecimal
import Mai.CoreDecimalDivision

/-!
# Shifts of decimals

`Shl` and `Shr` (`core/decimal-v2.cc`) move whole words and then bits. A decimal has room in front
of its words: a number that grows is moved up within this room, and the words it leaves behind are
not cleared; without room it gets a new decimal, of sign and exponent zero. Shifts of a word by its
width have no result.
-/
namespace Mai.CoreDecimal

open Mai.BaseBig List

structure Stored where
  before : Words
  decimal : Decimal

namespace Stored

def growth (clz n : ℕ) : ℕ := if n % 32 ≤ clz then n / 32 else n / 32 + 1

def grow (s : Stored) (k : ℕ) : Stored :=
  if s.before.length < k then ⟨[], ⟨false, 0, s.decimal.segments ++ List.replicate k 0⟩⟩
  else
    let base := s.before ++ s.decimal.segments
    ⟨s.before.take (s.before.length - k),
      { s.decimal with segments := s.decimal.segments ++ base.drop (base.length - k) }⟩

def shiftBits (clz bits : ℕ) (z : Words) : Words :=
  if bits = 0 then z else if bits ≤ clz then primitiveShl bits z else primitiveShr (32 - bits) z

def shl (s : Stored) (n : ℕ) : Option Stored :=
  match s.decimal.segments with
  | [] => some s
  | w :: ws =>
    let clz := countLeadingZeros32 w
    if n ≤ clz then
      if n = 0 ∧ ws = [] then some s
      else if n = 0 ∨ n = 32 then none
      else some { s with decimal := { s.decimal with segments := primitiveShl n (w :: ws) } }
    else
      let rv := s.grow (growth clz n)
      some { rv with decimal := { rv.decimal with
        segments := shiftBits clz (n % 32) rv.decimal.segments } }

def shr (s : Stored) (n : ℕ) : Option Stored :=
  let z := s.decimal.segments
  let rest := z.take (z.length - n / 32)
  if z = [] then some s
  else if z.length < n / 32 then none
  else if n % 32 = 0 then some ⟨s.before ++ z.take (n / 32), { s.decimal with segments := rest }⟩
  else if rest = [] then none
  else
    let shifted := CoreDecimal.shr (n % 32) rest
    some ⟨(s.before ++ z.take (n / 32) ++ (primitiveShl (32 - n % 32) rest).take
      (rest.length - shifted.length)), { s.decimal with segments := shifted }⟩

end Stored

namespace Stored

/-- Within a word this is the shift that the division starts with. -/
lemma shl_segments (s : Stored) {n : ℕ} (hpos : 0 < n) (hn : n < 32) :
    (s.shl n).map (fun r => r.decimal.segments) = some
      (CoreDecimal.shl (s.before.length + s.decimal.segments.length) n s.decimal.segments) := by
  obtain ⟨before, negative, exp, z⟩ := s
  rcases z with - | ⟨w, ws⟩
  · rfl
  have hgrowth (h : ¬n ≤ countLeadingZeros32 w) : growth (countLeadingZeros32 w) n = 1 := by
    rw [growth, Nat.mod_eq_of_lt hn, if_neg h, Nat.div_eq_of_lt hn]
  have hbits (h : ¬n ≤ countLeadingZeros32 w) (z : Words) :
      shiftBits (countLeadingZeros32 w) (n % 32) z = primitiveShr (32 - n) z := by
    rw [shiftBits, Nat.mod_eq_of_lt hn, if_neg hpos.ne', if_neg h]
  rw [shl, CoreDecimal.shl]
  dsimp only
  rw [length_cons]
  split_ifs with hclz hnone hbad hroom
  · omega
  · omega
  · rfl
  · rw [Option.map_some, hbits hclz, hgrowth hclz, grow, if_pos (by dsimp only; omega)]
    rfl
  · have hlast : (before ++ w :: ws).drop ((before ++ w :: ws).length - 1) = [ws.getLastD w] := by
      rw [drop_length_sub_one (by simp), getLast_append_of_ne_nil _ (cons_ne_nil w ws),
        getLast_eq_getLastD]
    rw [Option.map_some, hbits hclz, hgrowth hclz, grow, if_neg (by dsimp only; omega)]
    dsimp only
    rw [hlast]

def Shifted (s : Stored) (result : Option Stored) (m : ℕ) : Prop :=
  ∃ r, result = some r ∧ r.decimal.negative = s.decimal.negative ∧ r.decimal.exp = s.decimal.exp ∧
    magnitude r.decimal.segments = m

/-- What a shift to the left needs: no shift by nothing of several words and none by a whole zero
word; without room a positive integer, and with room low words in the storage that the shift moves
out. -/
def ShlHolds (s : Stored) (n : ℕ) : Prop :=
  let z := s.decimal.segments
  let clz := countLeadingZeros32 (z.headD 0)
  let k := growth clz n
  z = [] ∨
    if n ≤ clz then n ≠ 32 ∧ (n = 0 → z.length = 1)
    else if s.before.length < k then s.decimal.negative = false ∧ s.decimal.exp = 0
    else magnitude ((s.before ++ z).drop ((s.before ++ z).length - k)) * 2 ^ n < 2 ^ (32 * k)

def ShrHolds (s : Stored) (n : ℕ) : Prop :=
  s.decimal.segments = [] ∨ n ≤ 32 * s.decimal.segments.length

end Stored

lemma magnitude_shiftBits (w : UInt32) (ws : Words) (n : ℕ) :
    magnitude (Stored.shiftBits (countLeadingZeros32 w) (n % 32) (w :: ws)) =
      magnitude (w :: ws) * 2 ^ n / 2 ^ (32 * Stored.growth (countLeadingZeros32 w) n) := by
  have hn := Nat.div_add_mod n 32
  have hmod : n % 32 < 32 := Nat.mod_lt n (by decide)
  rw [Stored.shiftBits, Stored.growth]
  by_cases hclz : n % 32 ≤ countLeadingZeros32 w
  · have hpow : magnitude (w :: ws) * 2 ^ n / 2 ^ (32 * (n / 32)) =
        magnitude (w :: ws) * 2 ^ (n % 32) := by
      refine Nat.div_eq_of_eq_mul_left (Nat.two_pow_pos (32 * (n / 32))) ?_
      rw [Nat.mul_assoc, ← pow_add, Nat.add_comm (n % 32), hn]
    rw [if_pos hclz, if_pos hclz, hpow]
    split_ifs with hzero
    · rw [hzero, pow_zero, Nat.mul_one]
    · exact magnitude_primitiveShl_of_lt (Nat.pos_of_ne_zero hzero) hmod ws
        (lt_of_le_countLeadingZeros32 hclz)
  · have hzero : n % 32 ≠ 0 := fun h => hclz (by omega)
    rw [if_neg hclz, if_neg hclz, if_neg hzero, magnitude_primitiveShr (by omega) (by omega),
      show 32 * (n / 32 + 1) = 32 - n % 32 + n by omega, pow_add,
      Nat.mul_div_mul_right _ _ (Nat.two_pow_pos n)]

lemma magnitude_shiftBits_append (w : UInt32) (ws t : Words) (n : ℕ)
    (ht : t.length = Stored.growth (countLeadingZeros32 w) n) :
    magnitude (Stored.shiftBits (countLeadingZeros32 w) (n % 32) (w :: ws ++ t)) =
      magnitude (w :: ws) * 2 ^ n + magnitude t * 2 ^ n /
        2 ^ (32 * Stored.growth (countLeadingZeros32 w) n) := by
  have hbase : base ^ t.length = 2 ^ (32 * Stored.growth (countLeadingZeros32 w) n) := by
    rw [ht, base, pow_mul]
  have h := magnitude_shiftBits w (ws ++ t) n
  rw [← cons_append, magnitude_append, hbase, Nat.add_mul, Nat.mul_right_comm, Nat.add_comm,
    Nat.add_mul_div_right _ _ (Nat.two_pow_pos _), Nat.add_comm] at h
  exact h

lemma shifted_some {s r : Stored} {m : ℕ} : s.Shifted (some r) m ↔
    r.decimal.negative = s.decimal.negative ∧ r.decimal.exp = s.decimal.exp ∧
      magnitude r.decimal.segments = m := by
  constructor
  · rintro ⟨r, h, hr⟩
    cases h
    exact hr
  · exact fun h => ⟨r, rfl, h⟩

lemma shifted_none {s : Stored} {m : ℕ} : ¬s.Shifted none m := by
  rintro ⟨r, h, -⟩
  cases h

lemma shlHolds_cons (before : Words) (negative : Bool) (exp : ℕ) (w : UInt32) (ws : Words) (n : ℕ) :
    Stored.ShlHolds ⟨before, negative, exp, w :: ws⟩ n ↔
      if n ≤ countLeadingZeros32 w then n ≠ 32 ∧ (n = 0 → (w :: ws).length = 1)
      else if before.length < Stored.growth (countLeadingZeros32 w) n then negative = false ∧
        exp = 0
      else magnitude ((before ++ w :: ws).drop
        ((before ++ w :: ws).length - Stored.growth (countLeadingZeros32 w) n)) * 2 ^ n <
        2 ^ (32 * Stored.growth (countLeadingZeros32 w) n) :=
  or_iff_right (cons_ne_nil w ws)

lemma shl_holds_iff (s : Stored) (n : ℕ) :
    s.Shifted (s.shl n) (magnitude s.decimal.segments * 2 ^ n) ↔ s.ShlHolds n := by
  obtain ⟨before, negative, exp, z⟩ := s
  cases z with
  | nil => simp [Stored.shl, Stored.ShlHolds, shifted_some, magnitude, low]
  | cons w ws =>
    rw [shlHolds_cons, Stored.shl]
    dsimp only
    by_cases hclz : n ≤ countLeadingZeros32 w
    · rw [if_pos hclz, if_pos hclz]
      have hle := countLeadingZeros32_le w
      split_ifs with hnone hbad
      · obtain ⟨rfl, rfl⟩ := hnone
        simp [shifted_some]
      · refine iff_of_false shifted_none ?_
        rintro ⟨hword, hsingle⟩
        have hzero := hbad.resolve_right hword
        exact hnone ⟨hzero, by simpa using hsingle hzero⟩
      · obtain ⟨hzero, hword⟩ := not_or.mp hbad
        refine iff_of_true (shifted_some.mpr ⟨rfl, rfl, ?_⟩) ⟨hword, fun h => absurd h hzero⟩
        exact magnitude_primitiveShl_of_lt (Nat.pos_of_ne_zero hzero) (by omega) ws
          (lt_of_le_countLeadingZeros32 hclz)
    · rw [if_neg hclz, if_neg hclz, shifted_some, Stored.grow]
      dsimp only
      split_ifs with hroom
      · have hmag := magnitude_shiftBits_append w ws _ n
          (length_replicate (n := Stored.growth (countLeadingZeros32 w) n) (a := 0))
        have hzeros : magnitude (List.replicate (Stored.growth (countLeadingZeros32 w) n) 0) =
            0 := by
          simpa [magnitude, low] using magnitude_replicate_append
            (Stored.growth (countLeadingZeros32 w) n) []
        rw [hzeros, Nat.zero_mul, Nat.zero_div, Nat.add_zero] at hmag
        dsimp only
        rw [hmag]
        exact ⟨fun h => ⟨h.1.symm, h.2.1.symm⟩, fun h => ⟨h.1.symm, h.2.symm, rfl⟩⟩
      · have hlen : ((before ++ w :: ws).drop
            ((before ++ w :: ws).length - Stored.growth (countLeadingZeros32 w) n)).length =
            Stored.growth (countLeadingZeros32 w) n := by
          rw [List.length_drop, length_append]
          omega
        dsimp only
        rw [magnitude_shiftBits_append w ws _ n hlen, Nat.add_eq_left, Nat.div_eq_zero_iff,
          or_iff_right (by positivity)]
        simp

lemma magnitude_take (z : Words) {k : ℕ} (hk : k ≤ z.length) :
    magnitude (z.take (z.length - k)) = magnitude z / 2 ^ (32 * k) := by
  have hlen : (z.drop (z.length - k)).length = k := by
    rw [List.length_drop]
    omega
  have hlt := magnitude_lt (z.drop (z.length - k))
  have happ := magnitude_append (z.take (z.length - k)) (z.drop (z.length - k))
  rw [take_append_drop, hlen] at happ
  rw [hlen] at hlt
  rw [pow_mul, show (2 : ℕ) ^ 32 = base from rfl, happ, Nat.add_comm,
    Nat.add_mul_div_right _ _ (Nat.pow_pos (by decide)), Nat.div_eq_of_lt hlt, Nat.zero_add]

lemma shr_holds_iff (s : Stored) (n : ℕ) :
    s.Shifted (s.shr n) (magnitude s.decimal.segments / 2 ^ n) ↔ s.ShrHolds n := by
  obtain ⟨before, negative, exp, z⟩ := s
  have hn := Nat.div_add_mod n 32
  have hmod : n % 32 < 32 := Nat.mod_lt n (by decide)
  rw [Stored.shr, Stored.ShrHolds]
  dsimp only
  split_ifs with hnil hlong hbits hrest
  · subst hnil
    simp [shifted_some, magnitude, low]
  · exact iff_of_false shifted_none (by rintro (h | h) <;> [exact hnil h; omega])
  · refine iff_of_true (shifted_some.mpr ⟨rfl, rfl, ?_⟩) (.inr (by omega))
    rw [magnitude_take z (not_lt.mp hlong), show 32 * (n / 32) = n by omega]
  · have hlen : z.length - n / 32 = 0 := by simpa [hnil] using hrest
    exact iff_of_false shifted_none (by rintro (h | h) <;> [exact hnil h; omega])
  · have hlen : z.length - n / 32 ≠ 0 := fun h => hrest (by rw [h, take_zero])
    refine iff_of_true (shifted_some.mpr ⟨rfl, rfl, ?_⟩) (.inr (by omega))
    rw [magnitude_shr (Nat.pos_of_ne_zero hbits) hmod, magnitude_take z (not_lt.mp hlong),
      Nat.div_div_eq_div_mul, ← pow_add, hn]

/-- `Shl` and `Shr` in the stored words are shifts of the magnitude exactly under their conditions.
-/
theorem shifts_exact_iff (s : Stored) (n : ℕ) :
    (s.Shifted (s.shl n) (magnitude s.decimal.segments * 2 ^ n) ↔ s.ShlHolds n) ∧
    (s.Shifted (s.shr n) (magnitude s.decimal.segments / 2 ^ n) ↔ s.ShrHolds n) :=
  ⟨shl_holds_iff s n, shr_holds_iff s n⟩

/-- `-1` loses its sign when it needs a second word, `3` within a storage of two words is left with
its own word behind it, and no word can be shifted by 33 bits to the right. -/
theorem shifts_inexact :
    ¬Stored.Shifted ⟨[], ⟨true, 0, [1]⟩⟩ (Stored.shl ⟨[], ⟨true, 0, [1]⟩⟩ 32) (1 * 2 ^ 32) ∧
    ¬Stored.Shifted ⟨[0], ⟨false, 0, [3]⟩⟩ (Stored.shl ⟨[0], ⟨false, 0, [3]⟩⟩ 32) (3 * 2 ^ 32) ∧
    ¬Stored.Shifted ⟨[], ⟨false, 0, [1]⟩⟩ (Stored.shr ⟨[], ⟨false, 0, [1]⟩⟩ 33) (1 / 2 ^ 33) := by
  refine ⟨fun h => ?_, fun h => ?_, fun h => ?_⟩
  all_goals
    obtain ⟨r, hr, hneg, -, hmag⟩ := h
    cases hr
  · exact absurd hneg (by decide)
  · exact absurd hmag (by decide)

end Mai.CoreDecimal
