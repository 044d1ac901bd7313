import Mai.BaseBig

/-!
# Sums and differences of decimals

The results of
`Add` and `Sub` are allocated with one word more than the longer operand. That
word is cleared and nothing else is written to it, so the carry out of the
longest operand is lost; and a difference reads as many words of the larger
number as the smaller one has.
-/
namespace Mai.CoreDecimal

open Mai.BaseBig

structure Decimal where
  negative : Bool
  exp : ℕ
  segments : Words
  deriving DecidableEq, Repr

namespace Decimal

def value (d : Decimal) : ℤ :=
  if d.negative then -(magnitude d.segments : ℤ) else magnitude d.segments

/-- The words of a fresh decimal are those that `chunk` left in memory. -/
def newUninitialized (capacity : ℕ) (chunk : ℕ → UInt32) : Words :=
  (List.range capacity).map chunk

def absCompare (lhs rhs : Decimal) : ℤ := BaseBig.compare lhs.segments rhs.segments

def normalize (d : Decimal) : Decimal :=
  { d with segments := d.segments.dropWhile (· == 0) }

def addRaw (lhs rhs : Decimal) (rv : Words) : Option Decimal :=
  let written :=
    if lhs.negative = rhs.negative then
      (BaseBig.add lhs.segments rhs.segments rv).map fun r => (lhs.negative, r.1)
    else if absCompare lhs rhs ≥ 0 then
      (BaseBig.sub lhs.segments rhs.segments rv).map fun r => (lhs.negative, r.1)
    else
      (BaseBig.sub rhs.segments lhs.segments rv).map fun r => (!lhs.negative, r.1)
  written.map fun r => normalize ⟨r.1, lhs.exp, r.2⟩

def add (lhs rhs : Decimal) (chunk : ℕ → UInt32) : Option Decimal :=
  let n := max lhs.segments.length rhs.segments.length + 1
  addRaw lhs rhs ((newUninitialized n chunk).set 0 0)

def sub (lhs rhs : Decimal) (chunk : ℕ → UInt32) : Option Decimal :=
  let n := max lhs.segments.length rhs.segments.length + 1
  let rv := (newUninitialized n chunk).set 0 0
  let written :=
    if lhs.negative ≠ rhs.negative then
      (BaseBig.add lhs.segments rhs.segments rv).map fun r => (lhs.negative, r.1)
    else if absCompare lhs rhs ≥ 0 then
      (BaseBig.sub lhs.segments rhs.segments rv).map fun r => (lhs.negative, r.1)
    else
      (BaseBig.sub rhs.segments lhs.segments rv).map fun r => (!lhs.negative, r.1)
  written.map fun r => normalize ⟨r.1, lhs.exp, r.2⟩

/-- `r` is a decimal of the operands' exponent with exactly the value `v`. -/
def Exact (r : Option Decimal) (exp : ℕ) (v : ℤ) : Prop :=
  ∃ d, r = some d ∧ d.exp = exp ∧ d.value = v

def SumFits (lhs rhs : Decimal) : Prop :=
  magnitude lhs.segments + magnitude rhs.segments
    < base ^ (max lhs.segments.length rhs.segments.length)

def DifferenceFits (lhs rhs : Decimal) : Prop :=
  if magnitude rhs.segments ≤ magnitude lhs.segments then
    rhs.segments.length ≤ lhs.segments.length
  else lhs.segments.length ≤ rhs.segments.length

def AddFits (lhs rhs : Decimal) : Prop :=
  if lhs.negative = rhs.negative then SumFits lhs rhs else DifferenceFits lhs rhs

def SubFits (lhs rhs : Decimal) : Prop :=
  if lhs.negative = rhs.negative then DifferenceFits lhs rhs else SumFits lhs rhs

def minus (d : Decimal) : Decimal := { d with negative := !d.negative }

lemma value_minus (d : Decimal) : d.minus.value = -d.value := by
  cases hneg : d.negative <;> simp [value, minus, hneg]

lemma sub_eq_add_minus (lhs rhs : Decimal) (chunk : ℕ → UInt32) :
    lhs.sub rhs chunk = lhs.add rhs.minus chunk := by
  cases hl : lhs.negative <;> cases hr : rhs.negative <;>
    simp [sub, add, addRaw, minus, absCompare, hl, hr]

lemma subFits_iff (lhs rhs : Decimal) : SubFits lhs rhs ↔ AddFits lhs rhs.minus := by
  cases hl : lhs.negative <;> cases hr : rhs.negative <;>
    simp [SubFits, AddFits, SumFits, DifferenceFits, minus, hl, hr]

lemma value_normalize (d : Decimal) : d.normalize.value = d.value := by
  simp only [value, normalize, magnitude_dropWhile]

lemma fresh_view (n : ℕ) (chunk : ℕ → UInt32) :
    ((newUninitialized (n + 1) chunk).set 0 0).length = n + 1
      ∧ ((newUninitialized (n + 1) chunk).set 0 0).head? = some 0 := by
  constructor
  · simp [newUninitialized]
  · simp [newUninitialized, List.range_succ_eq_map]

lemma exact_add_iff {lhs rhs : Decimal} (chunk : ℕ → UInt32)
    (hsign : lhs.negative = rhs.negative) :
    Exact (lhs.add rhs chunk) lhs.exp (lhs.value + rhs.value) ↔ SumFits lhs rhs := by
  obtain ⟨hlen, hhead⟩ := fresh_view (max lhs.segments.length rhs.segments.length) chunk
  obtain ⟨z, carry, hadd, -, hmag⟩ := add_spec hlen hhead
  have hres : lhs.add rhs chunk = some (normalize ⟨lhs.negative, lhs.exp, 0 :: z⟩) := by
    simp only [add, addRaw, if_pos hsign, hadd, Option.map_some]
  have hpos : 0 < base ^ max lhs.segments.length rhs.segments.length :=
    Nat.pow_pos (by decide)
  have hvalue : (normalize ⟨lhs.negative, lhs.exp, 0 :: z⟩).value = lhs.value + rhs.value
      ↔ magnitude z = magnitude lhs.segments + magnitude rhs.segments := by
    rw [value_normalize, value, value, value, ← hsign, magnitude_zero_cons]
    split_ifs <;> omega
  rw [SumFits, Exact, hres]
  simp only [Option.some.injEq, exists_eq_left']
  rw [hvalue, hmag, Nat.mod_eq_iff_lt hpos.ne']
  exact and_iff_right rfl

lemma sub_written {larger smaller rv : Words} {n : ℕ} (hn : n = max larger.length smaller.length)
    (hlen : rv.length = n + 1) (hhead : rv.head? = some 0)
    (hmag : magnitude smaller ≤ magnitude larger) :
    (larger.length < smaller.length ∧ BaseBig.sub larger smaller rv = none)
      ∨ (smaller.length ≤ larger.length ∧ ∃ z diff, BaseBig.sub larger smaller rv =
        some (0 :: z, diff)
        ∧ magnitude z + magnitude smaller = magnitude larger) := by
  rcases Nat.lt_or_ge larger.length smaller.length with hlt | hge
  · exact .inl ⟨hlt, sub_none rv hlt⟩
  · exact .inr ⟨hge, sub_spec hge (by omega) hhead hmag⟩

lemma exact_none (exp : ℕ) (v : ℤ) : ¬ Exact none exp v := by
  rintro ⟨d, hd, -⟩
  simp at hd

lemma exact_normalize (negative : Bool) (exp : ℕ) (z : Words) {v : ℤ}
    (hv : (if negative then -(magnitude z : ℤ) else magnitude z) = v) :
    Exact (some (normalize ⟨negative, exp, 0 :: z⟩)) exp v := by
  refine ⟨_, rfl, rfl, ?_⟩
  rw [value_normalize, value, magnitude_zero_cons, hv]

lemma exact_difference_iff {lhs rhs : Decimal} (chunk : ℕ → UInt32)
    (hsign : lhs.negative ≠ rhs.negative) :
    Exact (lhs.add rhs chunk) lhs.exp (lhs.value + rhs.value) ↔ DifferenceFits lhs rhs := by
  obtain ⟨hlen, hhead⟩ := fresh_view (max lhs.segments.length rhs.segments.length) chunk
  have hcmp : absCompare lhs rhs ≥ 0 ↔ magnitude rhs.segments ≤ magnitude lhs.segments :=
    compare_nonneg_iff lhs.segments rhs.segments
  have hother : rhs.negative = !lhs.negative := by
    cases hl : lhs.negative <;> cases hr : rhs.negative <;> simp_all
  rcases Nat.lt_or_ge (magnitude lhs.segments) (magnitude rhs.segments) with hlt | hge
  · have hneg : ¬ absCompare lhs rhs ≥ 0 := fun h => absurd (hcmp.mp h) (by omega)
    simp only [add, addRaw, if_neg hsign, if_neg hneg, DifferenceFits, if_neg (not_le.mpr hlt)]
    obtain ⟨hshort, hnone⟩ | ⟨hlong, z, diff, hsub, hz⟩ :=
      sub_written (max_comm _ _) hlen hhead hlt.le
    · rw [hnone]
      exact iff_of_false (exact_none _ _) (by omega)
    · rw [hsub]
      refine iff_of_true (exact_normalize _ _ _ ?_) hlong
      rw [value, value, hother]
      cases lhs.negative <;> simp <;> omega
  · simp only [add, addRaw, if_neg hsign, if_pos (hcmp.mpr hge), DifferenceFits, if_pos hge]
    obtain ⟨hshort, hnone⟩ | ⟨hlong, z, diff, hsub, hz⟩ := sub_written rfl hlen hhead hge
    · rw [hnone]
      exact iff_of_false (exact_none _ _) (by omega)
    · rw [hsub]
      refine iff_of_true (exact_normalize _ _ _ ?_) hlong
      rw [value, value, hother]
      cases lhs.negative <;> simp <;> omega

lemma exact_iff (lhs rhs : Decimal) (chunk : ℕ → UInt32) :
    Exact (lhs.add rhs chunk) lhs.exp (lhs.value + rhs.value) ↔ AddFits lhs rhs := by
  rw [AddFits]
  split_ifs with hsign
  · exact exact_add_iff chunk hsign
  · exact exact_difference_iff chunk hsign

end Decimal

/-- Sums and differences of decimals of one exponent are exact as long as added magnitudes
leave no carry and the larger of two subtracted magnitudes is not written in fewer words. -/
theorem arithmetic_exact_iff (a b : Decimal) (chunk : ℕ → UInt32) (hexp : a.exp = b.exp) :
    ((∃ r, a.add b chunk = some r ∧ (r.exp = a.exp ∧ r.exp = b.exp) ∧ r.value = a.value + b.value)
        ↔ a.AddFits b)
      ∧ ((∃ r, a.sub b chunk = some r ∧ (r.exp = a.exp ∧ r.exp = b.exp)
          ∧ r.value = a.value - b.value)
        ↔ a.SubFits b) := by
  have hboth : ∀ x : Option Decimal, ∀ v : ℤ,
      (∃ r, x = some r ∧ (r.exp = a.exp ∧ r.exp = b.exp) ∧ r.value = v)
        ↔ Decimal.Exact x a.exp v := by
    intro x v
    simp only [Decimal.Exact, ← hexp, and_self]
  rw [hboth, hboth, Decimal.subFits_iff, Decimal.sub_eq_add_minus, sub_eq_add_neg,
    ← Decimal.value_minus]
  exact ⟨Decimal.exact_iff a b chunk, Decimal.exact_iff a b.minus chunk⟩

def allOnes : Decimal := ⟨false, 2, [0xffffffff]⟩

def one : Decimal := ⟨false, 2, [1]⟩

def five : Decimal := ⟨false, 2, [0, 5]⟩

theorem arithmetic_exact_fiveOne :
    (∃ r, five.add one (fun _ => 7) = some r ∧ (r.exp = five.exp ∧ r.exp = one.exp)
        ∧ r.value = five.value + one.value)
      ∧ ∃ r, five.sub one (fun _ => 7) = some r ∧ (r.exp = five.exp ∧ r.exp = one.exp)
        ∧ r.value = five.value - one.value := by
  have h := arithmetic_exact_iff five one (fun _ => 7) rfl
  have hadd : five.AddFits one := by
    rw [Decimal.AddFits, if_pos (by rfl), Decimal.SumFits]
    decide
  have hsub : five.SubFits one := by
    rw [Decimal.SubFits, if_pos (by rfl), Decimal.DifferenceFits]
    decide
  exact ⟨h.1.mpr hadd, h.2.mpr hsub⟩

/-- The carry of `2 ^ 32 - 1` and `1` is lost and their sum is zero; a one taken from a
number that is larger but shorter reads a word it does not have. -/
theorem carry_lost :
    allOnes.add one (fun _ => 0) = some ⟨false, 2, []⟩
      ∧ (⟨false, 2, []⟩ : Decimal).value ≠ allOnes.value + one.value
      ∧ allOnes.sub five (fun _ => 0) = none := by
  decide +kernel

end Mai.CoreDecimal
