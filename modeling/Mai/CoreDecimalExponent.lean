import Mai.BaseSlice
import Mai.CoreDecimalInteger
import Mai.CoreDecimalMul
import Mai.CoreDecimalSqrt

/-!
# Exponents of decimals

The literals of `core/decimal-v2.cc`, the operations that change a decimal in its place, and the
exponents that both give to decimals. The table of powers of ten ends at 30, and `kMaxExp` is 31; a
literal with a point has as many fraction digits as its text, and a new exponent is an `int`.
-/
namespace Mai.CoreDecimal

open Mai.BaseBig Mai.BaseSlice Option

namespace Decimal

def makeFlags (neg : Bool) (exp : ℤ) : UInt32 :=
  (if neg then 0x80000000 else 0) ||| UInt32.ofInt exp

def flags (d : Decimal) : UInt32 := makeFlags d.negative d.exp

/-- The decimal that words and flags are read as. -/
def ofFlags (flags : UInt32) (z : Words) : Decimal :=
  ⟨flags &&& 0x80000000 != 0, (flags &&& ~~~0x80000000).toNat, z⟩

def reportedExp (d : Decimal) : ℕ := (d.flags &&& ~~~0x80000000).toNat

def char2Digital (c : UInt8) : Option UInt32 :=
  if 48 ≤ c ∧ c ≤ 57 then some (c - 48).toUInt32
  else if 97 ≤ c ∧ c ≤ 102 then some (c - 97 + 10).toUInt32
  else if 65 ≤ c ∧ c ≤ 70 then some (c - 65 + 10).toUInt32
  else none

/-- The loop of `ParseDigitals`: the words so far, and the exponent that the last point gives. -/
def parseLoop (radix : UInt32) : List UInt8 → Words → ℕ → Option Decimal
  | [], z, exp => some (normalize ⟨false, exp, z⟩)
  | c :: s, z, exp =>
    if c = 46 then parseLoop radix s z s.length
    else (char2Digital c).bind fun elem =>
      let rv := basicMul 0 (trim z) [radix]
      (BaseBig.add rv [elem] rv).bind fun sum => parseLoop radix s sum.1 exp

def parseDigitals (radix : UInt32) (s : List UInt8) : Option Decimal := parseLoop radix s [] 0

def skipSign : List UInt8 → Bool × List UInt8
  | [] => (false, [])
  | c :: s => if c = 45 then (true, s) else if c = 43 then (false, s) else (false, c :: s)

def newOctLiteral (s : List UInt8) : Option Decimal := parseDigitals 8 s.tail

def newDecLiteral (s : List UInt8) : Option Decimal :=
  (parseDigitals 10 (skipSign s).2).map fun rv => { rv with negative := (skipSign s).1 }

def newPointLiteral (s : List UInt8) : Option Decimal :=
  (parseDigitals 10 (skipSign s).2).map fun rv => { rv with negative := (skipSign s).1 }

def hexWord (s : List UInt8) : Option UInt32 :=
  s.foldlM (fun w c => (char2Digital c).map fun n => w <<< 4 ||| n) 0

/-- `size` words have been reserved; those in front of the digits keep what `chunk` left there. -/
def newHexLiteral (size : ℕ) (chunk : ℕ → UInt32) (s : List UInt8) : Option Decimal :=
  let digits := s.drop 2
  if 8 * size < digits.length then none
  else ((List.range size).mapM fun j =>
    let left := digits.length - 8 * (size - 1 - j)
    if left = 0 then some (chunk j)
    else hexWord ((digits.take left).drop (left - 8))).map fun z => ⟨false, 0, z⟩

def exponentAt (s : List UInt8) : ℕ := (s.findIdx? fun c => c = 101 ∨ c = 69).getD 0

def newExpLiteral (s : List UInt8) : Option Decimal :=
  let negative := (skipSign s).1
  let s := (skipSign s).2
  let k := exponentAt s
  (parseDigitals 10 (s.take k)).bind fun rv => (parseI32 (s.drop (k + 1))).bind fun parsed =>
    match parsed with
    | .error _ => none
    | .ok e =>
      if e < 0 then
        if kMaxExp < -e + rv.exp then none
        else some { rv with negative := negative, exp := (-e + rv.exp).toNat }
      else if 0 < e then
        if kMaxExp < e then none
        else (getFastPow10 e.toNat).map fun scale =>
          ⟨negative, rv.exp, basicMul 0 rv.segments scale⟩
      else some { rv with negative := negative }

inductive Form
  | oct
  | dec
  | hex
  | point
  | exp

def newLiteral (size : ℕ) (chunk : ℕ → UInt32) (s : List UInt8) : Form → Option Decimal
  | .oct => newOctLiteral s
  | .dec => newDecLiteral s
  | .hex => newHexLiteral size chunk s
  | .point => newPointLiteral s
  | .exp => newExpLiteral s

def newParsed (likeNumber : List UInt8 → Option Form) (size : ℕ) (chunk : ℕ → UInt32)
    (s : List UInt8) : Option Decimal :=
  (likeNumber s).bind (newLiteral size chunk s)

/-- `Shrink`. The bits of an exponent below zero set the sign and all the high bits. -/
def shrinkTo (d : Decimal) (newExp : ℤ) : Option Decimal :=
  if 0 ≤ newExp then d.shrink newExp.toNat
  else (getFastPow10 (d.exp - newExp).toNat).bind fun scale =>
    (divRaw d.segments scale).map fun r => normalize (ofFlags (makeFlags d.negative newExp) r.1)

def extendTo (before : UInt32) (d : Decimal) (newExp : ℤ) : Option Decimal :=
  if newExp ≤ d.exp then some d else d.extend before newExp.toNat

def newPrecisionTo (before : UInt32) (d : Decimal) (newExp : ℤ) : Option Decimal :=
  if newExp < d.exp then d.shrinkTo newExp
  else if d.exp < newExp then d.extendTo before newExp
  else some d

/-- `AddRaw` into the words of `lhs`, behind the words `front` of the same decimal. What is written
to `front` is not read again, and in front of that are the flags. -/
def addRawTo (front : Words) (lhs rhs : Decimal) : Option Decimal :=
  (addRaw lhs rhs (front ++ lhs.segments)).map fun r =>
    normalize { r with segments := r.segments.drop (r.segments.length - lhs.segments.length) }

/-- `Add` in place, which takes one more word than the operands have when there is room. -/
def addTo (front : Words) (lhs rhs : Decimal) : Option Decimal :=
  let n := max lhs.segments.length rhs.segments.length + 1
  if n ≤ front.length + lhs.segments.length then
    let z := List.replicate (n - lhs.segments.length) 0 ++ lhs.segments
    addRaw { lhs with segments := z } rhs z
  else addRawTo front lhs rhs

def addU64 (front : Words) (before : UInt32) (d : Decimal) (val : UInt64) : Option Decimal :=
  (newU64 val).bind fun rhs => (rhs.newPrecision before d.exp).bind (addRawTo front d)

def addI64 (front : Words) (before : UInt32) (d : Decimal) (val : Int64) : Option Decimal :=
  (newI64 val).bind fun rhs => (rhs.newPrecision before d.exp).bind (addRawTo front d)

/-- `Div` in place, for a quotient that fits the capacity. -/
def divTo (capacity : ℕ) (lhs rhs : Decimal) : Option Decimal :=
  (lhs.div rhs).bind fun r => if r.1.segments.length ≤ capacity then some r.1 else none

def divU64 (capacity : ℕ) (before : UInt32) (d : Decimal) (val : UInt64) : Option Decimal :=
  (newU64 val).bind fun rhs => (rhs.newPrecision before d.exp).bind (divTo capacity d)

def divI64 (capacity : ℕ) (before : UInt32) (d : Decimal) (val : Int64) : Option Decimal :=
  (newI64 val).bind fun rhs => (rhs.newPrecision before d.exp).bind (divTo capacity d)

section Statement

def fraction : List UInt8 → ℕ
  | [] => 0
  | c :: s => if c = 46 ∧ 46 ∉ s then s.length else fraction s

def fractionDigits (s : List UInt8) : Form → ℤ
  | .hex => 0
  | .oct => fraction s.tail
  | .dec | .point => fraction (skipSign s).2
  | .exp =>
    let s := (skipSign s).2
    match parseI32 (s.drop (exponentAt s + 1)) with
    | some (.ok e) => fraction (s.take (exponentAt s)) - min e 0
    | _ => 0

variable (likeNumber : List UInt8 → Option Form) (allowed : ℤ → Prop)

/-- Literals without a fraction are always allowed. -/
def AllowedLiteral (s : List UInt8) (form : Form) : Prop :=
  fractionDigits s form = 0 ∨ allowed (fractionDigits s form)

/-- The decimals that come out of literals and operations on such decimals, for literals whose
fraction digits, and new exponents which, are `allowed`. What memory holds before, and how many
words a decimal has room for, are arbitrary at every step. -/
inductive Made : Decimal → Prop
  | literal {size chunk s form d} : newLiteral size chunk s form = some d →
      AllowedLiteral allowed s form → Made d
  | parsed {size chunk s form d} : newParsed likeNumber size chunk s = some d →
      likeNumber s = some form → AllowedLiteral allowed s form → Made d
  | add {a b r chunk} : Made a → Made b → a.add b chunk = some r → Made r
  | addTo {a b r front} : Made a → Made b → a.addTo front b = some r → Made r
  | addU64 {a r front before val} : Made a → a.addU64 front before val = some r → Made r
  | addI64 {a r front before val} : Made a → a.addI64 front before val = some r → Made r
  | sub {a b r chunk} : Made a → Made b → a.sub b chunk = some r → Made r
  | mul {a b r before} : Made a → Made b → a.mul before b = some r → Made r
  | quotient {a b q r} : Made a → Made b → a.div b = some (q, r) → Made q
  | remainder {a b q r} : Made a → Made b → a.div b = some (q, r) → Made r
  | divTo {a b r capacity} : Made a → Made b → a.divTo capacity b = some r → Made r
  | divU64 {a r capacity before val} : Made a → a.divU64 capacity before val = some r → Made r
  | divI64 {a r capacity before val} : Made a → a.divI64 capacity before val = some r → Made r
  | sqrt {a r before chunk} : Made a → a.sqrt before chunk = some r → Made r
  | newPrecision {a r before e} : Made a → allowed e → a.newPrecisionTo before e = some r → Made r
  | extend {a r before e} : Made a → allowed e → a.extendTo before e = some r → Made r
  | shrink {a r e} : Made a → allowed e → a.shrinkTo e = some r → Made r

def InTable (d : Decimal) : Prop := (getFastPow10 d.exp).isSome ∧ d.reportedExp = d.exp

end Statement

variable {s : List UInt8} {d : Decimal}

lemma fraction_of_notMem (h : 46 ∉ s) : fraction s = 0 := by
  induction s with
  | nil => rfl
  | cons c s ih =>
    rw [List.mem_cons, not_or] at h
    rw [fraction, if_neg (fun hc => h.1 hc.1.symm), ih h.2]

lemma parseLoop_exp {radix : UInt32} {z : Words} {exp : ℕ}
    (h : parseLoop radix s z exp = some d) : d.exp = if 46 ∈ s then fraction s else exp := by
  induction s generalizing z exp with
  | nil =>
    cases h
    rfl
  | cons c s ih =>
    rw [parseLoop] at h
    split_ifs at h with hc
    · rw [ih h, fraction]
      by_cases hs : 46 ∈ s
      · simp [hs]
      · simp [hs, hc]
    · obtain ⟨elem, -, h⟩ := bind_eq_some_iff.mp h
      obtain ⟨sum, -, h⟩ := bind_eq_some_iff.mp h
      have hsame : fraction (c :: s) = fraction s := if_neg fun h' => hc h'.1
      rw [ih h, hsame]
      simp [Ne.symm hc]

lemma parseDigitals_exp {radix : UInt32}
    (h : parseDigitals radix s = some d) : d.exp = fraction s := by
  rw [parseLoop_exp h]
  split_ifs with hs
  · rfl
  · rw [fraction_of_notMem hs]

lemma newExpLiteral_exp (h : newExpLiteral s = some d) :
    (d.exp : ℤ) = fractionDigits s .exp := by
  obtain ⟨rv, hrv, h⟩ := bind_eq_some_iff.mp h
  obtain ⟨parsed, hparsed, h⟩ := bind_eq_some_iff.mp h
  have hexp := parseDigitals_exp hrv
  simp only [fractionDigits, hparsed]
  cases parsed with
  | error err => cases h
  | ok e =>
    dsimp only at h ⊢
    split_ifs at h with hneg hbig hpos
    · cases h
      dsimp only
      omega
    · obtain ⟨scale, -, h⟩ := map_eq_some_iff.mp h
      cases h
      dsimp only
      omega
    · cases h
      dsimp only
      omega

lemma newLiteral_exp {size : ℕ} {chunk : ℕ → UInt32} {form : Form}
    (h : newLiteral size chunk s form = some d) : (d.exp : ℤ) = fractionDigits s form := by
  cases form with
  | oct => exact congrArg _ (parseDigitals_exp h)
  | dec | point =>
    obtain ⟨rv, hrv, h⟩ := map_eq_some_iff.mp h
    have hexp : rv.exp = fraction (skipSign s).2 := parseDigitals_exp hrv
    rw [← h]
    exact congrArg _ hexp
  | hex =>
    rw [newLiteral, newHexLiteral] at h
    split_ifs at h
    obtain ⟨z, -, h⟩ := map_eq_some_iff.mp h
    cases h
    rfl
  | exp => exact newExpLiteral_exp h

lemma parseLoop_zeros (e n : ℕ) {z : Words} (hz : trim z = []) :
    ∃ d, parseLoop 10 (List.replicate n 48) z e = some d := by
  induction n generalizing z with
  | zero => exact ⟨_, rfl⟩
  | succ n ih =>
    have hdigit : char2Digital 48 = some 0 := by decide
    have hadd : BaseBig.add (basicMul 0 [] [10]) [0] (basicMul 0 [] [10]) = some ([0], 0) := by
      decide
    rw [List.replicate_succ, parseLoop, if_neg (by decide), hdigit, bind_some, hz]
    dsimp only
    rw [hadd, bind_some]
    exact ih rfl

lemma made_of_allowed {likeNumber : List UInt8 → Option Form} {allowed : ℤ → Prop} {e : ℕ}
    (he : allowed e) : ∃ d, Made likeNumber allowed d ∧ d.exp = e := by
  obtain ⟨d, hd⟩ := parseLoop_zeros e e (z := []) rfl
  have hfraction : fractionDigits (46 :: List.replicate e 48) .point = e := by
    simp [fractionDigits, skipSign, fraction]
  have hliteral : newLiteral 0 (fun _ => 0) (46 :: List.replicate e 48) .point
      = some { d with negative := false } := by
    rw [newLiteral, newPointLiteral]
    simp [skipSign, parseDigitals, parseLoop, hd]
  refine ⟨_, .literal hliteral (.inr (hfraction.symm ▸ he)), ?_⟩
  exact Int.ofNat_inj.mp ((newLiteral_exp hliteral).trans hfraction)

/-- The integer of five words can be divided by every power of the table. -/
lemma shrinkTo_integer : ∀ n < 30, ∃ d ∈ shrinkTo ⟨false, 0, [1, 0, 0, 0, 0]⟩ (-(n + 1 : ℕ)),
    30 < d.exp := by
  decide +kernel

/-- A new exponent below zero, down to -30, ends in an exponent above the table. -/
lemma made_of_negative {likeNumber : List UInt8 → Option Form} {allowed : ℤ → Prop} {e : ℤ}
    (he : allowed e) (hneg : e < 0) (hlow : -30 ≤ e) :
    ∃ d, Made likeNumber allowed d ∧ 30 < d.exp := by
  have hliteral : newLiteral 5 (fun _ => 0) (48 :: 120 :: 49 :: List.replicate 32 48) .hex
      = some ⟨false, 0, [1, 0, 0, 0, 0]⟩ := by
    decide +kernel
  obtain ⟨d, hd, hexp⟩ := shrinkTo_integer (-e - 1).toNat (by omega)
  have hsame : -(((-e - 1).toNat + 1 : ℕ) : ℤ) = e := by omega
  rw [hsame] at hd
  exact ⟨d, .shrink (.literal hliteral (.inl rfl)) he hd, hexp⟩

section Operations

variable {a b q r : Decimal} {before : UInt32} {e : ℕ} {front : Words}

lemma addRaw_exp {rv : Words} (h : addRaw a b rv = some r) : r.exp = a.exp := by
  obtain ⟨w, -, h⟩ := map_eq_some_iff.mp h
  cases h
  rfl

lemma sub_exp {chunk : ℕ → UInt32} (h : a.sub b chunk = some r) : r.exp = a.exp := by
  obtain ⟨w, -, h⟩ := map_eq_some_iff.mp h
  cases h
  rfl

lemma mul_exp (h : a.mul before b = some r) : r.exp = a.exp := by
  rw [mul] at h
  split_ifs at h
  · obtain ⟨scale, -, h⟩ := bind_eq_some_iff.mp h
    obtain ⟨w, -, h⟩ := map_eq_some_iff.mp h
    cases h
    rfl
  · cases h
    rfl

lemma div_exp (h : a.div b = some (q, r)) : q.exp ≤ a.exp ∧ r.exp ≤ a.exp := by
  rw [div] at h
  split_ifs at h
  · cases h
    exact ⟨Nat.zero_le _, Nat.zero_le _⟩
  · cases h
    exact ⟨Nat.zero_le _, le_rfl⟩
  · cases h
    exact ⟨Nat.zero_le _, Nat.zero_le _⟩
  · obtain ⟨z, -, h⟩ := bind_eq_some_iff.mp h
    obtain ⟨w, -, h⟩ := map_eq_some_iff.mp h
    cases h
    exact ⟨le_rfl, le_rfl⟩

lemma sqrt_exp {chunk : ℕ → ℕ → UInt32} (h : a.sqrt before chunk = some r) :
    r.exp = (a.exp + a.exp % 2) / 2 := by
  rw [sqrt] at h
  split_ifs at h
  all_goals
    obtain ⟨y, -, h⟩ := bind_eq_some_iff.mp h
    obtain ⟨n, -, h⟩ := bind_eq_some_iff.mp h
    obtain ⟨z, -, h⟩ := map_eq_some_iff.mp h
    cases h
    simp only

lemma extend_exp (h : a.extend before e = some r) : r.exp = max a.exp e := by
  rw [extend] at h
  split_ifs at h with hle
  · cases h
    omega
  · obtain ⟨scale, -, h⟩ := map_eq_some_iff.mp h
    cases h
    dsimp only [normalize]
    omega

lemma shrink_exp (h : a.shrink e = some r) : r.exp = min a.exp e := by
  rw [shrink] at h
  split_ifs at h with hle
  · cases h
    omega
  · obtain ⟨scale, -, h⟩ := bind_eq_some_iff.mp h
    obtain ⟨w, -, h⟩ := map_eq_some_iff.mp h
    cases h
    dsimp only [normalize]
    omega

lemma addRawTo_exp (h : addRawTo front a b = some r) : r.exp = a.exp := by
  obtain ⟨sum, hsum, rfl⟩ := map_eq_some_iff.mp h
  have hexp : sum.exp = a.exp := addRaw_exp hsum
  exact hexp

lemma addTo_exp (h : addTo front a b = some r) : r.exp = a.exp := by
  rw [addTo] at h
  dsimp only at h
  split_ifs at h
  · exact (addRaw_exp h :)
  · exact addRawTo_exp h

lemma addNumber_exp {num : Option Decimal}
    (h : (num.bind fun rhs => (rhs.newPrecision before a.exp).bind (addRawTo front a)) = some r) :
    r.exp = a.exp := by
  obtain ⟨rhs, -, h⟩ := bind_eq_some_iff.mp h
  obtain ⟨scaled, -, h⟩ := bind_eq_some_iff.mp h
  exact addRawTo_exp h

lemma divTo_exp {capacity : ℕ} (h : divTo capacity a b = some r) : r.exp ≤ a.exp := by
  obtain ⟨q, hq, h⟩ := bind_eq_some_iff.mp h
  split_ifs at h
  cases h
  exact (div_exp hq).1

lemma divNumber_exp {num : Option Decimal} {capacity : ℕ}
    (h : (num.bind fun rhs => (rhs.newPrecision before a.exp).bind (divTo capacity a)) = some r) :
    r.exp ≤ a.exp := by
  obtain ⟨rhs, -, h⟩ := bind_eq_some_iff.mp h
  obtain ⟨scaled, -, h⟩ := bind_eq_some_iff.mp h
  exact divTo_exp h

variable {x : ℤ} (hx : x < -30 ∨ 0 ≤ x ∧ x ≤ 30) (ha : a.exp ≤ 30)
include hx ha

lemma extendTo_exp (h : a.extendTo before x = some r) : r.exp ≤ 30 := by
  rw [extendTo] at h
  split_ifs at h with hle
  · cases h
    exact ha
  · rw [extend_exp h]
    omega

lemma shrinkTo_exp (h : a.shrinkTo x = some r) : r.exp ≤ 30 := by
  rw [shrinkTo] at h
  split_ifs at h with hpos
  · rw [shrink_exp h]
    omega
  · -- the table has no power for the difference of the exponents
    obtain ⟨scale, hscale, -⟩ := bind_eq_some_iff.mp h
    have hle := (getFastPow10_isSome_iff _).mp (isSome_of_eq_some hscale)
    omega

lemma newPrecisionTo_exp (h : a.newPrecisionTo before x = some r) : r.exp ≤ 30 := by
  rw [newPrecisionTo] at h
  split_ifs at h
  · exact shrinkTo_exp hx ha h
  · exact extendTo_exp hx ha h
  · cases h
    exact ha

end Operations

section Table

lemma reported_flags : ∀ e : ℕ, e < 31 → ∀ neg, (makeFlags neg e &&& ~~~0x80000000).toNat = e := by
  decide

lemma inTable_iff (d : Decimal) : InTable d ↔ d.exp ≤ 30 := by
  rw [InTable, getFastPow10_isSome_iff]
  exact and_iff_left_of_imp fun h => reported_flags d.exp (by omega) d.negative

variable {likeNumber : List UInt8 → Option Form} {allowed : ℤ → Prop}

lemma newLiteral_exp_le (hallowed : ∀ e, allowed e → e < -30 ∨ 0 ≤ e ∧ e ≤ 30) {size : ℕ}
    {chunk : ℕ → UInt32} {s : List UInt8} {form : Form} {d : Decimal}
    (h : newLiteral size chunk s form = some d) (hs : AllowedLiteral allowed s form) :
    d.exp ≤ 30 := by
  have hexp := newLiteral_exp h
  rcases hs with hs | hs
  · omega
  · have := hallowed _ hs
    omega

lemma Made.exp_le (hallowed : ∀ e, allowed e → e < -30 ∨ 0 ≤ e ∧ e ≤ 30) {d : Decimal}
    (h : Made likeNumber allowed d) : d.exp ≤ 30 := by
  induction h with
  | literal hd hs => exact newLiteral_exp_le hallowed hd hs
  | parsed hd hform hs =>
    rw [newParsed, hform, bind_some] at hd
    exact newLiteral_exp_le hallowed hd hs
  | add _ _ hr ha _ => exact addRaw_exp hr ▸ ha
  | addTo _ _ hr ha _ => exact addTo_exp hr ▸ ha
  | addU64 _ hr ha => exact addNumber_exp hr ▸ ha
  | addI64 _ hr ha => exact addNumber_exp hr ▸ ha
  | sub _ _ hr ha _ => exact sub_exp hr ▸ ha
  | mul _ _ hr ha _ => exact mul_exp hr ▸ ha
  | quotient _ _ hr ha _ => exact (div_exp hr).1.trans ha
  | remainder _ _ hr ha _ => exact (div_exp hr).2.trans ha
  | divTo _ _ hr ha _ => exact (divTo_exp hr).trans ha
  | divU64 _ hr ha => exact (divNumber_exp hr).trans ha
  | divI64 _ hr ha => exact (divNumber_exp hr).trans ha
  | sqrt _ hr ha =>
    rw [sqrt_exp hr]
    omega
  | newPrecision _ he hr ha => exact newPrecisionTo_exp (hallowed _ he) ha hr
  | extend _ he hr ha => exact extendTo_exp (hallowed _ he) ha hr
  | shrink _ he hr ha => exact shrinkTo_exp (hallowed _ he) ha hr

end Table

end Decimal

/-- The exponents stay inside of the table as long as literals have at most 30 fraction digits and
only exponents from 0 to 30 are asked for, and only then: 31 digits are one too many, a new exponent
from -30 to -1 sets the high bits of the flags, and for one below -30 the table has no divisor. -/
theorem exponents_in_table_iff (likeNumber : List UInt8 → Option Decimal.Form)
    (allowed : ℤ → Prop) :
    (∀ d, Decimal.Made likeNumber allowed d → d.InTable)
      ↔ ∀ e, allowed e → e < -30 ∨ 0 ≤ e ∧ e ≤ 30 := by
  constructor
  · intro h e he
    by_contra hout
    rcases lt_or_ge e 0 with hneg | hpos
    · obtain ⟨d, hmade, hexp⟩ := Decimal.made_of_negative he hneg (by omega)
      have := (d.inTable_iff).mp (h d hmade)
      omega
    · obtain ⟨n, rfl⟩ := Int.eq_ofNat_of_zero_le hpos
      obtain ⟨d, hmade, hexp⟩ := Decimal.made_of_allowed he
      have := (d.inTable_iff).mp (h d hmade)
      omega
  · exact fun h d hmade => (d.inTable_iff).mpr (hmade.exp_le h)

/-- The literal `1e-31`. -/
theorem exponent_thirtyOne :
    ∃ d, Decimal.newExpLiteral [49, 101, 45, 51, 49] = some d ∧ d.exp = 31 ∧ ¬d.InTable := by
  refine ⟨⟨false, 31, [1]⟩, by decide +kernel, rfl, ?_⟩
  rw [Decimal.inTable_iff]
  decide

end Mai.CoreDecimal
