import Mathlib

/-!
# Numerals

`Slice::ParseI64` and its relatives (`base/slice.cc`) compare each digit with what is left below the
limit. The difference is taken without a sign, so that it is large once the digits before have
passed the limit.
-/
namespace Mai.BaseSlice
open List

section Model

variable {w : ℕ}

def parseLoop (radix limit extra : BitVec w) : BitVec w → List UInt8 → Except ℤ (BitVec w)
  | l, [] => .ok l
  | l, c :: s =>
    if c.toNat < 48 ∨ 48 + radix.toNat ≤ c.toNat then .error (-1)
    else
      let d := limit - l * radix + extra
      let e := BitVec.ofNat w (c.toNat - 48)
      if d < e then .error 1 else parseLoop radix limit extra (l * radix + e) s

def parseUnsigned (radix : BitVec w) (maxLength : ℕ) (s : List UInt8) : Except ℤ ℤ :=
  if s.length = 0 then .error (-1)
  else if maxLength < s.length then .error 1
  else (parseLoop radix (-1) 0 0 s).map fun l => l.toNat

def parseU64 : List UInt8 → Except ℤ ℤ := parseUnsigned (10 : BitVec 64) 20

def parseO64 : List UInt8 → Except ℤ ℤ := parseUnsigned (8 : BitVec 64) 22

def parseDigits (limit : BitVec w) (maxLength : ℕ) (negative : Bool) (s : List UInt8) :
    Except ℤ ℤ :=
  if s.length = 0 then .error (-1)
  else if maxLength < s.length then .error 1
  else (parseLoop 10 limit (if negative then 1 else 0) 0 s).map fun l =>
    (if negative then -l else l).toInt

def parseSigned (limit : BitVec w) (maxLength : ℕ) : List UInt8 → Option (Except ℤ ℤ)
  | [] => none
  | c :: s => some (parseDigits limit maxLength (c = 45) (if c = 45 ∨ c = 43 then s else c :: s))

def parseI64 : List UInt8 → Option (Except ℤ ℤ) := parseSigned (0x7fffffffffffffff : BitVec 64) 19

def parseI32 : List UInt8 → Option (Except ℤ ℤ) := parseSigned (0x7fffffff : BitVec 32) 10

end Model

def Digits (radix : ℕ) (s : List UInt8) : Prop :=
  s ≠ [] ∧ ∀ c ∈ s, 48 ≤ c.toNat ∧ c.toNat < 48 + radix

instance decidableDigits (radix : ℕ) (s : List UInt8) : Decidable (Digits radix s) :=
  inferInstanceAs (Decidable (s ≠ [] ∧ ∀ c ∈ s, _))

def valueFrom (radix v : ℕ) (s : List UInt8) : ℕ :=
  s.foldl (fun v c => v * radix + (c.toNat - 48)) v

def value (radix : ℕ) (s : List UInt8) : ℕ := valueFrom radix 0 s

inductive Sign
  | none | plus | minus
  deriving DecidableEq

def Sign.chars : Sign → List UInt8
  | none => []
  | plus => [43]
  | minus => [45]

def Sign.apply (sign : Sign) (v : ℕ) : ℤ := if sign = minus then -v else v

def Exact (Fits : ℤ → Prop) (v : ℤ) (result : Except ℤ ℤ) : Prop :=
  (∀ x, result = .ok x → Fits v ∧ x = v) ∧ (¬Fits v → result = .error 1)

def FitsSigned (w : ℕ) (v : ℤ) : Prop := -2 ^ (w - 1) ≤ v ∧ v < 2 ^ (w - 1)

def FitsUnsigned (w : ℕ) (v : ℤ) : Prop := v < 2 ^ w

/-- The numeral is too long to be read, the digits before the last one do not pass the limit, or
what is left below the limit modulo the word is smaller than the last digit. -/
def Caught (w radix maxLength limit : ℕ) (s : List UInt8) : Prop :=
  maxLength < s.length ∨ value radix s / radix * radix ≤ limit ∨
    ((limit : ℤ) - (value radix s / radix * radix : ℕ)) % 2 ^ w < (value radix s % radix : ℕ)

instance decidableCaught (w radix maxLength limit : ℕ) (s : List UInt8) :
    Decidable (Caught w radix maxLength limit s) :=
  inferInstanceAs (Decidable (_ ∨ _ ∨ _))

def limitOf (w : ℕ) (sign : Sign) : ℕ := if sign = .minus then 2 ^ (w - 1) else 2 ^ (w - 1) - 1

section Loop

variable {w : ℕ} {radix limit extra : BitVec w} {L : ℕ} {s : List UInt8}

lemma valueFrom_append (r v : ℕ) (s t : List UInt8) :
    valueFrom r v (s ++ t) = valueFrom r (valueFrom r v s) t :=
  foldl_append

lemma le_valueFrom {r v : ℕ} (hr : 0 < r) (s : List UInt8) : v ≤ valueFrom r v s := by
  induction s generalizing v with
  | nil => exact le_rfl
  | cons c s ih => exact ((Nat.le_mul_of_pos_right v hr).trans (Nat.le_add_right _ _)).trans ih

lemma valueFrom_lt {r v b : ℕ} (hs : ∀ c ∈ s, 48 ≤ c.toNat ∧ c.toNat < 48 + r) (hv : v < b) :
    valueFrom r v s < b * r ^ s.length := by
  induction s generalizing v b with
  | nil => simpa [valueFrom] using hv
  | cons c s ih =>
    have hc := hs c mem_cons_self
    have hstep : v * r + (c.toNat - 48) < b * r := by
      have := Nat.mul_le_mul_right r (Nat.succ_le_of_lt hv)
      rw [Nat.succ_mul] at this
      omega
    rw [length_cons, pow_succ', ← Nat.mul_assoc]
    exact ih (fun c' hc' => hs c' (mem_cons_of_mem _ hc')) hstep

lemma toNat_left (hL : L < 2 ^ w) (hlimit : limit + extra = BitVec.ofNat w L) (l radix : BitVec w) :
    ((limit - l * radix + extra).toNat : ℤ) = ((L : ℤ) - (l.toNat * radix.toNat : ℕ)) % 2 ^ w := by
  have hsub : limit - l * radix + extra = BitVec.ofNat w L - l * radix := by
    rw [← hlimit]
    ring
  have hdiv := Nat.mod_add_div (l.toNat * radix.toNat) (2 ^ w)
  have hmod := Nat.mod_lt (l.toNat * radix.toNat) (Nat.two_pow_pos w)
  rw [hsub, BitVec.toNat_sub, BitVec.toNat_ofNat, Nat.mod_eq_of_lt hL, BitVec.toNat_mul,
    Int.natCast_mod, Int.natCast_add, Int.natCast_sub hmod.le]
  generalize l.toNat * radix.toNat % 2 ^ w = r at *
  have hshift : ((2 ^ w : ℕ) : ℤ) - r + L
      = L - (l.toNat * radix.toNat : ℕ) + (2 ^ w : ℕ) *
        (1 + (l.toNat * radix.toNat / 2 ^ w : ℕ)) := by
    have hcast : ((l.toNat * radix.toNat : ℕ) : ℤ) =
        r + (2 ^ w : ℕ) * (l.toNat * radix.toNat / 2 ^ w : ℕ) := by
      exact_mod_cast hdiv.symm
    linear_combination hcast
  rw [hshift, Int.add_mul_emod_self_left]
  norm_num

lemma parseLoop_ok (hL : L < 2 ^ w) (hlimit : limit + extra = BitVec.ofNat w L)
    (hradix : 0 < radix.toNat) {l : BitVec w} (hs : ∀ c ∈ s, 48 ≤ c.toNat ∧
      c.toNat < 48 + radix.toNat) (hv : valueFrom radix.toNat l.toNat s ≤ L) :
    parseLoop radix limit extra l s = .ok (BitVec.ofNat w (valueFrom radix.toNat l.toNat s)) := by
  induction s generalizing l with
  | nil => simp [parseLoop, valueFrom]
  | cons c s ih =>
    have hc := hs c mem_cons_self
    have hstep : l.toNat * radix.toNat + (c.toNat - 48) ≤ L := (le_valueFrom hradix s).trans hv
    have hd := toNat_left hL hlimit l radix
    have he : (BitVec.ofNat w (c.toNat - 48)).toNat = c.toNat - 48 := by
      rw [BitVec.toNat_ofNat, Nat.mod_eq_of_lt (by omega)]
    have hnext : (l * radix + BitVec.ofNat w (c.toNat - 48)).toNat =
        l.toNat * radix.toNat + (c.toNat - 48) := by
      rw [BitVec.toNat_add, BitVec.toNat_mul, he, Nat.mod_add_mod, Nat.mod_eq_of_lt (by omega)]
    have hword : ((L : ℕ) : ℤ) < 2 ^ w := by exact_mod_cast hL
    rw [Int.emod_eq_of_lt (by omega) (by omega)] at hd
    rw [parseLoop, if_neg (by omega)]
    dsimp only
    rw [if_neg (by rw [BitVec.lt_def, he]; omega)]
    have hrest := ih (l := l * radix + BitVec.ofNat w (c.toNat - 48))
      (fun c' hc' => hs c' (mem_cons_of_mem _ hc'))
    rw [hnext] at hrest
    exact hrest hv

lemma parseLoop_append (l : BitVec w) (s t : List UInt8) : parseLoop radix limit extra l (s ++ t) =
    (parseLoop radix limit extra l s).bind fun l => parseLoop radix limit extra l t := by
  induction s generalizing l with
  | nil => rfl
  | cons c s ih =>
    simp only [cons_append, parseLoop]
    split_ifs
    · rfl
    · rfl
    · exact ih _

lemma parseLoop_last (hL : L < 2 ^ w) (hlimit : limit + extra = BitVec.ofNat w L) {n : ℕ}
    (hn : radix.toNat ^ (n - 1) ≤ L + 1) (hs : Digits radix.toNat s) (hlen : s.length ≤ n) :
    parseLoop radix limit extra 0 s =
      if ((L : ℤ) - (value radix.toNat s / radix.toNat * radix.toNat : ℕ)) % 2 ^ w <
        (value radix.toNat s % radix.toNat : ℕ)
      then .error 1 else .ok (BitVec.ofNat w (value radix.toNat s)) := by
  obtain ⟨hne, hs⟩ := hs
  rcases eq_nil_or_concat s with rfl | ⟨init, c, rfl⟩
  · exact absurd rfl hne
  rw [concat_eq_append] at hs hlen ⊢
  have hc := hs c (by simp)
  have hinit (c' : UInt8) (hc' : c' ∈ init) := hs c' (by simp [hc'])
  have hradix : 0 < radix.toNat := by omega
  have hprefix : valueFrom radix.toNat 0 init ≤ L := by
    have hlt := valueFrom_lt hinit (Nat.zero_lt_one)
    have hpow : radix.toNat ^ init.length ≤ radix.toNat ^ (n - 1) :=
      Nat.pow_le_pow_right hradix (by simp at hlen; omega)
    omega
  have hdiv : value radix.toNat (init ++ [c]) / radix.toNat = valueFrom radix.toNat 0 init := by
    rw [value, valueFrom_append]
    simp only [valueFrom, foldl_cons, foldl_nil]
    rw [Nat.mul_comm, Nat.mul_add_div hradix, Nat.div_eq_of_lt (by omega), Nat.add_zero]
  have hmod : value radix.toNat (init ++ [c]) % radix.toNat = c.toNat - 48 := by
    rw [value, valueFrom_append]
    simp only [valueFrom, foldl_cons, foldl_nil]
    rw [Nat.mul_comm, Nat.mul_add_mod, Nat.mod_eq_of_lt (by omega)]
  have hvalue : value radix.toNat (init ++ [c]) =
      valueFrom radix.toNat 0 init * radix.toNat + (c.toNat - 48) := by
    rw [← hdiv, ← hmod, Nat.mul_comm, Nat.div_add_mod]
  have he : (BitVec.ofNat w (c.toNat - 48)).toNat = c.toNat - 48 := by
    have := radix.isLt
    rw [BitVec.toNat_ofNat, Nat.mod_eq_of_lt (by omega)]
  have hok := parseLoop_ok (l := 0) hL hlimit hradix hinit (by simpa using hprefix)
  have hd := toNat_left hL hlimit (BitVec.ofNat w (valueFrom radix.toNat 0 init)) radix
  rw [BitVec.toNat_ofNat, Nat.mod_eq_of_lt (by omega)] at hd
  rw [show (0 : BitVec w).toNat = 0 from BitVec.toNat_zero] at hok
  rw [parseLoop_append, hok, hdiv, hmod, ← hd, hvalue]
  simp only [Except.bind, parseLoop]
  rw [if_neg (by omega)]
  refine if_congr (by rw [BitVec.lt_def, he, Nat.cast_lt]) rfl (congrArg _ ?_)
  rw [BitVec.ofNat_add, BitVec.ofNat_mul, BitVec.ofNat_toNat, BitVec.setWidth_eq]

end Loop

section Main

variable {w n L : ℕ} {radix limit extra : BitVec w} {s : List UInt8}

lemma parsed_eq {α : Type} (conv : BitVec w → α) (hL : L < 2 ^ w)
    (hlimit : limit + extra = BitVec.ofNat w L) (hn : radix.toNat ^ (n - 1) ≤ L + 1)
    (hs : Digits radix.toNat s) :
    (if s.length = 0 then .error (-1) else if n < s.length then .error 1
      else (parseLoop radix limit extra 0 s).map conv : Except ℤ α) =
    if n < s.length ∨ ((L : ℤ) - (value radix.toNat s / radix.toNat * radix.toNat : ℕ)) % 2 ^ w
        < (value radix.toNat s % radix.toNat : ℕ)
      then .error 1 else .ok (conv (BitVec.ofNat w (value radix.toNat s))) := by
  rw [if_neg fun h => hs.1 (length_eq_zero_iff.mp h)]
  by_cases hlen : n < s.length
  · rw [if_pos hlen, if_pos (.inl hlen)]
  · rw [if_neg hlen, parseLoop_last hL hlimit hn hs (not_lt.mp hlen)]
    simp only [hlen, false_or]
    split_ifs <;> rfl

lemma exact_iff_caught {Fits : ℤ → Prop} (conv : BitVec w → ℤ) (val : ℕ → ℤ) (hL : L < 2 ^ w)
    (hlimit : limit + extra = BitVec.ofNat w L) (hn : radix.toNat ^ (n - 1) ≤ L + 1)
    (hs : Digits radix.toNat s) (hfits : ∀ v, Fits (val v) ↔ v ≤ L)
    (hconv : ∀ v ≤ L, conv (BitVec.ofNat w v) = val v) :
    Exact Fits (val (value radix.toNat s))
      (if s.length = 0 then .error (-1) else if n < s.length then .error 1
        else (parseLoop radix limit extra 0 s).map conv) ↔ Caught w radix.toNat n L s := by
  rw [parsed_eq conv hL hlimit hn hs, Exact, Caught, hfits]
  have hmod := Nat.div_add_mod' (value radix.toNat s) radix.toNat
  have hword : ((L : ℕ) : ℤ) < 2 ^ w := by exact_mod_cast hL
  split_ifs with h
  · exact iff_of_true ⟨nofun, fun _ => rfl⟩ (h.imp_right .inr)
  · rw [not_or] at h
    constructor
    · intro hx
      have hle : value radix.toNat s ≤ L := (hx.1 _ rfl).1
      exact .inr (.inl (by omega))
    · rintro (hlen | hprefix | hleft)
      · exact absurd hlen h.1
      · have hleft : ((L : ℤ) - (value radix.toNat s / radix.toNat * radix.toNat : ℕ)) % 2 ^ w =
            L - (value radix.toNat s / radix.toNat * radix.toNat : ℕ) :=
          Int.emod_eq_of_lt (by omega) (by omega)
        have hle : value radix.toNat s ≤ L := by
          have := hleft ▸ h.2
          omega
        refine ⟨fun x hx => ?_, fun hnot => absurd hle hnot⟩
        cases hx
        exact ⟨hle, hconv _ hle⟩
      · exact absurd hleft h.2

lemma parseSigned_eq (limit : BitVec w) (n : ℕ) (sign : Sign) (hs : Digits 10 s) :
    parseSigned limit n (sign.chars ++ s) = some (parseDigits limit n (sign = .minus) s) := by
  obtain ⟨c, s, rfl⟩ := exists_cons_of_ne_nil hs.1
  have hc := hs.2 c mem_cons_self
  have hminus : c ≠ 45 := by
    rintro rfl
    simp at hc
  have hplus : c ≠ 43 := by
    rintro rfl
    simp at hc
  cases sign <;> simp [Sign.chars, parseSigned, hminus, hplus]

lemma fitsSigned_apply (sign : Sign) (v : ℕ) :
    FitsSigned w (sign.apply v) ↔ v ≤ limitOf w sign := by
  have hcast : ((2 ^ (w - 1) : ℕ) : ℤ) = 2 ^ (w - 1) := by norm_num
  have hpos := Nat.two_pow_pos (w - 1)
  rw [FitsSigned, Sign.apply, limitOf, ← hcast]
  split_ifs <;> omega

lemma toInt_apply (hw : 0 < w) (sign : Sign) {v : ℕ} (hv : v ≤ limitOf w sign) :
    (if decide (sign = .minus) then -BitVec.ofNat w v else BitVec.ofNat w v).toInt =
      sign.apply v := by
  obtain ⟨w, rfl⟩ : ∃ w', w = w' + 1 := ⟨w - 1, by omega⟩
  have hhalf : ((2 ^ (w + 1) : ℕ) : ℤ) = 2 * (2 ^ w : ℕ) := by
    push_cast
    ring
  have hbits (x : ℤ) (hlow : -((2 ^ w : ℕ) : ℤ) ≤ x) (hhigh : x < (2 ^ w : ℕ)) :
      x.bmod (2 ^ (w + 1)) = x :=
    Int.bmod_eq_of_le (by omega) (by omega)
  have hpos := Nat.two_pow_pos w
  rw [limitOf, Nat.add_sub_cancel] at hv
  rw [Sign.apply]
  by_cases h : sign = .minus
  · rw [if_pos h] at hv
    rw [if_pos (decide_eq_true h), if_pos h, ← BitVec.ofInt_natCast, ← BitVec.ofInt_neg,
      BitVec.toInt_ofInt]
    exact hbits _ (by omega) (by omega)
  · rw [if_neg h] at hv
    rw [if_neg (by simpa using h), if_neg h, BitVec.toInt_ofNat']
    exact hbits _ (by omega) (by omega)

lemma parseSigned_exact_iff (hw : 0 < w) (sign : Sign) (hs : Digits 10 s)
    (hten : (10 : BitVec w).toNat = 10)
    (hlimit : limit + (if decide (sign = .minus) then 1 else 0) = BitVec.ofNat w (limitOf w sign))
    (hn : 10 ^ (n - 1) ≤ limitOf w sign + 1) :
    (∃ r ∈ parseSigned limit n (sign.chars ++ s),
      Exact (FitsSigned w) (sign.apply (value 10 s)) r) ↔
      Caught w 10 n (limitOf w sign) s := by
  have hL : limitOf w sign < 2 ^ w := by
    obtain ⟨w, rfl⟩ : ∃ w', w = w' + 1 := ⟨w - 1, by omega⟩
    have hpos := Nat.two_pow_pos w
    rw [limitOf, pow_succ, Nat.add_sub_cancel]
    split_ifs <;> omega
  rw [← hten] at hs hn
  have h := exact_iff_caught (fun l => (if decide (sign = .minus) then -l else l).toInt) sign.apply
    hL hlimit hn hs (fitsSigned_apply sign) fun v hv => toInt_apply hw sign hv
  rw [hten] at h hs
  rw [parseSigned_eq limit n sign hs, ← h]
  simp [parseDigits]

lemma parseUnsigned_exact_iff (radix : BitVec w) (hs : Digits radix.toNat s)
    (hn : radix.toNat ^ (n - 1) ≤ 2 ^ w) :
    Exact (FitsUnsigned w) (value radix.toNat s) (parseUnsigned radix n s) ↔
      Caught w radix.toNat n (2 ^ w - 1) s := by
  have hpos := Nat.two_pow_pos w
  have hcast : ((2 ^ w : ℕ) : ℤ) = 2 ^ w := by norm_num
  refine exact_iff_caught (fun l => l.toNat) (fun v => v) (by omega) ?_ (by omega) hs (fun v => ?_)
    fun v hv => ?_
  · rw [add_zero, show (-1 : BitVec w) = BitVec.allOnes w from BitVec.neg_one_eq_allOnes]
    refine BitVec.eq_of_toNat_eq ?_
    rw [BitVec.toNat_allOnes, BitVec.toNat_ofNat, Nat.mod_eq_of_lt (by omega)]
  · rw [FitsUnsigned, ← hcast]
    omega
  · rw [BitVec.toNat_ofNat, Nat.mod_eq_of_lt (by omega)]

/-- A parser gives the value of a numeral, or an error if it does not fit, exactly if an excess is
caught. -/
theorem numerals_exact_iff (sign : Sign) {s o : List UInt8} (hs : Digits 10 s) (ho : Digits 8 o) :
    ((∃ r ∈ parseI64 (sign.chars ++ s), Exact (FitsSigned 64) (sign.apply (value 10 s)) r) ↔
      Caught 64 10 19 (limitOf 64 sign) s) ∧
    ((∃ r ∈ parseI32 (sign.chars ++ s), Exact (FitsSigned 32) (sign.apply (value 10 s)) r) ↔
      Caught 32 10 10 (limitOf 32 sign) s) ∧
    (Exact (FitsUnsigned 64) (value 10 s) (parseU64 s) ↔ Caught 64 10 20 (2 ^ 64 - 1) s) ∧
    (Exact (FitsUnsigned 64) (value 8 o) (parseO64 o) ↔ Caught 64 8 22 (2 ^ 64 - 1) o) := by
  refine ⟨parseSigned_exact_iff (by decide) sign hs rfl ?_ ?_,
    parseSigned_exact_iff (by decide) sign hs rfl ?_ ?_, parseUnsigned_exact_iff 10 hs (by decide),
    parseUnsigned_exact_iff 8 ho (by decide)⟩
  all_goals cases sign <;> decide

theorem numerals_exact_least :
    let s : List UInt8 :=
  [57, 50, 50, 51, 51, 55, 50, 48, 51, 54, 56, 53, 52, 55, 55, 53, 56, 48, 56]
    ∃ r ∈ parseI64 (Sign.minus.chars ++ s),
      Exact (FitsSigned 64) (Sign.minus.apply (value 10 s)) r :=
  (numerals_exact_iff .minus (o := [55]) (by decide +kernel) (by decide +kernel)).1.mpr
    (by decide +kernel)

theorem numerals_wrap :
    ¬(∃ r ∈ parseI64 (List.replicate 19 57),
      Exact (FitsSigned 64) (value 10 (List.replicate 19 57)) r) ∧
    ¬(∃ r ∈ parseI32 (List.replicate 10 57),
      Exact (FitsSigned 32) (value 10 (List.replicate 10 57)) r) ∧
    ¬Exact (FitsUnsigned 64) (value 10 (List.replicate 20 57)) (parseU64 (List.replicate 20 57)) ∧
    ¬Exact (FitsUnsigned 64) (value 8 (List.replicate 22 55))
      (parseO64 (List.replicate 22 55)) := by
  refine ⟨?_, ?_, fun h => ?_, fun h => ?_⟩
  · rintro ⟨r, hr, h⟩
    cases (rfl : parseI64 (List.replicate 19 57) = some (.ok (-8446744073709551617))).symm.trans hr
    exact absurd (h.1 _ rfl).1.2 (by decide)
  · rintro ⟨r, hr, h⟩
    cases (rfl : parseI32 (List.replicate 10 57) = some (.ok 1410065407)).symm.trans hr
    exact absurd (h.1 _ rfl).1.2 (by decide)
  · exact absurd (h.1 7766279631452241919 rfl).1 (by unfold FitsUnsigned; decide)
  · exact absurd (h.1 18446744073709551615 rfl).1 (by unfold FitsUnsigned; decide)

end Main

end Mai.BaseSlice
