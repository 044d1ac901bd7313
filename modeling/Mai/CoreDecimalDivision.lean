import Mai.BaseBigMulSub
import Mai.BaseBigShift
import Mai.CoreDecimal

/-!
# Division of magnitudes

`DivRaw` divides by one word with `DivWord` and by several with the long division
of `DivMagnitude`. The model follows the machine words, with their wrap-around,
step by step. The digits of the quotient are right as long as each is found from
a right remainder; the remainder of a digit is right when no borrow of `MulSub` is
lost or made up.
-/
namespace Mai.CoreDecimal

open Mai.BaseBig List Option

structure Estimate where
  qhat : UInt32
  qrem : UInt32
  skipCorrection : Bool

def estimate (dh nh nm : UInt32) : Estimate :=
  if nh = dh then ⟨0xffffffff, nh + nm, nh + nm + 0x80000000 < nh + 0x80000000⟩
  else
    let step := divStep dh nh nm
    ⟨step.1, step.2, false⟩

/-- The estimate corrected by the divisor's second word and the next word `nl`. -/
def correct (qhat qrem dh dl nl : UInt32) : UInt32 :=
  let estProduct := dl.toUInt64 * qhat.toUInt64
  if (qrem.toUInt64 <<< 32 ||| nl.toUInt64) < estProduct then
    let qrem := qrem + dh
    if dh ≤ qrem ∧ (qrem.toUInt64 <<< 32 ||| nl.toUInt64) < estProduct - dl.toUInt64 then
      qhat - 1 - 1
    else qhat - 1
  else qhat

/-- The quotient word at place `j`, and the remainder that it leaves. The remainder needs the
words up to the divisor's last, and one more than the estimate reads to correct it. -/
def divDigit (divisor re : Words) (j : ℕ) : Option (UInt32 × Words) :=
  match divisor, re.drop j with
  | dh :: dl :: _, nh :: nm :: rest =>
    let est := estimate dh nh nm
    if est.qhat = 0 then some (0, re)
    else
      (if est.skipCorrection then some est.qhat
        else rest.head?.map fun nl => correct est.qhat est.qrem dh dl nl).bind fun qhat =>
      if rest.length + 1 < divisor.length then none
      else
        let written := mulSub ((nm :: rest).take divisor.length) divisor qhat
        let below := (nm :: rest).drop divisor.length
        if nh + 0x80000000 < written.2 + 0x80000000 then
          some (qhat - 1, re.take j ++ 0 :: (divAdd divisor written.1 ++ below))
        else some (qhat, re.take j ++ 0 :: (written.1 ++ below))
  | _, _ => none

def divDigits (divisor : Words) : List ℕ → Words → Option (Words × Words)
  | j :: js, re => (divDigit divisor re j).bind fun digit =>
      (divDigits divisor js digit.2).map fun rest => (digit.1 :: rest.1, rest.2)
  | [], re => some ([], re)

/-- `Shl` by less than a word. A view that has to grow within its capacity is moved up by one
word, and the loop that was to clear the last word does not reach it. -/
def shl (capacity n : ℕ) (z : Words) : Words :=
  match z with
  | [] => []
  | w :: ws =>
    if n ≤ countLeadingZeros32 w then primitiveShl n (w :: ws)
    else primitiveShr (32 - n)
      (w :: ws ++ [if capacity < ws.length + 2 then 0 else ws.getLastD w])

def shr (n : ℕ) (z : Words) : Words :=
  match z with
  | [] => []
  | w :: ws =>
    if 32 - countLeadingZeros32 w ≤ n then (primitiveShl (32 - n) (w :: ws)).dropLast
    else primitiveShr n (w :: ws)

def trim (z : Words) : Words := z.dropWhile (· == 0)

def shiftOf (divisor : Words) : ℕ := countLeadingZeros32 (divisor.headD 0)

def normalizedDivisor (divisor : Words) : Words :=
  if 0 < shiftOf divisor then primitiveShl (shiftOf divisor) divisor else divisor

/-- The remainder before the first digit: the dividend shifted as the divisor is, with a leading
word. -/
def normalizedDividend (lhs : Words) (shift : ℕ) : Words :=
  let shifted := if 0 < shift then shl (lhs.length + 1) shift lhs else lhs
  if shifted.length = lhs.length then 0 :: shifted else shifted

/-- `DivMagnitude`: the words of the quotient and of the remainder. There is no result when the
number of quotient words would be negative, and none for a divisor that starts with a zero word,
which would be shifted by a whole word. -/
def divMagnitude (lhs divisor : Words) : Option (Words × Words) :=
  let shift := shiftOf divisor
  if divisor = [] ∨ divisor.headD 0 = 0 ∨ lhs.length + 1 < divisor.length then none
  else
    (divDigits (normalizedDivisor divisor) (List.range (lhs.length + 1 - divisor.length))
      (normalizedDividend lhs shift)).map fun r =>
        (trim r.1, trim (if 0 < shift then shr shift r.2 else r.2))

def newWord (w : UInt32) : Words := if w = 0 then [] else [w]

def divRaw (lhs rhs : Words) : Option (Words × Words) :=
  match rhs with
  | [d] => (divWord lhs d).map fun r => (r.1, newWord r.2)
  | _ => divMagnitude lhs rhs

/-- The word at place `i` of a number. -/
def word (n i : ℕ) : UInt32 := UInt32.ofNat (digit n i)

/-- The estimate for a window `w` of one word more than the divisor `d`, which has `k` words. -/
def estimateAt (k d w : ℕ) : Estimate := estimate (word d (k - 1)) (word w k) (word w (k - 1))

/-- The digit that is multiplied back. -/
def triedAt (k d w : ℕ) : UInt32 :=
  let est := estimateAt k d w
  if est.skipCorrection then est.qhat
  else correct est.qhat est.qrem (word d (k - 1)) (word d (k - 2)) (word w (k - 2))

/-- The divisor is added back, which a signed comparison decides. -/
def TakenBack (k d w : ℕ) : Prop :=
  (digit w k + 2 ^ 31) % base < (carryAt (triedAt k d w).toNat d w k + 2 ^ 31) % base

instance instDecidableTakenBack (k d w : ℕ) : Decidable (TakenBack k d w) :=
  inferInstanceAs (Decidable (_ < _))

def digitAt (k d w : ℕ) : UInt32 :=
  if (estimateAt k d w).qhat = 0 then 0
  else if TakenBack k d w then triedAt k d w - 1 else triedAt k d w

def QuotientRight (k d w : ℕ) : Prop := (digitAt k d w).toNat = w / d

/-- The digit tried is the quotient, or one more if it is taken back, and no borrow below the
highest word is lost or made up when it is multiplied back. -/
def RemainderRight (k d w : ℕ) : Prop :=
  (triedAt k d w).toNat = w / d + (if TakenBack k d w then 1 else 0)
    ∧ ∀ i < k - 1, BorrowFound (triedAt k d w).toNat d w i

instance instDecidableQuotientRight (k d w : ℕ) : Decidable (QuotientRight k d w) :=
  inferInstanceAs (Decidable (_ = _))

instance instDecidableRemainderRight (k d w : ℕ) : Decidable (RemainderRight k d w) :=
  inferInstanceAs (Decidable (_ ∧ _))

section Words

lemma word_head (w : UInt32) (z : Words) : word (magnitude (w :: z)) z.length = w := by
  rw [word, digit_head, UInt32.ofNat_toNat]

lemma word_tail {w : UInt32} {z : Words} {i : ℕ} (hi : i < z.length) :
    word (magnitude (w :: z)) i = word (magnitude z) i := by
  rw [word, digit_tail hi, word]

lemma correct_zero (qrem dh dl nl : UInt32) : correct 0 qrem dh dl nl = 0 := by
  simp [correct]

lemma correct_of_zero (qhat qrem dh nl : UInt32) : correct qhat qrem dh 0 nl = qhat := by
  simp [correct]

end Words

section Step

variable {dh dl nh nm nl : UInt32} {ds tail : Words} {k d w : ℕ}
  (htail : tail.length = ds.length) (hk : (dh :: dl :: ds).length = k)
  (hd : magnitude (dh :: dl :: ds) = d) (hw : magnitude (nh :: nm :: nl :: tail) = w)

include htail hk hd hw

lemma words_of_window :
    estimateAt k d w = estimate dh nh nm ∧ word d (k - 1) = dh ∧ word d (k - 2) = dl
      ∧ word w (k - 2) = nl := by
  have hdh : word d (ds.length + 1) = dh := hd ▸ word_head dh (dl :: ds)
  have hdl : word d ds.length = dl := by
    rw [← hd, word_tail (by simp), word_head]
  have hnh : word w (tail.length + 2) = nh := hw ▸ word_head nh (nm :: nl :: tail)
  have hnm : word w (tail.length + 1) = nm := by
    rw [← hw, word_tail (by simp)]
    exact word_head nm (nl :: tail)
  have hnl : word w tail.length = nl := by
    rw [← hw, word_tail (by simp), word_tail (by simp), word_head]
  rw [htail] at hnh hnm hnl
  rw [← hk, estimateAt]
  simp only [length_cons, Nat.add_sub_cancel, Nat.reduceSubDiff]
  exact ⟨by rw [hdh, hnh, hnm], hdh, hdl, hnl⟩

lemma takenBack_iff :
    TakenBack k d w ↔ nh + 0x80000000
      < (mulSub (nm :: nl :: tail) (dh :: dl :: ds) (triedAt k d w)).2 + 0x80000000 := by
  have hlen : (nm :: nl :: tail).length = (dh :: dl :: ds).length := by simp [htail]
  have hhead : digit w k = nh.toNat := by
    rw [← hw, ← hk, ← hlen, digit_head]
  obtain ⟨-, hout, -⟩ := mulSub_spec nh (triedAt k d w) hlen
  have hhalf : (0x80000000 : UInt32).toNat = 2 ^ 31 := by decide
  rw [hk, hd, hw] at hout
  rw [TakenBack, UInt32.lt_iff_toNat_lt, UInt32.toNat_add, UInt32.toNat_add, hout, hhead, hhalf,
    base, Nat.mod_add_mod]

/-- One digit, for any words in front of the window and behind it. -/
lemma divDigit_eq {pre : Words} {j : ℕ} (hj : pre.length = j) (rest : Words) :
    divDigit (dh :: dl :: ds) (pre ++ nh :: nm :: nl :: (tail ++ rest)) j =
      let written := (mulSub (nm :: nl :: tail) (dh :: dl :: ds) (triedAt k d w)).1
      some (digitAt k d w,
        if (estimateAt k d w).qhat = 0 then pre ++ nh :: nm :: nl :: (tail ++ rest)
        else pre ++ 0 :: ((if TakenBack k d w then divAdd (dh :: dl :: ds) written else written)
          ++ rest)) := by
  obtain ⟨hest, hdh, hdl, hnl⟩ := words_of_window htail hk hd hw
  have hback := takenBack_iff htail hk hd hw
  have htried : (if (estimate dh nh nm).skipCorrection = true then some (estimate dh nh nm).qhat
        else some (correct (estimate dh nh nm).qhat (estimate dh nh nm).qrem dh dl nl))
      = some (triedAt k d w) := by
    rw [triedAt, hest, hdh, hdl, hnl]
    split_ifs <;> rfl
  have htake : (nm :: nl :: (tail ++ rest)).take (dh :: dl :: ds).length = nm :: nl :: tail := by
    rw [← cons_append, ← cons_append]
    exact take_left' (by simp [htail])
  have hdrop : (nm :: nl :: (tail ++ rest)).drop (dh :: dl :: ds).length = rest := by
    rw [← cons_append, ← cons_append]
    exact drop_left' (by simp [htail])
  have hroom : ¬ (nl :: (tail ++ rest)).length + 1 < (dh :: dl :: ds).length := by
    simp [htail]
  have hwords : (pre ++ nh :: nm :: nl :: (tail ++ rest)).drop j
      = nh :: nm :: nl :: (tail ++ rest) := drop_left' hj
  dsimp only
  rw [digitAt, hest]
  simp only [divDigit, hwords]
  by_cases hzero : (estimate dh nh nm).qhat = 0
  · rw [if_pos hzero, if_pos hzero, if_pos hzero]
  · rw [if_neg hzero, if_neg hzero, if_neg hzero, head?_cons, map_some, htried,
      bind_some, if_neg hroom, htake, hdrop, take_left' hj]
    by_cases htaken : TakenBack k d w
    · rw [if_pos (hback.mp htaken), if_pos htaken, if_pos htaken]
    · rw [if_neg (mt hback.mpr htaken), if_neg htaken, if_neg htaken]

omit htail hk hd hw in
lemma eq_iff_modEq {a r c w m : ℕ} (ha : a < m) (hr : r < m) (hw : r + c ≡ w [MOD m]) :
    a = r ↔ a + c ≡ w [MOD m] := by
  constructor
  · rintro rfl
    exact hw
  · intro h
    exact ((h.trans hw.symm).add_right_cancel' c).eq_of_lt_of_lt ha hr

omit hd in
lemma window_modEq : w ≡ magnitude (nm :: nl :: tail) [MOD base ^ k] := by
  have hlen : (nm :: nl :: tail).length = k := by simp [htail, ← hk]
  rw [← hw, magnitude_cons, hlen, Nat.ModEq, Nat.mul_comm, Nat.mul_add_mod]

/-- A digit that wraps around below zero does not leave its remainder. -/
lemma wrapped_remainder (hq : w / d = base - 1) (hdl : dl ≠ 0) {r : ℕ}
    (hr : r ≡ d + magnitude (nm :: nl :: tail) [MOD base ^ k]) : r ≠ w % d := by
  rintro rfl
  have hdiv := Nat.mod_add_div w d
  have hzero : base * d ≡ 0 [MOD base ^ k] := by
    have hsum : w % d + base * d = d + w := by
      rw [hq] at hdiv
      have : base * d = d * (base - 1) + d := by
        rw [base]
        omega
      omega
    have h : w % d + base * d ≡ w % d + 0 [MOD base ^ k] := by
      rw [hsum, Nat.add_zero]
      exact (Nat.ModEq.add_left d (window_modEq htail hk hw)).trans hr.symm
    exact h.add_left_cancel'
  rw [← hk, length_cons, pow_succ', Nat.modEq_zero_iff_dvd,
    Nat.mul_dvd_mul_iff_left (by decide : 0 < base), ← hd, magnitude_cons,
    Nat.dvd_add_right (Dvd.intro_left _ rfl)] at hzero
  have hlt := magnitude_lt (dl :: ds)
  have hpos := magnitude_pos ds (toNat_pos hdl)
  exact absurd (Nat.le_of_dvd hpos hzero) (by omega)

omit htail hk hd hw in
lemma tried_modEq (hest : (estimateAt k d w).qhat ≠ 0) (hright : QuotientRight k d w) :
    (triedAt k d w).toNat ≡ w / d + (if TakenBack k d w then 1 else 0) [MOD base] := by
  rw [← hright, digitAt, if_neg hest]
  split_ifs with htaken
  · have hlt := (triedAt k d w).toNat_lt
    have hone : (1 : UInt32).toNat = 1 := rfl
    rw [UInt32.toNat_sub, hone, Nat.ModEq, base]
    omega
  · exact Nat.ModEq.rfl

omit htail hk hd hw in
/-- A right digit that is not what was tried is one that wrapped around below zero. -/
lemma wrapped_of_ne (hest : (estimateAt k d w).qhat ≠ 0) (hright : QuotientRight k d w)
    (hne : (triedAt k d w).toNat ≠ w / d + if TakenBack k d w then 1 else 0) :
    TakenBack k d w ∧ triedAt k d w = 0 ∧ w / d = base - 1 := by
  rw [QuotientRight, digitAt, if_neg hest] at hright
  split_ifs at hright hne with htaken
  · have hzero : triedAt k d w = 0 := by
      by_contra hpos
      have hle : (1 : UInt32) ≤ triedAt k d w := UInt32.le_iff_toNat_le.mpr (toNat_pos hpos)
      have := toNat_pos hpos
      rw [UInt32.toNat_sub_of_le _ _ hle, UInt32.toNat_one] at hright
      omega
    rw [hzero] at hright
    exact ⟨htaken, hzero, hright.symm.trans (by decide)⟩
  · exact absurd hright hne

lemma divisor_of_wrapped (hest : (estimateAt k d w).qhat ≠ 0) (hzero : triedAt k d w = 0) :
    dl ≠ 0 := by
  rintro rfl
  rw [triedAt, (words_of_window htail hk hd hw).2.2.1, correct_of_zero, ite_self] at hzero
  exact hest hzero

omit hd hw in
lemma left_length {x : UInt32} (p : Prop) [Decidable p] {written : Words}
    (hwritten : (mulSub (nm :: nl :: tail) (dh :: dl :: ds) x).1 = written) :
    (if p then divAdd (dh :: dl :: ds) written else written).length = k := by
  have hlen : (nm :: nl :: tail).length = (dh :: dl :: ds).length := by simp [htail]
  have hwlen := (mulSub_spec 0 x hlen).1
  rw [hwritten] at hwlen
  split_ifs
  · rw [(divAdd_spec hwlen).1, hk]
  · rw [hwlen, hk]

/-- The words that a right digit leaves: their lowest is the remainder's, and all of them are just
when no borrow goes wrong. -/
lemma remainder_of_right (hest : (estimateAt k d w).qhat ≠ 0) (hright : QuotientRight k d w)
    {written left : Words}
    (hwritten : (mulSub (nm :: nl :: tail) (dh :: dl :: ds) (triedAt k d w)).1 = written)
    (hleft : (if TakenBack k d w then divAdd (dh :: dl :: ds) written else written) = left)
    (hpos : 0 < d) :
    left.length = k ∧ magnitude left ≡ w % d [MOD base]
      ∧ (magnitude left = w % d ↔ RemainderRight k d w) := by
  have hlen : (nm :: nl :: tail).length = (dh :: dl :: ds).length := by simp [htail]
  obtain ⟨hwlen, -, hborrow, hlow⟩ := mulSub_spec nh (triedAt k d w) hlen
  rw [hwritten, hk] at hwlen
  rw [hwritten, hk, hd, hw] at hborrow
  rw [hwritten, hd] at hlow
  have hadd := (divAdd_spec (hwlen.trans hk.symm)).2
  rw [hk, hd] at hadd
  have hwin := window_modEq htail hk hw
  have hwrap := wrapped_remainder htail hk hd hw
  have hdlt : d < base ^ k := by
    rw [← hd, ← hk]
    exact magnitude_lt _
  have hkpos : k ≠ 0 := by simp [← hk]
  have hbase : base ∣ base ^ k := dvd_pow_self base hkpos
  have htried := tried_modEq hest hright
  have hmod : w % d + w / d * d = w := Nat.mod_add_div' w d
  have hleftlen : left.length = k := hleft ▸ left_length htail hk _ hwritten
  have hleftmod : magnitude left
      ≡ magnitude written + (if TakenBack k d w then 1 else 0) * d [MOD base ^ k] := by
    rw [← hleft]
    split_ifs
    · rw [Nat.one_mul, Nat.add_comm]
      exact hadd
    · rw [Nat.zero_mul, Nat.add_zero]
  refine ⟨hleftlen, ?_, ?_⟩
  · apply Nat.ModEq.add_right_cancel' (w / d * d)
    calc magnitude left + w / d * d
        ≡ magnitude written + (if TakenBack k d w then 1 else 0) * d + w / d * d [MOD base] :=
          (hleftmod.of_dvd hbase).add_right _
      _ = magnitude written + (w / d + if TakenBack k d w then 1 else 0) * d := by ring
      _ ≡ magnitude written + (triedAt k d w).toNat * d [MOD base] :=
          (htried.symm.mul_right d).add_left _
      _ ≡ magnitude (nm :: nl :: tail) [MOD base] := hlow (by simp)
      _ ≡ w [MOD base] := (hwin.of_dvd hbase).symm
      _ = w % d + w / d * d := hmod.symm
  · have hleftlt : magnitude left < base ^ k := hleftlen ▸ magnitude_lt left
    have hremlt : w % d < base ^ k := (Nat.mod_lt w hpos).trans hdlt
    by_cases hsame : (triedAt k d w).toNat = w / d + if TakenBack k d w then 1 else 0
    · have hsum : magnitude left + w / d * d
          ≡ magnitude written + (triedAt k d w).toNat * d [MOD base ^ k] := by
        rw [hsame, show magnitude written + (w / d + if TakenBack k d w then 1 else 0) * d
          = magnitude written + (if TakenBack k d w then 1 else 0) * d + w / d * d by ring]
        exact hleftmod.add_right _
      rw [eq_iff_modEq hleftlt hremlt (hmod ▸ hwin), RemainderRight, and_iff_right hsame]
      refine Iff.trans ⟨hsum.symm.trans, hsum.trans⟩ (hborrow.trans ?_)
      exact forall_congr' fun i => ⟨fun h hi => h (by omega), fun h hi => h (by omega)⟩
    · obtain ⟨htaken, hzero, hq⟩ := wrapped_of_ne hest hright hsame
      refine iff_of_false ?_ fun h => hsame h.1
      refine hwrap hq (divisor_of_wrapped htail hk hd hw hest hzero) (hleftmod.trans ?_)
      have hnothing := hborrow.mpr fun j _ => hzero ▸ borrowFound_zero d w j
      rw [hzero, UInt32.toNat_zero, Nat.zero_mul, Nat.add_zero] at hnothing
      rw [if_pos htaken, Nat.one_mul, Nat.add_comm]
      exact hnothing.add_left d

/-- A digit that is not looked for is zero, and what is left is the window. -/
lemma remainder_of_skipped (hest : (estimateAt k d w).qhat = 0) (hright : QuotientRight k d w)
    (hpos : 0 < d) :
    nh = 0 ∧ magnitude (nm :: nl :: tail) = w % d ∧ RemainderRight k d w := by
  have hdlt : d < base ^ k := by
    rw [← hd, ← hk]
    exact magnitude_lt _
  have hzero : w / d = 0 := by
    rw [QuotientRight, digitAt, if_pos hest] at hright
    exact hright.symm
  have hlen : (nm :: nl :: tail).length = k := by simp [htail, ← hk]
  have hlt := (Nat.div_eq_zero_iff_lt hpos).mp hzero
  have hwlt : w < base ^ k := hlt.trans hdlt
  have hnh : nh = 0 := by
    by_contra hne
    have hle := Nat.mul_le_mul_right (base ^ k) (toNat_pos hne)
    rw [← hw, magnitude_cons, hlen] at hwlt
    omega
  have htried : triedAt k d w = 0 := by
    rw [triedAt]
    split_ifs with hskip
    · exact hest
    · rw [hest, correct_zero]
  refine ⟨hnh, ?_, ?_, fun i _ => ?_⟩
  · rw [Nat.mod_eq_of_lt hlt, ← hw, hnh, magnitude_zero_cons]
  · have hhead : digit w k = 0 := by
      rw [digit, Nat.div_eq_of_lt hwlt, Nat.zero_mod]
    have hback : ¬ TakenBack k d w := by
      rw [TakenBack, htried, hhead, UInt32.toNat_zero, carryAt_zero]
      exact lt_irrefl _
    rw [htried, hzero, if_neg hback, UInt32.toNat_zero]
  · rw [htried]
    exact borrowFound_zero d w i

/-- A digit is found whatever the words are, and their number is kept. -/
lemma divDigit_some {pre : Words} {j : ℕ} (hj : pre.length = j) (rest : Words) :
    ∃ re, divDigit (dh :: dl :: ds) (pre ++ nh :: nm :: nl :: (tail ++ rest)) j
        = some (digitAt k d w, re)
      ∧ re.length = (pre ++ nh :: nm :: nl :: (tail ++ rest)).length := by
  refine ⟨_, divDigit_eq htail hk hd hw hj rest, ?_⟩
  by_cases hest : (estimateAt k d w).qhat = 0
  · rw [if_pos hest]
  · have hleft := left_length htail hk (TakenBack k d w)
      (rfl : (mulSub (nm :: nl :: tail) (dh :: dl :: ds) (triedAt k d w)).1 = _)
    rw [if_neg hest, length_append, length_cons, length_append, hleft]
    simp only [length_append, length_cons] at hk ⊢
    omega

/-- One right digit of a division whose words in front of the window are zero. -/
lemma divDigit_right (j : ℕ) (rest : Words) (hpos : 0 < d) (hright : QuotientRight k d w) :
    ∃ win, divDigit (dh :: dl :: ds) (List.replicate j 0 ++ nh :: nm :: nl :: (tail ++ rest)) j
        = some (digitAt k d w, List.replicate (j + 1) 0 ++ (win ++ rest))
      ∧ win.length = k ∧ magnitude win ≡ w % d [MOD base]
      ∧ (magnitude win = w % d ↔ RemainderRight k d w) := by
  have hrun := divDigit_eq htail hk hd hw (length_replicate (n := j) (a := 0)) rest
  have hlen : (nm :: nl :: tail).length = k := by simp [htail, ← hk]
  have hzeros (z : Words) :
      List.replicate (j + 1) (0 : UInt32) ++ z = List.replicate j 0 ++ 0 :: z := by
    rw [replicate_succ', append_assoc, singleton_append]
  simp only [hzeros]
  by_cases hest : (estimateAt k d w).qhat = 0
  · obtain ⟨rfl, hrem, hrr⟩ := remainder_of_skipped htail hk hd hw hest hright hpos
    simp only [if_pos hest] at hrun
    exact ⟨nm :: nl :: tail, hrun, hlen, by rw [hrem], iff_of_true hrem hrr⟩
  · obtain ⟨hl, hmod, hiff⟩ := remainder_of_right htail hk hd hw hest hright rfl rfl hpos
    simp only [if_neg hest] at hrun
    exact ⟨_, hrun, hl, hmod, hiff⟩

end Step

/-- The numbers that long division divides by `d` to get its digits, from the remainder `r` on. -/
def windows (d : ℕ) : ℕ → Words → List ℕ
  | r, w :: ws => (r * base + w.toNat) :: windows d ((r * base + w.toNat) % d) ws
  | _, [] => []

def QuotientHolds (k d : ℕ) (ws : List ℕ) : Prop :=
  (∀ w ∈ ws, QuotientRight k d w) ∧ ∀ w ∈ ws.dropLast, RemainderRight k d w

/-- A right digit before the last leaves a wrong remainder. -/
def Slips (k d : ℕ) (ws : List ℕ) : Prop :=
  ∃ w ∈ ws.dropLast, QuotientRight k d w ∧ ¬ RemainderRight k d w

instance instDecidableQuotientHolds (k d : ℕ) (ws : List ℕ) : Decidable (QuotientHolds k d ws) :=
  inferInstanceAs (Decidable (_ ∧ _))

instance instDecidableSlips (k d : ℕ) (ws : List ℕ) : Decidable (Slips k d ws) :=
  inferInstanceAs (Decidable (∃ w ∈ ws.dropLast, _))

section Run

variable {dh dl : UInt32} {ds : Words} {k d : ℕ}

lemma quotientHolds_cons {w : ℕ} {ws : List ℕ} :
    QuotientHolds k d (w :: ws) ↔ QuotientRight k d w ∧ (ws ≠ [] → RemainderRight k d w)
      ∧ QuotientHolds k d ws := by
  cases ws with
  | nil => simp [QuotientHolds]
  | cons v ws =>
    simp only [QuotientHolds, dropLast_cons_cons, forall_mem_cons, ne_eq, reduceCtorEq,
      not_false_eq_true, true_implies]
    tauto

lemma slips_cons {w : ℕ} {ws : List ℕ} :
    Slips k d (w :: ws)
      ↔ (ws ≠ [] ∧ QuotientRight k d w ∧ ¬ RemainderRight k d w) ∨ Slips k d ws := by
  cases ws with
  | nil => simp [Slips]
  | cons v ws =>
    simp only [Slips, dropLast_cons_cons, exists_mem_cons_iff, ne_eq, reduceCtorEq,
      not_false_eq_true, true_and]

lemma exists_window {z : Words} (hz : ds.length + 3 ≤ z.length) :
    ∃ nh nm nl tail rest, z = nh :: nm :: nl :: (tail ++ rest) ∧ tail.length = ds.length := by
  obtain ⟨nh, z, rfl⟩ := exists_cons_of_length_pos (show 0 < z.length by omega)
  obtain ⟨nm, z, rfl⟩ := exists_cons_of_length_pos (show 0 < z.length by simp at hz; omega)
  obtain ⟨nl, z, rfl⟩ := exists_cons_of_length_pos (show 0 < z.length by simp at hz; omega)
  refine ⟨nh, nm, nl, z.take ds.length, z.drop ds.length, by rw [take_append_drop], ?_⟩
  rw [length_take]
  simp at hz
  omega

lemma divDigits_some {js : List ℕ} {re : Words}
    (h : ∀ j ∈ js, j + (ds.length + 3) ≤ re.length) :
    ∃ qs r, divDigits (dh :: dl :: ds) js re = some (qs, r) ∧ qs.length = js.length := by
  induction js generalizing re with
  | nil => exact ⟨[], re, rfl, rfl⟩
  | cons j js ih =>
    have hj := h j (by simp)
    obtain ⟨nh, nm, nl, tail, rest, hz, htail⟩ := exists_window
      (show ds.length + 3 ≤ (re.drop j).length by rw [List.length_drop]; omega)
    have hre : re = re.take j ++ nh :: nm :: nl :: (tail ++ rest) := by
      rw [← hz, take_append_drop]
    obtain ⟨re', hrun, hlen⟩ := divDigit_some htail (rfl : (dh :: dl :: ds).length = _) rfl
      (rfl : magnitude (nh :: nm :: nl :: tail) = _)
      (length_take_of_le (show j ≤ re.length by omega)) rest
    rw [← hre] at hrun hlen
    obtain ⟨qs, r, htailrun, hqs⟩ := @ih re'
      fun i hi => by rw [hlen]; exact h i (mem_cons_of_mem j hi)
    exact ⟨_, r, by rw [divDigits, hrun, bind_some, htailrun, map_some],
      by rw [length_cons, hqs, length_cons]⟩

lemma divDigits_length {divisor : Words} {js : List ℕ} {re qs r : Words}
    (h : divDigits divisor js re = some (qs, r)) : qs.length = js.length := by
  induction js generalizing re qs r with
  | nil =>
    rw [divDigits] at h
    cases h
    rfl
  | cons j js ih =>
    rw [divDigits] at h
    obtain ⟨⟨q, re'⟩, -, hrest⟩ := bind_eq_some_iff.mp h
    obtain ⟨⟨qs', r'⟩, hrun, heq⟩ := map_eq_some_iff.mp hrest
    cases heq
    rw [length_cons, length_cons, ih hrun]

/-- What a run over the rest of the dividend finds: the quotient if every digit but the last leaves
its remainder, and only then unless a wrong remainder is made good by a later digit. -/
structure RunSpec (k d n : ℕ) (ws : List ℕ) (qs r : Words) : Prop where
  quotient : QuotientHolds k d ws → magnitude qs = n / d
  lowest : QuotientHolds k d ws → magnitude r ≡ n % d [MOD base]
  remainder : QuotientHolds k d ws →
    (magnitude r = n % d ↔ ∀ w ∈ ws.getLast?, RemainderRight k d w)
  only : magnitude qs = n / d → QuotientHolds k d ws ∨ Slips k d ws

section Cons

variable {w n m v : ℕ} {ws : List ℕ} {qs r : Words} (hpos : 0 < d) (hm : m < base ^ qs.length)
  (hn : n = w * base ^ qs.length + m) (hv : v = w % d * base ^ qs.length + m)

include hpos hm hn hv

lemma quotient_iff :
    magnitude (digitAt k d w :: qs) = n / d ↔ QuotientRight k d w ∧ magnitude qs = v / d := by
  have hsplit := quotient_split d 0 w qs.length m
  rw [Nat.zero_mul, Nat.zero_add, Nat.zero_mul, Nat.zero_add, ← hn, ← hv] at hsplit
  have hlt : v / d < base ^ qs.length := hv ▸ rest_lt (Nat.mod_lt w hpos) hm
  rw [magnitude_cons, hsplit, QuotientRight]
  constructor
  · exact place_inj (magnitude_lt qs) hlt
  · rintro ⟨hq, hrest⟩
    rw [hq, hrest]

lemma RunSpec.cons (hne : ws ≠ []) (hqr : QuotientRight k d w) (hrr : RemainderRight k d w)
    (h : RunSpec k d v ws qs r) : RunSpec k d n (w :: ws) (digitAt k d w :: qs) r := by
  have hquot := quotient_iff (k := k) hpos hm hn hv
  have hmod := remainder_split d 0 w qs.length m
  rw [Nat.zero_mul, Nat.zero_add, Nat.zero_mul, Nat.zero_add, ← hn, ← hv] at hmod
  have hlast : (w :: ws).getLast? = ws.getLast? := by
    rw [getLast?_cons, getLast?_eq_some_getLast hne, getD_some]
  refine ⟨fun hh => ?_, fun hh => ?_, fun hh => ?_, fun hh => ?_⟩
  · exact hquot.mpr ⟨hqr, h.quotient (quotientHolds_cons.mp hh).2.2⟩
  · rw [hmod]
    exact h.lowest (quotientHolds_cons.mp hh).2.2
  · rw [hmod, hlast]
    exact h.remainder (quotientHolds_cons.mp hh).2.2
  · rcases h.only (hquot.mp hh).2 with hholds | hslips
    · exact .inl (quotientHolds_cons.mpr ⟨hqr, fun _ => hrr, hholds⟩)
    · exact .inr (slips_cons.mpr (.inr hslips))

/-- Once a digit or its remainder is wrong, only a later digit can make it good. -/
lemma RunSpec.wrong (hwrong : ¬ QuotientRight k d w ∨ (ws ≠ [] ∧ ¬ RemainderRight k d w)) :
    RunSpec k d n (w :: ws) (digitAt k d w :: qs) r := by
  have hnot : ¬ QuotientHolds k d (w :: ws) := fun hh => by
    obtain ⟨hqr, hrr, -⟩ := quotientHolds_cons.mp hh
    rcases hwrong with hq | ⟨hne, hr⟩
    · exact hq hqr
    · exact hr (hrr hne)
  refine ⟨fun hh => absurd hh hnot, fun hh => absurd hh hnot, fun hh => absurd hh hnot,
    fun hh => .inr ?_⟩
  have hqr := ((quotient_iff (k := k) hpos hm hn hv).mp hh).1
  exact slips_cons.mpr (.inl ⟨(hwrong.resolve_left (not_not.mpr hqr)).1, hqr,
    (hwrong.resolve_left (not_not.mpr hqr)).2⟩)

end Cons

lemma RunSpec.last {w j : ℕ} {left qs r : Words} (hqr : QuotientRight k d w)
    (hlow : magnitude left ≡ w % d [MOD base])
    (hiff : magnitude left = w % d ↔ RemainderRight k d w)
    (hrun : divDigits (dh :: dl :: ds) (List.range' j ([] : Words).length)
      (List.replicate j 0 ++ (left ++ [])) = some (qs, r)) :
    RunSpec k d (w * base ^ qs.length + magnitude []) (w :: windows d (w % d) [])
      (digitAt k d w :: qs) r := by
  simp only [length_nil, range'_zero, divDigits, append_nil, some_inj,
    Prod.mk.injEq] at hrun
  obtain ⟨rfl, rfl⟩ := hrun
  have hn : w * base ^ ([] : Words).length + magnitude [] = w := by
    rw [length_nil, pow_zero, Nat.mul_one]
    rfl
  rw [hn, windows]
  refine ⟨fun _ => ?_, fun _ => ?_, fun _ => ?_, fun _ => .inl ?_⟩
  · rw [magnitude_cons, length_nil, pow_zero, Nat.mul_one]
    exact hqr
  · rw [magnitude_replicate_append]
    exact hlow
  · rw [magnitude_replicate_append, hiff]
    simp
  · simpa [QuotientHolds] using hqr

lemma divDigits_run (hk : (dh :: dl :: ds).length = k) (hd : magnitude (dh :: dl :: ds) = d)
    {rest win : Words} {j : ℕ} (hwin : win.length = k) (hlt : magnitude win < d) {qs r : Words}
    (hrun : divDigits (dh :: dl :: ds) (List.range' j rest.length)
      (List.replicate j 0 ++ (win ++ rest)) = some (qs, r)) :
    RunSpec k d (magnitude win * base ^ rest.length + magnitude rest)
      (windows d (magnitude win) rest) qs r := by
  induction rest generalizing win j qs r with
  | nil =>
    simp only [length_nil, range'_zero, divDigits, append_nil, some_inj,
      Prod.mk.injEq] at hrun
    obtain ⟨rfl, rfl⟩ := hrun
    have hnone : magnitude ([] : Words) = 0 := rfl
    have hr : magnitude (List.replicate j 0 ++ win)
        = (magnitude win * base ^ ([] : Words).length + magnitude []) % d := by
      rw [magnitude_replicate_append, length_nil, pow_zero, Nat.mul_one, hnone, Nat.add_zero,
        Nat.mod_eq_of_lt hlt]
    refine ⟨fun _ => ?_, fun _ => by rw [hr], fun _ => by simp [hr, windows], fun _ => .inl ?_⟩
    · rw [length_nil, pow_zero, Nat.mul_one, hnone, Nat.add_zero, Nat.div_eq_of_lt hlt]
    · simp [QuotientHolds, windows]
  | cons w₀ rest ih =>
    obtain ⟨nh, z, hz⟩ := exists_cons_of_length_eq_add_one
      (show (win ++ [w₀]).length = k + 1 by simp [hwin])
    have hzlen : z.length = k := by simpa [hwin] using (congrArg List.length hz).symm
    rw [← hk] at hzlen
    obtain ⟨nm, z, rfl⟩ := exists_cons_of_length_eq_add_one hzlen
    obtain ⟨nl, tail, rfl⟩ := exists_cons_of_length_eq_add_one (Nat.succ.inj hzlen)
    have htail : tail.length = ds.length := Nat.succ.inj (Nat.succ.inj hzlen)
    have hw : magnitude (nh :: nm :: nl :: tail) = magnitude win * base + w₀.toNat := by
      rw [← hz, magnitude_append_singleton]
    have hre : win ++ w₀ :: rest = nh :: nm :: nl :: (tail ++ rest) := by
      rw [append_cons, hz]
      rfl
    have hpos : 0 < d := by omega
    rw [hre, length_cons, range'_succ, divDigits] at hrun
    rw [windows]
    generalize hW : magnitude win * base + w₀.toNat = w at hw
    have hn : magnitude win * base ^ (rest.length + 1) + magnitude (w₀ :: rest)
        = w * base ^ rest.length + magnitude rest := by
      rw [magnitude_cons, ← hW, pow_succ]
      ring
    obtain ⟨⟨q, re⟩, hdigit, hrest⟩ := bind_eq_some_iff.mp hrun
    obtain ⟨⟨qs', r'⟩, hrun', heq⟩ := map_eq_some_iff.mp hrest
    cases heq
    have hqs : qs'.length = rest.length := by
      rw [divDigits_length hrun', length_range']
    obtain ⟨re', hsome, -⟩ := divDigit_some htail hk hd hw
      (length_replicate (n := j) (a := 0)) rest
    obtain ⟨rfl, rfl⟩ := Prod.mk.inj (Option.some.inj (hdigit.symm.trans hsome))
    have hm : magnitude rest < base ^ qs'.length := hqs ▸ magnitude_lt rest
    rw [length_cons, hn, ← hqs]
    by_cases hqr : QuotientRight k d w
    · obtain ⟨left, hright, hlen, hlow, hiff⟩ :=
        divDigit_right htail hk hd hw j rest hpos hqr
      obtain ⟨-, rfl⟩ := Prod.mk.inj (Option.some.inj (hdigit.symm.trans hright))
      cases rest with
      | nil => exact RunSpec.last hqr hlow hiff hrun'
      | cons w₁ rest =>
        by_cases hrr : RemainderRight k d w
        · have hleft := hiff.mpr hrr
          have hspec := ih hlen (hleft.trans_lt (Nat.mod_lt w hpos)) hrun'
          rw [hleft, ← hqs] at hspec
          exact hspec.cons hpos hm rfl rfl (by simp [windows]) hqr hrr
        · exact RunSpec.wrong hpos hm rfl rfl (.inr ⟨by simp [windows], hrr⟩)
    · exact RunSpec.wrong hpos hm rfl rfl (.inl hqr)

end Run

section Shifts

variable {n : ℕ}

lemma lt_of_le_countLeadingZeros32 {w : UInt32} (h : n ≤ countLeadingZeros32 w) :
    w.toNat < 2 ^ (32 - n) := by
  by_cases hw : w = 0
  · simp [hw]
  · have hspec := (countLeadingZeros32_spec hw).2
    have hle := countLeadingZeros32_le w
    have hpow : 2 ^ n ≤ 2 ^ countLeadingZeros32 w := Nat.pow_le_pow_right (by norm_num) h
    have hmul : w.toNat * 2 ^ n < 2 ^ (32 - n) * 2 ^ n := by
      rw [← pow_add, Nat.sub_add_cancel (h.trans hle)]
      exact lt_of_le_of_lt (Nat.mul_le_mul_left _ hpow) hspec
    exact Nat.lt_of_mul_lt_mul_right hmul

lemma shl_spec (hpos : 0 < n) (hn : n < 32) (z : Words) :
    ∃ g < 2 ^ n, magnitude (shl (z.length + 1) n z) = magnitude z * 2 ^ n + g
      ∧ ((shl (z.length + 1) n z).length = z.length
        ∨ (shl (z.length + 1) n z).length = z.length + 1) := by
  cases z with
  | nil => exact ⟨0, Nat.two_pow_pos n, by simp [shl, magnitude, low], .inl rfl⟩
  | cons w ws =>
    rw [shl]
    split_ifs with hfits hcap
    · exact ⟨0, Nat.two_pow_pos n,
        magnitude_primitiveShl_of_lt hpos hn ws (lt_of_le_countLeadingZeros32 hfits),
        .inl (primitiveShl_length _ _)⟩
    · simp at hcap
    · refine ⟨(ws.getLastD w).toNat / 2 ^ (32 - n), ?_, ?_,
        .inr (by rw [primitiveShr_length]; simp)⟩
      · apply Nat.div_lt_of_lt_mul
        rw [← pow_add, Nat.sub_add_cancel hn.le]
        exact (ws.getLastD w).toNat_lt
      · have hsplit : magnitude (w :: ws ++ [ws.getLastD w])
            = 2 ^ (32 - n) * (magnitude (w :: ws) * 2 ^ n) + (ws.getLastD w).toNat := by
          have hbase := base_split hn.le
          rw [magnitude_append_singleton]
          linear_combination magnitude (w :: ws) * hbase
        rw [magnitude_primitiveShr (by omega) (by omega), hsplit,
          Nat.mul_add_div (Nat.two_pow_pos _)]

lemma magnitude_shr (hpos : 0 < n) (hn : n < 32) (z : Words) :
    magnitude (shr n z) = magnitude z / 2 ^ n := by
  cases z with
  | nil => simp [shr, magnitude, low]
  | cons w ws =>
    rw [shr]
    split_ifs with hfits
    · have hw : w.toNat < 2 ^ (32 - (32 - n)) :=
        lt_of_le_countLeadingZeros32 (by have := countLeadingZeros32_le w; omega)
      have hshl := magnitude_primitiveShl_of_lt (by omega) (by omega) ws hw
      have hdrop : ∀ z : Words, magnitude z.dropLast = magnitude z / base := by
        intro z
        rcases eq_nil_or_concat z with rfl | ⟨ys, y, rfl⟩
        · simp [magnitude, low]
        · have hy : y.toNat < base := y.toNat_lt
          rw [concat_eq_append, dropLast_concat, magnitude_append_singleton, Nat.mul_comm,
            Nat.mul_add_div (by decide), Nat.div_eq_of_lt hy, Nat.add_zero]
      rw [hdrop, hshl, base_split hn.le, Nat.mul_div_mul_right _ _ (Nat.two_pow_pos _)]
    · exact magnitude_primitiveShr hpos hn (w :: ws)

lemma normalizedDivisor_spec {d : UInt32} (e : UInt32) (ds : Words) (hd : d ≠ 0) :
    shiftOf (d :: e :: ds) < 32 ∧ ∃ dh dl ds', normalizedDivisor (d :: e :: ds) = dh :: dl :: ds'
      ∧ ds'.length = ds.length
      ∧ magnitude (dh :: dl :: ds') = magnitude (d :: e :: ds) * 2 ^ shiftOf (d :: e :: ds) := by
  obtain ⟨hlow, hhigh⟩ := countLeadingZeros32_spec hd
  have hdpos : 1 ≤ d.toNat := toNat_pos hd
  have hfit := lt_of_le_countLeadingZeros32 (le_refl (countLeadingZeros32 d))
  have hlt : countLeadingZeros32 d < 32 := by
    by_contra hge
    have hpow : 2 ^ 32 ≤ 2 ^ countLeadingZeros32 d :=
      Nat.pow_le_pow_right (by norm_num) (not_lt.mp hge)
    nlinarith
  rw [normalizedDivisor, shiftOf, headD_cons]
  refine ⟨hlt, ?_⟩
  generalize countLeadingZeros32 d = n at *
  rcases Nat.eq_zero_or_pos n with rfl | hpos
  · exact ⟨d, e, ds, by simp, rfl, by simp⟩
  · obtain ⟨dl, ds', htail⟩ := exists_cons_of_length_eq_add_one
      (show (primitiveShl n (e :: ds)).length = ds.length + 1 by simp [primitiveShl_length])
    have hlen := congrArg List.length htail
    rw [primitiveShl_length] at hlen
    have hshl := magnitude_primitiveShl_of_lt hpos hlt (e :: ds) hfit
    rw [primitiveShl, htail] at hshl
    exact ⟨_, dl, ds', by rw [if_pos hpos, primitiveShl, htail], by simpa using hlen.symm, hshl⟩

lemma normalizedDividend_spec (hn : n < 32) (lhs : Words) :
    (normalizedDividend lhs n).length = lhs.length + 1
      ∧ ∃ g < 2 ^ n, magnitude (normalizedDividend lhs n) = magnitude lhs * 2 ^ n + g := by
  rw [normalizedDividend]
  rcases Nat.eq_zero_or_pos n with rfl | hpos
  · exact ⟨by simp, 0, by simp, by simp [magnitude_zero_cons]⟩
  · obtain ⟨g, hg, hmag, hlen⟩ := shl_spec hpos hn lhs
    rw [if_pos hpos]
    split_ifs with hsame
    · exact ⟨by rw [length_cons, hsame], g, hg, by rw [magnitude_zero_cons, hmag]⟩
    · exact ⟨hlen.resolve_left hsame, g, hg, hmag⟩

lemma magnitude_unshifted (hn : n < 32) (r : Words) :
    magnitude (trim (if 0 < n then shr n r else r)) = magnitude r / 2 ^ n := by
  rw [trim, magnitude_dropWhile]
  split_ifs with hpos
  · exact magnitude_shr hpos hn r
  · simp [Nat.eq_zero_of_not_pos hpos]

lemma polluted_quotient {x g d : ℕ} (hg : g < 2 ^ n) : (x * 2 ^ n + g) / (d * 2 ^ n) = x / d := by
  rw [Nat.mul_comm d, ← Nat.div_div_eq_div_mul, Nat.mul_comm x, Nat.mul_add_div (Nat.two_pow_pos n),
    Nat.div_eq_of_lt hg, Nat.add_zero]

lemma polluted_remainder {x g d : ℕ} (hg : g < 2 ^ n) :
    (x * 2 ^ n + g) % (d * 2 ^ n) / 2 ^ n = x % d := by
  rw [Nat.mul_comm d, Nat.mod_mul_right_div_self, Nat.mul_comm x,
    Nat.mul_add_div (Nat.two_pow_pos n), Nat.div_eq_of_lt hg, Nat.add_zero]

end Shifts

/-- The windows of the exact long division of `u` by `v`, both shifted. -/
def longDivision (u v : Words) : List ℕ :=
  let re := normalizedDividend u (shiftOf v)
  windows (magnitude v * 2 ^ shiftOf v) (magnitude (re.take v.length)) (re.drop v.length)

def DivQuotientHolds (u v : Words) : Prop :=
  QuotientHolds v.length (magnitude v * 2 ^ shiftOf v) (longDivision u v)

def DivDigitsHold (u v : Words) : Prop :=
  ∀ w ∈ longDivision u v, QuotientRight v.length (magnitude v * 2 ^ shiftOf v) w
    ∧ RemainderRight v.length (magnitude v * 2 ^ shiftOf v) w

def DivSlips (u v : Words) : Prop :=
  Slips v.length (magnitude v * 2 ^ shiftOf v) (longDivision u v)

instance instDecidableDivQuotientHolds (u v : Words) : Decidable (DivQuotientHolds u v) :=
  inferInstanceAs (Decidable (QuotientHolds _ _ _))

instance instDecidableDivDigitsHold (u v : Words) : Decidable (DivDigitsHold u v) :=
  inferInstanceAs (Decidable (∀ w ∈ longDivision u v, _))

lemma digitsHold_iff (k d : ℕ) (ws : List ℕ) :
    (∀ w ∈ ws, QuotientRight k d w ∧ RemainderRight k d w)
      ↔ QuotientHolds k d ws ∧ ∀ w ∈ ws.getLast?, RemainderRight k d w := by
  rcases eq_nil_or_concat ws with rfl | ⟨vs, v, rfl⟩
  · simp [QuotientHolds]
  · simp only [QuotientHolds, concat_eq_append, dropLast_concat, getLast?_concat,
      forall_mem_append, forall_mem_singleton, mem_def, some_inj, forall_eq']
    constructor
    · rintro ⟨hvs, hv⟩
      exact ⟨⟨⟨fun w hw => (hvs w hw).1, hv.1⟩, fun w hw => (hvs w hw).2⟩, hv.2⟩
    · rintro ⟨⟨⟨hq, hqv⟩, hr⟩, hrv⟩
      exact ⟨fun w hw => ⟨hq w hw, hr w hw⟩, hqv, hrv⟩

/-- The remainder before the first digit is less than the divisor. -/
lemma first_lt {u re : Words} {d : UInt32} {ds : Words} {n g : ℕ} (hd : d ≠ 0)
    (hlen : ds.length ≤ u.length) (hre : re.length = u.length + 1) (hg : g < 2 ^ n)
    (hmag : magnitude re = magnitude u * 2 ^ n + g) :
    magnitude (re.take (d :: ds).length) < magnitude (d :: ds) * 2 ^ n := by
  by_contra hge
  have hsplit := magnitude_append (re.take (d :: ds).length) (re.drop (d :: ds).length)
  have hdrop : (re.drop (d :: ds).length).length = u.length - ds.length := by
    rw [List.length_drop, hre, length_cons]
    omega
  rw [take_append_drop, hdrop, hmag] at hsplit
  have hlead : base ^ ds.length ≤ magnitude (d :: ds) := by
    rw [magnitude_cons]
    exact (Nat.le_mul_of_pos_left _ (toNat_pos hd)).trans (Nat.le_add_right _ _)
  have hu : magnitude u + 1 ≤ base ^ u.length := magnitude_lt u
  have hlarge : base ^ u.length * 2 ^ n ≤ magnitude u * 2 ^ n + g :=
    calc base ^ u.length * 2 ^ n
        = base ^ ds.length * 2 ^ n * base ^ (u.length - ds.length) := by
          rw [Nat.mul_right_comm, ← pow_add, Nat.add_sub_cancel' hlen]
      _ ≤ magnitude (re.take (d :: ds).length) * base ^ (u.length - ds.length) :=
          Nat.mul_le_mul_right _ ((Nat.mul_le_mul_right _ hlead).trans (not_lt.mp hge))
      _ ≤ magnitude u * 2 ^ n + g := hsplit ▸ Nat.le_add_right _ _
  have hsmall := Nat.mul_le_mul_right (2 ^ n) hu
  rw [Nat.add_mul, Nat.one_mul] at hsmall
  omega

lemma eq_of_div_modEq {a b n : ℕ} (hn : n ≤ 32) (hdiv : a / 2 ^ n = b / 2 ^ n)
    (hmod : a ≡ b [MOD base]) : a = b := by
  have hdvd : 2 ^ n ∣ base := pow_dvd_pow 2 hn
  rw [← Nat.div_add_mod a (2 ^ n), ← Nat.div_add_mod b (2 ^ n), hdiv, hmod.of_dvd hdvd]

/-- Long division by several words has a result, whose quotient and remainder are right if those
of the digits are, and otherwise only if a wrong remainder is made good by a later digit. -/
theorem divMagnitude_spec {u : Words} {d e : UInt32} {ds : Words} (hd : d ≠ 0)
    (hlen : ds.length + 1 ≤ u.length) :
    ∃ q r, divMagnitude u (d :: e :: ds) = some (q, r)
      ∧ (DivQuotientHolds u (d :: e :: ds) →
        magnitude q = magnitude u / magnitude (d :: e :: ds))
      ∧ (DivDigitsHold u (d :: e :: ds) →
        magnitude r = magnitude u % magnitude (d :: e :: ds))
      ∧ (magnitude q = magnitude u / magnitude (d :: e :: ds) →
        DivQuotientHolds u (d :: e :: ds) ∨ DivSlips u (d :: e :: ds))
      ∧ (magnitude q = magnitude u / magnitude (d :: e :: ds) →
        magnitude r = magnitude u % magnitude (d :: e :: ds) →
        DivDigitsHold u (d :: e :: ds) ∨ DivSlips u (d :: e :: ds)) := by
  obtain ⟨hn, dh, dl, ds', hdiv, hds, hD⟩ := normalizedDivisor_spec e ds hd
  obtain ⟨hrelen, g, hg, hR⟩ := normalizedDividend_spec hn u
  have hguard : ¬ ((d :: e :: ds) = [] ∨ (d :: e :: ds).headD 0 = 0
      ∨ u.length + 1 < (d :: e :: ds).length) := by
    rw [headD_cons, length_cons, length_cons]
    rintro (h | h | h)
    · cases h
    · exact hd h
    · omega
  have hk : (dh :: dl :: ds').length = (d :: e :: ds).length := by simp [hds]
  have hfirst := first_lt hd (show (e :: ds).length ≤ u.length from hlen) hrelen hg hR
  rw [divMagnitude, if_neg hguard, hdiv, DivQuotientHolds, DivDigitsHold, DivSlips, longDivision,
    digitsHold_iff]
  generalize normalizedDividend u (shiftOf (d :: e :: ds)) = re at *
  generalize hK : (d :: e :: ds).length = k at *
  have hrest : (re.drop k).length = u.length + 1 - k := by rw [List.length_drop, hrelen]
  obtain ⟨qs, r, hrun⟩ : ∃ qs r,
      divDigits (dh :: dl :: ds') (List.range (u.length + 1 - k)) re = some (qs, r) := by
    obtain ⟨qs, r, hrun, -⟩ := @divDigits_some dh dl ds' (List.range (u.length + 1 - k)) re
      fun j hj => by
        have := mem_range.mp hj
        simp only [length_cons] at hk
        omega
    exact ⟨qs, r, hrun⟩
  have hdigits : divDigits (dh :: dl :: ds') (List.range' 0 (re.drop k).length)
      (List.replicate 0 0 ++ (re.take k ++ re.drop k)) = some (qs, r) := by
    rw [hrest, ← range_eq_range', replicate_zero, nil_append, take_append_drop]
    exact hrun
  have hspec := divDigits_run hk hD
    (length_take_of_le (by simp only [length_cons] at hK; omega)) hfirst hdigits
  rw [← magnitude_append, take_append_drop, hR] at hspec
  have hquot := polluted_quotient (x := magnitude u) (d := magnitude (d :: e :: ds)) hg
  have hrem := polluted_remainder (x := magnitude u) (d := magnitude (d :: e :: ds)) hg
  have hq : magnitude (trim qs) = magnitude qs := magnitude_dropWhile qs
  have hr := magnitude_unshifted hn r
  refine ⟨_, _, by rw [hrun, map_some], fun h => ?_, fun h => ?_, fun h => ?_, fun h h' => ?_⟩
  · rw [hq, hspec.quotient h, hquot]
  · rw [hr, (hspec.remainder h.1).mpr h.2, hrem]
  · rw [hq, ← hquot] at h
    exact hspec.only h
  · rw [hq, ← hquot] at h
    rw [hr, ← hrem] at h'
    refine (hspec.only h).imp_left fun hholds => ⟨hholds, ?_⟩
    exact (hspec.remainder hholds).mp (eq_of_div_modEq hn.le h' (hspec.lowest hholds))

def DivMagnitudeExact (u v : Words) : Prop :=
  ∃ q r, divMagnitude u v = some (q, r) ∧ magnitude u = magnitude q * magnitude v + magnitude r
    ∧ magnitude r < magnitude v

/-- What any result needs: a divisor that starts with a word other than zero and has at most one
word more than the dividend, and two words for the estimates if there is a word to divide. -/
def DivMagnitudeDefined (u v : Words) : Prop :=
  v.headD 0 ≠ 0 ∧ v.length ≤ u.length + 1 ∧ (v.length = 1 → u = [])

/-- At each window of the exact long division the digit is found, and no borrow is lost or made up
when it is multiplied back. -/
def DivMagnitudeHolds (u v : Words) : Prop :=
  DivMagnitudeDefined u v ∧ (v.length ≠ 1 → DivDigitsHold u v)

lemma divRaw_many {v : Words} (u : Words) (h : v.length ≠ 1) : divRaw u v = divMagnitude u v := by
  match v with
  | [] => rfl
  | [d] => exact absurd rfl h
  | d :: e :: ds => rfl

variable {u v : Words}

lemma divMagnitude_of_guard
    (h : v = [] ∨ v.headD 0 = 0 ∨ u.length + 1 < v.length) : divMagnitude u v = none := by
  rw [divMagnitude, if_pos h]

lemma divMagnitude_short (h : u.length + 1 < v.length) : divMagnitude u v = none :=
  divMagnitude_of_guard (.inr (.inr h))

lemma divDigits_one_word (d : UInt32) (n : ℕ) (re : Words) :
    divDigits [d] (List.range (n + 1)) re = none := by
  rw [range_succ_eq_map, divDigits, show divDigit [d] re 0 = none from rfl, bind_none]

lemma divMagnitude_nil {d : UInt32} (hd : d ≠ 0) : divMagnitude [] [d] = some ([], []) := by
  have hzero : countLeadingZeros32 0 = 32 := by decide
  rw [divMagnitude]
  by_cases hshift : 0 < countLeadingZeros32 d
  · simp [hd, hshift, shiftOf, normalizedDividend, shl, shr, hzero, divDigits, trim, primitiveShl]
  · simp [hd, hshift, shiftOf, normalizedDividend, divDigits, trim]

lemma DivMagnitudeExact.defined (h : DivMagnitudeExact u v) :
    DivMagnitudeDefined u v := by
  obtain ⟨q, r, hres, -⟩ := h
  have hguard : ¬ (v = [] ∨ v.headD 0 = 0 ∨ u.length + 1 < v.length) := fun hbad => by
    rw [divMagnitude_of_guard hbad] at hres
    cases hres
  refine ⟨fun hd => hguard (.inr (.inl hd)), by
    by_contra hlong
    exact hguard (.inr (.inr (not_le.mp hlong))), fun hone => ?_⟩
  obtain ⟨d, rfl⟩ := length_eq_one_iff.mp hone
  by_contra hu
  obtain ⟨n, hn⟩ := Nat.exists_eq_add_one.mpr (length_pos_of_ne_nil hu)
  obtain ⟨d', hd'⟩ : ∃ d', normalizedDivisor [d] = [d'] := by
    rw [normalizedDivisor]
    split_ifs
    · exact ⟨_, rfl⟩
    · exact ⟨d, rfl⟩
  rw [divMagnitude, if_neg hguard, hd', hn, length_singleton, Nat.add_sub_cancel,
    divDigits_one_word, map_none] at hres
  cases hres

lemma DivMagnitudeHolds.exact (h : DivMagnitudeHolds u v) : DivMagnitudeExact u v := by
  obtain ⟨⟨hhead, hlen, hone⟩, hexact⟩ := h
  match v with
  | [] => exact absurd rfl hhead
  | [d] =>
    have hd : d ≠ 0 := hhead
    rw [hone rfl]
    refine ⟨[], [], divMagnitude_nil hd, ?_, magnitude_pos [] (toNat_pos hd)⟩
    simp [magnitude, low]
  | d :: e :: ds =>
    have hdigits := hexact (by simp)
    obtain ⟨q, r, hres, hq, hr, -⟩ :=
      divMagnitude_spec (e := e) (show d ≠ 0 from hhead) (by simpa using hlen)
    refine ⟨q, r, hres, ?_, ?_⟩
    · rw [hq ((digitsHold_iff _ _ _).mp hdigits).1, hr hdigits, Nat.mul_comm, Nat.div_add_mod]
    · rw [hr hdigits]
      exact Nat.mod_lt _ (magnitude_pos _ (toNat_pos hhead))

section OneWord

variable {k d w : ℕ}

lemma carryAt_one (d w i : ℕ) : carryAt 1 d w i = 0 := by
  induction i with
  | zero => rfl
  | succ i ih =>
    have hlt := digit_lt d i
    have hsmall : ¬ 2 ^ 63 + digit w i < digit d i := by
      rw [base] at hlt
      omega
    rw [carryAt, ih, Nat.mul_one, Nat.add_zero, Nat.div_eq_of_lt hlt, if_neg hsmall]

/-- A zero digit always leaves its remainder. -/
lemma remainderRight_of_lt (hd : d < base ^ k) (hw : w < d) (hqr : QuotientRight k d w) :
    RemainderRight k d w := by
  have hhead : digit w k = 0 := by
    rw [digit, Nat.div_eq_of_lt (hw.trans hd), Nat.zero_mod]
  have hquot : w / d = 0 := Nat.div_eq_of_lt hw
  have htaken : ∀ x ≤ 1, (triedAt k d w).toNat = x → ¬ TakenBack k d w := by
    intro x hx hx'
    have hcarry : carryAt x d w k = 0 := by
      interval_cases x
      · exact carryAt_zero d w k
      · exact carryAt_one d w k
    rw [TakenBack, hx', hcarry, hhead]
    exact lt_irrefl _
  have htried : triedAt k d w = 0 := by
    rw [QuotientRight, hquot, digitAt] at hqr
    split_ifs at hqr with hest hback
    · rw [triedAt]
      split_ifs with hskip
      · exact hest
      · rw [hest, correct_zero]
    · have hone : triedAt k d w - 1 = 0 := UInt32.toNat_inj.mp hqr
      have : triedAt k d w = 1 := by rwa [sub_eq_zero] at hone
      exact absurd hback (htaken 1 le_rfl (by rw [this]; rfl))
    · exact UInt32.toNat_inj.mp hqr
  have hzero : (triedAt k d w).toNat = 0 := by rw [htried]; rfl
  refine ⟨?_, fun i _ => ?_⟩
  · rw [hzero, hquot, if_neg (htaken 0 (by omega) hzero)]
  · rw [hzero]
    exact borrowFound_zero d w i

lemma windows_lt {r : ℕ} {ws : Words} (hr : r < d)
    (h : (r * base ^ ws.length + magnitude ws) / d < base) :
    ∀ w ∈ (windows d r ws).dropLast, w < d := by
  induction ws generalizing r with
  | nil => simp [windows]
  | cons w ws ih =>
    have hpos : 0 < d := by omega
    cases ws with
    | nil => simp [windows]
    | cons v ws =>
      rw [magnitude_cons, length_cons, quotient_split] at h
      have hle : base ≤ base ^ (v :: ws).length := Nat.le_self_pow (by simp) base
      have hzero : (r * base + w.toNat) / d = 0 := by
        by_contra hne
        have hdigit := Nat.le_mul_of_pos_left (base ^ (v :: ws).length) (Nat.pos_of_ne_zero hne)
        exact absurd h (not_lt.mpr (hle.trans (hdigit.trans (Nat.le_add_right _ _))))
      rw [hzero, Nat.zero_mul, Nat.zero_add] at h
      rw [windows, dropLast_cons_of_ne_nil (by simp [windows])]
      intro x hx
      rcases mem_cons.mp hx with rfl | hx
      · exact (Nat.div_eq_zero_iff_lt hpos).mp hzero
      · exact ih (Nat.mod_lt _ hpos) h x hx

/-- No remainder goes wrong before the last digit when the others are zero. -/
lemma not_divSlips {u : Words} {d e : UInt32} {ds : Words} (hd : d ≠ 0)
    (hlen : ds.length + 1 ≤ u.length) (hsmall : magnitude u / magnitude (d :: e :: ds) < base) :
    ¬ DivSlips u (d :: e :: ds) := by
  obtain ⟨hn, dh, dl, ds', -, hds, hD⟩ := normalizedDivisor_spec e ds hd
  obtain ⟨hrelen, g, hg, hR⟩ := normalizedDividend_spec hn u
  have hfirst := first_lt hd (show (e :: ds).length ≤ u.length from hlen) hrelen hg hR
  have hdlt : magnitude (d :: e :: ds) * 2 ^ shiftOf (d :: e :: ds)
      < base ^ (d :: e :: ds).length := by
    have hlt := magnitude_lt (dh :: dl :: ds')
    rw [hD, length_cons, length_cons, hds] at hlt
    exact hlt
  rintro ⟨w, hw, hqr, hrr⟩
  refine hrr (remainderRight_of_lt hdlt (windows_lt hfirst ?_ w hw) hqr)
  rw [← magnitude_append, take_append_drop, hR, polluted_quotient hg]
  exact hsmall

end OneWord

lemma DivMagnitudeExact.holds_or_slips (h : DivMagnitudeExact u v) :
    DivMagnitudeHolds u v
      ∨ (DivMagnitudeDefined u v ∧ DivSlips u v ∧ base ≤ magnitude u / magnitude v) := by
  have hdefined := h.defined
  obtain ⟨q, r, hres, heq, hlt⟩ := h
  obtain ⟨hhead, hlen, hone⟩ := hdefined
  match v with
  | [] => exact absurd rfl hhead
  | [d] => exact .inl ⟨⟨hhead, hlen, hone⟩, fun hne => absurd rfl hne⟩
  | d :: e :: ds =>
    have hd : d ≠ 0 := hhead
    have hlen' : ds.length + 1 ≤ u.length := by simpa using hlen
    obtain ⟨q', r', hres', -, -, -, honly⟩ := divMagnitude_spec (e := e) hd hlen'
    obtain ⟨rfl, rfl⟩ := Prod.mk.inj (Option.some.inj (hres.symm.trans hres'))
    obtain ⟨hq, hr⟩ := (Nat.div_mod_unique (by omega)).mpr
      ⟨show magnitude r + magnitude (d :: e :: ds) * magnitude q = magnitude u by
        rw [heq]; ring, hlt⟩
    rcases honly hq.symm hr.symm with hdigits | hslips
    · exact .inl ⟨⟨hhead, hlen, hone⟩, fun _ => hdigits⟩
    · refine .inr ⟨⟨hhead, hlen, hone⟩, hslips, ?_⟩
      by_contra hsmall
      exact not_divSlips hd hlen' (not_le.mp hsmall) hslips

/-- Multi-word division is exact if every digit is. Otherwise it can be so only for a quotient of
several words, when a remainder that one digit got wrong is made good by a later one. -/
theorem divMagnitude_exact (u v : Words) :
    (DivMagnitudeHolds u v → DivMagnitudeExact u v)
      ∧ (DivMagnitudeExact u v → DivMagnitudeHolds u v
        ∨ (DivMagnitudeDefined u v ∧ DivSlips u v ∧ base ≤ magnitude u / magnitude v)) :=
  ⟨fun h => h.exact, fun h => h.holds_or_slips⟩

theorem divMagnitude_exact_three : DivMagnitudeExact [1, 0, 0] [1, 0] := by
  have hholds : DivMagnitudeHolds [1, 0, 0] [1, 0] :=
    ⟨⟨by decide, by decide, by decide⟩, fun _ => by decide +kernel⟩
  exact (divMagnitude_exact [1, 0, 0] [1, 0]).1 hholds

-- The first digit loses a borrow here, and the second makes it up.
example : divMagnitude [12, 9, 0xffffffff] [7, 2] = some ([1, 0xb6db6db7], [5, 0x92492491])
    ∧ Slips 2 (magnitude [7, 2] * 2 ^ shiftOf [7, 2])
      (longDivision [12, 9, 0xffffffff] [7, 2]) := by
  decide +kernel

/-- When the square of `10 ^ 12` is divided by it, the quotient is one less and all of `10 ^ 12` is
left. -/
theorem divMagnitude_square :
    ¬DivMagnitudeExact [0xd3c2, 0x1bcecced, 0xa1000000] [0xe8, 0xd4a51000] := by
  have hrun : divMagnitude [0xd3c2, 0x1bcecced, 0xa1000000] [0xe8, 0xd4a51000] =
      some ([0xe8, 0xd4a50fff], [0xe8, 0xd4a51000]) := by decide +kernel
  rintro ⟨q, r, hres, -, hlt⟩
  cases hrun.symm.trans hres
  exact absurd hlt (by decide)

end Mai.CoreDecimal
