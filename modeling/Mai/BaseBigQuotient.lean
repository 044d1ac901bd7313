import Mai.BaseBig

/-!
# Quotients by one word

`DivWord` carries the remainder over from word to word. A remainder and a word are
a number of 64 bits; when it has its highest bit set, it is divided by halving
both sides first. The quotient of the halves can be too large when the divisor
is odd, and the loop that was to correct it never runs, since it waits for an
unsigned number to be negative.
-/
namespace Mai.BaseBig
open List

def countLeadingZeros32 (x : UInt32) : ℕ :=
  let zval : List ℕ := [4, 3, 2, 2, 1, 1, 1, 1, 0, 0, 0, 0, 0, 0, 0, 0]
  let a := if x &&& 0xFFFF0000 = 0 then (16, x <<< 16) else (0, x)
  let b := if a.2 &&& 0xFF000000 = 0 then (a.1 + 8, a.2 <<< 8) else a
  let c := if b.2 &&& 0xF0000000 = 0 then (b.1 + 4, b.2 <<< 4) else b
  c.1 + zval.getD (c.2 >>> 28).toNat 0

def divHalves (n d : UInt64) : UInt32 × UInt32 :=
  if d = 1 then (n.toUInt32, 0)
  else
    let q := (n >>> 1) / (d >>> 1)
    (q.toUInt32, (n - q * d).toUInt32)

/-- The quotient word and the remainder of `rem` followed by the word `w`. -/
def divStep (divisor rem w : UInt32) : UInt32 × UInt32 :=
  let estimate := rem.toUInt64 <<< 32 ||| w.toUInt64
  if estimate < 0x8000000000000000 then
    let q := (estimate / divisor.toUInt64).toUInt32
    (q, (estimate - q.toUInt64 * divisor.toUInt64).toUInt32)
  else divHalves estimate divisor.toUInt64

def divLoop (divisor : UInt32) : UInt32 → Words → Words × UInt32
  | rem, w :: ws =>
    let step := divStep divisor rem w
    let rest := divLoop divisor step.2 ws
    (step.1 :: rest.1, rest.2)
  | rem, [] => ([], rem)

def divFirst (divisor w : UInt32) : UInt32 × UInt32 :=
  if w.toUInt64 < divisor.toUInt64 then (0, w)
  else
    let d := (w.toUInt64 / divisor.toUInt64).toUInt32
    (d, (w.toUInt64 - d.toUInt64 * divisor.toUInt64).toUInt32)

/-- `DivWord(lhs, rhs, rv)` for a result of the length of `lhs`. There is no word to read or to
write when `lhs` is empty. -/
def divWord (lhs : Words) (rhs : UInt32) : Option (Words × UInt32) :=
  if rhs = 0 then none
  else match lhs with
    | [] => none
    | [w] =>
      let q := (w.toUInt64 / rhs.toUInt64).toUInt32
      some ([q], (w.toUInt64 - q.toUInt64 * rhs.toUInt64).toUInt32)
    | w :: ws =>
      let first := divFirst rhs w
      let rest := divLoop rhs first.2 ws
      some (first.1 :: rest.1,
        if 0 < countLeadingZeros32 rhs then rest.2 % rhs else rest.2)

/-- The quotient of `n` is found: `n` is not halved, or halving it does not matter. -/
def EstimateExact (d n : ℕ) : Prop := n < 2 ^ 63 ∨ n / 2 / (d / 2) = n / d

def Estimable (d : ℕ) : ℕ → Words → Prop
  | r, w :: ws => EstimateExact d (r * base + w.toNat) ∧ Estimable d ((r * base + w.toNat) % d) ws
  | _, [] => True

lemma estimateExact_of_even {d : ℕ} (n : ℕ) (hd : 2 ∣ d) : EstimateExact d n := by
  right
  rw [Nat.div_div_eq_div_mul, Nat.mul_div_cancel' hd]

lemma estimateExact_of_le {d r : ℕ} (w : UInt32) (hd : d ≤ 2 ^ 31) (hr : r < d) :
    EstimateExact d (r * base + w.toNat) := by
  left
  have hw := w.toNat_lt
  rw [base]
  omega

lemma div_le_halves {d : ℕ} (n : ℕ) (hd : 2 ≤ d) : n / d ≤ n / 2 / (d / 2) := by
  rw [Nat.div_div_eq_div_mul]
  exact Nat.div_le_div_left (Nat.mul_div_le d 2) (by omega)

lemma halves_lt {d n : ℕ} (hd : 2 ^ 31 ≤ d) (hdlt : d < 2 ^ 32) (hn : n < d * 2 ^ 32) :
    n / 2 / (d / 2) < n / d + 2 ^ 32 := by
  by_contra hle
  have hq : n / d < 2 ^ 32 := Nat.div_lt_of_lt_mul hn
  have hmul : (n / d + 2 ^ 32) * (2 * (d / 2)) ≤ n :=
    calc (n / d + 2 ^ 32) * (2 * (d / 2)) ≤ n / 2 / (d / 2) * (2 * (d / 2)) :=
          Nat.mul_le_mul_right _ (not_lt.mp hle)
      _ ≤ n := by
          rw [Nat.div_div_eq_div_mul]
          exact Nat.div_mul_le_self n _
  have hlt : n < (n / d + 1) * d := by
    have := Nat.lt_div_mul_add (a := n) (b := d) (by omega)
    rw [Nat.add_mul, Nat.one_mul]
    exact this
  have hhalf : d ≤ 2 * (d / 2) + 1 := by omega
  have hmul' : (n / d + 2 ^ 32) * (d - 1) ≤ n :=
    le_trans (Nat.mul_le_mul_left _ (by omega)) hmul
  obtain ⟨k, rfl⟩ : ∃ k, d = k + 1 := ⟨d - 1, by omega⟩
  rw [Nat.add_sub_cancel] at hmul'
  generalize n / (k + 1) = q at *
  nlinarith

lemma toNat_estimate (rem w : UInt32) :
    (rem.toUInt64 <<< 32 ||| w.toUInt64).toNat = rem.toNat * base + w.toNat := by
  have hrem := rem.toNat_lt
  have hw := w.toNat_lt
  have hshift : (rem.toUInt64 <<< 32).toNat = rem.toNat * 2 ^ 32 := by
    rw [UInt64.toNat_shiftLeft, UInt32.toNat_toUInt64]
    simp [Nat.shiftLeft_eq]
    omega
  rw [UInt64.toNat_or, hshift, UInt32.toNat_toUInt64, Nat.mul_comm, base,
    ← Nat.two_pow_add_eq_or_of_lt hw, Nat.mul_comm]

variable {n d : UInt64}

lemma narrow_div (hd : d.toNat < base) (hq : n.toNat / d.toNat < base) (hpos : 0 < d.toNat) :
    (n / d).toUInt32.toNat = n.toNat / d.toNat
      ∧ (n - (n / d).toUInt32.toUInt64 * d).toUInt32.toNat = n.toNat % d.toNat := by
  have hquot : (n / d).toUInt32.toNat = n.toNat / d.toNat := by
    rw [UInt64.toNat_toUInt32, UInt64.toNat_div]
    exact Nat.mod_eq_of_lt hq
  refine ⟨hquot, ?_⟩
  have hn := n.toNat_lt
  have hmul : n.toNat / d.toNat * d.toNat ≤ n.toNat := Nat.div_mul_le_self _ _
  have hdiv := Nat.div_add_mod' n.toNat d.toNat
  have hlt := Nat.mod_lt n.toNat hpos
  have hprod : ((n / d).toUInt32.toUInt64 * d).toNat = n.toNat / d.toNat * d.toNat := by
    rw [UInt64.toNat_mul, UInt32.toNat_toUInt64, hquot]
    exact Nat.mod_eq_of_lt (by omega)
  rw [UInt64.toNat_toUInt32, UInt64.toNat_sub, hprod]
  rw [base] at *
  omega

lemma divHalves_fst (hd : d ≠ 1) :
    (divHalves n d).1.toNat = n.toNat / 2 / (d.toNat / 2) % base := by
  rw [divHalves, if_neg hd, UInt64.toNat_toUInt32, UInt64.toNat_div, UInt64.toNat_shiftRight,
    UInt64.toNat_shiftRight]
  simp [Nat.shiftRight_eq_div_pow, base]

lemma divHalves_snd (hd : d ≠ 1) (hdpos : 0 < d.toNat) (hdlt : d.toNat < base)
    (hexact : n.toNat / 2 / (d.toNat / 2) = n.toNat / d.toNat) :
    (divHalves n d).2.toNat = n.toNat % d.toNat := by
  have hq : ((n >>> 1) / (d >>> 1)).toNat = n.toNat / d.toNat := by
    rw [UInt64.toNat_div, UInt64.toNat_shiftRight, UInt64.toNat_shiftRight, ← hexact]
    simp [Nat.shiftRight_eq_div_pow]
  have hn := n.toNat_lt
  have hmul : n.toNat / d.toNat * d.toNat ≤ n.toNat := Nat.div_mul_le_self _ _
  have hdiv := Nat.div_add_mod' n.toNat d.toNat
  have hlt := Nat.mod_lt n.toNat hdpos
  have hprod : ((n >>> 1) / (d >>> 1) * d).toNat = n.toNat / d.toNat * d.toNat := by
    rw [UInt64.toNat_mul, hq]
    exact Nat.mod_eq_of_lt (by omega)
  rw [divHalves, if_neg hd, UInt64.toNat_toUInt32, UInt64.toNat_sub, hprod]
  rw [base] at *
  omega

variable {divisor rem : UInt32}

lemma divStep_exact (w : UInt32) (hrem : rem.toNat < divisor.toNat)
    (h : EstimateExact divisor.toNat (rem.toNat * base + w.toNat)) :
    (divStep divisor rem w).1.toNat = (rem.toNat * base + w.toNat) / divisor.toNat
      ∧ (divStep divisor rem w).2.toNat = (rem.toNat * base + w.toNat) % divisor.toNat := by
  have hest := toNat_estimate rem w
  have hw : w.toNat < base := w.toNat_lt
  have hd : divisor.toUInt64.toNat = divisor.toNat := UInt32.toNat_toUInt64 divisor
  have hdlt : divisor.toNat < base := divisor.toNat_lt
  have hq : (rem.toNat * base + w.toNat) / divisor.toNat < base := by
    apply Nat.div_lt_of_lt_mul
    rw [base] at *
    omega
  rw [divStep]
  split_ifs with hsmall
  · rw [← hest, ← hd]
    exact narrow_div (hd ▸ hdlt) (by rw [hest, hd]; exact hq) (by omega)
  · have hlarge : 2 ^ 63 ≤ rem.toNat * base + w.toNat := by
      rw [← hest]
      exact not_lt.mp (fun hlt => hsmall (UInt64.lt_iff_toNat_lt.mpr hlt))
    have hexact := h.resolve_left (by omega)
    have hone : divisor.toUInt64 ≠ 1 := by
      intro heq
      rw [heq] at hd
      rw [← hd, base] at *
      simp at *
      omega
    constructor
    · rw [divHalves_fst hone, hest, hd, hexact, Nat.mod_eq_of_lt hq]
    · rw [divHalves_snd hone (by omega) (by omega) (by rw [hest, hd, hexact]), hest, hd]

lemma estimateExact_of_divStep {divisor rem w : UInt32} (hrem : rem.toNat < divisor.toNat)
    (h : (divStep divisor rem w).1.toNat = (rem.toNat * base + w.toNat) / divisor.toNat) :
    EstimateExact divisor.toNat (rem.toNat * base + w.toNat) := by
  have hest := toNat_estimate rem w
  have hw : w.toNat < base := w.toNat_lt
  have hd : divisor.toUInt64.toNat = divisor.toNat := UInt32.toNat_toUInt64 divisor
  have hdlt : divisor.toNat < base := divisor.toNat_lt
  rcases Nat.lt_or_ge (rem.toNat * base + w.toNat) (2 ^ 63) with hsmall | hlarge
  · exact .inl hsmall
  · right
    have hn : rem.toNat * base + w.toNat < divisor.toNat * 2 ^ 32 := by
      rw [base] at *
      omega
    have hbig : 2 ^ 31 ≤ divisor.toNat := by
      rw [base] at *
      omega
    have hone : divisor.toUInt64 ≠ 1 := by
      intro heq
      rw [heq] at hd
      simp at hd
      omega
    have hnot : ¬ (rem.toUInt64 <<< 32 ||| w.toUInt64) < 0x8000000000000000 := by
      intro hlt
      have := UInt64.lt_iff_toNat_lt.mp hlt
      rw [hest] at this
      simp at this
      omega
    rw [divStep, if_neg hnot, divHalves_fst hone, hest, hd] at h
    have hle := div_le_halves (rem.toNat * base + w.toNat) (by omega : 2 ≤ divisor.toNat)
    have hlt := halves_lt hbig hdlt hn
    have hq : (rem.toNat * base + w.toNat) / divisor.toNat < 2 ^ 32 := Nat.div_lt_of_lt_mul hn
    rw [base] at h hq hle hlt ⊢
    omega

lemma divLoop_length (divisor rem : UInt32) (ws : Words) :
    (divLoop divisor rem ws).1.length = ws.length := by
  induction ws generalizing rem with
  | nil => rfl
  | cons w ws ih => simp [divLoop, ih]

lemma quotient_split (d r w n m : ℕ) :
    (r * base ^ (n + 1) + (w * base ^ n + m)) / d
      = (r * base + w) / d * base ^ n + ((r * base + w) % d * base ^ n + m) / d := by
  have hsplit : r * base ^ (n + 1) + (w * base ^ n + m)
      = d * ((r * base + w) / d * base ^ n) + ((r * base + w) % d * base ^ n + m) := by
    have hdiv := Nat.div_add_mod (r * base + w) d
    calc r * base ^ (n + 1) + (w * base ^ n + m) = (r * base + w) * base ^ n + m := by
          rw [pow_succ]
          ring
      _ = (d * ((r * base + w) / d) + (r * base + w) % d) * base ^ n + m := by rw [hdiv]
      _ = _ := by ring
  rcases Nat.eq_zero_or_pos d with rfl | hd
  · simp
  · rw [hsplit, Nat.mul_add_div hd]

lemma remainder_split (d r w n m : ℕ) :
    (r * base ^ (n + 1) + (w * base ^ n + m)) % d = ((r * base + w) % d * base ^ n + m) % d := by
  have hsplit : r * base ^ (n + 1) + (w * base ^ n + m) = (r * base + w) * base ^ n + m := by
    rw [pow_succ]
    ring
  rw [hsplit]
  exact ((Nat.mod_modEq (r * base + w) d).symm.mul_right (base ^ n)).add_right m

lemma place_inj {q q' r r' b : ℕ} (hr : r < b) (hr' : r' < b) (h : q * b + r = q' * b + r') :
    q = q' ∧ r = r' := by
  have hpos : 0 < b := by omega
  have hdiv := congrArg (· / b) h
  simp only [Nat.mul_comm _ b, Nat.mul_add_div hpos, Nat.div_eq_of_lt hr, Nat.div_eq_of_lt hr',
    Nat.add_zero] at hdiv
  subst hdiv
  exact ⟨rfl, Nat.add_left_cancel h⟩

lemma rest_lt {d r m n : ℕ} (hr : r < d) (hm : m < base ^ n) :
    (r * base ^ n + m) / d < base ^ n := by
  apply Nat.div_lt_of_lt_mul
  calc r * base ^ n + m < (r + 1) * base ^ n := by rw [Nat.add_mul]; omega
    _ ≤ d * base ^ n := Nat.mul_le_mul_right _ hr

lemma divLoop_exact {ws : Words} (hrem : rem.toNat < divisor.toNat)
    (h : Estimable divisor.toNat rem.toNat ws) :
    magnitude (divLoop divisor rem ws).1
        = (rem.toNat * base ^ ws.length + magnitude ws) / divisor.toNat
      ∧ (divLoop divisor rem ws).2.toNat
        = (rem.toNat * base ^ ws.length + magnitude ws) % divisor.toNat := by
  induction ws generalizing rem with
  | nil =>
    simp only [divLoop, length_nil, pow_zero, Nat.mul_one]
    exact ⟨by simp [magnitude, low, Nat.div_eq_of_lt hrem],
      by simp [magnitude, low, Nat.mod_eq_of_lt hrem]⟩
  | cons w ws ih =>
    obtain ⟨hfirst, hrest⟩ := h
    obtain ⟨hq, hr⟩ := divStep_exact w hrem hfirst
    rw [← hr] at hrest
    obtain ⟨hquot, hmod⟩ := ih (by rw [hr]; exact Nat.mod_lt _ (by omega)) hrest
    simp only [divLoop, length_cons, magnitude_cons, divLoop_length]
    rw [quotient_split, remainder_split, hquot, hmod, hq, hr]
    exact ⟨rfl, rfl⟩

lemma estimable_of_divLoop {ws : Words} (hrem : rem.toNat < divisor.toNat)
    (h : magnitude (divLoop divisor rem ws).1
      = (rem.toNat * base ^ ws.length + magnitude ws) / divisor.toNat) :
    Estimable divisor.toNat rem.toNat ws := by
  induction ws generalizing rem with
  | nil => trivial
  | cons w ws ih =>
    have hdpos : 0 < divisor.toNat := by omega
    simp only [divLoop, length_cons, magnitude_cons, divLoop_length] at h
    rw [quotient_split] at h
    -- both sides are a leading word and a rest below its place
    have hlow := magnitude_lt (divLoop divisor (divStep divisor rem w).2 ws).1
    rw [divLoop_length] at hlow
    have hrest : ((rem.toNat * base + w.toNat) % divisor.toNat * base ^ ws.length + magnitude ws)
        / divisor.toNat < base ^ ws.length :=
      rest_lt (Nat.mod_lt _ hdpos) (magnitude_lt ws)
    obtain ⟨hlead, hbelow⟩ := place_inj hlow hrest h
    have hfirst := estimateExact_of_divStep hrem hlead
    have hr := (divStep_exact w hrem hfirst).2
    refine ⟨hfirst, ?_⟩
    rw [← hr] at hbelow ⊢
    exact ih (by rw [hr]; exact Nat.mod_lt _ hdpos) hbelow

lemma divFirst_spec {divisor : UInt32} (w : UInt32) (hd : divisor ≠ 0) :
    (divFirst divisor w).1.toNat = w.toNat / divisor.toNat
      ∧ (divFirst divisor w).2.toNat = w.toNat % divisor.toNat := by
  have hdiv : divisor.toUInt64.toNat = divisor.toNat := UInt32.toNat_toUInt64 divisor
  have hword : w.toUInt64.toNat = w.toNat := UInt32.toNat_toUInt64 w
  have hpos : 0 < divisor.toNat := toNat_pos hd
  rw [divFirst]
  split_ifs with hlt
  · rw [UInt64.lt_iff_toNat_lt, hdiv, hword] at hlt
    exact ⟨(Nat.div_eq_of_lt hlt).symm, (Nat.mod_eq_of_lt hlt).symm⟩
  · rw [← hdiv, ← hword]
    exact narrow_div (hdiv ▸ divisor.toNat_lt)
      (by rw [hword]; exact lt_of_le_of_lt (Nat.div_le_self _ _) w.toNat_lt) (hdiv ▸ hpos)

lemma divWord_nil (rhs : UInt32) : divWord [] rhs = none := by
  unfold divWord
  split_ifs <;> rfl

lemma divWord_cons {rhs : UInt32} (w : UInt32) (ws : Words) (hrhs : rhs ≠ 0) :
    ∃ r, divWord (w :: ws) rhs
        = some ((divFirst rhs w).1 :: (divLoop rhs (divFirst rhs w).2 ws).1, r)
      ∧ ((divLoop rhs (divFirst rhs w).2 ws).2.toNat < rhs.toNat
        → r = (divLoop rhs (divFirst rhs w).2 ws).2) := by
  cases ws with
  | nil =>
    obtain ⟨hq, hr⟩ := divFirst_spec w hrhs
    have hdiv : rhs.toUInt64.toNat = rhs.toNat := UInt32.toNat_toUInt64 rhs
    have hword : w.toUInt64.toNat = w.toNat := UInt32.toNat_toUInt64 w
    have hpos : 0 < rhs.toNat := toNat_pos hrhs
    obtain ⟨hq', hr'⟩ := narrow_div (n := w.toUInt64) (d := rhs.toUInt64) (hdiv ▸ rhs.toNat_lt)
      (by rw [hword]; exact lt_of_le_of_lt (Nat.div_le_self _ _) w.toNat_lt) (hdiv ▸ hpos)
    rw [hword, hdiv] at hq' hr'
    refine ⟨_, ?_, fun _ => UInt32.toNat_inj.mp (hr'.trans hr.symm)⟩
    rw [divWord, if_neg hrhs]
    simp only [divLoop, UInt32.toNat_inj.mp (hq'.trans hq.symm)]
  | cons v vs =>
    refine ⟨_, by unfold divWord; rw [if_neg hrhs], fun hlt => ?_⟩
    split_ifs
    · rw [← UInt32.toNat_inj, UInt32.toNat_mod, Nat.mod_eq_of_lt hlt]
    · rfl

theorem divWord_quotient_iff {lhs : Words} {rhs : UInt32} (hrhs : rhs ≠ 0) (hlhs : lhs ≠ []) :
    ∃ q r, divWord lhs rhs = some (q, r) ∧ q.length = lhs.length
      ∧ (magnitude q = magnitude lhs / rhs.toNat ↔ Estimable rhs.toNat 0 lhs)
      ∧ (Estimable rhs.toNat 0 lhs → r.toNat = magnitude lhs % rhs.toNat) := by
  obtain ⟨w, ws, rfl⟩ := exists_cons_of_ne_nil hlhs
  obtain ⟨r, hres, hrem⟩ := divWord_cons w ws hrhs
  obtain ⟨hq, hr⟩ := divFirst_spec w hrhs
  have hpos : 0 < rhs.toNat := toNat_pos hrhs
  have hlt : (divFirst rhs w).2.toNat < rhs.toNat := by
    rw [hr]
    exact Nat.mod_lt _ hpos
  have hfirst : Estimable rhs.toNat 0 (w :: ws)
      ↔ Estimable rhs.toNat (divFirst rhs w).2.toNat ws := by
    have hw : w.toNat < 2 ^ 63 := lt_trans w.toNat_lt (by norm_num)
    rw [Estimable, EstimateExact, Nat.zero_mul, Nat.zero_add, ← hr]
    exact and_iff_right (.inl hw)
  refine ⟨_, r, hres, by simp [divLoop_length], ?_, ?_⟩
  · have hsplit := quotient_split rhs.toNat 0 w.toNat ws.length (magnitude ws)
    rw [Nat.zero_mul, Nat.zero_add, Nat.zero_mul, Nat.zero_add] at hsplit
    rw [hfirst, magnitude_cons, magnitude_cons, divLoop_length, hsplit, hq, Nat.add_left_cancel_iff,
      ← hr]
    exact ⟨estimable_of_divLoop hlt, fun h => (divLoop_exact hlt h).1⟩
  · intro h
    have hmod := (divLoop_exact hlt (hfirst.mp h)).2
    have hsplit := remainder_split rhs.toNat 0 w.toNat ws.length (magnitude ws)
    rw [Nat.zero_mul, Nat.zero_add, Nat.zero_mul, Nat.zero_add] at hsplit
    rw [hrem (by rw [hmod]; exact Nat.mod_lt _ hpos), hmod, magnitude_cons, hsplit, hr]

lemma estimable_of_small {d r : ℕ} (ws : Words) (hd : 2 ∣ d ∨ d ≤ 2 ^ 31) (hr : r < d) :
    Estimable d r ws := by
  induction ws generalizing r with
  | nil => trivial
  | cons w ws ih =>
    refine ⟨?_, ih (Nat.mod_lt _ (by omega))⟩
    rcases hd with heven | hle
    · exact estimateExact_of_even _ heven
    · exact estimateExact_of_le w hle hr

end Mai.BaseBig
