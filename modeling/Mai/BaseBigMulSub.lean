import Mai.BaseBig

/-!
# Multiplying a quotient digit back

`MulSub` takes a digit times the divisor off the leading words of a remainder,
and `DivAdd` puts the divisor back. A word borrows from the next when the product
at its place exceeds it by more than 63 bits, and not when it is larger than the
word: borrows of small products are lost, and large products borrow in vain.
-/
namespace Mai.BaseBig
open List

/-- `MulSub` on words that start at the least significant one. The borrow is found by comparing
`diff` and the complement of the product's low half as signed numbers. -/
def mulSubLoop (x : UInt32) : Words → Words → UInt64 → Words × UInt64
  | q :: qs, a :: as, carry =>
    let product := a.toUInt64 * x.toUInt64 + carry
    let diff := q.toUInt64 - product
    let borrowed : UInt64 :=
      if diff < 0x8000000000000000 ∧ (~~~ product.toUInt32).toUInt64 < diff then 1 else 0
    let rest := mulSubLoop x qs as ((product >>> 32) + borrowed)
    (diff.toUInt32 :: rest.1, rest.2)
  | _, _, carry => ([], carry)

def mulSub (q a : Words) (x : UInt32) : Words × UInt32 :=
  let written := mulSubLoop x q.reverse a.reverse 0
  (written.1.reverse, written.2.toUInt32)

def divAdd (a r : Words) : Words := (addLoop a.reverse r.reverse 0).1.reverse

def digit (n i : ℕ) : ℕ := n / base ^ i % base

/-- What `MulSub` carries into word `i` when it takes `x * d` off `w`. -/
def carryAt (x d w : ℕ) : ℕ → ℕ
  | 0 => 0
  | i + 1 =>
    let product := digit d i * x + carryAt x d w i
    product / base + if 2 ^ 63 + digit w i < product then 1 else 0

def productAt (x d w i : ℕ) : ℕ := digit d i * x + carryAt x d w i

/-- The borrow out of word `i` is found if it is needed, and none is made up. -/
def BorrowFound (x d w i : ℕ) : Prop :=
  2 ^ 63 + digit w i < productAt x d w i ↔ digit w i < productAt x d w i % base

instance instDecidableBorrowFound (x d w i : ℕ) : Decidable (BorrowFound x d w i) :=
  inferInstanceAs (Decidable (_ ↔ _))

section Digits

lemma digit_lt (n i : ℕ) : digit n i < base := Nat.mod_lt _ (by decide)

lemma digit_low (xs : Words) (i : ℕ) : digit (low xs) i = (xs.getD i 0).toNat := by
  induction xs generalizing i with
  | nil => simp [digit, low]
  | cons x xs ih =>
    have hx : x.toNat < base := x.toNat_lt
    cases i with
    | zero => simp [digit, low, Nat.mod_eq_of_lt hx]
    | succ i =>
      rw [getD_cons_succ, ← ih, digit, low, digit, pow_succ', ← Nat.div_div_eq_div_mul,
        Nat.add_comm, Nat.mul_add_div (by decide), Nat.div_eq_of_lt hx, Nat.add_zero]

lemma digit_mod {n k i : ℕ} (hi : i < k) : digit (n % base ^ k) i = digit n i := by
  obtain ⟨j, rfl⟩ : ∃ j, k = i + (j + 1) := ⟨k - i - 1, by omega⟩
  rw [digit, digit, pow_add, Nat.mod_mul_right_div_self, pow_succ', Nat.mod_mul_right_mod]

lemma magnitude_append (xs ys : Words) :
    magnitude (xs ++ ys) = magnitude xs * base ^ ys.length + magnitude ys := by
  rw [magnitude, magnitude, magnitude, reverse_append, low_append, length_reverse]
  ring

lemma digit_tail {w : UInt32} {z : Words} {i : ℕ} (hi : i < z.length) :
    digit (magnitude (w :: z)) i = digit (magnitude z) i := by
  have hmod : magnitude (w :: z) % base ^ z.length = magnitude z := by
    rw [magnitude_cons, Nat.mul_comm, Nat.mul_add_mod, Nat.mod_eq_of_lt (magnitude_lt z)]
  rw [← hmod, digit_mod hi]

lemma digit_head (w : UInt32) (z : Words) : digit (magnitude (w :: z)) z.length = w.toNat := by
  have hpos : 0 < base ^ z.length := Nat.pow_pos (by decide)
  rw [digit, magnitude_cons, Nat.mul_comm, Nat.mul_add_div hpos, Nat.div_eq_of_lt (magnitude_lt z),
    Nat.add_zero]
  exact Nat.mod_eq_of_lt w.toNat_lt

end Digits

section Loop

variable {x d w : ℕ} {carry : UInt64} {qs as : Words}

lemma product_le {a c : ℕ} (ha : a < base) (hx : x < base) (hc : c ≤ base) :
    a * x + c ≤ 2 ^ 64 - 2 ^ 32 + 1 := by
  have h : a * x ≤ (base - 1) * (base - 1) := Nat.mul_le_mul (by omega) (by omega)
  rw [base] at *
  omega

lemma carryAt_le (hx : x < base) (i : ℕ) : carryAt x d w i ≤ base := by
  induction i with
  | zero => exact Nat.zero_le _
  | succ i ih =>
    have hle := product_le (digit_lt d i) hx ih
    rw [carryAt, base] at *
    split_ifs <;> omega

lemma carryAt_zero (d w i : ℕ) : carryAt 0 d w i = 0 := by
  induction i with
  | zero => rfl
  | succ i ih => simp [carryAt, ih]

lemma borrowFound_zero (d w i : ℕ) : BorrowFound 0 d w i := by
  simp [BorrowFound, productAt, carryAt_zero]

lemma borrowFound_iff (x d w i : ℕ) :
    BorrowFound x d w i ↔ (if 2 ^ 63 + digit w i < productAt x d w i then 1 else 0)
      = if digit w i < productAt x d w i % base then 1 else 0 := by
  rw [BorrowFound]
  by_cases hfound : 2 ^ 63 + digit w i < productAt x d w i
  · by_cases hneeded : digit w i < productAt x d w i % base
    · simp only [hfound, hneeded, if_true]
    · simp only [hfound, hneeded, if_true, if_false, iff_false, not_true, one_ne_zero]
  · by_cases hneeded : digit w i < productAt x d w i % base
    · simp only [hfound, hneeded, if_true, if_false, false_iff, not_true, zero_ne_one]
    · simp only [hfound, hneeded, if_false]

/-- One word of `MulSub` in numbers: the word that is left, and the carry into the next. -/
lemma mulSub_word (q : UInt32) (product : UInt64) (hp : product.toNat ≤ 2 ^ 64 - 2 ^ 32 + 1) :
    (∃ b, b = (if q.toNat < product.toNat % base then 1 else 0)
        ∧ (q.toUInt64 - product).toUInt32.toNat + product.toNat
          = q.toNat + base * (product.toNat / base + b))
      ∧ ((product >>> 32)
          + (if q.toUInt64 - product < 0x8000000000000000
              ∧ (~~~ product.toUInt32).toUInt64 < q.toUInt64 - product then (1 : UInt64)
            else 0)).toNat
        = product.toNat / base + if 2 ^ 63 + q.toNat < product.toNat then 1 else 0 := by
  have hq := q.toNat_lt
  have hdiff : (q.toUInt64 - product).toNat = (2 ^ 64 - product.toNat + q.toNat) % 2 ^ 64 := by
    rw [UInt64.toNat_sub, UInt32.toNat_toUInt64]
  have hhigh : (product >>> 32).toNat = product.toNat / base := by
    rw [UInt64.toNat_shiftRight, base]
    simp [Nat.shiftRight_eq_div_pow]
  have hfound : (q.toUInt64 - product < 0x8000000000000000
      ∧ (~~~ product.toUInt32).toUInt64 < q.toUInt64 - product)
      ↔ 2 ^ 63 + q.toNat < product.toNat := by
    rw [UInt64.lt_iff_toNat_lt, UInt64.lt_iff_toNat_lt, hdiff, UInt32.toNat_toUInt64,
      UInt32.toNat_not, UInt64.toNat_toUInt32]
    simp only [UInt64.toNat_ofNat, UInt32.size]
    omega
  refine ⟨⟨_, rfl, ?_⟩, ?_⟩
  · rw [UInt64.toNat_toUInt32, hdiff, base]
    split_ifs <;> omega
  · rw [if_congr hfound rfl rfl, UInt64.toNat_add, hhigh, base]
    split_ifs <;> simp <;> omega

lemma toNat_mulSub_product {x a : UInt32} (hcarry : carry.toNat ≤ base) :
    (a.toUInt64 * x.toUInt64 + carry).toNat = a.toNat * x.toNat + carry.toNat := by
  have hle := product_le (show a.toNat < base from a.toNat_lt) (show x.toNat < base from x.toNat_lt)
    hcarry
  rw [UInt64.toNat_add, UInt64.toNat_mul, UInt32.toNat_toUInt64, UInt32.toNat_toUInt64]
  omega

lemma mulSubLoop_length (x : UInt32) (carry : UInt64)
    (hlen : qs.length = as.length) : (mulSubLoop x qs as carry).1.length = qs.length := by
  induction qs generalizing as carry with
  | nil => simp [mulSubLoop]
  | cons q qs ih =>
    obtain ⟨a, as, rfl⟩ := exists_cons_of_length_eq_add_one hlen.symm
    simp [mulSubLoop, ih _ (Nat.succ.inj hlen)]

/-- A word of the difference and the words above it, the word's borrow being `b`. -/
lemma difference_split {r q a x c p b rest as qs n : ℕ} (hp : a * x + c = p)
    (hword : r + p = q + base * (p / base + b)) :
    r + base * rest + x * (a + base * as) + c ≡ q + base * qs [MOD base * n]
      ↔ rest + x * as + (p / base + b) ≡ qs [MOD n] := by
  have hleft : r + base * rest + x * (a + base * as) + c
      = q + base * (rest + x * as + (p / base + b)) := by
    linear_combination hword + hp
  rw [hleft, Nat.ModEq.add_iff_left rfl, Nat.ModEq.mul_left_cancel_iff' (by decide)]

/-- The lowest word is always right, whatever is borrowed from it. -/
lemma mulSubLoop_lowest {x : UInt32} (hcarry : carry.toNat ≤ base)
    (hlen : qs.length = as.length) (hne : qs ≠ []) :
    low (mulSubLoop x qs as carry).1 + x.toNat * low as + carry.toNat ≡ low qs [MOD base] := by
  obtain ⟨q, qs, rfl⟩ := exists_cons_of_ne_nil hne
  obtain ⟨a, as, rfl⟩ := exists_cons_of_length_eq_add_one hlen.symm
  have hprod := toNat_mulSub_product (x := x) (a := a) hcarry
  obtain ⟨⟨b, -, hword⟩, -⟩ := mulSub_word q (a.toUInt64 * x.toUInt64 + carry)
    (hprod ▸ product_le a.toNat_lt x.toNat_lt hcarry)
  rw [hprod] at hword
  simp only [mulSubLoop, low]
  refine Nat.ModEq.of_mul_right 1 ?_
  exact (difference_split rfl hword).mpr Nat.modEq_one

/-- The words above are those of the difference with the borrow `b` only if `b` was borrowed. -/
lemma borrow_iff {m n f b k : ℕ} (hf : f ≤ 1) (hb : b ≤ 1) (hlow : 0 < k → m + f ≡ n [MOD base]) :
    m + b ≡ n [MOD base ^ k] ↔ (0 < k → f = b) ∧ m + f ≡ n [MOD base ^ k] := by
  constructor
  · intro h
    have hsame : 0 < k → f = b := by
      intro hk
      have hb' : m + b ≡ n [MOD base] := h.of_dvd (dvd_pow_self base hk.ne')
      have hmod : f ≡ b [MOD base] := ((hlow hk).trans hb'.symm).add_left_cancel'
      rw [base] at hmod
      exact hmod.eq_of_lt_of_lt (by omega) (by omega)
    rcases Nat.eq_zero_or_pos k with rfl | hk
    · exact ⟨hsame, by simp [Nat.modEq_one]⟩
    · exact ⟨hsame, hsame hk ▸ h⟩
  · rintro ⟨hsame, h⟩
    rcases Nat.eq_zero_or_pos k with rfl | hk
    · simp [Nat.modEq_one]
    · exact hsame hk ▸ h

/-- `MulSub` from word `i` on: what it carries out of the highest word, and that its words are
those of the difference just when every borrow below the highest word is found. -/
lemma mulSubLoop_spec {x : UInt32} {d w i : ℕ}
    (hlen : qs.length = as.length) (hcarry : carry.toNat = carryAt x.toNat d w i)
    (hq : ∀ j < qs.length, (qs.getD j 0).toNat = digit w (i + j))
    (ha : ∀ j < qs.length, (as.getD j 0).toNat = digit d (i + j)) :
    (mulSubLoop x qs as carry).2.toNat = carryAt x.toNat d w (i + qs.length)
      ∧ (low (mulSubLoop x qs as carry).1 + x.toNat * low as + carry.toNat
          ≡ low qs [MOD base ^ qs.length]
        ↔ ∀ j, j + 1 < qs.length → BorrowFound x.toNat d w (i + j)) := by
  induction qs generalizing as carry i with
  | nil =>
    obtain rfl : as = [] := length_eq_zero_iff.mp (by simpa using hlen.symm)
    exact ⟨hcarry, by simp [Nat.modEq_one]⟩
  | cons q qs ih =>
    obtain ⟨a, as, rfl⟩ := exists_cons_of_length_eq_add_one hlen.symm
    have hle : carry.toNat ≤ base := hcarry ▸ carryAt_le x.toNat_lt i
    have hprod := toNat_mulSub_product (x := x) (a := a) hle
    obtain ⟨⟨b, hb, hword⟩, hnext⟩ := mulSub_word q (a.toUInt64 * x.toUInt64 + carry)
      (hprod ▸ product_le a.toNat_lt x.toNat_lt hle)
    have hqi : q.toNat = digit w i := hq 0 (by simp)
    have hai : a.toNat = digit d i := ha 0 (by simp)
    have hpi : a.toNat * x.toNat + carry.toNat = productAt x.toNat d w i := by
      rw [productAt, hai, hcarry]
    simp only [mulSubLoop]
    rw [hprod, hpi, hqi] at hnext
    obtain ⟨hout, hrest⟩ := ih (i := i + 1) (by simpa using hlen) hnext
      (fun j hj => by rw [Nat.add_right_comm]; exact hq (j + 1) (by simpa using hj))
      (fun j hj => by rw [Nat.add_right_comm]; exact ha (j + 1) (by simpa using hj))
    refine ⟨by rw [hout, length_cons]; congr 1; omega, ?_⟩
    rw [hprod, hpi] at hword
    rw [hprod, hpi, hqi] at hb
    rw [hnext] at hrest
    have hlowest : 0 < qs.length → low (mulSubLoop x qs as _).1 + x.toNat * low as + _
        ≡ low qs [MOD base] :=
          fun hpos => mulSubLoop_lowest (hnext.trans_le (carryAt_le x.toNat_lt (i + 1)))
      (Nat.succ.inj hlen) (length_pos_iff.mp hpos)
    rw [hnext, ← Nat.add_assoc] at hlowest
    rw [← Nat.add_assoc] at hrest
    rw [length_cons, pow_succ', low, low, low, difference_split hpi hword, ← Nat.add_assoc,
      borrow_iff (by split_ifs <;> omega) (by rw [hb]; split_ifs <;> omega) hlowest, hrest, hb]
    rw [← borrowFound_iff]
    constructor
    · rintro ⟨hfirst, hothers⟩ (_ | j) hj
      · exact hfirst (by omega)
      · have h := hothers j (by omega)
        rwa [Nat.add_assoc, Nat.add_comm 1] at h
    · intro h
      refine ⟨fun hpos => h 0 (by omega), fun j hj => ?_⟩
      rw [Nat.add_assoc, Nat.add_comm 1]
      exact h (j + 1) (by omega)

end Loop

section Words

variable {q a : Words}

lemma digit_reverse (z : Words) (j : ℕ) : (z.reverse.getD j 0).toNat = digit (magnitude z) j := by
  rw [magnitude, digit_low]

/-- `MulSub` on the words below `nh`. -/
lemma mulSub_spec (nh x : UInt32) (hlen : q.length = a.length) :
    (mulSub q a x).1.length = a.length
      ∧ (mulSub q a x).2.toNat
        = carryAt x.toNat (magnitude a) (magnitude (nh :: q)) a.length % base
      ∧ (magnitude (mulSub q a x).1 + x.toNat * magnitude a ≡ magnitude q [MOD base ^ a.length]
        ↔ ∀ j, j + 1 < a.length → BorrowFound x.toNat (magnitude a) (magnitude (nh :: q)) j)
      ∧ (a ≠ [] → magnitude (mulSub q a x).1 + x.toNat * magnitude a ≡ magnitude q [MOD base]) := by
  have hrev : q.reverse.length = a.reverse.length := by simpa using hlen
  have hzero : (0 : UInt64).toNat = carryAt x.toNat (magnitude a) (magnitude (nh :: q)) 0 := rfl
  obtain ⟨hout, hwords⟩ := mulSubLoop_spec hrev hzero
    (fun j hj => by
      rw [digit_reverse, Nat.zero_add, digit_tail (by simpa using hj)])
    (fun j hj => by rw [digit_reverse, Nat.zero_add])
  simp only [Nat.zero_add, length_reverse, hlen] at hout hwords
  refine ⟨?_, ?_, ?_, fun hne => ?_⟩
  · rw [mulSub, length_reverse, mulSubLoop_length x 0 hrev, length_reverse, hlen]
  · rw [mulSub, UInt64.toNat_toUInt32, hout, base]
  · rw [mulSub, magnitude, reverse_reverse]
    exact hwords
  · rw [mulSub, magnitude, reverse_reverse]
    have hpos : q.reverse ≠ [] := by
      rw [Ne, reverse_eq_nil_iff, ← length_eq_zero_iff, hlen, length_eq_zero_iff]
      exact hne
    exact mulSubLoop_lowest (show (0 : UInt64).toNat ≤ base by decide) hrev hpos

lemma divAdd_spec (hlen : q.length = a.length) :
    (divAdd a q).length = a.length
      ∧ magnitude (divAdd a q) ≡ magnitude a + magnitude q [MOD base ^ a.length] := by
  have hsum := addLoop_low a.reverse q.reverse 0 (by decide)
  simp only [length_reverse, hlen, max_self] at hsum
  refine ⟨?_, ?_⟩
  · rw [divAdd, length_reverse, addLoop_length]
    simp [hlen]
  · rw [divAdd, magnitude, reverse_reverse, magnitude, magnitude]
    rw [show (0 : UInt64).toNat = 0 from rfl, Nat.add_zero] at hsum
    rw [← hsum, Nat.ModEq, Nat.add_mul_mod_self_left]

end Words

end Mai.BaseBig
