import Mai.BaseBig

/-!
# Products of numbers of 32-bit words

`BasicMul` adds the rows of the words of one factor. A factor without words is not treated apart:
the first row then multiplies by the word in front of it.
-/
namespace Mai.BaseBig
open List

/-- One row, the least significant word first: `y * x` onto the words `acc` that stand there. -/
def mulRow (x : UInt32) : Words → Words → UInt64 → Words × UInt64
  | y :: ys, acc, carry =>
    let product := y.toUInt64 * x.toUInt64 + (acc.headD 0).toUInt64 + carry
    let rest := mulRow x ys acc.tail (product >>> 32)
    (product.toUInt32 :: rest.1, rest.2)
  | [], _, carry => ([], carry)

/-- The rows for the words `xs`, each one place above the row before it. -/
def mulRows (ys : Words) : Words → Words → Words
  | x :: xs, acc =>
    let row := mulRow x ys acc 0
    let window := row.1 ++ [row.2.toUInt32]
    window.headD 0 :: mulRows ys xs window.tail
  | [], acc => acc

/-- `BasicMul` overwrites all of its result. `before` is the word in front of `x`, which is
read when `x` has no word of its own; the last carry then falls in front of the result. -/
def basicMul (before : UInt32) (x y : Words) : Words :=
  if x = [] then (mulRow before y.reverse [] 0).1.reverse
  else (mulRows y.reverse x.reverse []).reverse

lemma toNat_product {x y a : UInt32} {carry : UInt64} (hcarry : carry.toNat < base) :
    (y.toUInt64 * x.toUInt64 + a.toUInt64 + carry).toNat
      = y.toNat * x.toNat + a.toNat + carry.toNat := by
  have hx := x.toNat_lt
  have hy := y.toNat_lt
  have ha := a.toNat_lt
  have hprod : y.toNat * x.toNat ≤ (2 ^ 32 - 1) * (2 ^ 32 - 1) :=
    Nat.mul_le_mul (by omega) (by omega)
  rw [base] at hcarry
  simp only [UInt64.toNat_add, UInt64.toNat_mul, UInt32.toNat_toUInt64]
  omega

lemma product_carry_lt (product : UInt64) : (product >>> 32).toNat < base := by
  have hsplit := sum_split product
  have hlt := product.toNat_lt
  rw [base] at *
  omega

lemma mulRow_length (x : UInt32) (ys acc : Words) (carry : UInt64) :
    (mulRow x ys acc carry).1.length = ys.length := by
  induction ys generalizing acc carry with
  | nil => rfl
  | cons y ys ih => simp [mulRow, ih]

lemma mulRow_carry_lt (x : UInt32) (ys acc : Words) (carry : UInt64) (hcarry : carry.toNat < base) :
    (mulRow x ys acc carry).2.toNat < base := by
  induction ys generalizing acc carry with
  | nil => exact hcarry
  | cons y ys ih => exact ih acc.tail _ (product_carry_lt _)

lemma low_head_tail (acc : Words) : low acc = (acc.headD 0).toNat + base * low acc.tail := by
  cases acc <;> simp [low]

lemma mulRow_low (x : UInt32) (ys acc : Words) (carry : UInt64) (hcarry : carry.toNat < base)
    (hacc : acc.length ≤ ys.length) :
    low (mulRow x ys acc carry).1 + base ^ ys.length * (mulRow x ys acc carry).2.toNat
      = x.toNat * low ys + low acc + carry.toNat := by
  induction ys generalizing acc carry with
  | nil =>
    obtain rfl : acc = [] := length_eq_zero_iff.mp (Nat.le_zero.mp hacc)
    simp [mulRow, low]
  | cons y ys ih =>
    have htail : acc.tail.length ≤ ys.length := by
      rw [length_tail]
      simpa using hacc
    have hstep := ih acc.tail
      ((y.toUInt64 * x.toUInt64 + (acc.headD 0).toUInt64 + carry) >>> 32) (product_carry_lt _) htail
    have hsplit := sum_split (y.toUInt64 * x.toUInt64 + (acc.headD 0).toUInt64 + carry)
    rw [toNat_product hcarry] at hsplit
    rw [low_head_tail acc]
    simp only [mulRow, low, length_cons, pow_succ]
    linear_combination base * hstep + hsplit

lemma low_window (x : UInt32) (ys acc : Words) (hacc : acc.length ≤ ys.length) :
    low ((mulRow x ys acc 0).1 ++ [(mulRow x ys acc 0).2.toUInt32]) =
      x.toNat * low ys + low acc := by
  have hlow := mulRow_low x ys acc 0 (by decide) hacc
  have hcarry := mulRow_carry_lt x ys acc 0 (by decide)
  have hword : (mulRow x ys acc 0).2.toUInt32.toNat = (mulRow x ys acc 0).2.toNat := by
    rw [UInt64.toNat_toUInt32]
    exact Nat.mod_eq_of_lt hcarry
  rw [low_append, mulRow_length]
  simpa [low, hword] using hlow

lemma mulRows_low (ys xs acc : Words) (hacc : acc.length ≤ ys.length) :
    low (mulRows ys xs acc) = low xs * low ys + low acc := by
  induction xs generalizing acc with
  | nil => simp [mulRows, low]
  | cons x xs ih =>
    have hwindow := low_window x ys acc hacc
    rw [low_head_tail] at hwindow
    rw [mulRows, low, ih _ (by simp [mulRow_length]), low]
    linear_combination hwindow

lemma mulRows_length (ys xs acc : Words) (hacc : acc.length = ys.length) :
    (mulRows ys xs acc).length = xs.length + ys.length := by
  induction xs generalizing acc with
  | nil => simp [mulRows, hacc]
  | cons x xs ih =>
    rw [mulRows, length_cons, ih _ (by simp [mulRow_length]), length_cons]
    omega

lemma basicMul_length (before : UInt32) (x y : Words) :
    (basicMul before x y).length = x.length + y.length := by
  rw [basicMul]
  split_ifs with hx
  · simp [mulRow_length, hx]
  · obtain ⟨w, xs, hxs⟩ := exists_cons_of_ne_nil (reverse_ne_nil_iff.mpr hx)
    have hlen : x.length = xs.length + 1 := by simpa using congrArg List.length hxs
    rw [length_reverse, hxs, mulRows, length_cons, mulRows_length _ _ _
      (by simp [mulRow_length]), length_reverse, hlen]
    omega

theorem magnitude_basicMul (before : UInt32) {x : Words} (y : Words) (hx : x ≠ []) :
    magnitude (basicMul before x y) = magnitude x * magnitude y := by
  rw [basicMul, if_neg hx, magnitude, reverse_reverse, mulRows_low _ _ _ (by simp)]
  simp [magnitude, low]

/-- Without a word the product is that of the word in front, cut to the words of `y`. -/
theorem magnitude_basicMul_nil (before : UInt32) (y : Words) :
    magnitude (basicMul before [] y) = before.toNat * magnitude y % base ^ y.length := by
  have hlow := mulRow_low before y.reverse [] 0 (by decide) (by simp)
  have hlt := low_lt (mulRow before y.reverse [] 0).1
  rw [mulRow_length] at hlt
  rw [basicMul, if_pos rfl, magnitude, reverse_reverse, magnitude, ← Nat.mod_eq_of_lt hlt,
    ← Nat.add_mul_mod_self_left, hlow]
  simp [low]

end Mai.BaseBig
