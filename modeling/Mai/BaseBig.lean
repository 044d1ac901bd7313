import Mathlib

/-!
# Unsigned numbers of 32-bit words

`Big` keeps a number as a view of words, the most significant first. The number of a view is its
`magnitude`, and each loop is described by the equation its carry or borrow keeps.
-/
namespace Mai.BaseBig
open List Option

abbrev Words := List UInt32

def base : ℕ := 2 ^ 32

def low : Words → ℕ
  | [] => 0
  | w :: ws => w.toNat + base * low ws

def magnitude (z : Words) : ℕ := low z.reverse

def wordAt (z : Words) (n i : ℕ) : UInt32 :=
  if n = z.length then z.getD i 0
  else if i < n - z.length then 0
  else z.getD (i - (n - z.length)) 0

def compareAt (lval rval : UInt32) (rest : ℤ) : ℤ :=
  if lval < rval then -1 else if rval < lval then 1 else rest

def compare (lhs rhs : Words) : ℤ :=
  let n := max lhs.length rhs.length
  (List.range n).foldr (fun i rest => compareAt (wordAt lhs n i) (wordAt rhs n i) rest) 0

/-- The words that `Add` copies from the longer view once the shorter is used up. -/
def addRest : Words → UInt64 → Words × UInt64
  | x :: xs, carry =>
    let sum := x.toUInt64 + carry
    let rest := addRest xs (sum >>> 32)
    (sum.toUInt32 :: rest.1, rest.2)
  | [], carry => ([], carry)

/-- The words written by `Add`, the least significant first, and its carry. -/
def addLoop : Words → Words → UInt64 → Words × UInt64
  | x :: xs, y :: ys, carry =>
    let sum := x.toUInt64 + y.toUInt64 + carry
    let rest := addLoop xs ys (sum >>> 32)
    (sum.toUInt32 :: rest.1, rest.2)
  | x :: xs, [], carry => addRest (x :: xs) carry
  | [], ys, carry => addRest ys carry

def borrow (diff : UInt64) : UInt64 := (-(diff >>> 32)).toUInt32.toUInt64

/-- The words written by `Sub`, the least significant first, and its last difference.
There is no word to read once `rhs` is the longer view. -/
def subLoop : Words → Words → UInt64 → Option (Words × UInt64)
  | x :: xs, y :: ys, diff =>
    let diff := x.toUInt64 - y.toUInt64 - borrow diff
    (subLoop xs ys diff).map fun rest => (diff.toUInt32 :: rest.1, rest.2)
  | x :: xs, [], diff =>
    let diff := x.toUInt64 - borrow diff
    (subLoop xs [] diff).map fun rest => (diff.toUInt32 :: rest.1, rest.2)
  | [], _ :: _, _ => none
  | [], [], diff => some ([], diff)

/-- Writes the words `ws`, the least significant first, at the end of the view `rv`. -/
def store (rv ws : Words) : Option Words :=
  if ws.length ≤ rv.length then some (rv.take (rv.length - ws.length) ++ ws.reverse) else none

def add (lhs rhs rv : Words) : Option (Words × UInt32) :=
  let written := addLoop lhs.reverse rhs.reverse 0
  (store rv written.1).map fun z => (z, written.2.toUInt32)

def sub (lhs rhs rv : Words) : Option (Words × UInt32) :=
  (subLoop lhs.reverse rhs.reverse 0).bind fun written =>
    (store rv written.1).map fun z => (z, written.2.toUInt32)

lemma low_append (xs ys : Words) : low (xs ++ ys) = low xs + base ^ xs.length * low ys := by
  induction xs with
  | nil => simp [low]
  | cons x xs ih =>
    rw [cons_append, low, ih, low, length_cons, pow_succ]
    ring

lemma low_lt (xs : Words) : low xs < base ^ xs.length := by
  induction xs with
  | nil => simp [low]
  | cons x xs ih =>
    have hx : x.toNat < base := x.toNat_lt
    calc low (x :: xs) = x.toNat + base * low xs := rfl
      _ < base * (low xs + 1) := by rw [Nat.mul_add]; omega
      _ ≤ base * base ^ xs.length := Nat.mul_le_mul_left _ ih
      _ = base ^ (xs.length + 1) := by rw [pow_succ, Nat.mul_comm]

lemma magnitude_lt (z : Words) : magnitude z < base ^ z.length := by
  simpa [magnitude] using low_lt z.reverse

variable {w : UInt32}

lemma toNat_pos (hw : w ≠ 0) : 0 < w.toNat :=
  Nat.pos_of_ne_zero fun h => hw (UInt32.toNat_inj.mp h)

lemma magnitude_cons (w : UInt32) (z : Words) :
    magnitude (w :: z) = w.toNat * base ^ z.length + magnitude z := by
  rw [magnitude, reverse_cons, low_append, length_reverse, ← magnitude]
  simp [low]
  ring

lemma magnitude_pos (z : Words) (hw : 0 < w.toNat) : 0 < magnitude (w :: z) := by
  rw [magnitude_cons]
  exact Nat.add_pos_left (Nat.mul_pos hw (Nat.pow_pos (by decide))) _

lemma magnitude_append_singleton (z : Words) (w : UInt32) :
    magnitude (z ++ [w]) = magnitude z * base + w.toNat := by
  rw [magnitude, reverse_append, reverse_singleton, singleton_append, low, ← magnitude]
  ring

lemma magnitude_zero_cons (z : Words) : magnitude (0 :: z) = magnitude z := by
  simp [magnitude_cons]

lemma magnitude_replicate_append (d : ℕ) (z : Words) :
    magnitude (List.replicate d 0 ++ z) = magnitude z := by
  induction d with
  | zero => rfl
  | succ d ih => rw [replicate_succ, cons_append, magnitude_zero_cons, ih]

lemma magnitude_dropWhile (z : Words) : magnitude (z.dropWhile (· == 0)) = magnitude z := by
  induction z with
  | nil => rfl
  | cons w z ih =>
    by_cases hw : w = 0
    · subst hw
      rw [magnitude_zero_cons, ← ih]
      rfl
    · rw [dropWhile_cons_of_neg (by simpa using hw)]

lemma map_wordAt {z : Words} {n : ℕ} (hn : z.length ≤ n) :
    (List.range n).map (wordAt z n) = List.replicate (n - z.length) 0 ++ z := by
  apply ext_getElem
  · simp
    omega
  · intro i h₁ h₂
    rw [getElem_map, getElem_range, getElem_append]
    simp only [length_map, length_range] at h₁
    simp only [wordAt, length_replicate, getElem_replicate]
    split_ifs with hlen hi hi
    · omega
    · rw [getD_eq_getElem _ _ (by omega)]
      congr 1
      omega
    · rfl
    · rw [getD_eq_getElem _ _ (by omega)]

lemma magnitude_wordAt {z : Words} {n : ℕ} (hn : z.length ≤ n) :
    magnitude ((List.range n).map (wordAt z n)) = magnitude z := by
  rw [map_wordAt hn, magnitude_replicate_append]

lemma magnitude_range_succ (l : ℕ → UInt32) (n : ℕ) :
    magnitude ((List.range (n + 1)).map l)
      = (l 0).toNat * base ^ n + magnitude ((List.range n).map fun i => l (i + 1)) := by
  rw [range_succ_eq_map, map_cons, List.map_map, magnitude_cons]
  simp [Function.comp_def]

lemma compareAt_eq_sign (l r : ℕ → UInt32) (n : ℕ) :
    (List.range n).foldr (fun i rest => compareAt (l i) (r i) rest) 0
      = Int.sign ((magnitude ((List.range n).map l) : ℤ) - magnitude ((List.range n).map r)) := by
  induction n generalizing l r with
  | zero => simp
  | succ n ih =>
    have hl := magnitude_lt ((List.range n).map fun i => l (i + 1))
    have hr := magnitude_lt ((List.range n).map fun i => r (i + 1))
    have hrest := ih (fun i => l (i + 1)) (fun i => r (i + 1))
    simp only [length_map, length_range] at hl hr
    rw [magnitude_range_succ, magnitude_range_succ, range_succ_eq_map, foldr_cons,
      foldr_map, compareAt]
    split_ifs with hlt hgt
    · have hword : ((l 0).toNat + 1) * base ^ n ≤ (r 0).toNat * base ^ n :=
        Nat.mul_le_mul_right _ (UInt32.lt_iff_toNat_lt.mp hlt)
      rw [Nat.add_mul] at hword
      exact (Int.sign_eq_neg_one_of_neg (by omega)).symm
    · have hword : ((r 0).toNat + 1) * base ^ n ≤ (l 0).toNat * base ^ n :=
        Nat.mul_le_mul_right _ (UInt32.lt_iff_toNat_lt.mp hgt)
      rw [Nat.add_mul] at hword
      exact (Int.sign_eq_one_of_pos (by omega)).symm
    · have hword : l 0 = r 0 := UInt32.le_antisymm (UInt32.not_lt.mp hgt) (UInt32.not_lt.mp hlt)
      rw [hword, Nat.cast_add, Nat.cast_add, add_sub_add_left_eq_sub]
      exact hrest

theorem compare_eq_sign (lhs rhs : Words) :
    compare lhs rhs = Int.sign ((magnitude lhs : ℤ) - magnitude rhs) := by
  rw [compare, compareAt_eq_sign, magnitude_wordAt (le_max_left _ _),
    magnitude_wordAt (le_max_right _ _)]

theorem compare_nonneg_iff (lhs rhs : Words) :
    0 ≤ compare lhs rhs ↔ magnitude rhs ≤ magnitude lhs := by
  rw [compare_eq_sign, Int.sign_nonneg_iff]
  omega

lemma sum_split (sum : UInt64) :
    sum.toUInt32.toNat + base * (sum >>> 32).toNat = sum.toNat := by
  rw [UInt64.toNat_toUInt32, UInt64.toNat_shiftRight, base]
  simp [Nat.shiftRight_eq_div_pow]
  omega

lemma toNat_sum {x y : UInt32} {carry : UInt64} (hcarry : carry.toNat ≤ 1) :
    (x.toUInt64 + y.toUInt64 + carry).toNat = x.toNat + y.toNat + carry.toNat := by
  have hx := x.toNat_lt
  have hy := y.toNat_lt
  simp only [UInt64.toNat_add, UInt32.toNat_toUInt64]
  omega

lemma toNat_sum_one {x : UInt32} {carry : UInt64} (hcarry : carry.toNat ≤ 1) :
    (x.toUInt64 + carry).toNat = x.toNat + carry.toNat := by
  have hx := x.toNat_lt
  simp only [UInt64.toNat_add, UInt32.toNat_toUInt64]
  omega

lemma carry_le {sum : UInt64} (h : sum.toNat < 2 * base) : (sum >>> 32).toNat ≤ 1 := by
  have := sum_split sum
  rw [base] at *
  omega

lemma addRest_length (xs : Words) (carry : UInt64) :
    (addRest xs carry).1.length = xs.length := by
  induction xs generalizing carry with
  | nil => rfl
  | cons x xs ih => simp [addRest, ih]

lemma addLoop_length (xs ys : Words) (carry : UInt64) :
    (addLoop xs ys carry).1.length = max xs.length ys.length := by
  induction xs generalizing ys carry with
  | nil => simp [addLoop, addRest_length]
  | cons x xs ih =>
    cases ys with
    | nil => simp [addLoop, addRest_length]
    | cons y ys => simp [addLoop, ih]

lemma addRest_low (xs : Words) (carry : UInt64) (hcarry : carry.toNat ≤ 1) :
    low (addRest xs carry).1 + base ^ xs.length * (addRest xs carry).2.toNat
      = low xs + carry.toNat := by
  induction xs generalizing carry with
  | nil => simp [addRest, low]
  | cons x xs ih =>
    have hsum : (x.toUInt64 + carry).toNat = x.toNat + carry.toNat := toNat_sum_one hcarry
    have hx : x.toNat < base := x.toNat_lt
    have hstep := ih ((x.toUInt64 + carry) >>> 32) (carry_le (by rw [base] at *; omega))
    have hsplit := sum_split (x.toUInt64 + carry)
    simp only [addRest, low, length_cons, pow_succ]
    linear_combination base * hstep + hsplit + hsum

lemma addLoop_low (xs ys : Words) (carry : UInt64) (hcarry : carry.toNat ≤ 1) :
    low (addLoop xs ys carry).1
        + base ^ (max xs.length ys.length) * (addLoop xs ys carry).2.toNat
      = low xs + low ys + carry.toNat := by
  induction xs generalizing ys carry with
  | nil => simpa [addLoop, low] using addRest_low ys carry hcarry
  | cons x xs ih =>
    cases ys with
    | nil => simpa [addLoop, low] using addRest_low (x :: xs) carry hcarry
    | cons y ys =>
      have hsum : (x.toUInt64 + y.toUInt64 + carry).toNat = x.toNat + y.toNat + carry.toNat :=
        toNat_sum hcarry
      have hx : x.toNat < base := x.toNat_lt
      have hy : y.toNat < base := y.toNat_lt
      have hstep := ih ys ((x.toUInt64 + y.toUInt64 + carry) >>> 32) (carry_le (by omega))
      have hsplit := sum_split (x.toUInt64 + y.toUInt64 + carry)
      simp only [addLoop, low, length_cons, Nat.add_max_add_right, pow_succ]
      linear_combination base * hstep + hsplit + hsum

lemma store_eq {rv ws : Words} (hrv : rv.length = ws.length + 1)
    (hw : rv.head? = some w) : store rv ws = some (w :: ws.reverse) := by
  obtain ⟨v, rv, rfl⟩ := exists_cons_of_length_eq_add_one hrv
  obtain rfl : v = w := by simpa using hw
  have hlen : rv.length = ws.length := by simpa using hrv
  simp [store, hlen]

theorem add_spec {lhs rhs rv : Words}
    (hrv : rv.length = max lhs.length rhs.length + 1) (hw : rv.head? = some w) :
    ∃ z carry, add lhs rhs rv = some (w :: z, carry) ∧ z.length + 1 = rv.length
      ∧ magnitude z = (magnitude lhs + magnitude rhs) % base ^ (max lhs.length rhs.length) := by
  have hlen := addLoop_length lhs.reverse rhs.reverse 0
  have hlow := addLoop_low lhs.reverse rhs.reverse 0 (by simp)
  rw [length_reverse, length_reverse] at hlen hlow
  have hstore := store_eq (hrv.trans (congrArg (· + 1) hlen.symm)) hw
  refine ⟨_, _, by rw [add, hstore, map_some], by simp [hlen, hrv], ?_⟩
  have hlt := low_lt (addLoop lhs.reverse rhs.reverse 0).1
  rw [hlen] at hlt
  rw [magnitude, reverse_reverse, magnitude, magnitude, ← Nat.mod_eq_of_lt hlt,
    ← Nat.add_mul_mod_self_left, hlow]
  rfl

lemma toNat_borrow {diff : UInt64} {b : ℕ} (hb : b ≤ 1)
    (h : (diff >>> 32).toNat = (base - 1) * b) : (borrow diff).toNat = b := by
  rw [borrow, UInt32.toNat_toUInt64, UInt64.toNat_toUInt32, UInt64.toNat_neg, h, base]
  interval_cases b <;> decide

lemma diff_split {diff : UInt64} {x y b : ℕ} (hx : x < base) (hy : y < base) (hb : b ≤ 1)
    (h : diff.toNat = (2 ^ 64 + x - y - b) % 2 ^ 64) :
    ∃ b', b' ≤ 1 ∧ (diff >>> 32).toNat = (base - 1) * b'
      ∧ diff.toUInt32.toNat + y + b = x + base * b' := by
  have hsplit := sum_split diff
  have hword := diff.toUInt32.toNat_lt
  rw [base] at *
  by_cases hle : y + b ≤ x
  · exact ⟨0, by omega, by omega, by omega⟩
  · exact ⟨1, by omega, by omega, by omega⟩

lemma toNat_diff {x y : UInt32} {c : UInt64} (hc : c.toNat ≤ 1) :
    (x.toUInt64 - y.toUInt64 - c).toNat = (2 ^ 64 + x.toNat - y.toNat - c.toNat) % 2 ^ 64 := by
  have hx := x.toNat_lt
  have hy := y.toNat_lt
  simp only [UInt64.toNat_sub, UInt32.toNat_toUInt64]
  omega

lemma toNat_diff_one {x : UInt32} {c : UInt64} (hc : c.toNat ≤ 1) :
    (x.toUInt64 - c).toNat = (2 ^ 64 + x.toNat - 0 - c.toNat) % 2 ^ 64 := by
  have hx := x.toNat_lt
  simp only [UInt64.toNat_sub, UInt32.toNat_toUInt64]
  omega

lemma subLoop_none {xs ys : Words} (diff : UInt64) (h : xs.length < ys.length) :
    subLoop xs ys diff = none := by
  fun_induction subLoop xs ys diff <;> simp_all

lemma subLoop_low (xs ys : Words) (diff : UInt64) {b : ℕ} (hb : b ≤ 1)
    (hdiff : (diff >>> 32).toNat = (base - 1) * b) (hle : ys.length ≤ xs.length) :
    ∃ ws d b', subLoop xs ys diff = some (ws, d) ∧ ws.length = xs.length ∧ b' ≤ 1
      ∧ low ws + low ys + b = low xs + base ^ xs.length * b' := by
  induction xs generalizing ys diff b with
  | nil =>
    obtain rfl : ys = [] := length_eq_zero_iff.mp (Nat.le_zero.mp hle)
    exact ⟨[], diff, b, rfl, rfl, hb, by simp [low]⟩
  | cons x xs ih =>
    have hold := toNat_borrow hb hdiff
    cases ys with
    | nil =>
      obtain ⟨c, hc, hhigh, hword⟩ := diff_split x.toNat_lt (y := 0) (by decide) hb
        ((toNat_diff_one (hold.trans_le hb)).trans (by rw [hold]))
      obtain ⟨ws, d, b', hrest, hlen, hb', hlow⟩ := ih [] _ hc hhigh (by simp)
      refine ⟨_, _, b', by rw [subLoop, hrest, map_some], by simp [hlen], hb', ?_⟩
      simp only [low, length_cons, pow_succ] at hlow ⊢
      linear_combination base * hlow + hword
    | cons y ys =>
      obtain ⟨c, hc, hhigh, hword⟩ := diff_split x.toNat_lt y.toNat_lt hb
        ((toNat_diff (hold.trans_le hb)).trans (by rw [hold]))
      obtain ⟨ws, d, b', hrest, hlen, hb', hlow⟩ := ih ys _ hc hhigh (by simpa using hle)
      refine ⟨_, _, b', by rw [subLoop, hrest, map_some], by simp [hlen], hb', ?_⟩
      simp only [low, length_cons, pow_succ]
      linear_combination base * hlow + hword

theorem sub_spec {lhs rhs rv : Words} (hle : rhs.length ≤ lhs.length)
    (hrv : rv.length = lhs.length + 1) (hw : rv.head? = some w)
    (hmag : magnitude rhs ≤ magnitude lhs) :
    ∃ z diff, sub lhs rhs rv = some (w :: z, diff)
      ∧ magnitude z + magnitude rhs = magnitude lhs := by
  obtain ⟨ws, d, b, hloop, hlen, hb, hlow⟩ :=
    subLoop_low lhs.reverse rhs.reverse 0 (b := 0) (by omega) (by rfl) (by simpa using hle)
  rw [length_reverse] at hlen hlow
  have hstore := store_eq (hrv.trans (congrArg (· + 1) hlen.symm)) hw
  refine ⟨_, _, by rw [sub, hloop, bind_some, hstore, map_some], ?_⟩
  have hlt := low_lt ws
  rw [hlen] at hlt
  rw [magnitude, reverse_reverse, magnitude, magnitude]
  rw [magnitude, magnitude] at hmag
  obtain rfl | rfl : b = 0 ∨ b = 1 := by omega
  · omega
  · omega

lemma sub_none {lhs rhs : Words} (rv : Words) (h : lhs.length < rhs.length) :
    sub lhs rhs rv = none := by
  rw [sub, subLoop_none 0 (by simpa using h), bind_none]

end Mai.BaseBig
