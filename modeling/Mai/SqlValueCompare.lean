import Mai.CoreBytewiseComparator
import Mai.CoreDecimalCompare
import Mai.CoreDecimalInteger
import Mai.SqlExpression

/-!
# Comparison of SQL values

`SQLValue::Compare` (`sql/types.cc`) on integers, decimals and strings. It converts its right side
to the kind of its left side: a decimal on the right loses its fraction, and for a decimal on the
left an integer is no number at all.
-/
namespace Mai.SqlValueCompare

open CoreDecimal CoreDecimal.Decimal CoreKeys SqlExpression SqlExpression.Value List Option

inductive Number
  | i64 (x : Int64)
  | u64 (x : UInt64)
  | dec (d : Decimal)

inductive SQLValue
  | number (n : Number)
  | string (s : Bytes)

def strncmp : ℕ → Bytes → Bytes → ℤ
  | 0, _, _ => 0
  | n + 1, s, t =>
    if s.headD 0 ≠ t.headD 0 then compareVal (s.headD 0) (t.headD 0)
    else if s.headD 0 = 0 then 0
    else strncmp n s.tail t.tail

def Number.compare (before : Decimal → UInt32) : Number → Number → Option ℤ
  | i64 x, i64 y => some (compareVal x y)
  | i64 x, u64 y => some (if x < 0 then -1 else compareVal x.toUInt64 y)
  | i64 x, dec d => d.toI64.map fun y => compareVal x.toInt y
  | u64 x, u64 y => some (compareVal x y)
  | u64 x, i64 y => some (if y < 0 then 1 else compareVal x y.toUInt64)
  | u64 x, dec d => d.toI64.map fun y => if y < 0 then 1 else compareVal (x.toNat : ℤ) y
  | dec a, dec b => (a.newPrecision (before a) (max b.exp a.exp)).bind fun lval =>
      (b.newPrecision (before b) (max b.exp a.exp)).map lval.compare
  | dec _, _ => some 0

def SQLValue.compare (before : Decimal → UInt32) (toNumeric : Bytes → Option Number) :
    SQLValue → SQLValue → Option ℤ
  | number m, number n => m.compare before n
  | number m, string s => (toNumeric s).bind (m.compare before)
  | string s, number n => ((toNumeric s).bind (n.compare before)).map (-·)
  | string s, string t => some (strncmp s.length s t)

def Number.value : Number → ℚ
  | i64 x => x.toInt
  | u64 x => x.toNat
  | dec d => d.number

def Orders {α : Type*} [LT α] (c : ℤ) (x y : α) : Prop :=
  (c < 0 ↔ x < y) ∧ (c = 0 ↔ x = y) ∧ (0 < c ↔ y < x)

def Right (before : Decimal → UInt32) (toNumeric : Bytes → Option Number) (a b : SQLValue) : Prop :=
  ∃ c c', a.compare before toNumeric b = some c ∧ b.compare before toNumeric a = some c' ∧
    c'.sign = -c.sign ∧
    match a, b with
    | .number m, .number n => Orders c m.value n.value
    | .string s, .string t => Orders c s t
    | _, _ => True

/-- Integers: always. An integer and a decimal: the decimal is this integer, and `ToI64` reads it.
Decimals: the one with the smaller exponent is extended by at most 30 digits, they are not two zeros
of different signs then, and their order is the one they had before. -/
def Number.Holds (before : Decimal → UInt32) : Number → Number → Prop
  | dec a, dec b =>
    let l := a.extended (before a) (max b.exp a.exp)
    let r := b.extended (before b) (max b.exp a.exp)
    max b.exp a.exp ≤ min b.exp a.exp + 30 ∧ (a.negative = b.negative ∨ l ≠ 0 ∨ r ≠ 0)
      ∧ Orders (l - r) a.number b.number
  | dec d, n => d.number = n.value ∧ d.ToI64Holds
  | n, dec d => d.number = n.value ∧ d.ToI64Holds
  | _, _ => True

/-- The comparison has a result. -/
def Number.Comparable : Number → Number → Prop
  | dec a, dec b => max b.exp a.exp ≤ min b.exp a.exp + 30
  | dec _, _ => True
  | _, dec d => d.CanShrink
  | _, _ => True

def Separated (s t : Bytes) : Prop :=
  s = t ∨ ∃ p x y s' t', s = p ++ x :: s' ∧ t = p ++ y :: t' ∧ x ≠ y ∧ 0 ∉ p

def Holds (before : Decimal → UInt32) (toNumeric : Bytes → Option Number) :
    SQLValue → SQLValue → Prop
  | .number m, .number n => m.Holds before n
  | .number m, .string s => ∃ n, toNumeric s = some n ∧ m.Comparable n
  | .string s, .number m => ∃ n, toNumeric s = some n ∧ m.Comparable n
  | .string s, .string t => Separated s t

/-- An integer and a decimal whose wrong integral part is read back by chance. -/
def ByChance : SQLValue → SQLValue → Prop
  | .number (.dec _), .number (.dec _) => False
  | .number (.dec d), .number _ => d.ReadByChance
  | .number _, .number (.dec d) => d.ReadByChance
  | _, _ => False

section Orders

variable {α : Type*} [LinearOrder α] {c c' : ℤ} {x y : α}

lemma orders_zero : Orders 0 x y ↔ x = y := by
  rw [Orders]
  rcases lt_trichotomy x y with h | h | h
  · simp [h, h.ne, h.not_gt]
  · simp [h]
  · simp [h, h.ne', h.not_gt]

lemma orders_self : Orders c x x ↔ c = 0 := by
  simp only [Orders, lt_self_iff_false, iff_false, iff_true]
  omega

lemma Orders.swap_iff (h : Orders c x y) : Orders c' y x ↔ c'.sign = -c.sign := by
  obtain ⟨hlt, heq, hgt⟩ := h
  rw [Orders]
  rcases lt_trichotomy x y with hxy | hxy | hxy
  · simp [Int.sign_eq_neg_one_of_neg (hlt.mpr hxy), hxy, hxy.ne', hxy.not_gt,
      Int.sign_eq_one_iff_pos]
    omega
  · simp [heq.mpr hxy, hxy]
    omega
  · simp [Int.sign_eq_one_of_pos (hgt.mpr hxy), hxy, hxy.ne, hxy.not_gt,
      Int.sign_eq_neg_one_iff_neg]
    omega

lemma orders_compareVal {β : Type} [LT β] [DecidableEq β] [DecidableLT β] (f : β → α)
    (heq : ∀ u v, f u = f v ↔ u = v) (hlt : ∀ u v, f u < f v ↔ u < v) (u v : β) :
    Orders (compareVal u v) (f u) (f v) := by
  rw [compareVal, Orders]
  rcases lt_trichotomy (f u) (f v) with h | h | h
  · simp [(heq u v).not.mp h.ne, (hlt u v).mp h, h, h.ne, h.not_gt]
  · simp [(heq u v).mp h]
  · simp [(heq u v).not.mp h.ne', (hlt u v).not.mp h.not_gt, h, h.ne', h.not_gt]

end Orders

section Integers

def Number.Integer : Number → Prop
  | .dec _ => False
  | _ => True

def Exact (before : Decimal → UInt32) (m n : Number) : Prop :=
  ∃ c, m.compare before n = some c ∧ Orders c m.value n.value

variable (before : Decimal → UInt32)

lemma orders_i64 (x y : Int64) : Orders (compareVal x y) (x.toInt : ℚ) (y.toInt : ℚ) :=
  orders_compareVal (fun x : Int64 => (x.toInt : ℚ))
    (fun _ _ => by rw [Int.cast_inj, Int64.toInt_inj])
    (fun _ _ => by rw [Int.cast_lt, Int64.lt_iff_toInt_lt]) x y

lemma orders_u64 (x y : UInt64) : Orders (compareVal x y) (x.toNat : ℚ) (y.toNat : ℚ) :=
  orders_compareVal (fun x : UInt64 => (x.toNat : ℚ))
    (fun _ _ => by rw [Nat.cast_inj, UInt64.toNat_inj])
    (fun _ _ => by rw [Nat.cast_lt, UInt64.lt_iff_toNat_lt]) x y

lemma toNat_toUInt64 {x : Int64} (hx : ¬x < 0) : (x.toUInt64.toNat : ℚ) = x.toInt := by
  have hnonneg : 0 ≤ x.toInt := by simpa [Int64.lt_iff_toInt_lt] using hx
  exact_mod_cast toNat_toUInt64_of_nonneg hnonneg

lemma negative_lt {x : Int64} (hx : x < 0) (y : UInt64) : (x.toInt : ℚ) < y.toNat := by
  have hneg : x.toInt < 0 := by simpa [Int64.lt_iff_toInt_lt] using hx
  exact lt_of_lt_of_le (by exact_mod_cast hneg) (Nat.cast_nonneg _)

lemma exact_integers {m n : Number} (hm : m.Integer) (hn : n.Integer) : Exact before m n := by
  match m, n with
  | .i64 x, .i64 y => exact ⟨_, rfl, orders_i64 x y⟩
  | .u64 x, .u64 y => exact ⟨_, rfl, orders_u64 x y⟩
  | .i64 x, .u64 y =>
    refine ⟨_, rfl, ?_⟩
    split_ifs with hx
    · have hlt := negative_lt hx y
      simp [Orders, Number.value, hlt, hlt.ne, hlt.not_gt]
    · have h := orders_u64 x.toUInt64 y
      rwa [toNat_toUInt64 hx] at h
  | .u64 x, .i64 y =>
    refine ⟨_, rfl, ?_⟩
    split_ifs with hy
    · have hlt := negative_lt hy x
      simp [Orders, Number.value, hlt, hlt.ne', hlt.not_gt]
    · have h := orders_u64 x y.toUInt64
      rwa [toNat_toUInt64 hy] at h
  | .dec d, _ => exact hm.elim
  | _, .dec d => exact hn.elim

end Integers

section Decimals

variable (before : Decimal → UInt32) {d : Decimal} {n : Number}

lemma truncated_of_number {v : ℤ} (h : d.number = v) : d.truncated = v := by
  rw [number, div_eq_iff (by positivity)] at h
  have hvalue : d.value = v * 10 ^ d.exp := by exact_mod_cast h
  rw [truncated, hvalue, Int.mul_tdiv_cancel _ (by positivity)]

lemma compareVal_eq_zero {x y : ℤ} : compareVal x y = 0 ↔ x = y := by
  rw [compareVal]
  split_ifs <;> simp_all

lemma exact_dec_integer (hn : n.Integer) (d : Decimal) :
    Exact before (.dec d) n ↔ d.number = n.value := by
  have hcompare : Number.compare before (.dec d) n = some 0 := by
    cases n with
    | dec _ => exact hn.elim
    | i64 | u64 => rfl
  simp only [Exact, hcompare, some_inj, exists_eq_left']
  exact orders_zero

lemma compare_integer_dec (hn : n.Integer) (d : Decimal) :
    ∃ (v : ℤ) (f : ℤ → ℤ), n.value = v ∧ v.natAbs < 2 ^ 64 ∧ n.compare before (.dec d) =
      d.toI64.map f ∧
      ∀ y, f y = 0 ↔ y = v := by
  cases n with
  | dec _ => exact hn.elim
  | i64 x =>
    have hlow := x.le_toInt
    have hhigh := x.toInt_lt
    exact ⟨x.toInt, _, rfl, by omega, rfl, fun y => compareVal_eq_zero.trans eq_comm⟩
  | u64 x =>
    have hlt := x.toNat_lt
    refine ⟨x.toNat, _, by simp [Number.value], by omega, rfl, fun y => ?_⟩
    split_ifs with hy
    · omega
    · exact compareVal_eq_zero.trans eq_comm

lemma exact_integer_dec (hn : n.Integer) (hd : d.number = n.value) :
    Exact before n (.dec d) ↔ d.toI64 = some d.truncated := by
  obtain ⟨v, f, hv, -, hcompare, hf⟩ := compare_integer_dec before hn d
  rw [truncated_of_number (hd.trans hv)]
  simp only [Exact, hcompare, Number.value, hd, orders_self, exists_eq_right, map_eq_some_iff, hf]

lemma exact_mixed (hn : n.Integer) (d : Decimal) :
    (d.number = n.value ∧ d.ToI64Holds → Exact before n (.dec d) ∧ Exact before (.dec d) n) ∧
      (Exact before n (.dec d) ∧ Exact before (.dec d) n →
        (d.number = n.value ∧ d.ToI64Holds) ∨ d.ReadByChance) := by
  rw [exact_dec_integer before hn]
  by_cases hd : d.number = n.value
  · obtain ⟨v, -, hv, hlt, -⟩ := compare_integer_dec before hn d
    have hwhole : d.whole < 2 ^ 64 := by
      have htrunc := truncated_of_number (hd.trans hv)
      rw [truncated_eq] at htrunc
      split_ifs at htrunc <;> omega
    have h := toI64_truncated hwhole
    simp only [hd, exact_integer_dec before hn hd, true_and, and_true]
    exact h
  · simp [hd]

lemma newPrecision_none (word : UInt32) {e : ℕ} (hdelta : d.exp + 30 < e) :
    d.newPrecision word e = none := by
  have htable : getFastPow10 (e - d.exp) = none := by
    rw [← not_isSome_iff_eq_none, getFastPow10_isSome_iff]
    omega
  rw [newPrecision, if_neg (by omega), if_pos (by omega), extend, if_neg (by omega), htable,
    map_none]

lemma orders_congr {c c' : ℤ} {x y : ℚ} (h : c.sign = c'.sign) : Orders c x y ↔ Orders c' x y := by
  have hneg : c < 0 ↔ c' < 0 := by rw [← Int.sign_neg_iff, h, Int.sign_neg_iff]
  have hzero : c = 0 ↔ c' = 0 := by
    rw [← Int.sign_eq_zero_iff_zero, h, Int.sign_eq_zero_iff_zero]
  have hpos : 0 < c ↔ 0 < c' := by rw [← Int.sign_pos_iff, h, Int.sign_pos_iff]
  rw [Orders, Orders, hneg, hzero, hpos]

lemma number_of_extended {word : UInt32} {e : ℕ} (h : d.extended word e = 0) :
    d.number = 0 := by
  rw [number]
  rw [extended] at h
  have hvalue : d.value = 0 := by
    by_cases hnone : d.exp < e ∧ d.segments = []
    · rw [value_eq_zero_iff, hnone.2]
      rfl
    · rw [if_neg hnone] at h
      simpa using h
  rw [hvalue]
  simp

lemma exact_decimals {a b : Decimal} (hdelta : max b.exp a.exp ≤ min b.exp a.exp + 30) :
    Exact before (.dec a) (.dec b) ↔ Number.Holds before (.dec a) (.dec b) := by
  obtain ⟨l, hl, -, hlneg, hlvalue⟩ :=
    newPrecision_extended (before a) (d := a) (e := max b.exp a.exp) (by omega) (by omega)
  obtain ⟨r, hr, -, hrneg, hrvalue⟩ :=
    newPrecision_extended (before b) (d := b) (e := max b.exp a.exp) (by omega) (by omega)
  have hsign := sign_compare_iff l r
  have hexact : Exact before (.dec a) (.dec b) ↔ Orders (l.compare r) a.number b.number := by
    simp only [Exact, Number.compare, hl, hr, bind_some, map_some, some_inj,
      exists_eq_left', Number.value]
  rw [hexact, Number.Holds, ← hlvalue, ← hrvalue, ← hlneg, ← hrneg, and_iff_right hdelta]
  by_cases hzero : l.negative = r.negative ∨ l.value ≠ 0 ∨ r.value ≠ 0
  · rw [and_iff_right hzero]
    exact orders_congr (hsign.mpr hzero)
  · refine iff_of_false (fun horders => ?_) fun h => hzero h.1
    -- two zeros of different signs are not equal for `Compare`
    obtain ⟨-, hlz, hrz⟩ : _ ∧ l.value = 0 ∧ r.value = 0 := by simpa [not_or] using hzero
    have hsame : a.number = b.number := by
      rw [number_of_extended (hlvalue ▸ hlz), number_of_extended (hrvalue ▸ hrz)]
    refine hzero (hsign.mp ?_)
    rw [horders.2.1.mpr hsame, hlz, hrz]
    rfl

lemma compare_far {a b : Decimal} (hdelta : min b.exp a.exp + 30 < max b.exp a.exp) :
    Number.compare before (.dec a) (.dec b) = none := by
  rw [Number.compare]
  rcases lt_or_ge a.exp b.exp with h | h
  · rw [newPrecision_none (before a) (d := a) (by omega), bind_none]
  · simp only [newPrecision_none (before b) (d := b) (e := max b.exp a.exp) (by omega), map_none,
      bind_fun_none]

end Decimals

lemma strncmp_self (n : ℕ) (s : Bytes) : strncmp n s s = 0 := by
  induction n generalizing s with
  | zero => rfl
  | succ n ih => simp [strncmp, ih]

variable {s t : Bytes} {x : UInt8}

lemma orders_cons {c : ℤ} : Orders c (x :: s) (x :: t) ↔ Orders c s t := by
  simp [Orders]

lemma strncmp_cons (n : ℕ) (x y : UInt8) (s t : Bytes) :
    strncmp (n + 1) (x :: s) (y :: t) = if x ≠ y then compareVal x y else if x = 0 then 0
      else strncmp n s t := rfl

lemma orders_of_ne {x y : UInt8} (h : x ≠ y) (s t : Bytes) :
    Orders (compareVal x y) (x :: s) (y :: t) := by
  have hbytes := orders_compareVal (id : UInt8 → UInt8) (fun _ _ => Iff.rfl) (fun _ _ => Iff.rfl) x
    y
  obtain ⟨hlt, heq, hgt⟩ := hbytes
  simp only [id_eq] at hlt heq hgt
  simp [Orders, cons_lt_cons_iff, hlt, heq, hgt, h, h.symm]

lemma separated_cons : Separated (x :: s) (x :: t) ↔ s = t ∨ x ≠ 0 ∧ Separated s t := by
  constructor
  · rintro (h | ⟨p, u, v, s', t', hs, ht, hne, hp⟩)
    · exact .inl (List.cons.inj h).2
    · cases p with
      | nil => exact absurd ((List.cons.inj hs).1.symm.trans (List.cons.inj ht).1) hne
      | cons z p =>
        obtain ⟨rfl, rfl⟩ := List.cons.inj hs
        obtain ⟨-, rfl⟩ := List.cons.inj ht
        rw [mem_cons, not_or] at hp
        exact .inr ⟨Ne.symm hp.1, .inr ⟨p, u, v, s', t', rfl, rfl, hne, hp.2⟩⟩
  · rintro (rfl | ⟨hx, rfl | ⟨p, u, v, s', t', rfl, rfl, hne, hp⟩⟩)
    · exact .inl rfl
    · exact .inl rfl
    · exact .inr ⟨x :: p, u, v, s', t', rfl, rfl, hne, by simp [hp, hx.symm]⟩

lemma orders_strncmp_cons :
    Orders (strncmp (x :: s).length (x :: s) (x :: t)) (x :: s) (x :: t) ↔
      s = t ∨ x ≠ 0 ∧ Orders (strncmp s.length s t) s t := by
  rw [length_cons, strncmp_cons, if_neg (not_not.mpr rfl), orders_cons]
  by_cases hx : x = 0
  · rw [if_pos hx, orders_zero]
    simp [hx]
  · rw [if_neg hx]
    simp only [hx, ne_eq, not_false_eq_true, true_and, iff_or_self]
    rintro rfl
    rw [strncmp_self, orders_zero]

lemma orders_strncmp_iff (s t : Bytes) :
    (Orders (strncmp s.length s t) s t ∧ Orders (strncmp t.length t s) t s) ↔ Separated s t := by
  induction s generalizing t with
  | nil =>
    cases t with
    | nil => exact iff_of_true ⟨orders_zero.mpr rfl, orders_zero.mpr rfl⟩ (.inl rfl)
    | cons y t =>
      exact iff_of_false (fun h => by simpa using orders_zero.mp h.1) (by simp [Separated])
  | cons x s ih =>
    cases t with
    | nil => exact iff_of_false (fun h => by simpa using orders_zero.mp h.2) (by simp [Separated])
    | cons y t =>
      by_cases hxy : x = y
      · subst hxy
        rw [orders_strncmp_cons, orders_strncmp_cons, separated_cons, ← ih t]
        tauto
      · refine iff_of_true ⟨?_, ?_⟩ (.inr ⟨[], x, y, s, t, rfl, rfl, hxy, not_mem_nil⟩)
        · rw [length_cons, strncmp_cons, if_pos hxy]
          exact orders_of_ne hxy s t
        · rw [length_cons, strncmp_cons, if_pos (Ne.symm hxy)]
          exact orders_of_ne (Ne.symm hxy) t s

section Values

variable (before : Decimal → UInt32) (toNumeric : Bytes → Option Number)

lemma right_numbers_iff (m n : Number) :
    Right before toNumeric (.number m) (.number n) ↔ Exact before m n ∧ Exact before n m := by
  constructor
  · rintro ⟨c, c', hc, hc', hsign, horders⟩
    exact ⟨⟨c, hc, horders⟩, c', hc', horders.swap_iff.mpr hsign⟩
  · rintro ⟨⟨c, hc, horders⟩, c', hc', horders'⟩
    exact ⟨c, c', hc, hc', horders.swap_iff.mp horders', horders⟩

lemma right_strings_iff (s t : Bytes) :
    Right before toNumeric (.string s) (.string t) ↔ Separated s t := by
  rw [← orders_strncmp_iff]
  constructor
  · rintro ⟨c, c', hc, hc', hsign, horders⟩
    cases hc
    cases hc'
    exact ⟨horders, horders.swap_iff.mpr hsign⟩
  · rintro ⟨horders, horders'⟩
    exact ⟨_, _, rfl, rfl, horders.swap_iff.mp horders', horders⟩

lemma toI64_some_iff (d : Decimal) : (∃ y, d.toI64 = some y) ↔ d.CanShrink := by
  rw [← integral_some_iff, toI64]
  cases d.integral <;> simp

lemma extended_some (word : UInt32) {d : Decimal} {e : ℕ} (hexp : d.exp ≤ e)
    (hdelta : e ≤ d.exp + 30) :
    ∃ r, d.newPrecision word e = some r := by
  obtain ⟨scale, hscale⟩ :=
    isSome_iff_exists.mp ((getFastPow10_isSome_iff (e - d.exp)).mpr (by omega))
  rw [newPrecision, if_neg (by omega), extend, hscale]
  split_ifs
  · exact ⟨_, rfl⟩
  · exact ⟨_, rfl⟩
  · exact ⟨d, rfl⟩

lemma compare_decimals_some (a b : Decimal) :
    (∃ c, Number.compare before (.dec a) (.dec b) = some c) ↔
      max b.exp a.exp ≤ min b.exp a.exp + 30 := by
  constructor
  · rintro ⟨c, hc⟩
    by_contra hfar
    rw [compare_far before (not_le.mp hfar)] at hc
    cases hc
  · intro hdelta
    obtain ⟨l, hl⟩ := extended_some (before a) (d := a) (e := max b.exp a.exp) (by omega) (by omega)
    obtain ⟨r, hr⟩ := extended_some (before b) (d := b) (e := max b.exp a.exp) (by omega) (by omega)
    exact ⟨_, by rw [Number.compare, hl, hr, bind_some, map_some]⟩

lemma compare_integer_some {n : Number} (hn : n.Integer) (d : Decimal) :
    (∃ c, n.compare before (.dec d) = some c) ↔ ∃ y, d.toI64 = some y := by
  obtain ⟨v, f, -, -, hcompare, -⟩ := compare_integer_dec before hn d
  rw [hcompare]
  cases d.toI64 <;> simp

lemma compare_some_iff (m n : Number) :
    (∃ c, m.compare before n = some c) ↔ m.Comparable n := by
  match m, n with
  | .dec a, .dec b => exact compare_decimals_some before a b
  | .i64 x, .dec d =>
    exact (compare_integer_some before (n := .i64 x) trivial d).trans (toI64_some_iff d)
  | .u64 x, .dec d =>
    exact (compare_integer_some before (n := .u64 x) trivial d).trans (toI64_some_iff d)
  | .dec d, .i64 x | .dec d, .u64 x => exact iff_of_true ⟨0, rfl⟩ trivial
  | .i64 x, .i64 y | .i64 x, .u64 y | .u64 x, .i64 y | .u64 x, .u64 y =>
    exact iff_of_true ⟨_, rfl⟩ trivial

lemma holds_symm {a b : Decimal} (h : Number.Holds before (.dec a) (.dec b)) :
    Number.Holds before (.dec b) (.dec a) := by
  obtain ⟨hdelta, hzero, horders⟩ := h
  rw [Number.Holds, max_comm, min_comm]
  refine ⟨hdelta, hzero.imp Eq.symm Or.symm, horders.swap_iff.mpr ?_⟩
  rw [← neg_sub, Int.sign_neg]

lemma decimals_hold (a b : Decimal) :
    Exact before (.dec a) (.dec b) ∧ Exact before (.dec b) (.dec a)
      ↔ Number.Holds before (.dec a) (.dec b) := by
  constructor
  · rintro ⟨hexact, -⟩
    obtain ⟨c, hc, -⟩ := id hexact
    exact (exact_decimals before ((compare_decimals_some before a b).mp ⟨c, hc⟩)).mp hexact
  · intro h
    have hswap := holds_symm before h
    exact ⟨(exact_decimals before h.1).mpr h, (exact_decimals before hswap.1).mpr hswap⟩

lemma numbers_hold (m n : Number) :
    (m.Holds before n → Exact before m n ∧ Exact before n m)
      ∧ (Exact before m n ∧ Exact before n m →
        m.Holds before n ∨ ByChance (.number m) (.number n)) := by
  match m, n with
  | .dec a, .dec b =>
    exact ⟨(decimals_hold before a b).mpr, fun h => .inl ((decimals_hold before a b).mp h)⟩
  | .dec d, .i64 x =>
    rw [and_comm (a := Exact before _ _)]
    exact exact_mixed before (n := .i64 x) trivial d
  | .dec d, .u64 x =>
    rw [and_comm (a := Exact before _ _)]
    exact exact_mixed before (n := .u64 x) trivial d
  | .i64 x, .dec d => exact exact_mixed before (n := .i64 x) trivial d
  | .u64 x, .dec d => exact exact_mixed before (n := .u64 x) trivial d
  | .i64 x, .i64 y | .i64 x, .u64 y | .u64 x, .i64 y | .u64 x, .u64 y =>
    exact ⟨fun _ => ⟨exact_integers before trivial trivial, exact_integers before trivial trivial⟩,
      fun _ => .inl trivial⟩

lemma right_mixed_iff (m : Number) (s : Bytes) :
    (Right before toNumeric (.number m) (.string s) ↔ ∃ n, toNumeric s = some n ∧ ∃ c,
      m.compare before n = some c) ∧
      (Right before toNumeric (.string s) (.number m) ↔ ∃ n, toNumeric s = some n ∧ ∃ c,
        m.compare before n = some c) := by
  simp only [Right, SQLValue.compare]
  cases toNumeric s with
  | none => simp
  | some n =>
    cases h : m.compare before n with
    | none => simp [h]
    | some c => simp [h]

end Values

/-- Comparison of SQL values is right under the condition, and only then, unless a decimal's wrong
integral part is read back by chance. -/
theorem compare_right (before : Decimal → UInt32) (toNumeric : Bytes → Option Number)
    (a b : SQLValue) :
    (Holds before toNumeric a b → Right before toNumeric a b) ∧
      (Right before toNumeric a b → Holds before toNumeric a b ∨ ByChance a b) := by
  match a, b with
  | .number m, .number n =>
    rw [right_numbers_iff]
    exact numbers_hold before m n
  | .string s, .string t =>
    rw [right_strings_iff]
    exact ⟨id, .inl⟩
  | .number m, .string s =>
    simp only [(right_mixed_iff before toNumeric m s).1, compare_some_iff]
    exact ⟨id, .inl⟩
  | .string s, .number m =>
    simp only [(right_mixed_iff before toNumeric m s).2, compare_some_iff]
    exact ⟨id, .inl⟩

/-- The integer 5 and a string that is taken for 3000000000.0000000000. -/
theorem compare_right_large : Right (fun _ => 0) (fun _ => some (.dec threeBillion))
    (.number (.i64 5)) (.string [51]) := by
  have hcan : threeBillion.CanShrink := .inr ⟨[2, 0x540be400], rfl, by decide⟩
  exact (compare_right (fun _ => 0) (fun _ => some (.dec threeBillion)) (.number (.i64 5))
    (.string [51])).1 ⟨.dec threeBillion, rfl, hcan⟩

theorem compare_wrong :
    ¬Right (fun _ => 0) (fun _ => none) (.string [97]) (.string [97, 98]) ∧
    ¬Right (fun _ => 0) (fun _ => none) (.number (.i64 1)) (.number (.dec ⟨false, 1, [15]⟩)) ∧
    ¬Right (fun _ => 0) (fun _ => none) (.number (.dec ⟨false, 1, [15]⟩)) (.number (.i64 1)) := by
  have hne : number ⟨false, 1, [15]⟩ ≠ Number.value (.i64 1) := by
    intro h
    rw [number, div_eq_iff (by positivity)] at h
    have hvalue : value ⟨false, 1, [15]⟩ = (1 : Int64).toInt * 10 ^ 1 := by
      rw [Number.value] at h
      exact_mod_cast h
    exact absurd hvalue (by decide)
  refine ⟨?_, ?_, ?_⟩
  · rw [right_strings_iff, ← orders_strncmp_iff]
    exact fun h => absurd (orders_zero.mp h.1) (by decide)
  · rw [right_numbers_iff]
    exact fun h => hne ((exact_dec_integer _ (n := .i64 1) trivial _).mp h.2)
  · rw [right_numbers_iff]
    exact fun h => hne ((exact_dec_integer _ (n := .i64 1) trivial _).mp h.1)

end Mai.SqlValueCompare
