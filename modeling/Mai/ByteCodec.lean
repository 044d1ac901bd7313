import Mathlib

/-! Numbers as bytes: fixed width with the least significant byte first, and groups of seven bits
with the most significant group first, every group but the last one marked by the top bit. -/
namespace Mai.ByteCodec
open List

def toFixed : ℕ → ℕ → List UInt8
  | 0, _ => []
  | w + 1, n => UInt8.ofNat n :: toFixed w (n / 256)

def ofFixed : List UInt8 → ℕ
  | [] => 0
  | b :: bs => b.toNat + 256 * ofFixed bs

@[simp] lemma length_toFixed (w n : ℕ) : (toFixed w n).length = w := by
  induction w generalizing n with
  | zero => rfl
  | succ w ih => simp [toFixed, ih]

lemma ofFixed_toFixed_mod (w n : ℕ) : ofFixed (toFixed w n) = n % 256 ^ w := by
  induction w generalizing n with
  | zero => simp [toFixed, ofFixed, Nat.mod_one]
  | succ w ih =>
    have hpow : 256 ^ (w + 1) = 256 * 256 ^ w := pow_succ' 256 w
    rw [toFixed, ofFixed, ih, UInt8.toNat_ofNat', hpow, Nat.mod_mul]

lemma ofFixed_toFixed {w n : ℕ} (h : n < 256 ^ w) : ofFixed (toFixed w n) = n :=
  (ofFixed_toFixed_mod w n).trans (Nat.mod_eq_of_lt h)

lemma ofFixed_lt (bs : List UInt8) : ofFixed bs < 256 ^ bs.length := by
  induction bs with
  | nil => simp [ofFixed]
  | cons b bs ih =>
    have hb := b.toNat_lt
    rw [ofFixed, length_cons, pow_succ]
    omega

lemma toFixed_ofFixed (bs : List UInt8) : toFixed bs.length (ofFixed bs) = bs := by
  induction bs with
  | nil => rfl
  | cons b bs ih =>
    have hb := b.toNat_lt
    have hbyte : UInt8.ofNat (b.toNat + 256 * ofFixed bs) = b := by
      rw [← UInt8.toNat_inj, UInt8.toNat_ofNat']
      omega
    rw [length_cons, toFixed, ofFixed, hbyte, Nat.add_mul_div_left _ _ (by decide),
      Nat.div_eq_of_lt hb, Nat.zero_add, ih]

def leadingGroups (n : ℕ) : List UInt8 :=
  if n = 0 then [] else leadingGroups (n / 128) ++ [UInt8.ofNat (n % 128 + 128)]
decreasing_by exact Nat.div_lt_self (Nat.pos_of_ne_zero ‹_›) (by decide)

def toVarint (n : ℕ) : List UInt8 := leadingGroups (n / 128) ++ [UInt8.ofNat (n % 128)]

/-- Read groups on top of those already read; `none` if the bytes end before an unmarked one. -/
def readVarint (high : ℕ) : List UInt8 → Option (ℕ × List UInt8)
  | [] => none
  | b :: bs => if 128 ≤ b.toNat then readVarint (128 * (high + b.toNat % 128)) bs
      else some (high + b.toNat, bs)

lemma readVarint_leadingGroups (n : ℕ) (rest : List UInt8) :
    readVarint 0 (leadingGroups n ++ rest) = readVarint (128 * n) rest := by
  induction n using Nat.strong_induction_on generalizing rest with
  | _ n ih =>
    rw [leadingGroups]
    split_ifs with h
    · simp [h]
    · have hlt : n / 128 < n := Nat.div_lt_self (Nat.pos_of_ne_zero h) (by decide)
      have hbyte : (UInt8.ofNat (n % 128 + 128)).toNat = n % 128 + 128 := by
        rw [UInt8.toNat_ofNat']
        omega
      rw [append_assoc, ih _ hlt, singleton_append, readVarint, hbyte, if_pos (by omega)]
      congr 1
      omega

lemma readVarint_toVarint (n : ℕ) (rest : List UInt8) :
    readVarint 0 (toVarint n ++ rest) = some (n, rest) := by
  have hbyte : (UInt8.ofNat (n % 128)).toNat = n % 128 := by
    rw [UInt8.toNat_ofNat']
    omega
  rw [toVarint, append_assoc, readVarint_leadingGroups, singleton_append, readVarint, hbyte,
    if_neg (by omega)]
  congr 2
  omega

def sizeofVarint (n : ℕ) : ℕ := if n = 0 then 1 else (n.size + 6) / 7

lemma size_div {n k : ℕ} (h : 2 ^ k ≤ n) : (n / 2 ^ k).size + k = n.size := by
  have hpos : 0 < (n / 2 ^ k).size := Nat.size_pos.mpr (Nat.div_pos h (Nat.two_pow_pos k))
  apply le_antisymm
  · have hlow : 2 ^ ((n / 2 ^ k).size - 1) ≤ n / 2 ^ k := Nat.lt_size.mp (by omega)
    have hup : 2 ^ ((n / 2 ^ k).size - 1 + k) ≤ n := by
      rw [pow_add]
      exact Nat.mul_le_of_le_div _ _ _ hlow
    have := Nat.lt_size.mpr hup
    omega
  · rw [Nat.size_le, pow_add]
    exact Nat.lt_mul_of_div_lt (Nat.lt_size_self _) (Nat.two_pow_pos k)

lemma length_leadingGroups (n : ℕ) : (leadingGroups n).length = (n.size + 6) / 7 := by
  induction n using Nat.strong_induction_on with
  | _ n ih =>
    rw [leadingGroups]
    split_ifs with h
    · simp [h]
    · have hlt : n / 128 < n := Nat.div_lt_self (Nat.pos_of_ne_zero h) (by decide)
      rw [length_append, ih _ hlt, length_singleton]
      by_cases hn : 128 ≤ n
      · have : (n / 128).size + 7 = n.size := size_div (k := 7) hn
        omega
      · have h0 : n / 128 = 0 := by omega
        have hsize : 0 < n.size := Nat.size_pos.mpr (Nat.pos_of_ne_zero h)
        have hle : n.size ≤ 7 := Nat.size_le.mpr (by omega)
        rw [h0, Nat.size_zero]
        omega

lemma length_toVarint (n : ℕ) : (toVarint n).length = sizeofVarint n := by
  rw [toVarint, sizeofVarint]
  split_ifs with h
  · simp [h, leadingGroups]
  · have hgroups := length_leadingGroups n
    rw [leadingGroups, if_neg h] at hgroups
    simpa using hgroups

section Stream
variable {σ α : Type*}

def readLoop (read : σ → List UInt8 → σ × List UInt8) : ℕ → σ → List UInt8 → σ
  | 0, s, _ => s
  | _ + 1, s, [] => s
  | n + 1, s, b :: rd =>
    let (s, rd) := read s (b :: rd)
    readLoop read n s rd

def readToEnd (read : σ → List UInt8 → σ × List UInt8) (s : σ) (rd : List UInt8) : σ :=
  readLoop read rd.length s rd

theorem readToEnd_flatMap {read : σ → List UInt8 → σ × List UInt8} {encode : α → List UInt8}
    {f : σ → α → σ} {l : List α} (hne : ∀ a ∈ l, encode a ≠ [])
    (h : ∀ a ∈ l, ∀ s rest, read s (encode a ++ rest) = (f s a, rest)) (s : σ) :
    readToEnd read s (l.flatMap encode) = l.foldl f s := by
  suffices ∀ n, (l.flatMap encode).length ≤ n → readLoop read n s (l.flatMap encode) =
      l.foldl f s from
    this _ le_rfl
  induction l generalizing s with
  | nil => rintro (_ | n) - <;> rfl
  | cons a l ih =>
    intro n hn
    obtain ⟨b, bs, hcons⟩ := exists_cons_of_ne_nil (hne a (by simp))
    have hread := h a (by simp) s (l.flatMap encode)
    simp only [flatMap_cons, hcons, cons_append, length_cons, length_append] at hn hread ⊢
    cases n with
    | zero => omega
    | succ n =>
      simp only [readLoop, hread, foldl_cons]
      exact ih (fun a' ha' => hne a' (by simp [ha'])) (fun a' ha' => h a' (by simp [ha'])) _ n
        (by omega)

end Stream

end Mai.ByteCodec
