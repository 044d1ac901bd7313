import Mai.BaseBigShift
import Mai.ByteCodec

/-!
# Variable-length integers

The encoders of `base/varint-encoding.cc` are unrolled: they look for the highest group of seven
bits that is not zero and then write the groups from it downwards, all but the last one marked.
-/
namespace Mai.BaseVarint

open BaseBig ByteCodec List

def testOrSet {w : ℕ} (v mask : BitVec w) (k : ℕ) : UInt8 :=
  .ofBitVec (((v &&& mask <<< k) >>> k).setWidth 8)

def fill (group : ℕ → UInt8) : ℕ → List UInt8
  | 0 => [group 0]
  | c + 1 => (group (c + 1) ||| 0x80) :: fill group c

def group32 (v : UInt32) (c : ℕ) : UInt8 :=
  if c = 4 then testOrSet v.toBitVec 0xF 28 else testOrSet v.toBitVec 0x7F (c * 7)

def encode32 (v : UInt32) : List UInt8 :=
  let b := group32 v
  if b 4 ≠ 0 then fill b 4
  else if b 3 ≠ 0 then fill b 3
  else if b 2 ≠ 0 then fill b 2
  else if b 1 ≠ 0 then fill b 1
  else fill b 0

def group64 (v : UInt64) (c : ℕ) : UInt8 :=
  if c = 9 then testOrSet v.toBitVec 0x1 63 else testOrSet v.toBitVec 0x7F (c * 7)

def encode64 (v : UInt64) : List UInt8 :=
  let b := group64 v
  if v &&& 0xFFFE000000000000 ≠ 0 ∧ b 9 ≠ 0 then fill b 9
  else if v &&& 0xFFFE000000000000 ≠ 0 ∧ b 8 ≠ 0 then fill b 8
  else if v &&& 0xFFFE000000000000 ≠ 0 ∧ b 7 ≠ 0 then fill b 7
  else if v &&& 0x1FFFFF0000000 ≠ 0 ∧ b 6 ≠ 0 then fill b 6
  else if v &&& 0x1FFFFF0000000 ≠ 0 ∧ b 5 ≠ 0 then fill b 5
  else if v &&& 0x1FFFFF0000000 ≠ 0 ∧ b 4 ≠ 0 then fill b 4
  else if v &&& 0xFFFFF80 ≠ 0 ∧ b 3 ≠ 0 then fill b 3
  else if v &&& 0xFFFFF80 ≠ 0 ∧ b 2 ≠ 0 then fill b 2
  else if v &&& 0xFFFFF80 ≠ 0 ∧ b 1 ≠ 0 then fill b 1
  else fill b 0

def decodeLoop (out : UInt64) (i : ℕ) : List UInt8 → Option (UInt64 × ℕ)
  | [] => none
  | b :: bs =>
    if 0x80 ≤ b then decodeLoop ((out ||| (b &&& 0x7f).toUInt64) <<< 7) (i + 1) bs
    else some (out ||| b.toUInt64, i + 1)

def decode64 : List UInt8 → Option (UInt64 × ℕ) := decodeLoop 0 0

def decode32 (bytes : List UInt8) : Option (UInt32 × ℕ) :=
  (decode64 bytes).map fun r => (r.1.toUInt32, r.2)

def countLeadingZeros64 (x : UInt64) : ℕ :=
  if x &&& 0xFFFFFFFF00000000 = 0 then 32 + countLeadingZeros32 x.toUInt32
  else countLeadingZeros32 ((x &&& 0xFFFFFFFF00000000) >>> 32).toUInt32

def sizeof32 (v : UInt32) : ℕ := if v = 0 then 1 else (32 - countLeadingZeros32 v + 6) / 7

def sizeof64 (v : UInt64) : ℕ := if v = 0 then 1 else (64 - countLeadingZeros64 v + 6) / 7

section Encode

variable {group : ℕ → UInt8} {n c : ℕ}

lemma toNat_testOrSet {w k m : ℕ} (v : BitVec w) {mask : BitVec w} (hmask : mask.toNat = 2 ^ m - 1)
    (hm : m ≤ 8) (hk : k + m ≤ w) : (testOrSet v mask k).toNat = v.toNat / 2 ^ k % 2 ^ m := by
  have hfit : mask.toNat <<< k < 2 ^ w := by
    rw [hmask, Nat.shiftLeft_eq]
    calc (2 ^ m - 1) * 2 ^ k < 2 ^ m * 2 ^ k :=
          Nat.mul_lt_mul_of_pos_right (Nat.sub_lt (Nat.two_pow_pos m) one_pos) (Nat.two_pow_pos k)
      _ ≤ 2 ^ w := by
          rw [← pow_add, Nat.add_comm]
          exact Nat.pow_le_pow_right (by decide) hk
  have hbits : (v.toNat &&& mask.toNat <<< k) >>> k = v.toNat / 2 ^ k % 2 ^ m := by
    rw [Nat.shiftRight_and_distrib, Nat.shiftLeft_shiftRight, hmask, Nat.and_two_pow_sub_one_eq_mod,
      Nat.shiftRight_eq_div_pow]
  have hbyte : v.toNat / 2 ^ k % 2 ^ m < 2 ^ 8 :=
    (Nat.mod_lt _ (Nat.two_pow_pos m)).trans_le (Nat.pow_le_pow_right (by decide) hm)
  rw [testOrSet, UInt8.toNat_ofBitVec, BitVec.toNat_setWidth, BitVec.toNat_ushiftRight,
    BitVec.toNat_and, BitVec.toNat_shiftLeft, Nat.mod_eq_of_lt hfit, hbits, Nat.mod_eq_of_lt hbyte]

lemma toNat_group32 (v : UInt32) (hc : c ≤ 4) : (group32 v c).toNat = v.toNat / 128 ^ c % 128 := by
  have hlt := v.toNat_lt
  rw [group32, show (128 : ℕ) ^ c = 2 ^ (c * 7) by rw [Nat.mul_comm, pow_mul]; rfl]
  split_ifs with h
  · subst h
    rw [toNat_testOrSet (m := 4) _ rfl (by decide) (by decide), UInt32.toNat_toBitVec]
    omega
  · rw [toNat_testOrSet (m := 7) _ rfl (by decide) (by omega), UInt32.toNat_toBitVec]
    rfl

lemma toNat_group64 (v : UInt64) (hc : c ≤ 9) : (group64 v c).toNat = v.toNat / 128 ^ c % 128 := by
  have hlt := v.toNat_lt
  rw [group64, show (128 : ℕ) ^ c = 2 ^ (c * 7) by rw [Nat.mul_comm, pow_mul]; rfl]
  split_ifs with h
  · subst h
    rw [toNat_testOrSet (m := 1) _ rfl (by decide) (by decide), UInt64.toNat_toBitVec]
    omega
  · rw [toNat_testOrSet (m := 7) _ rfl (by decide) (by omega), UInt64.toNat_toBitVec]
    rfl

lemma marked {b : UInt8} (hb : b.toNat < 128) : b ||| 0x80 = UInt8.ofNat (b.toNat + 128) := by
  rw [← UInt8.toNat_inj, UInt8.toNat_or, UInt8.toNat_ofNat', Nat.or_comm,
    Nat.mod_eq_of_lt (by omega)]
  exact (Nat.two_pow_add_eq_or_of_lt (i := 7) hb 1).symm.trans (Nat.add_comm _ _)

lemma fill_eq (hgroup : ∀ i ≤ c, (group i).toNat = n / 128 ^ i % 128)
    (hc : c = 0 ∨ n / 128 ^ c ≠ 0) :
    leadingGroups (n / 128 ^ (c + 1)) ++ fill group c = toVarint n := by
  induction c with
  | zero =>
    have hlast := hgroup 0 le_rfl
    rw [pow_zero, Nat.div_one] at hlast
    rw [zero_add, pow_one, toVarint, fill, ← hlast, UInt8.ofNat_toNat]
  | succ c ih =>
    have hne := hc.resolve_left (Nat.succ_ne_zero c)
    have hdiv : n / 128 ^ (c + 1 + 1) = n / 128 ^ (c + 1) / 128 := by
      rw [pow_succ, Nat.div_div_eq_div_mul]
    have hg := hgroup (c + 1) le_rfl
    have hrest : n / 128 ^ c ≠ 0 :=
      fun h => hne (by rw [pow_succ, ← Nat.div_div_eq_div_mul, h, Nat.zero_div])
    rw [← ih (fun i hi => hgroup i (by omega)) (.inr hrest), fill, marked (by omega), hg, hdiv]
    conv_rhs => rw [leadingGroups, if_neg hne]
    simp

lemma fill_eq_toVarint (hgroup : ∀ i ≤ c, (group i).toNat = n / 128 ^ i % 128)
    (hlt : n < 128 ^ (c + 1)) (hc : c = 0 ∨ group c ≠ 0) : fill group c = toVarint n := by
  rw [← fill_eq hgroup (hc.imp_right fun h hzero => h ?_), Nat.div_eq_of_lt hlt, leadingGroups,
    if_pos rfl, nil_append]
  rw [← UInt8.toNat_inj, hgroup c le_rfl, hzero]
  rfl

lemma lt_of_group_zero (hgroup : (group c).toNat = n / 128 ^ c % 128) (hlt : n < 128 ^ (c + 1))
    (hzero : group c = 0) :
    n < 128 ^ c := by
  have hdiv : n / 128 ^ c < 128 := Nat.div_lt_of_lt_mul (by rwa [← pow_succ])
  rw [hzero, Nat.mod_eq_of_lt hdiv] at hgroup
  exact (Nat.div_eq_zero_iff.mp hgroup.symm).resolve_left (by positivity)

lemma fill_or_rest {P : Prop} [Decidable P] {rest : List UInt8}
    (hgroup : ∀ i ≤ c, (group i).toNat = n / 128 ^ i % 128) (hlt : n < 128 ^ (c + 1))
    (hP : ¬P → n < 128 ^ c) (hrest : n < 128 ^ c → rest = toVarint n) :
    (if P ∧ group c ≠ 0 then fill group c else rest) = toVarint n := by
  split_ifs with h
  · exact fill_eq_toVarint hgroup hlt (.inr h.2)
  · refine hrest ?_
    by_cases hp : P
    · exact lt_of_group_zero (hgroup c le_rfl) hlt (not_not.mp fun hne => h ⟨hp, hne⟩)
    · exact hP hp

lemma encode32_eq (v : UInt32) : encode32 v = toVarint v.toNat := by
  have hg (c : ℕ) (hc : c ≤ 4) (i : ℕ) (hi : i ≤ c) := toNat_group32 v (hi.trans hc)
  have hrest {c : ℕ} (hc : c ≤ 4) (hlt : v.toNat < 128 ^ (c + 1)) {rest : List UInt8}
      (h : v.toNat < 128 ^ c → rest = toVarint v.toNat) :
      (if group32 v c ≠ 0 then fill (group32 v) c else rest) = toVarint v.toNat := by
    have := fill_or_rest (P := True) (hg c hc) hlt (fun hP => absurd trivial hP) h
    simpa only [true_and] using this
  rw [encode32]
  refine hrest (by decide) (v.toNat_lt.trans (by decide)) fun h => ?_
  refine hrest (by decide) h fun h => hrest (by decide) h fun h => hrest (by decide) h fun h => ?_
  exact fill_eq_toVarint (hg 0 (by decide)) h (.inl rfl)

lemma lt_of_mask {v mask : UInt64} {k w : ℕ} (hmask : mask.toNat = (2 ^ w - 1) <<< k)
    (hlt : v.toNat < 2 ^ (k + w)) (h : v &&& mask = 0) : v.toNat < 2 ^ k := by
  have hbits : (v.toNat &&& mask.toNat) >>> k = 0 := by
    rw [← UInt64.toNat_and, h]; exact Nat.zero_shiftRight k
  rw [hmask, Nat.shiftRight_and_distrib, Nat.shiftLeft_shiftRight, Nat.and_two_pow_sub_one_eq_mod,
    Nat.shiftRight_eq_div_pow, Nat.mod_eq_of_lt (Nat.div_lt_of_lt_mul (by rwa [← pow_add]))]
    at hbits
  exact (Nat.div_eq_zero_iff.mp hbits).resolve_left (Nat.two_pow_pos k).ne'

lemma encode64_eq (v : UInt64) : encode64 v = toVarint v.toNat := by
  have hg (c : ℕ) (hc : c ≤ 9) (i : ℕ) (hi : i ≤ c) := toNat_group64 v (hi.trans hc)
  have hhigh (hm : ¬v &&& 0xFFFE000000000000 ≠ 0) : v.toNat < 128 ^ 7 :=
    lt_of_mask (k := 49) (w := 15) rfl v.toNat_lt (not_not.mp hm)
  rw [encode64]
  refine fill_or_rest (hg 9 (by decide)) (v.toNat_lt.trans (by decide))
    (fun hm => (hhigh hm).trans (by decide)) fun h => ?_
  refine fill_or_rest (hg 8 (by decide)) h (fun hm => (hhigh hm).trans (by decide)) fun h => ?_
  refine fill_or_rest (hg 7 (by decide)) h hhigh fun h => ?_
  have hmiddle (hm : ¬v &&& 0x1FFFFF0000000 ≠ 0) : v.toNat < 128 ^ 4 :=
    lt_of_mask (k := 28) (w := 21) rfl h (not_not.mp hm)
  refine fill_or_rest (hg 6 (by decide)) h (fun hm => (hmiddle hm).trans (by decide)) fun h => ?_
  refine fill_or_rest (hg 5 (by decide)) h (fun hm => (hmiddle hm).trans (by decide)) fun h => ?_
  refine fill_or_rest (hg 4 (by decide)) h hmiddle fun h => ?_
  have hlow (hm : ¬v &&& 0xFFFFF80 ≠ 0) : v.toNat < 128 ^ 1 :=
    lt_of_mask (k := 7) (w := 21) rfl h (not_not.mp hm)
  refine fill_or_rest (hg 3 (by decide)) h (fun hm => (hlow hm).trans (by decide)) fun h => ?_
  refine fill_or_rest (hg 2 (by decide)) h (fun hm => (hlow hm).trans (by decide)) fun h => ?_
  refine fill_or_rest (hg 1 (by decide)) h hlow fun h => ?_
  exact fill_eq_toVarint (hg 0 (by decide)) h (.inl rfl)

end Encode

lemma or_group (n : ℕ) (b : UInt8) (hb : b.toNat < 128) :
    UInt64.ofNat (128 * n) ||| b.toUInt64 = UInt64.ofNat (128 * n + b.toNat) := by
  rw [← UInt64.toNat_inj, UInt64.toNat_or, UInt64.toNat_ofNat', UInt64.toNat_ofNat',
    UInt8.toNat_toUInt64, show (128 * n) % 2 ^ 64 = 2 ^ 7 * (n % 2 ^ 57) by omega,
    ← Nat.two_pow_add_eq_or_of_lt hb]
  omega

lemma decodeLoop_eq (n i : ℕ) (bs : List UInt8) : decodeLoop (.ofNat (128 * n)) i bs =
    (readVarint (128 * n) bs).map fun r => (UInt64.ofNat r.1, i + bs.length - r.2.length) := by
  induction bs generalizing n i with
  | nil => rfl
  | cons b bs ih =>
    have hmask : (b &&& 0x7f).toNat = b.toNat % 128 := by
      rw [UInt8.toNat_and]
      exact Nat.and_two_pow_sub_one_eq_mod _ 7
    have hshift : UInt64.ofNat (128 * n + b.toNat % 128) <<< 7 =
        UInt64.ofNat (128 * (128 * n + b.toNat % 128)) := by
      rw [← UInt64.toNat_inj, UInt64.toNat_shiftLeft, UInt64.toNat_ofNat', UInt64.toNat_ofNat',
        Nat.shiftLeft_eq]
      change _ % 2 ^ 64 * 2 ^ 7 % 2 ^ 64 = _
      omega
    have hle : 0x80 ≤ b ↔ 128 ≤ b.toNat := UInt8.le_iff_toNat_le
    rw [decodeLoop, readVarint]
    by_cases hb : 128 ≤ b.toNat
    · rw [if_pos (hle.mpr hb), if_pos hb, or_group n _ (by rw [hmask]; omega), hmask, hshift, ih,
        length_cons, Nat.add_right_comm, Nat.add_assoc i]
    · rw [if_neg fun h => hb (hle.mp h), if_neg hb, or_group n b (not_le.mp hb), Option.map_some,
        length_cons]
      dsimp only
      congr 2
      omega

lemma decode64_toVarint (n : ℕ) (rest : List UInt8) :
    decode64 (toVarint n ++ rest) = some (UInt64.ofNat n, (toVarint n).length) := by
  have h := decodeLoop_eq 0 0 (toVarint n ++ rest)
  rw [Nat.mul_zero, readVarint_toVarint, Option.map_some, length_append] at h
  rw [decode64]
  exact h.trans (by simp)

lemma toVarint_inj_of_start {n m : ℕ} (h : toVarint n <+: toVarint m) : n = m := by
  obtain ⟨rest, h⟩ := h
  have hn := readVarint_toVarint n rest
  have hm := readVarint_toVarint m []
  rw [h] at hn
  rw [append_nil, hn] at hm
  cases hm
  rfl

lemma size_eq_of_lead {n z w : ℕ} (hlow : 2 ^ w ≤ n * 2 ^ z) (hhigh : n * 2 ^ z < 2 ^ (w + 1))
    (hz : z ≤ w) :
    n.size = w + 1 - z := by
  apply le_antisymm
  · rw [Nat.size_le, ← Nat.mul_lt_mul_right (Nat.two_pow_pos z), ← pow_add]
    rwa [show w + 1 - z + z = w + 1 by omega]
  · have hle : 2 ^ (w - z) ≤ n := by
      rw [← Nat.mul_le_mul_right_iff (Nat.two_pow_pos z), ← pow_add]
      rwa [Nat.sub_add_cancel hz]
    have := Nat.lt_size.mpr hle
    omega

lemma size_toNat {v : UInt32} (hv : v ≠ 0) : v.toNat.size = 32 - countLeadingZeros32 v := by
  obtain ⟨hlow, hhigh⟩ := countLeadingZeros32_spec hv
  refine size_eq_of_lead hlow hhigh (Nat.le_of_lt_succ ?_)
  refine Nat.lt_of_le_of_ne (countLeadingZeros32_le v) fun h => ?_
  have hpos : 0 < v.toNat := Nat.pos_of_ne_zero fun h => hv (UInt32.toNat_inj.mp h)
  rw [h] at hhigh
  omega

lemma size_toNat64 {v : UInt64} (hv : v ≠ 0) : v.toNat.size = 64 - countLeadingZeros64 v := by
  have hlt := v.toNat_lt
  have hhigh : (v &&& 0xFFFFFFFF00000000).toNat / 2 ^ 32 = v.toNat / 2 ^ 32 := by
    rw [UInt64.toNat_and, ← Nat.shiftRight_eq_div_pow, Nat.shiftRight_and_distrib,
      Nat.shiftRight_eq_div_pow]
    exact (Nat.and_two_pow_sub_one_eq_mod _ 32).trans (by omega)
  have hlow : (v &&& 0xFFFFFFFF00000000).toNat % 2 ^ 32 = 0 := by
    rw [UInt64.toNat_and, Nat.and_mod_two_pow]
    exact Nat.and_zero _
  have hword : ((v &&& 0xFFFFFFFF00000000) >>> 32).toUInt32.toNat = v.toNat / 2 ^ 32 := by
    rw [UInt64.toNat_toUInt32, UInt64.toNat_shiftRight, Nat.shiftRight_eq_div_pow]
    change _ / 2 ^ 32 % 2 ^ 32 = _
    omega
  have hmask : v &&& 0xFFFFFFFF00000000 = 0 ↔ v.toNat < 2 ^ 32 := by
    rw [← UInt64.toNat_inj, UInt64.toNat_zero]
    omega
  rw [countLeadingZeros64]
  split_ifs with h
  · have hnat : v.toUInt32.toNat = v.toNat := by
      rw [UInt64.toNat_toUInt32, Nat.mod_eq_of_lt (hmask.mp h)]
    have hsize := size_toNat (v := v.toUInt32) fun hzero =>
      hv (UInt64.toNat_inj.mp (by rw [← hnat, hzero]; rfl))
    rw [hnat] at hsize
    have := countLeadingZeros32_le v.toUInt32
    omega
  · have hle := not_lt.mp fun hsmall => h (hmask.mpr hsmall)
    have hsize := size_toNat (v := ((v &&& 0xFFFFFFFF00000000) >>> 32).toUInt32) fun hzero => by
      rw [hzero] at hword
      simp at hword
      omega
    rw [hword] at hsize
    have := countLeadingZeros32_le ((v &&& 0xFFFFFFFF00000000) >>> 32).toUInt32
    have := size_div hle
    omega

lemma sizeof32_eq (v : UInt32) : sizeof32 v = sizeofVarint v.toNat := by
  rw [sizeof32, sizeofVarint]
  by_cases hv : v = 0
  · rw [if_pos hv, hv, UInt32.toNat_zero, if_pos rfl]
  · have hne : v.toNat ≠ 0 := fun h => hv (UInt32.toNat_inj.mp h)
    rw [if_neg hv, if_neg hne, size_toNat hv]

lemma sizeof64_eq (v : UInt64) : sizeof64 v = sizeofVarint v.toNat := by
  rw [sizeof64, sizeofVarint]
  by_cases hv : v = 0
  · rw [if_pos hv, hv, UInt64.toNat_zero, if_pos rfl]
  · have hne : v.toNat ≠ 0 := fun h => hv (UInt64.toNat_inj.mp h)
    rw [if_neg hv, if_neg hne, size_toNat64 hv]

/-- Both codecs read back what they write and stop behind it, the lengths are those of `Sizeof`, no
code starts another one, and the codes of small numbers are the same. -/
theorem varint_codecs (v v' : UInt32) (w w' : UInt64) (rest : List UInt8) :
    decode32 (encode32 v ++ rest) = some (v, (encode32 v).length) ∧
    decode64 (encode64 w ++ rest) = some (w, (encode64 w).length) ∧
    (encode32 v).length = sizeof32 v ∧ (encode64 w).length = sizeof64 w ∧
    (encode32 v <+: encode32 v' → v = v') ∧ (encode64 w <+: encode64 w' → w = w') ∧
    encode32 v = encode64 v.toUInt64 := by
  simp only [encode32_eq, encode64_eq]
  refine ⟨?_, ?_, ?_, ?_, fun h => ?_, fun h => ?_, by rw [UInt32.toNat_toUInt64]⟩
  · simp [decode32, decode64_toVarint]
  · rw [decode64_toVarint, UInt64.ofNat_toNat]
  · rw [length_toVarint, sizeof32_eq]
  · rw [length_toVarint, sizeof64_eq]
  · exact UInt32.toNat_inj.mp (toVarint_inj_of_start h)
  · exact UInt64.toNat_inj.mp (toVarint_inj_of_start h)

end Mai.BaseVarint
