import Mathlib

/-!
# The allocation bitmap

`AllocationBitmap` (`lang/page.h`) has a bit for every eight bytes of a chunk. A block is
recorded by its first and its last bit, so that its size is found by looking for the next bit.
An access outside of the bitmap has no result.
-/
namespace Mai.LangBitmap
open Function List Option

structure Bitmap where
  /-- In words of 32 bits. -/
  length : ℕ
  bits : ℕ → Bool

namespace Bitmap

def test (b : Bitmap) (i : ℕ) : Option Bool := if i < 32 * b.length then some (b.bits i) else none

def write (b : Bitmap) (i : ℕ) (v : Bool) : Option Bitmap :=
  if i < 32 * b.length then some { b with bits := update b.bits i v } else none

def set (b : Bitmap) (i : ℕ) : Option Bitmap := b.write i true

def clear (b : Bitmap) (i : ℕ) : Option Bitmap := b.write i false

def firstOne (b : Bitmap) (x i : ℕ) : Option ℕ :=
  ((List.range' i (32 - i)).find? fun k => b.bits (32 * x + k)).map (32 * x + ·)

/-- `FindNextOne`: the rest of the word that `start` is in, then the words behind it. -/
def findNextOne (b : Bitmap) (start : ℕ) : Option ℕ :=
  if start / 32 < b.length then
    some (((b.firstOne (start / 32) (start % 32)).or
      ((List.range' (start / 32 + 1) (b.length - (start / 32 + 1))).findSome? fun x =>
        b.firstOne x 0)).getD (32 * b.length))
  else none

def predSize (n : ℕ) : ℕ := (n + (2 ^ 64 - 1)) % 2 ^ 64

def markAllocated (b : Bitmap) (offset size : ℕ) : Option Bitmap :=
  (b.set (offset / 8)).bind fun b => b.set (predSize (offset / 8 + size / 8))

def clearAllocated (b : Bitmap) (offset : ℕ) : Option Bitmap :=
  (b.findNextOne (offset / 8 + 1)).bind fun j => (b.clear (offset / 8)).bind fun b => b.clear j

def allocatedSize (b : Bitmap) (offset : ℕ) : Option ℕ :=
  (b.test (offset / 8)).bind fun allocated =>
    if allocated then (b.findNextOne (offset / 8 + 1)).map fun j => (j - offset / 8 + 1) * 8
    else some 0

def findNextAllocated (b : Bitmap) (offset : ℕ) : Option ℕ :=
  (b.findNextOne (offset / 8)).map (· * 8)

lemma predSize_eq {n : ℕ} (hpos : 0 < n) (hlt : n < 2 ^ 64) : predSize n = n - 1 := by
  rw [predSize]
  omega

section Search

variable {b : Bitmap} {start j : ℕ}

lemma firstOne_eq_some {x i k : ℕ} (hk : i ≤ k) (hlt : k < 32) (hbit : b.bits (32 * x + k) = true)
    (hnone : ∀ l, i ≤ l → l < k → b.bits (32 * x + l) = false) :
    b.firstOne x i = some (32 * x + k) := by
  have hsplit : List.range' i (32 - i) =
      List.range' i (k - i) ++ k :: List.range' (k + 1) (32 - (k + 1)) := by
    rw [← range'_succ, show 32 - (k + 1) + 1 = 32 - k by omega]
    conv_rhs => rw [show List.range' k (32 - k) = List.range' (i + 1 * (k - i)) (32 - k) by
      rw [Nat.one_mul, Nat.add_sub_cancel' hk]]
    rw [range'_append, show k - i + (32 - k) = 32 - i by omega]
  have hfirst : (List.range' i (k - i)).find? (fun l => b.bits (32 * x + l)) = none := by
    refine find?_eq_none.mpr fun l hl => ?_
    obtain ⟨hle, hl⟩ := mem_range'_1.mp hl
    simp [hnone l hle (by omega)]
  have hfind : (k :: List.range' (k + 1) (32 - (k + 1))).find? (fun l => b.bits (32 * x + l)) =
      some k :=
    find?_cons_of_pos (p := fun l => b.bits (32 * x + l)) hbit
  rw [firstOne, hsplit, find?_append, hfirst, none_or, hfind]
  rfl

lemma firstOne_eq_none {x i : ℕ} (hnone : ∀ l, i ≤ l → l < 32 → b.bits (32 * x + l) = false) :
    b.firstOne x i = none := by
  rw [firstOne, map_eq_none_iff, find?_eq_none]
  intro l hl
  obtain ⟨hle, hl⟩ := mem_range'_1.mp hl
  simp [hnone l hle (by omega)]

/-- One line of `Bits::FindFirstOne32`: the zeros counted so far and what is left of the word. -/
def skipZeros (k : ℕ) (p : ℕ × ℕ) : ℕ × ℕ := if p.2 % 2 ^ k = 0 then (p.1 + k, p.2 >>> k) else p

def oval : List ℕ := [4, 0, 1, 0, 2, 0, 1, 0, 3, 0, 1, 0, 2, 0, 1, 0]

def findFirstOne32 (x : ℕ) : ℕ :=
  let p := skipZeros 4 (skipZeros 8 (skipZeros 16 (0, x)))
  p.1 + oval.getD (p.2 % 2 ^ 4) 0

lemma skipZeros_spec {k : ℕ} {p : ℕ × ℕ} (h : p.2 % 2 ^ (k + k) ≠ 0) :
    (skipZeros k p).2 * 2 ^ (skipZeros k p).1 = p.2 * 2 ^ p.1 ∧ (skipZeros k p).2 % 2 ^ k ≠ 0 := by
  rw [skipZeros]
  split_ifs with hzero
  · rw [pow_add, Nat.mod_mul, hzero, Nat.zero_add] at h
    dsimp only
    rw [Nat.shiftRight_eq_div_pow]
    refine ⟨?_, fun hrest => h (by rw [hrest, Nat.mul_zero])⟩
    rw [Nat.add_comm, pow_add, ← Nat.mul_assoc, Nat.div_mul_cancel (Nat.dvd_of_mod_eq_zero hzero)]
  · exact ⟨rfl, hzero⟩

lemma oval_spec : ∀ y < 16, y ≠ 0 → oval.getD y 0 < 4 ∧ y.testBit (oval.getD y 0) = true
    ∧ ∀ l < oval.getD y 0, y.testBit l = false := by
  decide

lemma findFirstOne32_spec {x : ℕ} (hpos : x ≠ 0) (hlt : x < 2 ^ 32) :
    x.testBit (findFirstOne32 x) = true ∧ ∀ l < findFirstOne32 x, x.testBit l = false := by
  obtain ⟨h16, hne⟩ := skipZeros_spec (k := 16) (p := (0, x)) (by rwa [Nat.mod_eq_of_lt hlt])
  obtain ⟨h8, hne⟩ := skipZeros_spec (k := 8) hne
  obtain ⟨h4, hne⟩ := skipZeros_spec (k := 4) hne
  have hx : x = _ := (h4.trans (h8.trans (h16.trans (Nat.mul_one x)))).symm
  rw [findFirstOne32]
  generalize skipZeros 4 (skipZeros 8 (skipZeros 16 (0, x))) = p at hx hne
  obtain ⟨hfour, hone, hzeros⟩ := oval_spec (p.2 % 2 ^ 4) (Nat.mod_lt _ (by decide)) hne
  have hlow {l : ℕ} (hl : l < 4) : (p.2 % 2 ^ 4).testBit l = p.2.testBit l := by
    rw [Nat.testBit_mod_two_pow, decide_eq_true hl, Bool.true_and]
  rw [hx]
  constructor
  · rw [Nat.testBit_mul_two_pow, decide_eq_true (Nat.le_add_right _ _), Bool.true_and,
      Nat.add_sub_cancel_left, ← hlow hfour]
    exact hone
  · intro l hl
    rw [Nat.testBit_mul_two_pow]
    by_cases hle : p.1 ≤ l
    · have hrest := hzeros (l - p.1) (by omega)
      rw [hlow (by omega)] at hrest
      rw [hrest, Bool.and_false]
    · rw [decide_eq_false hle, Bool.false_and]

def word (b : Bitmap) (x : ℕ) : ℕ := Nat.ofBits fun i : Fin 32 => b.bits (32 * x + i)

/-- What a whole word is asked for is what `FindFirstOne32` computes of it. -/
lemma firstOne_word (x : ℕ) (h : b.word x ≠ 0) :
    b.firstOne x 0 = some (32 * x + findFirstOne32 (b.word x)) := by
  obtain ⟨hone, hzeros⟩ := findFirstOne32_spec h (Nat.ofBits_lt_two_pow _)
  have hlt : findFirstOne32 (b.word x) < 32 := by
    by_contra hge
    exact absurd (hone.symm.trans (Nat.testBit_ofBits_ge _ _ (not_lt.mp hge))) (by decide)
  have hbits {l : ℕ} (hl : l < 32) : (b.word x).testBit l = b.bits (32 * x + l) :=
    Nat.testBit_ofBits_lt _ _ hl
  refine firstOne_eq_some (Nat.zero_le _) hlt ((hbits hlt).symm.trans hone) fun l _ hl => ?_
  rw [← hbits (hl.trans hlt), hzeros l hl]

lemma findSome_words {x n y k : ℕ} (hy : x ≤ y) (hlt : y < x + n) (hk : k < 32)
    (hbit : b.bits (32 * y + k) = true)
    (hnone : ∀ i, 32 * x ≤ i → i < 32 * y + k → b.bits i = false) :
    (List.range' x n).findSome? (fun x => b.firstOne x 0) = some (32 * y + k) := by
  induction n generalizing x with
  | zero => omega
  | succ n ih =>
    rw [range'_succ, findSome?_cons]
    rcases Nat.eq_or_lt_of_le hy with rfl | hlt'
    · rw [firstOne_eq_some (Nat.zero_le k) hk hbit fun l _ hl => hnone _ (by omega) (by omega)]
    · rw [firstOne_eq_none fun l _ hl => hnone _ (by omega) (by omega)]
      exact ih hlt' (by omega) fun i hi => hnone i (by omega)

lemma findNextOne_eq (hj : start ≤ j) (hlt : j < 32 * b.length) (hbit : b.bits j = true)
    (hnone : ∀ i, start ≤ i → i < j → b.bits i = false) : b.findNextOne start = some j := by
  have hdiv : 32 * (j / 32) + j % 32 = j := Nat.div_add_mod j 32
  have hstart : 32 * (start / 32) + start % 32 = start := Nat.div_add_mod start 32
  have hmod : j % 32 < 32 := Nat.mod_lt _ (by decide)
  rw [findNextOne, if_pos (by omega)]
  by_cases hword : start / 32 = j / 32
  · rw [hword, firstOne_eq_some (k := j % 32) (by omega) hmod (by rw [hdiv]; exact hbit)
      fun l hle hl => hnone _ (by omega) (by omega), some_or, getD_some, hdiv]
  · rw [firstOne_eq_none fun l hle hl => hnone _ (by omega) (by omega), none_or,
      findSome_words (y := j / 32) (k := j % 32) (by omega) (by omega) hmod
      (by rw [hdiv]; exact hbit)
        fun i hle hl => hnone i (by omega) (by omega), getD_some, hdiv]

end Search

section Marks

/-- The bits that are set are the first and the last ones of the blocks, which lie apart in the
bitmap. A block is given by its first bit and its number of bits. -/
structure Marks (b : Bitmap) (blocks : List (ℕ × ℕ)) : Prop where
  bits : ∀ k, b.bits k = true ↔ ∃ p ∈ blocks, k = p.1 ∨ k = p.1 + p.2 - 1
  nodup : blocks.Nodup
  apart : ∀ p ∈ blocks, ∀ q ∈ blocks, p ≠ q → p.1 + p.2 ≤ q.1 ∨ q.1 + q.2 ≤ p.1
  wide : ∀ p ∈ blocks, 2 ≤ p.2
  inside : ∀ p ∈ blocks, p.1 + p.2 ≤ 32 * b.length

variable {b : Bitmap} {blocks : List (ℕ × ℕ)} {i n : ℕ}

lemma Marks.between (h : Marks b blocks) (hp : (i, n) ∈ blocks) {k : ℕ} (hi : i < k)
    (hk : k < i + n - 1) :
    b.bits k = false := by
  rw [Bool.eq_false_iff]
  intro hbit
  obtain ⟨q, hq, hkq⟩ := (h.bits k).mp hbit
  have hwide := h.wide q hq
  by_cases hne : (i, n) = q
  · subst hne
    dsimp only at hkq
    omega
  · have := h.apart _ hp _ hq hne
    dsimp only at this
    omega

lemma Marks.findNextOne (h : Marks b blocks) (hp : (i, n) ∈ blocks) :
    b.findNextOne (i + 1) = some (i + n - 1) := by
  have hwide : 2 ≤ n := h.wide _ hp
  have hinside : i + n ≤ 32 * b.length := h.inside _ hp
  exact findNextOne_eq (by omega) (by omega) ((h.bits _).mpr ⟨_, hp, .inr rfl⟩)
    fun k hk hlt => h.between hp (by omega) hlt

lemma Marks.allocatedSize (h : Marks b blocks) (hp : (i, n) ∈ blocks) :
    b.allocatedSize (i * 8) = some (n * 8) := by
  have hwide : 2 ≤ n := h.wide _ hp
  have hinside : i + n ≤ 32 * b.length := h.inside _ hp
  have hbit : b.bits i = true := (h.bits i).mpr ⟨_, hp, .inl rfl⟩
  rw [Bitmap.allocatedSize, Nat.mul_div_cancel _ (by decide), test, if_pos (by omega), bind_some,
    hbit, if_pos rfl, h.findNextOne hp, map_some, show i + n - 1 - i + 1 = n by omega]

lemma Marks.allocatedSize_free (h : Marks b blocks) (hi : i < 32 * b.length)
    (hfree : ∀ p ∈ blocks, i < p.1 ∨ p.1 + p.2 ≤ i) : b.allocatedSize (i * 8) = some 0 := by
  have hbit : b.bits i = false := by
    rw [Bool.eq_false_iff]
    intro hbit
    obtain ⟨p, hp, hip⟩ := (h.bits i).mp hbit
    have := hfree p hp
    have := h.wide p hp
    omega
  rw [Bitmap.allocatedSize, Nat.mul_div_cancel _ (by decide), test, if_pos hi, bind_some, hbit]
  rfl

lemma Marks.markAllocated (h : Marks b blocks) (hn : 2 ≤ n) (hinside : i + n ≤ 32 * b.length)
    (hbound : i + n < 2 ^ 64) (hapart : ∀ p ∈ blocks, i + n ≤ p.1 ∨ p.1 + p.2 ≤ i) :
    ∃ b', b.markAllocated (i * 8) (n * 8) = some b' ∧ b'.length = b.length ∧
      Marks b' ((i, n) :: blocks) := by
  rw [Bitmap.markAllocated, Nat.mul_div_cancel _ (by decide), Nat.mul_div_cancel _ (by decide),
    predSize_eq (by omega) hbound, set, write, if_pos (by omega), bind_some, set, write,
    if_pos (show i + n - 1 < 32 * b.length by omega)]
  have hnew : (i, n) ∉ blocks := fun hp => by
    have hself := hapart _ hp
    dsimp only at hself
    omega
  refine ⟨_, rfl, rfl, fun k => ?_, nodup_cons.mpr ⟨hnew, h.nodup⟩, ?_, ?_, ?_⟩
  · simp only [update_apply]
    split_ifs with hlast hfirst
    · exact iff_of_true rfl ⟨_, mem_cons_self, .inr hlast⟩
    · exact iff_of_true rfl ⟨_, mem_cons_self, .inl hfirst⟩
    · rw [h.bits]
      simp only [mem_cons, exists_eq_or_imp]
      exact (or_iff_right fun hk => hk.elim hfirst hlast).symm
  · rintro p (_ | ⟨_, hp⟩) q (_ | ⟨_, hq⟩) hne
    · exact absurd rfl hne
    · exact hapart q hq
    · exact (hapart p hp).symm
    · exact h.apart p hp q hq hne
  · rintro p (_ | ⟨_, hp⟩)
    · exact hn
    · exact h.wide p hp
  · rintro p (_ | ⟨_, hp⟩)
    · exact hinside
    · exact h.inside p hp

lemma Marks.clearAllocated (h : Marks b blocks) (hp : (i, n) ∈ blocks) :
    ∃ b', b.clearAllocated (i * 8) = some b' ∧ b'.length = b.length ∧
      Marks b' (blocks.erase (i, n)) := by
  have hwide : 2 ≤ n := h.wide _ hp
  have hinside : i + n ≤ 32 * b.length := h.inside _ hp
  rw [Bitmap.clearAllocated, Nat.mul_div_cancel _ (by decide), h.findNextOne hp, bind_some, clear,
    write, if_pos (by omega), bind_some, clear, write,
    if_pos (show i + n - 1 < 32 * b.length by omega)]
  have hmem : ∀ q, q ∈ blocks.erase (i, n) ↔ q ≠ (i, n) ∧ q ∈ blocks :=
    fun q => h.nodup.mem_erase_iff
  refine ⟨_, rfl, rfl, fun k => ?_, h.nodup.erase _,
    fun p hp' q hq => h.apart p ((hmem p).mp hp').2 q ((hmem q).mp hq).2,
    fun q hq => h.wide q ((hmem q).mp hq).2, fun q hq => h.inside q ((hmem q).mp hq).2⟩
  have hcleared : ∀ q ∈ blocks, q ≠ (i, n) → (k = q.1 ∨ k = q.1 + q.2 - 1) → k ≠ i ∧
      k ≠ i + n - 1 := by
    intro q hq hne hk
    have hapart := h.apart q hq _ hp hne
    have := h.wide q hq
    dsimp only at hapart
    omega
  simp only [update_apply]
  split_ifs with hlast hfirst
  · refine iff_of_false (by simp) ?_
    rintro ⟨q, hq, hk⟩
    exact (hcleared q ((hmem q).mp hq).2 ((hmem q).mp hq).1 hk).2 hlast
  · refine iff_of_false (by simp) ?_
    rintro ⟨q, hq, hk⟩
    exact (hcleared q ((hmem q).mp hq).2 ((hmem q).mp hq).1 hk).1 hfirst
  · rw [h.bits]
    refine exists_congr fun q => ?_
    rw [hmem]
    constructor
    · rintro ⟨hq, hk⟩
      refine ⟨⟨?_, hq⟩, hk⟩
      rintro rfl
      exact hk.elim hfirst hlast
    · rintro ⟨⟨-, hq⟩, hk⟩
      exact ⟨hq, hk⟩

end Marks

end Bitmap

end Mai.LangBitmap
