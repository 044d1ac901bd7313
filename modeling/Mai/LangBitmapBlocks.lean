import Mai.LangBitmap

/-!
# The blocks of a bitmap

Blocks are marked and cleared in any order while those that are live lie apart. `PageSpaceIterator`
(`lang/space.h`) steps from block to block; behind a block that ends with the bitmap its search
reads the word behind the bitmap.
-/
namespace Mai.LangBitmap
open List Option

inductive BlockOp
  | markAllocated (offset size : ℕ)
  | clearAllocated (offset : ℕ)

namespace Bitmap

def new (length : ℕ) : Bitmap := ⟨length, fun _ => false⟩

def call (b : Bitmap) : BlockOp → Option Bitmap
  | .markAllocated offset size => b.markAllocated offset size
  | .clearAllocated offset => b.clearAllocated offset

/-- `FindNextAllocated` where the word behind the bitmap has the bits `stray`. -/
def findNextChunk (stray : ℕ → Bool) (b : Bitmap) (offset : ℕ) : Option ℕ :=
  if offset / 8 / 32 = b.length then
    some ((((List.range' (offset / 8 % 32) (32 - offset / 8 % 32)).find? stray).elim (32 * b.length)
      (32 * b.length + ·)) * 8)
  else b.findNextAllocated offset

/-- The offsets and sizes that `PageSpaceIterator` passes, from the call of `FindNextChunk` on. -/
def iterate (stray : ℕ → Bool) (b : Bitmap) : ℕ → ℕ → Option (List (ℕ × ℕ))
  | 0, _ => none
  | fuel + 1, offset =>
    (b.findNextChunk stray offset).bind fun current =>
      if current < 256 * b.length then
        (b.allocatedSize current).bind fun size =>
          if 0 < size then (b.iterate stray fuel (current + size)).map ((current, size) :: ·)
          else some []
      else some []

end Bitmap

def live (length : ℕ) (blocks : List (ℕ × ℕ)) : BlockOp → Option (List (ℕ × ℕ))
  | .markAllocated offset size =>
    if offset % 8 = 0 ∧ size % 8 = 0 ∧ 16 ≤ size ∧ offset + size ≤ 256 * length ∧
        ∀ p ∈ blocks, offset / 8 + size / 8 ≤ p.1 ∨ p.1 + p.2 ≤ offset / 8 then
      some ((offset / 8, size / 8) :: blocks)
    else none
  | .clearAllocated offset =>
    if offset % 8 = 0 then (blocks.find? fun p => p.1 = offset / 8).map (blocks.erase ·) else none

/-- Sizes are found at the first words, there are none where no block starts or ends, and the
iterator passes the live blocks in the order of their addresses. -/
structure Recorded (b : Bitmap) (blocks : List (ℕ × ℕ)) : Prop where
  start : ∀ p ∈ blocks, b.allocatedSize (8 * p.1) = some (8 * p.2)
  other : ∀ offset < 256 * b.length, (∀ p ∈ blocks, offset / 8 ≠ p.1 ∧ offset / 8 ≠ p.1 + p.2 - 1) →
    b.allocatedSize offset = some 0
  iterate : ∀ stray, ∃ passed : List (ℕ × ℕ), b.iterate stray (32 * b.length + 1) 0 =
    some (passed.map fun p => (8 * p.1, 8 * p.2)) ∧
    passed.Pairwise (fun p q => p.1 < q.1) ∧ ∀ p, p ∈ passed ↔ p ∈ blocks

namespace Bitmap

section Run

variable {b : Bitmap} {blocks blocks' : List (ℕ × ℕ)}

lemma marks_new (length : ℕ) : Marks (new length) [] :=
  ⟨fun k => by simp [new], nodup_nil, nofun, nofun, nofun⟩

lemma Marks.call (h : Marks b blocks) (hbound : 256 * b.length ≤ 2 ^ 64) (op : BlockOp)
    (hop : live b.length blocks op = some blocks') :
    ∃ b', b.call op = some b' ∧ b'.length = b.length ∧ Marks b' blocks' := by
  cases op with
  | markAllocated offset size =>
    rw [live] at hop
    split_ifs at hop with hc
    cases hop
    obtain ⟨hoffset, hsize, hwide, hinside, hapart⟩ := hc
    have := h.markAllocated (i := offset / 8) (n := size / 8) (by omega) (by omega) (by omega)
      hapart
    rwa [Nat.div_mul_cancel (Nat.dvd_of_mod_eq_zero hoffset),
      Nat.div_mul_cancel (Nat.dvd_of_mod_eq_zero hsize)] at this
  | clearAllocated offset =>
    rw [live] at hop
    split_ifs at hop with hoffset
    obtain ⟨⟨i, n⟩, hfind, rfl⟩ := map_eq_some_iff.mp hop
    have hi : i = offset / 8 := by simpa using find?_some hfind
    have := h.clearAllocated (mem_of_find?_eq_some hfind)
    rwa [hi, Nat.div_mul_cancel (Nat.dvd_of_mod_eq_zero hoffset), ← hi] at this

lemma Marks.run {ops : List BlockOp} (h : Marks b blocks) (hbound : 256 * b.length ≤ 2 ^ 64)
    (hops : ops.foldlM (live b.length) blocks = some blocks') :
    ∃ b', ops.foldlM Bitmap.call b = some b' ∧ b'.length = b.length ∧ Marks b' blocks' := by
  induction ops generalizing b blocks with
  | nil =>
    cases hops
    exact ⟨b, rfl, rfl, h⟩
  | cons op ops ih =>
    obtain ⟨next, hop, hrest⟩ := bind_eq_some_iff.mp hops
    obtain ⟨b', hb, hlen, h'⟩ := h.call hbound op hop
    rw [← hlen] at hbound hrest ⊢
    rw [foldlM_cons, hb]
    exact ih h' hbound hrest

end Run

section Iterate

variable {b : Bitmap} {blocks : List (ℕ × ℕ)} {stray : ℕ → Bool}

lemma findNextOne_none {start : ℕ} (hstart : start < 32 * b.length)
    (hnone : ∀ i, start ≤ i → b.bits i = false) : b.findNextOne start = some (32 * b.length) := by
  have hwords : (List.range' (start / 32 + 1) (b.length - (start / 32 + 1))).findSome? (fun x =>
      b.firstOne x 0) = none := by
    refine findSome?_eq_none_iff.mpr fun x hx => firstOne_eq_none fun l _ _ => hnone _ ?_
    have := (mem_range'_1.mp hx).1
    omega
  rw [findNextOne, if_pos (by omega), firstOne_eq_none fun l hl _ => hnone _ (by omega), hwords]
  rfl

lemma Marks.findNextChunk (h : Marks b blocks) (stray : ℕ → Bool) {i : ℕ} (hi : i ≤ 32 * b.length)
    (hapart : ∀ p ∈ blocks, p.1 + p.2 ≤ i ∨ i ≤ p.1) :
    (∃ p ∈ blocks, i ≤ p.1 ∧ (∀ q ∈ blocks, i ≤ q.1 → p.1 ≤ q.1) ∧ b.findNextChunk stray (8 * i) =
      some (8 * p.1)) ∨
      (∀ p ∈ blocks, p.1 + p.2 ≤ i) ∧ ∃ current, b.findNextChunk stray (8 * i) = some current ∧
        256 * b.length ≤ current := by
  rw [Bitmap.findNextChunk, findNextAllocated, Nat.mul_div_cancel_left _ (by decide)]
  by_cases hsome : ∃ p ∈ blocks, i ≤ p.1
  · obtain ⟨p₀, hp₀, hi₀⟩ := hsome
    obtain ⟨p, hp, hmin⟩ :=
      (blocks.toFinset.filter (i ≤ ·.1)).exists_min_image Prod.fst ⟨p₀, by simp [hp₀, hi₀]⟩
    simp only [Finset.mem_filter, List.mem_toFinset, and_imp] at hp hmin
    have hinside := h.inside p hp.1
    have hwide := h.wide p hp.1
    have hnext : b.findNextOne i = some p.1 := by
      refine findNextOne_eq hp.2 (by omega) ((h.bits _).mpr ⟨p, hp.1, .inl rfl⟩) fun k hk hlt => ?_
      rw [Bool.eq_false_iff]
      intro hbit
      obtain ⟨q, hq, hkq⟩ := (h.bits k).mp hbit
      have := h.wide q hq
      rcases hapart q hq with hle | hle
      · omega
      · have := hmin q hq hle
        omega
    refine .inl ⟨p, hp.1, hp.2, hmin, ?_⟩
    rw [if_neg (by omega), hnext, map_some, Nat.mul_comm]
  · have hbelow (p : ℕ × ℕ) (hp : p ∈ blocks) : p.1 + p.2 ≤ i :=
      (hapart p hp).resolve_right fun hle => hsome ⟨p, hp, hle⟩
    refine .inr ⟨hbelow, ?_⟩
    split_ifs with hend
    · refine ⟨_, rfl, ?_⟩
      cases (List.range' (i % 32) (32 - i % 32)).find? stray <;> simp only [Option.elim] <;> omega
    · have hnone (k : ℕ) (hk : i ≤ k) : b.bits k = false := by
        rw [Bool.eq_false_iff]
        intro hbit
        obtain ⟨q, hq, hkq⟩ := (h.bits k).mp hbit
        have := hbelow q hq
        have := h.wide q hq
        omega
      rw [findNextOne_none (by omega) hnone]
      exact ⟨_, rfl, by dsimp only; omega⟩

lemma Marks.iterate (h : Marks b blocks) (stray : ℕ → Bool) (fuel : ℕ) {i : ℕ}
    (hfuel : 32 * b.length < fuel + i) (hi : i ≤ 32 * b.length)
    (hapart : ∀ p ∈ blocks, p.1 + p.2 ≤ i ∨ i ≤ p.1) :
    ∃ passed : List (ℕ × ℕ), b.iterate stray fuel (8 * i) =
      some (passed.map fun p => (8 * p.1, 8 * p.2)) ∧
      passed.Pairwise (fun p q => p.1 < q.1) ∧ ∀ p, p ∈ passed ↔ p ∈ blocks ∧ i ≤ p.1 := by
  induction fuel generalizing i with
  | zero => omega
  | succ fuel ih =>
    rw [Bitmap.iterate]
    rcases h.findNextChunk stray hi hapart with ⟨p, hp, hip, hmin, hnext⟩ | ⟨hbelow, current, hnext,
      hend⟩
    · have hwide := h.wide p hp
      have hinside := h.inside p hp
      have hbehind (q : ℕ × ℕ) (hq : q ∈ blocks) (hiq : i ≤ q.1) : q = p ∨ p.1 + p.2 ≤ q.1 := by
        refine or_iff_not_imp_left.mpr fun hne => ?_
        have := h.apart q hq p hp hne
        have := hmin q hq hiq
        have := h.wide q hq
        omega
      obtain ⟨passed, hrest, hsorted, hmem⟩ := ih (i := p.1 + p.2) (by omega) hinside fun q hq => by
        rcases hapart q hq with hle | hle
        · exact .inl (by omega)
        · rcases hbehind q hq hle with rfl | hle
          · exact .inl le_rfl
          · exact .inr hle
      have hsize : b.allocatedSize (8 * p.1) = some (8 * p.2) := by
        rw [Nat.mul_comm, Nat.mul_comm 8]
        exact h.allocatedSize hp
      refine ⟨p :: passed, ?_, pairwise_cons.mpr ⟨fun q hq => ?_, hsorted⟩, fun q => ?_⟩
      · rw [hnext, bind_some, if_pos (by omega), hsize, bind_some, if_pos (by omega), ← Nat.mul_add,
          hrest]
        rfl
      · have := ((hmem q).mp hq).2
        omega
      · rw [mem_cons, hmem]
        constructor
        · rintro (rfl | ⟨hq, hle⟩)
          · exact ⟨hp, hip⟩
          · exact ⟨hq, by omega⟩
        · rintro ⟨hq, hiq⟩
          exact (hbehind q hq hiq).imp_right fun hle => ⟨hq, hle⟩
    · refine ⟨[], ?_, List.Pairwise.nil, fun q => ?_⟩
      · rw [hnext, bind_some, if_neg (by omega)]
        rfl
      · refine iff_of_false (by simp) ?_
        rintro ⟨hq, hiq⟩
        have := hbelow q hq
        have := h.wide q hq
        omega

lemma Marks.recorded (h : Marks b blocks) : Recorded b blocks := by
  refine ⟨fun p hp => ?_, fun offset hoffset hother => ?_, fun stray => ?_⟩
  · rw [Nat.mul_comm, Nat.mul_comm 8]
    exact h.allocatedSize hp
  · have hbit : b.bits (offset / 8) = false := by
      rw [Bool.eq_false_iff]
      intro hbit
      obtain ⟨p, hp, hk⟩ := (h.bits _).mp hbit
      exact hk.elim (hother p hp).1 (hother p hp).2
    rw [Bitmap.allocatedSize, test, if_pos (by omega), hbit]
    rfl
  · obtain ⟨passed, hiterate, hsorted, hmem⟩ :=
      h.iterate stray (32 * b.length + 1) (i := 0) (by omega) (by omega)
      fun _ _ => .inr (Nat.zero_le _)
    exact ⟨passed, hiterate, hsorted, fun p => by simp [hmem]⟩

end Iterate

/-- After any calls on blocks that lie apart while they are live, the bitmap has recorded the live
blocks. -/
theorem live_blocks_recorded (length : ℕ) (hlength : 256 * length ≤ 2 ^ 64) (ops : List BlockOp)
    (blocks : List (ℕ × ℕ)) (hops : ops.foldlM (live length) [] = some blocks) :
    ∃ b, ops.foldlM call (new length) = some b ∧ b.length = length ∧ Recorded b blocks := by
  obtain ⟨b, hrun, hlen, hmarks⟩ := (marks_new length).run hlength hops
  exact ⟨b, hrun, hlen, hmarks.recorded⟩

theorem live_blocks_recorded_adjacent :
    ∃ b, [.markAllocated 0 128, .markAllocated 128 32, .clearAllocated 0,
      .markAllocated 160 96].foldlM call (new 1) = some b ∧
      b.length = 1 ∧ Recorded b [(20, 12), (16, 4)] :=
  live_blocks_recorded 1 (by decide) _ _ (by decide)

end Bitmap

end Mai.LangBitmap
