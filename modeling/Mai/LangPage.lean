import Mai.LangSemiSpace

/-!
# Pages of the old space

A page (`lang/page.h`, `lang/page.cc`) has a bitmap of its blocks and six lists of free chunks by
size. `OldSpace::PageAllocate` (`lang/space.cc`) takes the first chunk of a list; what is left
of it becomes a chunk again only if it is larger than the header of one, and is lost otherwise.
`OldSpace::Free` takes whatever follows a block and is not allocated for a chunk.
-/
namespace Mai.LangPage

open LangBitmap Function List Option

structure Chunk where
  offset : ℕ
  size : ℕ
  deriving DecidableEq

structure Block where
  offset : ℕ
  size : ℕ
  requested : ℕ
  deriving DecidableEq

/-- `live` is not part of the source: the blocks that have been handed out. -/
structure Page where
  regions : ℕ → List Chunk
  bitmap : Bitmap
  available : ℕ
  live : List Block

def bitmapSize : ℕ := 4032

def area : ℕ := bitmapSize * 256

def maxRegionChunks : ℕ := 6

def regionLimitSize : ℕ → ℕ
  | 0 => 32
  | 1 => 64
  | 2 => 128
  | 3 => 512
  | 4 => 1024
  | _ => 2 ^ 64 - 1

def findWantedRegion (size : ℕ) : ℕ :=
  ((List.range maxRegionChunks).find? fun i => size < regionLimitSize i).getD maxRegionChunks

def findFitRegion (p : Page) (size : ℕ) : Option ℕ :=
  (List.range maxRegionChunks).find? fun i => (p.regions i).head?.any fun c => size ≤ c.size

def findListRegion (p : Page) (size : ℕ) : Option ℕ :=
  (List.range maxRegionChunks).find? fun i => size < regionLimitSize i ∧ p.regions i ≠ []

def insertFitRegion (p : Page) (c : Chunk) : Page :=
  { p with
    regions := update p.regions (findWantedRegion c.size)
      (c :: p.regions (findWantedRegion c.size)) }

/-- `RemoveFitRegion`. Without a list to look in the lists are left behind. -/
def removeFitRegion (p : Page) (size offset : ℕ) : Option Page :=
  (findListRegion p size).map fun i =>
    { p with regions := update p.regions i ((p.regions i).eraseP fun c => c.offset = offset) }

def word (n : ℕ) : ℕ := n % 2 ^ 32

def subAvailable (p : Page) (n : ℕ) : Page :=
  { p with available := word (p.available + (2 ^ 32 - n)) }

def addAvailable (p : Page) (n : ℕ) : Page := { p with available := word (p.available + n) }

def initial : Page where
  regions := update (fun _ => []) (findWantedRegion area) [⟨0, area⟩]
  bitmap := ⟨bitmapSize, fun _ => false⟩
  available := area
  live := []

def isEmpty (p : Page) : Bool := area = p.available

def chunkHeader : ℕ := 16

def takeChunk (p : Page) (fit : ℕ) (c : Chunk) (next : List Chunk) (request : ℕ) : Page :=
  if chunkHeader < c.size - request then
    let chunk : Chunk := ⟨c.offset + request, word (c.size - request)⟩
    let wanted := findWantedRegion chunk.size
    let p := subAvailable p request
    if fit ≠ wanted then
      { p with regions := update (update p.regions fit next) wanted (chunk :: p.regions wanted) }
    else { p with regions := update p.regions wanted (chunk :: next) }
  else { subAvailable p c.size with regions := update p.regions fit next }

/-- `OldSpace::PageAllocate`, with the offset of the block if there is one. -/
def pageAllocate (p : Page) (request requested : ℕ) : Option (Page × Option ℕ) :=
  match findFitRegion p request with
  | none => some (p, none)
  | some fit =>
    match p.regions fit with
    | [] => none
    | c :: next =>
      ((takeChunk p fit c next request).bitmap.markAllocated c.offset request).map fun bitmap =>
        ({ takeChunk p fit c next request with
          bitmap := bitmap
          live := ⟨c.offset, request, requested⟩ :: p.live }, some c.offset)

def chunkAt (p : Page) (offset : ℕ) : Option Chunk :=
  ((List.range maxRegionChunks).flatMap p.regions).find? fun c => c.offset = offset

/-- The size of what is taken for a chunk behind a block: that of the chunk there, or the word
`stray` that the memory happens to hold. -/
def siblingSize (p : Page) (offset stray : ℕ) : ℕ :=
  match chunkAt p offset with
  | some c => c.size
  | none => word stray

def merge (p : Page) (offset size stray : ℕ) : Option (ℕ × Page) :=
  if offset + size < area then
    (p.bitmap.test ((offset + size) / 8)).bind fun allocated =>
      if allocated then some (size, p)
      else if 0 < siblingSize p (offset + size) stray then
        (removeFitRegion p (siblingSize p (offset + size) stray) (offset + size)).map fun p' =>
          (word (size + siblingSize p (offset + size) stray), p')
      else some (size, p)
  else some (size, p)

def free (p : Page) (offset stray : ℕ) : Option Page :=
  (p.bitmap.allocatedSize offset).bind fun size =>
    (merge p offset (word size) stray).bind fun r =>
      let p := addAvailable (insertFitRegion r.2 ⟨offset, r.1⟩) size
      (p.bitmap.clearAllocated offset).map fun bitmap =>
        { p with bitmap := bitmap, live := p.live.filter fun b => b.offset ≠ offset }

def Apart (a n b m : ℕ) : Prop := a + n ≤ b ∨ b + m ≤ a

/-- Blocks lie in the page, apart from each other, and are large enough; chunks lie in the page, in
the list of their size and only once, apart from each other and from the blocks. -/
structure WellFormed (p : Page) : Prop where
  sized : ∀ b ∈ p.live, p.bitmap.allocatedSize b.offset = some b.size ∧ b.requested ≤ b.size ∧
    b.offset + b.size ≤ area
  liveNodup : p.live.Nodup
  blocks : ∀ b ∈ p.live, ∀ d ∈ p.live, b ≠ d → Apart b.offset b.size d.offset d.size
  listed : ∀ i, ∀ c ∈ p.regions i, c.offset + c.size ≤ area ∧ findWantedRegion c.size = i
  once : ∀ i, (p.regions i).Nodup
  chunks : ∀ i, ∀ c ∈ p.regions i, ∀ j, ∀ d ∈ p.regions j, c ≠ d →
    Apart c.offset c.size d.offset d.size
  separate : ∀ i, ∀ c ∈ p.regions i, ∀ b ∈ p.live, Apart c.offset c.size b.offset b.size

def Bounded (p : Page) (offset stray : ℕ) : Prop :=
  ∀ b ∈ p.live, b.offset = offset → area ≤ offset + b.size ∨
    (∃ d ∈ p.live, d.offset = offset + b.size)
    ∨ (chunkAt p (offset + b.size)).isSome = true ∨ word stray = 0

instance decidableBounded (p : Page) (offset stray : ℕ) : Decidable (Bounded p offset stray) :=
  inferInstanceAs (Decidable (∀ b ∈ p.live, b.offset = offset → area ≤ offset + b.size
    ∨ (∃ d ∈ p.live, d.offset = offset + b.size) ∨ (chunkAt p (offset + b.size)).isSome = true ∨
      word stray = 0))

lemma findWantedRegion_spec (size : ℕ) (h : size < 2 ^ 64 - 1) :
    findWantedRegion size < 6 ∧ size < regionLimitSize (findWantedRegion size)
      ∧ ∀ i < findWantedRegion size, regionLimitSize i ≤ size := by
  have hsome : ∃ i, (List.range maxRegionChunks).find? (fun i => size < regionLimitSize i) =
      some i := by
    refine isSome_iff_exists.mp (find?_isSome.mpr ⟨5, by decide, ?_⟩)
    exact decide_eq_true h
  obtain ⟨i, hi⟩ := hsome
  have hwanted : findWantedRegion size = i := by rw [findWantedRegion, hi, getD_some]
  rw [hwanted]
  obtain ⟨hlt, hmem, hbefore⟩ := find?_range_eq_some.mp hi
  refine ⟨mem_range.mp hmem, of_decide_eq_true hlt, fun j hj => ?_⟩
  simpa using hbefore j hj

lemma findListRegion_listed {p : Page} {c : Chunk} (hsize : c.size < 2 ^ 64 - 1)
    (hc : c ∈ p.regions (findWantedRegion c.size)) :
    findListRegion p c.size = some (findWantedRegion c.size) := by
  obtain ⟨hlt, hlimit, hbefore⟩ := findWantedRegion_spec c.size hsize
  refine find?_range_eq_some.mpr ⟨?_, mem_range.mpr hlt, fun j hj => ?_⟩
  · exact decide_eq_true ⟨hlimit, ne_nil_of_mem hc⟩
  · have := hbefore j hj
    simp only [Bool.not_eq_true', decide_eq_false_iff_not, not_and_or, not_lt]
    exact .inl this

section Lists

lemma Apart.symm {a n b m : ℕ} (h : Apart a n b m) : Apart b m a n := Or.symm h

lemma Apart.part {a n b m a' n' : ℕ} (h : Apart a n b m) (hstart : a ≤ a')
    (hend : a' + n' ≤ a + n) : Apart a' n' b m := by
  unfold Apart at *
  omega

structure Lists (regions : ℕ → List Chunk) (live : List Block) : Prop where
  aligned : ∀ i, ∀ c ∈ regions i, c.offset % 8 = 0 ∧ c.size % 8 = 0 ∧ chunkHeader ≤ c.size
  listed : ∀ i, ∀ c ∈ regions i, c.offset + c.size ≤ area ∧ findWantedRegion c.size = i
  once : ∀ i, (regions i).Nodup
  chunks : ∀ i, ∀ c ∈ regions i, ∀ j, ∀ d ∈ regions j, c ≠ d → Apart c.offset c.size d.offset d.size
  separate : ∀ i, ∀ c ∈ regions i, ∀ b ∈ live, Apart c.offset c.size b.offset b.size

variable {regions : ℕ → List Chunk} {live : List Block} {i : ℕ} {c : Chunk} {b : Block} {j : ℕ}

lemma mem_update_of_sublist {l : List Chunk} (hl : l.Sublist (regions i)) {d : Chunk}
    (hd : d ∈ update regions i l j) : d ∈ regions j := by
  by_cases hj : j = i
  · subst hj
    rw [update_self] at hd
    exact hl.subset hd
  · rwa [update_of_ne hj] at hd

lemma Lists.shrink (h : Lists regions live) {l : List Chunk} (hl : l.Sublist (regions i)) :
    Lists (update regions i l) live where
  aligned j d hd := h.aligned j d (mem_update_of_sublist hl hd)
  listed j d hd := h.listed j d (mem_update_of_sublist hl hd)
  once j := by
    by_cases hj : j = i
    · subst hj
      rw [update_self]
      exact (h.once j).sublist hl
    · rw [update_of_ne hj]
      exact h.once j
  chunks j d hd k e he :=
    h.chunks j d (mem_update_of_sublist hl hd) k e (mem_update_of_sublist hl he)
  separate j d hd := h.separate j d (mem_update_of_sublist hl hd)

lemma mem_update_cons {c d : Chunk} {w j : ℕ} (hd : d ∈ update regions w (c :: regions w) j) :
    (d = c ∧ j = w) ∨ d ∈ regions j := by
  by_cases hj : j = w
  · subst hj
    rw [update_self] at hd
    exact (mem_cons.mp hd).imp_left fun heq => ⟨heq, rfl⟩
  · rw [update_of_ne hj] at hd
    exact .inr hd

lemma Lists.insert (h : Lists regions live)
    (haligned : c.offset % 8 = 0 ∧ c.size % 8 = 0 ∧ chunkHeader ≤ c.size)
    (hinside : c.offset + c.size ≤ area)
    (hchunks : ∀ j, ∀ d ∈ regions j, Apart c.offset c.size d.offset d.size)
    (hlive : ∀ b ∈ live, Apart c.offset c.size b.offset b.size) :
    Lists (update regions (findWantedRegion c.size) (c :: regions (findWantedRegion c.size)))
      live := by
  have hpos : 16 ≤ c.size := haligned.2.2
  have hnew : ∀ j, c ∉ regions j := fun j hc => by
    have hself := hchunks j c hc
    unfold Apart at hself
    omega
  refine ⟨fun j d hd => ?_, fun j d hd => ?_, fun j => ?_, fun j d hd k e he hne => ?_,
    fun j d hd => ?_⟩
  · rcases mem_update_cons hd with ⟨rfl, -⟩ | hd
    · exact haligned
    · exact h.aligned j d hd
  · rcases mem_update_cons hd with ⟨rfl, rfl⟩ | hd
    · exact ⟨hinside, rfl⟩
    · exact h.listed j d hd
  · by_cases hj : j = findWantedRegion c.size
    · subst hj
      rw [update_self]
      exact nodup_cons.mpr ⟨hnew _, h.once _⟩
    · rw [update_of_ne hj]
      exact h.once j
  · rcases mem_update_cons hd with ⟨hdc, -⟩ | hd' <;> rcases mem_update_cons he with ⟨hec, -⟩ | he'
    · exact absurd (hdc.trans hec.symm) hne
    · rw [hdc]
      exact hchunks k e he'
    · rw [hec]
      exact (hchunks j d hd').symm
    · exact h.chunks j d hd' k e he' hne
  · rcases mem_update_cons hd with ⟨rfl, -⟩ | hd
    · exact hlive
    · exact h.separate j d hd

lemma Lists.addBlock (h : Lists regions live)
    (hb : ∀ j, ∀ d ∈ regions j, Apart d.offset d.size b.offset b.size) :
    Lists regions (b :: live) where
  aligned := h.aligned
  listed := h.listed
  once := h.once
  chunks := h.chunks
  separate j d hd := by
    rintro e (_ | ⟨_, he⟩)
    · exact hb j d hd
    · exact h.separate j d hd e he

lemma Lists.dropBlocks (h : Lists regions live) {rest : List Block} (hrest : ∀ b ∈ rest, b ∈ live) :
    Lists regions rest where
  aligned := h.aligned
  listed := h.listed
  once := h.once
  chunks := h.chunks
  separate j d hd b hb := h.separate j d hd b (hrest b hb)

lemma Lists.apart_of_taken (h : Lists regions live) (l₁ : List Chunk) {l₂ : List Chunk}
    (hi : regions i = l₁ ++ c :: l₂) {d : Chunk} (hd : d ∈ update regions i (l₁ ++ l₂) j) :
    Apart c.offset c.size d.offset d.size := by
  have hc : c ∈ regions i := by rw [hi]; exact mem_append_cons_self
  have hsub : (l₁ ++ l₂).Sublist (regions i) := by
    rw [hi]; exact (sublist_cons_self c l₂).append_left l₁
  refine h.chunks i c hc j d (mem_update_of_sublist hsub hd) ?_
  rintro rfl
  have hji : j = i :=
    (h.listed j c (mem_update_of_sublist hsub hd)).2.symm.trans (h.listed i c hc).2
  subst hji
  rw [update_self] at hd
  have hnodup := h.once j
  rw [hi, nodup_middle] at hnodup
  exact (nodup_cons.mp hnodup).1 hd

lemma Lists.take (h : Lists regions live) {next : List Chunk} (hi : regions i = c :: next)
    (hoffset : b.offset = c.offset) (hsize : b.size ≤ c.size) :
    Lists (update regions i next) (b :: live) := by
  have hsub : next.Sublist (regions i) := by rw [hi]; exact sublist_cons_self c next
  refine (h.shrink hsub).addBlock fun j d hd => ((h.apart_of_taken [] hi hd).part ?_ ?_).symm
  · exact hoffset.ge
  · omega

lemma Lists.split (h : Lists regions live) {next : List Chunk} (hi : regions i = c :: next)
    (hoffset : b.offset = c.offset) (hmod : b.size % 8 = 0)
    (hsize : chunkHeader < c.size - b.size) :
    let rest : Chunk := ⟨c.offset + b.size, c.size - b.size⟩
    Lists (update (update regions i next) (findWantedRegion rest.size)
      (rest :: update regions i next (findWantedRegion rest.size))) (b :: live) := by
  have hc : c ∈ regions i := by rw [hi]; exact mem_cons_self
  obtain ⟨hoffset8, hsize8, -⟩ := h.aligned i c hc
  obtain ⟨hinside, -⟩ := h.listed i c hc
  unfold chunkHeader at hsize
  refine (h.take hi hoffset (by omega)).insert ⟨?_, ?_, ?_⟩ ?_ (fun j d hd => ?_) ?_
  · dsimp only
    omega
  · dsimp only
    omega
  · exact hsize.le
  · dsimp only
    omega
  · exact (h.apart_of_taken [] hi hd).part (Nat.le_add_right _ _) (by dsimp only; omega)
  · rintro d (_ | ⟨_, hd⟩)
    · exact .inr (by rw [hoffset])
    · exact (h.separate i c hc d hd).part (Nat.le_add_right _ _) (by dsimp only; omega)

lemma Lists.eq_of_offset (h : Lists regions live) {c d : Chunk} (hc : c ∈ regions i)
    (hd : d ∈ regions j) (hoffset : c.offset = d.offset) : c = d := by
  by_contra hne
  have hapart := h.chunks i c hc j d hd hne
  have hpos : 16 ≤ c.size := (h.aligned i c hc).2.2
  have hpos' : 16 ≤ d.size := (h.aligned j d hd).2.2
  unfold Apart at hapart
  omega

lemma Lists.eraseP (h : Lists regions live) (hc : c ∈ regions i) :
    ∃ l₁ l₂, regions i = l₁ ++ c :: l₂ ∧ ((regions i).eraseP fun d => d.offset = c.offset) =
      l₁ ++ l₂ := by
  obtain ⟨d, l₁, l₂, -, hd, hsplit, herase⟩ :=
    exists_of_eraseP (p := fun d => decide (d.offset = c.offset)) hc (decide_eq_true rfl)
  have hdc : d = c :=
    h.eq_of_offset (by rw [hsplit]; exact mem_append_cons_self) hc (of_decide_eq_true hd)
  subst hdc
  exact ⟨l₁, l₂, hsplit, herase⟩

lemma Apart.join {a n m b k : ℕ} (hk : 0 < k) (h : Apart a n b k) (h' : Apart (a + n) m b k) :
    Apart a (n + m) b k := by
  unfold Apart at *
  omega

def chunkBytes (regions : ℕ → List Chunk) : ℕ :=
  ∑ i ∈ Finset.range maxRegionChunks, ((regions i).map Chunk.size).sum

lemma chunkBytes_update (regions : ℕ → List Chunk) (hi : i < maxRegionChunks) (l : List Chunk) :
    chunkBytes (update regions i l) + ((regions i).map Chunk.size).sum
      = chunkBytes regions + (l.map Chunk.size).sum := by
  have hmem : i ∈ Finset.range maxRegionChunks := Finset.mem_range.mpr hi
  have hcongr : ∀ j ∈ (Finset.range maxRegionChunks).erase i,
      ((update regions i l j).map Chunk.size).sum = ((regions j).map Chunk.size).sum :=
      fun j hj => by
    rw [update_of_ne (Finset.ne_of_mem_erase hj)]
  rw [chunkBytes, chunkBytes, ← Finset.sum_erase_add _ _ hmem,
    ← Finset.sum_erase_add (Finset.range _) _ hmem, Finset.sum_congr rfl hcongr, update_self]
  omega

lemma size_le_chunkBytes (hi : i < maxRegionChunks) (hc : c ∈ regions i) :
    c.size ≤ chunkBytes regions := by
  calc c.size ≤ ((regions i).map Chunk.size).sum :=
    single_le_sum (by simp) _ (List.mem_map_of_mem hc)
    _ ≤ chunkBytes regions :=
      Finset.single_le_sum (f := fun i => ((regions i).map Chunk.size).sum) (by simp)
        (Finset.mem_range.mpr hi)

end Lists

section Pages

def unit (b : Block) : ℕ × ℕ := (b.offset / 8, b.size / 8)

def liveBytes (p : Page) : ℕ := (p.live.map Block.size).sum

structure Sound (p : Page) : Prop where
  length : p.bitmap.length = bitmapSize
  marks : Bitmap.Marks p.bitmap (p.live.map unit)
  aligned : ∀ b ∈ p.live, b.offset % 8 = 0 ∧ b.size % 8 = 0 ∧ b.requested ≤ b.size
  lists : Lists p.regions p.live
  available : p.available = chunkBytes p.regions
  bytes : p.available + liveBytes p ≤ area

variable {p q : Page} {b : Block} {c : Chunk} {fit request : ℕ} {next : List Chunk} {i : ℕ}

lemma Sound.liveNodup (h : Sound p) : p.live.Nodup := List.Nodup.of_map _ h.marks.nodup

lemma area_eq : area = 8 * (32 * bitmapSize) := rfl

lemma Sound.inside (h : Sound p) (hb : b ∈ p.live) : b.offset + b.size ≤ area ∧ 16 ≤ b.size := by
  have hinside := h.marks.inside _ (List.mem_map_of_mem hb)
  have hwide := h.marks.wide _ (List.mem_map_of_mem hb)
  obtain ⟨hoffset, hsize, -⟩ := h.aligned b hb
  rw [h.length] at hinside
  dsimp only [unit] at hinside hwide
  rw [area_eq]
  generalize bitmapSize = n at hinside ⊢
  omega

lemma Sound.blocks (h : Sound p) {b d : Block} (hb : b ∈ p.live) (hd : d ∈ p.live) (hne : b ≠ d) :
    Apart b.offset b.size d.offset d.size := by
  have hunit : unit b ≠ unit d := fun heq => hne (inj_on_of_nodup_map h.marks.nodup hb hd heq)
  have hapart := h.marks.apart _ (List.mem_map_of_mem hb) _ (List.mem_map_of_mem hd) hunit
  obtain ⟨hoffset, hsize, -⟩ := h.aligned b hb
  obtain ⟨hoffset', hsize', -⟩ := h.aligned d hd
  dsimp only [unit] at hapart
  unfold Apart
  omega

lemma Sound.allocatedSize (h : Sound p) (hb : b ∈ p.live) :
    p.bitmap.allocatedSize b.offset = some b.size := by
  have hsize := h.marks.allocatedSize (i := b.offset / 8) (n := b.size / 8) (List.mem_map_of_mem hb)
  obtain ⟨hoffset, hmod, -⟩ := h.aligned b hb
  rwa [show b.offset / 8 * 8 = b.offset by omega, show b.size / 8 * 8 = b.size by omega] at hsize

lemma Sound.wellFormed (h : Sound p) : WellFormed p where
  sized b hb := ⟨h.allocatedSize hb, (h.aligned b hb).2.2, (h.inside hb).1⟩
  liveNodup := h.liveNodup
  blocks _ hb _ hd := h.blocks hb hd
  listed := h.lists.listed
  once := h.lists.once
  chunks := h.lists.chunks
  separate := h.lists.separate

lemma area_lt : area < 2 ^ 32 := by decide

lemma findWantedRegion_area : findWantedRegion area = 5 := by decide

lemma initial_regions (i : ℕ) : initial.regions i = if i = 5 then [⟨0, area⟩] else [] := by
  simp only [initial, findWantedRegion_area, update_apply]

lemma mem_initial (hc : c ∈ initial.regions i) : i = 5 ∧ c = ⟨0, area⟩ := by
  rw [initial_regions] at hc
  split_ifs at hc with hi
  · exact ⟨hi, mem_singleton.mp hc⟩
  · cases hc

lemma sound_initial : Sound initial where
  length := rfl
  marks := ⟨by simp [initial], nodup_nil, by simp [initial], by simp [initial], by simp [initial]⟩
  aligned := by simp [initial]
  lists := by
    refine ⟨fun i c hc => ?_, fun i c hc => ?_, fun i => ?_, fun i c hc j d hd hne => ?_,
      by simp [initial]⟩
    · obtain ⟨-, rfl⟩ := mem_initial hc
      decide
    · obtain ⟨rfl, rfl⟩ := mem_initial hc
      exact ⟨(Nat.zero_add _).le, findWantedRegion_area⟩
    · rw [initial_regions]
      split_ifs
      · exact nodup_singleton _
      · exact nodup_nil
    · exact absurd ((mem_initial hc).2.trans (mem_initial hd).2.symm) hne
  available := by decide
  bytes := le_rfl

lemma takeChunk_regions :
    (takeChunk p fit c next request).regions =
      if chunkHeader < c.size - request then
        (insertFitRegion { p with regions := update p.regions fit next }
          ⟨c.offset + request, word (c.size - request)⟩).regions
      else update p.regions fit next := by
  unfold takeChunk
  dsimp only [insertFitRegion, subAvailable]
  split_ifs with hlarge hfit
  · rw [update_of_ne (Ne.symm hfit)]
  · rw [← not_not.mp hfit, update_self, update_idem]
  · rfl

lemma takeChunk_bitmap :
    (takeChunk p fit c next request).bitmap = p.bitmap := by
  unfold takeChunk
  dsimp only [subAvailable]
  split_ifs <;> rfl

lemma takeChunk_available :
    (takeChunk p fit c next request).available
      = word (p.available + (2 ^ 32 - if chunkHeader < c.size - request then request
        else c.size)) := by
  unfold takeChunk
  dsimp only [subAvailable]
  split_ifs <;> rfl

lemma word_sub {a n : ℕ} (hn : n ≤ a) (ha : a < 2 ^ 32) : word (a + (2 ^ 32 - n)) = a - n := by
  rw [word]
  omega

lemma findFitRegion_some {request fit : ℕ} (hfit : findFitRegion p request = some fit) :
    fit < maxRegionChunks ∧ ∃ c next, p.regions fit = c :: next ∧ request ≤ c.size := by
  obtain ⟨hhead, hmem, -⟩ := find?_range_eq_some.mp hfit
  refine ⟨mem_range.mp hmem, ?_⟩
  cases hlist : p.regions fit with
  | nil => simp [hlist] at hhead
  | cons c next => exact ⟨c, next, rfl, by simpa [hlist] using hhead⟩

lemma Sound.markAllocated (h : Sound p) (hc : c ∈ p.regions fit)
    (hmod : request % 8 = 0) (hwide : 16 ≤ request) (hle : request ≤ c.size) :
    ∃ bitmap, p.bitmap.markAllocated c.offset request = some bitmap ∧ bitmap.length = bitmapSize
      ∧ Bitmap.Marks bitmap ((c.offset / 8, request / 8) :: p.live.map unit) := by
  obtain ⟨hoffset, hsize, -⟩ := h.lists.aligned fit c hc
  obtain ⟨hinside, -⟩ := h.lists.listed fit c hc
  have harea := area_lt
  have harea' := area_eq
  obtain ⟨bitmap, hmark, hlength, hmarks⟩ :=
    h.marks.markAllocated (i := c.offset / 8) (n := request / 8) (by omega)
    (by rw [h.length]; omega) (by omega) fun u hu => by
      -- the block lies in a chunk, and chunks lie apart from the blocks
      obtain ⟨b, hb, rfl⟩ := List.mem_map.mp hu
      have hapart := h.lists.separate fit c hc b hb
      obtain ⟨hb8, hb8', -⟩ := h.aligned b hb
      unfold Apart at hapart
      dsimp only [unit]
      omega
  rw [show c.offset / 8 * 8 = c.offset by omega, show request / 8 * 8 = request by omega] at hmark
  exact ⟨bitmap, hmark, hlength.trans h.length, hmarks⟩

lemma Sound.pageAllocate_some (h : Sound p) {request requested fit : ℕ}
    (hfit : findFitRegion p request = some fit) (hlist : p.regions fit = c :: next)
    (hmod : request % 8 = 0) (hwide : 16 ≤ request) (hrequested : requested ≤ request) :
    ∃ q, LangPage.pageAllocate p request requested = some (q, some c.offset) ∧ Sound q
      ∧ liveBytes q = request + liveBytes p
      ∧ q.available + (if chunkHeader < c.size - request then request else c.size) =
        p.available := by
  obtain ⟨hlt, d, next', hlist', hle⟩ := findFitRegion_some hfit
  obtain ⟨rfl, rfl⟩ := List.cons.inj (hlist'.symm.trans hlist)
  have hc : d ∈ p.regions fit := by rw [hlist]; exact mem_cons_self
  obtain ⟨hoffset, -⟩ := h.lists.aligned fit d hc
  obtain ⟨hinside, -⟩ := h.lists.listed fit d hc
  have harea := area_lt
  have hrest : word (d.size - request) = d.size - request := Nat.mod_eq_of_lt (by omega)
  obtain ⟨bitmap, hmark, hlength, hmarks⟩ := h.markAllocated hc hmod hwide hle
  have havailable : d.size ≤ p.available := h.available ▸ size_le_chunkBytes hlt hc
  have hbytes := h.bytes
  have hsum : d.size + (next'.map Chunk.size).sum = ((p.regions fit).map Chunk.size).sum := by
    rw [hlist, map_cons, sum_cons]
  have hsums := chunkBytes_update p.regions hlt next'
  have htaken : (takeChunk p fit d next' request).available
      + (if chunkHeader < d.size - request then request else d.size) = p.available := by
    have hused : (if chunkHeader < d.size - request then request else d.size) ≤ p.available := by
      split_ifs <;> omega
    rw [takeChunk_available, word_sub hused (by omega), Nat.sub_add_cancel hused]
  have hlive : ((⟨d.offset, request, requested⟩ :: p.live).map Block.size).sum =
      request + liveBytes p := by
    rw [liveBytes, map_cons, sum_cons]
  refine ⟨{ takeChunk p fit d next' request with
    bitmap := bitmap
    live := ⟨d.offset, request, requested⟩ :: p.live }, ?_, ⟨hlength, hmarks, ?_, ?_, ?_, ?_⟩,
      hlive, htaken⟩
  · rw [LangPage.pageAllocate, hfit]
    dsimp only
    rw [hlist]
    dsimp only
    rw [takeChunk_bitmap, hmark, map_some]
  · rintro b (_ | ⟨_, hb⟩)
    · exact ⟨hoffset, hmod, hrequested⟩
    · exact h.aligned b hb
  · dsimp only
    rw [takeChunk_regions]
    split_ifs with hlarge
    · dsimp only [insertFitRegion]
      rw [hrest]
      exact h.lists.split hlist (b := ⟨d.offset, request, requested⟩) rfl hmod hlarge
    · exact h.lists.take hlist (b := ⟨d.offset, request, requested⟩) rfl hle
  · dsimp only
    rw [takeChunk_regions]
    have := h.available
    split_ifs at htaken ⊢ with hlarge
    · dsimp only [insertFitRegion]
      rw [hrest]
      obtain ⟨hwanted, -⟩ := findWantedRegion_spec (d.size - request) (by omega)
      have hsums' := chunkBytes_update (update p.regions fit next') hwanted
        (⟨d.offset + request, d.size - request⟩ :: update p.regions fit next'
          (findWantedRegion (d.size - request)))
      rw [map_cons, sum_cons] at hsums'
      dsimp only at hsums'
      omega
    · omega
  · refine le_of_eq_of_le (congrArg _ hlive) ?_
    split_ifs at htaken <;> dsimp only <;> omega

lemma pageAllocate_none {request requested : ℕ} (hfit : findFitRegion p request = none) :
    pageAllocate p request requested = some (p, none) := by
  rw [pageAllocate, hfit]

lemma Sound.pageAllocate (h : Sound p) {request requested : ℕ} {r : Option ℕ}
    (hmod : request % 8 = 0) (hwide : 16 ≤ request) (hrequested : requested ≤ request)
    (hrun : LangPage.pageAllocate p request requested = some (q, r)) : Sound q := by
  cases hfit : findFitRegion p request with
  | none =>
    rw [pageAllocate_none hfit] at hrun
    obtain ⟨rfl, -⟩ := Prod.mk.inj (Option.some.inj hrun)
    exact h
  | some fit =>
    obtain ⟨-, c, next, hlist, -⟩ := findFitRegion_some hfit
    obtain ⟨q', hq', hsound, -⟩ := h.pageAllocate_some hfit hlist hmod hwide hrequested
    rw [hq'] at hrun
    obtain ⟨rfl, -⟩ := Prod.mk.inj (Option.some.inj hrun)
    exact hsound

lemma exists_of_chunkAt {offset : ℕ} (hat : chunkAt p offset = some c) :
    c.offset = offset ∧ ∃ i < maxRegionChunks, c ∈ p.regions i := by
  obtain ⟨i, hi, hmem⟩ := mem_flatMap.mp (mem_of_find?_eq_some hat)
  have hoffset := find?_some hat
  exact ⟨of_decide_eq_true hoffset, i, mem_range.mp hi, hmem⟩

lemma Sound.test_chunk (h : Sound p) (hc : c ∈ p.regions i) :
    p.bitmap.test (c.offset / 8) = some false := by
  have hinside := (h.lists.listed i c hc).1
  obtain ⟨hoffset, -, hheader⟩ := h.lists.aligned i c hc
  unfold chunkHeader at hheader
  rw [area_eq, ← h.length] at hinside
  rw [Bitmap.test, if_pos (by omega), some_inj, Bool.eq_false_iff]
  intro hbit
  obtain ⟨u, hu, hbit⟩ := (h.marks.bits _).mp hbit
  obtain ⟨b, hb, rfl⟩ := List.mem_map.mp hu
  obtain ⟨hoffset', hsize', -⟩ := h.aligned b hb
  have hpos := (h.inside hb).2
  have hapart := h.lists.separate i c hc b hb
  unfold Apart at hapart
  dsimp only [unit] at hbit
  omega

lemma Sound.test_block (h : Sound p) (hb : b ∈ p.live) :
    p.bitmap.test (b.offset / 8) = some true := by
  have hinside := h.inside hb
  rw [area_eq, ← h.length] at hinside
  rw [Bitmap.test, if_pos (by omega), some_inj]
  exact (h.marks.bits _).mpr ⟨unit b, List.mem_map_of_mem hb, .inl rfl⟩

lemma Sound.removeFitRegion (h : Sound p) (hc : c ∈ p.regions i) :
    ∃ l₁ l₂, p.regions i = l₁ ++ c :: l₂ ∧ LangPage.removeFitRegion p c.size c.offset
      = some { p with regions := update p.regions i (l₁ ++ l₂) } := by
  obtain ⟨hinside, rfl⟩ := h.lists.listed i c hc
  have harea := area_lt
  obtain ⟨l₁, l₂, hsplit, herase⟩ := h.lists.eraseP hc
  refine ⟨l₁, l₂, hsplit, ?_⟩
  rw [LangPage.removeFitRegion, findListRegion_listed (by omega) hc, map_some, herase]

lemma Sound.merge (h : Sound p) {stray : ℕ} (hb : b ∈ p.live)
    (hbounded : Bounded p b.offset stray) :
    LangPage.merge p b.offset b.size stray = some (b.size, p)
      ∨ ∃ i < maxRegionChunks, ∃ c l₁ l₂, p.regions i = l₁ ++ c :: l₂ ∧ c.offset = b.offset + b.size
        ∧ LangPage.merge p b.offset b.size stray
          = some (b.size + c.size, { p with regions := update p.regions i (l₁ ++ l₂) }) := by
  have harea := area_lt
  unfold LangPage.merge
  by_cases hend : b.offset + b.size < area
  swap
  · rw [if_neg hend]
    exact .inl rfl
  rw [if_pos hend]
  cases hat : chunkAt p (b.offset + b.size) with
  | some c =>
    obtain ⟨hoffset, i, hi, hc⟩ := exists_of_chunkAt hat
    obtain ⟨hinside, -⟩ := h.lists.listed i c hc
    have hheader : 16 ≤ c.size := (h.lists.aligned i c hc).2.2
    obtain ⟨l₁, l₂, hsplit, hremove⟩ := h.removeFitRegion hc
    have hsize : siblingSize p (b.offset + b.size) stray = c.size := by rw [siblingSize, hat]
    refine .inr ⟨i, hi, c, l₁, l₂, hsplit, hoffset, ?_⟩
    rw [← hoffset, h.test_chunk hc, hoffset, hsize, bind_some, if_neg (by simp), if_pos (by omega),
      ← hoffset, hremove, map_some, show word (b.size + c.size) =
      b.size + c.size from Nat.mod_eq_of_lt (by omega)]
  | none =>
    refine .inl ?_
    have hsize : siblingSize p (b.offset + b.size) stray = word stray := by rw [siblingSize, hat]
    rw [hsize]
    rcases hbounded b hb rfl with hout | ⟨d, hd, hoffset⟩ | hsome | hstray
    · omega
    · rw [← hoffset, h.test_block hd, bind_some, if_pos rfl]
    · rw [hat] at hsome
      cases hsome
    · rw [hstray, Bitmap.test, if_pos, bind_some, if_neg (lt_irrefl 0), ite_self]
      rw [area_eq, ← h.length] at hend
      omega

lemma Sound.filter_live (h : Sound p) (hb : b ∈ p.live) :
    (p.live.filter fun d => d.offset ≠ b.offset) = p.live.erase b := by
  rw [h.liveNodup.erase_eq_filter]
  refine filter_congr fun d hd => ?_
  by_cases hne : d = b
  · simp [hne]
  · have hapart := h.blocks hd hb hne
    have hpos := (h.inside hd).2
    have hpos' := (h.inside hb).2
    unfold Apart at hapart
    have hoffset : d.offset ≠ b.offset := by omega
    simp [hne, hoffset]

lemma Sound.erase_unit (h : Sound p) (hb : b ∈ p.live) :
    (p.live.map unit).erase (unit b) = (p.live.erase b).map unit := by
  rw [h.marks.nodup.erase_eq_filter, h.liveNodup.erase_eq_filter, List.filter_map]
  congr 1
  refine filter_congr fun d hd => ?_
  have hinj : unit d = unit b ↔ d = b :=
    ⟨inj_on_of_nodup_map h.marks.nodup hd hb, fun heq => by rw [heq]⟩
  simp [bne, hinj]

lemma liveBytes_erase (hb : b ∈ p.live) :
    b.size + ((p.live.erase b).map Block.size).sum = liveBytes p := by
  rw [liveBytes, ((perm_cons_erase hb).map Block.size).sum_eq, map_cons, sum_cons]

lemma Sound.release (h : Sound p) (hb : b ∈ p.live) {regions : ℕ → List Chunk} {n : ℕ}
    (hlists : Lists regions (p.live.erase b)) (hn : n % 8 = 0) (hheader : chunkHeader ≤ n)
    (hinside : b.offset + n ≤ area)
    (hchunks : ∀ j, ∀ d ∈ regions j, Apart b.offset n d.offset d.size)
    (hlive : ∀ d ∈ p.live.erase b, Apart b.offset n d.offset d.size)
    (hbytes : chunkBytes regions + n = chunkBytes p.regions + b.size) :
    ∃ bitmap, p.bitmap.clearAllocated b.offset = some bitmap
      ∧ Sound { addAvailable (insertFitRegion { p with
        regions := regions } ⟨b.offset, n⟩) b.size with
        bitmap := bitmap
        live := p.live.erase b } := by
  have harea := area_lt
  obtain ⟨hoffset, hsize, -⟩ := h.aligned b hb
  obtain ⟨bitmap, hclear, hlength, hmarks⟩ :=
    h.marks.clearAllocated (i := b.offset / 8) (n := b.size / 8) (List.mem_map_of_mem hb)
  rw [show b.offset / 8 * 8 = b.offset by omega] at hclear
  have hmarks' : Bitmap.Marks bitmap ((p.live.erase b).map unit) := by
    rw [← h.erase_unit hb]
    exact hmarks
  have hleft := liveBytes_erase hb
  have hbound := h.bytes
  have havailable : word (p.available + b.size) = p.available + b.size :=
    Nat.mod_eq_of_lt (by omega)
  refine ⟨bitmap, hclear, hlength.trans h.length, hmarks',
    fun d hd => h.aligned d (mem_of_mem_erase hd),
    hlists.insert ⟨hoffset, hn, hheader⟩ hinside hchunks hlive, ?_, ?_⟩
  · obtain ⟨hwanted, -⟩ := findWantedRegion_spec n (by omega)
    have hsums := chunkBytes_update regions hwanted (⟨b.offset, n⟩ :: regions (findWantedRegion n))
    rw [map_cons, sum_cons] at hsums
    dsimp only [addAvailable, insertFitRegion] at hsums ⊢
    rw [havailable]
    have := h.available
    omega
  · dsimp only [addAvailable, insertFitRegion]
    rw [havailable]
    unfold liveBytes at *
    dsimp only
    omega

lemma Sound.free (h : Sound p) {stray : ℕ} (hb : b ∈ p.live) (hbounded : Bounded p b.offset stray) :
    ∃ q, LangPage.free p b.offset stray = some q ∧ Sound q ∧ q.live = p.live.erase b
      ∧ q.available = p.available + b.size := by
  have harea := area_lt
  obtain ⟨hoffset, hsize, -⟩ := h.aligned b hb
  obtain ⟨hinside, hpos⟩ := h.inside hb
  have hrest : ∀ d ∈ p.live.erase b, Apart b.offset b.size d.offset d.size := fun d hd => by
    obtain ⟨hne, hmem⟩ := h.liveNodup.mem_erase_iff.mp hd
    exact h.blocks hb hmem hne.symm
  have hdrop : Lists p.regions (p.live.erase b) :=
    h.lists.dropBlocks fun d hd => mem_of_mem_erase hd
  have havailable : word (p.available + b.size) = p.available + b.size := by
    have hleft := liveBytes_erase hb
    have hbound := h.bytes
    exact Nat.mod_eq_of_lt (by omega)
  rw [LangPage.free, h.allocatedSize hb, bind_some,
    show word b.size = b.size from Nat.mod_eq_of_lt (by omega)]
  rcases h.merge hb hbounded with hmerge | ⟨i, hi, c, l₁, l₂, hsplit, hc, hmerge⟩
  · obtain ⟨bitmap, hclear, hsound⟩ := h.release hb hdrop hsize hpos hinside
      (fun j d hd => (h.lists.separate j d hd b hb).symm) hrest rfl
    rw [hmerge, bind_some]
    dsimp only [addAvailable, insertFitRegion] at hsound ⊢
    rw [hclear, map_some, h.filter_live hb]
    exact ⟨_, rfl, hsound, rfl, havailable⟩
  · have hmem : c ∈ p.regions i := by rw [hsplit]; exact mem_append_cons_self
    obtain ⟨hcoffset, hcsize, hcheader⟩ := h.lists.aligned i c hmem
    obtain ⟨hcinside, -⟩ := h.lists.listed i c hmem
    have hsub : (l₁ ++ l₂).Sublist (p.regions i) := by
      rw [hsplit]
      exact (sublist_cons_self c l₂).append_left l₁
    have hsums := chunkBytes_update p.regions hi (l₁ ++ l₂)
    rw [hsplit] at hsums
    simp only [map_append, map_cons, sum_append, sum_cons] at hsums
    have hchunks : ∀ j, ∀ d ∈ update p.regions i (l₁ ++ l₂) j,
        Apart b.offset (b.size + c.size) d.offset d.size := fun j d hd => by
      have hd' := mem_update_of_sublist hsub hd
      have hdpos : 16 ≤ d.size := (h.lists.aligned j d hd').2.2
      refine Apart.join (by omega) (h.lists.separate j d hd' b hb).symm ?_
      rw [← hc]
      exact h.lists.apart_of_taken _ hsplit hd
    have hlive : ∀ d ∈ p.live.erase b, Apart b.offset (b.size + c.size) d.offset d.size :=
      fun d hd => by
      have hdpos := (h.inside (mem_of_mem_erase hd)).2
      refine Apart.join (by omega) (hrest d hd) ?_
      rw [← hc]
      exact hdrop.separate i c hmem d hd
    obtain ⟨bitmap, hclear, hsound⟩ :=
      h.release hb (n := b.size + c.size) (hdrop.shrink hsub) (by omega)
      (hcheader.trans (Nat.le_add_left _ _)) (by omega) hchunks hlive (by omega)
    rw [hmerge, bind_some]
    dsimp only [addAvailable, insertFitRegion] at hsound ⊢
    rw [hclear, map_some, h.filter_live hb]
    exact ⟨_, rfl, hsound, rfl, havailable⟩

end Pages

end Mai.LangPage
