import Mai.BaseAlign
import Mai.LangBitmap

/-!
# A semi-space

The constructor of `SemiSpace` (`lang/space.cc`) leaves one word less for the bitmap than the
area needs: the blocks in the last part of the area are marked outside of the bitmap, where
their ends are not found again.
-/
namespace Mai.LangSemiSpace

open BaseAlign LangBitmap List Option

structure SemiSpace where
  size : ℕ
  limit : ℕ
  chunk : ℕ
  free : ℕ
  bitmap : Bitmap

def headerSize : ℕ := 40

def getChunkSize (size : ℕ) : ℕ := (size - headerSize) * 256 % 2 ^ 64 / 260

def getBitmapLength (size : ℕ) : ℕ := Bitmap.predSize (getChunkSize size / 256) % 2 ^ 32

def construct (base size : ℕ) : SemiSpace where
  size := size
  limit := base + size
  chunk := roundUp (base + size - getChunkSize size) 4
  free := roundUp (base + size - getChunkSize size) 4
  bitmap := ⟨getBitmapLength size, fun _ => false⟩

def new (granularity base size : ℕ) : SemiSpace := construct base (roundUp size granularity)

def getMinAllocationSize (n : ℕ) : ℕ := if n < 16 then 16 else (n + 7) % 2 ^ 64 / 8 * 8

def refuses (s : SemiSpace) (size : ℕ) : Bool :=
  s.limit ≤ (s.free + getMinAllocationSize size) % 2 ^ 64

/-- `AquireSpace`. The free address moves on also when there is no room. -/
def acquireSpace (s : SemiSpace) (size : ℕ) : Option (SemiSpace × Option ℕ) :=
  let free := (s.free + getMinAllocationSize size) % 2 ^ 64
  if refuses s size then some ({ s with free := free }, none)
  else (s.bitmap.markAllocated (s.free - s.chunk) (getMinAllocationSize size)).map fun bitmap =>
    ({ s with free := free, bitmap := bitmap }, some s.free)

/-- Calls of `AquireSpace` until one is refused, with the addresses and the sizes. -/
def acquireAll (s : SemiSpace) : List ℕ → Option (SemiSpace × List (ℕ × ℕ))
  | [] => some (s, [])
  | size :: sizes =>
    (acquireSpace s size).bind fun r =>
      match r.2 with
      | none => some (r.1, [])
      | some address => (acquireAll r.1 sizes).map fun t => (t.1, (address, size) :: t.2)

def allocatedSize (s : SemiSpace) (address : ℕ) : Option ℕ :=
  s.bitmap.allocatedSize (address - s.chunk)

/-- `SemiSpaceIterator` from an address on: the addresses up to where it is not valid. -/
def iterate (s : SemiSpace) : ℕ → ℕ → Option (List ℕ)
  | 0, _ => none
  | fuel + 1, current =>
    (allocatedSize s current).bind fun size =>
      if current < s.free ∧ 0 < size then (iterate s fuel (current + size)).map (current :: ·)
      else some []

def rounded (n : ℕ) : ℕ := if n < 16 then 16 else (n + 7) / 8 * 8

/-- No access lies outside of the bitmap, every block has the size that was requested, and the
iterator lists the blocks and stops. -/
def Kept (s : SemiSpace) (sizes : List ℕ) : Prop :=
  ∃ t blocks, acquireAll s sizes = some (t, blocks)
    ∧ (∀ p ∈ blocks, allocatedSize t p.1 = some (rounded p.2))
    ∧ ∃ fuel, iterate t fuel t.chunk = some (blocks.map Prod.fst)

def handedOut (s : SemiSpace) : List ℕ → ℕ
  | [] => 0
  | size :: sizes =>
    if refuses s size then 0
    else rounded size + handedOut { s with
      free := (s.free + getMinAllocationSize size) % 2 ^ 64 } sizes

structure Accepted (granularity base size : ℕ) : Prop where
  pages : 4096 ≤ granularity
  positive : 0 < size
  memory : base + roundUp size granularity ≤ 2 ^ 47

lemma eight_dvd_rounded (n : ℕ) : rounded n % 8 = 0 ∧ 16 ≤ rounded n := by
  rw [rounded]
  split_ifs <;> omega

lemma getMinAllocationSize_eq {n : ℕ} (h : rounded n < 2 ^ 64) :
    getMinAllocationSize n = rounded n := by
  rw [rounded] at h
  rw [getMinAllocationSize, rounded]
  split_ifs at h ⊢ with hn
  · rfl
  · rw [Nat.mod_eq_of_lt (by omega)]

def total (sizes : List ℕ) : ℕ := (sizes.map rounded).sum

@[simp] lemma total_nil : total [] = 0 := rfl

@[simp] lemma total_cons (size : ℕ) (sizes : List ℕ) :
    total (size :: sizes) = rounded size + total sizes := by
  simp [total]

lemma total_mod (sizes : List ℕ) : total sizes % 8 = 0 := by
  induction sizes with
  | nil => rfl
  | cons size sizes ih =>
    have := (eight_dvd_rounded size).1
    rw [total_cons]
    omega

def placed : List ℕ → List (ℕ × ℕ)
  | [] => []
  | size :: older => (total older / 8, rounded size / 8) :: placed older

lemma placed_below {sizes : List ℕ} : ∀ p ∈ placed sizes, p.1 + p.2 ≤ total sizes / 8 := by
  induction sizes with
  | nil => simp [placed]
  | cons size older ih =>
    have := eight_dvd_rounded size
    have := total_mod older
    rw [total_cons]
    rintro p (_ | ⟨_, hp⟩)
    · dsimp only
      omega
    · have := ih p hp
      omega

lemma placed_append {p : ℕ × ℕ} {older : List ℕ} (newer : List ℕ) (hp : p ∈ placed older) :
    p ∈ placed (newer ++ older) := by
  induction newer with
  | nil => exact hp
  | cons size newer ih => exact mem_cons_of_mem _ ih

def blocksFrom (address : ℕ) : List ℕ → List (ℕ × ℕ)
  | [] => []
  | size :: sizes => (address, size) :: blocksFrom (address + rounded size) sizes

section Sizes

variable {s t : SemiSpace} {sizes : List ℕ}

lemma allocatedSize_placed {done : List ℕ} {size : ℕ} {newer : List ℕ}
    (hmarks : Bitmap.Marks t.bitmap (placed (newer ++ size :: done))) :
    allocatedSize t (t.chunk + total done) = some (rounded size) := by
  have hmem : (total done / 8, rounded size / 8) ∈ placed (newer ++ size :: done) :=
    placed_append newer (mem_cons_self)
  have hsize := hmarks.allocatedSize hmem
  have hmod := total_mod done
  have hround := (eight_dvd_rounded size).1
  rw [allocatedSize, Nat.add_sub_cancel_left]
  rw [show total done / 8 * 8 = total done by omega, show rounded size / 8 * 8 =
    rounded size by omega] at hsize
  exact hsize

lemma allocatedSize_blocks (done : List ℕ)
    (hmarks : Bitmap.Marks t.bitmap (placed (sizes.reverse ++ done))) :
    ∀ p ∈ blocksFrom (t.chunk + total done) sizes, allocatedSize t p.1 = some (rounded p.2) := by
  induction sizes generalizing done with
  | nil => simp [blocksFrom]
  | cons size sizes ih =>
    rw [reverse_cons, append_assoc, singleton_append] at hmarks
    rintro p (_ | ⟨_, hp⟩)
    · exact allocatedSize_placed hmarks
    · refine ih (size :: done) hmarks p ?_
      rwa [total_cons, Nat.add_comm (rounded size), ← Nat.add_assoc]

lemma iterate_blocks (done : List ℕ)
    (hmarks : Bitmap.Marks t.bitmap (placed (sizes.reverse ++ done)))
    (hfree : t.chunk + total done + total sizes ≤ t.free)
    (hbound : total done + total sizes < 256 * t.bitmap.length) :
    iterate t (sizes.length + 1) (t.chunk + total done)
      = some ((blocksFrom (t.chunk + total done) sizes).map Prod.fst) := by
  induction sizes generalizing done with
  | nil =>
    have hmod := total_mod done
    have hzero : allocatedSize t (t.chunk + total done) = some 0 := by
      have hbelow : ∀ p ∈ placed done, total done / 8 < p.1 ∨ p.1 + p.2 ≤ total done / 8 :=
        fun p hp => .inr (placed_below p hp)
      rw [total_nil] at hbound
      have hsize := hmarks.allocatedSize_free (i := total done / 8) (by omega) hbelow
      rw [allocatedSize, Nat.add_sub_cancel_left]
      rwa [show total done / 8 * 8 = total done by omega] at hsize
    rw [length_nil, iterate, hzero, bind_some, if_neg (by simp)]
    rfl
  | cons size sizes ih =>
    rw [reverse_cons, append_assoc, singleton_append] at hmarks
    rw [total_cons] at hfree hbound
    have hpos := (eight_dvd_rounded size).2
    have hrest := ih (size :: done) hmarks (by rw [total_cons]; omega) (by rw [total_cons]; omega)
    rw [total_cons, Nat.add_comm (rounded size), ← Nat.add_assoc] at hrest
    rw [length_cons, iterate, allocatedSize_placed hmarks, bind_some, if_pos ⟨by omega, by omega⟩,
      hrest]
    rfl

lemma allocatedSize_of_iterate {fuel current : ℕ} {blocks : List (ℕ × ℕ)}
    (hiterate : iterate t fuel current = some (blocks.map Prod.fst))
    (hsizes : ∀ p ∈ blocks, allocatedSize t p.1 = some (rounded p.2)) :
    allocatedSize t (current + total (blocks.map Prod.snd)) ≠ none := by
  induction fuel generalizing current blocks with
  | zero => cases hiterate
  | succ fuel ih =>
    rw [iterate] at hiterate
    obtain ⟨size, hsize, hiterate⟩ := bind_eq_some_iff.mp hiterate
    by_cases hvalid : current < t.free ∧ 0 < size
    · rw [if_pos hvalid] at hiterate
      obtain ⟨rest, hrest, heq⟩ := map_eq_some_iff.mp hiterate
      cases blocks with
      | nil => cases heq
      | cons p blocks =>
        obtain ⟨hcurrent, rfl⟩ := List.cons.inj heq
        have hp := hsizes p mem_cons_self
        rw [← hcurrent, hsize] at hp
        obtain rfl := Option.some.inj hp
        have hend := ih hrest fun q hq => hsizes q (mem_cons_of_mem _ hq)
        rwa [map_cons, total_cons, ← Nat.add_assoc]
    · rw [if_neg hvalid] at hiterate
      cases blocks with
      | nil => simp [hsize]
      | cons p blocks => cases hiterate

lemma handedOut_congr (hlimit : t.limit = s.limit) (hfree : t.free = s.free) :
    handedOut t sizes = handedOut s sizes := by
  induction sizes generalizing s t with
  | nil => rfl
  | cons size sizes ih =>
    have hrefuses : refuses t size = refuses s size := by rw [refuses, refuses, hlimit, hfree]
    rw [handedOut, handedOut, hrefuses]
    split_ifs
    · rfl
    · refine congrArg (rounded size + ·) (ih hlimit ?_)
      dsimp only
      rw [hfree]

lemma acquireAll_total {blocks : List (ℕ × ℕ)} (h : acquireAll s sizes = some (t, blocks)) :
    t.chunk = s.chunk ∧ t.bitmap.length = s.bitmap.length ∧ handedOut s sizes =
      total (blocks.map Prod.snd) := by
  induction sizes generalizing s blocks with
  | nil =>
    obtain ⟨rfl, rfl⟩ := Prod.mk.inj (Option.some.inj h)
    exact ⟨rfl, rfl, rfl⟩
  | cons size sizes ih =>
    rw [acquireAll] at h
    obtain ⟨⟨u, address⟩, hstep, h⟩ := bind_eq_some_iff.mp h
    rw [acquireSpace] at hstep
    by_cases hrefuses : refuses s size = true
    · rw [if_pos hrefuses] at hstep
      obtain ⟨rfl, rfl⟩ := Prod.mk.inj (Option.some.inj hstep)
      obtain ⟨rfl, rfl⟩ := Prod.mk.inj (Option.some.inj h)
      refine ⟨rfl, rfl, ?_⟩
      rw [handedOut, if_pos hrefuses]
      rfl
    · rw [if_neg hrefuses] at hstep
      obtain ⟨bitmap, hmark, heq⟩ := map_eq_some_iff.mp hstep
      obtain ⟨rfl, rfl⟩ := Prod.mk.inj heq
      obtain ⟨⟨t', rest⟩, hrest, heq⟩ := map_eq_some_iff.mp h
      obtain ⟨rfl, rfl⟩ := Prod.mk.inj heq
      obtain ⟨hchunk, hlength, htotal⟩ := ih hrest
      have hbitmap : bitmap.length = s.bitmap.length := by
        obtain ⟨b, hb, hb'⟩ := bind_eq_some_iff.mp hmark
        simp only [Bitmap.set, Bitmap.write, ite_none_right_eq_some, Option.some.injEq] at hb hb'
        rw [← hb'.2, ← hb.2]
      refine ⟨hchunk, hlength.trans hbitmap, ?_⟩
      rw [handedOut, if_neg hrefuses, map_cons, total_cons, ← htotal]
      exact congrArg (rounded size + ·) (handedOut_congr rfl rfl)

lemma acquireAll_spec (sizes done : List ℕ) (hfree : s.free = s.chunk + total done)
    (hmarks : Bitmap.Marks s.bitmap (placed done))
    (hlimit : s.chunk + 256 * s.bitmap.length ≤ s.limit) (hmemory : s.limit < 2 ^ 64)
    (hbound : total done + handedOut s sizes < 256 * s.bitmap.length) :
    ∃ t more, acquireAll s sizes = some (t, blocksFrom (s.chunk + total done) more)
      ∧ t.chunk = s.chunk ∧ t.bitmap.length = s.bitmap.length
      ∧ Bitmap.Marks t.bitmap (placed (more.reverse ++ done))
      ∧ s.chunk + total done + total more ≤ t.free ∧ total more = handedOut s sizes := by
  induction sizes generalizing s done with
  | nil => exact ⟨s, [], rfl, rfl, rfl, hmarks, hfree.ge, rfl⟩
  | cons size sizes ih =>
    rw [acquireAll, acquireSpace]
    rw [handedOut] at hbound ⊢
    by_cases hrefuses : refuses s size = true
    · rw [if_pos hrefuses] at hbound ⊢
      rw [if_pos hrefuses]
      refine ⟨_, [], rfl, rfl, rfl, hmarks, ?_, rfl⟩
      have hlarge : s.limit ≤ (s.free + getMinAllocationSize size) % 2 ^ 64 :=
        of_decide_eq_true hrefuses
      rw [total_nil]
      dsimp only
      omega
    · rw [if_neg hrefuses] at hbound ⊢
      rw [if_neg hrefuses]
      obtain ⟨hround, hwide⟩ := eight_dvd_rounded size
      have hmod := total_mod done
      have hmin : getMinAllocationSize size = rounded size := getMinAllocationSize_eq (by omega)
      have hnext : (s.free + getMinAllocationSize size) % 2 ^ 64 =
          s.chunk + total (size :: done) := by
        rw [hmin, hfree, total_cons, Nat.mod_eq_of_lt (by omega)]
        omega
      obtain ⟨bitmap, hmark, hlength, hmarks'⟩ :=
        hmarks.markAllocated (i := total done / 8) (n := rounded size / 8)
        (by omega) (by omega) (by omega) fun p hp => .inr (placed_below p hp)
      rw [show total done / 8 * 8 = s.free - s.chunk by omega, show rounded size / 8 * 8 =
        rounded size by omega, ← hmin] at hmark
      rw [hmark, hnext]
      rw [hnext] at hbound
      have hhanded : handedOut { s with free := s.chunk + total (size :: done), bitmap := bitmap }
          sizes
          = handedOut { s with free := s.chunk + total (size :: done) } sizes :=
            handedOut_congr rfl rfl
      obtain ⟨t, more, hacquire, hchunk, hlength', hmarks'', htfree, htotal⟩ :=
        ih (s := { s with free := s.chunk + total (size :: done), bitmap := bitmap }) (size :: done)
          rfl hmarks'
          (by rw [hlength]; exact hlimit) hmemory
            (by rw [hhanded, hlength]; have := total_cons size done; omega)
      have haddress : s.chunk + total (size :: done) = s.free + rounded size := by
        rw [hfree, total_cons]
        omega
      refine ⟨t, size :: more, ?_, hchunk, hlength'.trans hlength, ?_, ?_, ?_⟩
      · rw [map_some, bind_some]
        dsimp only
        rw [hacquire, map_some, blocksFrom, ← hfree, haddress]
      · rwa [reverse_cons, append_assoc, singleton_append]
      · rw [total_cons] at htfree ⊢
        dsimp only at htfree
        omega
      · rw [total_cons, htotal, hhanded]

end Sizes

section Space

variable {granularity base size : ℕ}

lemma le_roundUp (hsize : 0 < size) (hpages : 0 < granularity) :
    granularity ≤ roundUp size granularity := by
  rw [roundUp]
  have hdiv : 1 ≤ (size + granularity - 1) / granularity :=
    (Nat.one_le_div_iff hpages).mpr (by omega)
  calc granularity = 1 * granularity := (Nat.one_mul _).symm
    _ ≤ (size + granularity - 1) / granularity * granularity := Nat.mul_le_mul_right _ hdiv

lemma bitmap_below_limit (h : Accepted granularity base size) :
    (new granularity base size).chunk + 256 * (new granularity base size).bitmap.length
      ≤ (new granularity base size).limit ∧ (new granularity base size).limit < 2 ^ 64 := by
  have hpages := h.pages
  have hsize := le_roundUp h.positive (show 0 < granularity by omega)
  have hmemory := h.memory
  rw [new]
  generalize roundUp size granularity = n at hsize hmemory
  dsimp only [construct]
  have hchunk : getChunkSize n = (n - 40) * 256 / 260 := by
    rw [getChunkSize, headerSize, Nat.mod_eq_of_lt (by omega)]
  have hlength : getBitmapLength n ≤ getChunkSize n / 256 - 1 := by
    rw [getBitmapLength, Bitmap.predSize_eq (by omega) (by omega)]
    exact Nat.mod_le _ _
  rw [roundUp, hchunk]
  rw [hchunk] at hlength
  omega

end Space

/-- For every semi-space and every sequence of calls the bookkeeping holds exactly if the blocks
that are handed out end before the part of the area that the bitmap does not cover. -/
theorem semispace_kept_iff (granularity base size : ℕ) (h : Accepted granularity base size)
    (sizes : List ℕ) :
    Kept (new granularity base size) sizes
      ↔ handedOut (new granularity base size) sizes
        < 256 * getBitmapLength (roundUp size granularity) := by
  have hlength : (new granularity base size).bitmap.length =
      getBitmapLength (roundUp size granularity) := rfl
  rw [← hlength]
  constructor
  · rintro ⟨t, blocks, hacquire, hsizes, fuel, hiterate⟩
    obtain ⟨hchunk, hbits, htotal⟩ := acquireAll_total hacquire
    have htested := allocatedSize_of_iterate hiterate hsizes
    rw [← htotal, allocatedSize, Nat.add_sub_cancel_left, Bitmap.allocatedSize, Bitmap.test,
      hbits] at htested
    by_contra hout
    rw [if_neg (by omega)] at htested
    exact htested rfl
  · intro hbound
    obtain ⟨hlimit, hmemory⟩ := bitmap_below_limit h
    have hempty : Bitmap.Marks (new granularity base size).bitmap (placed []) :=
      ⟨fun k => by simp [new, construct, placed], nodup_nil, by simp [placed], by simp [placed],
        by simp [placed]⟩
    obtain ⟨t, more, hacquire, hchunk, hbits, hmarks, hfree, htotal⟩ :=
      acquireAll_spec sizes [] rfl hempty hlimit hmemory (by rw [total_nil]; omega)
    rw [← hchunk] at hacquire hfree
    refine ⟨t, _, hacquire, allocatedSize_blocks [] hmarks, more.length + 1,
      iterate_blocks [] hmarks hfree ?_⟩
    rw [total_nil, htotal, hbits]
    omega

theorem semispace_kept_small : Kept (new 4096 4096 1) [16, 3, 40] :=
  (semispace_kept_iff 4096 4096 1 ⟨by decide, by decide, by decide⟩ [16, 3, 40]).mpr
    (by decide +kernel)

theorem semispace_outside : ¬ Kept (new 4096 4096 1) [3600] := by
  rintro ⟨t, blocks, hacquire, -⟩
  have hnone : (acquireAll (new 4096 4096 1) [3600]).isNone = true := by decide +kernel
  rw [hacquire] at hnone
  cases hnone

end Mai.LangSemiSpace
