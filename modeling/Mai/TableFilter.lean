import Mai.TableFormat

/-! The key filter that a reader makes of the filter block of a table (`table/key-bloom-filter.cc`),
against the builder of the block (`table/filter-block-builder.h`). -/
namespace Mai.TableFilter
open BaseIo ByteCodec CoreKeys TableFormat List Option

def buildFilter (hashes : List (Bytes → UInt32)) (dataBytes : ℕ)
    (keys : List Bytes) : Option FilterBlockBuilder := do
  let b ← FilterBlockBuilder.ofSize dataBytes
  keys.foldlM (FilterBlockBuilder.addKey hashes) b

structure KeyBloomFilter where
  buckets : List UInt32
  deriving DecidableEq, Repr

namespace KeyBloomFilter

def ofBlock (result : Bytes) : KeyBloomFilter :=
  ⟨(readTimes (readFixed 4) (result.length / 4) result).1.map UInt32.ofNat⟩

def nBits (f : KeyBloomFilter) : ℕ := f.buckets.length * 32

def testBit (f : KeyBloomFilter) (i : ℕ) : Bool :=
  f.buckets.getD (i / 32) 0 &&& (1 <<< UInt32.ofNat (i % 32)) ≠ 0

/-- `MayExists`; without words the remainder is taken of a division by zero. -/
def mayExists (hashes : List (Bytes → UInt32)) (f : KeyBloomFilter) (key : Bytes) : Option Bool :=
  if f.buckets = [] then none
  else some (hashes.all fun hash => f.testBit ((hash key).toNat % f.nBits))

end KeyBloomFilter

def readFilter (file : Bytes) (verify : Bool) (bh : BlockHandle) : Except Error KeyBloomFilter := do
  let result ← readBlock file verify bh
  .ok (KeyBloomFilter.ofBlock result)

lemma ofBlock_finish (b : FilterBlockBuilder) : KeyBloomFilter.ofBlock b.finish = ⟨b.bits⟩ := by
  have hread : ∀ w ∈ b.bits, ∀ rest, readFixed 4 (toFixed 4 w.toNat ++ rest) = (w.toNat, rest) := by
    intro w _ rest
    have hlt : w.toNat < 256 ^ 4 := w.toNat_lt
    rw [readFixed_toFixed, Nat.mod_eq_of_lt hlt]
  have htimes := readTimes_flatMap hread []
  rw [append_nil] at htimes
  have hcount : b.finish.length / 4 = b.bits.length := by
    rw [FilterBlockBuilder.length_finish]
    omega
  have hword : UInt32.ofNat ∘ UInt32.toNat = id := funext fun w => UInt32.ofNat_toNat
  rw [KeyBloomFilter.ofBlock, hcount, FilterBlockBuilder.finish, htimes, List.map_map, hword,
    List.map_id]

lemma toNat_one_shiftLeft {r : ℕ} (hr : r < 32) :
    ((1 : UInt32) <<< UInt32.ofNat r).toNat = 2 ^ r := by
  have hpow : 2 ^ r < 2 ^ 32 := Nat.pow_lt_pow_right (by decide) hr
  have hmod : (UInt32.ofNat r).toNat % 32 = r := by
    rw [UInt32.toNat_ofNat']
    omega
  rw [UInt32.toNat_shiftLeft, hmod, UInt32.toNat_one, Nat.one_shiftLeft, Nat.mod_eq_of_lt hpow]

lemma testBit_iff (f : KeyBloomFilter) (i : ℕ) :
    f.testBit i ↔ (f.buckets.getD (i / 32) 0).toNat.testBit (i % 32) := by
  rw [KeyBloomFilter.testBit, decide_eq_true_iff, Ne, ← UInt32.toNat_inj, UInt32.toNat_and,
    toNat_one_shiftLeft (Nat.mod_lt _ (by decide)), Nat.and_two_pow]
  cases (f.buckets.getD (i / 32) 0).toNat.testBit (i % 32) <;> simp

lemma testBit_setBit (b : FilterBlockBuilder) {i j : ℕ} (hi : i < b.bits.length * 32)
    (h : i = j ∨ KeyBloomFilter.testBit ⟨b.bits⟩ j) :
    KeyBloomFilter.testBit ⟨(b.setBit i).bits⟩ j := by
  have hword : i / 32 < b.bits.length := by omega
  rw [testBit_iff] at h ⊢
  simp only [FilterBlockBuilder.setBit, getD_eq_getElem?_getD, getElem?_modify] at h ⊢
  by_cases hsame : i / 32 = j / 32
  · rw [← hsame] at h ⊢
    simp only [getElem?_eq_getElem hword, getD_some, if_true, Option.map_eq_map, map_some,
      UInt32.toNat_or, Nat.testBit_or, Bool.or_eq_true] at h ⊢
    rcases h with rfl | h
    · rw [toNat_one_shiftLeft (Nat.mod_lt _ (by decide)), Nat.testBit_two_pow_self]
      exact .inr rfl
    · exact .inl h
  · rcases h with rfl | h
    · exact absurd rfl hsame
    · simpa [hsame] using h

section Keys
variable {hashes : List (Bytes → UInt32)} {b b' : FilterBlockBuilder} {key : Bytes}
  {keys : List Bytes}

lemma setBits_length (positions : List ℕ) (b : FilterBlockBuilder) :
    (positions.foldl FilterBlockBuilder.setBit b).bits.length = b.bits.length := by
  induction positions generalizing b with
  | nil => rfl
  | cons i positions ih => rw [foldl_cons, ih, FilterBlockBuilder.setBit, length_modify]

lemma testBit_setBits {positions : List ℕ} {j : ℕ} (hlt : ∀ i ∈ positions, i < b.bits.length * 32)
    (h : j ∈ positions ∨ KeyBloomFilter.testBit ⟨b.bits⟩ j) :
    KeyBloomFilter.testBit ⟨(positions.foldl FilterBlockBuilder.setBit b).bits⟩ j := by
  induction positions generalizing b with
  | nil => simpa using h
  | cons i positions ih =>
    have hi := hlt i (by simp)
    have hlength : (b.setBit i).bits.length = b.bits.length := setBits_length [i] b
    rw [foldl_cons]
    apply ih
    · intro k hk
      rw [hlength]
      exact hlt k (by simp [hk])
    · rcases h with h | h
      · rcases mem_cons.mp h with rfl | h
        · exact .inr (testBit_setBit b hi (.inl rfl))
        · exact .inl h
      · exact .inr (testBit_setBit b hi (.inr h))

def positions (hashes : List (Bytes → UInt32)) (n : ℕ) (key : Bytes) : List ℕ :=
  hashes.map fun hash => (hash key).toNat % n

lemma positions_lt {n : ℕ} (hn : 0 < n) {i : ℕ} (hi : i ∈ positions hashes n key) : i < n := by
  obtain ⟨hash, -, rfl⟩ := List.mem_map.mp hi
  exact Nat.mod_lt _ hn

lemma addKey_eq (h : b.bits ≠ []) :
    b.addKey hashes key =
      some ((positions hashes (b.bits.length * 32) key).foldl FilterBlockBuilder.setBit b) := by
  rw [FilterBlockBuilder.addKey, if_neg h]
  congr 1
  clear h
  induction hashes generalizing b with
  | nil => rfl
  | cons hash hashes ih =>
    have hlength := setBits_length [(hash key).toNat % (b.bits.length * 32)] b
    simp only [foldl_cons, foldl_nil] at hlength
    rw [foldl_cons, ih, hlength]
    rfl

def Has (hashes : List (Bytes → UInt32)) (b : FilterBlockBuilder) (key : Bytes) : Prop :=
  ∀ i ∈ positions hashes (b.bits.length * 32) key, KeyBloomFilter.testBit ⟨b.bits⟩ i

lemma has_addKey (h : b.bits ≠ []) (hadd : b.addKey hashes key = some b') {other : Bytes}
    (hother : other = key ∨ Has hashes b other) : Has hashes b' other := by
  have hpos : 0 < b.bits.length * 32 := Nat.mul_pos (length_pos_iff.mpr h) (by decide)
  rw [addKey_eq h, Option.some.injEq] at hadd
  subst hadd
  intro i hi
  rw [setBits_length] at hi
  apply testBit_setBits fun j hj => positions_lt hpos hj
  rcases hother with rfl | hother
  · exact .inl hi
  · exact .inr (hother i hi)

lemma addKeys_spec (h : b.bits ≠ []) (hashes : List (Bytes → UInt32)) (keys : List Bytes) :
    ∃ b', keys.foldlM (FilterBlockBuilder.addKey hashes) b = some b' ∧ b'.bits ≠ [] ∧
      ∀ key, key ∈ keys ∨ Has hashes b key → Has hashes b' key := by
  induction keys generalizing b with
  | nil => exact ⟨b, rfl, h, fun key hkey => by simpa using hkey⟩
  | cons first keys ih =>
    obtain ⟨b₁, hadd, hne⟩ := FilterBlockBuilder.addKey_some h hashes first
    obtain ⟨b', hkeys, hne', hhas⟩ := ih hne
    refine ⟨b', ?_, hne', ?_⟩
    · rw [foldlM_cons, hadd]
      exact hkeys
    · intro key hkey
      apply hhas
      rcases hkey with hkey | hkey
      · rcases mem_cons.mp hkey with rfl | hkey
        · exact .inr (has_addKey h hadd (.inl rfl))
        · exact .inl hkey
      · exact .inr (has_addKey h hadd (.inr hkey))

lemma Has.mayExists (h : Has hashes b key) (hne : b.bits ≠ []) :
    KeyBloomFilter.mayExists hashes ⟨b.bits⟩ key = some true := by
  rw [KeyBloomFilter.mayExists, if_neg hne, Option.some.injEq, List.all_eq_true]
  intro hash hhash
  exact h _ (List.mem_map_of_mem hhash)

lemma buildFilter_of_dvd {dataBytes : ℕ} (hdvd : 4 ∣ dataBytes) (hpos : dataBytes ≠ 0)
    (hashes : List (Bytes → UInt32)) (keys : List Bytes) :
    ∃ b, buildFilter hashes dataBytes keys = some b ∧ b.bits ≠ [] ∧ ∀ key ∈ keys,
      Has hashes b key := by
  have hne : (⟨List.replicate (dataBytes / 4) 0⟩ : FilterBlockBuilder).bits ≠ [] := by
    rw [Ne, replicate_eq_nil_iff]
    omega
  obtain ⟨b, hkeys, hbits, hhas⟩ := addKeys_spec hne hashes keys
  refine ⟨b, ?_, hbits, fun key hkey => hhas key (.inl hkey)⟩
  rw [buildFilter, FilterBlockBuilder.ofSize, if_pos (by omega)]
  exact hkeys

lemma buildFilter_of_not_dvd {dataBytes : ℕ} (h : ¬ 4 ∣ dataBytes) (hashes : List (Bytes → UInt32))
    (keys : List Bytes) :
    buildFilter hashes dataBytes keys = none := by
  rw [buildFilter, FilterBlockBuilder.ofSize, if_neg (by omega)]
  rfl

end Keys

end Mai.TableFilter
