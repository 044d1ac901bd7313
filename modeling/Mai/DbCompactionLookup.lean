import Mai.DbCompaction

/-! `CompactionImpl::IsBaseLevelForKey` against the contents of the tables it asks about. The filter
of a table is built from user keys, and asked for the bytes of an internal key. -/
namespace Mai.DbCompactionLookup
open CoreKeys DbVersion DbCompaction List

variable {K : Type*} [LinearOrder K]

structure Tables (K : Type*) where
  bytes : K → Bytes
  contents : ℕ → List (Entry K)
  filter : ℕ → Except Error (Bytes → Bool)
  knows : ∀ number mayExists, filter number = .ok mayExists → ∀ e ∈ contents number,
    mayExists (bytes e.userKey)

def Tables.keyFilter (tables : Tables K) (number : ℕ) : Except Error (InternalKey K → Bool) :=
  (tables.filter number).map fun mayExists key =>
    mayExists (keyBytes ⟨tables.bytes key.userKey, key.tag⟩)

/-- `*may_exists` after the call; it is set, too, when a filter cannot be loaded. -/
def reported : Except Error Bool → Bool
  | .ok mayExists => mayExists
  | .error _ => true

def Contains (tables : Tables K) (version : Version K) (startLevel : ℕ) (key : InternalKey K) :
    Prop :=
  ∃ level, startLevel ≤ level ∧ level < kMaxLevel ∧
    ∃ f ∈ version.files level, ∃ e ∈ tables.contents f.number, e.userKey = key.userKey

def Sound (tables : Tables K) (job : Compaction K) (startLevel : ℕ) (key : InternalKey K) : Prop :=
  Contains tables job.inputVersion startLevel key →
    reported ({ job with keyFilter := tables.keyFilter }.isBaseLevelForKey startLevel key)

def Suspects (tables : Tables K) (key : InternalKey K) (f : FileMetaData K) : Prop :=
  ¬(key.compare f.largestKey = .gt ∨ key.compare f.smallestKey = .lt) ∧
    ∀ mayExists, tables.filter f.number = .ok mayExists →
    mayExists (keyBytes ⟨tables.bytes key.userKey, key.tag⟩)

lemma reported_mayExistsLoop (tables : Tables K) (job : Compaction K) (key : InternalKey K)
    (fs : List (FileMetaData K)) (b : Bool) :
    reported ({ job with keyFilter := tables.keyFilter }.mayExistsLoop key fs b) ↔ b ∨ ∃ f ∈ fs,
      Suspects tables key f := by
  induction fs generalizing b with
  | nil => simp [Compaction.mayExistsLoop, reported]
  | cons f fs ih =>
    rw [Compaction.mayExistsLoop, exists_mem_cons_iff, Suspects]
    split_ifs with hrange
    · rw [ih]
      simp [hrange]
    · cases hfilter : tables.filter f.number with
      | error err => simp [Tables.keyFilter, hfilter, Except.map, reported, hrange]
      | ok mayExists => simp [Tables.keyFilter, hfilter, Except.map, ih, hrange, or_assoc]

/-- A key that a file contains is reported just when the start is not the last level and some file
suspects it. -/
theorem lookup_sound_iff (tables : Tables K) (job : Compaction K) (startLevel : ℕ)
    (key : InternalKey K) :
    Sound tables job startLevel key ↔
      ¬Contains tables job.inputVersion startLevel key ∨ (startLevel ≠ kMaxLevel - 1 ∧
        ∃ level, startLevel ≤ level ∧ level < kMaxLevel ∧ ∃ f ∈ job.inputVersion.files level,
        Suspects tables key f) := by
  rw [Sound, imp_iff_not_or, Compaction.isBaseLevelForKey]
  refine or_congr Iff.rfl ?_
  split_ifs with hlast
  · simp [reported, hlast]
  · rw [reported_mayExistsLoop]
    simp only [Bool.false_eq_true, false_or, mem_flatMap, mem_filter, mem_range, decide_eq_true_eq,
      ne_eq, hlast, not_false_eq_true, true_and]
    constructor
    · rintro ⟨f, ⟨level, ⟨hlt, hle⟩, hf⟩, hs⟩
      exact ⟨level, hle, hlt, f, hf, hs⟩
    · rintro ⟨level, hle, hlt, f, hf, hs⟩
      exact ⟨f, ⟨level, ⟨hlt, hle⟩, hf⟩, hs⟩

/-- One table with one version of the key `1`, and a filter that has this key and no other. -/
def single : Tables Bytes where
  bytes := id
  contents _ := [⟨makeKey [1] 3 .value, []⟩]
  filter _ := .ok (· == [1])
  knows := by
    intro number mayExists hfilter e he
    cases hfilter
    rw [mem_singleton.mp he]
    rfl

def singleJob : Compaction Bytes where
  targetLevel := 0
  smallestSnapshot := 9
  inputVersion := ⟨fun _ => [⟨7, makeKey [1] 3 .value, makeKey [1] 3 .value, 0, 0⟩]⟩
  inMem := []
  originalInput := []
  keyFilter := single.keyFilter

/-- A newer deletion sorts before the file, the filter does not know the internal key, and the last
level is not looked at. -/
theorem lookup_misses :
    ¬Sound single singleJob 1 (makeKey [1] 5 .deletion) ∧
      ¬Sound single singleJob 1 (makeKey [1] 3 .deletion) ∧
      ¬Sound single singleJob 3 (makeKey [1] 3 .deletion) := by
  refine ⟨fun h => ?_, fun h => ?_, fun h => ?_⟩
  all_goals
    exact absurd (h ⟨3, by decide, by decide, _, mem_singleton_self _, _, mem_singleton_self _,
      rfl⟩) (by decide)

end Mai.DbCompactionLookup
