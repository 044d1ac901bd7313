import Mai.DbColumnFamily
import Mai.KWayMerge

/-! The compaction job (`db/compaction-impl.cc`, `core/merging.cc`): the input files are merged and
each entry is dropped or handed to the builder of the output file. -/
namespace Mai.DbCompaction
open VersionedEntries CoreKeys CoreMemoryTable DbVersion DbColumnFamily KWayMerge List

variable {K : Type*} [LinearOrder K]

def newMergingIterator : List (List (Entry K)) → List (Entry K)
  | [] => []
  | [child] => child
  | children => merge Entry.Before children

structure Compaction (K : Type*) [LinearOrder K] where
  targetLevel : ℕ
  smallestSnapshot : ℕ
  inputVersion : Version K
  inMem : List (MemoryTable K)
  originalInput : List (List (Entry K))
  /-- `TableCache::GetKeyFilter` with `KeyFilter::MayExists`, by file number. -/
  keyFilter : ℕ → Except Error (InternalKey K → Bool)

structure CompactionResult (K : Type*) where
  /-- The entries added to the table builder. -/
  entries : List (Entry K) := []
  smallestKey : Option (InternalKey K) := none
  largestKey : Option (InternalKey K) := none
  deletionKeys : ℕ := 0
  deriving DecidableEq, Repr

namespace Compaction

def isBaseMemoryForKey (job : Compaction K) (key : K) : Bool :=
  job.inMem.any fun table => table.keyExists key kMaxSequenceNumber

def mayExistsLoop (job : Compaction K) (key : InternalKey K) :
    List (FileMetaData K) → Bool → Except Error Bool
  | [], mayExists => .ok mayExists
  | f :: fs, mayExists =>
    if key.compare f.largestKey = .gt ∨ key.compare f.smallestKey = .lt then
      mayExistsLoop job key fs mayExists
    else
      match job.keyFilter f.number with
      | .error err => .error err
      | .ok filter => mayExistsLoop job key fs (mayExists || filter key)

def isBaseLevelForKey (job : Compaction K) (startLevel : ℕ) (key : InternalKey K) :
    Except Error Bool :=
  if startLevel = kMaxLevel - 1 then .ok false
  else mayExistsLoop job key
    (((List.range kMaxLevel).filter (startLevel ≤ ·)).flatMap job.inputVersion.files) false

/-- The decision on one entry; `lastSequenceForKey` belongs to the entry before it if that has the
same user key. -/
def dropEntry (job : Compaction K) (lastSequenceForKey : ℕ) (e : Entry K) : Except Error Bool :=
  if job.isBaseMemoryForKey e.userKey then .ok true
  else if lastSequenceForKey ≤ job.smallestSnapshot then .ok true
  else if e.flag = .deletion ∧ e.sequenceNumber ≤ job.smallestSnapshot then
    job.isBaseLevelForKey (job.targetLevel + 1) e.key
  else .ok false

def builtEntry (job : Compaction K) (e : Entry K) : Entry K :=
  if job.targetLevel = kMaxLevel - 1 then ⟨makeKey e.userKey 0 .value, e.value⟩ else e

/-- Hand the entry to the builder and widen the range of keys, which is taken from the merged entry
and not from the rewritten one. -/
def addEntry (job : Compaction K) (result : CompactionResult K) (e : Entry K) :
    CompactionResult K :=
  { result with
    entries := result.entries ++ [job.builtEntry e]
    smallestKey := widenSmallest result.smallestKey e
    largestKey := widenLargest result.largestKey e }

def runLoop (job : Compaction K) : Option K → ℕ → List (Entry K) → CompactionResult K →
    Except Error (CompactionResult K)
  | _, _, [], result => .ok result
  | currentUserKey, lastSequenceForKey, e :: es, result =>
    let last := if currentUserKey = some e.userKey then lastSequenceForKey else kMaxSequenceNumber
    match job.dropEntry last e with
    | .error err => .error err
    | .ok true => runLoop job (some e.userKey) e.sequenceNumber es
        { result with deletionKeys := result.deletionKeys + 1 }
    | .ok false => runLoop job (some e.userKey) e.sequenceNumber es (job.addEntry result e)

def run (job : Compaction K) : Except Error (CompactionResult K) :=
  runLoop job none kMaxSequenceNumber (newMergingIterator job.originalInput) {}

end Compaction

/-- The snapshot that `DBImpl::CompactFileTable` gives the job; `snapshots` lists the live ones from
the oldest. -/
def smallestSnapshot (snapshots : List ℕ) (lastSequenceNumber : ℕ) : ℕ :=
  snapshots.head?.getD lastSequenceNumber

lemma newMergingIterator_perm (children : List (List (Entry K))) :
    (newMergingIterator children).Perm children.flatten := by
  match children with
  | [] => exact List.Perm.refl _
  | [child] => simp [newMergingIterator]
  | a :: b :: cs => exact merge_perm _

lemma newMergingIterator_ordered {children : List (List (Entry K))}
    (h : ∀ c ∈ children, OrderedEntries c) : OrderedEntries (newMergingIterator children) := by
  match children with
  | [] => exact List.Pairwise.nil
  | [child] => exact h child (by simp)
  | a :: b :: cs =>
    refine merge_ordered (fun x y z hxy hyz => ?_) (fun x y hxy hyx => ?_) h
    · rw [Entry.not_before_iff] at *
      rcases hxy with hxy | ⟨hxy, hs⟩ <;> rcases hyz with hyz | ⟨hyz, hs'⟩
      · exact Or.inl (hxy.trans hyz)
      · exact Or.inl (hyz ▸ hxy)
      · exact Or.inl (hxy ▸ hyz)
      · exact Or.inr ⟨hxy.trans hyz, hs'.trans hs⟩
    · exact Entry.Before.irrefl x (hxy.trans hyx)

section Spec
variable {job : Compaction K}

def FiltersLoad (job : Compaction K) : Prop :=
  ∀ i < kMaxLevel, ∀ f ∈ job.inputVersion.files i, ∃ filter, job.keyFilter f.number = .ok filter

def LooksUp (job : Compaction K) : Prop :=
  ∀ key, ∃ mayExists, job.isBaseLevelForKey (job.targetLevel + 1) key = .ok mayExists

def mayExists (job : Compaction K) (key : InternalKey K) : Bool :=
  (job.isBaseLevelForKey (job.targetLevel + 1) key).toOption.getD false

lemma mayExistsLoop_ok {key : InternalKey K} {fs : List (FileMetaData K)}
    (h : ∀ f ∈ fs, ∃ filter, job.keyFilter f.number = .ok filter) (b : Bool) :
    ∃ r, job.mayExistsLoop key fs b = .ok r := by
  induction fs generalizing b with
  | nil => exact ⟨b, rfl⟩
  | cons f fs ih =>
    have ih := ih fun g hg => h g (by simp [hg])
    obtain ⟨filter, hf⟩ := h f (by simp)
    rw [Compaction.mayExistsLoop]
    split_ifs
    · exact ih b
    · rw [hf]
      exact ih _

lemma FiltersLoad.looksUp (h : FiltersLoad job) : LooksUp job := by
  intro key
  unfold Compaction.isBaseLevelForKey
  split_ifs
  · exact ⟨false, rfl⟩
  · refine mayExistsLoop_ok (fun f hf => ?_) false
    obtain ⟨i, hi, hf⟩ := mem_flatMap.mp hf
    exact h i (mem_range.mp (mem_of_mem_filter hi)) f hf

lemma isBaseLevelForKey_lastLevel (h : kMaxLevel - 1 ≤ job.targetLevel + 1) (key : InternalKey K) :
    job.isBaseLevelForKey (job.targetLevel + 1) key = .ok false := by
  unfold Compaction.isBaseLevelForKey
  split_ifs with he
  · rfl
  · have hnone : (List.range kMaxLevel).filter (job.targetLevel + 1 ≤ ·) = [] := by
      refine filter_eq_nil_iff.mpr fun i hi => ?_
      have hi := mem_range.mp hi
      simp only [decide_eq_true_eq]
      omega
    rw [hnone]
    rfl

def lastSequence (prev : Option (Entry K)) (e : Entry K) : ℕ :=
  match prev with
  | some p => if p.userKey = e.userKey then p.sequenceNumber else kMaxSequenceNumber
  | none => kMaxSequenceNumber

def drops (job : Compaction K) (prev : Option (Entry K)) (e : Entry K) : Bool :=
  job.isBaseMemoryForKey e.userKey || lastSequence prev e ≤ job.smallestSnapshot ||
    (e.flag = .deletion && e.sequenceNumber ≤ job.smallestSnapshot && mayExists job e.key)

def kept (job : Compaction K) : Option (Entry K) → List (Entry K) → List (Entry K)
  | _, [] => []
  | prev, e :: es => if drops job prev e then kept job (some e) es else e :: kept job (some e) es

lemma dropEntry_ok {prev : Option (Entry K)} {e : Entry K} {b : Bool}
    (h : job.dropEntry (lastSequence prev e) e = .ok b) : drops job prev e = b := by
  unfold Compaction.dropEntry at h
  unfold drops
  split_ifs at h with h1 h2 h3
  · simpa [h1] using h
  · simpa [h2] using h
  · simp [h1, h2, h3, mayExists, h, Except.toOption]
  · have h3 : ¬ (e.flag = .deletion ∧ e.sequenceNumber ≤ job.smallestSnapshot ∧
        mayExists job e.key = true) :=
      fun h => h3 ⟨h.1, h.2.1⟩
    simp_all

lemma runLoop_kept {out : CompactionResult K} (prev : Option (Entry K)) {es : List (Entry K)}
    {result : CompactionResult K} {last : ℕ} (hl : ∀ p, prev = some p → last = p.sequenceNumber)
    (h : job.runLoop (prev.map Entry.userKey) last es result = .ok out) :
    out.entries = result.entries ++ (kept job prev es).map job.builtEntry ∧
      out.smallestKey = (kept job prev es).foldl widenSmallest result.smallestKey ∧
      out.largestKey = (kept job prev es).foldl widenLargest result.largestKey := by
  induction es generalizing prev result last with
  | nil =>
    obtain rfl := Except.ok.inj h
    simp [kept]
  | cons e es ih =>
    have hlast : (if prev.map Entry.userKey = some e.userKey then last else kMaxSequenceNumber) =
        lastSequence prev e := by
      cases prev with
      | none => simp [lastSequence]
      | some p => simp [lastSequence, hl p rfl]
    have ih := @ih (some e)
    rw [Compaction.runLoop, hlast] at h
    split at h
    · cases h
    · next hdrop =>
      rw [kept, dropEntry_ok hdrop]
      have hrest := ih (fun p hp => congrArg Entry.sequenceNumber (Option.some.inj hp)) h
      exact hrest
    · next hdrop =>
      rw [kept, dropEntry_ok hdrop]
      obtain ⟨he, hs, hl⟩ := ih (fun p hp => congrArg Entry.sequenceNumber (Option.some.inj hp)) h
      simp [he, hs, hl, Compaction.addEntry]

lemma LooksUp.dropEntry (h : LooksUp job) (last : ℕ) (e : Entry K) :
    ∃ b, job.dropEntry last e = .ok b := by
  unfold Compaction.dropEntry
  split_ifs
  · exact ⟨true, rfl⟩
  · exact ⟨true, rfl⟩
  · exact h e.key
  · exact ⟨false, rfl⟩

lemma LooksUp.runLoop (h : LooksUp job) (key : Option K) (last : ℕ) (es : List (Entry K))
    (result : CompactionResult K) :
    ∃ out, job.runLoop key last es result = .ok out := by
  induction es generalizing key last result with
  | nil => exact ⟨result, rfl⟩
  | cons e es ih =>
    rw [Compaction.runLoop]
    obtain ⟨b, hb⟩ := h.dropEntry (if key = some e.userKey then last else kMaxSequenceNumber) e
    rw [hb]
    cases b with
    | true => exact ih _ _ _
    | false => exact ih _ _ _

lemma run_spec (h : LooksUp job) : ∃ out, job.run = .ok out ∧
    out.entries = (kept job none (newMergingIterator job.originalInput)).map job.builtEntry ∧
    out.smallestKey =
      (kept job none (newMergingIterator job.originalInput)).foldl widenSmallest none ∧
    out.largestKey =
      (kept job none (newMergingIterator job.originalInput)).foldl widenLargest none := by
  obtain ⟨out, hout⟩ := h.runLoop none kMaxSequenceNumber (newMergingIterator job.originalInput) {}
  exact ⟨out, hout, by simpa using runLoop_kept none (by simp) hout⟩

end Spec

end Mai.DbCompaction
