import Mai.CoreMemoryTable

/-! Versions of a column family, the patches that change them and the reads of their
table files (`db/config.h`, `db/version.h`, `db/version.cc`). -/
namespace Mai.DbVersion
open VersionedEntries CoreKeys List

def kMaxLevel : ℕ := 4
def kMaxNumberLevel0File : ℕ := 10
structure FileMetaData (K : Type*) where
  number : ℕ
  smallestKey : InternalKey K
  largestKey : InternalKey K
  size : ℕ
  ctime : ℕ
  deriving DecidableEq, Repr

structure FileDeletion where
  cfid : ℕ
  level : ℕ
  number : ℕ
  deriving DecidableEq, Repr

structure FileCreation (K : Type*) where
  cfid : ℕ
  level : ℕ
  fileMetadata : FileMetaData K
  deriving DecidableEq, Repr

structure CFCreation where
  cfid : ℕ
  name : String
  comparatorName : String
  deriving DecidableEq, Repr

structure RedoLog where
  cfid : ℕ
  number : ℕ
  deriving DecidableEq, Repr

structure CompactionPoint (K : Type*) where
  cfid : ℕ
  level : ℕ
  key : InternalKey K
  deriving DecidableEq, Repr

/-- `VersionPatch`; a field that is not set is `none`, and the two collections are set
when they are not empty. -/
structure VersionPatch (K : Type*) where
  lastSequenceNumber : Option ℕ := none
  nextFileNumber : Option ℕ := none
  redoLogNumber : Option ℕ := none
  redoLog : Option RedoLog := none
  prevLogNumber : Option ℕ := none
  compactionPoint : Option (CompactionPoint K) := none
  fileDeletion : List FileDeletion := []
  fileCreation : List (FileCreation K) := []
  maxColumnFamily : Option ℕ := none
  cfCreation : Option CFCreation := none
  cfDeletion : Option ℕ := none
  deriving DecidableEq, Repr

structure Version (K : Type*) where
  files : ℕ → List (FileMetaData K)

namespace Version
variable {K : Type*}

def empty : Version K := ⟨fun _ => []⟩

end Version

def FileMetaData.start {K : Type*} (f : FileMetaData K) : K := f.smallestKey.userKey
def FileMetaData.limit {K : Type*} (f : FileMetaData K) : K := f.largestKey.userKey

section Builder
variable {K : Type*} [LinearOrder K] {l : List (Entry K)} {k : InternalKey K}

def bySmallestKey (a b : FileMetaData K) : Bool :=
  match a.smallestKey.compare b.smallestKey with
  | .lt => true
  | .gt => false
  | .eq => a.number < b.number

def emplaceCreation (f : FileMetaData K) : List (FileMetaData K) → List (FileMetaData K)
  | [] => [f]
  | g :: gs =>
    if bySmallestKey g f then g :: emplaceCreation f gs
    else if bySmallestKey f g then f :: g :: gs
    else g :: gs

def creationAt (patch : VersionPatch K) (level : ℕ) : List (FileMetaData K) :=
  (patch.fileCreation.filter fun c => c.level = level).foldl
    (fun files c => emplaceCreation c.fileMetadata files) []

def deletionAt (patch : VersionPatch K) (level : ℕ) : List ℕ :=
  ((patch.fileDeletion.filter fun d => d.level = level).map FileDeletion.number).filter
    fun n => ¬ patch.fileCreation.any fun c => c.level = level ∧ c.fileMetadata.number = n

def Version.build (current : Version K) (patch : VersionPatch K) : Version K :=
  ⟨fun level =>
    if level < kMaxLevel then
      (current.files level).filter (fun f => f.number ∉ deletionAt patch level) ++
        creationAt patch level
    else []⟩

def widenSmallest (smallest : Option (InternalKey K)) (e : Entry K) : Option (InternalKey K) :=
  match smallest with
  | none => some e.key
  | some k => if e.key.compare k = .lt then some e.key else some k

def widenLargest (largest : Option (InternalKey K)) (e : Entry K) : Option (InternalKey K) :=
  match largest with
  | none => some e.key
  | some k => if e.key.compare k = .gt then some e.key else some k

lemma widenSmallest_userKey_le (k : InternalKey K) (e : Entry K) :
    ∃ m, widenSmallest (some k) e = some m ∧
    (m = k ∨ m = e.key) ∧ m.userKey ≤ k.userKey ∧ m.userKey ≤ e.userKey := by
  unfold widenSmallest
  by_cases h : e.key.compare k = .lt
  · refine ⟨e.key, by simp [h], Or.inr rfl, ?_, le_rfl⟩
    rcases InternalKey.compare_eq_lt.mp h with h | ⟨h, -⟩
    · exact h.le
    · exact h.le
  · refine ⟨k, by simp [h], Or.inl rfl, le_rfl, ?_⟩
    rcases InternalKey.compare_ne_lt.mp h with h | ⟨h, -⟩
    · exact h.le
    · exact h.ge

omit [LinearOrder K] in
lemma foldl_widen {widen : Option (InternalKey K) → Entry K → Option (InternalKey K)}
    {r : InternalKey K → InternalKey K → Prop} (hrefl : ∀ a, r a a)
    (htrans : ∀ a b c, r a b → r b c → r a c) (hfirst : ∀ e, widen none e = some e.key)
    (hnext : ∀ k e, ∃ m, widen (some k) e = some m ∧ (m = k ∨ m = e.key) ∧ r m k ∧ r m e.key)
    (h : l.foldl widen none = some k) :
    (∃ e ∈ l, e.key = k) ∧ ∀ e ∈ l, r k e.key := by
  have hgen : ∀ (l : List (Entry K)) (a : InternalKey K), l.foldl widen (some a) = some k →
      (k = a ∨ ∃ e ∈ l, e.key = k) ∧ r k a ∧ ∀ e ∈ l, r k e.key := by
    intro l
    induction l with
    | nil =>
      intro a h
      obtain rfl := Option.some.inj h
      simp [hrefl]
    | cons e l ih =>
      intro a h
      obtain ⟨m, hm, hsrc, hma, hme⟩ := hnext a e
      rw [foldl_cons, hm] at h
      obtain ⟨hk, hkm, hall⟩ := ih m h
      refine ⟨?_, htrans _ _ _ hkm hma, forall_mem_cons.mpr ⟨htrans _ _ _ hkm hme, hall⟩⟩
      rcases hk with rfl | ⟨x, hx, rfl⟩
      · rcases hsrc with rfl | rfl
        · exact Or.inl rfl
        · exact Or.inr ⟨e, by simp, rfl⟩
      · exact Or.inr ⟨x, by simp [hx], rfl⟩
  cases l with
  | nil => simp at h
  | cons e l =>
    rw [foldl_cons, hfirst] at h
    obtain ⟨hk, hle, hall⟩ := hgen l e.key h
    refine ⟨?_, forall_mem_cons.mpr ⟨hle, hall⟩⟩
    rcases hk with rfl | ⟨x, hx, rfl⟩
    · exact ⟨e, by simp, rfl⟩
    · exact ⟨x, by simp [hx], rfl⟩

lemma foldl_widenSmallest (h : l.foldl widenSmallest none = some k) :
    (∃ e ∈ l, e.key = k) ∧ ∀ e ∈ l, k.userKey ≤ e.userKey :=
  foldl_widen (r := fun a b => a.userKey ≤ b.userKey) (fun _ => le_rfl) (fun _ _ _ => le_trans)
    (fun _ => rfl)
    widenSmallest_userKey_le h

lemma foldl_widenSmallest_compare
    (h : l.foldl widenSmallest none = some k) : ∀ e ∈ l, k.compare e.key ≠ .gt := by
  have hiff : ∀ a b : InternalKey K, a.compare b ≠ .gt ↔
      a.userKey < b.userKey ∨ b.userKey = a.userKey ∧ b.tag.sequenceNumber ≤ a.tag.sequenceNumber :=
      fun a b => by
    rw [Ne, InternalKey.compare_eq_gt]
    exact InternalKey.compare_ne_lt
  refine (foldl_widen (r := fun a b => a.compare b ≠ .gt)
    (fun a => (hiff a a).mpr (Or.inr ⟨rfl, le_rfl⟩))
    (fun a b c hab hbc => ?_) (fun _ => rfl) (fun k e => ?_) h).2
  · rw [hiff] at *
    rcases hab with hab | ⟨hab, hs⟩ <;> rcases hbc with hbc | ⟨hbc, hs'⟩
    · exact Or.inl (hab.trans hbc)
    · exact Or.inl (hbc ▸ hab)
    · exact Or.inl (hab ▸ hbc)
    · exact Or.inr ⟨hbc.trans hab, hs'.trans hs⟩
  · by_cases hlt : e.key.compare k = .lt
    · exact ⟨e.key, by simp [widenSmallest, hlt], Or.inr rfl, by simp [hlt],
        (hiff _ _).mpr (Or.inr ⟨rfl, le_rfl⟩)⟩
    · exact ⟨k, by simp [widenSmallest, hlt], Or.inl rfl, (hiff _ _).mpr (Or.inr ⟨rfl, le_rfl⟩), by
        rwa [Ne, InternalKey.compare_eq_gt]⟩

end Builder

section Overlapping
variable {K : Type*} [LinearOrder K]

inductive Pass (K : Type*)
  | done (inputs : List (FileMetaData K))
  | restart (userBegin userEnd : K)

/-- One pass of the loop in `Version::GetOverlappingInputs`; in level 0 a file that reaches
beyond the range stops the pass with the wider range. -/
def overlapPass (level : ℕ) (userBegin userEnd : K) :
    List (FileMetaData K) → List (FileMetaData K) → Pass K
  | [], inputs => .done inputs
  | f :: fs, inputs =>
    if f.limit < userBegin then overlapPass level userBegin userEnd fs inputs
    else if userEnd < f.start then overlapPass level userBegin userEnd fs inputs
    else if level = 0 ∧ f.start < userBegin then .restart f.start userEnd
    else if level = 0 ∧ userEnd < f.limit then .restart userBegin f.limit
    else overlapPass level userBegin userEnd fs (inputs ++ [f])

def overlapRestarts (level : ℕ) (files : List (FileMetaData K)) :
    ℕ → K → K → List (FileMetaData K)
  | 0, _, _ => []
  | fuel + 1, userBegin, userEnd =>
    match overlapPass level userBegin userEnd files.tail [] with
    | .done inputs => inputs
    | .restart b e => overlapRestarts level files fuel b e

/-- `Version::GetOverlappingInputs`. A restart moves an endpoint of the range to an endpoint of
some file, so there are never more restarts than endpoints. -/
def Version.getOverlappingInputs (v : Version K) (level : ℕ) (begin_ end_ : InternalKey K) :
    List (FileMetaData K) :=
  let files := v.files level
  match overlapPass level begin_.userKey end_.userKey files [] with
  | .done inputs => inputs
  | .restart b e => overlapRestarts level files (2 * files.length) b e

end Overlapping

end Mai.DbVersion
