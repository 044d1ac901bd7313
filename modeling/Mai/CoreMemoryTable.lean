import Mai.CoreKeys

/-! Memory tables and the queue of immutable tables (`core/memory-table.h`,
`core/ordered-memory-table.cc`, `core/pipeline-queue.h`). -/
namespace Mai.CoreMemoryTable
open VersionedEntries CoreKeys List

variable {K : Type*} [LinearOrder K]

structure MemoryTable (K : Type*) [LinearOrder K] where
  entries : List (Entry K)
  ordered : OrderedEntries entries
  associatedFileNumber : ℕ

namespace MemoryTable

def empty : MemoryTable K := ⟨[], List.Pairwise.nil, 0⟩

def insertEntry (e : Entry K) : List (Entry K) → List (Entry K)
  | [] => [e]
  | a :: l => if a.Before e then a :: insertEntry e l else e :: a :: l

lemma mem_insertEntry {e x : Entry K} {l : List (Entry K)} :
    x ∈ insertEntry e l ↔ x = e ∨ x ∈ l := by
  induction l with
  | nil => simp [insertEntry]
  | cons a l ih =>
    simp only [insertEntry]
    split_ifs
    · simp only [mem_cons, ih]
      tauto
    · simp

lemma insertEntry_ordered (e : Entry K) {l : List (Entry K)} (h : OrderedEntries l) :
    OrderedEntries (insertEntry e l) := by
  induction l with
  | nil => exact pairwise_singleton _ _
  | cons a l ih =>
    obtain ⟨hhead, htail⟩ := pairwise_cons.mp h
    simp only [insertEntry]
    split_ifs with ha
    · refine pairwise_cons.mpr ⟨fun b hb => ?_, ih htail⟩
      rcases mem_insertEntry.mp hb with rfl | hb
      · exact fun hba => Entry.Before.irrefl _ (ha.trans hba)
      · exact hhead b hb
    · refine pairwise_cons.mpr ⟨fun b hb => ?_, h⟩
      rcases mem_cons.mp hb with rfl | hb
      · exact ha
      · intro hbe
        rcases Entry.not_before_iff.mp (hhead b hb) with hab | ⟨hab, hs⟩
        · exact ha (Entry.before_iff.mpr (Or.inl (by
            rcases Entry.before_iff.mp hbe with h | ⟨h, _⟩
            · exact hab.trans h
            · exact h ▸ hab)))
        · refine ha (Entry.before_iff.mpr ?_)
          rcases Entry.before_iff.mp hbe with h | ⟨h, hs'⟩
          · exact Or.inl (hab ▸ h)
          · exact Or.inr ⟨hab.trans h, hs'.trans_le hs⟩

def put (t : MemoryTable K) (key : K) (value : Bytes) (version : ℕ) (flag : Flag) : MemoryTable K :=
  { t with
    entries := insertEntry ⟨makeKey key version flag, value⟩ t.entries
    ordered := insertEntry_ordered _ t.ordered }

def get (t : MemoryTable K) (key : K) (version : ℕ) : Except Error (Entry K) :=
  seekOrError "Can not seek key." "Key not equals target." t.entries
    (makeKey key version .valueForSeek)

def keyExists (t : MemoryTable K) (key : K) (version : ℕ) : Bool := (t.get key version).isOk

end MemoryTable

structure PipelineQueue (T : Type*) where
  queue : List T

end Mai.CoreMemoryTable
