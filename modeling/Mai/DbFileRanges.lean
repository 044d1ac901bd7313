import Mai.DbCompactionReads

/-! The key ranges of new table files (`DBImpl::WriteLevel0Table`, `CompactionImpl::Run`): when the
smallest and the largest key of the meta data are those of the entries in the file. -/
namespace Mai.DbFileRanges
open VersionedEntries CoreKeys CoreMemoryTable DbVersion DbCompaction DbCompactionReads List

variable {K : Type*} [LinearOrder K]

inductive TableJob (K : Type*) [LinearOrder K]
  | flush (table : MemoryTable K)
  | compaction (job : Compaction K)

def writeTable (table : MemoryTable K) : CompactionResult K :=
  table.entries.foldl (fun result e => { result with
    entries := result.entries ++ [e]
    smallestKey := widenSmallest result.smallestKey e
    largestKey := widenLargest result.largestKey e }) {}

/-- What is written to the file, with the keys that go to its `FileMetaData`; a key that was never
set is empty. -/
def TableJob.run : TableJob K → Except Error (CompactionResult K)
  | .flush table => .ok (writeTable table)
  | .compaction job => job.run

def IsLeast (k : InternalKey K) (entries : List (Entry K)) : Prop :=
  (∃ e ∈ entries, k.compare e.key = .eq) ∧ ∀ e ∈ entries, k.compare e.key ≠ .gt

def IsGreatest (k : InternalKey K) (entries : List (Entry K)) : Prop :=
  (∃ e ∈ entries, k.compare e.key = .eq) ∧ ∀ e ∈ entries, k.compare e.key ≠ .lt

structure Describes (file : CompactionResult K) : Prop where
  nonempty : file.entries ≠ []
  smallest : ∃ k, file.smallestKey = some k ∧ IsLeast k file.entries
  largest : ∃ k, file.largestKey = some k ∧ IsGreatest k file.entries

def Survives (job : Compaction K) (e : Entry K) : Prop :=
  ∃ l₁ l₂, newMergingIterator job.originalInput = l₁ ++ e :: l₂ ∧ drops job l₁.getLast? e = false

structure KeepsEnds (job : Compaction K) : Prop where
  least : ∀ e, Survives job e → (∀ x, Survives job x → e.userKey ≤ x.userKey) → e.sequenceNumber = 0
  greatest : ∃ e, Survives job e ∧ (∀ x, Survives job x → x.userKey ≤ e.userKey) ∧
    e.sequenceNumber = 0

def TableJob.Ranged : TableJob K → Prop
  | .flush table => table.entries ≠ []
  | .compaction job => (∃ e, Survives job e) ∧ (job.targetLevel = kMaxLevel - 1 → KeepsEnds job)

section Keys
variable {a b : InternalKey K}

lemma compare_eq_eq :
    a.compare b = .eq ↔ a.userKey = b.userKey ∧ a.tag.sequenceNumber = b.tag.sequenceNumber := by
  have hlt := InternalKey.compare_ne_lt (a := a) (b := b)
  have hgt := InternalKey.compare_ne_lt (a := b) (b := a)
  rw [Ne, ← InternalKey.compare_eq_gt] at hgt
  constructor
  · intro h
    rcases hlt.mp (by simp [h]) with hlt | ⟨hk, hs⟩ <;> rcases hgt.mp (by simp [h]) with hgt | ⟨hk',
      hs'⟩
    · exact absurd hlt hgt.not_gt
    · exact absurd hlt (by simp [hk'])
    · exact absurd hgt (by simp [hk])
    · exact ⟨hk, hs.antisymm hs'⟩
  · rintro ⟨hk, hs⟩
    cases h : a.compare b with
    | eq => rfl
    | lt => exact absurd h (hlt.mpr (Or.inr ⟨hk, hs.le⟩))
    | gt => exact absurd h (hgt.mpr (Or.inr ⟨hk.symm, hs.ge⟩))

lemma compare_ne_gt : a.compare b ≠ .gt ↔
    a.userKey < b.userKey ∨ b.userKey = a.userKey ∧ b.tag.sequenceNumber ≤
      a.tag.sequenceNumber := by
  rw [Ne, InternalKey.compare_eq_gt]
  exact InternalKey.compare_ne_lt

end Keys

section Ends
variable {l : List (Entry K)} {k : InternalKey K}

omit [LinearOrder K] in
lemma foldl_widen_some (widen : Option (InternalKey K) → Entry K → Option (InternalKey K))
    (hwiden : ∀ o e, (widen o e).isSome = true) (hl : l ≠ []) :
    ∃ k, l.foldl widen none = some k := by
  have hgen : ∀ (l : List (Entry K)) (o : Option (InternalKey K)), o.isSome = true →
      (l.foldl widen o).isSome = true := by
    intro l
    induction l with
    | nil => exact fun _ ho => ho
    | cons e l ih => exact fun o _ => ih _ (hwiden o e)
  cases l with
  | nil => exact absurd rfl hl
  | cons e l => exact Option.isSome_iff_exists.mp (hgen l _ (hwiden none e))

lemma smallest_spec (hl : l ≠ []) :
    ∃ e ∈ l, l.foldl widenSmallest none = some e.key ∧ ∀ x ∈ l, e.key.compare x.key ≠ .gt := by
  obtain ⟨k, hk⟩ := foldl_widen_some widenSmallest
    (fun o e => by cases o <;> simp [widenSmallest]; split_ifs <;> rfl) hl
  obtain ⟨⟨e, he, rfl⟩, -⟩ := foldl_widenSmallest hk
  exact ⟨e, he, hk, foldl_widenSmallest_compare hk⟩

lemma largest_spec (hl : l ≠ []) :
    ∃ e ∈ l, l.foldl widenLargest none = some e.key ∧ ∀ x ∈ l, e.key.compare x.key ≠ .lt := by
  obtain ⟨k, hk⟩ := foldl_widen_some widenLargest
    (fun o e => by cases o <;> simp [widenLargest]; split_ifs <;> rfl) hl
  have hmax := foldl_widen (r := fun a b => a.compare b ≠ .lt)
    (fun a => InternalKey.compare_ne_lt.mpr (Or.inr ⟨rfl, le_rfl⟩)) (fun a b c hab hbc => ?_)
      (fun _ => rfl) (fun k e => ?_) hk
  · obtain ⟨⟨e, he, rfl⟩, hmax⟩ := hmax
    exact ⟨e, he, hk, hmax⟩
  · rw [InternalKey.compare_ne_lt] at *
    rcases hab with hab | ⟨hab, hs⟩ <;> rcases hbc with hbc | ⟨hbc, hs'⟩
    · exact Or.inl (hbc.trans hab)
    · exact Or.inl (hbc ▸ hab)
    · exact Or.inl (hab ▸ hbc)
    · exact Or.inr ⟨hab.trans hbc, hs.trans hs'⟩
  · by_cases hgt : e.key.compare k = .gt
    · exact ⟨e.key, by simp [widenLargest, hgt], Or.inr rfl, by simp [hgt],
        InternalKey.compare_ne_lt.mpr (Or.inr ⟨rfl, le_rfl⟩)⟩
    · exact ⟨k, by simp [widenLargest, hgt], Or.inl rfl,
        InternalKey.compare_ne_lt.mpr (Or.inr ⟨rfl, le_rfl⟩), fun hlt =>
        hgt (InternalKey.compare_eq_gt.mpr hlt)⟩

lemma describes_self (file : CompactionResult K)
    (hsmallest : file.smallestKey = file.entries.foldl widenSmallest none)
    (hlargest : file.largestKey = file.entries.foldl widenLargest none) :
    Describes file ↔ file.entries ≠ [] := by
  refine ⟨Describes.nonempty, fun hne => ?_⟩
  obtain ⟨e, he, hkey, hmin⟩ := smallest_spec hne
  obtain ⟨x, hx, hkey', hmax⟩ := largest_spec hne
  exact ⟨hne, ⟨e.key, hsmallest.trans hkey, ⟨e, he, compare_eq_eq.mpr ⟨rfl, rfl⟩⟩, hmin⟩,
    ⟨x.key, hlargest.trans hkey', ⟨x, hx, compare_eq_eq.mpr ⟨rfl, rfl⟩⟩, hmax⟩⟩

end Ends

lemma writeTable_eq (table : MemoryTable K) :
    writeTable table = ⟨table.entries, table.entries.foldl widenSmallest none,
      table.entries.foldl widenLargest none, 0⟩ := by
  have hgen : ∀ (l : List (Entry K)) (result : CompactionResult K),
      l.foldl (fun result e => { result with
        entries := result.entries ++ [e]
        smallestKey := widenSmallest result.smallestKey e
        largestKey := widenLargest result.largestKey e }) result =
      ⟨result.entries ++ l, l.foldl widenSmallest result.smallestKey,
        l.foldl widenLargest result.largestKey, result.deletionKeys⟩ := by
    intro l
    induction l with
    | nil => simp
    | cons e l ih => simp [ih]
  exact (hgen table.entries {}).trans (by simp)

section Compaction
variable {job : Compaction K} {out : CompactionResult K}

lemma mem_survivors {e : Entry K} : e ∈ survivors job ↔ Survives job e := by
  simp only [survivors, mem_kept, Option.or_none, Survives]

lemma run_survivors (h : job.run = .ok out) : out.entries = (survivors job).map job.builtEntry ∧
    out.smallestKey = (survivors job).foldl widenSmallest none ∧
    out.largestKey = (survivors job).foldl widenLargest none := by
  have hkept := runLoop_kept none (by simp) h
  simpa [survivors] using hkept

lemma survivors_ne_nil : survivors job ≠ [] ↔ ∃ e, Survives job e := by
  constructor
  · intro h
    obtain ⟨e, he⟩ := exists_mem_of_ne_nil _ h
    exact ⟨e, mem_survivors.mp he⟩
  · rintro ⟨e, he⟩
    exact ne_nil_of_mem (mem_survivors.mpr he)

lemma describes_inner (hlevel : job.targetLevel ≠ kMaxLevel - 1) (h : job.run = .ok out) :
    Describes out ↔ ∃ e, Survives job e := by
  obtain ⟨hentries, hsmallest, hlargest⟩ := run_survivors h
  have hbuilt : (survivors job).map job.builtEntry = survivors job := by
    refine (map_congr_left fun e _ => ?_).trans (List.map_id _)
    exact if_neg hlevel
  rw [hbuilt] at hentries
  rw [describes_self out (by rw [hentries, hsmallest]) (by rw [hentries, hlargest]), hentries,
    survivors_ne_nil]

def zeroed (e : Entry K) : Entry K := ⟨makeKey e.userKey 0 .value, e.value⟩

section Zeroed
variable {l : List (Entry K)} {e : Entry K}

lemma isLeast_zeroed (he : e ∈ l) (hmin : ∀ x ∈ l, e.key.compare x.key ≠ .gt) :
    IsLeast e.key (l.map zeroed) ↔ ∀ a ∈ l, (∀ x ∈ l, a.userKey ≤ x.userKey) →
      a.sequenceNumber = 0 := by
  constructor
  · rintro ⟨⟨b, hb, hcmp⟩, -⟩ a ha hleast
    obtain ⟨x, -, rfl⟩ := List.mem_map.mp hb
    have hzero : e.sequenceNumber = 0 := (compare_eq_eq.mp hcmp).2
    rcases compare_ne_gt.mp (hmin a ha) with hlt | ⟨-, hle⟩
    · exact absurd hlt (hleast e he).not_gt
    · exact Nat.le_zero.mp (hle.trans hzero.le)
  · intro h
    have huser : ∀ x ∈ l, e.userKey < x.userKey ∨ x.userKey = e.userKey := fun x hx =>
      (compare_ne_gt.mp (hmin x hx)).imp_right And.left
    have hzero : e.sequenceNumber = 0 := h e he fun x hx => (huser x hx).elim le_of_lt Eq.ge
    refine ⟨⟨zeroed e, List.mem_map_of_mem he, compare_eq_eq.mpr ⟨rfl, hzero⟩⟩,
      List.forall_mem_map.mpr fun x hx => ?_⟩
    exact compare_ne_gt.mpr ((huser x hx).imp_right fun heq => ⟨heq, Nat.zero_le _⟩)

lemma isGreatest_zeroed (he : e ∈ l) (hmax : ∀ x ∈ l, e.key.compare x.key ≠ .lt) :
    IsGreatest e.key (l.map zeroed) ↔ ∃ a ∈ l, (∀ x ∈ l, x.userKey ≤ a.userKey) ∧
      a.sequenceNumber = 0 := by
  have huser : ∀ x ∈ l, x.userKey < e.userKey ∨ e.userKey = x.userKey := fun x hx =>
    (InternalKey.compare_ne_lt.mp (hmax x hx)).imp_right And.left
  constructor
  · rintro ⟨⟨b, hb, hcmp⟩, -⟩
    obtain ⟨x, -, rfl⟩ := List.mem_map.mp hb
    exact ⟨e, he, fun x hx => (huser x hx).elim le_of_lt Eq.ge, (compare_eq_eq.mp hcmp).2⟩
  · rintro ⟨a, ha, hgreatest, hzero⟩
    have hzero : e.sequenceNumber = 0 := by
      rcases InternalKey.compare_ne_lt.mp (hmax a ha) with hlt | ⟨-, hle⟩
      · exact absurd hlt (hgreatest e he).not_gt
      · exact Nat.le_zero.mp (hle.trans hzero.le)
    refine ⟨⟨zeroed e, List.mem_map_of_mem he, compare_eq_eq.mpr ⟨rfl, hzero⟩⟩,
      List.forall_mem_map.mpr fun x hx => ?_⟩
    exact InternalKey.compare_ne_lt.mpr ((huser x hx).imp_right fun heq => ⟨heq, hzero.le⟩)

end Zeroed

lemma describes_last (hlevel : job.targetLevel = kMaxLevel - 1) (h : job.run = .ok out) :
    Describes out ↔ (∃ e, Survives job e) ∧ KeepsEnds job := by
  obtain ⟨hentries, hsmallest, hlargest⟩ := run_survivors h
  have hbuilt : job.builtEntry = zeroed := funext fun e => if_pos hlevel
  rw [hbuilt] at hentries
  rw [← survivors_ne_nil]
  by_cases hne : survivors job = []
  · refine iff_of_false (fun hd => hd.nonempty ?_) fun h => h.1 hne
    rw [hentries, hne, map_nil]
  · obtain ⟨e, he, hkey, hmin⟩ := smallest_spec hne
    obtain ⟨x, hx, hkey', hmax⟩ := largest_spec hne
    have hleast := isLeast_zeroed he hmin
    have hgreatest := isGreatest_zeroed hx hmax
    rw [← hentries] at hleast hgreatest
    simp only [mem_survivors] at hleast hgreatest
    constructor
    · rintro ⟨-, ⟨k, hk, hleast'⟩, k', hk', hgreatest'⟩
      obtain rfl := Option.some.inj (hkey.symm.trans (hsmallest.symm.trans hk))
      obtain rfl := Option.some.inj (hkey'.symm.trans (hlargest.symm.trans hk'))
      exact ⟨hne, hleast.mp hleast', hgreatest.mp hgreatest'⟩
    · rintro ⟨-, hends⟩
      refine ⟨by simpa [hentries] using hne, ⟨_, hsmallest.trans hkey, hleast.mpr hends.least⟩,
        ⟨_, hlargest.trans hkey', hgreatest.mpr hends.greatest⟩⟩

end Compaction

/-- The meta data of a new file describes it exactly when the table has entries, or some entry
survives the compaction and its target is not the last level or the ends of the range have sequence
number 0. -/
theorem describes_iff (job : TableJob K) (file : CompactionResult K) (h : job.run = .ok file) :
    Describes file ↔ job.Ranged := by
  cases job with
  | flush table =>
    obtain rfl := Except.ok.inj h
    rw [writeTable_eq]
    exact describes_self _ rfl rfl
  | compaction job =>
    by_cases hlevel : job.targetLevel = kMaxLevel - 1
    · rw [describes_last hlevel h, TableJob.Ranged]
      exact and_congr_right fun _ => ⟨fun hends _ => hends, fun hends => hends hlevel⟩
    · rw [describes_inner hlevel h, TableJob.Ranged]
      exact (and_iff_left fun hlast => absurd hlast hlevel).symm

theorem describes_inner_put :
    ∃ file, (TableJob.compaction { overwrittenJob [] with inMem := [] }).run = .ok file ∧
      Describes file :=
  ⟨_, rfl, (describes_iff (.compaction { overwrittenJob [] with inMem := [] }) _ rfl).mpr
    ⟨⟨_, [], [], rfl, rfl⟩, fun hlast => absurd hlast (by decide)⟩⟩

/-- A compaction that drops all entries makes an empty file without a range, and one into the last
level makes a file whose range is not that of the rewritten key. -/
theorem range_not_described :
    (∃ file, (TableJob.compaction (overwrittenJob [3])).run = .ok file ∧ file.entries = [] ∧
      file.smallestKey = none ∧
      ¬ Describes file) ∧
    ∃ file, (TableJob.compaction (lastLevelJob .value)).run = .ok file ∧
      file.entries.map Entry.key = [makeKey [107] 0 .value] ∧
        file.smallestKey = some (makeKey [107] 5 .value) ∧
      ¬ Describes file := by
  refine ⟨⟨_, rfl, rfl, rfl, fun h => h.nonempty rfl⟩, _, rfl, rfl, rfl, fun h => ?_⟩
  obtain ⟨k, hk, ⟨e, he, hcmp⟩, -⟩ := h.smallest
  obtain rfl := Option.some.inj hk
  obtain rfl := mem_singleton.mp he
  exact absurd hcmp (by decide)

end Mai.DbFileRanges
