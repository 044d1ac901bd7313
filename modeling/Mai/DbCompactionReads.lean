import Mai.DbCompaction

/-! What a compaction does to the reads of a family: which entries of the merged input survive, and
when replacing the inputs by the output changes no answer. -/
namespace Mai.DbCompactionReads
open VersionedEntries CoreKeys CoreMemoryTable DbVersion DbCompaction List Option

variable {K : Type*} [LinearOrder K] {job : Compaction K} {m : List (Entry K)} {e x : Entry K}
  {prev : Option (Entry K)}

lemma mem_kept : e ∈ kept job prev m ↔
    ∃ l₁ l₂, m = l₁ ++ e :: l₂ ∧ drops job (l₁.getLast?.or prev) e = false := by
  induction m generalizing prev with
  | nil => simp [kept]
  | cons a m ih =>
    have hcons : ∀ l₁ : List (Entry K), (a :: l₁).getLast?.or prev = l₁.getLast?.or (some a) := by
      intro l₁
      simp [getLast?_cons]
    have hrest : e ∈ kept job (some a) m ↔
        ∃ l₁ l₂, a :: m = (a :: l₁) ++ e :: l₂ ∧ drops job ((a :: l₁).getLast?.or prev) e =
        false := by
      simp only [ih, hcons, cons_append, List.cons.injEq, true_and]
    have hsplit : (∃ l₁ l₂, a :: m = l₁ ++ e :: l₂ ∧ drops job (l₁.getLast?.or prev) e = false) ↔
        (e = a ∧ drops job prev a = false) ∨
          ∃ l₁ l₂, a :: m = (a :: l₁) ++ e :: l₂ ∧ drops job ((a :: l₁).getLast?.or prev) e =
          false := by
      constructor
      · rintro ⟨l₁, l₂, hm, hd⟩
        cases l₁ with
        | nil =>
          obtain ⟨rfl, -⟩ := List.cons.inj hm
          exact Or.inl ⟨rfl, by simpa using hd⟩
        | cons b l₁ =>
          obtain ⟨rfl, -⟩ := List.cons.inj hm
          exact Or.inr ⟨l₁, l₂, hm, hd⟩
      · rintro (⟨rfl, hd⟩ | ⟨l₁, l₂, hm, hd⟩)
        · exact ⟨[], m, rfl, by simpa using hd⟩
        · exact ⟨a :: l₁, l₂, hm, hd⟩
    rw [hsplit, ← hrest, kept]
    cases hd : drops job prev a <;> simp

lemma kept_subset (h : e ∈ kept job prev m) : e ∈ m := by
  obtain ⟨l₁, l₂, rfl, -⟩ := mem_kept.mp h
  simp

lemma getLast?_same_key {l₁ l₂ : List (Entry K)} (ho : OrderedEntries (l₁ ++ x :: l₂)) (he : e ∈ l₁)
    (hk : e.userKey = x.userKey) : ∃ p, l₁.getLast? = some p ∧ p ∈ l₁ ∧ p.userKey = x.userKey ∧
      p.sequenceNumber ≤ e.sequenceNumber := by
  obtain ⟨l, p, rfl⟩ := eq_nil_or_concat' l₁ |>.resolve_left (ne_nil_of_mem he)
  refine ⟨p, by simp, by simp, ?_⟩
  have hpx : ¬ x.Before p := (pairwise_append.mp ho).2.2 p (by simp) x (by simp)
  have hep : e = p ∨ ¬ p.Before e := by
    rcases mem_append.mp he with he | he
    · exact Or.inr ((pairwise_append.mp (pairwise_append.mp ho).1).2.2 e he p (by simp))
    · exact Or.inl (by simpa using he)
  rcases hep with rfl | hep
  · exact ⟨hk, le_rfl⟩
  · rcases Entry.not_before_iff.mp hep with h | ⟨h, hs⟩
    · rcases Entry.not_before_iff.mp hpx with g | ⟨g, -⟩
      · exact absurd (h.trans g) (by simp [hk])
      · exact absurd h (by simp [hk, g])
    · exact ⟨h.symm.trans hk, hs⟩

/-- The drop rules that do not look at newer input versions of the key: the key is in a memory
table, the smallest snapshot is the greatest number of all, or a deletion's key may exist in a
deeper level. -/
def Removable (job : Compaction K) (e : Entry K) : Prop :=
  job.isBaseMemoryForKey e.userKey = true ∨ kMaxSequenceNumber ≤ job.smallestSnapshot ∨
    e.flag = .deletion ∧ e.sequenceNumber ≤ job.smallestSnapshot ∧ mayExists job e.key = true

def Shadowed (job : Compaction K) (m : List (Entry K)) (e : Entry K) : Prop :=
  ∃ p ∈ m, p.userKey = e.userKey ∧ e.sequenceNumber < p.sequenceNumber ∧
    p.sequenceNumber ≤ job.smallestSnapshot

lemma drops_eq_false : drops job prev e = false ↔
    job.isBaseMemoryForKey e.userKey = false ∧ job.smallestSnapshot < lastSequence prev e ∧
      ¬ (e.flag = .deletion ∧ e.sequenceNumber ≤ job.smallestSnapshot ∧ mayExists job e.key =
        true) := by
  simp only [drops, Bool.or_eq_false_iff, decide_eq_false_iff_not, not_le, Bool.and_eq_false_imp,
    Bool.and_eq_true, decide_eq_true_eq, and_assoc, not_and, Bool.not_eq_true, and_imp]

section Sorted
variable (ho : OrderedEntries m) (hd : entryStamp.Distinct (· ∈ m))
  (hmax : ∀ a ∈ m, a.sequenceNumber ≤ kMaxSequenceNumber)
include ho hd hmax

lemma not_removable_of_kept (hx : x ∈ kept job none m) (he : e ∈ m) (hk : e.userKey = x.userKey)
    (hs : x.sequenceNumber ≤ e.sequenceNumber) : ¬ Removable job e := by
  obtain ⟨l₁, l₂, rfl, hdrop⟩ := mem_kept.mp hx
  rw [or_none, drops_eq_false] at hdrop
  obtain ⟨hmem, hlast, htomb⟩ := hdrop
  rcases hs.lt_or_eq with hs | hs
  · have hel : e ∈ l₁ := by
      rcases mem_append.mp he with he | he
      · exact he
      · rcases mem_cons.mp he with rfl | he
        · exact absurd hs (lt_irrefl _)
        · have hxe := (pairwise_cons.mp (pairwise_append.mp ho).2.1).1 e he
          rcases Entry.not_before_iff.mp hxe with h | ⟨-, h⟩
          · exact absurd h (by simp [hk])
          · omega
    obtain ⟨p, hp, hpl, hpk, hps⟩ := getLast?_same_key ho hel hk
    have hpmax := hmax p (by simp [hpl])
    simp only [hp, lastSequence, hpk, if_true] at hlast
    rintro (h | h | ⟨-, h, -⟩)
    · rw [hk, hmem] at h
      exact absurd h (by simp)
    · omega
    · omega
  · obtain rfl : x = e := hd x e (by simp) he hk.symm hs
    have hle : lastSequence l₁.getLast? x ≤ kMaxSequenceNumber := by
      unfold lastSequence
      split
      · next p hp =>
        split_ifs
        · exact hmax p (by simp [mem_of_getLast? hp])
        · exact le_rfl
      · exact le_rfl
    rintro (h | h | h)
    · simp [hmem] at h
    · omega
    · exact htomb h

lemma kept_or_shadowed (he : e ∈ m) (hr : ¬ Removable job e) :
    e ∈ kept job none m ∨ Shadowed job m e := by
  obtain ⟨l₁, l₂, rfl, hfirst⟩ := eq_append_cons_of_mem he
  by_cases hdrop : drops job l₁.getLast? e = false
  · exact Or.inl (mem_kept.mpr ⟨l₁, l₂, rfl, by simpa using hdrop⟩)
  · simp only [Removable, not_or, not_le, Bool.not_eq_true] at hr
    have hlast : lastSequence l₁.getLast? e ≤ job.smallestSnapshot := by
      by_contra hlast
      exact hdrop (drops_eq_false.mpr ⟨hr.1, not_le.mp hlast, hr.2.2⟩)
    unfold lastSequence at hlast
    split at hlast
    · next p hp =>
      have hpl := mem_of_getLast? hp
      split_ifs at hlast with hpk
      · refine Or.inr ⟨p, by simp [hpl], hpk, ?_, hlast⟩
        have hpe := (pairwise_append.mp ho).2.2 p hpl e (by simp)
        rcases Entry.not_before_iff.mp hpe with h | ⟨-, h⟩
        · exact absurd h (by simp [hpk])
        · refine lt_of_le_of_ne h fun heq => hfirst ?_
          rwa [hd e p (by simp) (by simp [hpl]) hpk.symm heq]
      · omega
    · omega

end Sorted

def Readable (snapshots : List ℕ) (last s : ℕ) : Prop :=
  s = last ∨ ∃ oldest, snapshots.head? = some oldest ∧ oldest ≤ s

lemma Readable.ge {snapshots : List ℕ} {last s : ℕ} (h : Readable snapshots last s)
    (hlast : ∀ o ∈ snapshots, o ≤ last) : smallestSnapshot snapshots last ≤ s := by
  unfold smallestSnapshot
  cases hs : snapshots.head? with
  | none =>
    rcases h with rfl | ⟨o, ho, -⟩
    · exact le_rfl
    · simp [hs] at ho
  | some o =>
    rcases h with rfl | ⟨o', ho', hle⟩
    · exact hlast o (mem_of_head? hs)
    · rw [hs, Option.some.injEq] at ho'
      exact ho' ▸ hle

section Reads
variable {rest : List (Entry K)} {k : K} {s : ℕ}

def otherEntries (job : Compaction K) (others : List (Entry K)) : List (Entry K) :=
  job.inMem.flatMap MemoryTable.entries ++ others

def survivors (job : Compaction K) : List (Entry K) :=
  kept job none (newMergingIterator job.originalInput)

variable (hsorted : ∀ c ∈ job.originalInput, OrderedEntries c)
  (hd : entryStamp.Distinct (· ∈ rest ++ job.originalInput.flatten))
  (hmax : ∀ a ∈ job.originalInput.flatten, a.sequenceNumber ≤ kMaxSequenceNumber)

omit [LinearOrder K] in
lemma Distinct.of_append_right {l m : List (Entry K)} (h : entryStamp.Distinct (· ∈ l ++ m)) :
    entryStamp.Distinct (· ∈ m) := fun a b ha hb =>
  h a b (mem_append_right _ ha) (mem_append_right _ hb)

lemma mem_merged : e ∈ newMergingIterator job.originalInput ↔ e ∈ job.originalInput.flatten :=
  (newMergingIterator_perm job.originalInput).mem_iff

lemma survivors_subset (h : e ∈ survivors job) : e ∈ job.originalInput.flatten :=
  mem_merged.mp (kept_subset h)

include hsorted hd hmax

lemma newest_removed (he : e ∈ job.originalInput.flatten) (hr : Removable job e)
    (h : entryStamp.newest (rest ++ job.originalInput.flatten) k s = some e) :
    entryStamp.newest (rest ++ survivors job) k s = entryStamp.newest rest k s := by
  refine Stamp.newest_append_invisible fun x hx hk => ?_
  by_contra hs
  have hxe := Stamp.newest_max h (mem_append_right _ (survivors_subset hx)) hk (not_lt.mp hs)
  have hek := (Stamp.newest_visible h).1
  refine not_removable_of_kept (newMergingIterator_ordered hsorted) (fun a b ha hb => ?_)
    (fun a ha => hmax a (mem_merged.mp ha)) hx (mem_merged.mpr he) (hek.trans hk.symm) hxe hr
  exact Distinct.of_append_right hd a b (mem_merged.mp ha) (mem_merged.mp hb)

lemma newest_survives (hs : job.smallestSnapshot ≤ s)
    (hr : ∀ e ∈ job.originalInput.flatten,
      entryStamp.newest (rest ++ job.originalInput.flatten) k s = some e → ¬ Removable job e) :
    entryStamp.newest (rest ++ survivors job) k s =
      entryStamp.newest (rest ++ job.originalInput.flatten) k s := by
  have hsub : ∀ a ∈ rest ++ survivors job, a ∈ rest ++ job.originalInput.flatten := by
    intro a ha
    rcases mem_append.mp ha with ha | ha
    · exact mem_append_left _ ha
    · exact mem_append_right _ (survivors_subset ha)
  cases h : entryStamp.newest (rest ++ job.originalInput.flatten) k s with
  | none =>
    rw [Stamp.newest_eq_none] at h ⊢
    exact fun a ha => h a (hsub a ha)
  | some e =>
    refine Stamp.newest_subset hd hsub h ?_
    rcases mem_append.mp (Stamp.newest_mem h) with he | he
    · exact mem_append_left _ he
    · refine mem_append_right _ ?_
      have hdm : entryStamp.Distinct (· ∈ newMergingIterator job.originalInput) := fun a b ha hb =>
        Distinct.of_append_right hd a b (mem_merged.mp ha) (mem_merged.mp hb)
      refine (kept_or_shadowed (newMergingIterator_ordered hsorted) hdm
        (fun a ha => hmax a (mem_merged.mp ha)) (mem_merged.mpr he) (hr e he h)).resolve_right ?_
      rintro ⟨p, hp, hpk, hlt, hle⟩
      have hmaxp := Stamp.newest_max h (mem_append_right _ (mem_merged.mp hp))
        (hpk.trans (Stamp.newest_visible h).1) (hle.trans hs)
      exact absurd hlt (not_lt.mpr hmaxp)

end Reads

/-- Key `k` is written at 2 and lies in a file, a snapshot is taken at 3, and `k` is written again
at 5 and is still in the mutable table. -/
def overwrittenJob (snapshots : List ℕ) : Compaction Bytes where
  targetLevel := 1
  smallestSnapshot := smallestSnapshot snapshots 5
  inputVersion := Version.empty
  inMem := [MemoryTable.empty.put [107] [5] 5 .value]
  originalInput := [[⟨makeKey [107] 2 .value, [2]⟩]]
  keyFilter := fun _ => .ok fun _ => true

lemma drops_lastLevel (hlevel : job.targetLevel = kMaxLevel - 1)
    (hmem : job.isBaseMemoryForKey e.userKey = false) :
    drops job prev e = decide (lastSequence prev e ≤ job.smallestSnapshot) := by
  have hexists : mayExists job e.key = false := by
    have h : job.isBaseLevelForKey (job.targetLevel + 1) e.key = .ok false :=
      isBaseLevelForKey_lastLevel (by omega) e.key
    simp [mayExists, h, Except.toOption]
  simp [drops, hmem, hexists]

lemma kept_lastLevel (hlevel : job.targetLevel = kMaxLevel - 1)
    (hlt : job.smallestSnapshot < kMaxSequenceNumber) (ho : OrderedEntries m)
    (hmem : ∀ a ∈ m, job.isBaseMemoryForKey a.userKey = false)
    (hseq : ∀ a ∈ m, a.sequenceNumber ≤ job.smallestSnapshot) (k : K) (prev : Option (Entry K))
    (hprev : ∀ p, prev = some p → p.sequenceNumber ≤ job.smallestSnapshot ∧ ∀ a ∈ m, ¬ a.Before p) :
    (kept job prev m).filter (fun e => e.userKey = k) =
      if prev.map Entry.userKey = some k then []
      else (m.filter fun e => e.userKey = k).head?.toList := by
  induction m generalizing prev with
  | nil => simp [kept]
  | cons a m ih =>
    obtain ⟨hhead, htail⟩ := pairwise_cons.mp ho
    have ih := ih htail (fun b hb => hmem b (by simp [hb])) (fun b hb => hseq b (by simp [hb]))
      (some a) fun p hp => by
        obtain rfl := Option.some.inj hp
        exact ⟨hseq a (by simp), hhead⟩
    have hdrop : drops job prev a = decide (prev.map Entry.userKey = some a.userKey) := by
      have hnot : ¬ kMaxSequenceNumber ≤ job.smallestSnapshot := not_le.mpr hlt
      rw [drops_lastLevel hlevel (hmem a (by simp))]
      cases prev with
      | none => simp [lastSequence, hnot]
      | some p =>
        by_cases hp : p.userKey = a.userKey
        · simp [lastSequence, hp, (hprev p rfl).1]
        · simp [lastSequence, hp, hnot]
    simp only [map_some, Option.some.injEq] at ih
    by_cases hk : a.userKey = k
    · rw [if_pos hk] at ih
      by_cases hp : prev.map Entry.userKey = some k
      · simp [kept, hdrop, hk, hp, ih]
      · simp [kept, hdrop, hk, hp, ih]
    · rw [if_neg hk] at ih
      have hskip : (kept job prev (a :: m)).filter (fun e => e.userKey = k) =
          (m.filter fun e => e.userKey = k).head?.toList := by
        rw [kept]
        split_ifs
        · exact ih
        · simpa [hk] using ih
      rw [hskip, filter_cons_of_neg (by simpa using hk)]
      split_ifs with hp
      · obtain ⟨p, rfl, hpk⟩ := map_eq_some_iff.mp hp
        have hnone : m.filter (fun e => e.userKey = k) = [] := by
          refine filter_eq_nil_iff.mpr fun b hb hbk => ?_
          have hbk : b.userKey = k := by simpa using hbk
          have hpa := Entry.not_before_iff.mp ((hprev p rfl).2 a (by simp))
          have hab := Entry.not_before_iff.mp (hhead b hb)
          rw [hbk] at hab
          rw [hpk] at hpa
          rcases hpa with hpa | ⟨hpa, -⟩
          · rcases hab with hab | ⟨hab, -⟩
            · exact lt_asymm hpa hab
            · exact hk hab
          · exact hk hpa.symm
        simp [hnone]
      · rfl

lemma head?_filter_newest (ho : OrderedEntries m) (hd : entryStamp.Distinct (· ∈ m)) (he : e ∈ m)
    (hnew : ∀ a ∈ m, a.userKey = e.userKey → a.sequenceNumber ≤ e.sequenceNumber) :
    (m.filter fun a => a.userKey = e.userKey).head? = some e := by
  have hmem : e ∈ m.filter fun a => a.userKey = e.userKey := by simp [he]
  obtain ⟨a, l, hl⟩ := exists_cons_of_ne_nil (ne_nil_of_mem hmem)
  have ha : a ∈ m.filter fun a => a.userKey = e.userKey := by simp [hl]
  obtain ⟨ham, hak⟩ := mem_filter.mp ha
  have hak : a.userKey = e.userKey := by simpa using hak
  have hof : OrderedEntries (a :: l) := hl ▸ List.Pairwise.filter _ ho
  rw [hl] at hmem ⊢
  rcases mem_cons.mp hmem with rfl | hmem
  · rfl
  · have hae := Entry.not_before_iff.mp ((pairwise_cons.mp hof).1 e hmem)
    rcases hae with h | ⟨-, h⟩
    · exact absurd hak h.ne
    · exact congrArg some (hd a e ham he hak (le_antisymm (hnew a ham hak) h))

lemma kept_eq_nil (hmax : kMaxSequenceNumber ≤ job.smallestSnapshot)
    (hseq : ∀ a ∈ m, a.sequenceNumber ≤ job.smallestSnapshot) (prev : Option (Entry K))
    (hprev : ∀ p, prev = some p → p.sequenceNumber ≤ job.smallestSnapshot) :
    kept job prev m = [] := by
  induction m generalizing prev with
  | nil => rfl
  | cons a m ih =>
    have hlast : lastSequence prev a ≤ job.smallestSnapshot := by
      unfold lastSequence
      split
      · next p =>
        split_ifs
        · exact hprev p rfl
        · exact hmax
      · exact hmax
    have hdrop : drops job prev a = true := by simp [drops, hlast]
    rw [kept, if_pos hdrop]
    refine ih (fun b hb => hseq b (by simp [hb])) (some a) fun p hp => ?_
    obtain rfl := Option.some.inj hp
    exact hseq a (by simp)

def NewestInput (inputs : List (Entry K)) (e : Entry K) : Prop :=
  e ∈ inputs ∧ ∀ a ∈ inputs, a.userKey = e.userKey → a.sequenceNumber ≤ e.sequenceNumber

def valuesOf (l : List (Entry K)) (k : K) : List Bytes :=
  (l.filter fun a => a.userKey = k).map Entry.value

lemma lastLevel_values (hlevel : job.targetLevel = kMaxLevel - 1)
    (hsorted : ∀ c ∈ job.originalInput, OrderedEntries c)
    (hd : entryStamp.Distinct (· ∈ job.originalInput.flatten))
    (hmem : ∀ a ∈ job.originalInput.flatten, job.isBaseMemoryForKey a.userKey = false)
    (hseq : ∀ a ∈ job.originalInput.flatten, a.sequenceNumber ≤ job.smallestSnapshot)
    (he : NewestInput job.originalInput.flatten e) :
    valuesOf ((survivors job).map job.builtEntry) e.userKey =
      if kMaxSequenceNumber ≤ job.smallestSnapshot then [] else [e.value] := by
  have ho := newMergingIterator_ordered hsorted
  have hseq' : ∀ a ∈ newMergingIterator job.originalInput,
      a.sequenceNumber ≤ job.smallestSnapshot :=
    fun a ha => hseq a (mem_merged.mp ha)
  split_ifs with hmax
  · rw [survivors, kept_eq_nil hmax hseq' none (by simp)]
    rfl
  · have hkey : ∀ a : Entry K, (job.builtEntry a).userKey = a.userKey ∧
        (job.builtEntry a).value = a.value := by
      intro a
      simp [Compaction.builtEntry, hlevel, makeKey, Entry.userKey]
    have hfilter : ((survivors job).map job.builtEntry).filter (fun a => a.userKey = e.userKey) =
        ((survivors job).filter fun a => a.userKey = e.userKey).map job.builtEntry := by
      rw [List.filter_map]
      simp only [Function.comp_def, hkey]
    have hhead := head?_filter_newest ho
      (fun a b ha hb => hd a b (mem_merged.mp ha) (mem_merged.mp hb))
      (mem_merged.mpr he.1) fun a ha => he.2 a (mem_merged.mp ha)
    have hkept := kept_lastLevel hlevel (not_le.mp hmax) ho (fun a ha => hmem a (mem_merged.mp ha))
      hseq'
      e.userKey none (by simp)
    rw [valuesOf, hfilter, survivors, hkept, hhead]
    simp [hkey]

/-- A compaction into the last level writes one entry for each key whose newest version is a put and
none for the others exactly when no newest version is a deletion; with the greatest sequence number
as smallest snapshot it writes nothing at all. -/
theorem run_lastLevel_iff (job : Compaction K) (last : ℕ) (hlevel : job.targetLevel = kMaxLevel - 1)
    (hsorted : ∀ c ∈ job.originalInput, OrderedEntries c)
    (hd : entryStamp.Distinct (· ∈ job.originalInput.flatten))
    (hmem : ∀ a ∈ job.originalInput.flatten, job.isBaseMemoryForKey a.userKey = false)
    (hsnap : job.smallestSnapshot = smallestSnapshot [] last)
    (hseq : ∀ a ∈ job.originalInput.flatten, a.sequenceNumber ≤ last) :
    ∃ out, job.run = .ok out ∧
      ((∀ e, NewestInput job.originalInput.flatten e →
        valuesOf out.entries e.userKey = if e.flag = .deletion then [] else [e.value]) ↔
      ∀ e, NewestInput job.originalInput.flatten e →
        (e.flag = .deletion ↔ kMaxSequenceNumber ≤ last)) := by
  have hsnap : job.smallestSnapshot = last := hsnap
  have hlooks : LooksUp job := fun key => ⟨false, isBaseLevelForKey_lastLevel (by omega) key⟩
  obtain ⟨out, hout, hentries, -⟩ := run_spec hlooks
  rw [← survivors] at hentries
  refine ⟨out, hout, forall₂_congr fun e he => ?_⟩
  rw [hentries, lastLevel_values hlevel hsorted hd hmem (hsnap ▸ hseq) he, hsnap]
  by_cases hmax : kMaxSequenceNumber ≤ last <;> by_cases hdel : e.flag =
    .deletion <;> simp [hmax, hdel]

def lastLevelJob (flag : Flag) : Compaction Bytes where
  targetLevel := 3
  smallestSnapshot := smallestSnapshot [] 5
  inputVersion := Version.empty
  inMem := [MemoryTable.empty]
  originalInput := [[⟨makeKey [107] 5 flag, []⟩]]
  keyFilter := fun _ => .ok fun _ => true

/-- On the last level a deletion is written as a value. -/
theorem run_lastLevel_revives : (lastLevelJob .deletion).run = .ok
    { entries := [⟨makeKey [107] 0 .value, []⟩], smallestKey := some (makeKey [107] 5 .deletion)
      largestKey := some (makeKey [107] 5 .deletion) } ∧
    NewestInput (lastLevelJob .deletion).originalInput.flatten ⟨makeKey [107] 5 .deletion, []⟩ :=
  ⟨rfl, by decide, by decide⟩

theorem run_lastLevel_put : ∃ out, (lastLevelJob .value).run = .ok out ∧
    ∀ e, NewestInput (lastLevelJob .value).originalInput.flatten e →
      valuesOf out.entries e.userKey = if e.flag = .deletion then [] else [e.value] := by
  have hd : ∀ a ∈ (lastLevelJob .value).originalInput.flatten,
      ∀ b ∈ (lastLevelJob .value).originalInput.flatten,
      a.userKey = b.userKey → a.sequenceNumber = b.sequenceNumber → a = b := by decide
  obtain ⟨out, hout, hiff⟩ := run_lastLevel_iff (lastLevelJob .value) 5 rfl (by decide)
    (fun a b ha hb => hd a ha b hb) (by decide) rfl (by decide)
  have hput : ∀ e ∈ (lastLevelJob .value).originalInput.flatten,
      (e.flag = .deletion ↔ kMaxSequenceNumber ≤ 5) := by decide
  exact ⟨out, hout, hiff.mpr fun e he => hput e he.1⟩

end Mai.DbCompactionReads
