import Mai.RunInvariant

/-! Writes whose log cannot be flushed or synced (`DBImpl::WriteImpl`), and the replay of the logs
by a later recovery (`DBImpl::Redo`). The record of a failed batch stays in the log while the last
sequence number stands still. -/
namespace Mai.DbWriteFaults
open RunInvariant List

variable {U : Type*}

/-- A record of a log; `batch` says which call of `WriteImpl` appended it. -/
structure Record (U : Type*) where
  batch : ℕ
  sequenceNumber : ℕ
  updates : List U
  deriving DecidableEq, Repr

def Record.stop (r : Record U) : ℕ := r.sequenceNumber + r.updates.length

def Record.Clash (r r' : Record U) : Prop :=
  ∃ n, (r.sequenceNumber ≤ n ∧ n < r.stop) ∧ r'.sequenceNumber ≤ n ∧ n < r'.stop

structure Applied (U : Type*) where
  batch : ℕ
  sequenceNumber : ℕ
  update : U
  deriving DecidableEq, Repr

def Record.entries (r : Record U) : List (Applied U) :=
  (r.updates.zipIdx r.sequenceNumber).map fun x => ⟨r.batch, x.2, x.1⟩

structure Database (U : Type*) where
  lastSequenceNumber : ℕ
  /-- The last sequence number that the manifest holds. -/
  manifestSequenceNumber : ℕ
  /-- The logs that a recovery replays, by number, before the current one. -/
  logs : List (List (Record U))
  current : List (Record U)
  /-- What memory tables and table files hold. -/
  entries : List (Applied U)
  /-- The number of calls of `WriteImpl` so far. -/
  calls : ℕ
  acknowledged : List (Record U)
  /-- The batches that failed after their record was appended. -/
  failed : List (Record U)
  deriving DecidableEq, Repr

inductive Outcome
  | appendFails
  | flushFails
  | syncFails
  | ok
  deriving DecidableEq, Repr

inductive Action (U : Type*)
  /-- The last sequence number was read before room was made. -/
  | write (lastVersion : ℕ) (sync : Bool) (batch : List U) (outcome : Outcome)
  /-- `RenewLogger` and the patch with the new log. -/
  | renewLogger
  /-- Any other patch: after it a log before the current one need not be replayed (none, if `i` is
  not the position of one). -/
  | logAndApply (i : ℕ)
  /-- A new process: `kept` are the entries in table files, and the filter of the handler takes
  updates by the log that they are in. -/
  | recovery (kept : Applied U → Bool) (takes : ℕ → U → Bool)

namespace Database

def new (lastSequenceNumber : ℕ) : Database U :=
  ⟨lastSequenceNumber, lastSequenceNumber, [], [], [], 0, [], []⟩

def records (s : Database U) : List (Record U) := s.logs.flatten ++ s.current

def writeImpl (s : Database U) (lastVersion : ℕ) (sync : Bool) (batch : List U)
    (outcome : Outcome) : Option (Database U) :=
  let record : Record U := ⟨s.calls, lastVersion + 1, batch⟩
  match outcome with
  | .appendFails => some { s with calls := s.calls + 1 }
  | .flushFails | .syncFails =>
    if sync then
      some { s with
        calls := s.calls + 1
        current := s.current ++ [record]
        failed := s.failed ++ [record] }
    else none
  | .ok => some { s with
      calls := s.calls + 1
      current := s.current ++ [record]
      entries := s.entries ++ record.entries
      lastSequenceNumber := s.lastSequenceNumber + batch.length
      acknowledged := s.acknowledged ++ [record] }

def redo (logs : List (List (Record U))) (takes : ℕ → U → Bool) : List (Applied U) :=
  logs.zipIdx.flatMap fun log =>
    (log.1.flatMap Record.entries).filter fun e => takes log.2 e.update

def update (s : Database U) : ℕ := (s.records.getLast?.map Record.stop).getD 0

def recovery (s : Database U) (kept : Applied U → Bool) (takes : ℕ → U → Bool) : Database U :=
  { s with
    lastSequenceNumber := max s.update s.manifestSequenceNumber
    entries := s.entries.filter kept ++ redo (s.logs ++ [s.current]) takes }

end Database

def step (s : Database U) : Action U → Option (Database U)
  | .write lastVersion sync batch outcome =>
    if lastVersion ≤ s.lastSequenceNumber then s.writeImpl lastVersion sync batch outcome else none
  | .renewLogger => some { s with
      manifestSequenceNumber := s.lastSequenceNumber, logs := s.logs ++ [s.current], current := [] }
  | .logAndApply i => some { s with
      manifestSequenceNumber := s.lastSequenceNumber, logs := s.logs.eraseIdx i }
  | .recovery kept takes => some (s.recovery kept takes)

/-- No update of a failed batch is ever found, and no record of one that a recovery would replay has
a sequence number of an acknowledged batch. -/
structure Atomic (s : Database U) : Prop where
  hidden : ∀ e ∈ s.entries, ∀ r ∈ s.failed, e.batch ≠ r.batch
  apart : ∀ r ∈ s.records, r ∈ s.failed → ∀ a ∈ s.acknowledged, ¬ r.Clash a

/-- No other batch was applied since the write read the last sequence number. -/
def ReadsLast (s : Database U) : Action U → Prop
  | .write lastVersion _ _ _ => lastVersion = s.lastSequenceNumber
  | _ => True

/-- A batch with updates is acknowledged only when the last sequence number has passed every failed
batch in the logs, and a recovery takes no update of a failed batch from them. -/
def Safe (s : Database U) : Action U → Prop
  | .write _ _ batch .ok =>
    batch = [] ∨ ∀ r ∈ s.failed, r ∈ s.records → r.stop ≤ s.lastSequenceNumber + 1
  | .recovery _ takes => ∀ log ∈ (s.logs ++ [s.current]).zipIdx, ∀ r ∈ log.1, r ∈ s.failed →
      ∀ u ∈ r.updates, takes log.2 u = false
  | _ => True

section Invariant
variable {s t : Database U} {logs : List (List (Record U))} {batch : List U} {r : Record U}
  {e : Applied U}

def Known (s : Database U) (r : Record U) : Prop :=
  r ∈ s.records ∨ r ∈ s.acknowledged ∨ r ∈ s.failed

structure Inv (s : Database U) : Prop where
  fresh : ∀ r, Known s r → r.batch < s.calls
  unique : ∀ r r', Known s r → Known s r' → r.batch = r'.batch → r = r'
  read : ∀ e ∈ s.entries, e.batch < s.calls
  acknowledged_le : ∀ a ∈ s.acknowledged, a.stop ≤ s.lastSequenceNumber + 1
  failed_le : ∀ r ∈ s.failed, r.sequenceNumber ≤ s.lastSequenceNumber + 1
  /-- A recovery does not fall behind. -/
  bound : s.lastSequenceNumber ≤ max s.update s.manifestSequenceNumber

lemma inv_new (n : ℕ) : Inv (Database.new n : Database U) := by
  refine ⟨?_, ?_, ?_, ?_, ?_, ?_⟩ <;> simp [Database.new, Database.records, Known]

lemma atomic_new (n : ℕ) : Atomic (Database.new n : Database U) := by
  constructor <;> simp [Database.new]

lemma not_clash_of_stop_le {r a : Record U} (h : a.stop ≤ r.sequenceNumber) : ¬ r.Clash a := by
  rintro ⟨n, ⟨h₁, h₂⟩, h₃, h₄⟩
  omega

/-- A record that starts no later shares a number exactly when both have updates and it ends
later. -/
lemma clash_iff {r a : Record U} (h : r.sequenceNumber ≤ a.sequenceNumber) :
    r.Clash a ↔ a.updates ≠ [] ∧ a.sequenceNumber < r.stop := by
  rw [← length_pos_iff]
  constructor
  · rintro ⟨n, ⟨h₁, h₂⟩, h₃, h₄⟩
    rw [Record.stop] at h₄
    omega
  · rintro ⟨hne, hlt⟩
    refine ⟨a.sequenceNumber, ⟨h, hlt⟩, le_rfl, ?_⟩
    rw [Record.stop]
    omega

def Database.record (s : Database U) (batch : List U) : Record U :=
  ⟨s.calls, s.lastSequenceNumber + 1, batch⟩

lemma record_stop (s : Database U) (batch : List U) :
    (s.record batch).stop = s.lastSequenceNumber + batch.length + 1 := by
  simp only [Record.stop, Database.record]
  omega

lemma mem_entries (h : e ∈ r.entries) : e.batch = r.batch := by
  obtain ⟨x, -, rfl⟩ := List.mem_map.mp h
  rfl

lemma known_append {x : Record U} (hrecords : t.records = s.records ++ [x])
    (hack : ∀ r ∈ t.acknowledged, r ∈ s.acknowledged ∨ r = x)
    (hfailed : ∀ r ∈ t.failed, r ∈ s.failed ∨ r = x) (r : Record U) (hr : Known t r) :
    Known s r ∨ r = x := by
  rcases hr with hr | hr | hr
  · rw [hrecords, mem_append, mem_singleton] at hr
    exact hr.imp_left Or.inl
  · exact (hack r hr).imp_left fun hr => Or.inr (Or.inl hr)
  · exact (hfailed r hr).imp_left fun hr => Or.inr (Or.inr hr)

lemma unique_append (h : Inv s)
    (hknown : ∀ r, Known t r → Known s r ∨ r = s.record batch) (r r' : Record U)
    (hr : Known t r) (hr' : Known t r') (heq : r.batch = r'.batch) : r = r' := by
  rcases hknown r hr with hr | rfl <;> rcases hknown r' hr' with hr' | rfl
  · exact h.unique r r' hr hr' heq
  · exact absurd heq (h.fresh r hr).ne
  · exact absurd heq (h.fresh r' hr').ne'
  · rfl

lemma fresh_append (h : Inv s) (hcalls : t.calls = s.calls + 1)
    (hknown : ∀ r, Known t r → Known s r ∨ r = s.record batch) (r : Record U) (hr : Known t r) :
    r.batch < t.calls := by
  rw [hcalls]
  rcases hknown r hr with hr | rfl
  · exact (h.fresh r hr).trans (Nat.lt_succ_self _)
  · exact Nat.lt_succ_self _

lemma mem_redo {takes : ℕ → U → Bool} :
    e ∈ Database.redo logs takes ↔
      ∃ log ∈ logs.zipIdx, ∃ r ∈ log.1, e ∈ r.entries ∧ takes log.2 e.update := by
  simp only [Database.redo, mem_flatMap, mem_filter]
  constructor
  · rintro ⟨log, hlog, ⟨r, hr, he⟩, htakes⟩
    exact ⟨log, hlog, r, hr, he, htakes⟩
  · rintro ⟨log, hlog, r, hr, he, htakes⟩
    exact ⟨log, hlog, ⟨r, hr, he⟩, htakes⟩

lemma mem_records_of_mem_zipIdx {log : List (Record U) × ℕ}
    (hlog : log ∈ (s.logs ++ [s.current]).zipIdx) (hr : r ∈ log.1) : r ∈ s.records := by
  have hmem := mem_flatten_of_mem (fst_mem_of_mem_zipIdx hlog) hr
  simpa [Database.records] using hmem

lemma exists_entry {u : U} (hu : u ∈ r.updates) :
    ∃ e ∈ r.entries, e.update = u := by
  obtain ⟨i, hi, rfl⟩ := getElem_of_mem hu
  refine ⟨⟨r.batch, r.sequenceNumber + i, r.updates[i]⟩, List.mem_map.mpr ?_, rfl⟩
  exact ⟨(r.updates[i], r.sequenceNumber + i),
    mem_zipIdx_iff_le_and_getElem?_sub.mpr (by simp), rfl⟩

lemma entry_update_mem (he : e ∈ r.entries) :
    e.update ∈ r.updates := by
  obtain ⟨x, hx, rfl⟩ := List.mem_map.mp he
  exact fst_mem_of_mem_zipIdx hx

/-- What a write leaves in the invariant when its record is appended and counted as acknowledged or
as failed. -/
lemma inv_append (h : Inv s) (batch : List U) (hcalls : t.calls = s.calls + 1)
    (hrecords : t.records = s.records ++ [s.record batch])
    (hack : ∀ r ∈ t.acknowledged, r ∈ s.acknowledged ∨ r = s.record batch)
    (hfailed : ∀ r ∈ t.failed, r ∈ s.failed ∨ r = s.record batch)
    (hread : ∀ e ∈ t.entries, e ∈ s.entries ∨ e ∈ (s.record batch).entries)
    (hlast : s.lastSequenceNumber ≤ t.lastSequenceNumber)
    (hcounted : ∀ r ∈ t.acknowledged, r = s.record batch → r.stop ≤ t.lastSequenceNumber + 1)
    (hupper : t.lastSequenceNumber ≤ (s.record batch).stop) : Inv t where
  fresh := fresh_append h hcalls (known_append hrecords hack hfailed)
  unique := unique_append h (known_append hrecords hack hfailed)
  read e he := by
    rw [hcalls]
    rcases hread e he with he | he
    · exact (h.read e he).trans (Nat.lt_succ_self _)
    · rw [mem_entries he]
      exact Nat.lt_succ_self _
  acknowledged_le a ha := by
    rcases hack a ha with ha' | ha'
    · exact (h.acknowledged_le a ha').trans (Nat.succ_le_succ hlast)
    · exact hcounted a ha ha'
  failed_le r hr := by
    rcases hfailed r hr with hr | rfl
    · exact (h.failed_le r hr).trans (Nat.succ_le_succ hlast)
    · exact Nat.succ_le_succ hlast
  bound := by
    have hupdate : t.update = (s.record batch).stop := by simp [Database.update, hrecords]
    rw [hupdate]
    exact le_max_of_le_left hupper

lemma inv_patch (h : Inv s) {current : List (Record U)}
    (hsub : List.Sublist (logs.flatten ++ current) s.records) :
    Inv { s with
      manifestSequenceNumber := s.lastSequenceNumber, logs := logs, current := current } where
  fresh r hr := h.fresh r (hr.imp_left fun hr => hsub.subset hr)
  unique r r' hr hr' := h.unique r r' (hr.imp_left fun hr => hsub.subset hr)
    (hr'.imp_left fun hr => hsub.subset hr)
  read := h.read
  acknowledged_le := h.acknowledged_le
  failed_le := h.failed_le
  bound := le_max_right _ _

lemma inv_recovery (h : Inv s) (kept : Applied U → Bool) (takes : ℕ → U → Bool) :
    Inv (s.recovery kept takes) where
  fresh := h.fresh
  unique := h.unique
  read e he := by
    rcases mem_append.mp he with he | he
    · exact h.read e (mem_of_mem_filter he)
    · obtain ⟨log, hlog, r, hr, he, -⟩ := mem_redo.mp he
      rw [mem_entries he]
      exact h.fresh r (Or.inl (mem_records_of_mem_zipIdx hlog hr))
  acknowledged_le a ha := (h.acknowledged_le a ha).trans (Nat.succ_le_succ h.bound)
  failed_le r hr := (h.failed_le r hr).trans (Nat.succ_le_succ h.bound)
  bound := le_rfl

lemma inv_step {a : Action U} (hread : ReadsLast s a) (h : Inv s) (hstep : step s a = some t) :
    Inv t := by
  cases a with
  | write lastVersion sync batch outcome =>
    obtain rfl : lastVersion = s.lastSequenceNumber := hread
    simp only [step, le_refl, if_true] at hstep
    have hstop := record_stop s batch
    cases outcome with
    | appendFails =>
      obtain rfl := Option.some.inj hstep
      exact ⟨fun r hr => (h.fresh r hr).trans (Nat.lt_succ_self _), h.unique,
        fun e he => (h.read e he).trans (Nat.lt_succ_self _), h.acknowledged_le, h.failed_le,
        h.bound⟩
    | ok =>
      obtain rfl := Option.some.inj hstep
      refine inv_append h batch rfl (by simp [Database.records, Database.record])
        (fun r hr => by simpa [Database.record] using hr) (fun r hr => Or.inl hr)
        (fun e he => mem_append.mp he)
        (Nat.le_add_right _ _) (fun r _ hr => ?_) ?_
      · rw [hr, hstop]
      · rw [hstop]
        exact Nat.le_succ _
    | flushFails | syncFails =>
      obtain ⟨-, ⟨⟩⟩ := Option.ite_none_right_eq_some.mp hstep
      refine inv_append h batch rfl (by simp [Database.records, Database.record])
        (fun r hr => Or.inl hr) (fun r hr => by simpa [Database.record] using hr)
        (fun e he => Or.inl he)
        le_rfl (fun r hr _ => h.acknowledged_le r hr) ?_
      rw [hstop]
      exact Nat.le_succ_of_le (Nat.le_add_right _ _)
  | renewLogger =>
    obtain rfl := Option.some.inj hstep
    exact inv_patch h (by simp [Database.records])
  | logAndApply i =>
    obtain rfl := Option.some.inj hstep
    exact inv_patch h ((eraseIdx_sublist _ i).flatten.append_right _)
  | recovery kept takes =>
    obtain rfl := Option.some.inj hstep
    exact inv_recovery h kept takes

lemma atomic_patch (h : Atomic s) {current : List (Record U)}
    (hsub : List.Sublist (logs.flatten ++ current) s.records) :
    Atomic { s with
      manifestSequenceNumber := s.lastSequenceNumber, logs := logs, current := current } :=
  ⟨h.hidden, fun r hr => h.apart r (hsub.subset hr)⟩

lemma atomic_failed (h : Inv s) (hs : Atomic s) :
    Atomic { s with
      calls := s.calls + 1
      current := s.current ++ [s.record batch]
      failed := s.failed ++ [s.record batch] } := by
  constructor
  · intro e he r hr
    rcases mem_append.mp hr with hr | hr
    · exact hs.hidden e he r hr
    · rw [mem_singleton.mp hr]
      exact (h.read e he).ne
  · intro r hr hf a ha
    rw [Database.records, ← append_assoc] at hr
    rcases mem_append.mp hf with hf' | hf'
    · rcases mem_append.mp hr with hr | hr
      · exact hs.apart r hr hf' a ha
      · rw [mem_singleton.mp hr]
        exact not_clash_of_stop_le (h.acknowledged_le a ha)
    · rw [mem_singleton.mp hf']
      exact not_clash_of_stop_le (h.acknowledged_le a ha)

lemma atomic_ok (h : Inv s) (hs : Atomic s) :
    Atomic { s with
      calls := s.calls + 1
      current := s.current ++ [s.record batch]
      entries := s.entries ++ (s.record batch).entries
      lastSequenceNumber := s.lastSequenceNumber + batch.length
      acknowledged := s.acknowledged ++ [s.record batch] } ↔
    batch = [] ∨ ∀ r ∈ s.failed, r ∈ s.records → r.stop ≤ s.lastSequenceNumber + 1 := by
  -- The new batch is the only one that a failed record in the logs can meet.
  have hclash : ∀ r ∈ s.failed, ¬ r.Clash (s.record batch) ↔
      batch = [] ∨ r.stop ≤ s.lastSequenceNumber + 1 := fun r hr => by
    rw [clash_iff (h.failed_le r hr), not_and_or, not_not, not_lt]
    rfl
  have hold : ∀ r ∈ s.failed, r ≠ s.record batch := fun r hr heq =>
    (h.fresh r (Or.inr (Or.inr hr))).ne (congrArg Record.batch heq)
  constructor
  · intro ht
    rw [or_iff_not_imp_left]
    intro hne r hf hr
    have hmem : r ∈ s.logs.flatten ++ (s.current ++ [s.record batch]) := by
      rw [← append_assoc]
      exact mem_append_left _ hr
    have hapart := ht.apart r hmem hf _ (mem_append_right _ (mem_singleton_self _))
    exact ((hclash r hf).mp hapart).resolve_left hne
  · intro hpassed
    constructor
    · intro e he r hf
      rcases mem_append.mp he with he | he
      · exact hs.hidden e he r hf
      · rw [mem_entries he]
        exact (h.fresh r (Or.inr (Or.inr hf))).ne'
    · intro r hr hf a ha
      rw [Database.records, ← append_assoc] at hr
      have hr := (mem_append.mp hr).resolve_right fun hr => hold r hf (mem_singleton.mp hr)
      rcases mem_append.mp ha with ha | ha
      · exact hs.apart r hr hf a ha
      · rw [mem_singleton.mp ha]
        exact (hclash r hf).mpr (hpassed.imp_right fun hp => hp r hf hr)

lemma atomic_recovery (h : Inv s) (hs : Atomic s) {kept : Applied U → Bool}
    {takes : ℕ → U → Bool} : Atomic (s.recovery kept takes) ↔ Safe s (.recovery kept takes) := by
  constructor
  · intro ht log hlog r hr hf u hu
    obtain ⟨e, he, rfl⟩ := exists_entry hu
    rw [Bool.eq_false_iff]
    intro htakes
    have hentry := mem_append_right (s.entries.filter kept)
      (mem_redo.mpr ⟨log, hlog, r, hr, he, htakes⟩)
    exact ht.hidden e hentry r hf (mem_entries he)
  · intro hsafe
    refine ⟨fun e he r hf heq => ?_, hs.apart⟩
    rcases mem_append.mp he with he | he
    · exact hs.hidden e (mem_of_mem_filter he) r hf heq
    · obtain ⟨log, hlog, r', hr', he, htakes⟩ := mem_redo.mp he
      have hknown : Known s r' := Or.inl (mem_records_of_mem_zipIdx hlog hr')
      obtain rfl := h.unique r r' (Or.inr (Or.inr hf)) hknown (heq.symm.trans (mem_entries he))
      simp [hsafe log hlog r hr' hf e.update (entry_update_mem he)] at htakes

lemma atomic_step {a : Action U} (hread : ReadsLast s a) (h : Inv s) (hs : Atomic s)
    (hstep : step s a = some t) : Atomic t ↔ Safe s a := by
  cases a with
  | write lastVersion sync batch outcome =>
    obtain rfl : lastVersion = s.lastSequenceNumber := hread
    simp only [step, le_refl, if_true] at hstep
    cases outcome with
    | appendFails =>
      obtain rfl := Option.some.inj hstep
      exact iff_of_true ⟨hs.hidden, hs.apart⟩ trivial
    | ok =>
      obtain rfl := Option.some.inj hstep
      exact atomic_ok h hs
    | flushFails | syncFails =>
      obtain ⟨-, ⟨⟩⟩ := Option.ite_none_right_eq_some.mp hstep
      exact iff_of_true (atomic_failed h hs) trivial
  | renewLogger =>
    obtain rfl := Option.some.inj hstep
    exact iff_of_true (atomic_patch hs (by simp [Database.records])) trivial
  | logAndApply i =>
    obtain rfl := Option.some.inj hstep
    exact iff_of_true (atomic_patch hs ((eraseIdx_sublist _ i).flatten.append_right _)) trivial
  | recovery kept takes =>
    obtain rfl := Option.some.inj hstep
    exact atomic_recovery h hs

end Invariant

instance (s : Database U) (a : Action U) : Decidable (ReadsLast s a) :=
  match a with
  | .write lastVersion _ _ _ => inferInstanceAs (Decidable (lastVersion = s.lastSequenceNumber))
  | .renewLogger => isTrue trivial
  | .logAndApply _ => isTrue trivial
  | .recovery _ _ => isTrue trivial

instance [DecidableEq U] (s : Database U) (a : Action U) : Decidable (Safe s a) :=
  match a with
  | .write _ _ batch .ok => inferInstanceAs (Decidable
      (batch = [] ∨ ∀ r ∈ s.failed, r ∈ s.records → r.stop ≤ s.lastSequenceNumber + 1))
  | .write _ _ _ .appendFails => isTrue trivial
  | .write _ _ _ .flushFails => isTrue trivial
  | .write _ _ _ .syncFails => isTrue trivial
  | .renewLogger => isTrue trivial
  | .logAndApply _ => isTrue trivial
  | .recovery _ takes => inferInstanceAs (Decidable
      (∀ log ∈ (s.logs ++ [s.current]).zipIdx, ∀ r ∈ log.1, r ∈ s.failed →
        ∀ u ∈ r.updates, takes log.2 u = false))

/-- In a run whose writes all go to the log with the last sequence number as it is, failed batches
stay invisible and share no number with an acknowledged one exactly when no batch is acknowledged
beside a failed one in the logs and no recovery takes an update of one. -/
theorem atomic_always (n : ℕ) (actions : List (Action U))
    (hread : EachStep step ReadsLast (Database.new n) actions) :
    Always step Atomic (Database.new n) actions ↔ EachStep step Safe (Database.new n) actions :=
  always_iff_eachStep (fun _ _ _ hread h hstep => inv_step hread h hstep)
    (fun _ _ _ hread h hs hstep => atomic_step hread h hs hstep) hread (inv_new n) (atomic_new n)

/-- The log with the failed batch is obsolete before the next batch and the recovery. -/
theorem atomic_obsolete :
    let actions : List (Action ℕ) := [.write 0 true [7] .ok, .write 1 true [8] .syncFails,
      .renewLogger, .logAndApply 0, .write 1 true [9] .ok,
      .recovery (fun e => e.update = 7) fun _ _ => true]
    Always step Atomic (Database.new 0) actions ∧
      (run step (Database.new 0) actions).map Database.entries = some [⟨0, 1, 7⟩, ⟨2, 2, 9⟩] := by
  intro actions
  have hread : EachStep step ReadsLast (Database.new 0) actions :=
    eachStep_of_checkEach (by decide +kernel)
  exact ⟨(atomic_always 0 actions hread).mpr (eachStep_of_checkEach (by decide +kernel)),
    by decide +kernel⟩

/-- The next batch takes the number of the failed one, and a recovery finds both. -/
theorem failed_number_reused :
    ∃ s : Database ℕ, run step (Database.new 0) [.write 0 true [7] .flushFails,
        .write 0 true [8] .ok, .recovery (fun _ => false) fun _ _ => true] = some s ∧
      s.entries = [⟨0, 1, 7⟩, ⟨1, 1, 8⟩] ∧ ¬ Atomic s := by
  refine ⟨_, rfl, by decide +kernel, fun h => ?_⟩
  refine h.apart ⟨0, 1, [7]⟩ (by decide +kernel) (by decide +kernel) ⟨1, 1, [8]⟩
    (by decide +kernel) ⟨1, ?_⟩
  decide +kernel

end Mai.DbWriteFaults
