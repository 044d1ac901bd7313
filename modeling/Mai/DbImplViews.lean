import Mai.DbFileNumbers
import Mai.DbLogAndApplyFaults
import Mai.DbRedoLogs
import Mai.DbScheduling
import Mai.DbWriteFaults

/-! Each model of the database (`db/db-impl.cc`, `db/version.cc`) keeps one part of it: the version
set, the writers and their faults, the background jobs, the file numbers. They have the model of
redo logs in common: a step of it is one of theirs on what they keep. -/
namespace Mai.DbImplViews
open CoreKeys DbColumnFamily DbRedoLogs Function List Option
open DbVersionSet hiding ColumnFamilySet
open DbLogAndApplyFaults hiding logAndApply

section Versions
variable {K U : Type*} [LinearOrder K] {cs ds : DbVersionSet.ColumnFamilySet K}
  {fs : ColumnFamilySet U}
  {patch : DbVersion.VersionPatch K}

/-- What the model of redo logs keeps of the family at a place: its id and its redo log number. -/
def numbers (cs : DbVersionSet.ColumnFamilySet K) (i : ℕ) : Option (ℕ × ℕ) :=
  cs.impls[i]?.map fun c => (c.id, c.redoLogNumber)

/-- Families are at the places of their ids, and those that are found are the ones present. -/
structure Agree (cs : DbVersionSet.ColumnFamilySet K) (fs : ColumnFamilySet U) : Prop where
  length : cs.impls.length = fs.count
  numbers : ∀ i < fs.count, numbers cs i = some (i, (fs.get i).redoLogNumber)
  found : ∀ i p, cs.getColumnFamily i = some p ↔ p = i ∧ fs.present i

lemma numbers_modify (p : ℕ) (f : ColumnFamilyImpl K → ColumnFamilyImpl K) (g : ℕ → ℕ)
    (hf : ∀ c, (f c).id = c.id ∧ (f c).redoLogNumber = g c.redoLogNumber) (i : ℕ) :
    numbers (cs.modify p f) i = (numbers cs i).map fun x =>
      (x.1, if p = i then g x.2 else x.2) := by
  simp only [numbers, DbVersionSet.ColumnFamilySet.modify, getElem?_modify, Option.map_eq_map,
    Option.map_map]
  refine congrArg (Option.map · _) (funext fun c => ?_)
  by_cases hp : p = i
  · simp [hp, hf c]
  · simp [hp]

lemma numbers_kept (p : ℕ) (f : ColumnFamilyImpl K → ColumnFamilyImpl K)
    (hf : ∀ c, (f c).id = c.id ∧ (f c).redoLogNumber = c.redoLogNumber) (i : ℕ) :
    numbers (cs.modify p f) i = numbers cs i := by
  rw [numbers_modify p f (fun n => n) hf]
  simp

lemma numbers_setRedoLog (h : Agree cs fs) (hs : setRedoLog cs patch = .ok ds) (i : ℕ) :
    ds.getColumnFamily i = cs.getColumnFamily i ∧ numbers ds i = (numbers cs i).map fun x =>
      (x.1, patch.redoLog.elim x.2 fun r => if r.cfid = i then r.number else x.2) := by
  rw [setRedoLog] at hs
  cases hr : patch.redoLog with
  | none =>
    rw [hr] at hs
    obtain rfl := Except.ok.inj hs
    simp
  | some r =>
    rw [hr] at hs
    obtain ⟨p, hp, rfl⟩ := map_eq_ok.mp hs
    obtain ⟨rfl, -⟩ := (h.found _ _).mp (dereference_eq_ok.mp hp)
    refine ⟨rfl, numbers_modify _ _ (fun _ => r.number) ?_ i⟩
    exact fun _ => ⟨rfl, rfl⟩

lemma numbers_dropColumnFamily
    (hid : ∀ i p, cs.getColumnFamily i = some p → ∃ n, numbers cs p = some (i, n))
    (hs : dropColumnFamily cs patch = .ok ds) (i : ℕ) :
    ds.getColumnFamily i = (if patch.cfDeletion = some i then none else cs.getColumnFamily i) ∧
      numbers ds i = numbers cs i := by
  rw [dropColumnFamily] at hs
  cases hd : patch.cfDeletion with
  | none =>
    rw [hd] at hs
    obtain rfl := Except.ok.inj hs
    simp
  | some id =>
    rw [hd] at hs
    obtain ⟨p, hp, rfl⟩ := map_eq_ok.mp hs
    obtain ⟨n, hn⟩ := hid id p (dereference_eq_ok.mp hp)
    obtain ⟨cfd, hcfd, hkey⟩ := map_eq_some_iff.mp hn
    obtain rfl : cfd.id = id := congrArg Prod.fst hkey
    constructor
    · simp [DbVersionSet.ColumnFamilySet.drop, hcfd, DbVersionSet.ColumnFamilySet.getColumnFamily,
        update_apply, eq_comm]
    · rw [numbers, drop_impls hcfd]
      change numbers (cs.modify p _) i = _
      refine numbers_kept p _ ?_ i
      exact fun _ => ⟨rfl, rfl⟩

lemma numbers_applyFiles (hs : applyFiles cs patch = .ok ds) (i : ℕ) :
    ds.impls.length = cs.impls.length ∧ ds.getColumnFamily i = cs.getColumnFamily i ∧
      numbers ds i = numbers cs i := by
  rw [applyFiles] at hs
  split_ifs at hs
  · cases hp : prepare cs patch with
    | none => simp [hp] at hs
    | some p =>
      rw [hp] at hs
      obtain rfl := Except.ok.inj hs
      refine ⟨length_modify .., rfl, numbers_kept p _ ?_ i⟩
      exact fun _ => ⟨rfl, rfl⟩
  · obtain rfl := Except.ok.inj hs
    exact ⟨rfl, rfl, rfl⟩

lemma Agree.newColumnFamily (h : Agree cs fs) {options : ColumnFamilyOptions} {name : String} :
    Agree (cs.newColumnFamily options name fs.count) fs.newColumnFamily := by
  have hnone : cs.columnFamilyImpls fs.count = none := by
    refine eq_none_iff_forall_ne_some.mpr fun p hp => ?_
    simpa [ColumnFamilySet.present] using ((h.found _ p).mp hp).2
  have hget (i : ℕ) : (cs.newColumnFamily options name fs.count).getColumnFamily i =
      if i = fs.count then some fs.count else cs.getColumnFamily i := by
    change insertAbsent cs.columnFamilyImpls fs.count cs.impls.length i = _
    rw [insertAbsent, hnone, h.length]
    exact update_apply ..
  have hold (i : ℕ) (hi : i < fs.count) : fs.newColumnFamily.get i = fs.get i :=
    update_of_ne hi.ne ..
  refine ⟨?_, fun i hi => ?_, fun i p => ?_⟩
  · exact length_append.trans (congrArg (· + 1) h.length)
  · rcases (Nat.lt_succ_iff.mp hi).lt_or_eq with hlt | rfl
    · rw [hold i hlt, ← h.numbers i hlt, DbImplViews.numbers]
      exact congrArg _ (getElem?_append_left (h.length ▸ hlt))
    · simp [DbImplViews.numbers, DbVersionSet.ColumnFamilySet.newColumnFamily, ← h.length,
        ColumnFamilyImpl.new, DbRedoLogs.ColumnFamilySet.newColumnFamily, ColumnFamily.new]
  · rw [hget]
    by_cases hi : i = fs.count
    · simp [hi, ColumnFamilySet.present, DbRedoLogs.ColumnFamilySet.newColumnFamily,
        ColumnFamily.new, eq_comm]
    · have hlt : i < fs.count + 1 ↔ i < fs.count := by omega
      rw [if_neg hi, h.found]
      simp [ColumnFamilySet.present, DbRedoLogs.ColumnFamilySet.newColumnFamily, hi, hlt]

/-- What the model of redo logs keeps of a patch, with the updates in a new table. -/
def patchView (patch : DbVersion.VersionPatch K) (fileCreation : Option (ℕ × List (Write U))) :
    VersionPatch U where
  cfCreation := patch.cfCreation.isSome
  cfDeletion := patch.cfDeletion
  fileCreation := fileCreation
  redoLog := patch.redoLog.map fun r => (r.cfid, r.number)
  redoLogNumber := patch.redoLogNumber

/-- `LogAndApply` with no failing operation does to the families what the model of redo logs
says. -/
theorem logAndApply_view {v : VersionSet K} {disk : Manifests K} {options : ColumnFamilyOptions}
    {r : Outcome K} {s : DBImpl U} (hopen : v.logFile = true)
    (h : DbLogAndApplyFaults.logAndApply (fun _ => true) v disk options patch = .ok r)
    (hagree : Agree v.columnFamilies s.families) (hnumber : v.redoLogNumber = s.redoLogNumber)
    (hid : ∀ c, patch.cfCreation = some c → c.cfid = s.families.count)
    (files : Option (ℕ × List (Write U))) :
    Agree r.versions.columnFamilies (s.logAndApply (patchView patch files)).families ∧
      r.versions.redoLogNumber = (s.logAndApply (patchView patch files)).redoLogNumber := by
  obtain ⟨f₁, f₂, f₃, h₁, h₂, h₃, -, -, hr⟩ := logAndApply_never hopen h
  obtain ⟨fs, hfs, hbase⟩ : ∃ fs, (s.logAndApply (patchView patch files)).families =
      { fs with get := fun j => (patchView patch files).applyTo j (fs.get j) } ∧
      Agree (v.registerFamily options patch) fs := by
    refine ⟨_, rfl, ?_⟩
    rw [VersionSet.registerFamily, patchView]
    cases hc : patch.cfCreation with
    | none => exact hagree
    | some c =>
      change Agree (v.columnFamilies.newColumnFamily options c.name c.cfid)
        s.families.newColumnFamily
      rw [hid c hc]
      exact hagree.newColumnFamily
  have hnum₁ := numbers_setRedoLog hbase h₁
  have hnum₂ := numbers_dropColumnFamily (fun i p hp => ?_) h₂
  have hnum₃ := numbers_applyFiles h₃
  · rw [hr, hfs]
    refine ⟨⟨?_, fun i hi => ?_, fun i p => ?_⟩, by rw [hnumber]; rfl⟩
    · rw [(hnum₃ 0).1, length_dropColumnFamily h₂, length_setRedoLog h₁, hbase.length]
    · rw [(hnum₃ i).2.2, (hnum₂ i).2, (hnum₁ i).2, hbase.numbers i hi]
      simp only [patchView, VersionPatch.applyTo]
      cases patch.redoLog <;> rfl
    · rw [(hnum₃ i).2.1, (hnum₂ i).1, (hnum₁ i).1]
      by_cases hd : patch.cfDeletion = some i
      · simp [hd, patchView, ColumnFamilySet.present, VersionPatch.applyTo]
      · rw [if_neg hd, hbase.found]
        simp [hd, patchView, ColumnFamilySet.present, VersionPatch.applyTo]
  · rw [(hnum₁ i).1] at hp
    obtain ⟨rfl, hpresent⟩ := (hbase.found i p).mp hp
    have hlt : p < fs.count := by simpa using (Bool.and_eq_true_iff.mp hpresent).1
    rw [(hnum₁ p).2, hbase.numbers p hlt]
    exact ⟨_, rfl⟩

end Versions

section Parts
open DbScheduling (Family State)

variable {U T : Type*} {s t : DBImpl U} {w w' : DbWriters.Writers T}
  {d d' : DbWriteFaults.Database (ℕ × U)} {b b' : State ℕ} {f f' : DbFileNumbers.Files} {id : ℕ}

def batches (records : List (DbWriteFaults.Record (ℕ × U))) : List (ℕ × List (ℕ × U)) :=
  records.map fun r => (r.sequenceNumber, r.updates)

def logged (records : List (Record U)) : List (ℕ × List (ℕ × U)) :=
  records.map fun r => (r.sequenceNumber, r.updates)

/-- The other models keep the batches, the tables of the pipelines and the numbers that the model of
redo logs has. -/
structure Parts (s : DBImpl U) (w : DbWriters.Writers T) (d : DbWriteFaults.Database (ℕ × U))
    (b : State ℕ) (f : DbFileNumbers.Files) : Prop where
  writers : w.lastSequenceNumber = s.lastSequenceNumber
  faults : d.lastSequenceNumber = s.lastSequenceNumber
  applied : w.applied = s.records.map fun r => ⟨r.sequenceNumber, r.updates.length⟩
  acknowledged : batches d.acknowledged = logged s.records
  current : batches d.current = logged (s.records.filter (·.log = s.logFileNumber))
  waiting : ∀ id n, (b.families id).map Family.immutables = some n →
    n = (s.families.get id).pipeline.length
  next : f.nextFileNumber = s.nextFileNumber
  disk : ∀ n ∈ s.logs, n ∈ f.disk

/-- A thread that read the last sequence number when no other batch was applied since. -/
theorem Parts.write [DecidableEq T] (h : Parts s w d b f) {batch : List (ℕ × U)}
    (hs : step s (.write batch) = some t) {thread : T} {position : ℕ}
    (hphase : w.phase thread = .makingRoom batch.length s.lastSequenceNumber position)
    (hw : w.apply thread true = some w') {sync : Bool}
    (hd : d.writeImpl s.lastSequenceNumber sync batch .ok = some d') : Parts t w' d' b f := by
  have hpipe (id : ℕ) : (t.families.get id).pipeline = (s.families.get id).pipeline := by
    rw [step_get hs]
    rfl
  obtain ⟨-, rfl⟩ := write_cases hs
  simp only [DbWriters.Writers.apply, hphase, if_true] at hw
  obtain rfl := Option.some.inj (ite_none_right_eq_some.mp hw).2
  obtain rfl := Option.some.inj hd
  refine ⟨?_, ?_, ?_, ?_, ?_, fun id n hn => ?_, h.next, h.disk⟩
  · exact congrArg (· + batch.length) h.writers
  · exact congrArg (· + batch.length) h.faults
  · simp [h.applied, DBImpl.record]
  · simpa [batches, logged, DBImpl.record] using h.acknowledged
  · simpa [batches, logged, DBImpl.record, filter_append] using h.current
  · rw [hpipe]
    exact h.waiting id n hn

lemma immutables_maybeScheduleCompaction (b : State ℕ) (id j : ℕ) :
    ((b.maybeScheduleCompaction id).families j).map Family.immutables =
      (b.families j).map Family.immutables := by
  unfold State.maybeScheduleCompaction State.scheduleIfNeeded
  cases hc : b.families id with
  | none => simp
  | some c =>
    simp only
    split_ifs
    · rfl
    · rfl
    · rfl
    · by_cases hj : j = id
      · simp [State.updateFamily, hj, hc]
      · simp [State.updateFamily, hj]

/-- The scheduler's decision to set a table aside is one that the model of redo logs allows. -/
theorem Parts.makeRoomForWrite [DecidableEq T] (h : Parts s w d b f) (hid : id < s.families.count)
    {full : Bool} {level0 : ℕ} (hb : b.switches id full level0 = true)
    (hfresh : ∀ r ∈ s.records, r.log ≠ s.nextFileNumber) {thread : T}
    (hw : w.makeRoom thread true = some w') (hd : DbWriteFaults.step d .renewLogger = some d')
    (hf : DbFileNumbers.step f (.renewLogger true) = some f') :
    ∃ t, step s (.makeRoomForWrite id) = some t ∧
      Parts t w' d' (b.makeRoomForWrite id full level0) f' := by
  obtain ⟨hlast, happlied, -⟩ := DbWriters.quiet_makeRoom hw
  obtain rfl := Option.some.inj hd
  obtain rfl := Option.some.inj hf
  obtain ⟨c, hc, hrenew⟩ := (Option.any_eq_true _ _).mp hb
  have hlength := h.waiting id c.immutables (by rw [hc]; rfl)
  have hempty : (s.families.get id).pipeline = [] := by
    by_contra hne
    have hpos := length_pos_iff.mpr hne
    simp only [DbWriters.makeRoomForWrite, State.room, hlength, hpos, decide_true, if_true,
      ite_self] at hrenew
    split_ifs at hrenew <;> simp at hrenew
  have hs : step s (.makeRoomForWrite id) = some (s.makeRoomForWrite id) := if_pos ⟨hid, hempty⟩
  refine ⟨_, hs, hlast.trans h.writers, h.faults, happlied.trans h.applied, h.acknowledged, ?_,
    fun j n hn => ?_, ?_, ?_⟩
  · have hnone : s.records.filter (·.log = s.nextFileNumber) = [] :=
      filter_eq_nil_iff.mpr fun r hr => by simpa using hfresh r hr
    exact (congrArg logged hnone).symm
  · rw [State.makeRoomForWrite, if_pos hb, immutables_maybeScheduleCompaction] at hn
    rw [step_get hs, ColumnFamily.after]
    by_cases hj : j = id
    · simp only [hj, State.makeImmutablePipeline, State.updateFamily, update_self,
        hc, map_some, hlength, hempty] at hn
      obtain rfl := Option.some.inj hn
      simp [hj]
    · rw [if_neg hj]
      refine h.waiting j n (hn.symm.trans ?_).symm
      simp [State.makeImmutablePipeline, State.updateFamily, hj]
  · exact congrArg (· + 1) h.next
  · intro n hn
    rcases mem_append.mp hn with hn | hn
    · exact mem_cons_of_mem _ (h.disk n hn)
    · rw [mem_singleton.mp hn, ← h.next]
      exact mem_cons_self

/-- A table that a job flushes leaves the pipeline; its file takes the next number. -/
theorem Parts.compactMemoryTable (h : Parts s w d b f)
    (hs : step s (.compactMemoryTable id) = some t) {k : ℕ} {needs : Bool}
    (hjob : b.jobs[k]? = some ⟨id, .flushing⟩) (hb : b.step (.flushTable k needs) = some b')
    (hf : RunInvariant.run DbFileNumbers.step f [.startTable, .openTable s.nextFileNumber true] =
    some f') :
    Parts t w d b' f' := by
  have hpipe (j : ℕ) := congrArg ColumnFamily.pipeline (step_get hs j)
  obtain ⟨-, table, htable, rfl⟩ := compactMemoryTable_cases hs
  obtain rfl : _ = f' := by simpa [RunInvariant.run, DbFileNumbers.step, ← h.next] using hf
  simp only [State.step, State.withJob, hjob, bind_some, if_true, Option.some.injEq] at hb
  subst hb
  refine ⟨h.writers, h.faults, h.applied, h.acknowledged, h.current, fun j n hn => ?_,
    congrArg (· + 1) h.next, fun n hn => mem_cons_of_mem _ (h.disk n hn)⟩
  rw [hpipe, ColumnFamily.after]
  by_cases hj : j = id
  · subst hj
    simp only [State.setPhase, State.updateFamily, update_self, Option.map_map] at hn
    obtain ⟨c, hc, rfl⟩ := map_eq_some_iff.mp hn
    have hlength := h.waiting j c.immutables (by rw [hc]; rfl)
    simp [hlength]
  · rw [if_neg hj]
    refine h.waiting j n (hn.symm.trans ?_).symm
    simp [State.setPhase, State.updateFamily, hj]

end Parts

end Mai.DbImplViews
