import Mai.RunInvariant

/-!
# Redo logs

Column families share one redo log (`db/db-impl.cc`). A full memory table is set aside together with
a switch to a new log, whose number becomes the redo log number of the family when the table has
been flushed. The manifest (`db/version.cc`) tells a recovery which logs to replay.
-/
namespace Mai.DbRedoLogs

open RunInvariant Function List Option

variable {U : Type*}

/-- An update in a memory table, with the number of the log that has its record. -/
structure Write (U : Type*) where
  log : ℕ
  sequenceNumber : ℕ
  update : U
  deriving DecidableEq

structure Record (U : Type*) where
  log : ℕ
  sequenceNumber : ℕ
  updates : List (ℕ × U)

/-- The updates with the sequence numbers that `WritingHandler` counts. -/
def Record.entries (r : Record U) : List (ℕ × Write U) :=
  (r.updates.zipIdx r.sequenceNumber).map fun u => (u.1.1, ⟨r.log, u.2, u.1.2⟩)

/-- The tables of the pipeline have their associated file numbers. Table files are in the order of
their times, as the versions name them: those of a dropped family are gone with its directory. -/
structure ColumnFamily (U : Type*) where
  redoLogNumber : ℕ
  dropped : Bool
  mutableTable : List (Write U)
  pipeline : List (List (Write U) × ℕ)
  tables : List (List (Write U))

def ColumnFamily.new : ColumnFamily U := ⟨0, false, [], [], []⟩

/-- Ids count the families from zero, and a dropped family keeps its id. -/
structure ColumnFamilySet (U : Type*) where
  count : ℕ
  get : ℕ → ColumnFamily U

namespace ColumnFamilySet

def empty : ColumnFamilySet U := ⟨0, fun _ => .new⟩

def modify (fs : ColumnFamilySet U) (id : ℕ) (g : ColumnFamily U → ColumnFamily U) :
    ColumnFamilySet U :=
  { fs with get := Function.update fs.get id (g (fs.get id)) }

def newColumnFamily (fs : ColumnFamilySet U) : ColumnFamilySet U :=
  ⟨fs.count + 1, Function.update fs.get fs.count .new⟩

/-- `GetColumnFamily` does not return a null pointer. -/
def present (fs : ColumnFamilySet U) (id : ℕ) : Bool := id < fs.count && !(fs.get id).dropped

end ColumnFamilySet

structure VersionPatch (U : Type*) where
  cfCreation : Bool := false
  cfDeletion : Option ℕ := none
  fileCreation : Option (ℕ × List (Write U)) := none
  redoLog : Option (ℕ × ℕ) := none
  redoLogNumber : Option ℕ := none

def VersionPatch.applyTo (patch : VersionPatch U) (id : ℕ) (f : ColumnFamily U) : ColumnFamily U :=
  { f with
    dropped := if patch.cfDeletion = some id then true else f.dropped
    tables := patch.fileCreation.elim f.tables fun c => if c.1 = id then f.tables ++ [c.2]
      else f.tables
    redoLogNumber := patch.redoLog.elim f.redoLogNumber fun r => if r.1 = id then r.2
      else f.redoLogNumber }

/-- What `LogAndApply` and `VersionSet::Recovery` do to the families. -/
def VersionPatch.apply (fs : ColumnFamilySet U) (patch : VersionPatch U) : ColumnFamilySet U :=
  let fs := if patch.cfCreation then fs.newColumnFamily else fs
  { fs with get := fun id => patch.applyTo id (fs.get id) }

/-- `WritingHandler` gets no table of a family that the filter skips. -/
def ColumnFamily.receive (redoLogNumber : ℕ) (filter : Bool) (f : ColumnFamily U)
    (ws : List (Write U)) : ColumnFamily U :=
  if filter && f.redoLogNumber < redoLogNumber then f
  else { f with mutableTable := f.mutableTable ++ ws }

/-- `WritingHandler::Put` and `Delete`. The use of a null pointer is no result. -/
def handle (redoLogNumber : ℕ) (filter : Bool) (fs : ColumnFamilySet U) (e : ℕ × Write U) :
    Option (ColumnFamilySet U) :=
  if fs.present e.1 then some (fs.modify e.1 fun f => f.receive redoLogNumber filter [e.2])
  else none

def iterate (redoLogNumber : ℕ) (filter : Bool) (fs : ColumnFamilySet U) (r : Record U) :
    Option (ColumnFamilySet U) :=
  r.entries.foldlM (handle redoLogNumber filter) fs

/-- `records` are those of all logs, `logs` the numbers of the log files in the directory. -/
structure DBImpl (U : Type*) where
  families : ColumnFamilySet U
  records : List (Record U)
  logs : List ℕ
  logFileNumber : ℕ
  nextFileNumber : ℕ
  redoLogNumber : ℕ
  manifest : List (VersionPatch U)
  lastSequenceNumber : ℕ

namespace DBImpl

/-- The first log has number 0 and the manifest number 1. -/
def newDB (others : ℕ) : DBImpl U where
  families := ⟨others + 1, fun _ => .new⟩
  records := []
  logs := [0]
  logFileNumber := 0
  nextFileNumber := 2
  redoLogNumber := 0
  manifest := (List.range (others + 1)).map
    (fun id => { cfCreation := true, redoLog := some (id, 0) }) ++
    [{ redoLogNumber := some 0 }, { redoLogNumber := some 0 }]
  lastSequenceNumber := 1

def logAndApply (s : DBImpl U) (patch : VersionPatch U) : DBImpl U :=
  let number := patch.redoLogNumber.getD s.redoLogNumber
  { s with
    families := patch.apply s.families
    manifest := s.manifest ++ [{ patch with redoLogNumber := some number }]
    redoLogNumber := number }

def entries (s : DBImpl U) : List (ℕ × Write U) := s.records.flatMap Record.entries

def record (s : DBImpl U) (batch : List (ℕ × U)) : Record U :=
  ⟨s.logFileNumber, s.lastSequenceNumber + 1, batch⟩

/-- `WriteImpl` after it has made room. -/
def write (s : DBImpl U) (batch : List (ℕ × U)) : Option (DBImpl U) :=
  (iterate 0 false s.families (s.record batch)).map fun families => { s with
    families := families
    records := s.records ++ [s.record batch]
    lastSequenceNumber := s.lastSequenceNumber + batch.length }

def renewLogger (s : DBImpl U) : DBImpl U :=
  { s with
    logs := s.logs ++ [s.nextFileNumber]
    logFileNumber := s.nextFileNumber
    nextFileNumber := s.nextFileNumber + 1 }

/-- `MakeRoomForWrite` for a family whose memory table is full, with `MakeImmutablePipeline`. -/
def makeRoomForWrite (s : DBImpl U) (id : ℕ) : DBImpl U :=
  let s := s.renewLogger
  let s := s.logAndApply { redoLogNumber := some s.logFileNumber }
  { s with families := s.families.modify id fun f =>
    { f with pipeline := f.pipeline ++ [(f.mutableTable, s.logFileNumber)], mutableTable := [] } }

/-- One round of the loop of `CompactMemoryTable`. -/
def compactMemoryTable (s : DBImpl U) (id : ℕ) (table : List (Write U) × ℕ) : DBImpl U :=
  let s := { s with nextFileNumber := s.nextFileNumber + 1 }
  let s := s.logAndApply { fileCreation := some (id, table.1), redoLog := some (id, table.2) }
  { s with families := s.families.modify id fun f => { f with pipeline := f.pipeline.tail } }

def deleteObsoleteFiles (s : DBImpl U) : DBImpl U :=
  { s with logs := s.logs.filter fun n =>
    n = s.logFileNumber || (List.range s.families.count).any fun id =>
      (s.families.get id).redoLogNumber = n }

/-- The redo log number of the new family is set in memory only. -/
def newColumnFamily (s : DBImpl U) : DBImpl U :=
  let t := s.logAndApply { cfCreation := true }
  { t with families := t.families.modify s.families.count fun f => { f with
    redoLogNumber := s.logFileNumber } }

def rebuild (s : DBImpl U) : ColumnFamilySet U := s.manifest.foldl VersionPatch.apply .empty

def redoLogNumbers (s : DBImpl U) : List ℕ :=
  (List.range s.rebuild.count).map fun id => (s.rebuild.get id).redoLogNumber

def history (s : DBImpl U) : List ℕ := s.manifest.filterMap VersionPatch.redoLogNumber

/-- The logs that no table file has been written for. -/
def undumped (s : DBImpl U) : List ℕ := s.history.filter (s.redoLogNumbers.foldr max 0 < ·)

/-- The logs that `Recovery` replays, in the order of a `std::set`. -/
def numbers (s : DBImpl U) : List ℕ := (s.redoLogNumbers ++ s.undumped).dedup.insertionSort (· ≤ ·)

def maxNumber (s : DBImpl U) : ℕ := s.undumped.foldr max (s.redoLogNumbers.foldr max 0)

def redo (s : DBImpl U) (fs : ColumnFamilySet U) (number : ℕ) : Option (ColumnFamilySet U) :=
  if number ∈ s.logs then
    (s.records.filter (·.log = number)).foldlM (iterate number (number ≠ s.maxNumber)) fs
  else none

def recovery (s : DBImpl U) : Option (ColumnFamilySet U) := s.numbers.foldlM s.redo s.rebuild

end DBImpl

inductive Action (U : Type*)
  | write (batch : List (ℕ × U))
  | makeRoomForWrite (id : ℕ)
  | compactMemoryTable (id : ℕ)
  | deleteObsoleteFiles
  | newColumnFamily
  | dropColumnFamily (id : ℕ)

/-- A table is set aside only if none waits. -/
def step (s : DBImpl U) : Action U → Option (DBImpl U)
  | .write batch => s.write batch
  | .makeRoomForWrite id =>
    if id < s.families.count ∧ (s.families.get id).pipeline = [] then some (s.makeRoomForWrite id)
    else none
  | .compactMemoryTable id =>
    if s.families.present id then (s.families.get id).pipeline.head?.map (s.compactMemoryTable id)
    else none
  | .deleteObsoleteFiles => some s.deleteObsoleteFiles
  | .newColumnFamily => some s.newColumnFamily
  | .dropColumnFamily id =>
    if id ≠ 0 ∧ s.families.present id then some (s.logAndApply { cfDeletion := some id }) else none

/-- What is not in a table file yet. -/
def ColumnFamily.unflushed (f : ColumnFamily U) : List (Write U) :=
  f.pipeline.flatMap Prod.fst ++ f.mutableTable

def taken (es : List (ℕ × Write U)) (id : ℕ) : List (Write U) := (es.filter (·.1 = id)).map Prod.snd

/-- The table files and the memory tables of a family that has not been dropped hold all its updates
once, in the order of the logs. -/
def Ordered (s : DBImpl U) : Prop := ∀ id, s.families.present id →
  taken s.entries id = (s.families.get id).tables.flatten ++ (s.families.get id).unflushed

/-- No log has been deleted that holds an update which is not in a table file. -/
def Retained (s : DBImpl U) : Prop :=
  ∀ id < s.families.count, ∀ w ∈ (s.families.get id).unflushed, w.log ∈ s.logs

/-- The log is switched only while it is the redo log of every family that it holds such updates
of. -/
def SwitchesCovered (s : DBImpl U) : Action U → Prop
  | .makeRoomForWrite _ => ∀ id < s.families.count, ∀ w ∈ (s.families.get id).unflushed,
    w.log = s.logFileNumber → (s.families.get id).redoLogNumber = s.logFileNumber
  | _ => True

/-- A recovery finds every log that it replays. -/
def Reopens (s : DBImpl U) : Prop := ∀ n ∈ s.numbers, n ∈ s.logs

/-- The log is switched only while it is the redo log of some family and no table waits to be
flushed. Families are created before that happens. -/
def SwitchesFlushed (s : DBImpl U) : Action U → Prop
  | .makeRoomForWrite _ =>
    (∃ id < s.families.count, (s.families.get id).redoLogNumber = s.logFileNumber) ∧
    ∀ id < s.families.count, (s.families.get id).pipeline = []
  | .newColumnFamily => s.logFileNumber = 0
  | _ => True

/-- A recovery finds the family of every update, and the memory tables of the families that are left
hold their updates with the sequence numbers that they had. -/
def Replays (s : DBImpl U) : Prop :=
  ∃ fs, s.recovery = some fs ∧ ∀ id, (s.families.get id).dropped = false →
  (fs.get id).mutableTable = taken s.entries id

/-- No record names a family that has been dropped. -/
def NoneDropped (s : DBImpl U) : Prop := ∀ e ∈ s.entries, s.families.present e.1

def Action.WritesOrDrops : Action U → Prop
  | .write _ => True
  | .dropColumnFamily _ => True
  | _ => False

section Handler

variable {n : ℕ} {filter : Bool} {fs : ColumnFamilySet U}

/-- The families after the handler has gone through entries. -/
def ColumnFamilySet.received (n : ℕ) (filter : Bool) (fs : ColumnFamilySet U)
    (es : List (ℕ × Write U)) : ColumnFamilySet U :=
  { fs with get := fun id => (fs.get id).receive n filter (taken es id) }

lemma taken_append (es es' : List (ℕ × Write U)) (id : ℕ) :
    taken (es ++ es') id = taken es id ++ taken es' id := by
  rw [taken, filter_append, map_append]
  rfl

lemma receive_nil (f : ColumnFamily U) : f.receive n filter [] = f := by
  simp [ColumnFamily.receive]

lemma received_append (es es' : List (ℕ × Write U)) :
    (fs.received n filter es).received n filter es' = fs.received n filter (es ++ es') := by
  refine congrArg (ColumnFamilySet.mk fs.count) (funext fun id => ?_)
  simp only [ColumnFamilySet.received, ColumnFamily.receive, taken_append]
  split_ifs
  · rfl
  · rw [append_assoc]

lemma present_received (es : List (ℕ × Write U)) (id : ℕ) :
    (fs.received n filter es).present id = fs.present id := by
  have hdropped : ((fs.get id).receive n filter (taken es id)).dropped = (fs.get id).dropped := by
    unfold ColumnFamily.receive
    split_ifs <;> rfl
  simp only [ColumnFamilySet.present, ColumnFamilySet.received, hdropped]
  rfl

lemma foldlM_handle (es : List (ℕ × Write U)) :
    es.foldlM (handle n filter) fs = if ∀ e ∈ es, fs.present e.1 then some (fs.received n filter es)
      else none := by
  induction es generalizing fs with
  | nil => simp [ColumnFamilySet.received, taken, receive_nil]
  | cons e es ih =>
    have hone : (fs.modify e.1 fun f => f.receive n filter [e.2]) = fs.received n filter [e] := by
      refine congrArg (ColumnFamilySet.mk fs.count) (funext fun id => ?_)
      by_cases hid : id = e.1
      · rw [hid, update_self]
        simp [taken]
      · rw [update_of_ne hid]
        simp [taken, Ne.symm hid, receive_nil]
    rw [foldlM_cons, handle, hone]
    cases hpresent : fs.present e.1 with
    | false => simp [hpresent]
    | true =>
      simp only [if_true, bind_eq_bind, bind_some, ih, present_received, received_append,
        singleton_append, forall_mem_cons, hpresent, true_and]

lemma foldlM_iterate (rs : List (Record U)) :
    rs.foldlM (iterate n filter) fs = if ∀ e ∈ rs.flatMap Record.entries, fs.present e.1
      then some (fs.received n filter (rs.flatMap Record.entries)) else none := by
  rw [← foldlM_handle]
  induction rs generalizing fs with
  | nil => rfl
  | cons r rs ih =>
    rw [flatMap_cons, foldlM_append, foldlM_cons]
    exact congrArg _ (funext fun fs => ih)

lemma log_of_taken {r : Record U} {id : ℕ} {w : Write U} (h : w ∈ taken r.entries id) :
    w.log = r.log := by
  obtain ⟨e, he, rfl⟩ := List.mem_map.mp h
  obtain ⟨u, -, rfl⟩ := List.mem_map.mp (mem_of_mem_filter he)
  rfl

end Handler

variable {s t : DBImpl U} {a : Action U} {f : ColumnFamily U} {logs : List ℕ} {cur : ℕ} {id : ℕ}
  {n : ℕ}

def ColumnFamily.after (s : DBImpl U) (id : ℕ) (f : ColumnFamily U) : Action U → ColumnFamily U
  | .write batch => { f with mutableTable := f.mutableTable ++ taken (s.record batch).entries id }
  | .makeRoomForWrite i =>
    if id = i then { f with pipeline := [(f.mutableTable, s.nextFileNumber)], mutableTable := [] }
    else f
  | .compactMemoryTable i => if id = i then { f with
      tables := f.tables ++ (f.pipeline.head?.map Prod.fst).toList
      redoLogNumber := (f.pipeline.head?.map Prod.snd).getD f.redoLogNumber
      pipeline := f.pipeline.tail } else f
  | .newColumnFamily => if id = s.families.count then { (ColumnFamily.new : ColumnFamily U) with
      redoLogNumber := s.logFileNumber } else f
  | .dropColumnFamily i => if id = i then { f with dropped := true } else f
  | .deleteObsoleteFiles => f

lemma get_modify (fs : ColumnFamilySet U) (i id : ℕ) (g : ColumnFamily U → ColumnFamily U) :
    (fs.modify i g).get id = if id = i then g (fs.get id) else fs.get id := by
  simp only [ColumnFamilySet.modify, update_apply]
  split_ifs with hid
  · rw [hid]
  · rfl

lemma write_cases {batch : List (ℕ × U)} (h : step s (.write batch) = some t) :
    (∀ e ∈ (s.record batch).entries, s.families.present e.1) ∧
      t = { s with
        families := s.families.received 0 false (s.record batch).entries
        records := s.records ++ [s.record batch]
        lastSequenceNumber := s.lastSequenceNumber + batch.length } := by
  simp only [step, DBImpl.write, iterate, foldlM_handle, map_eq_some_iff,
    ite_none_right_eq_some] at h
  obtain ⟨fs, ⟨hpresent, hfs⟩, rfl⟩ := h
  obtain rfl := Option.some.inj hfs
  exact ⟨hpresent, rfl⟩

lemma makeRoomForWrite_cases (h : step s (.makeRoomForWrite id) = some t) :
    id < s.families.count ∧ (s.families.get id).pipeline = [] ∧ t = s.makeRoomForWrite id := by
  obtain ⟨hid, ht⟩ := ite_none_right_eq_some.mp h
  exact ⟨hid.1, hid.2, (Option.some.inj ht).symm⟩

lemma compactMemoryTable_cases (h : step s (.compactMemoryTable id) = some t) :
    s.families.present id ∧ ∃ table, (s.families.get id).pipeline.head? = some table ∧
      t = s.compactMemoryTable id table := by
  obtain ⟨hid, ht⟩ := ite_none_right_eq_some.mp h
  obtain ⟨table, htable, ht⟩ := map_eq_some_iff.mp ht
  exact ⟨hid, table, htable, ht.symm⟩

lemma dropColumnFamily_cases (h : step s (.dropColumnFamily id) = some t) :
    t = s.logAndApply { cfDeletion := some id } :=
  (Option.some.inj (ite_none_right_eq_some.mp h).2).symm

lemma mem_deleteObsoleteFiles (hn : n ∈ s.logs)
    (hused : n = s.logFileNumber ∨ ∃ id < s.families.count, (s.families.get id).redoLogNumber = n) :
    n ∈ s.deleteObsoleteFiles.logs :=
  mem_filter.mpr ⟨hn, by simpa using hused⟩

lemma step_get (h : step s a = some t) (id : ℕ) :
    t.families.get id = (s.families.get id).after s id a := by
  cases a with
  | write batch =>
    obtain ⟨-, rfl⟩ := write_cases h
    rfl
  | makeRoomForWrite i =>
    obtain ⟨-, hempty, rfl⟩ := makeRoomForWrite_cases h
    rw [DBImpl.makeRoomForWrite, get_modify, ColumnFamily.after]
    split_ifs with hid
    · simp [hid, hempty, DBImpl.logAndApply, DBImpl.renewLogger, VersionPatch.apply,
        VersionPatch.applyTo]
    · rfl
  | compactMemoryTable i =>
    obtain ⟨-, table, htable, rfl⟩ := compactMemoryTable_cases h
    rw [DBImpl.compactMemoryTable, get_modify, ColumnFamily.after]
    split_ifs with hid
    · simp [hid, htable, DBImpl.logAndApply, VersionPatch.apply, VersionPatch.applyTo]
    · simp [Ne.symm hid, DBImpl.logAndApply, VersionPatch.apply, VersionPatch.applyTo]
  | deleteObsoleteFiles =>
    obtain rfl := Option.some.inj h
    rfl
  | newColumnFamily =>
    obtain rfl := Option.some.inj h
    rw [DBImpl.newColumnFamily, get_modify, ColumnFamily.after]
    split_ifs with hid
    · simp [hid, DBImpl.logAndApply, VersionPatch.apply, VersionPatch.applyTo,
        ColumnFamilySet.newColumnFamily]
    · simp [hid, DBImpl.logAndApply, VersionPatch.apply, VersionPatch.applyTo,
        ColumnFamilySet.newColumnFamily]
  | dropColumnFamily i =>
    obtain rfl := dropColumnFamily_cases h
    by_cases hid : id = i
    · simp [hid, DBImpl.logAndApply, VersionPatch.apply, VersionPatch.applyTo, ColumnFamily.after]
    · simp [hid, Ne.symm hid, DBImpl.logAndApply, VersionPatch.apply, VersionPatch.applyTo,
        ColumnFamily.after]

lemma mem_unflushed {w : Write U} :
    w ∈ f.unflushed ↔ (∃ t ∈ f.pipeline, w ∈ t.1) ∨ w ∈ f.mutableTable := by
  simp [ColumnFamily.unflushed]

/-- The unflushed updates of a family are in its redo log and the current one. -/
structure Covered (logs : List ℕ) (cur : ℕ) (f : ColumnFamily U) : Prop where
  redo : f.redoLogNumber ≤ cur
  tags : ∀ t ∈ f.pipeline, t.2 ≤ cur
  single : f.pipeline.tail = []
  waiting : f.pipeline ≠ [] → f.redoLogNumber < cur ∧ ∀ w ∈ f.mutableTable, w.log = cur
  kept : ∀ w ∈ f.unflushed, w.log ∈ logs ∧ (w.log = cur ∨ w.log = f.redoLogNumber)

lemma Covered.receive (h : Covered logs cur f) (hcur : cur ∈ logs) {ws : List (Write U)}
    (hws : ∀ w ∈ ws, w.log = cur) :
    Covered logs cur { f with mutableTable := f.mutableTable ++ ws } where
  redo := h.redo
  tags := h.tags
  single := h.single
  waiting hne := ⟨(h.waiting hne).1,
    fun w hw => (mem_append.mp hw).elim ((h.waiting hne).2 w) (hws w)⟩
  kept w hw := by
    have hmem : w ∈ f.unflushed ++ ws := by simpa [ColumnFamily.unflushed] using hw
    rcases mem_append.mp hmem with hw | hw
    · exact h.kept w hw
    · exact ⟨hws w hw ▸ hcur, Or.inl (hws w hw)⟩

lemma Covered.switch (h : Covered logs cur f) (hn : cur < n)
    (hcovered : ∀ w ∈ f.unflushed, w.log = cur → f.redoLogNumber = cur) :
    Covered (logs ++ [n]) n f where
  redo := h.redo.trans hn.le
  tags t ht := (h.tags t ht).trans hn.le
  single := h.single
  waiting hne := by
    obtain ⟨hlt, hall⟩ := h.waiting hne
    exact ⟨hlt.trans hn,
      fun w hw => absurd (hcovered w (mem_unflushed.mpr (Or.inr hw)) (hall w hw)) hlt.ne⟩
  kept w hw := ⟨mem_append_left _ (h.kept w hw).1,
    Or.inr ((h.kept w hw).2.elim (fun heq => heq.trans (hcovered w hw heq).symm) id)⟩

lemma Covered.setAside (h : Covered logs cur f) (hempty : f.pipeline = [])
    (hlt : f.redoLogNumber < cur) :
    Covered logs cur { f with pipeline := [(f.mutableTable, cur)], mutableTable := [] } where
  redo := h.redo
  tags t ht := by rw [mem_singleton.mp ht]
  single := rfl
  waiting _ := ⟨hlt, by simp⟩
  kept w hw := h.kept w (by simpa [ColumnFamily.unflushed, hempty] using hw)

lemma Covered.flush (h : Covered logs cur f) {table : List (Write U) × ℕ}
    (htable : f.pipeline.head? = some table) (tables) :
    Covered logs cur { f with
      tables := tables, redoLogNumber := table.2, pipeline := f.pipeline.tail } := by
  have hne : f.pipeline ≠ [] := by
    rintro hnil
    simp [hnil] at htable
  refine ⟨h.tags _ (mem_of_mem_head? htable), ?_, ?_, ?_, fun w hw => ?_⟩
  · simp [h.single]
  · simp [h.single]
  · simp [h.single]
  · have hw : w ∈ f.mutableTable := by simpa [ColumnFamily.unflushed, h.single] using hw
    exact ⟨(h.kept w (mem_unflushed.mpr (Or.inr hw))).1, Or.inl ((h.waiting hne).2 w hw)⟩

structure RetentionInv (s : DBImpl U) : Prop where
  current : s.logFileNumber ∈ s.logs
  next : s.logFileNumber < s.nextFileNumber
  covered : ∀ id < s.families.count, Covered s.logs s.logFileNumber (s.families.get id)

lemma retentionInv_newDB (others : ℕ) : RetentionInv (DBImpl.newDB others : DBImpl U) where
  current := mem_singleton.mpr rfl
  next := Nat.zero_lt_two
  covered _ _ := ⟨le_rfl, by simp [DBImpl.newDB, ColumnFamily.new], rfl, fun h => absurd rfl h,
    by simp [DBImpl.newDB, ColumnFamily.new, ColumnFamily.unflushed]⟩

lemma RetentionInv.step (h : RetentionInv s) (hcovered : SwitchesCovered s a)
    (hs : step s a = some t) : RetentionInv t := by
  have hget := step_get hs
  cases a with
  | write batch =>
    obtain ⟨-, rfl⟩ := write_cases hs
    refine ⟨h.current, h.next, fun id hid => ?_⟩
    rw [hget id]
    exact (h.covered id hid).receive h.current fun w => log_of_taken
  | makeRoomForWrite i =>
    obtain ⟨-, hempty, rfl⟩ := makeRoomForWrite_cases hs
    refine ⟨mem_append_right _ (mem_singleton.mpr rfl), Nat.lt_succ_self _, fun id hid => ?_⟩
    have hswitched := (h.covered id hid).switch h.next (hcovered id hid)
    rw [hget id, ColumnFamily.after]
    split_ifs with hi
    · exact hswitched.setAside (hi ▸ hempty) ((h.covered id hid).redo.trans_lt h.next)
    · exact hswitched
  | compactMemoryTable i =>
    obtain ⟨-, table, htable, rfl⟩ := compactMemoryTable_cases hs
    refine ⟨h.current, h.next.trans (Nat.lt_succ_self _), fun id hid => ?_⟩
    rw [hget id, ColumnFamily.after]
    split_ifs with hi
    · rw [hi, htable]
      exact (h.covered i (hi ▸ hid)).flush htable _
    · exact h.covered id hid
  | deleteObsoleteFiles =>
    obtain rfl := Option.some.inj hs
    refine ⟨mem_deleteObsoleteFiles h.current (Or.inl rfl), h.next, fun id hid => ?_⟩
    obtain ⟨hredo, htags, hsingle, hwaiting, hkept⟩ := h.covered id hid
    refine ⟨hredo, htags, hsingle, hwaiting,
      fun w hw => ⟨mem_deleteObsoleteFiles (hkept w hw).1 ?_, (hkept w hw).2⟩⟩
    exact (hkept w hw).2.imp_right fun heq => ⟨id, hid, heq.symm⟩
  | newColumnFamily =>
    obtain rfl := Option.some.inj hs
    refine ⟨h.current, h.next, fun id hid => ?_⟩
    rw [hget id, ColumnFamily.after]
    split_ifs with hi
    · exact ⟨le_rfl, by simp [ColumnFamily.new], rfl, fun h => absurd rfl h,
        by simp [ColumnFamily.new, ColumnFamily.unflushed]⟩
    · exact h.covered id (lt_of_le_of_ne (Nat.le_of_lt_succ hid) hi)
  | dropColumnFamily i =>
    obtain rfl := dropColumnFamily_cases hs
    refine ⟨h.current, h.next, fun id hid => ?_⟩
    obtain ⟨hredo, htags, hsingle, hwaiting, hkept⟩ := h.covered id hid
    rw [hget id, ColumnFamily.after]
    split_ifs with hi
    · exact ⟨hredo, htags, hsingle, hwaiting, hkept⟩
    · exact h.covered id hid

/-- A log is kept as long as it has updates that are in no table file. -/
theorem logs_retained (others : ℕ) (as : List (Action U))
    (h : EachStep step SwitchesCovered (.newDB others) as) :
    Always step Retained (.newDB others) as := by
  intro bs s hb hs id hid w hw
  have hinv := always_of_eachStep (fun s a t hc hi hs => hi.step hc hs) (retentionInv_newDB others)
    h bs s hb hs
  exact ((hinv.covered id hid).kept w hw).1

instance decidableSwitchesCovered (s : DBImpl U) (a : Action U) :
    Decidable (SwitchesCovered s a) := by
  cases a <;> unfold SwitchesCovered <;> infer_instance

/-- The default family is flushed while the other one stays in memory. -/
def flushOne : List (Action Unit) :=
  [.write [(1, ()), (0, ())], .makeRoomForWrite 0, .compactMemoryTable 0, .write [(0, ()), (1, ())],
    .deleteObsoleteFiles]

theorem logs_retained_flushOne :
    EachStep step SwitchesCovered (.newDB 1) flushOne ∧
      Always step Retained (.newDB 1) flushOne := by
  have hcovered : EachStep step SwitchesCovered (.newDB 1) flushOne :=
    eachStep_of_checkEach (by decide +kernel)
  exact ⟨hcovered, logs_retained 1 flushOne hcovered⟩

/-- After a second flush log 2 is deleted, which holds an update of the other family. -/
theorem log_deleted : ¬ Always step Retained (.newDB 1)
    (flushOne ++ [.makeRoomForWrite 0, .compactMemoryTable 0, .deleteObsoleteFiles]) := fun h =>
  absurd (h _ _ prefix_rfl rfl 1 (by decide) ⟨2, 5, ()⟩ (by decide)) (by decide)

/-- Ids that have not been given out are in no record. -/
def OrderedInv (s : DBImpl U) : Prop := ∀ id,
  taken s.entries id = (s.families.get id).tables.flatten ++ (s.families.get id).unflushed ∧
    (s.families.count ≤ id → taken s.entries id = [])

lemma OrderedInv.step (h : OrderedInv s) (hs : step s a = some t) : OrderedInv t := by
  have hget := step_get hs
  intro id
  obtain ⟨hordered, hnone⟩ := h id
  rw [hget id]
  cases a with
  | write batch =>
    obtain ⟨hpresent, ht⟩ := write_cases hs
    have htaken : taken t.entries id = taken s.entries id ++ taken (s.record batch).entries id := by
      rw [ht, DBImpl.entries, flatMap_append, taken_append, flatMap_singleton]
      rfl
    rw [htaken]
    refine ⟨?_, fun hid => ?_⟩
    · simp only [hordered, ColumnFamily.after, ColumnFamily.unflushed, append_assoc]
    · rw [ht] at hid
      have hout : (s.record batch).entries.filter (·.1 = id) = [] := by
        refine filter_eq_nil_iff.mpr fun e he heq => ?_
        have hlt := hpresent e he
        simp only [ColumnFamilySet.present, Bool.and_eq_true, decide_eq_true_eq] at hlt heq
        exact absurd hlt.1 (not_lt.mpr (heq ▸ hid))
      rw [hnone hid, nil_append, taken, hout, map_nil]
  | makeRoomForWrite i =>
    obtain ⟨-, hempty, rfl⟩ := makeRoomForWrite_cases hs
    refine ⟨hordered.trans ?_, hnone⟩
    rw [ColumnFamily.after]
    split_ifs with hi
    · simp [ColumnFamily.unflushed, hi, hempty]
    · rfl
  | compactMemoryTable i =>
    obtain ⟨-, table, htable, rfl⟩ := compactMemoryTable_cases hs
    refine ⟨hordered.trans ?_, hnone⟩
    rw [ColumnFamily.after]
    split_ifs with hi
    · obtain ⟨rest, hrest⟩ := head?_eq_some_iff.mp htable
      simp [ColumnFamily.unflushed, hi, hrest]
    · rfl
  | deleteObsoleteFiles =>
    obtain rfl := Option.some.inj hs
    exact ⟨hordered, hnone⟩
  | newColumnFamily =>
    obtain rfl := Option.some.inj hs
    refine ⟨?_, fun hid => hnone (Nat.le_of_succ_le hid)⟩
    rw [ColumnFamily.after]
    split_ifs with hi
    · exact hnone hi.ge
    · exact hordered
  | dropColumnFamily i =>
    obtain rfl := dropColumnFamily_cases hs
    refine ⟨hordered.trans ?_, hnone⟩
    rw [ColumnFamily.after]
    split_ifs <;> rfl

lemma orderedInv_run (others : ℕ) {as : List (Action U)}
    (hs : run step (.newDB others) as = some s) : OrderedInv s :=
  run_invariant (fun _ _ _ (_ : True) hi hs => hi.step hs) (fun _ => ⟨rfl, fun _ => rfl⟩)
    (fun _ _ => trivial) hs

/-- However writes, flushes, creations and drops of families follow each other, no update of a
family that is left is lost, stored twice or out of order. -/
theorem updates_ordered (others : ℕ) (as : List (Action U)) :
    Always step Ordered (.newDB others) as :=
  fun _ _ _ hs id _ => (orderedInv_run others hs id).1

/-- Every update of a family that has not been dropped is in a table file of it or in a log that is
still there. -/
def Durable (s : DBImpl U) : Prop := ∀ id, s.families.present id → ∀ w ∈ taken s.entries id,
  (∃ table ∈ (s.families.get id).tables, w ∈ table) ∨ w.log ∈ s.logs

lemma count_of_present (h : s.families.present id) : id < s.families.count := by
  simp only [ColumnFamilySet.present, Bool.and_eq_true, decide_eq_true_eq] at h
  exact h.1

/-- Updates of the families that are left survive a crash as long as logs are switched in time. -/
theorem updates_durable (others : ℕ) (as : List (Action U))
    (h : EachStep step SwitchesCovered (.newDB others) as) :
    Always step Durable (.newDB others) as := by
  intro bs s hb hs id hpresent w hw
  have hid := count_of_present hpresent
  have hinv := always_of_eachStep (fun _ _ _ hc hi hs => hi.step hc hs) (retentionInv_newDB others)
    h bs s hb hs
  rw [(orderedInv_run others hs id).1, mem_append, mem_flatten] at hw
  exact hw.imp_right fun hw => ((hinv.covered id hid).kept w hw).1

theorem updates_durable_flushOne : Always step Durable (.newDB 1) flushOne :=
  updates_durable 1 flushOne (eachStep_of_checkEach (by decide +kernel))

variable {fs : ColumnFamilySet U} {g : ColumnFamily U → ColumnFamily U}

/-- What the manifest and the table files hold of a family. -/
def ColumnFamily.saved (f : ColumnFamily U) : ColumnFamily U :=
  { f with mutableTable := [], pipeline := [] }

def ColumnFamilySet.saved (fs : ColumnFamilySet U) : ColumnFamilySet U :=
  { fs with get := fun id => (fs.get id).saved }

lemma saved_modify_memory (hg : ∀ f, (g f).saved = f.saved) (id : ℕ) :
    (fs.modify id g).saved = fs.saved := by
  refine congrArg (ColumnFamilySet.mk fs.count) (funext fun i => ?_)
  rw [get_modify]
  split_ifs
  · exact hg _
  · rfl

lemma saved_newColumnFamily : fs.newColumnFamily.saved = fs.saved.newColumnFamily := by
  refine congrArg (ColumnFamilySet.mk (fs.count + 1)) (funext fun id => ?_)
  by_cases hid : id = fs.count
  · simp [hid, ColumnFamilySet.saved, ColumnFamilySet.newColumnFamily, ColumnFamily.saved,
      ColumnFamily.new]
  · simp [hid, ColumnFamilySet.saved, ColumnFamilySet.newColumnFamily]

lemma saved_apply (patch : VersionPatch U) : (patch.apply fs).saved = patch.apply fs.saved := by
  rw [VersionPatch.apply, VersionPatch.apply]
  split_ifs
  · rw [← saved_newColumnFamily]
    rfl
  · rfl

lemma rebuild_logAndApply (patch : VersionPatch U) :
    (s.logAndApply patch).rebuild = patch.apply s.rebuild := by
  rw [DBImpl.rebuild, DBImpl.logAndApply, foldl_append]
  rfl

/-- The manifest and the table files give back all of the families but their memory tables. -/
def Rebuilt (s : DBImpl U) : Prop := s.rebuild = s.families.saved

lemma rebuilt_newDB (others : ℕ) : Rebuilt (DBImpl.newDB others : DBImpl U) := by
  have hcreated : ∀ n, ((List.range n).map fun id =>
      ({ cfCreation := true, redoLog := some (id, 0) } : VersionPatch U)).foldl
      VersionPatch.apply .empty = ⟨n, fun _ => .new⟩ := by
    intro n
    induction n with
    | zero => rfl
    | succ n ih =>
      rw [range_succ, map_append, foldl_append, ih]
      refine congrArg (ColumnFamilySet.mk (n + 1)) (funext fun id => ?_)
      by_cases hid : id = n
      · simp [hid, VersionPatch.applyTo, ColumnFamilySet.newColumnFamily, ColumnFamily.new]
      · simp [Ne.symm hid, VersionPatch.applyTo, ColumnFamilySet.newColumnFamily]
  rw [Rebuilt, DBImpl.rebuild, DBImpl.newDB, foldl_append, hcreated]
  rfl

/-- Families are created before the log is switched. -/
def CreatesFirst (s : DBImpl U) (a : Action U) : Prop := a = .newColumnFamily → s.logFileNumber = 0

lemma Rebuilt.step (h : Rebuilt s) (hfirst : CreatesFirst s a) (hs : step s a = some t) :
    Rebuilt t := by
  cases a with
  | write batch =>
    obtain ⟨-, rfl⟩ := write_cases hs
    exact h
  | makeRoomForWrite id =>
    obtain ⟨-, -, rfl⟩ := makeRoomForWrite_cases hs
    refine (rebuild_logAndApply _).trans (h.trans (saved_modify_memory ?_ id).symm)
    exact fun _ => rfl
  | compactMemoryTable id =>
    obtain ⟨-, table, -, rfl⟩ := compactMemoryTable_cases hs
    refine (rebuild_logAndApply _).trans ((congrArg (VersionPatch.apply · _) h).trans
      ((saved_apply _).symm.trans (saved_modify_memory ?_ id).symm))
    exact fun _ => rfl
  | deleteObsoleteFiles =>
    obtain rfl := Option.some.inj hs
    exact h
  | newColumnFamily =>
    obtain rfl := Option.some.inj hs
    have hzero : s.logFileNumber = 0 := hfirst rfl
    refine (rebuild_logAndApply _).trans
      ((congrArg (VersionPatch.apply · _) h).trans ((saved_apply _).symm.trans ?_))
    rw [DBImpl.newColumnFamily, hzero]
    refine congrArg (ColumnFamilySet.mk _) (funext fun id => congrArg ColumnFamily.saved ?_)
    by_cases hid : id = s.families.count
    · simp [hid, DBImpl.logAndApply, VersionPatch.apply, VersionPatch.applyTo,
        ColumnFamilySet.newColumnFamily, ColumnFamilySet.modify, ColumnFamily.new]
    · simp [hid, DBImpl.logAndApply, VersionPatch.apply, ColumnFamilySet.modify]
  | dropColumnFamily id =>
    obtain rfl := dropColumnFamily_cases hs
    exact (rebuild_logAndApply _).trans
      ((congrArg (VersionPatch.apply · _) h).trans (saved_apply _).symm)

/-- What the manifest and the table files hold is the state of the families without their memory
tables, at every moment of a run. -/
theorem manifest_rebuilds (others : ℕ) (as : List (Action U))
    (h : EachStep step CreatesFirst (.newDB others) as) :
    Always step Rebuilt (.newDB others) as :=
  always_of_eachStep (fun _ _ _ hc hi hs => hi.step hc hs) (rebuilt_newDB others) h

theorem manifest_rebuilds_flushOne : Always step Rebuilt (.newDB 1) flushOne :=
  manifest_rebuilds 1 flushOne (eachStep_of_forall fun a ha s heq => by simp [heq, flushOne] at ha)

lemma redoLogNumbers_eq (h : Rebuilt s) :
    s.redoLogNumbers = (List.range s.families.count).map fun id =>
      (s.families.get id).redoLogNumber := by
  rw [DBImpl.redoLogNumbers, h]
  rfl

structure Reachable (logs : List ℕ) (cur : ℕ) (f : ColumnFamily U) : Prop where
  redo : f.redoLogNumber ∈ logs
  bound : f.redoLogNumber ≤ cur
  tags : ∀ t ∈ f.pipeline, t.2 = cur

/-- The logs before the current one are not above all the redo logs. -/
structure ReopenInv (s : DBImpl U) : Prop where
  rebuilt : Rebuilt s
  current : s.logFileNumber ∈ s.logs
  next : s.logFileNumber < s.nextFileNumber
  number : s.redoLogNumber = s.logFileNumber
  families : ∀ id < s.families.count, Reachable s.logs s.logFileNumber (s.families.get id)
  history : ∀ n ∈ s.history, n = s.logFileNumber ∨ ∃ id < s.families.count,
    n ≤ (s.families.get id).redoLogNumber

lemma ReopenInv.reopens (h : ReopenInv s) : Reopens s := by
  intro n hn
  rw [DBImpl.numbers, mem_insertionSort, mem_dedup, mem_append, DBImpl.undumped,
    redoLogNumbers_eq h.rebuilt] at hn
  rcases hn with hn | hn
  · obtain ⟨id, hid, rfl⟩ := List.mem_map.mp hn
    exact (h.families id (mem_range.mp hid)).redo
  · obtain ⟨hn, hlt⟩ := mem_filter.mp hn
    rcases h.history n hn with rfl | ⟨id, hid, hle⟩
    · exact h.current
    · have hmem := List.mem_map_of_mem (f := fun id => (s.families.get id).redoLogNumber)
        (mem_range.mpr hid)
      exact absurd (le_max_of_le hmem hle) (not_le.mpr (of_decide_eq_true hlt))

lemma mem_history_logAndApply {patch : VersionPatch U} (hn : n ∈ (s.logAndApply patch).history) :
    n ∈ s.history ∨ n = patch.redoLogNumber.getD s.redoLogNumber := by
  rw [DBImpl.history, DBImpl.logAndApply, filterMap_append, mem_append] at hn
  exact hn.imp_right mem_singleton.mp

lemma ReopenInv.history_grows (h : ReopenInv s) {fs : ColumnFamilySet U}
    (hcount : s.families.count ≤ fs.count) (hgrows : ∀ id < s.families.count,
      (s.families.get id).redoLogNumber ≤ (fs.get id).redoLogNumber)
    (hn : n ∈ s.history ∨ n = s.redoLogNumber) :
    n = s.logFileNumber ∨ ∃ id < fs.count, n ≤ (fs.get id).redoLogNumber := by
  rcases hn with hn | rfl
  · refine (h.history n hn).imp_right fun hle => ?_
    obtain ⟨id, hid, hle⟩ := hle
    exact ⟨id, hid.trans_le hcount, hle.trans (hgrows id hid)⟩
  · exact Or.inl h.number

lemma reopenInv_newDB (others : ℕ) : ReopenInv (DBImpl.newDB others : DBImpl U) where
  rebuilt := rebuilt_newDB others
  current := mem_singleton.mpr rfl
  next := Nat.zero_lt_two
  number := rfl
  families _ _ := ⟨mem_singleton.mpr rfl, le_rfl, fun _ ht => absurd ht not_mem_nil⟩
  history n hn := by
    simp [DBImpl.history, DBImpl.newDB] at hn
    exact Or.inl hn

lemma ReopenInv.step (h : ReopenInv s) (hflushed : SwitchesFlushed s a) (hs : step s a = some t) :
    ReopenInv t := by
  have hrebuilt := h.rebuilt.step (fun heq => by subst heq; exact hflushed) hs
  have hget := step_get hs
  cases a with
  | write batch =>
    obtain ⟨-, rfl⟩ := write_cases hs
    exact ⟨hrebuilt, h.current, h.next, h.number,
      fun id hid => ⟨(h.families id hid).redo, (h.families id hid).bound, (h.families id hid).tags⟩,
      h.history⟩
  | makeRoomForWrite i =>
    obtain ⟨hi, -, rfl⟩ := makeRoomForWrite_cases hs
    have hredo : ∀ id, ((s.makeRoomForWrite i).families.get id).redoLogNumber =
        (s.families.get id).redoLogNumber := by
      intro id
      rw [hget, ColumnFamily.after]
      split_ifs <;> rfl
    refine ⟨hrebuilt, mem_append_right _ (mem_singleton.mpr rfl), Nat.lt_succ_self _, rfl,
      fun id hid => ?_, ?_⟩
    · refine ⟨mem_append_left _ (hredo id ▸ (h.families id hid).redo),
        hredo id ▸ (h.families id hid).bound.trans h.next.le, ?_⟩
      rw [hget, ColumnFamily.after]
      split_ifs
      · exact fun t ht => by rw [mem_singleton.mp ht]; rfl
      · rw [hflushed.2 id hid]
        exact fun t ht => absurd ht not_mem_nil
    · intro n hn
      rcases mem_history_logAndApply hn with hn | rfl
      · refine Or.inr ?_
        simp only [hredo]
        rcases h.history n hn with rfl | hle
        · obtain ⟨id, hid, hcur⟩ := hflushed.1
          exact ⟨id, hid, hcur.ge⟩
        · exact hle
      · exact Or.inl rfl
  | compactMemoryTable i =>
    obtain ⟨-, table, htable, rfl⟩ := compactMemoryTable_cases hs
    have hfamilies : ∀ id < s.families.count,
        Reachable s.logs s.logFileNumber ((s.families.get id).after s id (.compactMemoryTable i)) ∧
        (s.families.get id).redoLogNumber ≤
        ((s.families.get id).after s id (.compactMemoryTable i)).redoLogNumber := by
      intro id hid
      obtain ⟨hredo, hbound, htags⟩ := h.families id hid
      rw [ColumnFamily.after]
      split_ifs with hi
      · subst hi
        have htag := htags table (mem_of_mem_head? htable)
        simp only [htable, map_some, getD_some, htag]
        exact ⟨⟨h.current, le_rfl, fun t ht => htags t (mem_of_mem_tail ht)⟩, hbound⟩
      · exact ⟨⟨hredo, hbound, htags⟩, le_rfl⟩
    refine ⟨hrebuilt, h.current, h.next.trans (Nat.lt_succ_self _), h.number, fun id hid => ?_,
      fun n hn => ?_⟩
    · rw [hget]
      exact (hfamilies id hid).1
    · refine h.history_grows ?_ (fun id hid => ?_) (mem_history_logAndApply hn)
      · exact le_rfl
      · rw [hget]
        exact (hfamilies id hid).2
  | deleteObsoleteFiles =>
    obtain rfl := Option.some.inj hs
    exact ⟨hrebuilt, mem_deleteObsoleteFiles h.current (Or.inl rfl), h.next, h.number, fun id hid =>
      ⟨mem_deleteObsoleteFiles (h.families id hid).redo (Or.inr ⟨id, hid, rfl⟩),
        (h.families id hid).bound, (h.families id hid).tags⟩, h.history⟩
  | newColumnFamily =>
    obtain rfl := Option.some.inj hs
    have hold : ∀ id < s.families.count, s.newColumnFamily.families.get id = s.families.get id :=
      fun id hid =>
      (hget id).trans (if_neg hid.ne)
    refine ⟨hrebuilt, h.current, h.next, h.number, fun id hid => ?_, fun n hn => ?_⟩
    · rcases Nat.lt_succ_iff_lt_or_eq.mp hid with hid | rfl
      · rw [hold id hid]
        exact h.families id hid
      · rw [hget, ColumnFamily.after, if_pos rfl]
        exact ⟨h.current, le_rfl, fun _ ht => absurd ht not_mem_nil⟩
    · exact h.history_grows (Nat.le_succ _) (fun id hid => by rw [hold id hid])
        (mem_history_logAndApply hn)
  | dropColumnFamily i =>
    obtain rfl := dropColumnFamily_cases hs
    refine ⟨hrebuilt, h.current, h.next, h.number,
      fun id hid => ⟨(h.families id hid).redo, (h.families id hid).bound, (h.families id hid).tags⟩,
      fun n hn => ?_⟩
    exact h.history_grows le_rfl (fun _ _ => le_rfl) (mem_history_logAndApply hn)

/-- Every log that a recovery would replay is there, at every moment of a run. -/
theorem recovery_finds_logs (others : ℕ) (as : List (Action U))
    (h : EachStep step SwitchesFlushed (.newDB others) as) :
    Always step Reopens (.newDB others) as := by
  intro bs s hb hs
  exact (always_of_eachStep (fun s a t hc hi hs => hi.step hc hs) (reopenInv_newDB others) h bs s hb
    hs).reopens

instance decidableSwitchesFlushed (s : DBImpl U) (a : Action U) :
    Decidable (SwitchesFlushed s a) := by
  cases a <;> unfold SwitchesFlushed <;> infer_instance

theorem recovery_finds_logs_flushOne :
    EachStep step SwitchesFlushed (.newDB 1) flushOne ∧
      Always step Reopens (.newDB 1) flushOne := by
  have hflushed : EachStep step SwitchesFlushed (.newDB 1) flushOne :=
    eachStep_of_checkEach (by decide +kernel)
  exact ⟨hflushed, recovery_finds_logs 1 flushOne hflushed⟩

/-- The manifest has log 0 for a new family, but log 0 has been deleted. -/
theorem first_log_missed : ¬ Always step Reopens (.newDB 0)
    [.write [(0, ())], .makeRoomForWrite 0, .compactMemoryTable 0, .deleteObsoleteFiles,
      .newColumnFamily] := fun h =>
  absurd (h _ _ prefix_rfl rfl 0 (by decide)) (by decide)

structure FirstLog (s : DBImpl U) : Prop where
  rebuilt : Rebuilt s
  count : s.families.count ≠ 0
  logs : 0 ∈ s.logs
  current : s.logFileNumber = 0
  number : s.redoLogNumber = 0
  redo : ∀ id, (s.families.get id).redoLogNumber = 0
  records : ∀ r ∈ s.records, r.log = 0
  history : ∀ n ∈ s.history, n = 0

lemma firstLog_newDB (others : ℕ) : FirstLog (DBImpl.newDB others : DBImpl U) :=
  ⟨rebuilt_newDB others, Nat.succ_ne_zero _, mem_singleton.mpr rfl, rfl, rfl, fun _ => rfl,
    fun _ hr => absurd hr not_mem_nil, fun n hn => by simpa [DBImpl.history, DBImpl.newDB] using hn⟩

lemma FirstLog.step (h : FirstLog s) (ha : a.WritesOrDrops) (hs : step s a = some t) :
    FirstLog t := by
  have hrebuilt := h.rebuilt.step (fun heq => by subst heq; exact ha.elim) hs
  cases a with
  | write batch =>
    obtain ⟨-, rfl⟩ := write_cases hs
    refine ⟨hrebuilt, h.count, h.logs, h.current, h.number, h.redo, fun r hr => ?_, h.history⟩
    rcases mem_append.mp hr with hr | hr
    · exact h.records r hr
    · rw [mem_singleton.mp hr]
      exact h.current
  | dropColumnFamily id =>
    obtain rfl := dropColumnFamily_cases hs
    refine ⟨hrebuilt, h.count, h.logs, h.current, h.number, h.redo, h.records, fun n hn => ?_⟩
    exact (mem_history_logAndApply hn).elim (h.history n) fun heq => heq.trans h.number
  | makeRoomForWrite => exact ha.elim
  | compactMemoryTable => exact ha.elim
  | deleteObsoleteFiles => exact ha.elim
  | newColumnFamily => exact ha.elim

lemma FirstLog.numbers (h : FirstLog s) : s.numbers = [0] := by
  have hundumped : s.undumped = [] :=
    filter_eq_nil_iff.mpr fun n hn hlt => absurd (of_decide_eq_true hlt) (by simp [h.history n hn])
  have hredo : s.redoLogNumbers = List.replicate s.families.count 0 := by
    simp [redoLogNumbers_eq h.rebuilt, h.redo]
  rw [DBImpl.numbers, hundumped, hredo, append_nil, replicate_dedup h.count]
  rfl

lemma FirstLog.recovery (h : FirstLog s) : ∃ filter, s.recovery =
    if ∀ e ∈ s.entries, s.families.present e.1
      then some (s.families.saved.received 0 filter s.entries) else none := by
  have hrecords : s.records.filter (·.log = 0) = s.records :=
    filter_eq_self.mpr fun r hr => decide_eq_true (h.records r hr)
  refine ⟨0 ≠ s.maxNumber, ?_⟩
  rw [DBImpl.recovery, h.numbers, h.rebuilt, foldlM_cons, DBImpl.redo, if_pos h.logs, hrecords,
    foldlM_iterate]
  exact bind_pure _

/-- After writes and drops alone a recovery replays the logs exactly if no record names a dropped
family. -/
theorem replays_iff (others : ℕ) (as : List (Action U)) (hclosed : ∀ a ∈ as, a.WritesOrDrops)
    (hs : run step (.newDB others) as = some s) : Replays s ↔ NoneDropped s := by
  have hfirst := run_invariant (fun _ _ _ ha hi hs => hi.step ha hs) (firstLog_newDB others) hclosed
    hs
  obtain ⟨filter, hrecovery⟩ := hfirst.recovery
  rw [Replays, hrecovery]
  constructor
  · rintro ⟨fs, hfs, -⟩
    exact (ite_none_right_eq_some.mp hfs).1
  · intro hnone
    refine ⟨_, if_pos hnone, fun id _ => ?_⟩
    have hredo : (s.families.get id).saved.redoLogNumber = 0 := hfirst.redo id
    simp [ColumnFamilySet.received, ColumnFamilySet.saved, ColumnFamily.receive, hredo]
    rfl

theorem replays_iff_kept : ∃ s,
    run step (.newDB 2) [.write [(0, ()), (1, ())], .dropColumnFamily 2] = some s ∧ Replays s := by
  refine ⟨_, rfl, (replays_iff 2 [.write [(0, ()), (1, ())], .dropColumnFamily 2] ?_ rfl).mpr ?_⟩
  · simp [Action.WritesOrDrops]
  · unfold NoneDropped
    decide

/-- The handler uses the null pointer of the dropped family. -/
theorem dropped_replayed :
    ∃ s, run step (.newDB 1) [.write [(0, ()), (1, ())], .dropColumnFamily 1] = some s ∧
    s.recovery.isNone ∧ ¬ Replays s := by
  refine ⟨_, rfl, by decide, ?_⟩
  rintro ⟨fs, hfs, -⟩
  exact some_ne_none fs hfs.symm

end Mai.DbRedoLogs
