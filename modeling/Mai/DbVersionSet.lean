import Mai.DbColumnFamily

/-! The set of column families and the version set, which applies patches to the families and logs
them to a manifest file (`db/column-family.h`, `db/column-family.cc`, `db/version.cc`). -/
namespace Mai.DbVersionSet
open CoreKeys DbVersion DbColumnFamily Function

variable {K : Type*} [LinearOrder K]

lemma map_eq_ok {ε α β : Type*} {x : Except ε α} {f : α → β} {b : β} :
    x.map f = .ok b ↔ ∃ a, x = .ok a ∧ f a = b := by
  cases x <;> simp [Except.map]

def insertAbsent {α β : Type*} [DecidableEq α] (m : α → Option β) (a : α) (b : β) : α → Option β :=
  if (m a).isSome then m else update m a (some b)

structure ColumnFamilySet (K : Type*) [LinearOrder K] where
  impls : List (ColumnFamilyImpl K)
  columnFamilies : String → Option ℕ
  columnFamilyImpls : ℕ → Option ℕ
  maxColumnFamily : ℕ
  defaultCfd : Option ℕ

namespace ColumnFamilySet

def empty : ColumnFamilySet K := ⟨[], fun _ => none, fun _ => none, 0, none⟩

def getColumnFamily (s : ColumnFamilySet K) (id : ℕ) : Option ℕ := s.columnFamilyImpls id

def dereference (s : ColumnFamilySet K) (id : ℕ) : Except Error ℕ :=
  match s.getColumnFamily id with
  | some p => .ok p
  | none => .error (.nullColumnFamily id)

def newColumnFamily (s : ColumnFamilySet K) (options : ColumnFamilyOptions) (name : String)
    (id : ℕ) :
    ColumnFamilySet K where
  impls := s.impls ++ [ColumnFamilyImpl.new name id options]
  columnFamilies := insertAbsent s.columnFamilies name id
  columnFamilyImpls := insertAbsent s.columnFamilyImpls id s.impls.length
  maxColumnFamily := max id s.maxColumnFamily
  defaultCfd := if id = 0 then some s.impls.length else s.defaultCfd

def modify (s : ColumnFamilySet K) (p : ℕ) (f : ColumnFamilyImpl K → ColumnFamilyImpl K) :
    ColumnFamilySet K :=
  { s with impls := s.impls.modify p f }

/-- `ColumnFamilyImpl::Drop` with `ColumnFamilySet::RemoveColumnFamily`. -/
def drop (s : ColumnFamilySet K) (p : ℕ) : ColumnFamilySet K :=
  match s.impls[p]? with
  | none => s
  | some cfd => { s.modify p (fun c => { c with dropped := true }) with
      columnFamilies := update s.columnFamilies cfd.name none
      columnFamilyImpls := update s.columnFamilyImpls cfd.id none }

end ColumnFamilySet

section Registry
variable {s : ColumnFamilySet K}

lemma getElem?_modify_some {α : Type*} {l : List α} {f : α → α} {p q : ℕ} {b : α} :
    (l.modify p f)[q]? = some b ↔ ∃ a, l[q]? = some a ∧ b = if p = q then f a else a := by
  rw [List.getElem?_modify]
  cases l[q]? <;> simp [eq_comm]

lemma drop_impls {p : ℕ} {cfd : ColumnFamilyImpl K} (hp : s.impls[p]? = some cfd) :
    (s.drop p).impls = s.impls.modify p fun c => { c with dropped := true } := by
  simp only [ColumnFamilySet.drop, hp, ColumnFamilySet.modify]

end Registry

def dropColumnFamily (s : ColumnFamilySet K) (patch : VersionPatch K) :
    Except Error (ColumnFamilySet K) :=
  match patch.cfDeletion with
  | none => .ok s
  | some id => (s.dereference id).map s.drop

def setRedoLog (s : ColumnFamilySet K) (patch : VersionPatch K) :
    Except Error (ColumnFamilySet K) :=
  match patch.redoLog with
  | none => .ok s
  | some r => (s.dereference r.cfid).map fun p => s.modify p fun c =>
    { c with redoLogNumber := r.number }

def changesFiles (patch : VersionPatch K) : Bool :=
  !patch.fileDeletion.isEmpty || !patch.fileCreation.isEmpty

/-- `VersionBuilder::Prepare`: the first family named by a created or deleted file. -/
def prepare (s : ColumnFamilySet K) (patch : VersionPatch K) : Option ℕ :=
  (patch.fileCreation.map FileCreation.cfid ++ patch.fileDeletion.map FileDeletion.cfid).findSome?
    s.getColumnFamily

def applyFiles (s : ColumnFamilySet K) (patch : VersionPatch K) :
    Except Error (ColumnFamilySet K) :=
  if changesFiles patch then
    match prepare s patch with
    | none => .error .unsetVersion
    | some p => .ok (s.modify p fun c => c.append (c.current.build patch))
  else .ok s

structure VersionSet (K : Type*) [LinearOrder K] where
  columnFamilies : ColumnFamilySet K
  lastSequenceNumber : ℕ
  nextFileNumber : ℕ
  prevLogNumber : ℕ
  redoLogNumber : ℕ
  manifestFileNumber : ℕ
  /-- Whether the manifest file is open for writing. -/
  logFile : Bool

structure Manifests (K : Type*) where
  files : ℕ → Option (List (VersionPatch K))
  current : Option ℕ

def Manifests.empty : Manifests K := ⟨fun _ => none, none⟩

namespace VersionSet

def new : VersionSet K := ⟨ColumnFamilySet.empty, 0, 0, 0, 0, 0, false⟩

def writePatch (v : VersionSet K) (disk : Manifests K) (patch : VersionPatch K) : Manifests K :=
  { disk with
    files := update disk.files v.manifestFileNumber
      (some ((disk.files v.manifestFileNumber).getD [] ++ [patch])) }

def snapshotPatch (cfd : ColumnFamilyImpl K) : VersionPatch K where
  cfCreation := some ⟨cfd.id, cfd.name, cfd.options.comparatorName⟩
  redoLog := some ⟨cfd.id, cfd.redoLogNumber⟩
  fileCreation := (List.range kMaxLevel).flatMap fun i => (cfd.current.files i).map fun f =>
    ⟨cfd.id, i, f⟩

def numbersPatch (v : VersionSet K) : VersionPatch K where
  maxColumnFamily := some v.columnFamilies.maxColumnFamily
  lastSequenceNumber := some v.lastSequenceNumber
  nextFileNumber := some v.nextFileNumber
  redoLogNumber := some v.redoLogNumber
  prevLogNumber := some v.prevLogNumber

def registerFamily (v : VersionSet K) (options : ColumnFamilyOptions) (patch : VersionPatch K) :
    ColumnFamilySet K :=
  match patch.cfCreation with
  | none => v.columnFamilies
  | some c => v.columnFamilies.newColumnFamily options c.name c.cfid

def completePatch (v : VersionSet K) (families : ColumnFamilySet K) (patch : VersionPatch K) :
    VersionPatch K :=
  { patch with
    redoLogNumber := some (patch.redoLogNumber.getD v.redoLogNumber)
    prevLogNumber := some (patch.prevLogNumber.getD v.prevLogNumber)
    nextFileNumber := some v.nextFileNumber
    lastSequenceNumber := some v.lastSequenceNumber
    maxColumnFamily := match patch.cfCreation with
      | none => patch.maxColumnFamily
      | some _ => some families.maxColumnFamily }

end VersionSet

end Mai.DbVersionSet
