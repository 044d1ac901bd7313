import Mai.DbVersion

/-! Column families: their memory tables, the queue of tables waiting for a flush, the
current version and the choice of files for a compaction (`db/column-family.h`,
`db/column-family.cc`, `db/compaction.h`). -/
namespace Mai.DbColumnFamily
open CoreKeys CoreMemoryTable DbVersion

variable {K : Type*} [LinearOrder K]

structure ColumnFamilyOptions where
  comparatorName : String
  deriving DecidableEq, Repr

structure ColumnFamilyImpl (K : Type*) [LinearOrder K] where
  name : String
  id : ℕ
  options : ColumnFamilyOptions
  dropped : Bool
  initialized : Bool
  current : Version K
  mutableTable : MemoryTable K
  immutablePipeline : PipelineQueue (MemoryTable K)
  compactionPoint : ℕ → Option (InternalKey K)
  redoLogNumber : ℕ

namespace ColumnFamilyImpl

def new (name : String) (id : ℕ) (options : ColumnFamilyOptions) : ColumnFamilyImpl K where
  name := name
  id := id
  options := options
  dropped := false
  initialized := false
  current := Version.empty
  mutableTable := MemoryTable.empty
  immutablePipeline := ⟨[]⟩
  compactionPoint := fun _ => none
  redoLogNumber := 0

def append (cfd : ColumnFamilyImpl K) (version : Version K) : ColumnFamilyImpl K :=
  { cfd with current := version }

end ColumnFamilyImpl

end Mai.DbColumnFamily
