import Mai.DbVersion

/-! The bytes of the records of a manifest (`VersionPatch::Encode`), each field cut to the type that
it has in the source. -/
namespace Mai.DbManifestBytes
open ByteCodec CoreKeys DbVersion

def getV32 (n : UInt32) : Bytes := toVarint n.toNat
def getV64 (n : UInt64) : Bytes := toVarint n.toNat
def getString (s : Bytes) : Bytes := getV64 (.ofNat s.length) ++ s

def stringBytes (s : String) : Bytes := s.toUTF8.toList

inductive Field
  | lastSequenceNumber
  | nextFileNumber
  | redoLogNumber
  | redoLog
  | prevLogNumber
  | compactionPoint
  | deletion
  | creation
  | maxColumnFamily
  | addColumnFamily
  | dropColumnFamily
  deriving DecidableEq, Repr

def Field.toByte : Field → UInt8
  | lastSequenceNumber => 0
  | nextFileNumber => 1
  | redoLogNumber => 2
  | redoLog => 3
  | prevLogNumber => 4
  | compactionPoint => 5
  | deletion => 6
  | creation => 7
  | maxColumnFamily => 8
  | addColumnFamily => 9
  | dropColumnFamily => 10

def encodeField {α : Type} (field : Field) (encode : α → Bytes) : Option α → Bytes
  | none => []
  | some a => field.toByte :: encode a

def encodeCreation (c : FileCreation Bytes) : Bytes :=
  Field.creation.toByte :: getV32 (.ofNat c.cfid) ++ getV32 (.ofNat c.level) ++
    getV64 (.ofNat c.fileMetadata.number) ++ getString (keyBytes c.fileMetadata.largestKey) ++
    getString (keyBytes c.fileMetadata.smallestKey) ++ getV64 (.ofNat c.fileMetadata.size) ++
    getV64 (.ofNat c.fileMetadata.ctime)

def encodeDeletion (d : FileDeletion) : Bytes :=
  Field.deletion.toByte :: getV32 (.ofNat d.cfid) ++ getV32 (.ofNat d.level) ++
    getV64 (.ofNat d.number)

def encode (patch : VersionPatch Bytes) : Bytes :=
  encodeField .prevLogNumber (fun n => getV64 (.ofNat n)) patch.prevLogNumber ++
  encodeField .redoLog (fun r => getV32 (.ofNat r.cfid) ++ getV64 (.ofNat r.number))
  patch.redoLog ++
  encodeField .nextFileNumber (fun n => getV64 (.ofNat n)) patch.nextFileNumber ++
  encodeField .lastSequenceNumber (fun n => getV64 (.ofNat n)) patch.lastSequenceNumber ++
  encodeField .redoLogNumber (fun n => getV64 (.ofNat n)) patch.redoLogNumber ++
  encodeField .maxColumnFamily (fun n => getV32 (.ofNat n)) patch.maxColumnFamily ++
  encodeField .addColumnFamily (fun c => getV32 (.ofNat c.cfid) ++ getString (stringBytes c.name) ++
    getString (stringBytes c.comparatorName)) patch.cfCreation ++
  encodeField .dropColumnFamily (fun n => getV64 (.ofNat n)) patch.cfDeletion ++
  encodeField .compactionPoint (fun p => getV32 (.ofNat p.cfid) ++ getV32 (.ofNat p.level) ++
    getString (keyBytes p.key)) patch.compactionPoint ++
  patch.fileCreation.flatMap encodeCreation ++
  patch.fileDeletion.flatMap encodeDeletion

end Mai.DbManifestBytes
