import Mai.DbManifestBytes
import Mai.TxnWriteBatch

/-! The codec of version patches (`VersionPatch::Encode`, `VersionPatch::Decode`), with the types of
the fields. -/
namespace Mai.DbPatchCodec
open ByteCodec CoreKeys DbVersion TxnWriteBatch
open DbManifestBytes (Field getV32 getV64 encodeField)

structure RedoLog where
  cfid : UInt32
  number : UInt64
  deriving DecidableEq, Repr

structure CompactionPoint where
  cfid : UInt32
  level : Int32
  key : Bytes
  deriving DecidableEq, Repr

structure CFCreation where
  cfid : UInt32
  name : Bytes
  comparatorName : Bytes
  deriving DecidableEq, Repr

structure FileDeletion where
  cfid : UInt32
  level : Int32
  number : UInt64
  deriving DecidableEq, Repr

structure FileMetaData where
  number : UInt64
  smallestKey : Bytes
  largestKey : Bytes
  size : UInt64
  ctime : UInt64
  deriving DecidableEq, Repr

structure FileCreation where
  cfid : UInt32
  level : Int32
  fileMetadata : FileMetaData
  deriving DecidableEq, Repr

/-- A field that is not set is `none`; the bits of the two collections are set when they are not
empty. -/
structure Patch where
  lastSequenceNumber : Option UInt64 := none
  nextFileNumber : Option UInt64 := none
  redoLogNumber : Option UInt64 := none
  redoLog : Option RedoLog := none
  prevLogNumber : Option UInt64 := none
  compactionPoint : Option CompactionPoint := none
  fileDeletion : List FileDeletion := []
  fileCreation : List FileCreation := []
  maxColumnFamily : Option UInt32 := none
  cfCreation : Option CFCreation := none
  cfDeletion : Option UInt32 := none
  deriving DecidableEq, Repr

def FileCreation.encode (c : FileCreation) : Bytes :=
  Field.creation.toByte ::
    (getV32 c.cfid ++ getV32 c.level.toUInt32 ++ getV64 c.fileMetadata.number ++
    writeString c.fileMetadata.largestKey ++ writeString c.fileMetadata.smallestKey ++
    getV64 c.fileMetadata.size ++
    getV64 c.fileMetadata.ctime)

def FileDeletion.encode (d : FileDeletion) : Bytes :=
  Field.deletion.toByte :: (getV32 d.cfid ++ getV32 d.level.toUInt32 ++ getV64 d.number)

/-- `VersionPatch::Encode`; the id of a dropped family is written as a 64-bit number. -/
def Patch.encode (p : Patch) : Bytes :=
  encodeField .prevLogNumber getV64 p.prevLogNumber ++
  encodeField .redoLog (fun r => getV32 r.cfid ++ getV64 r.number) p.redoLog ++
  encodeField .nextFileNumber getV64 p.nextFileNumber ++
  encodeField .lastSequenceNumber getV64 p.lastSequenceNumber ++
  encodeField .redoLogNumber getV64 p.redoLogNumber ++
  encodeField .maxColumnFamily getV32 p.maxColumnFamily ++
  encodeField .addColumnFamily
  (fun c => getV32 c.cfid ++ writeString c.name ++ writeString c.comparatorName)
    p.cfCreation ++
  encodeField .dropColumnFamily (fun cfid => getV64 cfid.toUInt64) p.cfDeletion ++
  encodeField .compactionPoint
  (fun c => getV32 c.cfid ++ getV32 c.level.toUInt32 ++ writeString c.key)
    p.compactionPoint ++
  p.fileCreation.flatMap FileCreation.encode ++
  p.fileDeletion.flatMap FileDeletion.encode

def readUInt32 (rd : Bytes) : UInt32 × Bytes :=
  let (n, rd) := readVarint64 rd
  (UInt32.ofNat n, rd)

def readUInt64 (rd : Bytes) : UInt64 × Bytes :=
  let (n, rd) := readVarint64 rd
  (UInt64.ofNat n, rd)

def Patch.decodeField (p : Patch) (rd : Bytes) : Patch × Bytes :=
  let (field, rd) := readByte rd
  if field = Field.prevLogNumber.toByte then
    let (number, rd) := readUInt64 rd
    ({ p with prevLogNumber := some number }, rd)
  else if field = Field.redoLog.toByte then
    let (cfid, rd) := readUInt32 rd
    let (number, rd) := readUInt64 rd
    ({ p with redoLog := some ⟨cfid, number⟩ }, rd)
  else if field = Field.nextFileNumber.toByte then
    let (number, rd) := readUInt64 rd
    ({ p with nextFileNumber := some number }, rd)
  else if field = Field.maxColumnFamily.toByte then
    let (cfid, rd) := readUInt32 rd
    ({ p with maxColumnFamily := some cfid }, rd)
  else if field = Field.lastSequenceNumber.toByte then
    let (number, rd) := readUInt64 rd
    ({ p with lastSequenceNumber := some number }, rd)
  else if field = Field.redoLogNumber.toByte then
    let (number, rd) := readUInt64 rd
    ({ p with redoLogNumber := some number }, rd)
  else if field = Field.compactionPoint.toByte then
    let (cfid, rd) := readUInt32 rd
    let (level, rd) := readUInt32 rd
    let (key, rd) := readString rd
    ({ p with compactionPoint := some ⟨cfid, level.toInt32, key⟩ }, rd)
  else if field = Field.addColumnFamily.toByte then
    let (cfid, rd) := readUInt32 rd
    let (name, rd) := readString rd
    let (comparator, rd) := readString rd
    ({ p with cfCreation := some ⟨cfid, name, comparator⟩ }, rd)
  else if field = Field.dropColumnFamily.toByte then
    let (cfid, rd) := readUInt32 rd
    ({ p with cfDeletion := some cfid }, rd)
  else if field = Field.deletion.toByte then
    let (cfid, rd) := readUInt32 rd
    let (level, rd) := readUInt32 rd
    let (number, rd) := readUInt64 rd
    ({ p with fileDeletion := p.fileDeletion ++ [⟨cfid, level.toInt32, number⟩] }, rd)
  else if field = Field.creation.toByte then
    let (cfid, rd) := readUInt32 rd
    let (level, rd) := readUInt32 rd
    let (number, rd) := readUInt64 rd
    let (largestKey, rd) := readString rd
    let (smallestKey, rd) := readString rd
    let (size, rd) := readUInt64 rd
    let (ctime, rd) := readUInt64 rd
    ({ p with fileCreation := p.fileCreation ++ [⟨cfid, level.toInt32, number, smallestKey,
      largestKey, size, ctime⟩] }, rd)
  else (p, rd)

def Patch.decode (p : Patch) (buf : Bytes) : Patch := readToEnd Patch.decodeField p buf

inductive Record
  | prevLogNumber (number : UInt64)
  | redoLog (r : RedoLog)
  | nextFileNumber (number : UInt64)
  | lastSequenceNumber (number : UInt64)
  | redoLogNumber (number : UInt64)
  | maxColumnFamily (cfid : UInt32)
  | cfCreation (c : CFCreation)
  | cfDeletion (cfid : UInt32)
  | compactionPoint (c : CompactionPoint)
  | fileCreation (c : FileCreation)
  | fileDeletion (d : FileDeletion)

def Record.encode : Record → Bytes
  | .prevLogNumber number => Field.prevLogNumber.toByte :: getV64 number
  | .redoLog r => Field.redoLog.toByte :: (getV32 r.cfid ++ getV64 r.number)
  | .nextFileNumber number => Field.nextFileNumber.toByte :: getV64 number
  | .lastSequenceNumber number => Field.lastSequenceNumber.toByte :: getV64 number
  | .redoLogNumber number => Field.redoLogNumber.toByte :: getV64 number
  | .maxColumnFamily cfid => Field.maxColumnFamily.toByte :: getV32 cfid
  | .cfCreation c =>
    Field.addColumnFamily.toByte ::
      (getV32 c.cfid ++ writeString c.name ++ writeString c.comparatorName)
  | .cfDeletion cfid => Field.dropColumnFamily.toByte :: getV64 cfid.toUInt64
  | .compactionPoint c =>
    Field.compactionPoint.toByte :: (getV32 c.cfid ++ getV32 c.level.toUInt32 ++ writeString c.key)
  | .fileCreation c => c.encode
  | .fileDeletion d => d.encode

def Patch.set (p : Patch) : Record → Patch
  | .prevLogNumber number => { p with prevLogNumber := some number }
  | .redoLog r => { p with redoLog := some r }
  | .nextFileNumber number => { p with nextFileNumber := some number }
  | .lastSequenceNumber number => { p with lastSequenceNumber := some number }
  | .redoLogNumber number => { p with redoLogNumber := some number }
  | .maxColumnFamily cfid => { p with maxColumnFamily := some cfid }
  | .cfCreation c => { p with cfCreation := some c }
  | .cfDeletion cfid => { p with cfDeletion := some cfid }
  | .compactionPoint c => { p with compactionPoint := some c }
  | .fileCreation c => { p with fileCreation := p.fileCreation ++ [c] }
  | .fileDeletion d => { p with fileDeletion := p.fileDeletion ++ [d] }

def Patch.records (p : Patch) : List Record :=
  (p.prevLogNumber.map Record.prevLogNumber).toList ++ (p.redoLog.map Record.redoLog).toList ++
  (p.nextFileNumber.map Record.nextFileNumber).toList ++
  (p.lastSequenceNumber.map Record.lastSequenceNumber).toList ++
  (p.redoLogNumber.map Record.redoLogNumber).toList ++
  (p.maxColumnFamily.map Record.maxColumnFamily).toList ++
  (p.cfCreation.map Record.cfCreation).toList ++ (p.cfDeletion.map Record.cfDeletion).toList ++
  (p.compactionPoint.map Record.compactionPoint).toList ++ p.fileCreation.map Record.fileCreation ++
  p.fileDeletion.map Record.fileDeletion

lemma flatMap_toList {α : Type} (field : Field) (encode : α → Bytes) (record : α → Record)
    (h : ∀ a, (record a).encode = field.toByte :: encode a) (o : Option α) :
    (o.map record).toList.flatMap Record.encode = encodeField field encode o := by
  cases o <;> simp [encodeField, h]

lemma encode_eq_records (p : Patch) : p.encode = p.records.flatMap Record.encode := by
  simp only [Patch.records, List.flatMap_append, List.flatMap_map]
  rw [flatMap_toList .prevLogNumber getV64 _ fun _ => rfl, flatMap_toList .redoLog _ _ fun _ => rfl,
    flatMap_toList .nextFileNumber getV64 _ fun _ => rfl,
    flatMap_toList .lastSequenceNumber getV64 _ fun _ => rfl, flatMap_toList .redoLogNumber getV64
    _ fun _ => rfl, flatMap_toList .maxColumnFamily getV32 _ fun _ => rfl, flatMap_toList
    .addColumnFamily _ _ fun _ => rfl, flatMap_toList .dropColumnFamily _ _ fun _ => rfl,
    flatMap_toList .compactionPoint _ _ fun _ => rfl]
  rfl

lemma foldl_toList {α : Type} (record : α → Record) (update : Patch → Option α → Patch)
    (h : ∀ p a, p.set (record a) = update p (some a)) (o : Option α) {p : Patch}
    (hp : update p none = p) :
    (o.map record).toList.foldl Patch.set p = update p o := by
  cases o with
  | none => exact hp.symm
  | some a => exact h p a

lemma foldl_fileCreation (l : List FileCreation) (p : Patch) :
    (l.map Record.fileCreation).foldl Patch.set p =
      { p with fileCreation := p.fileCreation ++ l } := by
  induction l generalizing p with
  | nil => simp
  | cons c l ih => simp [Patch.set, ih]

lemma foldl_fileDeletion (l : List FileDeletion) (p : Patch) :
    (l.map Record.fileDeletion).foldl Patch.set p =
      { p with fileDeletion := p.fileDeletion ++ l } := by
  induction l generalizing p with
  | nil => simp
  | cons d l ih => simp [Patch.set, ih]

lemma foldl_records (p : Patch) : p.records.foldl Patch.set {} = p := by
  simp only [Patch.records, List.foldl_append]
  rw [foldl_toList Record.prevLogNumber (fun p o => { p with prevLogNumber := o }) fun _ _ => rfl,
    foldl_toList Record.redoLog (fun p o => { p with redoLog := o }) fun _ _ => rfl,
    foldl_toList Record.nextFileNumber (fun p o => { p with nextFileNumber := o }) fun _ _ => rfl,
    foldl_toList Record.lastSequenceNumber (fun p o => { p with lastSequenceNumber := o })
    fun _ _ => rfl, foldl_toList Record.redoLogNumber (fun p o => { p with redoLogNumber := o })
    fun _ _ => rfl, foldl_toList Record.maxColumnFamily (fun p o => { p with maxColumnFamily := o })
    fun _ _ => rfl, foldl_toList Record.cfCreation (fun p o => { p with cfCreation := o })
    fun _ _ => rfl, foldl_toList Record.cfDeletion (fun p o => { p with cfDeletion := o })
    fun _ _ => rfl, foldl_toList Record.compactionPoint (fun p o => { p with compactionPoint := o })
    fun _ _ => rfl, foldl_fileCreation, foldl_fileDeletion]
  all_goals rfl

lemma readUInt32_getV32 (n : UInt32) (rest : Bytes) :
    readUInt32 (getV32 n ++ rest) = (n, rest) := by
  simp only [readUInt32, getV32, readVarint64_toVarint, UInt32.ofNat_toNat]

lemma readUInt64_getV64 (n : UInt64) (rest : Bytes) :
    readUInt64 (getV64 n ++ rest) = (n, rest) := by
  simp only [readUInt64, getV64, readVarint64_toVarint, UInt64.ofNat_toNat]

lemma readUInt32_getV64 (n : UInt32) (rest : Bytes) :
    readUInt32 (getV64 n.toUInt64 ++ rest) = (n, rest) := by
  simp only [readUInt32, getV64, readVarint64_toVarint, UInt32.toNat_toUInt64, UInt32.ofNat_toNat]

lemma readByte_cons (b : UInt8) (rest : Bytes) : readByte (b :: rest) = (b, rest) := rfl

lemma decodeField_encode (r : Record) (p : Patch) (rest : Bytes) :
    p.decodeField (r.encode ++ rest) = (p.set r, rest) := by
  cases r <;>
    simp [Record.encode, FileCreation.encode, FileDeletion.encode, Patch.decodeField, Patch.set,
      readByte_cons, Field.toByte, readUInt32_getV32, readUInt64_getV64, readUInt32_getV64,
      readString_writeString]

lemma Record.encode_ne_nil (r : Record) : r.encode ≠ [] := by
  cases r <;> simp [Record.encode, FileCreation.encode, FileDeletion.encode]

lemma decode_eq_foldl (p q : Patch) : Patch.decode q p.encode = p.records.foldl Patch.set q := by
  rw [Patch.decode, encode_eq_records, readToEnd_flatMap (fun r _ => r.encode_ne_nil)
    fun r _ p rest => decodeField_encode r p rest]

/-- Decoding what a patch was encoded to gives the patch. -/
theorem patchDecode_encode (p : Patch) : Patch.decode {} p.encode = p :=
  (decode_eq_foldl p {}).trans (foldl_records p)

section Manifest
open DbManifestBytes (stringBytes getString)

def FileCreation.ofVersion (c : DbVersion.FileCreation Bytes) : FileCreation :=
  ⟨UInt32.ofNat c.cfid, Int32.ofNat c.level, UInt64.ofNat c.fileMetadata.number,
    keyBytes c.fileMetadata.smallestKey, keyBytes c.fileMetadata.largestKey,
    UInt64.ofNat c.fileMetadata.size, UInt64.ofNat c.fileMetadata.ctime⟩

def FileDeletion.ofVersion (d : DbVersion.FileDeletion) : FileDeletion :=
  ⟨UInt32.ofNat d.cfid, Int32.ofNat d.level, UInt64.ofNat d.number⟩

def Patch.ofVersionPatch (p : VersionPatch Bytes) : Patch where
  lastSequenceNumber := p.lastSequenceNumber.map UInt64.ofNat
  nextFileNumber := p.nextFileNumber.map UInt64.ofNat
  redoLogNumber := p.redoLogNumber.map UInt64.ofNat
  redoLog := p.redoLog.map fun r => ⟨UInt32.ofNat r.cfid, UInt64.ofNat r.number⟩
  prevLogNumber := p.prevLogNumber.map UInt64.ofNat
  compactionPoint := p.compactionPoint.map fun c =>
    ⟨UInt32.ofNat c.cfid, Int32.ofNat c.level, keyBytes c.key⟩
  fileDeletion := p.fileDeletion.map FileDeletion.ofVersion
  fileCreation := p.fileCreation.map FileCreation.ofVersion
  maxColumnFamily := p.maxColumnFamily.map UInt32.ofNat
  cfCreation := p.cfCreation.map fun c =>
    ⟨UInt32.ofNat c.cfid, stringBytes c.name, stringBytes c.comparatorName⟩
  cfDeletion := p.cfDeletion.map UInt32.ofNat

structure Typed (p : VersionPatch Bytes) : Prop where
  cfDeletion : ∀ cfid ∈ p.cfDeletion, cfid < 2 ^ 32
  compactionPoint : ∀ c ∈ p.compactionPoint, (keyBytes c.key).length < 2 ^ 64
  cfCreation : ∀ c ∈ p.cfCreation, (stringBytes c.name).length < 2 ^ 64 ∧
    (stringBytes c.comparatorName).length < 2 ^ 64
  fileCreation : ∀ c ∈ p.fileCreation, (keyBytes c.fileMetadata.smallestKey).length < 2 ^ 64 ∧
    (keyBytes c.fileMetadata.largestKey).length < 2 ^ 64

lemma getV64_toUInt64 {n : ℕ} (h : n < 2 ^ 32) :
    getV64 (UInt32.ofNat n).toUInt64 = getV64 (UInt64.ofNat n) := by
  rw [getV64, UInt32.toNat_toUInt64, UInt32.toNat_ofNat_of_lt' h, getV64,
    UInt64.toNat_ofNat_of_lt' (h.trans (by decide))]

lemma writeString_eq {s : Bytes} (h : s.length < 2 ^ 64) : writeString s = getString s := by
  rw [writeString, getString, getV64, UInt64.toNat_ofNat_of_lt' h]

lemma encode_creation {c : DbVersion.FileCreation Bytes}
    (h : (keyBytes c.fileMetadata.smallestKey).length < 2 ^ 64 ∧
      (keyBytes c.fileMetadata.largestKey).length < 2 ^ 64) :
    (FileCreation.ofVersion c).encode = DbManifestBytes.encodeCreation c := by
  simp only [FileCreation.encode, FileCreation.ofVersion, writeString_eq h.1, writeString_eq h.2]
  rfl

lemma encodeField_map {α β : Type} (field : Field) (encode : β → Bytes) {encode' : α → Bytes}
    {f : α → β} {o : Option α} (h : ∀ a ∈ o, encode (f a) = encode' a) :
    encodeField field encode (o.map f) = encodeField field encode' o := by
  cases o with
  | none => rfl
  | some a => simp [encodeField, h a rfl]

lemma flatMap_map {α β : Type} {encode : β → Bytes} {encode' : α → Bytes} {f : α → β} {l : List α}
    (h : ∀ a ∈ l, encode (f a) = encode' a) : (l.map f).flatMap encode = l.flatMap encode' := by
  rw [List.flatMap_map]
  exact List.flatMap_congr h

lemma encode_ofVersionPatch {p : VersionPatch Bytes} (h : Typed p) :
    (Patch.ofVersionPatch p).encode = DbManifestBytes.encode p := by
  rw [Patch.encode, DbManifestBytes.encode]
  simp only [Patch.ofVersionPatch]
  rw [encodeField_map .prevLogNumber _ fun _ _ => rfl, encodeField_map .redoLog _ fun _ _ => rfl,
    encodeField_map .nextFileNumber _ fun _ _ => rfl,
    encodeField_map .lastSequenceNumber _ fun _ _ => rfl,
    encodeField_map .redoLogNumber _ fun _ _ => rfl,
    encodeField_map .maxColumnFamily _ fun _ _ => rfl,
    encodeField_map .addColumnFamily _ fun c hc => by
      rw [writeString_eq (h.cfCreation c hc).1, writeString_eq (h.cfCreation c hc).2],
    encodeField_map .dropColumnFamily (fun cfid : UInt32 => getV64 cfid.toUInt64) fun n hn =>
      getV64_toUInt64 (h.cfDeletion n hn),
    encodeField_map .compactionPoint _ fun c hc => by rw [writeString_eq (h.compactionPoint c hc)],
    flatMap_map fun c hc => encode_creation (h.fileCreation c hc), flatMap_map fun _ _ => rfl]
  rfl

/-- `Recovery` decodes the patch that `LogAndApply` wrote. -/
theorem decode_manifestRecord {p : VersionPatch Bytes} (h : Typed p) :
    Patch.decode {} (DbManifestBytes.encode p) = Patch.ofVersionPatch p := by
  rw [← encode_ofVersionPatch h]
  exact (decode_eq_foldl _ _).trans (foldl_records _)

theorem decode_manifestRecord_drop :
    Patch.decode {} (DbManifestBytes.encode { redoLogNumber := some 4, cfDeletion := some 2 }) =
    { redoLogNumber := some 4, cfDeletion := some 2 } :=
  decode_manifestRecord ⟨by simp, by simp, by simp, by simp⟩

end Manifest

end Mai.DbPatchCodec
