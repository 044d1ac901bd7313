import Mai.BaseAlign
import Mai.BaseIo
import Mai.TxnWriteBatch

/-! What the table files have in common (`table/table.cc`, `table/filter-block-builder.h`,
`table/block-cache.cc`): blocks with a checksum and the handles of them, the properties, the key
filter, and the end of the file. -/
namespace Mai.TableFormat
open BaseAlign BaseIo ByteCodec CoreKeys TxnWriteBatch List

section Keys

/-- `InternalKeyComparator::Compare` of encoded keys, which does not look at the flags. -/
def compareKeys (lhs rhs : Bytes) : Ordering :=
  let lkey := parseTaggedKey lhs
  let rkey := parseTaggedKey rhs
  (makeKey lkey.userKey lkey.sequenceNumber .value).compare
    (makeKey rkey.userKey rkey.sequenceNumber .value)

lemma compareKeys_keyBytes {a b : InternalKey Bytes}
    (ha : a.tag.sequenceNumber ≤ kMaxSequenceNumber) (hb : b.tag.sequenceNumber ≤
      kMaxSequenceNumber) : compareKeys (keyBytes a) (keyBytes b) = a.compare b := by
  simp only [compareKeys, parseTaggedKey_keyBytes ha, parseTaggedKey_keyBytes hb]
  rfl

def stored (lastLevel : Bool) (e : Entry Bytes) : Bytes × Bytes :=
  (if lastLevel then e.userKey else keyBytes e.key, e.value)

def firstIsZero (es : List (Entry Bytes)) : Bool := es.head?.any fun e => e.sequenceNumber = 0

end Keys

def encodeEntry (shared : ℕ) (rest value : Bytes) : Bytes :=
  toVarint shared ++ writeString rest ++ writeString value

def readEntry (lastKey rd : Bytes) : (Bytes × Bytes) × Bytes :=
  let (shared, rd) := readVarint64 rd
  let (rest, rd) := readString rd
  let (value, rd) := readString rd
  ((lastKey.take shared ++ rest, value), rd)

lemma readEntry_encodeEntry (shared : ℕ) (rest value lastKey more : Bytes) :
    readEntry lastKey (encodeEntry shared rest value ++ more) =
      ((lastKey.take shared ++ rest, value), more) := by
  simp only [readEntry, encodeEntry, append_assoc, readVarint64_toVarint, readString_writeString]

lemma encodeEntry_ne_nil (shared : ℕ) (rest value : Bytes) :
    encodeEntry shared rest value ≠ [] := by
  simp [encodeEntry, toVarint]

def readTimes {α : Type} (read : Bytes → α × Bytes) : ℕ → Bytes → List α × Bytes
  | 0, rd => ([], rd)
  | n + 1, rd =>
    let (a, rd) := read rd
    let (l, rd) := readTimes read n rd
    (a :: l, rd)

lemma readTimes_flatMap {α β : Type} {read : Bytes → β × Bytes} {encode : α → Bytes} {f : α → β}
    {l : List α} (h : ∀ a ∈ l, ∀ rest, read (encode a ++ rest) = (f a, rest)) (rest : Bytes) :
    readTimes read l.length (l.flatMap encode ++ rest) = (l.map f, rest) := by
  induction l with
  | nil => rfl
  | cons a l ih =>
    simp only [length_cons, flatMap_cons, append_assoc, readTimes, h a (by simp),
      ih fun b hb => h b (by simp [hb]), map_cons]

section Blocks

structure BlockHandle where
  offset : ℕ
  size : ℕ
  deriving DecidableEq, Repr

def BlockHandle.encode (bh : BlockHandle) : Bytes := toVarint bh.offset ++ toVarint bh.size

def BlockHandle.read (rd : Bytes) : BlockHandle × Bytes :=
  let (offset, rd) := readVarint64 rd
  let (size, rd) := readVarint64 rd
  (⟨offset, size⟩, rd)

lemma BlockHandle.read_encode (bh : BlockHandle) (rest : Bytes) :
    read (bh.encode ++ rest) = (bh, rest) := by
  simp only [read, encode, append_assoc, readVarint64_toVarint]

def withChecksum (block : Bytes) : Bytes := toFixed 4 (crc32 0 block).toNat ++ block

def writeBlock (file block : Bytes) : Bytes × BlockHandle :=
  (file ++ withChecksum block, ⟨file.length, 4 + block.length⟩)

def readFile (file : Bytes) (bh : BlockHandle) : Except Error Bytes :=
  if file.length < bh.offset then .error (.ioError "offset out of range!")
  else .ok ((file.drop bh.offset).take bh.size)

/-- `ReadBlock` and the loader of the block cache, which differ in the message. -/
def readBlockOr (message : String) (file : Bytes) (verify : Bool)
    (bh : BlockHandle) : Except Error Bytes := do
  let result ← readFile file bh
  if verify ∧ ofFixed (result.take 4) ≠ (crc32 0 (result.drop 4)).toNat
    then .error (.ioError message)
  else .ok (result.drop 4)

def readBlock (file : Bytes) (verify : Bool) (bh : BlockHandle) : Except Error Bytes :=
  readBlockOr "CRC32 checksum fail!" file verify bh

def getOrLoad (file : Bytes) (verify : Bool) (bh : BlockHandle) : Except Error Bytes :=
  readBlockOr "Checksum fail!" file verify bh

def Written (file : Bytes) (bh : BlockHandle) (block : Bytes) : Prop :=
  ∃ before after, file = before ++ withChecksum block ++ after ∧
    bh = ⟨before.length, 4 + block.length⟩

variable {file block : Bytes} {bh : BlockHandle}

lemma written_writeBlock (file block : Bytes) :
    Written (writeBlock file block).1 (writeBlock file block).2 block :=
  ⟨file, [], by simp [writeBlock], rfl⟩

lemma Written.append (h : Written file bh block) (more : Bytes) :
    Written (file ++ more) bh block := by
  obtain ⟨before, after, rfl, rfl⟩ := h
  exact ⟨before, after ++ more, by simp, rfl⟩

lemma Written.congr {bh' : BlockHandle} (h : Written file bh block)
    (heq : bh = bh') : Written file bh' block := heq ▸ h

lemma Written.size_eq (h : Written file bh block) : bh.size = 4 + block.length := by
  obtain ⟨before, after, -, rfl⟩ := h
  rfl

lemma Written.offset_le (h : Written file bh block) : bh.offset ≤ file.length := by
  obtain ⟨before, after, rfl, rfl⟩ := h
  simp only [length_append]
  omega

lemma Written.readFile (h : Written file bh block) :
    readFile file bh = .ok (withChecksum block) := by
  obtain ⟨before, after, rfl, rfl⟩ := h
  have hlen : (withChecksum block).length = 4 + block.length := by simp [withChecksum]
  rw [TableFormat.readFile, if_neg (by simp), append_assoc, drop_left, ← hlen, take_left]

lemma Written.readBlockOr (h : Written file bh block) (message : String) (verify : Bool) :
    readBlockOr message file verify bh = .ok block := by
  have hlt : (crc32 0 block).toNat < 256 ^ 4 := (crc32 0 block).toNat_lt
  have htake : (withChecksum block).take 4 = toFixed 4 (crc32 0 block).toNat :=
    take_left' (length_toFixed 4 _)
  have hdrop : (withChecksum block).drop 4 = block := drop_left' (length_toFixed 4 _)
  simp [TableFormat.readBlockOr, h.readFile, bind, Except.bind, htake, hdrop, ofFixed_toFixed hlt]

end Blocks

structure TableProperties where
  unordered : Bool
  lastLevel : Bool
  blockSize : ℕ
  numEntries : ℕ
  indexPosition : ℕ
  indexSize : ℕ
  filterPosition : ℕ
  filterSize : ℕ
  lastVersion : ℕ
  smallestKey : Bytes
  largestKey : Bytes
  deriving DecidableEq, Repr

def boolByte (b : Bool) : UInt8 := if b then 1 else 0

def writeProperties (p : TableProperties) : Bytes :=
  [boolByte p.unordered] ++ [boolByte p.lastLevel] ++ toFixed 4 p.blockSize ++
    toFixed 4 p.numEntries ++
    toFixed 8 p.indexPosition ++ toFixed 4 p.indexSize ++ toFixed 8 p.filterPosition ++
    toFixed 4 p.filterSize ++
    toFixed 8 p.lastVersion ++ writeString p.smallestKey ++ writeString p.largestKey

def readFixed (w : ℕ) (rd : Bytes) : ℕ × Bytes := (ofFixed (rd.take w), rd.drop w)

def readBool (rd : Bytes) : Bool × Bytes :=
  let (b, rd) := readByte rd
  (b ≠ 0, rd)

def readField {α : Type} (read : Bytes → α × Bytes) (rd : Bytes) : Except Error (α × Bytes) :=
  if (read rd).2 = [] then .error (.ioError "Incomplete properties data.") else .ok (read rd)

def readProperties (buf : Bytes) : Except Error TableProperties := do
  let (unordered, rd) ← readField readBool buf
  let (lastLevel, rd) ← readField readBool rd
  let (blockSize, rd) ← readField (readFixed 4) rd
  let (numEntries, rd) ← readField (readFixed 4) rd
  let (indexPosition, rd) ← readField (readFixed 8) rd
  let (indexSize, rd) ← readField (readFixed 4) rd
  let (filterPosition, rd) ← readField (readFixed 8) rd
  let (filterSize, rd) ← readField (readFixed 4) rd
  let (lastVersion, rd) ← readField (readFixed 8) rd
  let (smallestKey, rd) ← readField readString rd
  let (largestKey, _) := readString rd
  .ok { unordered, lastLevel, blockSize, numEntries, indexPosition, indexSize, filterPosition
        filterSize, lastVersion, smallestKey, largestKey }

def TableProperties.count (p : TableProperties) (key : Bytes) : TableProperties :=
  { p with
    smallestKey := if compareKeys key p.smallestKey = .lt then key else p.smallestKey
    largestKey := if compareKeys key p.largestKey = .gt then key else p.largestKey
    lastVersion := max p.lastVersion (parseTaggedKey key).sequenceNumber
    numEntries := p.numEntries + 1 }

def TableProperties.cut (p : TableProperties) : TableProperties :=
  { p with
    blockSize := p.blockSize % 256 ^ 4
    numEntries := p.numEntries % 256 ^ 4
    indexPosition := p.indexPosition % 256 ^ 8
    indexSize := p.indexSize % 256 ^ 4
    filterPosition := p.filterPosition % 256 ^ 8
    filterSize := p.filterSize % 256 ^ 4
    lastVersion := p.lastVersion % 256 ^ 8 }

lemma readField_append {α : Type} {read : Bytes → α × Bytes} {enc rest : Bytes} {a : α}
    (h : read (enc ++ rest) = (a, rest)) (hrest : rest ≠ []) :
    readField read (enc ++ rest) = .ok (a, rest) := by
  rw [readField, h, if_neg hrest]

lemma readFixed_toFixed (w n : ℕ) (rest : Bytes) :
    readFixed w (toFixed w n ++ rest) = (n % 256 ^ w, rest) := by
  rw [readFixed, take_left' (length_toFixed w n), drop_left' (length_toFixed w n),
    ofFixed_toFixed_mod]

lemma readBool_boolByte (b : Bool) (rest : Bytes) :
    readBool ([boolByte b] ++ rest) = (b, rest) := by
  cases b <;> rfl

lemma writeString_ne_nil (s : Bytes) : writeString s ≠ [] := by
  simp [writeString, toVarint]

lemma readProperties_writeProperties (p : TableProperties) :
    readProperties (writeProperties p) = .ok p.cut := by
  have hbool (b : Bool) {rest : Bytes} (h : rest ≠ []) :=
    readField_append (readBool_boolByte b rest) h
  have hfixed (w n : ℕ) {rest : Bytes} (h : rest ≠ []) :=
    readField_append (readFixed_toFixed w n rest) h
  have hstring (s : Bytes) {rest : Bytes} (h : rest ≠ []) :=
    readField_append (readString_writeString s rest) h
  have hlast : readString (writeString p.largestKey) = (p.largestKey, []) := by
    simpa using readString_writeString p.largestKey []
  simp only [readProperties, writeProperties, append_assoc, bind, Except.bind, ne_eq,
    append_eq_nil_iff, writeString_ne_nil, and_false, not_false_iff, hbool, hfixed, hstring, hlast]
  rfl

def computeBoomFilterSize (approximatedNEntries alignment bits : ℕ) : ℕ :=
  if approximatedNEntries = 0 then alignment * 2
  else roundUpMasked ((approximatedNEntries * (bits * 2) + 7) / 8) alignment + alignment

structure FilterBlockBuilder where
  bits : List UInt32
  deriving DecidableEq, Repr

namespace FilterBlockBuilder

def ofSize (dataBytes : ℕ) : Option FilterBlockBuilder :=
  if dataBytes % 4 = 0 then some ⟨List.replicate (dataBytes / 4) 0⟩ else none

/-- The builder of a table, without the bytes of the checksum. There is none if the size wraps
around, or if clearing the bits goes past the end of the words. -/
def new (approximatedNEntries blockSize nHashes : ℕ) : Option FilterBlockBuilder :=
  let size := computeBoomFilterSize approximatedNEntries blockSize nHashes
  if 4 ≤ size ∧ (size - 4) % 4 = 0 then some ⟨List.replicate ((size - 4) / 4) 0⟩ else none

def setBit (b : FilterBlockBuilder) (i : ℕ) : FilterBlockBuilder :=
  ⟨b.bits.modify (i / 32) fun w => w ||| (1 <<< UInt32.ofNat (i % 32))⟩

def addKey (hashes : List (Bytes → UInt32)) (b : FilterBlockBuilder) (key : Bytes) :
    Option FilterBlockBuilder :=
  if b.bits = [] then none
  else some (hashes.foldl (fun b hash => b.setBit ((hash key).toNat % (b.bits.length * 32))) b)

def finish (b : FilterBlockBuilder) : Bytes := b.bits.flatMap fun w => toFixed 4 w.toNat

lemma length_finish (b : FilterBlockBuilder) : b.finish.length = 4 * b.bits.length := by
  simp [finish, length_flatMap, mul_comm]

variable {b : FilterBlockBuilder}

lemma addKey_length (h : b.bits ≠ []) (hashes : List (Bytes → UInt32)) (key : Bytes) :
    ∃ b', b.addKey hashes key = some b' ∧ b'.bits.length = b.bits.length := by
  refine ⟨_, if_neg h, ?_⟩
  clear h
  induction hashes generalizing b with
  | nil => rfl
  | cons hash hashes ih => rw [foldl_cons, ih, setBit, length_modify]

lemma addKey_some (h : b.bits ≠ []) (hashes : List (Bytes → UInt32)) (key : Bytes) :
    ∃ b', b.addKey hashes key = some b' ∧ b'.bits ≠ [] := by
  obtain ⟨b', hb', hlength⟩ := addKey_length h hashes key
  refine ⟨b', hb', ?_⟩
  rw [← length_pos_iff, hlength]
  exact length_pos_iff.mpr h

lemma new_some {blockSize : ℕ} (hdvd : 4 ∣ blockSize) (hge : 8 ≤ blockSize)
    (hle : blockSize ≤ 2 ^ 64) (approximatedNEntries nHashes : ℕ) :
    ∃ b, new approximatedNEntries blockSize nHashes = some b ∧ b.bits ≠ [] := by
  have hsize : 4 ∣ computeBoomFilterSize approximatedNEntries blockSize nHashes ∧
      8 ≤ computeBoomFilterSize approximatedNEntries blockSize nHashes := by
    rw [computeBoomFilterSize]
    split_ifs
    · omega
    · have hround := four_dvd_roundUpMasked (x := (approximatedNEntries * (nHashes * 2) + 7) / 8)
        hdvd hle
      omega
  refine ⟨_, if_pos ⟨by omega, by omega⟩, ?_⟩
  rw [← length_pos_iff, length_replicate]
  omega

lemma new_length {approximatedNEntries blockSize nHashes : ℕ}
    (h : new approximatedNEntries blockSize nHashes = some b) :
    4 * b.bits.length + 4 = computeBoomFilterSize approximatedNEntries blockSize nHashes := by
  rw [new] at h
  split_ifs at h with hsize
  obtain rfl := Option.some.inj h
  rw [length_replicate]
  omega

end FilterBlockBuilder

def footer (position magic : ℕ) : Bytes := toFixed 8 position ++ toFixed 4 magic

def readFooter (magic : ℕ) (message : String) (file : Bytes) : Except Error BlockHandle :=
  if file.length < 12 then .error (.corruption "Incorrect file type. File too small.")
  else if ofFixed (file.drop (file.length - 4)) ≠ magic then .error (.corruption message)
  else
    let position := ofFixed ((file.drop (file.length - 12)).take 8)
    if file.length - 12 ≤ position then .error (.corruption "Incorrect table properties position.")
    else .ok ⟨position, file.length - 12 - position⟩

lemma readFooter_append (body : Bytes) (position : ℕ) {magic : ℕ}
    (hposition : position < body.length) (hbody : body.length < 256 ^ 8) (hmagic : magic < 256 ^ 4)
    (message : String) :
    readFooter magic message (body ++ footer position magic) =
      .ok ⟨position, body.length - position⟩ := by
  have hlen : (body ++ footer position magic).length = body.length + 12 := by simp [footer]
  have hend : (body ++ footer position magic).drop (body.length + 12 - 4) = toFixed 4 magic := by
    rw [footer, ← append_assoc]
    exact drop_left' (by simp)
  have hstart : ((body ++ footer position magic).drop (body.length + 12 - 12)).take 8 =
      toFixed 8 position := by
    rw [Nat.add_sub_cancel, drop_left, footer]
    exact take_left' (length_toFixed 8 position)
  rw [readFooter, hlen, if_neg (by omega), hend, ofFixed_toFixed hmagic, if_neg (by simp)]
  simp only [hstart, ofFixed_toFixed (hposition.trans hbody)]
  rw [if_neg (by omega), Nat.add_sub_cancel]

def writeEnd (magic : ℕ) (file : Bytes) (props : TableProperties) : Bytes :=
  let (file, bh) := writeBlock file (writeProperties props)
  file ++ footer bh.offset magic

lemma Written.writeEnd {file : Bytes} {bh : BlockHandle} {block : Bytes} (h : Written file bh block)
    (magic : ℕ) (props : TableProperties) : Written (writeEnd magic file props) bh block :=
  (h.append _).append _

lemma readFooter_writeEnd (magic : ℕ) (file : Bytes) (props : TableProperties)
    (hmagic : magic < 256 ^ 4) (hsize : (writeEnd magic file props).length < 256 ^ 8)
    (message : String) :
    ∃ bh, readFooter magic message (writeEnd magic file props) = .ok bh ∧
      Written (writeEnd magic file props) bh (writeProperties props) := by
  have hlen : (file ++ withChecksum (writeProperties props)).length =
      file.length + (4 + (writeProperties props).length) := by
    simp [withChecksum]
  have hsize' : (file ++ withChecksum (writeProperties props)).length < 256 ^ 8 := by
    refine lt_of_le_of_lt ?_ hsize
    simp [TableFormat.writeEnd, writeBlock]
  have hread := readFooter_append (file ++ withChecksum (writeProperties props)) file.length
    (by omega) hsize' hmagic
    message
  refine ⟨_, hread, ((written_writeBlock file (writeProperties props)).append _).congr ?_⟩
  rw [hlen, Nat.add_sub_cancel_left]
  rfl

end Mai.TableFormat
