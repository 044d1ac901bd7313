import Mai.BaseIo

/-! The write-ahead log (`db/write-ahead-log.h`, `db/write-ahead-log.cc`). Records are cut into
physical records that do not cross the writer's blocks; the reader counts its own block offset. -/
namespace Mai.DbWriteAheadLog
open ByteCodec CoreKeys BaseIo List

inductive RecordType
  | zero
  | full
  | first
  | middle
  | last
  deriving DecidableEq, Repr

def RecordType.toNat : RecordType → ℕ
  | zero => 0
  | full => 1
  | first => 2
  | middle => 3
  | last => 4

def kHeaderSize : ℕ := 4 + 2 + 1
def kDefaultBlockSize : ℕ := 32768

/-- `block_size_ - block_offset_` in the arithmetic of `size_t`: an offset past the block leaves a
huge number. -/
def leftOver (blockSize blockOffset : ℕ) : ℕ := (2 ^ 64 + blockSize - blockOffset) % 2 ^ 64

lemma leftOver_of_le {blockSize blockOffset : ℕ} (h : blockOffset ≤ blockSize)
    (hsize : blockSize < 2 ^ 64) :
    leftOver blockSize blockOffset = blockSize - blockOffset := by
  rw [leftOver]
  omega

/-- The checksum that the writer starts from a table of checksums of the type bytes and the reader
computes from the type it has read. -/
def recordChecksum (type : ℕ) (data : Bytes) : ℕ := (crc32 (crc32 0 [UInt8.ofNat type]) data).toNat

/-- What `EmitPhysicalRecord` writes, one call after the other. -/
def recordWrites (type : RecordType) (data : Bytes) : List Bytes :=
  [toFixed 4 (recordChecksum type.toNat data), toFixed 2 data.length, toFixed 1 type.toNat, data]

def physicalRecord (type : RecordType) (data : Bytes) : Bytes := (recordWrites type data).flatten

/-- `LogWriter` with the file it appends to. The lengths of the fragments must fit their field of
two bytes. -/
structure LogWriter where
  blockSize : ℕ
  blockOffset : ℕ
  file : Bytes
  accepted : kHeaderSize < blockSize ∧ blockSize ≤ 65542
  inBlock : blockOffset ≤ blockSize

namespace LogWriter

def new (blockSize : ℕ) (accepted : kHeaderSize < blockSize ∧ blockSize ≤ 65542) (file : Bytes) :
    LogWriter :=
  ⟨blockSize, 0, file, accepted, Nat.zero_le _⟩

def padTrailer (w : LogWriter) : LogWriter :=
  if leftOver w.blockSize w.blockOffset < kHeaderSize then
    { w with
      file := w.file ++ List.replicate (leftOver w.blockSize w.blockOffset) 0
      blockOffset := 0
      inBlock := Nat.zero_le _ }
  else w

lemma padTrailer_inBlock (w : LogWriter) :
    w.padTrailer.blockOffset + kHeaderSize ≤ w.padTrailer.blockSize := by
  have hsize : w.blockSize < 2 ^ 64 := by have := w.accepted.2; omega
  rw [padTrailer]
  split_ifs with h
  · exact (Nat.zero_add _).le.trans w.accepted.1.le
  · rw [leftOver_of_le w.inBlock hsize] at h
    have := w.inBlock
    omega

def emitPhysicalRecord (w : LogWriter) (data : Bytes) (type : RecordType)
    (h : w.blockOffset + kHeaderSize + data.length ≤ w.blockSize) : LogWriter :=
  { w with
    file := w.file ++ physicalRecord type data
    blockOffset := w.blockOffset + (kHeaderSize + data.length)
    inBlock := by omega }

end LogWriter

def fragmentType (isBegin isEnd : Bool) : RecordType :=
  match isBegin, isEnd with
  | true, true => .full
  | true, false => .first
  | false, true => .last
  | false, false => .middle

namespace LogWriter

def fragmentLength (w : LogWriter) (left : Bytes) : ℕ :=
  min left.length (w.padTrailer.blockSize - w.padTrailer.blockOffset - kHeaderSize)

lemma fragment_inBlock (w : LogWriter) (left : Bytes) : w.padTrailer.blockOffset + kHeaderSize +
    (left.take (w.fragmentLength left)).length ≤ w.padTrailer.blockSize := by
  have := w.padTrailer_inBlock
  simp only [length_take, fragmentLength]
  omega

def emitFragment (w : LogWriter) (isBegin : Bool) (left : Bytes) : LogWriter :=
  w.padTrailer.emitPhysicalRecord (left.take (w.fragmentLength left))
    (fragmentType isBegin (left.length = w.fragmentLength left)) (w.fragment_inBlock left)

lemma emitFragment_progress (w : LogWriter) (isBegin : Bool) (left : Bytes)
    (h : 0 < left.length - w.fragmentLength left) :
    2 * (left.drop (w.fragmentLength left)).length +
        (if (w.emitFragment isBegin left).blockOffset + kHeaderSize =
          (w.emitFragment isBegin left).blockSize then 1 else 0) <
      2 * left.length + if w.blockOffset + kHeaderSize = w.blockSize then 1 else 0 := by
  rw [List.length_drop]
  by_cases hzero : w.fragmentLength left = 0
  · have haccepted := w.accepted.1
    have hpad := w.padTrailer_inBlock
    have hfull : w.padTrailer.blockOffset + kHeaderSize = w.padTrailer.blockSize := by
      rw [fragmentLength] at hzero
      omega
    have hsame : w.padTrailer = w := by
      rw [padTrailer] at hfull ⊢
      split_ifs at hfull ⊢ with hshort
      · simp only at hfull
        omega
      · rfl
    rw [hsame] at hfull
    have hnext : (w.emitFragment isBegin left).blockOffset + kHeaderSize ≠
        (w.emitFragment isBegin left).blockSize := by
      simp only [emitFragment, emitPhysicalRecord, hsame, kHeaderSize] at hfull ⊢
      omega
    rw [if_pos hfull, if_neg hnext, hzero]
    omega
  · split_ifs <;> omega

def appendLoop (w : LogWriter) (isBegin : Bool) (left : Bytes) : LogWriter :=
  if 0 < left.length - w.fragmentLength left then
    (w.emitFragment isBegin left).appendLoop false (left.drop (w.fragmentLength left))
  else w.emitFragment isBegin left
termination_by 2 * left.length + if w.blockOffset + kHeaderSize = w.blockSize then 1 else 0
decreasing_by exact w.emitFragment_progress isBegin left ‹_›

def append (w : LogWriter) (record : Bytes) : LogWriter := w.appendLoop true record

end LogWriter

structure Physical where
  type : ℕ
  data : Bytes
  fail : Bool
  deriving DecidableEq, Repr

structure LogReader where
  reader : FileReader
  verifyChecksum : Bool
  blockSize : ℕ
  blockOffset : ℕ
  error : Option Error
  deriving DecidableEq, Repr

namespace LogReader

def new (file : Bytes) (verifyChecksum : Bool) (blockSize : ℕ) : LogReader :=
  ⟨FileReader.new file, verifyChecksum, blockSize, 0, none⟩

/-- The source's `TRY_RUN`: return with the reader as it is if the last read failed. -/
def tryRun {α : Type} (result : α × FileReader) : Except FileReader (α × FileReader) :=
  if result.2.error.isSome then .error result.2 else .ok result

def readPhysicalRecord (r : LogReader) : Except FileReader (Physical × LogReader) := do
  let (recordChecksum', f) ← tryRun (r.reader.readFixed 4)
  let (len, f) ← tryRun (f.readFixed 2)
  let (type, f) ← tryRun (f.readFixed 1)
  let (data, f) ← tryRun (f.read len)
  return (⟨type, data, r.verifyChecksum && recordChecksum' ≠ recordChecksum type data⟩,
    { r with reader := f, blockOffset := r.blockOffset + (kHeaderSize + len) })

def skipTrailer (r : LogReader) : LogReader :=
  if leftOver r.blockSize r.blockOffset < kHeaderSize then
    { r with
      reader := if 0 < leftOver r.blockSize r.blockOffset
        then r.reader.skip (leftOver r.blockSize r.blockOffset)
        else r.reader
      blockOffset := 0 }
  else r

section
variable {α : Type} {result : α × FileReader} {x : α} {f : FileReader}

lemma tryRun_eq_ok (h : tryRun result = .ok (x, f)) : result = (x, f) ∧ f.error = none := by
  rw [tryRun] at h
  split_ifs at h with he
  obtain rfl := Except.ok.inj h
  exact ⟨rfl, by simpa using he⟩

lemma tryRun_none (h : result.2.error = none) : tryRun result = .ok result := by simp [tryRun, h]

lemma tryRun_some (h : result.2.error.isSome) : tryRun result = .error result.2 := by
    simp [tryRun, h]

end

variable {r r' : LogReader}

lemma readPhysicalRecord_length_lt {p : Physical} (h : r.readPhysicalRecord = .ok (p, r')) :
    r'.reader.file.length < r.reader.file.length := by
  obtain ⟨⟨checksum, f₁⟩, h₁, h⟩ := bind_eq_ok.mp h
  obtain ⟨⟨len, f₂⟩, h₂, h⟩ := bind_eq_ok.mp h
  obtain ⟨⟨type, f₃⟩, h₃, h⟩ := bind_eq_ok.mp h
  obtain ⟨⟨data, f₄⟩, h₄, h⟩ := bind_eq_ok.mp h
  obtain ⟨rfl, rfl⟩ := Prod.mk.inj (Except.ok.inj h)
  obtain ⟨he₁, hnone₁⟩ := tryRun_eq_ok h₁
  obtain rfl := (Prod.mk.inj he₁).2
  obtain rfl := (Prod.mk.inj (tryRun_eq_ok h₂).1).2
  obtain rfl := (Prod.mk.inj (tryRun_eq_ok h₃).1).2
  have hfile : f₄.file = (((r.reader.read 4).2.read 2).2.read 1).2.file.drop len := by
    rw [← FileReader.read_file, show (((r.reader.read 4).2.read 2).2.read 1).2.read len =
      (data, f₄) from
      (tryRun_eq_ok h₄).1]
  have hne : r.reader.file ≠ [] := fun hnil => by simp [FileReader.read_error, hnil] at hnone₁
  have hpos := length_pos_iff.mpr hne
  simp only [hfile, FileReader.read_file, List.length_drop]
  omega

lemma tryRun_read_nil {f : FileReader} {n : ℕ} (h : f.file = []) (hn : n ≠ 0) :
    (f.read n).2.error = some (.eof "read()") ∧ tryRun (f.read n) = .error (f.read n).2 ∧
      tryRun (f.readFixed n) = .error (f.read n).2 := by
  have herror : (f.read n).2.error = some (.eof "read()") := by simp [FileReader.read_error, h, hn]
  exact ⟨herror, tryRun_some (by simp [herror]),
    tryRun_some (by simp [FileReader.readFixed, herror])⟩

lemma tryRun_readFixed {f : FileReader} {w : ℕ} (h : f.file ≠ []) :
    tryRun (f.readFixed w) = .ok (f.readFixed w) :=
  tryRun_none (by simp [FileReader.readFixed, FileReader.read_error, h])

lemma readPhysicalRecord_header {r : LogReader} (h : r.reader.file.length < kHeaderSize) :
    ∃ f : FileReader, f.error = some (.eof "read()") ∧ r.readPhysicalRecord = .error f := by
  simp only [readPhysicalRecord]
  by_cases h₁ : r.reader.file = []
  · obtain ⟨herror, -, hrun⟩ := tryRun_read_nil h₁ (n := 4) (by decide)
    exact ⟨_, herror, by rw [hrun]; rfl⟩
  rw [tryRun_readFixed h₁]
  simp only [bind, Except.bind]
  have hfile₁ : (r.reader.readFixed 4).2.file = r.reader.file.drop 4 := FileReader.read_file
  by_cases h₂ : (r.reader.readFixed 4).2.file = []
  · obtain ⟨herror, -, hrun⟩ := tryRun_read_nil h₂ (n := 2) (by decide)
    exact ⟨_, herror, by rw [hrun]⟩
  rw [tryRun_readFixed h₂]
  have hfile₂ : ((r.reader.readFixed 4).2.readFixed 2).2.file = (r.reader.file.drop 4).drop 2 :=
    FileReader.read_file.trans (by rw [hfile₁])
  have h₃ : ((r.reader.readFixed 4).2.readFixed 2).2.file = [] := by
    rw [hfile₂, drop_drop]
    exact drop_eq_nil_of_le (Nat.le_of_lt_succ h)
  obtain ⟨herror, -, hrun⟩ := tryRun_read_nil h₃ (n := 1) (by decide)
  exact ⟨_, herror, by simp only [hrun]⟩

lemma skipTrailer_length_le (r : LogReader) :
    r.skipTrailer.reader.file.length ≤ r.reader.file.length := by
  rw [skipTrailer]
  split_ifs <;> simp [FileReader.skip]

def readLoop (r : LogReader) (scratch : Bytes) (fail : Bool) : Option Bytes × LogReader :=
  match _h : r.skipTrailer.readPhysicalRecord with
  | .error f => (none, { r.skipTrailer with reader := f, error := f.error })
  | .ok (p, r') =>
    if p.type = RecordType.middle.toNat ∨ p.type = RecordType.first.toNat then
      r'.readLoop (scratch ++ p.data) (fail || p.fail)
    else if fail || p.fail then (none, { r' with error := some (.ioError "crc32 checksum fail.") })
    else (some (scratch ++ p.data), { r' with error := none })
termination_by r.reader.file.length
decreasing_by exact (readPhysicalRecord_length_lt ‹_›).trans_le (skipTrailer_length_le r)

def read (r : LogReader) : Option Bytes × LogReader :=
  if r.reader.error.any Error.isEof then (none, r) else r.readLoop [] false

lemma readLoop_length_lt (r : LogReader) (scratch : Bytes) (fail : Bool)
    (h : (r.readLoop scratch fail).1.isSome) :
    (r.readLoop scratch fail).2.reader.file.length < r.reader.file.length := by
  induction r, scratch, fail using readLoop.induct with
  | case1 r scratch fail f hp =>
    rw [readLoop, hp] at h
    simp at h
  | case2 r scratch fail p r' hp hmore ih =>
    have hlt := (readPhysicalRecord_length_lt hp).trans_le (skipTrailer_length_le r)
    rw [readLoop, hp] at h ⊢
    simp only [if_pos hmore] at h ⊢
    exact (ih h).trans hlt
  | case3 r scratch fail p r' hp hlast hfail =>
    rw [readLoop, hp] at h
    simp only [if_neg hlast, if_pos hfail] at h
    simp at h
  | case4 r scratch fail p r' hp hlast hfail =>
    have hlt := (readPhysicalRecord_length_lt hp).trans_le (skipTrailer_length_le r)
    rw [readLoop, hp]
    simpa only [if_neg hlast, if_neg hfail] using hlt

lemma read_length_lt {record : Bytes} (h : r.read = (some record, r')) :
    r'.reader.file.length < r.reader.file.length := by
  rw [read] at h
  split_ifs at h
  · simp at h
  · have := readLoop_length_lt r [] false (by simp [h])
    rwa [h] at this

/-- Call `Read` until it returns false, as `DBImpl::Redo` and `VersionSet::Recovery` do: the
records, and the reader's error after them. -/
def readAll (r : LogReader) : List Bytes × Option Error :=
  match _h : r.read with
  | (none, r') => ([], r'.error)
  | (some record, r') =>
    let rest := r'.readAll
    (record :: rest.1, rest.2)
termination_by r.reader.file.length
decreasing_by exact read_length_lt ‹_›

lemma readAll_none (h : r.read = (none, r')) : r.readAll = ([], r'.error) := by
  rw [readAll, h]

lemma readAll_some {record : Bytes} (h : r.read = (some record, r')) :
    r.readAll = (record :: r'.readAll.1, r'.readAll.2) := by
  rw [readAll, h]

end LogReader

end Mai.DbWriteAheadLog
