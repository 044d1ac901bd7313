import Mai.DbWriteAheadLog

/-! The layout of a log: every record is a list of fragments, each after some padding. A reader
whose block offset asks for the same padding before every fragment reads the records back, whatever
its offset is. -/
namespace Mai.DbLogFraming
open ByteCodec CoreKeys BaseIo DbWriteAheadLog List

def trailer (blockSize blockOffset : ℕ) : ℕ :=
  if leftOver blockSize blockOffset < kHeaderSize then leftOver blockSize blockOffset else 0

def nextOffset (blockSize blockOffset length : ℕ) : ℕ :=
  (if leftOver blockSize blockOffset < kHeaderSize then 0 else blockOffset) + (kHeaderSize + length)

structure Fragment where
  pad : ℕ
  type : RecordType
  data : Bytes
  deriving DecidableEq, Repr

def Fragment.bytes (f : Fragment) : Bytes := List.replicate f.pad 0 ++ physicalRecord f.type f.data

def nextFragment (w : LogWriter) (isBegin : Bool) (left : Bytes) : Fragment where
  pad := trailer w.blockSize w.blockOffset
  type := fragmentType isBegin (left.length = w.fragmentLength left)
  data := left.take (w.fragmentLength left)

def fragmentsLoop (w : LogWriter) (isBegin : Bool) (left : Bytes) : List Fragment :=
  nextFragment w isBegin left ::
    if 0 < left.length - w.fragmentLength left then
      fragmentsLoop (w.emitFragment isBegin left) false (left.drop (w.fragmentLength left))
    else []
termination_by 2 * left.length + if w.blockOffset + kHeaderSize = w.blockSize then 1 else 0
decreasing_by exact w.emitFragment_progress isBegin left ‹_›

def fragments (w : LogWriter) (record : Bytes) : List Fragment := fragmentsLoop w true record

def recordBytes (w : LogWriter) (record : Bytes) : Bytes :=
  (fragments w record).flatMap Fragment.bytes

def recordsBytes (w : LogWriter) : List Bytes → Bytes
  | [] => []
  | record :: records => recordBytes w record ++ recordsBytes (w.append record) records

def appendAll (w : LogWriter) (records : List Bytes) : LogWriter := records.foldl LogWriter.append w

lemma padTrailer_file (w : LogWriter) :
    w.padTrailer.file = w.file ++ List.replicate (trailer w.blockSize w.blockOffset) 0 := by
  rw [LogWriter.padTrailer, trailer]
  split_ifs <;> simp

lemma padTrailer_blockSize (w : LogWriter) : w.padTrailer.blockSize = w.blockSize := by
  rw [LogWriter.padTrailer]
  split_ifs <;> rfl

lemma emitFragment_file (w : LogWriter) (isBegin : Bool) (left : Bytes) :
    (w.emitFragment isBegin left).file = w.file ++ (nextFragment w isBegin left).bytes := by
  simp only [LogWriter.emitFragment, LogWriter.emitPhysicalRecord, padTrailer_file, Fragment.bytes,
    nextFragment, append_assoc]

lemma emitFragment_blockSize (w : LogWriter) (isBegin : Bool) (left : Bytes) :
    (w.emitFragment isBegin left).blockSize = w.blockSize := padTrailer_blockSize w

lemma emitFragment_blockOffset (w : LogWriter) (isBegin : Bool) (left : Bytes) :
    (w.emitFragment isBegin left).blockOffset =
      nextOffset w.blockSize w.blockOffset (nextFragment w isBegin left).data.length := by
  have hoffset : w.padTrailer.blockOffset =
      if leftOver w.blockSize w.blockOffset < kHeaderSize then 0 else w.blockOffset := by
    rw [LogWriter.padTrailer]
    split_ifs <;> rfl
  simp only [LogWriter.emitFragment, LogWriter.emitPhysicalRecord, hoffset, nextOffset,
    nextFragment]

lemma appendLoop_file (w : LogWriter) (isBegin : Bool) (left : Bytes) :
    (w.appendLoop isBegin left).file =
      w.file ++ (fragmentsLoop w isBegin left).flatMap Fragment.bytes := by
  induction w, isBegin, left using LogWriter.appendLoop.induct with
  | case1 w isBegin left hmore ih =>
    rw [LogWriter.appendLoop, fragmentsLoop, if_pos hmore, if_pos hmore, ih, emitFragment_file]
    simp
  | case2 w isBegin left hlast =>
    rw [LogWriter.appendLoop, fragmentsLoop, if_neg hlast, if_neg hlast, emitFragment_file]
    simp

lemma append_blockSize (w : LogWriter) (record : Bytes) :
    (w.append record).blockSize = w.blockSize := by
  rw [LogWriter.append]
  induction w, true, record using LogWriter.appendLoop.induct with
  | case1 w isBegin left hmore ih =>
    rw [LogWriter.appendLoop, if_pos hmore, ih, emitFragment_blockSize]
  | case2 w isBegin left hlast => rw [LogWriter.appendLoop, if_neg hlast, emitFragment_blockSize]

lemma append_file (w : LogWriter) (record : Bytes) :
    (w.append record).file = w.file ++ recordBytes w record :=
  appendLoop_file w true record

lemma appendAll_file (w : LogWriter) (records : List Bytes) :
    (appendAll w records).file = w.file ++ recordsBytes w records := by
  induction records generalizing w with
  | nil => simp [appendAll, recordsBytes]
  | cons record records ih =>
    have := ih (w.append record)
    rw [append_file, append_assoc] at this
    exact this

lemma fragments_single (w : LogWriter) (record : Bytes)
    (h : w.fragmentLength record = record.length) :
    fragments w record = [⟨trailer w.blockSize w.blockOffset, .full, record⟩] := by
  rw [fragments, fragmentsLoop, h, if_neg (by simp)]
  simp [nextFragment, h, fragmentType]

lemma fragments_full (w : LogWriter) (record : Bytes)
    (h : w.blockOffset + kHeaderSize + record.length ≤ w.blockSize) :
    fragments w record = [⟨0, .full, record⟩] := by
  have hsize : w.blockSize < 2 ^ 64 := by have := w.accepted.2; omega
  have hroom : ¬ leftOver w.blockSize w.blockOffset < kHeaderSize := by
    rw [leftOver_of_le w.inBlock hsize]
    omega
  have hpad : w.padTrailer = w := if_neg hroom
  rw [fragments_single w record (by rw [LogWriter.fragmentLength, hpad]; omega), trailer,
    if_neg hroom]

lemma nextFragment_length (w : LogWriter) (isBegin : Bool) (left : Bytes) :
    (nextFragment w isBegin left).data.length < 65536 := by
  have hpad := w.fragment_inBlock left
  have hsize := w.accepted.2
  rw [padTrailer_blockSize] at hpad
  simp only [nextFragment, kHeaderSize] at hpad ⊢
  omega

lemma nextFragment_type_more (w : LogWriter) (isBegin : Bool) (left : Bytes)
    (hmore : 0 < left.length - w.fragmentLength left) :
    (nextFragment w isBegin left).type = .first ∨ (nextFragment w isBegin left).type = .middle := by
  have hend : decide (left.length = w.fragmentLength left) = false := by
    rw [decide_eq_false_iff_not]
    omega
  simp only [nextFragment, hend]
  cases isBegin <;> simp [fragmentType]

lemma nextFragment_type_last (w : LogWriter) (isBegin : Bool) (left : Bytes)
    (hlast : ¬ 0 < left.length - w.fragmentLength left) :
    (nextFragment w isBegin left).type = .full ∨ (nextFragment w isBegin left).type = .last := by
  have hend : decide (left.length = w.fragmentLength left) = true := by
    have : w.fragmentLength left ≤ left.length := Nat.min_le_left _ _
    rw [decide_eq_true_iff]
    omega
  simp only [nextFragment, hend]
  cases isBegin <;> simp [fragmentType]

section Reading

def InStep (blockSize : ℕ) : ℕ → List Fragment → Prop
  | _, [] => True
  | blockOffset, f :: fs =>
    f.pad = trailer blockSize blockOffset ∧
      InStep blockSize (nextOffset blockSize blockOffset f.data.length) fs

instance decidableInStep (blockSize : ℕ) : ∀ (blockOffset : ℕ) (fs : List Fragment),
    Decidable (InStep blockSize blockOffset fs)
  | _, [] => inferInstanceAs (Decidable True)
  | blockOffset, f :: fs =>
    haveI := decidableInStep blockSize (nextOffset blockSize blockOffset f.data.length) fs
    inferInstanceAs (Decidable (_ ∧ _))

def offsetAfter (blockSize blockOffset : ℕ) (fs : List Fragment) : ℕ :=
  fs.foldl (fun offset f => nextOffset blockSize offset f.data.length) blockOffset

def movedTo (r : LogReader) (rest scratch : Bytes) (blockOffset : ℕ) : LogReader :=
  { r with reader := ⟨rest, scratch, none⟩, blockOffset := blockOffset, error := none }

variable {r : LogReader} {rest : Bytes}

def header (type : RecordType) (data : Bytes) : Bytes :=
  toFixed 4 (recordChecksum type.toNat data) ++ toFixed 2 data.length ++ toFixed 1 type.toNat

lemma physicalRecord_eq (type : RecordType) (data : Bytes) :
    physicalRecord type data = header type data ++ data := by
  simp [physicalRecord, recordWrites, header]

@[simp] lemma length_header (type : RecordType) (data : Bytes) :
    (header type data).length = kHeaderSize := by
  simp [header, kHeaderSize]

lemma readPhysicalRecord_bytes (hfile : kHeaderSize ≤ r.reader.file.length) : ∃ buffer,
    r.readPhysicalRecord =
      (LogReader.tryRun (FileReader.read ⟨r.reader.file.drop kHeaderSize, buffer, none⟩
        (ofFixed ((r.reader.file.drop 4).take 2))) >>= fun x =>
          .ok (⟨ofFixed ((r.reader.file.drop 6).take 1), x.1, r.verifyChecksum &&
            ofFixed (r.reader.file.take 4) ≠
            recordChecksum (ofFixed ((r.reader.file.drop 6).take 1)) x.1⟩,
          { r with
            reader := x.2
            blockOffset :=
  r.blockOffset + (kHeaderSize + ofFixed ((r.reader.file.drop 4).take 2)) })) := by
  have h₁ : 4 ≤ r.reader.file.length := (show 4 ≤ kHeaderSize by decide).trans hfile
  have h₂ : 2 ≤ (r.reader.file.drop 4).length := by
    rw [List.length_drop]
    exact Nat.le_sub_of_add_le ((show 2 + 4 ≤ kHeaderSize by decide).trans hfile)
  have h₃ : 1 ≤ ((r.reader.file.drop 4).drop 2).length := by
    rw [drop_drop, List.length_drop]
    exact Nat.le_sub_of_add_le hfile
  refine ⟨((r.reader.file.drop 4).drop 2).take 1, ?_⟩
  simp only [LogReader.readPhysicalRecord, FileReader.readFixed, FileReader.read_full h₁]
  rw [LogReader.tryRun_none rfl]
  simp only [bind, Except.bind]
  rw [FileReader.read_full h₂, LogReader.tryRun_none rfl]
  simp only
  rw [FileReader.read_full h₃, LogReader.tryRun_none rfl]
  simp only [drop_drop]
  rfl

lemma readPhysicalRecord_header {type : RecordType} {data : Bytes}
    (hfile : r.reader.file = header type data ++ rest) (hlen : data.length < 65536) :
    ∃ buffer, r.readPhysicalRecord =
      (LogReader.tryRun (FileReader.read ⟨rest, buffer, none⟩ data.length) >>= fun x =>
        .ok (⟨type.toNat, x.1, r.verifyChecksum && recordChecksum type.toNat data ≠
        recordChecksum type.toNat x.1⟩,
          { r with reader := x.2, blockOffset := r.blockOffset + (kHeaderSize +
          data.length) })) := by
  have hchecksum : ofFixed (r.reader.file.take 4) = recordChecksum type.toNat data := by
    rw [hfile, header, append_assoc, append_assoc, take_left' (length_toFixed 4 _)]
    exact ofFixed_toFixed (UInt32.toNat_lt _)
  have hlength : ofFixed ((r.reader.file.drop 4).take 2) = data.length := by
    rw [hfile, header, append_assoc, append_assoc, drop_left' (length_toFixed 4 _),
      take_left' (length_toFixed 2 _)]
    exact ofFixed_toFixed hlen
  have htype : ofFixed ((r.reader.file.drop 6).take 1) = type.toNat := by
    rw [hfile, header, append_assoc, drop_left' (by simp), take_left' (length_toFixed 1 _)]
    exact ofFixed_toFixed (by cases type <;> decide)
  have hrest : r.reader.file.drop kHeaderSize = rest := by
    rw [hfile]
    exact drop_left' (length_header type data)
  obtain ⟨buffer, hread⟩ := readPhysicalRecord_bytes (r := r) (by simp [hfile])
  rw [hchecksum, hlength, htype, hrest] at hread
  exact ⟨buffer, hread⟩

lemma readPhysicalRecord_ok {type : RecordType} {data : Bytes}
    (hfile : r.reader.file = physicalRecord type data ++ rest) (hlen : data.length < 65536) :
    r.readPhysicalRecord = .ok (⟨type.toNat, data, false⟩,
      { r with reader := ⟨rest, data,
        none⟩, blockOffset := r.blockOffset + (kHeaderSize + data.length) }) := by
  rw [physicalRecord_eq, append_assoc] at hfile
  obtain ⟨buffer, hread⟩ := readPhysicalRecord_header hfile hlen
  rw [hread, FileReader.read_append rfl, LogReader.tryRun_none rfl]
  simp [bind, Except.bind]

lemma skipTrailer_file :
    r.skipTrailer.reader.file = r.reader.file.drop (trailer r.blockSize r.blockOffset) := by
  rw [LogReader.skipTrailer, trailer]
  split_ifs with hshort hpos
  · rfl
  · simp [Nat.eq_zero_of_not_pos hpos]
  · simp

lemma skipTrailer_eq : r.skipTrailer = { r with
    reader := r.skipTrailer.reader
    blockOffset := if leftOver r.blockSize r.blockOffset < kHeaderSize then 0
      else r.blockOffset } := by
  rw [LogReader.skipTrailer]
  split_ifs <;> rfl

lemma readFragment_ok {f : Fragment} (hfile : r.reader.file = f.bytes ++ rest)
    (hpad : f.pad = trailer r.blockSize r.blockOffset) (hlen : f.data.length < 65536) :
    r.skipTrailer.readPhysicalRecord = .ok (⟨f.type.toNat, f.data, false⟩, { r with
      reader := ⟨rest, f.data, none⟩
      blockOffset := nextOffset r.blockSize r.blockOffset f.data.length }) := by
  have hskip : r.skipTrailer.reader.file = physicalRecord f.type f.data ++ rest := by
    rw [skipTrailer_file, hfile, Fragment.bytes, ← hpad, append_assoc]
    exact drop_left' (by simp)
  rw [readPhysicalRecord_ok hskip hlen, skipTrailer_eq]
  rfl

lemma readLoop_fragments (w : LogWriter) (isBegin : Bool) (left scratch : Bytes)
    (hstep : InStep r.blockSize r.blockOffset (fragmentsLoop w isBegin left))
    (hfile : r.reader.file = (fragmentsLoop w isBegin left).flatMap Fragment.bytes ++ rest) :
    ∃ buffer, r.readLoop scratch false = (some (scratch ++ left),
      movedTo r rest buffer
        (offsetAfter r.blockSize r.blockOffset (fragmentsLoop w isBegin left))) := by
  induction w, isBegin, left using LogWriter.appendLoop.induct generalizing r scratch with
  | case1 w isBegin left hmore ih =>
    rw [fragmentsLoop, if_pos hmore] at hstep hfile ⊢
    rw [flatMap_cons, append_assoc] at hfile
    have hread := readFragment_ok hfile hstep.1 (nextFragment_length w isBegin left)
    have htype : (nextFragment w isBegin left).type.toNat = RecordType.middle.toNat ∨
        (nextFragment w isBegin left).type.toNat = RecordType.first.toNat := by
      rcases nextFragment_type_more w isBegin left hmore with h | h <;> simp [h]
    rw [LogReader.readLoop, hread]
    simp only [if_pos htype, Bool.or_self]
    obtain ⟨buffer, hloop⟩ := ih (r := { r with
      reader := ⟨_, (nextFragment w isBegin left).data, none⟩
      blockOffset := nextOffset r.blockSize r.blockOffset
        (nextFragment w isBegin left).data.length })
      (scratch ++ (nextFragment w isBegin left).data) hstep.2 rfl
    refine ⟨buffer, hloop.trans ?_⟩
    rw [append_assoc, nextFragment, take_append_drop]
    rfl
  | case2 w isBegin left hlast =>
    rw [fragmentsLoop, if_neg hlast] at hstep hfile ⊢
    rw [flatMap_cons, flatMap_nil, append_nil] at hfile
    have hread := readFragment_ok hfile hstep.1 (nextFragment_length w isBegin left)
    have hall : left.length = w.fragmentLength left := by
      have : w.fragmentLength left ≤ left.length := Nat.min_le_left _ _
      omega
    have htype : ¬ ((nextFragment w isBegin left).type.toNat = RecordType.middle.toNat ∨
        (nextFragment w isBegin left).type.toNat = RecordType.first.toNat) := by
      rcases nextFragment_type_last w isBegin left hlast with h | h <;> rw [h] <;> decide
    have hdata : (nextFragment w isBegin left).data = left := by simp [nextFragment, ← hall]
    rw [LogReader.readLoop, hread]
    simp only [if_neg htype, Bool.or_self, Bool.false_eq_true, if_false, hdata]
    exact ⟨left, by simp [movedTo, offsetAfter, hdata]⟩

def InStepAll (blockSize : ℕ) (blockOffset : ℕ) (w : LogWriter) : List Bytes → Prop
  | [] => True
  | record :: records => InStep blockSize blockOffset (fragments w record) ∧
      InStepAll blockSize (offsetAfter blockSize blockOffset (fragments w record)) (w.append record)
        records

instance decidableInStepAll (blockSize : ℕ) :
    ∀ (blockOffset : ℕ) (w : LogWriter) (records : List Bytes),
    Decidable (InStepAll blockSize blockOffset w records)
  | _, _, [] => inferInstanceAs (Decidable True)
  | blockOffset, w, record :: records =>
    haveI := decidableInStepAll blockSize (offsetAfter blockSize blockOffset (fragments w record))
      (w.append record)
      records
    inferInstanceAs (Decidable (_ ∧ _))

def offsetAfterAll (blockSize : ℕ) (blockOffset : ℕ) (w : LogWriter) : List Bytes → ℕ
  | [] => blockOffset
  | record :: records =>
    offsetAfterAll blockSize (offsetAfter blockSize blockOffset (fragments w record))
      (w.append record) records

lemma read_record (w : LogWriter) (record : Bytes) (herror : r.reader.error = none)
    (hstep : InStep r.blockSize r.blockOffset (fragments w record))
    (hfile : r.reader.file = recordBytes w record ++ rest) :
    ∃ buffer, r.read = (some record,
      movedTo r rest buffer (offsetAfter r.blockSize r.blockOffset (fragments w record))) := by
  simp only [LogReader.read, herror, Option.any_none, Bool.false_eq_true, if_false]
  exact readLoop_fragments w true record [] hstep hfile

theorem readAll_records (w : LogWriter) (records : List Bytes) (herror : r.reader.error = none)
    (hstep : InStepAll r.blockSize r.blockOffset w records)
    (hfile : r.reader.file = recordsBytes w records ++ rest) :
    ∃ r' : LogReader, r'.reader.file = rest ∧ r'.reader.error = none ∧ r'.blockSize = r.blockSize ∧
      r'.verifyChecksum = r.verifyChecksum ∧
        r'.blockOffset = offsetAfterAll r.blockSize r.blockOffset w records ∧
      r.readAll = (records ++ r'.readAll.1, r'.readAll.2) := by
  induction records generalizing w r with
  | nil => exact ⟨r, hfile, herror, rfl, rfl, rfl, rfl⟩
  | cons record records ih =>
    rw [recordsBytes, append_assoc] at hfile
    obtain ⟨buffer, hread⟩ := read_record w record herror hstep.1 hfile
    obtain ⟨r', hrest, herror', hsize, hverify, hoffset, hall⟩ := ih
      (r := movedTo r _ buffer (offsetAfter r.blockSize r.blockOffset (fragments w record)))
        (w.append record)
      rfl hstep.2 rfl
    refine ⟨r', hrest, herror', hsize, hverify, hoffset, ?_⟩
    rw [LogReader.readAll_some hread, hall, cons_append]

lemma readLoop_short (hfile : r.reader.file.length <
    trailer r.blockSize r.blockOffset + kHeaderSize) (scratch : Bytes) (fail : Bool) :
    ∃ r' : LogReader, r'.error = some (.eof "read()") ∧ r.readLoop scratch fail = (none, r') := by
  obtain ⟨f, heof, hread⟩ := LogReader.readPhysicalRecord_header (r := r.skipTrailer) (by
    rw [skipTrailer_file, List.length_drop]
    have : 0 < kHeaderSize := by decide
    omega)
  refine ⟨_, ?_, by rw [LogReader.readLoop, hread]⟩
  exact heof

lemma readAll_short (hfile : r.reader.file.length < trailer r.blockSize r.blockOffset + kHeaderSize)
    (herror : r.reader.error = none) : r.readAll = ([], some (.eof "read()")) := by
  obtain ⟨r', heof, hloop⟩ := readLoop_short hfile [] false
  have hread : r.read = (none, r') := by simp [LogReader.read, herror, hloop]
  rw [LogReader.readAll_none hread, heof]

lemma readAll_nil (hfile : r.reader.file = []) (herror : r.reader.error = none) :
    r.readAll = ([], some (.eof "read()")) := readAll_short (by simp [hfile, kHeaderSize]) herror

lemma readAll_recordsBytes (w : LogWriter) (records : List Bytes) (herror : r.reader.error = none)
    (hstep : InStepAll r.blockSize r.blockOffset w records)
    (hfile : r.reader.file = recordsBytes w records) :
    r.readAll = (records, some (.eof "read()")) := by
  obtain ⟨r', hrest, herror', -, -, -, hall⟩ := readAll_records w records herror hstep
    (hfile.trans (append_nil _).symm)
  rw [hall, readAll_nil hrest herror', append_nil]

end Reading

lemma inStep_self (w : LogWriter) (isBegin : Bool) (left : Bytes) :
    InStep w.blockSize w.blockOffset (fragmentsLoop w isBegin left) ∧
      offsetAfter w.blockSize w.blockOffset (fragmentsLoop w isBegin left) =
        (w.appendLoop isBegin left).blockOffset := by
  induction w, isBegin, left using LogWriter.appendLoop.induct with
  | case1 w isBegin left hmore ih =>
    rw [emitFragment_blockSize, emitFragment_blockOffset] at ih
    rw [fragmentsLoop, if_pos hmore, LogWriter.appendLoop, if_pos hmore]
    exact ⟨⟨rfl, ih.1⟩, ih.2⟩
  | case2 w isBegin left hlast =>
    rw [fragmentsLoop, if_neg hlast, LogWriter.appendLoop, if_neg hlast, emitFragment_blockOffset]
    exact ⟨⟨rfl, trivial⟩, rfl⟩

lemma inStepAll_self (w : LogWriter) (records : List Bytes) :
    InStepAll w.blockSize w.blockOffset w records ∧
    offsetAfterAll w.blockSize w.blockOffset w records = (appendAll w records).blockOffset := by
  induction records generalizing w with
  | nil => exact ⟨trivial, rfl⟩
  | cons record records ih =>
    obtain ⟨hstep, hoffset⟩ := inStep_self w true record
    have hih := ih (w.append record)
    rw [append_blockSize] at hih
    refine ⟨⟨hstep, ?_⟩, ?_⟩
    · rw [fragments, hoffset]
      exact hih.1
    · rw [offsetAfterAll, fragments, hoffset]
      exact hih.2

/-- What one writer appends to a new file, a reader with the same block size returns, and then the
end of the file. -/
theorem readAll_appendAll (blockSize : ℕ) (accepted : kHeaderSize < blockSize ∧ blockSize ≤ 65542)
    (records : List Bytes) (verifyChecksum : Bool) :
    (LogReader.new (appendAll (LogWriter.new blockSize accepted []) records).file verifyChecksum
      blockSize).readAll =
      (records, some (.eof "read()")) := by
  let w := LogWriter.new blockSize accepted []
  exact readAll_recordsBytes w records rfl (inStepAll_self w records).1 (appendAll_file w records)

theorem readAll_nineByteBlocks :
    (LogReader.new (appendAll (LogWriter.new 9 (by decide) []) [[], [1, 2, 3], [4]]).file true
      9).readAll =
      ([[], [1, 2, 3], [4]], some (.eof "read()")) :=
  readAll_appendAll 9 (by decide) [[], [1, 2, 3], [4]] true

section Sessions
variable (blockSize : ℕ) (accepted : kHeaderSize < blockSize ∧ blockSize ≤ 65542)

/-- Each session opens the file at its end with a new writer, as `DBImpl::Recovery` does. -/
def sessionsFile : Bytes → List (List Bytes) → Bytes
  | file, [] => file
  | file, records :: sessions =>
    sessionsFile (appendAll (LogWriter.new blockSize accepted file) records).file sessions

def SessionsInStep : Bytes → ℕ → List (List Bytes) → Prop
  | _, _, [] => True
  | file, blockOffset, records :: sessions =>
    let w := LogWriter.new blockSize accepted file
    InStepAll blockSize blockOffset w records ∧
      SessionsInStep (appendAll w records).file (offsetAfterAll blockSize blockOffset w records)
      sessions

instance decidableSessionsInStep :
    ∀ (file : Bytes) (blockOffset : ℕ) (sessions : List (List Bytes)),
    Decidable (SessionsInStep blockSize accepted file blockOffset sessions)
  | _, _, [] => inferInstanceAs (Decidable True)
  | file, blockOffset, records :: sessions =>
    let w := LogWriter.new blockSize accepted file
    haveI := decidableSessionsInStep (appendAll w records).file
      (offsetAfterAll blockSize blockOffset w records) sessions
    inferInstanceAs (Decidable (_ ∧ _))

lemma sessionsFile_append (file : Bytes) (sessions : List (List Bytes)) :
    ∃ bytes, sessionsFile blockSize accepted file sessions = file ++ bytes := by
  induction sessions generalizing file with
  | nil => exact ⟨[], by simp [sessionsFile]⟩
  | cons records sessions ih =>
    obtain ⟨bytes, hbytes⟩ := ih (appendAll (LogWriter.new blockSize accepted file) records).file
    refine ⟨recordsBytes (LogWriter.new blockSize accepted file) records ++ bytes, hbytes.trans ?_⟩
    rw [appendAll_file, append_assoc]
    rfl

lemma readAll_sessionsFrom {file rest : Bytes} {sessions : List (List Bytes)} {r : LogReader}
    (hsize : r.blockSize = blockSize) (herror : r.reader.error = none)
    (hfile : r.reader.file = rest)
    (hrest : sessionsFile blockSize accepted file sessions = file ++ rest)
    (hstep : SessionsInStep blockSize accepted file r.blockOffset sessions) :
    r.readAll = (sessions.flatten, some (.eof "read()")) := by
  induction sessions generalizing file rest r with
  | nil =>
    have : rest = [] := by simpa [sessionsFile] using hrest
    exact readAll_nil (hfile.trans this) herror
  | cons records sessions ih =>
    let w := LogWriter.new blockSize accepted file
    obtain ⟨tail, htail⟩ :=
      sessionsFile_append blockSize accepted (appendAll w records).file sessions
    have hbytes : rest = recordsBytes w records ++ tail := by
      have heq : file ++ rest = file ++ (recordsBytes w records ++ tail) := by
        rw [← append_assoc, ← hrest]
        exact htail.trans (by rw [appendAll_file]; rfl)
      exact append_cancel_left heq
    subst hsize
    obtain ⟨r', hrest', herror', hsize', -, hoffset', hall⟩ :=
      readAll_records w records herror hstep.1
      (hfile.trans hbytes)
    rw [hall, ih hsize' herror' hrest' htail (by rw [hoffset']; exact hstep.2), flatten_cons]

/-- As long as no session's padding falls out of step, one reader over the whole file returns the
records of all sessions. -/
theorem readAll_sessions (sessions : List (List Bytes)) (verifyChecksum : Bool)
    (hstep : SessionsInStep blockSize accepted [] 0 sessions) :
    (LogReader.new (sessionsFile blockSize accepted [] sessions) verifyChecksum blockSize).readAll =
      (sessions.flatten, some (.eof "read()")) :=
  readAll_sessionsFrom blockSize accepted rfl rfl rfl rfl hstep

end Sessions

lemma kDefaultBlockSize_accepted : kHeaderSize < kDefaultBlockSize ∧ kDefaultBlockSize ≤ 65542 := by
    decide

lemma readAll_sessions_skipped (record : Bytes) (hrecord : record.length = 32758) :
    (LogReader.new (sessionsFile kDefaultBlockSize kDefaultBlockSize_accepted [] [[record], [[0]]])
      true
      kDefaultBlockSize).readAll = ([record], some (.eof "read()")) := by
  let w := LogWriter.new kDefaultBlockSize kDefaultBlockSize_accepted []
  let w' := LogWriter.new kDefaultBlockSize kDefaultBlockSize_accepted (appendAll w [record]).file
  have hfragments : fragments w record = [⟨0, .full, record⟩] :=
    fragments_full w record (by simp [w, LogWriter.new, hrecord, kHeaderSize, kDefaultBlockSize])
  have hrest : recordsBytes w' [[0]] = physicalRecord .full [0] := by
    rw [recordsBytes, recordsBytes, recordBytes, fragments_full w' [0]
      (by simp [w', LogWriter.new, kHeaderSize, kDefaultBlockSize])]
    simp [Fragment.bytes]
  have hfile : sessionsFile kDefaultBlockSize kDefaultBlockSize_accepted [] [[record], [[0]]] =
      recordsBytes w [record] ++ physicalRecord .full [0] := by
    have hw' : w'.file = recordsBytes w [record] := appendAll_file w [record]
    rw [← hrest, ← hw', sessionsFile, sessionsFile, sessionsFile, appendAll_file]
  have hoffset : offsetAfterAll kDefaultBlockSize 0 w [record] = 32765 := by
    simp [offsetAfterAll, hfragments, offsetAfter, nextOffset, leftOver, kDefaultBlockSize,
      kHeaderSize, hrecord]
  obtain ⟨r', hrest', herror, hsize, -, hoffset', hall⟩ := readAll_records
    (r := LogReader.new (recordsBytes w [record] ++ physicalRecord .full [0]) true
      kDefaultBlockSize) w [record]
    rfl (inStepAll_self w [record]).1 rfl
  have hshort : r'.reader.file.length < trailer r'.blockSize r'.blockOffset + kHeaderSize := by
    have hlen : r'.reader.file.length = 8 := by simp [hrest', physicalRecord, recordWrites]
    have hsize' : r'.blockSize = kDefaultBlockSize := hsize
    rw [hlen, hsize', hoffset'.trans hoffset]
    decide
  rw [hfile, hall, readAll_short hshort herror, append_nil]

/-- A record written by a second session is not read. -/
theorem readAll_sessions_lost :
    (LogReader.new (sessionsFile kDefaultBlockSize kDefaultBlockSize_accepted []
      [[List.replicate 32758 0], [[0]]]) true
      kDefaultBlockSize).readAll ≠
        ([[List.replicate 32758 0], [[0]]].flatten, some (.eof "read()")) := by
  rw [readAll_sessions_skipped _ length_replicate]
  generalize List.replicate 32758 (0 : UInt8) = record
  simp

theorem readAll_shortSessions :
    SessionsInStep kDefaultBlockSize kDefaultBlockSize_accepted [] 0 [[[1]], [], [[2, 3], []]] ∧
      (LogReader.new (sessionsFile kDefaultBlockSize kDefaultBlockSize_accepted [] [[[1]], [],
        [[2, 3], []]]) true
        kDefaultBlockSize).readAll = ([[1], [2, 3], []], some (.eof "read()")) := by
  have hstep : SessionsInStep kDefaultBlockSize kDefaultBlockSize_accepted [] 0 [[[1]], [],
      [[2, 3], []]] := by
    decide +kernel
  exact ⟨hstep, readAll_sessions _ _ _ _ hstep⟩

end Mai.DbLogFraming
