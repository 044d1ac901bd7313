import Mai.DbLogFraming

/-! A log that was cut at some byte. The reader ends with the end of the file wherever the cut is,
except inside the data of a record's last fragment. -/
namespace Mai.DbLogTorn
open ByteCodec CoreKeys BaseIo DbWriteAheadLog DbLogFraming List

def lastLength (fs : List Fragment) : ℕ := (fs.getLast?.map fun f => f.data.length).getD 0

/-- The records that lie completely inside the first `n` bytes that the writer adds. -/
def completeRecords (w : LogWriter) : List Bytes → ℕ → List Bytes
  | [], _ => []
  | record :: records, n =>
    if (recordBytes w record).length ≤ n then
      record :: completeRecords (w.append record) records (n - (recordBytes w record).length)
    else []

/-- The cut after `n` bytes leaves some, but not all, of the data of a record's last fragment. -/
def TornPayload (w : LogWriter) : List Bytes → ℕ → Prop
  | [], _ => False
  | record :: records, n =>
    (recordBytes w record).length - lastLength (fragments w record) < n ∧
      n < (recordBytes w record).length ∨
      (recordBytes w record).length ≤ n ∧
        TornPayload (w.append record) records (n - (recordBytes w record).length)

instance decidableTornPayload :
    ∀ (w : LogWriter) (records : List Bytes) (n : ℕ), Decidable (TornPayload w records n)
  | _, [], _ => inferInstanceAs (Decidable False)
  | w, record :: records, n =>
    haveI := decidableTornPayload (w.append record) records (n - (recordBytes w record).length)
    inferInstanceAs (Decidable (_ ∧ _ ∨ _ ∧ _))

variable {r : LogReader} {f : Fragment} {m : ℕ}

def Ends (x : Option Bytes × LogReader) : Prop := x.1 = none ∧ x.2.error = some (.eof "read()")

def Misreads (x : Option Bytes × LogReader) : Prop :=
  x.1.isSome ∨ x.1 = none ∧ x.2.error = some (.ioError "crc32 checksum fail.")

lemma readLoop_ends (hfile : r.reader.file.length < trailer r.blockSize r.blockOffset + kHeaderSize)
    (scratch : Bytes) (fail : Bool) : Ends (r.readLoop scratch fail) := by
  obtain ⟨r', heof, hloop⟩ := readLoop_short hfile scratch fail
  rw [hloop]
  exact ⟨rfl, heof⟩

section Cut
variable {f : Fragment} {k : ℕ}

lemma readFragment_cut
    (hfile : r.reader.file = List.replicate f.pad 0 ++ header f.type f.data ++ f.data.take k)
    (hpad : f.pad = trailer r.blockSize r.blockOffset) (hlen : f.data.length < 65536) (hk : k <
    f.data.length) :
    (k = 0 → ∃ g : FileReader, g.error = some (.eof "read()") ∧ r.skipTrailer.readPhysicalRecord =
      .error g) ∧
      (0 < k → ∃ fail r', r'.reader.file = [] ∧
        r.skipTrailer.readPhysicalRecord = .ok (⟨f.type.toNat, f.data.take k, fail⟩, r')) := by
  have hskip : r.skipTrailer.reader.file = header f.type f.data ++ f.data.take k := by
    rw [skipTrailer_file, hfile, append_assoc, ← hpad]
    exact drop_left' (by simp)
  obtain ⟨buffer, hphysical⟩ := readPhysicalRecord_header hskip hlen
  rw [hphysical]
  constructor
  · rintro rfl
    obtain ⟨herror, hrun, -⟩ := LogReader.tryRun_read_nil (f := ⟨f.data.take 0, buffer, none⟩)
      (n := f.data.length) rfl (by omega)
    exact ⟨_, herror, by rw [hrun]; rfl⟩
  · intro hpos
    have hne : f.data.take k ≠ [] := by
      rw [← length_pos_iff, length_take]
      omega
    let g : FileReader := ⟨f.data.take k, buffer, none⟩
    have hrun : LogReader.tryRun (g.read f.data.length) = .ok (g.read f.data.length) :=
      LogReader.tryRun_none (by simp [FileReader.read_error, g, hne])
    have hdata : (g.read f.data.length).1 = f.data.take k :=
      (FileReader.read_data hne).trans (take_of_length_le (by simp [g]))
    have hend : (g.read f.data.length).2.file = [] :=
      FileReader.read_file.trans (drop_eq_nil_of_le (by simp [g]))
    let fail := r.skipTrailer.verifyChecksum &&
      recordChecksum f.type.toNat f.data ≠ recordChecksum f.type.toNat (g.read f.data.length).1
    refine ⟨fail, { r.skipTrailer with
      reader := (g.read f.data.length).2
      blockOffset := r.skipTrailer.blockOffset + (kHeaderSize + f.data.length) }, hend, ?_⟩
    rw [hrun, ← hdata]
    rfl

end Cut

lemma length_bytes (f : Fragment) : f.bytes.length = f.pad + kHeaderSize + f.data.length := by
  simp [Fragment.bytes, physicalRecord_eq, Nat.add_assoc]

lemma take_bytes (hm : f.pad + kHeaderSize ≤ m) :
    f.bytes.take m = List.replicate f.pad 0 ++ header f.type f.data ++
      f.data.take (m - (f.pad + kHeaderSize)) := by
  rw [Fragment.bytes, physicalRecord_eq, ← append_assoc, take_append,
    take_of_length_le (by simp; omega)]
  simp

lemma readLoop_cutFragment (scratch : Bytes) (hpad : f.pad = trailer r.blockSize r.blockOffset)
    (hlen : f.data.length < 65536) (hm : m < f.bytes.length)
    (hfile : r.reader.file = f.bytes.take m) (hkind : m ≤ f.pad + kHeaderSize ∨ f.type = .first ∨
      f.type = .middle) : Ends (r.readLoop scratch false) := by
  rw [length_bytes] at hm
  by_cases hshort : m < f.pad + kHeaderSize
  · refine readLoop_ends ?_ scratch false
    rw [hfile, length_take, ← hpad]
    omega
  have hcut := hfile.trans (take_bytes (f := f) (m := m) (by omega))
  obtain ⟨hzero, hsome⟩ := readFragment_cut hcut hpad hlen (by omega)
  rcases Nat.eq_zero_or_pos (m - (f.pad + kHeaderSize)) with h0 | hpos
  · obtain ⟨g, heof, hread⟩ := hzero h0
    rw [LogReader.readLoop, hread]
    exact ⟨rfl, heof⟩
  · obtain ⟨fail, r', hend, hread⟩ := hsome hpos
    have htype : f.type.toNat = RecordType.middle.toNat ∨
        f.type.toNat = RecordType.first.toNat := by
      rcases hkind with h | h | h
      · omega
      · exact Or.inr (by rw [h])
      · exact Or.inl (by rw [h])
    rw [LogReader.readLoop, hread]
    simp only [if_pos htype]
    exact readLoop_ends (by simp [hend, kHeaderSize]) _ _

lemma readLoop_cutLast (scratch : Bytes) (hpad : f.pad = trailer r.blockSize r.blockOffset)
    (hlen : f.data.length < 65536) (hm : m < f.bytes.length)
    (hfile : r.reader.file = f.bytes.take m) (hinside : f.pad + kHeaderSize < m)
    (hkind : f.type = .full ∨ f.type = .last) :
    Misreads (r.readLoop scratch false) := by
  rw [length_bytes] at hm
  have hcut := hfile.trans (take_bytes (f := f) (m := m) (by omega))
  obtain ⟨fail, r', hend, hread⟩ := (readFragment_cut hcut hpad hlen (by omega)).2 (by omega)
  have htype : ¬ (f.type.toNat = RecordType.middle.toNat ∨
      f.type.toNat = RecordType.first.toNat) := by
    rcases hkind with h | h <;> rw [h] <;> decide
  rw [LogReader.readLoop, hread]
  simp only [if_neg htype, Bool.false_or]
  split_ifs
  · exact Or.inr ⟨rfl, rfl⟩
  · exact Or.inl rfl

lemma lastLength_cons {fs : List Fragment} (h : fs ≠ []) :
    lastLength (f :: fs) = lastLength fs := by
  rw [lastLength, lastLength, getLast?_cons_of_ne_nil h]

lemma lastLength_le (fs : List Fragment) : lastLength fs ≤ (fs.flatMap Fragment.bytes).length := by
  rw [lastLength]
  cases h : fs.getLast? with
  | none => simp
  | some f =>
    have hmem := mem_of_getLast? h
    have hsub : f.bytes.length ≤ (fs.flatMap Fragment.bytes).length := by
      rw [length_flatMap]
      exact single_le_sum (by simp) _ (List.mem_map_of_mem hmem)
    rw [length_bytes] at hsub
    simp only [Option.map_some, Option.getD_some]
    omega

lemma fragmentsLoop_ne_nil (w : LogWriter) (isBegin : Bool) (left : Bytes) :
    fragmentsLoop w isBegin left ≠ [] := by
  rw [fragmentsLoop]
  simp

lemma readLoop_cut (w : LogWriter) (isBegin : Bool) (left scratch : Bytes) (m : ℕ)
    (hstep : InStep r.blockSize r.blockOffset (fragmentsLoop w isBegin left))
    (hm : m < ((fragmentsLoop w isBegin left).flatMap Fragment.bytes).length)
    (hfile : r.reader.file = ((fragmentsLoop w isBegin left).flatMap Fragment.bytes).take m) :
    if ((fragmentsLoop w isBegin left).flatMap Fragment.bytes).length - lastLength
      (fragmentsLoop w isBegin left) < m
      then Misreads (r.readLoop scratch false) else Ends (r.readLoop scratch false) := by
  induction w, isBegin, left using LogWriter.appendLoop.induct generalizing r scratch m with
  | case1 w isBegin left hmore ih =>
    rw [fragmentsLoop, if_pos hmore] at hstep hm hfile ⊢
    set f := nextFragment w isBegin left
    set fs := fragmentsLoop (w.emitFragment isBegin left) false (left.drop (w.fragmentLength left))
    have hlen := nextFragment_length w isBegin left
    have hlast : lastLength (f :: fs) = lastLength fs :=
      lastLength_cons (fragmentsLoop_ne_nil _ _ _)
    have hle := lastLength_le fs
    simp only [flatMap_cons, length_append] at hm hfile ⊢
    rw [hlast]
    by_cases hf : m < f.bytes.length
    · rw [if_neg (by omega)]
      rw [take_append_of_le_length hf.le] at hfile
      exact readLoop_cutFragment scratch hstep.1 hlen hf hfile
        (Or.inr (nextFragment_type_more w isBegin left hmore))
    · have hrest : r.reader.file =
          f.bytes ++ (fs.flatMap Fragment.bytes).take (m - f.bytes.length) := by
        rw [hfile, take_append, take_of_length_le (not_lt.mp hf)]
      have hread := readFragment_ok hrest hstep.1 hlen
      have htype : f.type.toNat = RecordType.middle.toNat ∨
          f.type.toNat = RecordType.first.toNat := by
        rcases nextFragment_type_more w isBegin left hmore with h | h <;> simp [f, h]
      rw [LogReader.readLoop, hread]
      simp only [if_pos htype, Bool.or_self]
      have hcut := ih (r := { r with
        reader := ⟨_, f.data, none⟩
        blockOffset := nextOffset r.blockSize r.blockOffset f.data.length })
        (scratch ++ f.data) (m - f.bytes.length) hstep.2 (by omega) rfl
      have hiff : f.bytes.length + (fs.flatMap Fragment.bytes).length - lastLength fs < m ↔
          (fs.flatMap Fragment.bytes).length - lastLength fs < m - f.bytes.length := by omega
      simpa only [hiff] using hcut
  | case2 w isBegin left hlast =>
    rw [fragmentsLoop, if_neg hlast] at hstep hm hfile ⊢
    simp only [flatMap_cons, flatMap_nil, append_nil] at hm hfile ⊢
    have hsize : (nextFragment w isBegin left).bytes.length - lastLength
        [nextFragment w isBegin left] =
        (nextFragment w isBegin left).pad + kHeaderSize := by
      simp [lastLength, length_bytes]
    have hlen := nextFragment_length w isBegin left
    rw [hsize]
    split_ifs with hinside
    · exact readLoop_cutLast scratch hstep.1 hlen hm hfile hinside
        (nextFragment_type_last w isBegin left hlast)
    · exact readLoop_cutFragment scratch hstep.1 hlen hm hfile (Or.inl (not_lt.mp hinside))

lemma read_cut (w : LogWriter) (record : Bytes) (m : ℕ) (herror : r.reader.error = none)
    (hstep : InStep r.blockSize r.blockOffset (fragments w record))
    (hm : m < (recordBytes w record).length)
    (hfile : r.reader.file = (recordBytes w record).take m) :
    if (recordBytes w record).length - lastLength (fragments w record) < m then Misreads r.read
    else Ends r.read := by
  have hread : r.read = r.readLoop [] false := by simp [LogReader.read, herror]
  rw [hread]
  exact readLoop_cut w true record [] m hstep hm hfile

lemma readAll_misreads (h : Misreads r.read) : r.readAll ≠ ([], some (.eof "read()")) := by
  rcases hread : r.read with ⟨_ | record, r'⟩
  · rw [hread] at h
    rw [LogReader.readAll_none hread]
    rcases h with h | ⟨-, h⟩
    · simp at h
    · simp [show r'.error = some (.ioError "crc32 checksum fail.") from h]
  · rw [LogReader.readAll_some hread]
    simp

lemma readAll_ends (h : Ends r.read) : r.readAll = ([], some (.eof "read()")) := by
  rcases hread : r.read with ⟨_ | record, r'⟩
  · rw [hread] at h
    rw [LogReader.readAll_none hread, show r'.error = some (.eof "read()") from h.2]
  · rw [hread] at h
    simp [Ends] at h

lemma readAll_take (w : LogWriter) (records : List Bytes) (n : ℕ) (herror : r.reader.error = none)
    (hsize : r.blockSize = w.blockSize) (hoffset : r.blockOffset = w.blockOffset)
    (hfile : r.reader.file = (recordsBytes w records).take n) :
    r.readAll = (completeRecords w records n, some (.eof "read()")) ↔
      ¬ TornPayload w records n := by
  induction records generalizing w n r with
  | nil =>
    rw [readAll_nil (by simpa [recordsBytes] using hfile) herror]
    simp [completeRecords, TornPayload]
  | cons record records ih =>
    obtain ⟨hstep, hnext⟩ := inStep_self w true record
    rw [← hsize, ← hoffset] at hstep hnext
    by_cases hin : (recordBytes w record).length ≤ n
    · have hrest : r.reader.file = recordBytes w record ++
          (recordsBytes (w.append record) records).take (n - (recordBytes w record).length) := by
        rw [hfile, recordsBytes, take_append, take_of_length_le hin]
      obtain ⟨buffer, hread⟩ := read_record w record herror hstep hrest
      have hih := ih (r := movedTo r _ buffer (offsetAfter r.blockSize r.blockOffset
        (fragments w record))) (w.append record) (n - (recordBytes w record).length) rfl
        (hsize.trans (append_blockSize w record).symm) hnext rfl
      rw [LogReader.readAll_some hread, completeRecords, if_pos hin, TornPayload]
      simp only [hin, not_lt_of_ge hin, and_false, true_and, false_or]
      rw [← hih, Prod.ext_iff, Prod.ext_iff]
      simp
    · have hcut : r.reader.file = (recordBytes w record).take n := by
        rw [hfile, recordsBytes, take_append_of_le_length (not_le.mp hin).le]
      have hread := read_cut w record n herror hstep (not_le.mp hin) hcut
      rw [completeRecords, if_neg hin, TornPayload]
      simp only [hin, not_le.mp hin, and_true, false_and, or_false]
      split_ifs at hread with htorn
      · simp only [htorn, not_true_eq_false, iff_false]
        exact readAll_misreads hread
      · simp only [htorn, not_false_eq_true, iff_true]
        exact readAll_ends hread

def redo {S : Type} (handle : S → Bytes → Except Error S) (s : S) (file : Bytes) : Except Error S :=
  let (records, error) := (LogReader.new file true kDefaultBlockSize).readAll
  records.foldlM handle s >>= fun s =>
    match error with
    | none => .ok s
    | some e => if e.isEof then .ok s else .error e

/-- A log cut after `n` bytes is read up to the last record that is completely there and then ends,
exactly when the cut is not inside the data of a record's last fragment. In that case `Redo` handles
those records. -/
theorem readAll_torn_iff (blockSize : ℕ) (accepted : kHeaderSize < blockSize ∧ blockSize ≤ 65542)
    (records : List Bytes) (verifyChecksum : Bool) (n : ℕ) :
    let w := LogWriter.new blockSize accepted []
    let file := (appendAll w records).file.take n
    ((LogReader.new file verifyChecksum blockSize).readAll =
      (completeRecords w records n, some (.eof "read()")) ∧
      (verifyChecksum = true → blockSize = kDefaultBlockSize →
        ∀ {S : Type} (handle : S → Bytes → Except Error S) (s : S),
          redo handle s file = (completeRecords w records n).foldlM handle s)) ↔
      ¬ TornPayload w records n := by
  intro w file
  have hfile : file = (recordsBytes w records).take n := by
    rw [show file = (appendAll w records).file.take n from rfl, appendAll_file]
    rfl
  have hiff := readAll_take (r := LogReader.new file verifyChecksum blockSize) w records n rfl rfl
    rfl hfile
  refine ⟨fun h => hiff.mp h.1, fun h => ⟨hiff.mpr h, ?_⟩⟩
  rintro rfl rfl S handle s
  rw [redo, hiff.mpr h]
  change ((completeRecords w records n).foldlM handle s >>= fun s => Except.ok s) = _
  cases (completeRecords w records n).foldlM handle s <;> rfl

theorem readAll_cutHeader :
    let w := LogWriter.new kDefaultBlockSize kDefaultBlockSize_accepted []
    let file := (appendAll w [[7], [1, 2, 3]]).file.take 12
    ¬ TornPayload w [[7], [1, 2, 3]] 12 ∧
      (LogReader.new file true kDefaultBlockSize).readAll =
        (completeRecords w [[7], [1, 2, 3]] 12, some (.eof "read()")) := by
  intro w file
  have hcut : ¬ TornPayload w [[7], [1, 2, 3]] 12 := by decide +kernel
  exact ⟨hcut, ((readAll_torn_iff kDefaultBlockSize kDefaultBlockSize_accepted _ true 12).mpr
    hcut).1⟩

/-- A log of one record of three bytes, of which the first two are there: `Redo` reports a wrong
checksum. -/
theorem redo_tornPayload :
    let file := (appendAll (LogWriter.new kDefaultBlockSize kDefaultBlockSize_accepted [])
      [[1, 2, 3]]).file.take 9
    (LogReader.new file true kDefaultBlockSize).readAll =
      ([], some (.ioError "crc32 checksum fail.")) ∧
      redo (fun (s : List Bytes) record => .ok (s ++ [record])) [] file =
        .error (.ioError "crc32 checksum fail.") := by
  decide +kernel

end Mai.DbLogTorn
