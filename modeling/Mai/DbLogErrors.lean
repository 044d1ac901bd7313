import Mai.DbWriteAheadLog

/-! `LogWriter::Append` on a file whose writes can fail. The macro `TRY_RUN` evaluates an error and
goes on, so no failure of a physical write reaches the caller. -/
namespace Mai.DbLogErrors
open ByteCodec CoreKeys BaseIo DbWriteAheadLog

structure Device where
  file : Bytes
  calls : ℕ

abbrev Failures := ℕ → Bool

def Device.append (fails : Failures) (d : Device) (data : Bytes) : Option Error × Device :=
  if fails d.calls then (some (.ioError "write"), { d with calls := d.calls + 1 })
  else (none, ⟨d.file ++ data, d.calls + 1⟩)

/-- `block_offset_` is an `int`. -/
structure Writer where
  blockSize : ℕ
  blockOffset : ℤ
  device : Device

namespace Writer

/-- `TRY_RUN(writer_.Write(data))`: the statement `rs;` that follows a failure has no effect. -/
def tryRun (fails : Failures) (w : Writer) (data : Bytes) : Writer :=
  { w with device := (w.device.append fails data).2 }

/-- `block_size_ - block_offset_ - size` in the arithmetic of `size_t`. -/
def room (w : Writer) (size : ℕ) : ℕ := ((w.blockSize - w.blockOffset - size) % 2 ^ 64).toNat

def padTrailer (fails : Failures) (w : Writer) : Writer :=
  if w.room 0 < kHeaderSize then
    { (if 0 < w.room 0 then w.tryRun fails (List.replicate (w.room 0) 0) else w) with
      blockOffset := 0 }
  else w

def emitPhysicalRecord (fails : Failures) (w : Writer) (data : Bytes) (type : RecordType) :
    Option Error × Writer :=
  let w := (recordWrites type data).foldl (tryRun fails) w
  (none, { w with blockOffset := (w.blockOffset + (kHeaderSize + data.length)).bmod (2 ^ 32) })

/-- One round of the loop in `Append`: its status, the writer and the data left. -/
def turn (fails : Failures) (w : Writer) (isBegin : Bool) (left : Bytes) :
    Option Error × Writer × Bytes :=
  let w := w.padTrailer fails
  let n := min left.length (w.room kHeaderSize)
  let r := w.emitPhysicalRecord fails (left.take n) (fragmentType isBegin (left.length = n))
  (r.1, r.2, left.drop n)

def goesOn (r : Option Error × Writer × Bytes) : Bool := r.1.isNone && decide (0 < r.2.2.length)

end Writer

inductive Returns (fails : Failures) : Writer → Bool → Bytes → Option Error → Writer → Prop
  | stop {w : Writer} {isBegin : Bool} {left : Bytes} :
      (Writer.goesOn (w.turn fails isBegin left)) = false →
      Returns fails w isBegin left (w.turn fails isBegin left).1 (w.turn fails isBegin left).2.1
  | again {w w' : Writer} {isBegin : Bool} {left : Bytes} {rs : Option Error} :
      Writer.goesOn (w.turn fails isBegin left) = true →
      Returns fails (w.turn fails isBegin left).2.1 false (w.turn fails isBegin left).2.2 rs w' →
      Returns fails w isBegin left rs w'

inductive Writes (fails : Failures) : Writer → Bool → Bytes → ℕ → Prop
  | here {w : Writer} {isBegin : Bool} {left : Bytes} {i : ℕ} : w.device.calls ≤ i →
      i < (w.turn fails isBegin left).2.1.device.calls → Writes fails w isBegin left i
  | later {w : Writer} {isBegin : Bool} {left : Bytes} {i : ℕ} :
      Writer.goesOn (w.turn fails isBegin left) = true →
      Writes fails (w.turn fails isBegin left).2.1 false (w.turn fails isBegin left).2.2 i →
      Writes fails w isBegin left i

def Reported (fails : Failures) (w : Writer) (record : Bytes) : Prop :=
  ∀ i, Writes fails w true record i → fails i = true →
    ∃ error w', Returns fails w true record (some error) w'

section Errors
variable {fails : Failures} {w w' : Writer} {isBegin : Bool} {left record : Bytes}
  {rs : Option Error}

lemma turn_status : (w.turn fails isBegin left).1 = none := rfl

lemma returns_ok (h : Returns fails w isBegin left rs w') : rs = none := by
  induction h with
  | stop => exact turn_status
  | again _ _ ih => exact ih

/-- Every failing write is reported exactly if none fails: the status of a write is lost. -/
theorem reported_iff (fails : Failures) (w : Writer) (record : Bytes) :
    Reported fails w record ↔ ∀ i, Writes fails w true record i → fails i = false := by
  constructor
  · intro h i hi
    by_contra hfail
    obtain ⟨error, w', hr⟩ := h i hi (by simpa using hfail)
    cases returns_ok hr
  · intro h i hi hfail
    rw [h i hi] at hfail
    cases hfail

/-- The write of the payload fails and `Append` of one byte returns OK. -/
theorem payload_not_reported :
    ¬ Reported (fun i => i == 3) ⟨kDefaultBlockSize, 0, ⟨[], 0⟩⟩ [1] := by
  rw [reported_iff]
  intro h
  have hwrites : Writes (fun i => i == 3) ⟨kDefaultBlockSize, 0, ⟨[], 0⟩⟩ true [1] 3 :=
    .here (by decide) (by decide)
  exact absurd (h 3 hwrites) (by decide)

end Errors

/-! Without failures this is the writer of the log framing. -/

def never : Failures := fun _ => false

def ofWriter (w : LogWriter) (calls : ℕ) : Writer := ⟨w.blockSize, w.blockOffset, ⟨w.file, calls⟩⟩

lemma room_ofWriter (w : LogWriter) (calls size : ℕ) (h : w.blockOffset + size ≤ w.blockSize) :
    (ofWriter w calls).room size = w.blockSize - w.blockOffset - size := by
  have haccepted := w.accepted.2
  have hfits : ((w.blockSize : ℤ) - w.blockOffset - size) % 2 ^ 64
      = (w.blockSize - w.blockOffset - size : ℕ) := by
    rw [Int.emod_eq_of_lt (by omega) (by omega)]
    omega
  rw [Writer.room, ofWriter, hfits, Int.toNat_natCast]

lemma padTrailer_never (w : LogWriter) (calls : ℕ) :
    ∃ calls', (ofWriter w calls).padTrailer never = ofWriter w.padTrailer calls' := by
  have haccepted := w.accepted.2
  have hroom : (ofWriter w calls).room 0 = leftOver w.blockSize w.blockOffset := by
    rw [room_ofWriter w calls 0 w.inBlock, leftOver_of_le w.inBlock (by omega), Nat.sub_zero]
  rw [Writer.padTrailer, LogWriter.padTrailer, hroom]
  split_ifs with hshort hpos
  · exact ⟨calls + 1, rfl⟩
  · have hzero : leftOver w.blockSize w.blockOffset = 0 := by omega
    exact ⟨calls, by simp [ofWriter, hzero]⟩
  · exact ⟨calls, rfl⟩

lemma emit_never (w : LogWriter) (calls : ℕ) (data : Bytes) (type : RecordType)
    (h : w.blockOffset + kHeaderSize + data.length ≤ w.blockSize) :
    (ofWriter w calls).emitPhysicalRecord never data type =
      (none, ofWriter (w.emitPhysicalRecord data type h) (calls + 4)) := by
  have haccepted := w.accepted.2
  have hint : (w.blockOffset + (kHeaderSize + data.length) : ℤ).bmod (2 ^ 32) =
      (w.blockOffset + (kHeaderSize + data.length) : ℕ) := by
    rw [Int.bmod_eq_of_le (by omega) (by omega)]
    omega
  rw [Writer.emitPhysicalRecord]
  refine congrArg (Prod.mk none) ?_
  dsimp only [ofWriter, LogWriter.emitPhysicalRecord]
  rw [← hint]
  simp [Writer.tryRun, Device.append, never, physicalRecord, recordWrites]

lemma turn_never (w : LogWriter) (calls : ℕ) (isBegin : Bool) (left : Bytes) :
    ∃ calls', (ofWriter w calls).turn never isBegin left =
      (none, ofWriter (w.emitFragment isBegin left) calls', left.drop (w.fragmentLength left)) := by
  obtain ⟨calls', hpad⟩ := padTrailer_never w calls
  refine ⟨calls' + 4, ?_⟩
  rw [Writer.turn, hpad, room_ofWriter _ _ _ w.padTrailer_inBlock]
  rw [← LogWriter.fragmentLength, emit_never _ _ _ _ (w.fragment_inBlock left)]
  rfl

/-- On a file that takes every write, `Append` returns OK and leaves what the writer model says. -/
theorem append_never (w : LogWriter) (record : Bytes) (calls : ℕ) :
    ∃ calls', Returns never (ofWriter w calls) true record none
      (ofWriter (w.append record) calls') := by
  rw [LogWriter.append]
  generalize true = isBegin
  induction w, isBegin, record using LogWriter.appendLoop.induct generalizing calls with
  | case1 w isBegin left hleft ih =>
    obtain ⟨calls₁, hturn⟩ := turn_never w calls isBegin left
    obtain ⟨calls₂, hrest⟩ := ih calls₁
    refine ⟨calls₂, .again ?_ ?_⟩
    · rw [hturn]
      simpa [Writer.goesOn] using hleft
    · rw [hturn, LogWriter.appendLoop, if_pos hleft]
      exact hrest
  | case2 w isBegin left hleft =>
    obtain ⟨calls₁, hturn⟩ := turn_never w calls isBegin left
    have hstop : Writer.goesOn ((ofWriter w calls).turn never isBegin left) = false := by
      rw [hturn]
      simpa [Writer.goesOn] using hleft
    have hr := Returns.stop hstop
    rw [hturn] at hr
    refine ⟨calls₁, ?_⟩
    rw [LogWriter.appendLoop, if_neg hleft]
    exact hr

end Mai.DbLogErrors
