import Mai.ByteCodec

/-!
# Heap tuples

A tuple (`sql/heap-tuple.cc`) packs the values of its columns that are not null one behind the
other. `GetOffset` counts the columns before a column by the size of that column itself, and
`CoverDateTime` has the types of `CoverString`.
-/
namespace Mai.SqlHeapTuple

open ByteCodec List

inductive SQLType
  | bigInt
  | int
  | smallInt
  | mediumInt
  | tinyInt
  | decimal
  | numeric
  | char
  | varchar
  | binary
  | varbinary
  | float
  | double
  | date
  | time
  | dateTime
  deriving DecidableEq, Repr

structure ColumnDescriptor where
  type : SQLType
  isUnsigned : Bool
  deriving DecidableEq, Repr

namespace SQLType

def size : SQLType → ℕ
  | date => 4
  | dateTime => 12
  | _ => 8

def isInteger : SQLType → Bool
  | bigInt | mediumInt | int | smallInt | tinyInt => true
  | _ => false

def coverF64 : SQLType → Bool
  | float | double => true
  | _ => false

def coverString : SQLType → Bool
  | char | varchar | binary | varbinary => true
  | _ => false

def coverDateTime : SQLType → Bool
  | char | varchar | binary | varbinary => true
  | _ => false

def coverDecimal : SQLType → Bool
  | decimal | numeric => true
  | _ => false

end SQLType

namespace ColumnDescriptor

def coverU64 (cd : ColumnDescriptor) : Bool := cd.type.isInteger && cd.isUnsigned

def coverI64 (cd : ColumnDescriptor) : Bool := cd.type.isInteger && !cd.isUnsigned

end ColumnDescriptor

/-- What a setter is given: the 64 bits of an integer, a floating number or a pointer to a string or
decimal, and the packed fields of dates and times. -/
inductive Value
  | word (x : UInt64)
  | date (d : UInt32)
  | time (t : UInt64)
  | dateTime (d : UInt32) (t : UInt64)
  deriving DecidableEq, Repr

def Value.bytes : Value → List UInt8
  | word x => toFixed 8 x.toNat
  | date d => toFixed 4 d.toNat
  | time t => toFixed 8 t.toNat
  | dateTime d t => toFixed 4 d.toNat ++ toFixed 8 t.toNat

/-- Where a value lies in the union `HeapRawData`: a time lies behind the date of a
`SQLDateTime`. -/
def Value.place : Value → ℕ
  | time _ => 4
  | _ => 0

def SQLType.place : SQLType → ℕ
  | time => 4
  | _ => 0

structure Builder where
  nullBitmap : List (BitVec 32)
  unpacked : List (List UInt8)

def testBit (bitmap : List (BitVec 32)) (i : ℕ) : Bool :=
  bitmap.getD (i / 32) 0#32 &&& 1#32 <<< (i % 32) ≠ 0#32

inductive Call
  | set (i : ℕ) (v : Value)
  | setNull (i : ℕ)

namespace Builder

variable (schema : List ColumnDescriptor)

def new : Builder :=
  ⟨List.replicate ((schema.length + 31) / 32) (BitVec.allOnes 32),
    List.replicate schema.length (List.replicate 12 0)⟩

def store (raw : List UInt8) (v : Value) : List UInt8 :=
  raw.take v.place ++ v.bytes ++ raw.drop (v.place + v.bytes.length)

def step (b : Builder) : Call → Builder
  | .set i v => ⟨b.nullBitmap.modify (i / 32) (· &&& ~~~(1#32 <<< (i % 32))),
      b.unpacked.modify i (store · v)⟩
  | .setNull i => { b with nullBitmap := b.nullBitmap.modify (i / 32) (· ||| 1#32 <<< (i % 32)) }

end Builder

structure HeapTuple where
  schema : List ColumnDescriptor
  nullBitmap : List (BitVec 32)
  data : List UInt8

def SQLType.field (type : SQLType) (raw : List UInt8) : List UInt8 :=
  (raw.drop type.place).take type.size

def Builder.build (b : Builder) (schema : List ColumnDescriptor) : HeapTuple where
  schema := schema
  nullBitmap := b.nullBitmap
  data := (List.range schema.length).flatMap fun i =>
    if testBit b.nullBitmap i then []
    else ((schema[i]?).map fun cd => cd.type.field (b.unpacked.getD i [])).getD []

namespace HeapTuple

variable (t : HeapTuple) (i : ℕ) (cd : ColumnDescriptor)

def isNull : Bool := testBit t.nullBitmap i

def getOffset : ℕ := ((List.range i).filter fun j => ¬t.isNull j).length * cd.type.size

def address (n : ℕ) : Option (List UInt8) :=
  let b := (t.data.drop (t.getOffset i cd)).take n
  if b.length = n then some b else none

/-- `GetU64`, `GetI64`, `GetF64`, `GetRawString` and `GetDecimal`, by what they cover. -/
def getWord (covers : Bool) : Option Value :=
  if t.isNull i ∨ covers = false then some (.word 0)
  else (t.address i cd 8).map fun b => .word (UInt64.ofNat (ofFixed b))

def getDateTime : Option (UInt32 × UInt64) :=
  if t.isNull i ∨ cd.type.coverDateTime = false then some (0, 0)
  else match cd.type with
    | .time => (t.address i cd 8).map fun b => (0, UInt64.ofNat (ofFixed b))
    | .date => (t.address i cd 4).map fun b => (UInt32.ofNat (ofFixed b), 0)
    | _ => (t.address i cd 12).map fun b =>
      (UInt32.ofNat (ofFixed (b.take 4)), UInt64.ofNat (ofFixed (b.drop 4)))

def get : Option Value :=
  match cd.type with
  | .date => (t.getDateTime i cd).map fun dt => .date dt.1
  | .time => (t.getDateTime i cd).map fun dt => .time dt.2
  | .dateTime => (t.getDateTime i cd).map fun dt => .dateTime dt.1 dt.2
  | .float | .double => t.getWord i cd cd.type.coverF64
  | .char | .varchar | .binary | .varbinary => t.getWord i cd cd.type.coverString
  | .decimal | .numeric => t.getWord i cd cd.type.coverDecimal
  | _ => t.getWord i cd (if cd.isUnsigned then cd.coverU64 else cd.coverI64)

end HeapTuple

def Fits : SQLType → Value → Prop
  | .date, .date _ => True
  | .time, .time _ => True
  | .dateTime, .dateTime _ _ => True
  | .date, _ | .time, _ | .dateTime, _ => False
  | _, .word _ => True
  | _, _ => False

def Call.Accepted (schema : List ColumnDescriptor) : Call → Prop
  | .set i v => ∃ cd, schema[i]? = some cd ∧ Fits cd.type v
  | .setNull i => i < schema.length

def lastSet (i : ℕ) (calls : List Call) : Option Value :=
  calls.foldl (fun last c => match c with
    | .set j v => if j = i then some v else last
    | .setNull j => if j = i then none else last) none

def tuple (schema : List ColumnDescriptor) (calls : List Call) : HeapTuple :=
  (calls.foldl Builder.step (Builder.new schema)).build schema

def Reads (schema : List ColumnDescriptor) (calls : List Call) (i : ℕ) (cd : ColumnDescriptor) :
    Prop :=
  match lastSet i calls with
  | none => (tuple schema calls).isNull i
  | some v => ¬(tuple schema calls).isNull i ∧ (tuple schema calls).get i cd = some v

def packed (schema : List ColumnDescriptor) (calls : List Call) : List UInt8 :=
  (List.range schema.length).flatMap fun j => (lastSet j calls).elim [] Value.bytes

/-- The column is not set; or it has a date or time of zero; or the value stands in the packed
values behind eight bytes for each column that is set before it. -/
def Holds (schema : List ColumnDescriptor) (calls : List Call) (i : ℕ) : Prop :=
  match lastSet i calls with
  | none => True
  | some (.word x) =>
    ((packed schema calls).drop
      (((List.range i).filter fun j => (lastSet j calls).isSome).length * 8)).take 8 =
      Value.bytes (.word x)
  | some (.date d) => d = 0
  | some (.time t) => t = 0
  | some (.dateTime d t) => d = 0 ∧ t = 0

lemma testBit_eq (bitmap : List (BitVec 32)) (i : ℕ) :
    testBit bitmap i = (bitmap.getD (i / 32) 0#32).getLsbD (i % 32) := by
  have hbit : (BitVec.twoPow 32 (i % 32)).getLsbD (i % 32) = true := by simp [Nat.mod_lt]
  rw [testBit, ← BitVec.twoPow_eq, BitVec.and_twoPow]
  cases h : (bitmap.getD (i / 32) 0#32).getLsbD (i % 32) with
  | false => rfl
  | true =>
    refine decide_eq_true fun hzero => ?_
    rw [if_pos rfl] at hzero
    rw [hzero, BitVec.getLsbD_zero] at hbit
    cases hbit

variable {bitmap : List (BitVec 32)} {i : ℕ}

lemma testBit_modify (f : BitVec 32 → BitVec 32) (j : ℕ) (hi : i / 32 < bitmap.length) :
    testBit (bitmap.modify (i / 32) f) j =
      if i / 32 = j / 32 then (f (bitmap.getD (i / 32) 0#32)).getLsbD (j % 32)
      else testBit bitmap j := by
  rw [testBit_eq, testBit_eq, getD_eq_getElem?_getD, getElem?_modify]
  split_ifs with h
  · rw [← h, getElem?_eq_getElem hi, getD_eq_getElem _ _ hi]
    rfl
  · simp

lemma same_bit {i j : ℕ} (h : i / 32 = j / 32) : i % 32 = j % 32 ↔ j = i := by omega

lemma testBit_setNull (j : ℕ) (hi : i / 32 < bitmap.length) :
    testBit (bitmap.modify (i / 32) (· ||| 1#32 <<< (i % 32))) j =
      (decide (j = i) || testBit bitmap j) := by
  rw [testBit_modify _ j hi]
  split_ifs with h
  · have hlt : i % 32 < 32 := Nat.mod_lt i (by decide)
    rw [← BitVec.twoPow_eq, BitVec.getLsbD_or, BitVec.getLsbD_twoPow, testBit_eq, h, Bool.or_comm]
    simp only [hlt, same_bit h, decide_true, Bool.true_and]
  · simp [show j ≠ i from fun he => h (by rw [he])]

lemma testBit_set (j : ℕ) (hi : i / 32 < bitmap.length) :
    testBit (bitmap.modify (i / 32) (· &&& ~~~(1#32 <<< (i % 32)))) j =
      (!decide (j = i) && testBit bitmap j) := by
  rw [testBit_modify _ j hi]
  split_ifs with h
  · have hlt (k : ℕ) : k % 32 < 32 := Nat.mod_lt k (by decide)
    rw [← BitVec.twoPow_eq, BitVec.getLsbD_and, BitVec.getLsbD_not, BitVec.getLsbD_twoPow,
      testBit_eq, h, Bool.and_comm]
    simp only [hlt, same_bit h, decide_true, Bool.true_and]
  · simp [show j ≠ i from fun he => h (by rw [he])]

section Calls

variable {schema : List ColumnDescriptor} {calls : List Call} {b : Builder} {v : Value}

lemma lastSet_set (i j : ℕ) (v : Value) (calls : List Call) :
    lastSet i (calls ++ [.set j v]) = if j = i then some v else lastSet i calls := by
  simp [lastSet, foldl_append]

lemma lastSet_setNull (i j : ℕ) (calls : List Call) :
    lastSet i (calls ++ [.setNull j]) = if j = i then none else lastSet i calls := by
  simp [lastSet, foldl_append]

lemma length_bytes {type : SQLType} (h : Fits type v) :
    v.bytes.length = type.size ∧ v.place = type.place := by
  cases type <;> cases v <;> first | exact h.elim | simp [Value.bytes, SQLType.size, Value.place,
    SQLType.place]

lemma length_store {raw : List UInt8} {type : SQLType} (h : Fits type v) (hraw : raw.length = 12) :
    (Builder.store raw v).length = 12 ∧ type.field (Builder.store raw v) = v.bytes := by
  obtain ⟨hlen, hplace⟩ := length_bytes h
  have hfit : type.place + type.size ≤ 12 := by cases type <;> decide
  have htake : (raw.take type.place).length = type.place := by
    rw [length_take]
    omega
  rw [Builder.store, SQLType.field, hplace, append_assoc, drop_left' htake, take_left' hlen]
  refine ⟨?_, rfl⟩
  simp only [length_append, List.length_drop, htake, hlen]
  omega

structure Inv (schema : List ColumnDescriptor) (calls : List Call) (b : Builder) : Prop where
  words : b.nullBitmap.length = (schema.length + 31) / 32
  columns : b.unpacked.length = schema.length
  raws : ∀ i < schema.length, (b.unpacked.getD i []).length = 12
  null : ∀ i < schema.length, testBit b.nullBitmap i = (lastSet i calls).isNone
  stored : ∀ i cd v, schema[i]? = some cd → lastSet i calls = some v → Fits cd.type v ∧
    cd.type.field (b.unpacked.getD i []) = v.bytes

lemma word_lt {i n : ℕ} (h : i < n) : i / 32 < (n + 31) / 32 := by omega

lemma inv_new : Inv schema [] (Builder.new schema) where
  words := by simp [Builder.new]
  columns := by simp [Builder.new]
  raws i hi := by simp [Builder.new, hi]
  null i hi := by
    rw [testBit_eq, Builder.new]
    dsimp only
    rw [getD_replicate _ (word_lt hi), BitVec.getLsbD_allOnes]
    simp [lastSet, Nat.mod_lt]
  stored i cd v _ h := by simp [lastSet] at h

lemma Inv.setNull (h : Inv schema calls b) {i : ℕ} (hi : i < schema.length) :
    Inv schema (calls ++ [.setNull i]) (b.step (.setNull i)) where
  words := by rw [Builder.step, length_modify, h.words]
  columns := h.columns
  raws := h.raws
  null j hj := by
    rw [Builder.step, testBit_setNull j (by rw [h.words]; exact word_lt hi), h.null j hj,
      lastSet_setNull]
    by_cases hji : j = i
    · simp [hji]
    · simp [hji, Ne.symm hji]
  stored j cd v hcd hv := by
    rw [lastSet_setNull] at hv
    split_ifs at hv
    exact h.stored j cd v hcd hv

lemma Inv.set (h : Inv schema calls b) {i : ℕ} {cd : ColumnDescriptor} (hcd : schema[i]? = some cd)
    (hfits : Fits cd.type v) : Inv schema (calls ++ [.set i v]) (b.step (.set i v)) := by
  obtain ⟨hi, -⟩ := List.getElem?_eq_some_iff.mp hcd
  have hi' : i < b.unpacked.length := by rw [h.columns]; exact hi
  have hraw (j : ℕ) : (b.step (.set i v)).unpacked.getD j [] =
      if i = j then Builder.store (b.unpacked.getD i []) v else b.unpacked.getD j [] := by
    rw [Builder.step, getD_eq_getElem?_getD, getElem?_modify]
    split_ifs with hij
    · simp [← hij, hi']
    · simp
  have hlen := h.raws i hi
  refine ⟨by rw [Builder.step, length_modify, h.words],
    by rw [Builder.step, length_modify, h.columns], ?_, ?_, ?_⟩
  · intro j hj
    rw [hraw]
    split_ifs
    · exact (length_store hfits hlen).1
    · exact h.raws j hj
  · intro j hj
    rw [Builder.step, testBit_set j (by rw [h.words]; exact word_lt hi), h.null j hj, lastSet_set]
    by_cases hji : j = i
    · simp [hji]
    · simp [hji, Ne.symm hji]
  · intro j cd' v' hcd' hv'
    rw [lastSet_set] at hv'
    rw [hraw]
    split_ifs at * with hij
    · subst hij
      cases hv'
      cases hcd.symm.trans hcd'
      exact ⟨hfits, (length_store hfits hlen).2⟩
    · exact h.stored j cd' v' hcd' hv'

lemma inv_run (h : ∀ c ∈ calls, c.Accepted schema) :
    Inv schema calls (calls.foldl Builder.step (Builder.new schema)) := by
  induction calls using List.reverseRecOn with
  | nil => exact inv_new
  | append_singleton calls c ih =>
    have hrun := ih fun c hc => h c (by simp [hc])
    rw [foldl_append]
    have hc := h c (by simp)
    cases c with
    | set i v =>
      obtain ⟨cd, hcd, hfits⟩ := hc
      exact hrun.set hcd hfits
    | setNull i => exact hrun.setNull hc

end Calls

section Getters

variable {schema : List ColumnDescriptor} {calls : List Call} {i : ℕ} {cd : ColumnDescriptor}

lemma isNull_iff (h : ∀ c ∈ calls, c.Accepted schema) {j : ℕ} (hj : j < schema.length) :
    (tuple schema calls).isNull j = (lastSet j calls).isNone :=
  (inv_run h).null j hj

lemma data_eq (h : ∀ c ∈ calls, c.Accepted schema) :
    (tuple schema calls).data = packed schema calls := by
  rw [tuple, Builder.build, packed]
  refine flatMap_congr fun j hj => ?_
  have hj := mem_range.mp hj
  have hinv := inv_run h
  rw [hinv.null j hj]
  cases hlast : lastSet j calls with
  | none => rfl
  | some v =>
    have hcd := getElem?_eq_getElem hj
    rw [hcd]
    exact (hinv.stored j _ v hcd hlast).2

lemma getOffset_eq (h : ∀ c ∈ calls, c.Accepted schema) (hi : i < schema.length) :
    (tuple schema calls).getOffset i cd =
      ((List.range i).filter fun j => (lastSet j calls).isSome).length * cd.type.size := by
  rw [HeapTuple.getOffset]
  congr 2
  refine filter_congr fun j hj => ?_
  rw [isNull_iff h (by have := mem_range.mp hj; omega)]
  cases lastSet j calls <;> rfl

lemma word_iff {b : List UInt8} {x : UInt64} :
    (if b.length = 8 then some b else none).map (fun b => Value.word (UInt64.ofNat (ofFixed b))) =
      some (.word x) ↔
      b = toFixed 8 x.toNat := by
  constructor
  · intro h
    split_ifs at h with hlen
    · have hx : UInt64.ofNat (ofFixed b) = x := by simpa using h
      have hlt := ofFixed_lt b
      rw [hlen] at hlt
      rw [← hx, UInt64.toNat_ofNat_of_lt' hlt, ← hlen, toFixed_ofFixed]
    · cases h
  · rintro rfl
    have hlt : x.toNat < 256 ^ 8 := x.toNat_lt
    rw [if_pos (length_toFixed 8 _), Option.map_some, ofFixed_toFixed hlt, UInt64.ofNat_toNat]

lemma getWord_iff (h : ∀ c ∈ calls, c.Accepted schema) (hi : i < schema.length)
    (hsize : cd.type.size = 8) {x : UInt64} (hset : lastSet i calls = some (.word x)) :
    (tuple schema calls).getWord i cd true = some (.word x) ↔ Holds schema calls i := by
  have hnull : (tuple schema calls).isNull i = false := by rw [isNull_iff h hi, hset]; rfl
  rw [HeapTuple.getWord, if_neg (by simp [hnull]), HeapTuple.address, getOffset_eq h hi, hsize,
    data_eq h, word_iff, Holds, hset]
  rfl

lemma getDateTime_zero (t : HeapTuple) (i : ℕ) {cd : ColumnDescriptor}
    (h : cd.type.coverDateTime = false) :
    t.getDateTime i cd = some (0, 0) := if_pos (.inr h)

end Getters

/-- A column is read as it was last set exactly if its value stands where columns of eight bytes put
it. -/
theorem reads_iff (schema : List ColumnDescriptor) (calls : List Call)
    (h : ∀ c ∈ calls, c.Accepted schema) (i : ℕ) (cd : ColumnDescriptor)
    (hcd : schema[i]? = some cd) : Reads schema calls i cd ↔ Holds schema calls i := by
  obtain ⟨hi, -⟩ := List.getElem?_eq_some_iff.mp hcd
  have hnull := isNull_iff h hi
  rw [Reads]
  cases hset : lastSet i calls with
  | none => simp [Holds, hset, hnull]
  | some v =>
    have hfits := ((inv_run h).stored i cd v hcd hset).1
    rw [hset] at hnull
    simp only [hnull, Option.isNone_some, Bool.false_eq_true, not_false_eq_true, true_and]
    cases v with
    | word x =>
      obtain ⟨type, isUnsigned⟩ := cd
      cases type
      case date | time | dateTime => exact hfits.elim
      all_goals
        cases isUnsigned
        all_goals exact getWord_iff h hi rfl hset
    | date d | time t | dateTime d t =>
      obtain ⟨type, isUnsigned⟩ := cd
      cases type
      all_goals try exact hfits.elim
      all_goals
        rw [HeapTuple.get]
        dsimp only
        rw [getDateTime_zero _ _ rfl]
        simp [Holds, hset, eq_comm]

theorem reads_second :
    Reads [⟨.int, true⟩, ⟨.bigInt, false⟩] [.set 1 (.word 3), .set 0 (.word 7),
      .set 1 (.word 5)] 1 ⟨.bigInt, false⟩ := by
  refine (reads_iff [⟨.int, true⟩, ⟨.bigInt, false⟩] [.set 1 (.word 3), .set 0 (.word 7),
    .set 1 (.word 5)] ?_ 1
    ⟨.bigInt, false⟩ rfl).mpr (show _ = _ by decide)
  simp [Call.Accepted, Fits]

theorem reads_wrong :
    ¬Reads [⟨.date, false⟩, ⟨.int, false⟩] [.set 0 (.date 5), .set 1 (.word 3)] 1 ⟨.int, false⟩ ∧
      ¬Reads [⟨.date, false⟩, ⟨.int, false⟩] [.set 0 (.date 5), .set 1 (.word 3)] 0 ⟨.date,
        false⟩ := by
  refine ⟨fun h => absurd h.2 (by decide), fun h => absurd h.2 (by decide)⟩

end Mai.SqlHeapTuple
