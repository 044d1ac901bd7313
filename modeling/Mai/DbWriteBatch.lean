import Mai.TxnWriteBatch

/-! The bytes of a write batch and how they are read back (`include/mai/write-batch.h`,
`db/write-batch.cc`, `KeyBoundle::MakeRedo`). -/
namespace Mai.DbWriteBatch
open ByteCodec CoreKeys TxnWriteBatch List

/-- A call of `WriteBatch`, and the call of a stub that `Iterate` makes for it. -/
inductive Op
  | put (cfid : UInt32) (key value : Bytes)
  | delete (cfid : UInt32) (key : Bytes)
  deriving DecidableEq, Repr

structure WriteBatch where
  redo : Bytes
  nEntries : UInt32
  deriving DecidableEq, Repr

namespace WriteBatch

def new : WriteBatch := ⟨List.replicate kHeaderSize 0, 0⟩

def put (b : WriteBatch) (cfid : UInt32) (key value : Bytes) : WriteBatch :=
  ⟨makeRedo key value cfid .value b.redo, b.nEntries + 1⟩

def delete (b : WriteBatch) (cfid : UInt32) (key : Bytes) : WriteBatch :=
  ⟨makeRedo key [] cfid .deletion b.redo, b.nEntries + 1⟩

def call (b : WriteBatch) : Op → WriteBatch
  | .put cfid key value => b.put cfid key value
  | .delete cfid key => b.delete cfid key

def redoBytes (b : WriteBatch) (sn : UInt64) : Bytes :=
  toFixed 8 sn.toNat ++ toFixed 4 b.nEntries.toNat ++ b.redo.drop kHeaderSize

end WriteBatch

section Iterate
variable {σ : Type}

def iterateRecord (handler : σ → Op → σ) (s : σ) (rd : Bytes) : σ × Bytes :=
  let (cfid, rd) := readVarint64 rd
  let (flag, rd) := readByte rd
  let (key, rd) := readString rd
  if flag = flagByte .value then
    let (value, rd) := readString rd
    (handler s (.put (UInt32.ofNat cfid) key value), rd)
  else if flag = flagByte .deletion then (handler s (.delete (UInt32.ofNat cfid) key), rd)
  else (s, rd)

def iterate (handler : σ → Op → σ) (s : σ) (buf : Bytes) : σ × Except Error Unit :=
  (readToEnd (iterateRecord handler) s buf, .ok ())

def Op.redo : Op → Bytes
  | .put cfid key value => makeRedo key value cfid .value []
  | .delete cfid key => makeRedo key [] cfid .deletion []

lemma Op.redo_ne_nil (op : Op) : op.redo ≠ [] := by
  cases op <;> simp [Op.redo, makeRedo, entryBytes]

lemma iterateRecord_redo (handler : σ → Op → σ) (op : Op) (s : σ) (rest : Bytes) :
    iterateRecord handler s (op.redo ++ rest) = (handler s op, rest) := by
  have hbyte (b : UInt8) (rest : Bytes) : readByte (b :: rest) = (b, rest) := rfl
  cases op <;>
    simp [Op.redo, makeRedo, entryBytes, iterateRecord, readVarint64_toVarint, hbyte,
      readString_writeString, flagByte]

lemma iterate_flatMap (handler : σ → Op → σ) (s : σ) (ops : List Op) :
    iterate handler s (ops.flatMap Op.redo) = (ops.foldl handler s, .ok ()) := by
  rw [iterate, readToEnd_flatMap (fun op _ => op.redo_ne_nil) fun op _ s rest =>
    iterateRecord_redo handler op s rest]

end Iterate

lemma call_redo (b : WriteBatch) (op : Op) : (b.call op).redo = b.redo ++ op.redo := by
  cases op <;> simp [WriteBatch.call, WriteBatch.put, WriteBatch.delete, Op.redo, makeRedo]

lemma call_nEntries (b : WriteBatch) (op : Op) : (b.call op).nEntries = b.nEntries + 1 := by
  cases op <;> rfl

lemma foldl_call (ops : List Op) (b : WriteBatch) :
    ops.foldl WriteBatch.call b =
      ⟨b.redo ++ ops.flatMap Op.redo, b.nEntries + UInt32.ofNat ops.length⟩ := by
  induction ops generalizing b with
  | nil => simp
  | cons op ops ih =>
    rw [foldl_cons, ih, call_redo, call_nEntries, flatMap_cons, append_assoc, length_cons,
      UInt32.ofNat_add, add_assoc, add_comm 1]
    rfl

def batchOf (ops : List Op) : WriteBatch := ops.foldl WriteBatch.call .new

lemma redoBytes_batchOf (ops : List Op) (sn : UInt64) :
    (batchOf ops).redoBytes sn =
      toFixed 8 sn.toNat ++ toFixed 4 (UInt32.ofNat ops.length).toNat ++ ops.flatMap Op.redo := by
  rw [batchOf, foldl_call, WriteBatch.redoBytes]
  simp only [WriteBatch.new, zero_add]
  rw [drop_left' (length_replicate ..)]

def Carries (bytes : Bytes) (sn : UInt64) (ops : List Op) : Prop :=
  (∀ {σ : Type} (handler : σ → Op → σ) (s : σ),
    iterate handler s (bytes.drop kHeaderSize) = (ops.foldl handler s, .ok ())) ∧
  ofFixed (bytes.take 8) = sn.toNat ∧ ofFixed ((bytes.drop 8).take 4) = ops.length

/-- A batch can be read back with its number of operations exactly if there are fewer than `2 ^ 32`.
-/
theorem carries_iff (sn : UInt64) (ops : List Op) :
    Carries ((batchOf ops).redoBytes sn) sn ops ↔ ops.length < 2 ^ 32 := by
  have hsn : sn.toNat < 256 ^ 8 := sn.toNat_lt
  have hcount : (UInt32.ofNat ops.length).toNat < 256 ^ 4 := (UInt32.ofNat ops.length).toNat_lt
  have htake : ((batchOf ops).redoBytes sn).take 8 = toFixed 8 sn.toNat := by
    rw [redoBytes_batchOf, append_assoc]
    exact take_left' (length_toFixed 8 _)
  have hnumber : (((batchOf ops).redoBytes sn).drop 8).take 4 =
      toFixed 4 (UInt32.ofNat ops.length).toNat := by
    rw [redoBytes_batchOf, append_assoc, drop_left' (length_toFixed 8 _)]
    exact take_left' (length_toFixed 4 _)
  have hdrop : ((batchOf ops).redoBytes sn).drop kHeaderSize = ops.flatMap Op.redo := by
    rw [redoBytes_batchOf]
    exact drop_left' (by simp [kHeaderSize])
  rw [Carries, htake, hnumber, hdrop, ofFixed_toFixed hsn, ofFixed_toFixed hcount,
    UInt32.toNat_ofNat']
  constructor
  · rintro ⟨-, -, hlength⟩
    omega
  · exact fun hlt => ⟨fun handler s => iterate_flatMap handler s ops, rfl, Nat.mod_eq_of_lt hlt⟩

theorem carries_wraps : ¬ Carries ((batchOf (List.replicate (2 ^ 32) (.delete 0 []))).redoBytes 1) 1
    (List.replicate (2 ^ 32) (.delete 0 [])) := by
  rw [carries_iff, length_replicate]
  exact lt_irrefl _

end Mai.DbWriteBatch
