import Mai.CoreKeys
import Mai.RunInvariant

/-! The write batch of a transaction with its index (`txn/write-batch-with-index.cc`,
`db/write-batch.cc`). The index of a family lists places in the batch's buffer, in the order of the
keys that stand there. -/
namespace Mai.TxnWriteBatch
open ByteCodec CoreKeys Function List Option

structure Comparator where
  compare : Bytes → Bytes → Ordering
  compare_eq : ∀ a b, compare a b = .eq ↔ a = b
  compare_gt : ∀ a b, compare a b = .gt ↔ compare b a = .lt
  compare_trans : ∀ a b c, compare a b = .lt → compare b c = .lt → compare a c = .lt

def bytewise : Comparator where
  compare := @compare Bytes LinearOrder.toOrd
  compare_eq _ _ := compare_eq_iff_eq
  compare_gt _ _ := compare_gt_iff_gt.trans compare_lt_iff_lt.symm
  compare_trans _ _ _ hab hbc :=
    compare_lt_iff_lt.mpr ((compare_lt_iff_lt.mp hab).trans (compare_lt_iff_lt.mp hbc))

def writeString (s : Bytes) : Bytes := toVarint s.length ++ s

def entryBytes (key value : Bytes) (flag : Flag) : Bytes :=
  flagByte flag :: (writeString key ++ if flag ≠ .deletion then writeString value else [])

def makeRedo (key value : Bytes) (cfid : UInt32) (flag : Flag) (redo : Bytes) : Bytes :=
  redo ++ toVarint cfid.toNat ++ entryBytes key value flag

/-- `WriteBatch::kHeaderSize`: the sequence number and the number of entries. -/
def kHeaderSize : ℕ := 8 + 4

/-! `BufferReader` as functions of the bytes that are left. -/

def readByte (rd : Bytes) : UInt8 × Bytes := (rd.headD 0, rd.tail)
def readVarint64 (rd : Bytes) : ℕ × Bytes := (readVarint 0 rd).getD (0, [])
def readBytes (n : ℕ) (rd : Bytes) : Bytes × Bytes := (rd.take n, rd.drop n)

def readString (rd : Bytes) : Bytes × Bytes :=
  let (n, rd) := readVarint64 rd
  readBytes n rd

lemma readVarint64_toVarint (n : ℕ) (rest : Bytes) :
    readVarint64 (toVarint n ++ rest) = (n, rest) := by
  rw [readVarint64, readVarint_toVarint]
  rfl

lemma readBytes_append (s rest : Bytes) : readBytes s.length (s ++ rest) = (s, rest) := by
    simp [readBytes]

lemma readString_writeString (s rest : Bytes) : readString (writeString s ++ rest) = (s, rest) := by
  rw [readString, writeString, append_assoc, readVarint64_toVarint]
  exact readBytes_append s rest

/-- What `RawGet` and `Update` read of an entry: the flag, the key and, for a put, the value. -/
def readEntry (rd : Bytes) : UInt8 × Bytes × Option Bytes :=
  let (flag, rd) := readByte rd
  let (n, rd) := readVarint64 rd
  let (key, rd) := readBytes n rd
  (flag, key, if flag = flagByte .value then some (readString rd).1 else none)

inductive KeyField
  | keySize (n : ℕ)
  | lookupKey (key : Bytes)
  deriving DecidableEq, Repr

structure WriteBatchEntry where
  offset : ℕ
  size : ℕ
  field : KeyField
  deriving DecidableEq, Repr

/-- The key of an operand of `KeyComparator`: at an offset in the buffer, or given with the
entry. -/
def WriteBatchEntry.key (buf : Bytes) (e : WriteBatchEntry) : Bytes :=
  if 0 < e.offset then
    match e.field with
    | .keySize n => (readVarint64 (buf.drop (e.offset + 1))).2.take n
    | .lookupKey _ => []
  else
    match e.field with
    | .keySize _ => []
    | .lookupKey key => key.take e.size

def lookup (key : Bytes) : WriteBatchEntry := ⟨0, key.length, .lookupKey key⟩

lemma lookup_key (buf key : Bytes) : (lookup key).key buf = key := by
    simp [lookup, WriteBatchEntry.key]

structure WriteBatchWithIndex where
  redo : Bytes
  tables : UInt32 → Option (List WriteBatchEntry)

structure Write where
  cfid : UInt32
  flag : Flag
  key : Bytes
  value : Bytes
  deriving DecidableEq, Repr

namespace WriteBatchWithIndex
variable (comparator : UInt32 → Comparator)

def empty : WriteBatchWithIndex := ⟨List.replicate kHeaderSize 0, fun _ => none⟩

def keyCompare (b : WriteBatchWithIndex) (cfid : UInt32) (lhs rhs : WriteBatchEntry) : Ordering :=
  (comparator cfid).compare (lhs.key b.redo) (rhs.key b.redo)

/-- `SkipList::FindGreaterOrEqual` as a position in the list of nodes. -/
def findGreaterOrEqual (b : WriteBatchWithIndex) (cfid : UInt32) (key : WriteBatchEntry)
    (table : List WriteBatchEntry) : ℕ :=
  table.findIdx fun e => b.keyCompare comparator cfid e key ≠ .lt

def append (b : WriteBatchWithIndex) (cfid : UInt32) (flag : Flag) (key value : Bytes) :
    WriteBatchWithIndex :=
  match flag with
  | .value => { b with redo := makeRedo key value cfid .value b.redo }
  | .deletion => { b with redo := makeRedo key [] cfid .deletion b.redo }
  | .valueForSeek => b

def addOrUpdate (b : WriteBatchWithIndex) (cfid : UInt32) (flag : Flag) (key value : Bytes) :
    WriteBatchWithIndex :=
  let table := (b.tables cfid).getD []
  let pos := b.redo.length
  let b := b.append cfid flag key value
  let offset := pos + sizeofVarint cfid.toNat
  let put : WriteBatchEntry := ⟨offset, b.redo.length - offset, .keySize key.length⟩
  let i := b.findGreaterOrEqual comparator cfid (lookup key) table
  -- the entry that the seek finds is overwritten, else `Put` links a new node
  let table := if i < table.length then table.set i put
    else table.insertIdx (b.findGreaterOrEqual comparator cfid put table) put
  { b with tables := Function.update b.tables cfid (some table) }

/-- `BufferReader` has a view of the string that `substr` returns, which is destroyed before the
first byte of it is read. Each byte is read once; `dead` says what the bytes of a string are by
then. -/
def entryRead (dead : Bytes → Bytes) (b : WriteBatchWithIndex) (entry : WriteBatchEntry) :
    UInt8 × Bytes × Option Bytes :=
  readEntry (dead ((b.redo.drop entry.offset).take entry.size))

def rawGet (dead : Bytes → Bytes) (b : WriteBatchWithIndex) (cfid : UInt32) (key : Bytes) :
    Except Error (UInt8 × Option Bytes) :=
  match b.tables cfid with
  | none => .error (.notFound "No any write.")
  | some table =>
    match table[b.findGreaterOrEqual comparator cfid (lookup key) table]? with
    | none => .error (.notFound "Not found!")
    | some entry =>
      let (flag, foundKey, value) := b.entryRead dead entry
      if (comparator cfid).compare key foundKey ≠ .eq then .error (.notFound "Not found!")
      else .ok (flag, value)

/-- `IteratorImpl::Update`: what `key()` and `value()` return at a node. The key ends with its
tag. -/
def update (dead : Bytes → Bytes) (b : WriteBatchWithIndex) (entry : WriteBatchEntry) :
    Bytes × Bytes :=
  let (flag, key, value) := b.entryRead dead entry
  (key ++ toFixed 8 (kMaxSequenceNumber * 256 + flag.toNat), value.getD [])

def newIterator (b : WriteBatchWithIndex) (cfid : UInt32) : Except Error (List WriteBatchEntry) :=
  match b.tables cfid with
  | none => .error (.notFound "No any write in this column family.")
  | some table => .ok table

/-- The keys and values from `SeekToFirst` on. An iterator that is an error is never valid. -/
def listFromFirst (dead : Bytes → Bytes) (b : WriteBatchWithIndex) (cfid : UInt32) :
    List (Bytes × Bytes) :=
  match b.newIterator cfid with
  | .error _ => []
  | .ok table => table.map (b.update dead)

end WriteBatchWithIndex

section Stored

def Stored (buf : Bytes) (e : WriteBatchEntry) (w : Write) : Prop :=
  ∃ pre post, buf = pre ++ entryBytes w.key w.value w.flag ++ post ∧ 0 < pre.length ∧
    e = ⟨pre.length, (entryBytes w.key w.value w.flag).length, .keySize w.key.length⟩

variable {buf : Bytes} {e : WriteBatchEntry} {w : Write} {b : WriteBatchWithIndex}

lemma Stored.append (h : Stored buf e w) (more : Bytes) : Stored (buf ++ more) e w := by
  obtain ⟨pre, post, rfl, hpre, rfl⟩ := h
  exact ⟨pre, post ++ more, by simp, hpre, rfl⟩

lemma Stored.key_eq (h : Stored buf e w) : e.key buf = w.key := by
  obtain ⟨pre, post, rfl, hpre, rfl⟩ := h
  have hdrop : (pre ++ entryBytes w.key w.value w.flag ++ post).drop (pre.length + 1) =
      toVarint w.key.length ++ (w.key ++
      ((if w.flag ≠ .deletion then writeString w.value else []) ++ post)) := by
    rw [append_assoc, ← drop_drop, drop_left, entryBytes, cons_append, drop_one, tail_cons,
      writeString, append_assoc, append_assoc]
  rw [WriteBatchEntry.key, if_pos hpre]
  simp only [hdrop, readVarint64_toVarint, take_left]

lemma Stored.bytes (h : Stored buf e w) :
    (buf.drop e.offset).take e.size = entryBytes w.key w.value w.flag := by
  obtain ⟨pre, post, rfl, -, rfl⟩ := h
  rw [append_assoc, drop_left, take_left]

lemma flagByte_eq_value {flag : Flag} : flagByte flag = flagByte .value ↔ flag = .value := by
  cases flag <;> decide

def Write.stored (w : Write) : Option Bytes := if w.flag = .value then some w.value else none

/-- The bytes of the entry are still there when they are read. -/
def Intact (dead : Bytes → Bytes) (w : Write) : Prop :=
  readEntry (dead (entryBytes w.key w.value w.flag)) = (flagByte w.flag, w.key, w.stored)

lemma intact_of_eq {dead : Bytes → Bytes}
    (h : dead (entryBytes w.key w.value w.flag) = entryBytes w.key w.value w.flag) :
    Intact dead w := by
  have hkey : readVarint64 (writeString w.key ++ if w.flag ≠ .deletion then writeString w.value
      else []) =
      (w.key.length, w.key ++ if w.flag ≠ .deletion then writeString w.value else []) := by
    rw [writeString, append_assoc, readVarint64_toVarint]
  have hvalue := readString_writeString w.value []
  rw [append_nil] at hvalue
  rw [Intact, h]
  simp only [readEntry, entryBytes, readByte, headD_cons, tail_cons, hkey, readBytes_append,
    flagByte_eq_value, Write.stored]
  by_cases hflag : w.flag = .value
  · simp [hflag, hvalue]
  · simp [hflag]

def Write.shown (w : Write) : Bytes × Bytes :=
  (keyBytes (makeKey w.key kMaxSequenceNumber w.flag), w.stored.getD [])

lemma Stored.update_eq {dead : Bytes → Bytes} (h : Stored b.redo e w) (hintact : Intact dead w) :
    b.update dead e = w.shown := by
  rw [WriteBatchWithIndex.update, WriteBatchWithIndex.entryRead, h.bytes, hintact]
  rfl

end Stored

section Index
variable (comparator : UInt32 → Comparator)

/-- What `AddOrUpdate` does to the writes that a table indexes: the first one whose key is not
smaller is replaced. -/
def place (c : Comparator) (w : Write) : List Write → List Write
  | [] => [w]
  | v :: vs => if c.compare v.key w.key = .lt then v :: place c w vs else w :: vs

structure Indexes (b : WriteBatchWithIndex) (cfid : UInt32) (ws : List Write) : Prop where
  table : b.tables cfid = none ∧ ws = [] ∨ ∃ table, b.tables cfid = some table ∧
    List.Forall₂ (Stored b.redo) table ws
  sorted : ws.Pairwise fun v w => (comparator cfid).compare v.key w.key = .lt

variable {comparator} {b : WriteBatchWithIndex} {cfid : UInt32} {ws : List Write}
  {table : List WriteBatchEntry} {c : Comparator} {dead : Bytes → Bytes} {w : Write}

lemma compare_self (c : Comparator) (k : Bytes) : c.compare k k ≠ .lt := by
  rw [(c.compare_eq k k).mpr rfl]
  decide

lemma ne_of_compare_lt {k k' : Bytes} (h : c.compare k k' = .lt) : k ≠ k' := by
  rintro rfl
  exact compare_self c k h

section Place
variable {c : Comparator} {w : Write}

lemma mem_place (hs : ws.Pairwise fun v w => c.compare v.key w.key = .lt) {v : Write}
    (hv : v ∈ place c w ws) :
    v = w ∨ v ∈ ws ∧ v.key ≠ w.key := by
  induction ws with
  | nil => exact Or.inl (by simpa [place] using hv)
  | cons u us ih =>
    obtain ⟨hhead, htail⟩ := pairwise_cons.mp hs
    rw [place] at hv
    split_ifs at hv with hlt
    · rcases mem_cons.mp hv with rfl | hv
      · exact Or.inr ⟨by simp, ne_of_compare_lt hlt⟩
      · exact (ih htail hv).imp_right fun h => ⟨by simp [h.1], h.2⟩
    · rcases mem_cons.mp hv with rfl | hv
      · exact Or.inl rfl
      · refine Or.inr ⟨by simp [hv], fun heq => hlt ?_⟩
        rw [← heq]
        exact hhead v hv

lemma mem_place_self : w ∈ place c w ws := by
  induction ws with
  | nil => simp [place]
  | cons u us ih =>
    rw [place]
    split_ifs <;> simp [ih]

lemma place_sorted (hs : ws.Pairwise fun v w => c.compare v.key w.key = .lt) :
    (place c w ws).Pairwise fun v w => c.compare v.key w.key = .lt := by
  induction ws with
  | nil => simp [place]
  | cons u us ih =>
    obtain ⟨hhead, htail⟩ := pairwise_cons.mp hs
    rw [place]
    split_ifs with hlt
    · refine pairwise_cons.mpr ⟨fun v hv => ?_, ih htail⟩
      rcases mem_place htail hv with rfl | ⟨hv, -⟩
      · exact hlt
      · exact hhead v hv
    · refine pairwise_cons.mpr ⟨fun v hv => ?_, htail⟩
      cases hcmp : c.compare u.key w.key with
      | lt => exact absurd hcmp hlt
      | eq => rw [← (c.compare_eq _ _).mp hcmp]; exact hhead v hv
      | gt => exact c.compare_trans _ _ _ ((c.compare_gt _ _).mp hcmp) (hhead v hv)

lemma place_keeps (hs : ws.Pairwise fun v w => c.compare v.key w.key = .lt)
    (h : (∃ v ∈ ws, v.key = w.key) ∨ ∀ v ∈ ws, c.compare v.key w.key = .lt) {v : Write}
    (hv : v ∈ ws) (hne : v.key ≠ w.key) : v ∈ place c w ws := by
  induction ws with
  | nil => simp at hv
  | cons u us ih =>
    obtain ⟨hhead, htail⟩ := pairwise_cons.mp hs
    rw [place]
    split_ifs with hlt
    · rcases mem_cons.mp hv with rfl | hv
      · simp
      · refine mem_cons_of_mem _ (ih htail
          (h.imp (fun ⟨x, hx, hxk⟩ => ⟨x, ?_, hxk⟩) fun h x hx => h x (by simp [hx])) hv)
        rcases mem_cons.mp hx with rfl | hx
        · exact absurd hxk (ne_of_compare_lt hlt)
        · exact hx
    · have hu : u.key = w.key := by
        rcases h with ⟨x, hx, hxk⟩ | h
        · rcases mem_cons.mp hx with rfl | hx
          · exact hxk
          · exact absurd (hxk ▸ hhead x hx) hlt
        · exact absurd (h u (by simp)) hlt
      rcases mem_cons.mp hv with rfl | hv
      · exact absurd hu hne
      · exact mem_cons_of_mem _ hv

lemma place_loses (hs : ws.Pairwise fun v w => c.compare v.key w.key = .lt)
    (hnew : ∀ v ∈ ws, v.key ≠ w.key) (h : ∃ v ∈ ws, c.compare v.key w.key ≠ .lt) :
    ∃ v ∈ ws, v ∉ place c w ws := by
  induction ws with
  | nil => simp at h
  | cons u us ih =>
    obtain ⟨hhead, htail⟩ := pairwise_cons.mp hs
    rw [place]
    split_ifs with hlt
    · obtain ⟨v, hv, hvlt⟩ := h
      have hv : v ∈ us := by
        rcases mem_cons.mp hv with rfl | hv
        · exact absurd hlt hvlt
        · exact hv
      obtain ⟨x, hx, hxp⟩ := ih htail (fun v hv => hnew v (by simp [hv])) ⟨v, hv, hvlt⟩
      refine ⟨x, by simp [hx], fun hmem => ?_⟩
      rcases mem_cons.mp hmem with rfl | hmem
      · exact ne_of_compare_lt (hhead x hx) rfl
      · exact hxp hmem
    · refine ⟨u, by simp, fun hmem => ?_⟩
      rcases mem_cons.mp hmem with rfl | hmem
      · exact hnew u (by simp) rfl
      · exact ne_of_compare_lt (hhead u hmem) rfl

end Place

lemma forall₂_place {buf : Bytes} {put : WriteBatchEntry}
    (hput : Stored buf put w) (h : List.Forall₂ (Stored buf) table ws) :
    let i := table.findIdx fun e => c.compare (e.key buf) w.key ≠ .lt
    List.Forall₂ (Stored buf) (if i < table.length then table.set i put
      else table.insertIdx i put) (place c w ws) := by
  induction h with
  | nil => simpa [place] using hput
  | @cons e v table ws hev _ ih =>
    rw [place, ← hev.key_eq]
    by_cases hlt : c.compare (e.key buf) w.key = .lt
    · simp only [findIdx_cons, hlt, ne_eq, not_true_eq_false, decide_false, cond_false, length_cons,
        Nat.add_lt_add_iff_right, if_true, set_cons_succ, insertIdx_succ_cons] at ih ⊢
      split_ifs at ih ⊢ <;> exact .cons hev ih
    · simp only [findIdx_cons, hlt, ne_eq, not_false_eq_true, decide_true, cond_true, length_cons,
        Nat.zero_lt_succ, if_true, if_false, set_cons_zero]
      exact .cons hput ‹_›

lemma find_indexed (c : Comparator) (key : Bytes) {buf : Bytes}
    (h : List.Forall₂ (Stored buf) table ws) :
    Option.Rel (Stored buf) (table[table.findIdx fun e => c.compare (e.key buf) key ≠ .lt]?)
      (ws.find? fun v => c.compare v.key key ≠ .lt) := by
  induction h with
  | nil => exact .none
  | @cons e v table ws hev _ ih =>
    rw [find?_cons, ← hev.key_eq]
    by_cases hlt : c.compare (e.key buf) key = .lt
    · simpa [findIdx_cons, hlt] using ih
    · simpa [findIdx_cons, hlt] using Option.Rel.some hev

lemma find_key (key : Bytes) (hs : ws.Pairwise fun v w => c.compare v.key w.key = .lt) :
    ((ws.find? fun v => c.compare v.key key ≠ .lt).filter fun v => v.key = key) =
      ws.find? fun v => v.key = key := by
  induction ws with
  | nil => rfl
  | cons v ws ih =>
    obtain ⟨hhead, htail⟩ := pairwise_cons.mp hs
    rw [find?_cons, find?_cons]
    cases hcmp : c.compare v.key key with
    | lt => simpa [ne_of_compare_lt hcmp] using ih htail
    | eq => simp [(c.compare_eq _ _).mp hcmp]
    | gt =>
      have hne : v.key ≠ key := by
        rintro rfl
        rw [(c.compare_eq _ _).mpr rfl] at hcmp
        exact absurd hcmp (by decide)
      have hnone : ws.find? (fun v => decide (v.key = key)) = none := by
        refine find?_eq_none.mpr fun u hu => ?_
        have := c.compare_trans _ _ _ ((c.compare_gt _ _).mp hcmp) (hhead u hu)
        simpa using (ne_of_compare_lt this).symm
      simp [hne, hnone]

lemma findGreaterOrEqual_eq {e : WriteBatchEntry} {key : Bytes} (h : e.key b.redo = key) :
    b.findGreaterOrEqual comparator cfid e table =
      table.findIdx fun x => (comparator cfid).compare (x.key b.redo) key ≠ .lt := by
  subst h
  rfl

/-- What `RawGet` makes of the node that its seek finds. -/
def foundAt (dead : Bytes → Bytes) (key : Bytes) (w : Write) : Option (UInt8 × Option Bytes) :=
  let (flag, foundKey, value) := readEntry (dead (entryBytes w.key w.value w.flag))
  if foundKey = key then some (flag, value) else none

lemma Indexes.rawGet_eq (h : Indexes comparator b cfid ws) (dead : Bytes → Bytes) (key : Bytes) :
    (b.rawGet comparator dead cfid key).toOption =
      (ws.find? fun w => (comparator cfid).compare w.key key ≠ .lt).bind (foundAt dead key) := by
  rcases h.table with ⟨htable, rfl⟩ | ⟨table, htable, hstored⟩
  · simp [WriteBatchWithIndex.rawGet, htable, Except.toOption]
  · have hfind := find_indexed (comparator cfid) key hstored
    simp only [WriteBatchWithIndex.rawGet, htable, findGreaterOrEqual_eq (lookup_key _ key)]
    revert hfind
    generalize table[table.findIdx _]? = node
    generalize ws.find? _ = found
    rintro (@⟨e, w, hew⟩ | _)
    · simp only [WriteBatchWithIndex.entryRead, hew.bytes, bind_some, foundAt]
      by_cases heq : (readEntry (dead (entryBytes w.key w.value w.flag))).2.1 = key
      · simp [heq, (Comparator.compare_eq _ key key).mpr rfl, Except.toOption]
      · have hne : (comparator cfid).compare key
            (readEntry (dead (entryBytes w.key w.value w.flag))).2.1 ≠ .eq :=
          fun h => heq ((Comparator.compare_eq _ _ _).mp h).symm
        simp [heq, hne, Except.toOption]
    · rfl

lemma foundAt_intact (h : Intact dead w) (key : Bytes) :
    foundAt dead key w = if w.key = key then some (flagByte w.flag, w.stored) else none := by
  rw [foundAt, h]

lemma Indexes.rawGet_intact (h : Indexes comparator b cfid ws) (hintact : ∀ w ∈ ws, Intact dead w)
    (key : Bytes) : (b.rawGet comparator dead cfid key).toOption =
      (ws.find? fun w => w.key = key).map fun w => (flagByte w.flag, w.stored) := by
  rw [h.rawGet_eq, ← find_key key h.sorted]
  cases hfound : ws.find? fun w => (comparator cfid).compare w.key key ≠ .lt with
  | none => rfl
  | some w =>
    rw [bind_some, foundAt_intact (hintact w (mem_of_find?_eq_some hfound)), filter_some]
    by_cases hkey : w.key = key <;> simp [hkey]

lemma find_self (hs : ws.Pairwise fun v w => c.compare v.key w.key = .lt) (hw : w ∈ ws) :
    (ws.find? fun v => c.compare v.key w.key ≠ .lt) = some w := by
  obtain ⟨before, after, rfl⟩ := append_of_mem hw
  rw [find?_append, find?_eq_none.mpr, none_or, find?_cons_of_pos]
  · simpa using compare_self c w.key
  · intro v hv
    simpa using (pairwise_append.mp hs).2.2 v hv w (by simp)

lemma Indexes.list_eq (h : Indexes comparator b cfid ws) (hintact : ∀ w ∈ ws, Intact dead w) :
    b.listFromFirst dead cfid = ws.map Write.shown := by
  rcases h.table with ⟨htable, rfl⟩ | ⟨table, htable, hstored⟩
  · simp [WriteBatchWithIndex.listFromFirst, WriteBatchWithIndex.newIterator, htable]
  · simp only [WriteBatchWithIndex.listFromFirst, WriteBatchWithIndex.newIterator, htable]
    clear htable h
    induction hstored with
    | nil => rfl
    | @cons e v _ _ hev _ ih =>
      rw [map_cons, map_cons, hev.update_eq (hintact v (by simp)),
        ih fun u hu => hintact u (by simp [hu])]

lemma Indexes.list_length (h : Indexes comparator b cfid ws) (dead : Bytes → Bytes) :
    (b.listFromFirst dead cfid).length = ws.length := by
  rcases h.table with ⟨htable, rfl⟩ | ⟨table, htable, hstored⟩
  · simp [WriteBatchWithIndex.listFromFirst, WriteBatchWithIndex.newIterator, htable]
  · simp [WriteBatchWithIndex.listFromFirst, WriteBatchWithIndex.newIterator, htable,
      hstored.length_eq]

lemma append_redo (b : WriteBatchWithIndex) (w : Write) (h : w.flag ≠ .valueForSeek) :
    (b.append w.cfid w.flag w.key w.value).redo =
      b.redo ++ (toVarint w.cfid.toNat ++ entryBytes w.key w.value w.flag) := by
  cases hflag : w.flag with
  | value => simp [WriteBatchWithIndex.append, makeRedo]
  | deletion => simp [WriteBatchWithIndex.append, makeRedo, entryBytes]
  | valueForSeek => exact absurd hflag h

lemma Indexes.stored (h : Indexes comparator b cfid ws) :
    List.Forall₂ (Stored b.redo) ((b.tables cfid).getD []) ws := by
  rcases h.table with ⟨htable, rfl⟩ | ⟨table, htable, hstored⟩
  · rw [htable]
    exact .nil
  · rwa [htable]

lemma Indexes.addOrUpdate (hflag : w.flag ≠ .valueForSeek) (h : Indexes comparator b w.cfid ws) :
    Indexes comparator (b.addOrUpdate comparator w.cfid w.flag w.key w.value) w.cfid
      (place (comparator w.cfid) w ws) := by
  have hredo := append_redo b w hflag
  let put : WriteBatchEntry := ⟨b.redo.length + sizeofVarint w.cfid.toNat,
    (b.append w.cfid w.flag w.key w.value).redo.length
    - (b.redo.length + sizeofVarint w.cfid.toNat), .keySize w.key.length⟩
  have hput : Stored (b.append w.cfid w.flag w.key w.value).redo put w := by
    refine ⟨b.redo ++ toVarint w.cfid.toNat, [], by simp [hredo], by simp [toVarint], ?_⟩
    simp only [put, hredo, length_append, length_toVarint]
    congr 1
    omega
  have hold : List.Forall₂ (Stored (b.append w.cfid w.flag w.key w.value).redo)
      ((b.tables w.cfid).getD []) ws := by
    rw [hredo]
    exact h.stored.imp fun e v hev => hev.append _
  have hplace := forall₂_place (c := comparator w.cfid) hput hold
  refine ⟨Or.inr ⟨_, update_self _ _ _, ?_⟩, place_sorted h.sorted⟩
  rw [findGreaterOrEqual_eq (lookup_key _ w.key), findGreaterOrEqual_eq hput.key_eq]
  exact hplace

lemma Indexes.frame (hflag : w.flag ≠ .valueForSeek) (h : Indexes comparator b cfid ws)
    (hne : cfid ≠ w.cfid) :
    Indexes comparator (b.addOrUpdate comparator w.cfid w.flag w.key w.value) cfid ws := by
  have htables : (b.addOrUpdate comparator w.cfid w.flag w.key w.value).tables cfid =
      b.tables cfid := by
    simp only [WriteBatchWithIndex.addOrUpdate, update_of_ne hne]
    cases w.flag <;> rfl
  refine ⟨h.table.imp (fun ⟨hnone, hws⟩ => ⟨htables.trans hnone, hws⟩)
    fun ⟨table, hsome, hstored⟩ =>
    ⟨table, htables.trans hsome, ?_⟩, h.sorted⟩
  refine hstored.imp fun e v hev => ?_
  have := hev.append (toVarint w.cfid.toNat ++ entryBytes w.key w.value w.flag)
  rwa [← append_redo b w hflag] at this

end Index

section History
variable (comparator : UInt32 → Comparator)

def lastWrite (writes : List Write) (cfid : UInt32) (key : Bytes) : Option Write :=
  writes.reverse.find? fun w => w.cfid = cfid ∧ w.key = key

structure Session where
  batch : WriteBatchWithIndex
  writes : List Write

def Session.start : Session := ⟨.empty, []⟩

def addOrUpdate (s : Session) (w : Write) : Option Session :=
  if w.flag = .valueForSeek then none
  else some ⟨s.batch.addOrUpdate comparator w.cfid w.flag w.key w.value, s.writes ++ [w]⟩

/-- `RawGet` and the iterator show the last write of every key that was written, and nothing
else. -/
structure ReadsOwnWrites (dead : Bytes → Bytes) (s : Session) : Prop where
  rawGet : ∀ cfid key, (s.batch.rawGet comparator dead cfid key).toOption =
    (lastWrite s.writes cfid key).map fun w => (flagByte w.flag, w.stored)
  iterator : ∀ cfid, ∃ ws : List Write, s.batch.listFromFirst dead cfid = ws.map Write.shown ∧
    (ws.Pairwise fun v w => (comparator cfid).compare v.key w.key = .lt) ∧
    ∀ w, w ∈ ws ↔ lastWrite s.writes cfid w.key = some w

def KnownOrGreatest (s : Session) (w : Write) : Prop :=
  (∃ v ∈ s.writes, v.cfid = w.cfid ∧ v.key = w.key) ∨
    ∀ v ∈ s.writes, v.cfid = w.cfid → (comparator w.cfid).compare v.key w.key = .lt

variable {comparator} {dead : Bytes → Bytes} {s : Session} {view : UInt32 → List Write} {w : Write}
  {cfid : UInt32} {writes : List Write} {key : Bytes}

lemma lastWrite_append :
    lastWrite (writes ++ [w]) cfid key = if w.cfid = cfid ∧ w.key = key then some w
      else lastWrite writes cfid key := by
  rw [lastWrite, reverse_append, reverse_singleton, singleton_append, find?_cons]
  by_cases h : w.cfid = cfid ∧ w.key = key <;> simp [h, lastWrite]

lemma lastWrite_some
    (h : lastWrite writes cfid key = some w) : w ∈ writes ∧ w.cfid = cfid ∧ w.key = key :=
  ⟨mem_reverse.mp (mem_of_find?_eq_some h), by simpa using find?_some h⟩

lemma lastWrite_exists (h : w ∈ writes) : ∃ v, lastWrite writes w.cfid w.key = some v := by
  have hsome : (lastWrite writes w.cfid w.key).isSome :=
    find?_isSome.mpr ⟨w, mem_reverse.mpr h, by simp⟩
  exact isSome_iff_exists.mp hsome

def Indexed (comparator : UInt32 → Comparator) (s : Session) (view : UInt32 → List Write) : Prop :=
  ∀ cfid, Indexes comparator s.batch cfid (view cfid) ∧ ∀ w ∈ view cfid,
    lastWrite s.writes cfid w.key = some w

lemma indexed_start : Indexed comparator Session.start fun _ => [] :=
  fun _ => ⟨⟨Or.inl ⟨rfl, rfl⟩, List.Pairwise.nil⟩, by simp⟩

lemma Indexed.step {t : Session} (h : Indexed comparator s view)
    (hstep : addOrUpdate comparator s w = some t) :
    Indexed comparator t
      (Function.update view w.cfid (place (comparator w.cfid) w (view w.cfid))) := by
  unfold addOrUpdate at hstep
  split_ifs at hstep with hflag
  obtain rfl := Option.some.inj hstep
  intro cfid
  by_cases heq : cfid = w.cfid
  · subst heq
    rw [update_self]
    refine ⟨(h w.cfid).1.addOrUpdate hflag, fun v hv => ?_⟩
    rw [lastWrite_append]
    rcases mem_place (h w.cfid).1.sorted hv with rfl | ⟨hv, hne⟩
    · simp
    · rw [if_neg fun heq => hne heq.2.symm, (h w.cfid).2 v hv]
  · rw [update_of_ne heq]
    refine ⟨(h cfid).1.frame hflag heq, fun v hv => ?_⟩
    rw [lastWrite_append, if_neg fun hw => heq hw.1.symm, (h cfid).2 v hv]

lemma Indexed.find_last (h : Indexed comparator s view) {v : Write}
    (hv : (view cfid).find? (fun w => w.key = key) = some v) :
    lastWrite s.writes cfid key = some v := by
  have hkey : v.key = key := by simpa using find?_some hv
  rw [← hkey]
  exact (h cfid).2 v (mem_of_find?_eq_some hv)

/-- An iterator that lists all keys has all of them in its index. -/
lemma Indexed.mem_of_reads (h : Indexed comparator s view)
    (hreads : ReadsOwnWrites comparator dead s) (hw : lastWrite s.writes cfid key = some w) :
    w ∈ view cfid := by
  obtain ⟨ws, hlist, -, hmem⟩ := hreads.iterator cfid
  have hlength : ws.length = (view cfid).length := by
    rw [← (h cfid).1.list_length dead, hlist, length_map]
  have hnodup : (view cfid).Nodup :=
    (h cfid).1.sorted.imp fun hlt heq => ne_of_compare_lt hlt (congrArg Write.key heq)
  have hsub : view cfid ⊆ ws := fun v hv => (hmem v).mpr ((h cfid).2 v hv)
  have hperm := (subperm_of_subset hnodup hsub).perm_of_length_le hlength.le
  obtain ⟨-, -, rfl⟩ := lastWrite_some hw
  exact hperm.symm.subset ((hmem w).mpr hw)

lemma Indexed.intact_of_reads (h : Indexed comparator s view)
    (hreads : ReadsOwnWrites comparator dead s) (hw : w ∈ view cfid) : Intact dead w := by
  have hget := hreads.rawGet cfid w.key
  rw [(h cfid).1.rawGet_eq, find_self (h cfid).1.sorted hw, bind_some, (h cfid).2 w hw, map_some,
    foundAt] at hget
  obtain ⟨hkey, hfound⟩ := ite_none_right_eq_some.mp hget
  obtain ⟨hflag, hvalue⟩ := Prod.mk.inj (Option.some.inj hfound)
  exact Prod.ext hflag (Prod.ext hkey hvalue)

lemma Indexed.reads_own_iff (h : Indexed comparator s view) : ReadsOwnWrites comparator dead s ↔
    (∀ cfid key w, lastWrite s.writes cfid key = some w → w ∈ view cfid) ∧ ∀ cfid, ∀ w ∈ view cfid,
      Intact dead w := by
  constructor
  · exact fun hreads =>
      ⟨fun _ _ _ hw => h.mem_of_reads hreads hw, fun _ _ hw => h.intact_of_reads hreads hw⟩
  · rintro ⟨hall, hintact⟩
    refine ⟨fun cfid key => ?_,
      fun cfid => ⟨view cfid, (h cfid).1.list_eq (hintact cfid), (h cfid).1.sorted,
        fun w => ⟨(h cfid).2 w, hall cfid w.key w⟩⟩⟩
    rw [(h cfid).1.rawGet_intact (hintact cfid)]
    cases hw : lastWrite s.writes cfid key with
    | none =>
      have hnone : (view cfid).find? (fun w => w.key = key) = none := by
        by_contra hne
        obtain ⟨v, hv⟩ := ne_none_iff_exists'.mp hne
        rw [h.find_last hv] at hw
        simp at hw
      rw [hnone]
    | some w =>
      obtain ⟨-, -, hkey⟩ := lastWrite_some hw
      have hsome : ((view cfid).find? fun v => v.key = key).isSome :=
        find?_isSome.mpr ⟨w, hall cfid key w hw, by simpa using hkey⟩
      obtain ⟨v, hv⟩ := isSome_iff_exists.mp hsome
      rw [hv, ← hw, h.find_last hv]

lemma Indexed.intact_step (h : Indexed comparator s view) (hw : Intact dead w)
    (hintact : ∀ cfid, ∀ v ∈ view cfid, Intact dead v) (cfid : UInt32) (v : Write)
    (hv : v ∈ Function.update view w.cfid (place (comparator w.cfid) w (view w.cfid)) cfid) :
    Intact dead v := by
  by_cases hcf : cfid = w.cfid
  · subst hcf
    rw [update_self] at hv
    rcases mem_place (h w.cfid).1.sorted hv with rfl | ⟨hv, -⟩
    · exact hw
    · exact hintact w.cfid v hv
  · rw [update_of_ne hcf] at hv
    exact hintact cfid v hv

lemma Indexed.step_iff {t : Session} (h : Indexed comparator s view)
    (hreads : ReadsOwnWrites comparator dead s) (hstep : addOrUpdate comparator s w = some t) :
    ReadsOwnWrites comparator dead t ↔ KnownOrGreatest comparator s w ∧ Intact dead w := by
  obtain ⟨hall, hintact⟩ := h.reads_own_iff.mp hreads
  have hwrites : t.writes = s.writes ++ [w] := by
    unfold addOrUpdate at hstep
    split_ifs at hstep
    exact (congrArg Session.writes (Option.some.inj hstep)).symm
  rw [(h.step hstep).reads_own_iff, hwrites]
  refine and_congr ?_ ⟨fun hnew => ?_, fun hw => h.intact_step hw hintact⟩
  swap
  · refine hnew w.cfid w ?_
    rw [update_self]
    exact mem_place_self
  constructor
  · intro hkept
    by_contra hno
    rw [KnownOrGreatest, not_or] at hno
    obtain ⟨hunknown, hgreater⟩ := hno
    push Not at hunknown hgreater
    obtain ⟨u, hu, hucf, hulty⟩ := hgreater
    obtain ⟨v, hv⟩ := lastWrite_exists hu
    obtain ⟨-, -, hvkey⟩ := lastWrite_some hv
    rw [hucf] at hv
    obtain ⟨x, hx, hxp⟩ := place_loses (h w.cfid).1.sorted (w := w) (fun x hx => by
      obtain ⟨hxw, hxcf, -⟩ := lastWrite_some ((h w.cfid).2 x hx)
      exact hunknown x hxw hxcf) ⟨v, hall _ _ _ hv, by rwa [hvkey]⟩
    have hlast := (h w.cfid).2 x hx
    obtain ⟨hxw, hxcf, -⟩ := lastWrite_some hlast
    have := hkept w.cfid x.key x (by
      rw [lastWrite_append, if_neg fun heq => hunknown x hxw hxcf heq.2.symm, hlast])
    rw [update_self] at this
    exact hxp this
  · intro hcond cfid key v hv
    rw [lastWrite_append] at hv
    split_ifs at hv with heq
    · obtain rfl := Option.some.inj hv
      rw [← heq.1, update_self]
      exact mem_place_self
    · obtain ⟨-, -, hvkey⟩ := lastWrite_some hv
      by_cases hcf : cfid = w.cfid
      · subst hcf
        rw [update_self]
        refine place_keeps (h w.cfid).1.sorted ?_ (hall _ _ _ hv) fun hkey =>
          heq ⟨rfl, hkey.symm.trans hvkey⟩
        rcases hcond with ⟨u, hu, hucf, hukey⟩ | hless
        · obtain ⟨x, hx⟩ := lastWrite_exists hu
          obtain ⟨-, -, hxkey⟩ := lastWrite_some hx
          exact Or.inl ⟨x, hall _ _ _ (hucf ▸ hx), hxkey.trans hukey⟩
        · refine Or.inr fun x hx => ?_
          obtain ⟨hxw, hxcf, -⟩ := lastWrite_some ((h w.cfid).2 x hx)
          exact hless x hxw hxcf
      · rw [update_of_ne hcf]
        exact hall _ _ _ hv

/-- A batch reads its own writes after every call exactly when every call writes a key that its
family has already or one that is greater than all of them, and the bytes of its entry outlive the
string they are read from. -/
theorem readsOwnWrites_iff (comparator : UInt32 → Comparator) (dead : Bytes → Bytes)
    (writes : List Write) :
    RunInvariant.Always (addOrUpdate comparator) (ReadsOwnWrites comparator dead) Session.start
      writes ↔
      RunInvariant.EachStep (addOrUpdate comparator) (fun s w => KnownOrGreatest comparator s w ∧
        Intact dead w)
        Session.start writes := by
  refine RunInvariant.always_iff_eachStep (I := fun s => ∃ view, Indexed comparator s view)
    (G := fun _ _ => True)
    (fun s w t _ ⟨view, h⟩ hstep => ⟨_, h.step hstep⟩)
      (fun s w t _ ⟨view, h⟩ hreads hstep => h.step_iff hreads hstep)
    (RunInvariant.eachStep_of_forall fun _ _ _ => trivial) ⟨_, indexed_start⟩ ?_
  exact indexed_start.reads_own_iff.mpr
    ⟨fun cfid key w hw => by simp [lastWrite, Session.start] at hw, by simp⟩

/-- After `b` the key `a` takes its place. -/
theorem readsOwnWrites_lost :
    ∃ s, RunInvariant.run (addOrUpdate fun _ => bytewise) Session.start
        [⟨0, .value, [98], [1]⟩, ⟨0, .value, [97], [2]⟩] = some s ∧
      s.batch.rawGet (fun _ => bytewise) id 0 [98] = .error (.notFound "Not found!") ∧
      s.batch.listFromFirst id 0 = [Write.shown ⟨0, .value, [97], [2]⟩] := by
  refine ⟨_, rfl, ?_, ?_⟩ <;> decide +kernel

end History

end Mai.TxnWriteBatch
