import Mai.TableDataBlock

/-! Sorted tables on disk (`table/sst-table-builder.cc`, `table/sst-table-reader.cc`). The entries
stand in data blocks; the index is a block of its own, with the last key and the place of every data
block. -/
namespace Mai.TableSst
open ByteCodec CoreKeys GroupedList TableFormat TableDataBlock List Option

structure Options where
  /-- `kBloomFilterHashs`. -/
  hashes : List (Bytes → UInt32)
  blockSize : ℕ
  nRestart : ℕ
  approximatedNEntries : ℕ
  blockSize_dvd : 4 ∣ blockSize
  blockSize_ge : 8 ≤ blockSize
  blockSize_lt : blockSize < 2 ^ 64
  nRestart_pos : 0 < nRestart

structure SstTableBuilder where
  hasSeenFirstKey : Bool
  isLastLevel : Bool
  props : TableProperties
  block : DataBlockBuilder
  index : DataBlockBuilder
  filter : Option FilterBlockBuilder
  file : Bytes

def kSstMagicNumber : ℕ := 0x74737300

namespace SstTableBuilder
variable (o : Options)

def new : SstTableBuilder where
  hasSeenFirstKey := false
  isLastLevel := false
  props := ⟨false, false, o.blockSize % 2 ^ 32, 0, 0, 0, 0, 0, 0, [], []⟩
  block := .new
  index := .new
  filter := none
  file := []

def flushBlock (b : SstTableBuilder) : SstTableBuilder :=
  let (file, bh) := writeBlock b.file b.block.finish
  { b with file, index := b.index.add o.nRestart b.block.lastKey bh.encode }

def firstKey (b : SstTableBuilder) (key : Bytes) : SstTableBuilder :=
  if b.hasSeenFirstKey then b
  else { b with
    isLastLevel := b.isLastLevel || decide ((parseTaggedKey key).sequenceNumber = 0)
    props := { b.props with smallestKey := key, largestKey := key }
    hasSeenFirstKey := true }

def place (b : SstTableBuilder) (key value : Bytes) (filter : FilterBlockBuilder) :
    SstTableBuilder :=
  { b with
    block := b.block.add o.nRestart (if b.isLastLevel then (parseTaggedKey key).userKey else key)
      value
    filter := some filter }

def add (b : SstTableBuilder) (key value : Bytes) : Option SstTableBuilder := do
  let filter ← b.filter.or
    (FilterBlockBuilder.new o.approximatedNEntries o.blockSize o.hashes.length)
  let filter ← filter.addKey o.hashes (parseTaggedKey key).userKey
  let b := (b.firstKey key).place o key value filter
  let b := if o.blockSize ≤ b.block.currentSizeEstimate then { b.flushBlock o with block := .new }
    else b
  some { b with props := b.props.count key }

/-- `Finish`: the whole file. There is none if the filter of no key is asked for. -/
def finish (b : SstTableBuilder) : Option Bytes :=
  let b := if b.block.finish ≠ [] then b.flushBlock o else b
  b.filter.map fun f =>
    let (file, filter) := writeBlock b.file f.finish
    let (file, index) := writeBlock file b.index.finish
    writeEnd kSstMagicNumber file
      { b.props with
        indexPosition := index.offset
        indexSize := index.size
        filterPosition := filter.offset
        filterSize := filter.size }

def build (es : List (Entry Bytes)) : Option Bytes := do
  let b ← es.foldlM (fun b e => b.add o (keyBytes e.key) e.value) (new o)
  b.finish o

end SstTableBuilder

structure SstTableReader where
  file : Bytes
  checksumVerify : Bool
  props : TableProperties

/-- An iterator over a block, or the one that `Iterator::AsError` makes. -/
abbrev BlockIter := Except Error BlockIterator

namespace BlockIter

def move (f : BlockIterator → Option BlockIterator) : BlockIter → Option BlockIter
  | .error e => some (.error e)
  | .ok it => (f it).map .ok

def current : BlockIter → Option (Bytes × Bytes)
  | .error _ => none
  | .ok it => it.current

end BlockIter

namespace SstTableReader

def readResult (file : Bytes) (checksumVerify : Bool) (bh : BlockHandle) : Bytes :=
  match readFile file bh with
  | .error _ => []
  | .ok raw => if checksumVerify ∧ ofFixed (raw.take 4) ≠ (BaseIo.crc32 0 (raw.drop 4)).toNat
      then raw else raw.drop 4

/-- `Prepare`. An error of the first `ReadBlock` is not looked at: the properties are read from what
it left. -/
def prepare (file : Bytes) (checksumVerify : Bool) : Except Error SstTableReader := do
  let bh ← readFooter kSstMagicNumber "Incorrect file type, required: sst" file
  let props ← readProperties (readResult file checksumVerify bh)
  if props.unordered then .error (.corruption "SST table can not be unordered.")
  else
    if checksumVerify then
      let _ ← readBlock file checksumVerify ⟨props.indexPosition, props.indexSize⟩
    let _ ← readBlock file checksumVerify ⟨props.filterPosition, props.filterSize⟩
    .ok ⟨file, checksumVerify, props⟩

/-- `NewBlockIterator`. A seek sets both positions of a new iterator before they are looked at. -/
def newBlockIterator (r : SstTableReader) (bh : BlockHandle) (checksumVerify : Bool) :
    Option BlockIter :=
  match getOrLoad r.file checksumVerify bh with
  | .error e => some (.error e)
  | .ok block => (BlockIterator.new block 0 0).map .ok

def newIndexIterator (r : SstTableReader) : Option BlockIter :=
  r.newBlockIterator ⟨r.props.indexPosition, r.props.indexSize⟩ r.checksumVerify

def get (compare : Bytes → Bytes → Ordering) (r : SstTableReader) (verifyChecksums : Bool)
    (target : Bytes) :
    Option (Except Error ((ℕ × ℕ) × Bytes)) := do
  let index ← (← r.newIndexIterator).move fun it => it.seek compare target
  match index.current with
  | none => some (.error (.notFound "Index Seek()"))
  | some (_, value) =>
    let iter ← (← r.newBlockIterator (BlockHandle.read value).1 verifyChecksums).move fun it =>
      it.seek compare target
    match iter.current with
    | none => some (.error (.notFound "Data block Seek()"))
    | some (key, value) =>
      let ikey := parseTaggedKey key
      if some ikey.userKey ≠ extractUserKey target then some (.error (.notFound "Key not seeked!"))
      else some (.ok ((ikey.sequenceNumber, ikey.flag), value))

end SstTableReader

structure IteratorImpl where
  index : BlockIter
  block : Option BlockIter
  savedKey : Bytes
  error : Option Error

namespace IteratorImpl
variable (r : SstTableReader) (verify : Bool)

def new : Option IteratorImpl := r.newIndexIterator.map fun index => ⟨index, none, [], none⟩

def shown (it : IteratorImpl) : Option (Bytes × Bytes) :=
  if it.error = none ∧ it.index.current.isSome then it.block.bind BlockIter.current else none

def current (it : IteratorImpl) : Option (Bytes × Bytes) :=
  it.shown.map fun e => if r.props.lastLevel then (it.savedKey, e.2) else e

def saveKeyIfNeed (it : IteratorImpl) : IteratorImpl :=
  match it.shown with
  | some e => if r.props.lastLevel then { it with savedKey := keyBytes (makeKey e.1 0 .value) }
      else it
  | none => it

def seekBlock (it : IteratorImpl) (toFirst : Bool) : Option IteratorImpl :=
  match it.index.current with
  | none => some it
  | some (_, value) => do
    let block ← r.newBlockIterator (BlockHandle.read value).1 verify
    let block ← block.move fun b => if toFirst then b.seekToFirst else b.seekToLast
    some { it with block := some block }

def seekToFirst (it : IteratorImpl) : Option IteratorImpl := do
  let index ← it.index.move BlockIterator.seekToFirst
  let it ← seekBlock r verify { it with index } true
  some (it.saveKeyIfNeed r)

def seekToLast (it : IteratorImpl) : Option IteratorImpl := do
  let index ← it.index.move BlockIterator.seekToLast
  let it ← seekBlock r verify { it with index } false
  some (it.saveKeyIfNeed r)

/-- `Next` and `Prev`: when the block ends, on to the block that the index shows next, and to its
first entry. -/
def step (move : BlockIterator → Option BlockIterator)
    (it : IteratorImpl) : Option IteratorImpl := do
  let block ← (← it.block).move move
  let it := { it with block := some block }
  let it ← if block.current = none then
      (it.index.move move).bind fun index => seekBlock r verify { it with index } true
    else some it
  some (it.saveKeyIfNeed r)

def next (it : IteratorImpl) : Option IteratorImpl := it.step r verify BlockIterator.next

def prev (it : IteratorImpl) : Option IteratorImpl := it.step r verify BlockIterator.prev

def times (move : IteratorImpl → Option IteratorImpl) : ℕ → IteratorImpl → Option IteratorImpl
  | 0, it => some it
  | n + 1, it => (times move n it).bind move

end IteratorImpl

section Layout
variable {o : Options} {l c : Entries} {blocks : List Entries} {nRestart m : ℕ}

def cutStep (o : Options) (s : List Entries × Entries) (e : Bytes × Bytes) :
    List Entries × Entries :=
  if o.blockSize ≤ (DataBlockBuilder.addAll o.nRestart (s.2 ++ [e])).currentSizeEstimate
    then (s.1 ++ [s.2 ++ [e]], [])
  else (s.1, s.2 ++ [e])

def cut (o : Options) (l : Entries) : List Entries × Entries :=
  l.foldl (cutStep o) ([], [])

def dataBlocks (o : Options) (l : Entries) : List Entries :=
  if (cut o l).2 = [] then (cut o l).1 else (cut o l).1 ++ [(cut o l).2]

def layoutStep (nRestart : ℕ) (s : Bytes × Entries) (c : Entries) :
    Bytes × Entries :=
  let (file, bh) := writeBlock s.1 (block nRestart c)
  (file, s.2 ++ [(endKey [] c, bh.encode)])

def layout (nRestart : ℕ) (blocks : List Entries) : Bytes × Entries :=
  blocks.foldl (layoutStep nRestart) ([], [])

lemma cut_concat (o : Options) (l : Entries) (e : Bytes × Bytes) :
    cut o (l ++ [e]) = cutStep o (cut o l) e := by
  rw [cut, foldl_append]
  rfl

lemma layout_concat (nRestart : ℕ) (blocks : List Entries) (c : Entries) :
    layout nRestart (blocks ++ [c]) = layoutStep nRestart (layout nRestart blocks) c := by
  rw [layout, foldl_append]
  rfl

lemma flatten_cut (o : Options) (l : Entries) : (cut o l).1.flatten ++ (cut o l).2 = l := by
  induction l using List.reverseRecOn with
  | nil => rfl
  | append_singleton l e ih =>
    rw [cut_concat, cutStep]
    split_ifs
    · simp [← append_assoc, ih]
    · simp only [← append_assoc, ih]

lemma cut_nonempty : ∀ c ∈ (cut o l).1, c ≠ [] := by
  induction l using List.reverseRecOn with
  | nil => simp [cut]
  | append_singleton l e ih =>
    rw [cut_concat, cutStep]
    split_ifs
    · intro c hc
      rcases mem_append.mp hc with hc | hc
      · exact ih c hc
      · simp [mem_singleton.mp hc]
    · exact ih

lemma flatten_dataBlocks (o : Options) (l : Entries) : (dataBlocks o l).flatten = l := by
  have hcut := flatten_cut o l
  rw [dataBlocks]
  split_ifs with hpending
  · rwa [hpending, append_nil] at hcut
  · rwa [flatten_append, flatten_singleton]

lemma dataBlocks_nonempty : ∀ c ∈ dataBlocks o l, c ≠ [] := by
  rw [dataBlocks]
  split_ifs with hpending
  · exact cut_nonempty
  · intro c hc
    rcases mem_append.mp hc with hc | hc
    · exact cut_nonempty c hc
    · exact mem_singleton.mp hc ▸ hpending

lemma dataBlocks_ne_nil (o : Options) (hl : l ≠ []) : dataBlocks o l ≠ [] := fun hnil =>
  hl (by rw [← flatten_dataBlocks o l, hnil, flatten_nil])

lemma layout_keys (nRestart : ℕ) (blocks : List Entries) :
    (layout nRestart blocks).2.map Prod.fst = blocks.map (endKey []) := by
  induction blocks using List.reverseRecOn with
  | nil => rfl
  | append_singleton blocks c ih =>
    rw [layout_concat, map_append, ← ih]
    simp [layoutStep]

lemma length_layout (nRestart : ℕ) (blocks : List Entries) :
    (layout nRestart blocks).2.length = blocks.length := by
  have hlength := congrArg List.length (layout_keys nRestart blocks)
  rwa [length_map, length_map] at hlength

lemma layout_written (nRestart : ℕ) (hc : blocks[m]? = some c) :
    ∃ bh, (layout nRestart blocks).2[m]? = some (endKey [] c, bh.encode) ∧
    Written (layout nRestart blocks).1 bh (block nRestart c) := by
  induction blocks using List.reverseRecOn with
  | nil => simp at hc
  | append_singleton blocks c' ih =>
    rw [layout_concat, layoutStep]
    rcases Nat.lt_or_ge m blocks.length with hm | hm
    · rw [getElem?_append_left hm] at hc
      obtain ⟨bh, hindex, hwritten⟩ := ih hc
      refine ⟨bh, ?_, hwritten.append _⟩
      rw [getElem?_append_left (by rwa [length_layout]), hindex]
    · have hm' : m = blocks.length := by
        have := (List.getElem?_eq_some_iff.mp hc).1
        rw [length_append, length_singleton] at this
        omega
      subst hm'
      rw [getElem?_concat_length, Option.some.injEq] at hc
      subst hc
      refine ⟨_, ?_, written_writeBlock _ _⟩
      rw [← length_layout nRestart blocks, getElem?_concat_length]

end Layout

section Invariant
variable {o : Options} {b : SstTableBuilder} {es : List (Entry Bytes)} {e : Entry Bytes}

def storedAll (es : List (Entry Bytes)) : Entries := es.map (stored (firstIsZero es))

def filterSize (o : Options) : ℕ :=
  computeBoomFilterSize o.approximatedNEntries o.blockSize o.hashes.length

structure Noted (o : Options) (b : SstTableBuilder) (es : List (Entry Bytes)) : Prop where
  seen : b.hasSeenFirstKey = !es.isEmpty
  isLastLevel : b.isLastLevel = firstIsZero es
  lastLevel : b.props.lastLevel = false
  unordered : b.props.unordered = false
  filter : ∀ f, b.filter = some f → 4 * f.bits.length + 4 = filterSize o
  noFilter : b.filter = none → es = []

structure Built (o : Options) (b : SstTableBuilder) (es : List (Entry Bytes)) : Prop where
  noted : Noted o b es
  block : b.block = .addAll o.nRestart (cut o (storedAll es)).2
  file : b.file = (layout o.nRestart (cut o (storedAll es)).1).1
  index : b.index = .addAll o.nRestart (layout o.nRestart (cut o (storedAll es)).1).2

lemma built_new (o : Options) : Built o (.new o) [] where
  noted := by constructor <;> simp [SstTableBuilder.new, firstIsZero]
  block := rfl
  file := rfl
  index := rfl

lemma storedAll_concat (es : List (Entry Bytes)) (e : Entry Bytes) :
    storedAll (es ++ [e]) = storedAll es ++ [stored (firstIsZero (es ++ [e])) e] := by
  cases es with
  | nil => rfl
  | cons a es => simp [storedAll, firstIsZero]

lemma filterSize_ge (o : Options) : 8 ≤ filterSize o := by
  have hge := o.blockSize_ge
  rw [filterSize, computeBoomFilterSize]
  split_ifs <;> omega

lemma Noted.firstKey_isLastLevel (h : Noted o b es) (hseq : e.sequenceNumber ≤ kMaxSequenceNumber) :
    (b.firstKey (keyBytes e.key)).isLastLevel = firstIsZero (es ++ [e]) := by
  have hparse : (parseTaggedKey (keyBytes e.key)).sequenceNumber = e.sequenceNumber := by
    rw [parseTaggedKey_keyBytes hseq]
    rfl
  cases es with
  | nil => simp [SstTableBuilder.firstKey, h.seen, h.isLastLevel, firstIsZero, hparse]
  | cons a es => simp [SstTableBuilder.firstKey, h.seen, h.isLastLevel, firstIsZero]

lemma firstKey_kept (b : SstTableBuilder) (key : Bytes) : (b.firstKey key).hasSeenFirstKey = true ∧
    (b.firstKey key).block = b.block ∧ (b.firstKey key).file = b.file ∧ (b.firstKey key).index =
      b.index ∧
    (b.firstKey key).props.lastLevel = b.props.lastLevel ∧ (b.firstKey key).props.unordered =
      b.props.unordered := by
  rw [SstTableBuilder.firstKey]
  split_ifs with hseen
  · exact ⟨hseen, rfl, rfl, rfl, rfl, rfl⟩
  · exact ⟨rfl, rfl, rfl, rfl, rfl, rfl⟩

lemma Noted.snoc (h : Noted o b es) (hseq : e.sequenceNumber ≤ kMaxSequenceNumber)
    {b' : SstTableBuilder} {f : FilterBlockBuilder} (hlength : 4 * f.bits.length + 4 = filterSize o)
    (hseen : b'.hasSeenFirstKey = (b.firstKey (keyBytes e.key)).hasSeenFirstKey)
    (hlevel : b'.isLastLevel = (b.firstKey (keyBytes e.key)).isLastLevel)
    (hfilter : b'.filter = some f) (hprops : b'.props =
      (b.firstKey (keyBytes e.key)).props.count (keyBytes e.key)) : Noted o b' (es ++ [e]) := by
  obtain ⟨hfirst, -, -, -, hlast, hunordered⟩ := firstKey_kept b (keyBytes e.key)
  refine ⟨?_, ?_, ?_, ?_, fun f' hf' => ?_, fun hnone => ?_⟩
  · simp [hseen, hfirst]
  · rw [hlevel, h.firstKey_isLastLevel hseq]
  · rw [hprops]
    exact hlast.trans h.lastLevel
  · rw [hprops]
    exact hunordered.trans h.unordered
  · obtain rfl := Option.some.inj (hfilter.symm.trans hf')
    exact hlength
  · cases hfilter.symm.trans hnone

lemma flushBlock_eq {blocks : List Entries} {c : Entries}
    (hblock : b.block = .addAll o.nRestart c) (hfile : b.file = (layout o.nRestart blocks).1)
    (hindex : b.index = .addAll o.nRestart (layout o.nRestart blocks).2) :
    (b.flushBlock o).file = (layout o.nRestart (blocks ++ [c])).1 ∧
      (b.flushBlock o).index = .addAll o.nRestart (layout o.nRestart (blocks ++ [c])).2 := by
  rw [layout_concat, layoutStep]
  dsimp only
  rw [addAll_concat, ← hindex, ← hfile, ← lastKey_addAll o.nRestart, ← hblock, TableDataBlock.block,
    ← hblock]
  exact ⟨rfl, rfl⟩

lemma Noted.exists_filter (h : Noted o b es) (key : Bytes) : ∃ f f', b.filter.or
      (FilterBlockBuilder.new o.approximatedNEntries o.blockSize o.hashes.length) = some f ∧
    f.addKey o.hashes key = some f' ∧ 4 * f'.bits.length + 4 = filterSize o := by
  have hge := filterSize_ge o
  obtain ⟨f, hf, hlength⟩ : ∃ f, b.filter.or
      (FilterBlockBuilder.new o.approximatedNEntries o.blockSize o.hashes.length) = some f ∧
        4 * f.bits.length + 4 = filterSize o := by
    cases hfilter : b.filter with
    | some f => exact ⟨f, rfl, h.filter f hfilter⟩
    | none =>
      obtain ⟨f, hf, -⟩ :=
        FilterBlockBuilder.new_some o.blockSize_dvd o.blockSize_ge o.blockSize_lt.le
        o.approximatedNEntries o.hashes.length
      exact ⟨f, hf, FilterBlockBuilder.new_length hf⟩
  have hbits : f.bits ≠ [] := by
    rintro hnil
    rw [hnil, length_nil] at hlength
    omega
  obtain ⟨f', hf', hlength'⟩ := FilterBlockBuilder.addKey_length hbits o.hashes key
  exact ⟨f, f', hf, hf', by rw [hlength', hlength]⟩

lemma Built.place_block (h : Built o b es) (hseq : e.sequenceNumber ≤ kMaxSequenceNumber)
    (f : FilterBlockBuilder) :
    ((b.firstKey (keyBytes e.key)).place o (keyBytes e.key) e.value f).block =
      .addAll o.nRestart ((cut o (storedAll es)).2 ++ [stored (firstIsZero (es ++ [e])) e]) := by
  rw [addAll_concat, ← h.block, ← (firstKey_kept b (keyBytes e.key)).2.1, SstTableBuilder.place,
    h.noted.firstKey_isLastLevel hseq, parseTaggedKey_keyBytes hseq]
  rfl

lemma Built.add (h : Built o b es) (hseq : e.sequenceNumber ≤ kMaxSequenceNumber) :
    ∃ b', b.add o (keyBytes e.key) e.value = some b' ∧ Built o b' (es ++ [e]) := by
  obtain ⟨f, f', hf, hf', hlength⟩ :=
    h.noted.exists_filter (parseTaggedKey (keyBytes e.key)).userKey
  obtain ⟨-, -, hfile, hindex, -, -⟩ := firstKey_kept b (keyBytes e.key)
  have hblock := h.place_block hseq f'
  have hcut := cut_concat o (storedAll es) (stored (firstIsZero (es ++ [e])) e)
  rw [← storedAll_concat, cutStep, ← hblock] at hcut
  simp only [SstTableBuilder.add, hf, hf', bind_eq_bind, bind_some]
  refine ⟨_, rfl, ?_⟩
  split_ifs with hfull
  · rw [if_pos hfull] at hcut
    obtain ⟨hfile', hindex'⟩ := flushBlock_eq hblock (hfile.trans h.file) (hindex.trans h.index)
    refine ⟨h.noted.snoc hseq hlength rfl rfl rfl rfl, ?_, ?_, ?_⟩ <;> rw [hcut]
    · rfl
    · exact hfile'
    · exact hindex'
  · rw [if_neg hfull] at hcut
    refine ⟨h.noted.snoc hseq hlength rfl rfl rfl rfl, ?_, ?_, ?_⟩ <;> rw [hcut]
    · exact hblock
    · exact hfile.trans h.file
    · exact hindex.trans h.index

lemma built_foldlM (l : List (Entry Bytes)) (h : Built o b es)
    (hseq : ∀ e ∈ l, e.sequenceNumber ≤ kMaxSequenceNumber) :
    ∃ b', l.foldlM (fun b e => b.add o (keyBytes e.key) e.value) b = some b' ∧
      Built o b' (es ++ l) := by
  induction l generalizing b es with
  | nil => exact ⟨b, rfl, by simpa using h⟩
  | cons e l ih =>
    obtain ⟨b₁, hb₁, h₁⟩ := h.add (hseq e (by simp))
    obtain ⟨b₂, hb₂, h₂⟩ := ih h₁ fun x hx => hseq x (by simp [hx])
    exact ⟨b₂, by rw [foldlM_cons, hb₁]; exact hb₂, by simpa using h₂⟩

end Invariant

section File
variable {o : Options} {b : SstTableBuilder} {es : List (Entry Bytes)} {file front : Bytes}
  {props : TableProperties}

def tableLayout (o : Options) (es : List (Entry Bytes)) : Bytes × Entries :=
  layout o.nRestart (dataBlocks o (storedAll es))

structure Finished (o : Options) (es : List (Entry Bytes)) (file front : Bytes)
    (props : TableProperties) : Prop where
  file_eq : file = writeEnd kSstMagicNumber front props
  blocks : ∃ more, file = (tableLayout o es).1 ++ more
  index : Written file ⟨props.indexPosition, props.indexSize⟩
    (block o.nRestart (tableLayout o es).2)
  filter : ∃ filter, Written file ⟨props.filterPosition, props.filterSize⟩ filter ∧
    4 + filter.length = filterSize o
  lastLevel : props.lastLevel = false
  unordered : props.unordered = false

lemma Built.flush_last (h : Built o b es) :
    ∃ b', (if b.block.finish ≠ [] then b.flushBlock o else b) = b' ∧
    b'.file = (tableLayout o es).1 ∧ b'.index = .addAll o.nRestart (tableLayout o es).2 ∧
      b'.props = b.props ∧
    b'.filter = b.filter := by
  refine ⟨_, rfl, ?_⟩
  rw [h.block, tableLayout, dataBlocks]
  by_cases hpending : (cut o (storedAll es)).2 = []
  · have hfinish : (DataBlockBuilder.addAll o.nRestart (cut o (storedAll es)).2).finish = [] := by
      rw [hpending]; rfl
    rw [if_pos hpending, if_neg (not_not.mpr hfinish)]
    exact ⟨h.file, h.index, rfl, rfl⟩
  · have hfinish : (DataBlockBuilder.addAll o.nRestart (cut o (storedAll es)).2).finish ≠ [] :=
      block_ne_nil o.nRestart hpending
    rw [if_neg hpending, if_pos hfinish]
    obtain ⟨hfile, hindex⟩ := flushBlock_eq h.block h.file h.index
    exact ⟨hfile, hindex, rfl, rfl⟩

lemma Built.finish (h : Built o b es) (hne : es ≠ []) :
    ∃ file front props, b.finish o = some file ∧ Finished o es file front props := by
  obtain ⟨b', hb', hfile, hindex, hprops, hfilter⟩ := h.flush_last
  obtain ⟨f, hf⟩ := ne_none_iff_exists'.mp (mt h.noted.noFilter hne)
  have hlength := h.noted.filter f hf
  have hsize := f.length_finish
  simp only [SstTableBuilder.finish, hb', hfilter, hf, map_some, hprops]
  refine ⟨_, _, _, rfl, rfl, ?_, ?_, ⟨f.finish, ?_, by omega⟩, h.noted.lastLevel, h.noted.unordered⟩
  · rw [← hfile, writeEnd, writeBlock, writeBlock, writeBlock]
    exact ⟨_, by simp only [append_assoc]; rfl⟩
  · have hwritten := written_writeBlock (writeBlock b'.file f.finish).1 b'.index.finish
    rw [hindex] at hwritten ⊢
    exact hwritten.writeEnd _ _
  · exact ((written_writeBlock b'.file f.finish).append _).writeEnd _ _

structure Fits (o : Options) (es : List (Entry Bytes)) (file : Bytes) : Prop where
  file : file.length < 2 ^ 64
  blocks : ∀ c ∈ dataBlocks o (storedAll es), (block o.nRestart c).length < 2 ^ 32
  index : 4 + (block o.nRestart (tableLayout o es).2).length < 2 ^ 32
  filter : filterSize o < 2 ^ 32

lemma readResult_written {bh : BlockHandle} {block : Bytes} (h : Written file bh block)
    (verify : Bool) :
    SstTableReader.readResult file verify bh = block := by
  have hread := h.readBlockOr "CRC32 checksum fail!" verify
  rw [readBlockOr, h.readFile] at hread
  simp only [SstTableReader.readResult, h.readFile]
  simp only [bind, Except.bind] at hread
  split_ifs at hread ⊢
  exact Except.ok.inj hread

lemma Finished.prepare (h : Finished o es file front props) (hfits : Fits o es file)
    (verify : Bool) :
    SstTableReader.prepare file verify = .ok ⟨file, verify, props.cut⟩ ∧
      props.cut.indexPosition = props.indexPosition ∧ props.cut.indexSize = props.indexSize := by
  obtain ⟨bh, hfooter, hprops⟩ := readFooter_writeEnd kSstMagicNumber front props (by decide)
    (by rw [← h.file_eq]; exact hfits.file) "Incorrect file type, required: sst"
  rw [← h.file_eq] at hfooter hprops
  obtain ⟨filter, hfilter, hlength⟩ := h.filter
  have hposition : props.cut.indexPosition = props.indexPosition :=
    Nat.mod_eq_of_lt (h.index.offset_le.trans_lt hfits.file)
  have hsize : props.cut.indexSize = props.indexSize :=
    Nat.mod_eq_of_lt (h.index.size_eq.trans_lt hfits.index)
  have hposition' : props.cut.filterPosition = props.filterPosition :=
    Nat.mod_eq_of_lt (hfilter.offset_le.trans_lt hfits.file)
  have hsize' : props.cut.filterSize = props.filterSize :=
    Nat.mod_eq_of_lt ((hfilter.size_eq.trans hlength).trans_lt hfits.filter)
  have hunordered : props.cut.unordered = false := h.unordered
  refine ⟨?_, hposition, hsize⟩
  simp only [SstTableReader.prepare, bind, Except.bind, hfooter, readResult_written hprops,
    readProperties_writeProperties, hunordered, hposition, hsize, hposition', hsize', readBlock,
    h.index.readBlockOr, hfilter.readBlockOr, Bool.false_eq_true, if_false]
  split_ifs <;> rfl

end File

end Mai.TableSst
