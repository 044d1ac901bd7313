import Mai.GroupedList
import Mai.TableFormat

/-! The blocks of a sorted table (`table/data-block-builder.cc`, `table/block-iterator.cc`): entries
in groups of a fixed number, the keys of a group without the bytes they share with the key before,
and the offsets of the groups at the end. -/
namespace Mai.TableDataBlock
open ByteCodec CoreKeys GroupedList TableFormat List Option

/-- Keys with their values. -/
abbrev Entries := List (Bytes × Bytes)

structure DataBlockBuilder where
  buf : Bytes
  restarts : List ℕ
  lastKey : Bytes
  count : ℕ
  deriving DecidableEq, Repr

def extractPrefix : Bytes → Bytes → ℕ
  | a :: lastKey, b :: input => if a = b then extractPrefix lastKey input + 1 else 0
  | _, _ => 0

namespace DataBlockBuilder

def new : DataBlockBuilder := ⟨[], [], [], 0⟩

def add (nRestart : ℕ) (b : DataBlockBuilder) (key value : Bytes) : DataBlockBuilder where
  buf := b.buf ++
    if b.count = 0 then encodeEntry 0 key value
    else encodeEntry (extractPrefix b.lastKey key) (key.drop (extractPrefix b.lastKey key)) value
  restarts := if b.count = 0 then b.restarts ++ [b.buf.length % 256 ^ 4] else b.restarts
  lastKey := key
  count := (b.count + 1) % nRestart

def finish (b : DataBlockBuilder) : Bytes :=
  if b.buf = [] then [] else b.buf ++ b.restarts.flatMap (toFixed 4) ++ toFixed 4 b.restarts.length

def currentSizeEstimate (b : DataBlockBuilder) : ℕ := b.buf.length + b.restarts.length * 4 + 4

def addAll (nRestart : ℕ) (entries : Entries) : DataBlockBuilder :=
  entries.foldl (fun b e => b.add nRestart e.1 e.2) new

end DataBlockBuilder

def block (nRestart : ℕ) (entries : Entries) : Bytes :=
  (DataBlockBuilder.addAll nRestart entries).finish

structure BlockIterator where
  data : Bytes
  restarts : List ℕ
  currRestart : ℤ
  currLocal : ℤ
  entries : Entries
  error : Option Error
  deriving DecidableEq, Repr

def toSize (z : ℤ) : ℕ := (z % 2 ^ 64).toNat

def sizePred (n : ℕ) : ℕ := (n + (2 ^ 64 - 1)) % 2 ^ 64

/-- The loop of `PrepareRead`, from a position to the end of the group. -/
def readGroup (data : Bytes) (stop : ℕ) : ℕ → ℕ → Bytes → Option (Entries)
  | 0, p, _ => if p < stop then none else some []
  | fuel + 1, p, lastKey =>
    if p < stop then
      let ((key, value), rest) := readEntry lastKey (data.drop p)
      (readGroup data stop fuel (data.length - rest.length) key).map ((key, value) :: ·)
    else some []

namespace BlockIterator

def new (block : Bytes) (currRestart currLocal : ℤ) : Option BlockIterator :=
  let nRestarts := ofFixed (block.drop (block.length - 4))
  if block.length < 4 + 4 * nRestarts then none
  else
    let idx := block.length - 4 - 4 * nRestarts
    some {
      data := block.take idx
      restarts := (List.range nRestarts).map fun i => ofFixed ((block.drop (idx + 4 * i)).take 4)
      currRestart := currRestart
      currLocal := currLocal
      entries := []
      error := none }

def stop (it : BlockIterator) (i : ℕ) : ℕ :=
  if i + 1 = it.restarts.length then it.data.length else it.restarts.getD (i + 1) 0

def prepareRead (it : BlockIterator) (i : ℕ) : Option BlockIterator :=
  if it.error.isSome then some { it with entries := [] }
  else (readGroup it.data (it.stop i) it.data.length (it.restarts.getD i 0) []).map fun l =>
    { it with entries := l }

def valid (it : BlockIterator) : Bool :=
  it.error = none ∧ (0 ≤ it.currRestart ∧ it.currRestart < it.restarts.length) ∧
    (0 ≤ it.currLocal ∧ it.currLocal < it.entries.length)

def current (it : BlockIterator) : Option (Bytes × Bytes) :=
  if it.valid then it.entries[it.currLocal.toNat]? else none

def seekToFirst (it : BlockIterator) : Option BlockIterator :=
  (it.prepareRead 0).map fun it => { it with currLocal := 0, currRestart := 0 }

def seekToLast (it : BlockIterator) : Option BlockIterator :=
  (it.prepareRead (it.restarts.length - 1)).map fun it =>
    { it with
      currLocal := (it.entries.length : ℤ) - 1, currRestart := (it.restarts.length : ℤ) - 1 }

def restartKey (it : BlockIterator) (i : ℕ) : Bytes :=
  (readEntry [] (it.data.drop (it.restarts.getD i 0))).1.1

/-- The loop over the groups to look at; `std::lower_bound` in a group is its first entry that is
not before the target. -/
def seekGroups (compare : Bytes → Bytes → Ordering) (target : Bytes) (first : ℕ) :
    List ℕ → BlockIterator → Option BlockIterator
  | [], it => some { it with error := some (.notFound "Seek()") }
  | i :: is, it =>
    if it.restarts.length ≤ i then some { it with error := some (.notFound "Seek()") }
    else
      match it.prepareRead i with
      | none => none
      | some it =>
        let j := (it.entries.takeWhile fun e => compare e.1 target = .lt).length
        if j < it.entries.length then some { it with currLocal := j, currRestart := first }
        else seekGroups compare target first is it

def seek (compare : Bytes → Bytes → Ordering) (it : BlockIterator) (target : Bytes) :
    Option BlockIterator :=
  match bisect (fun i => compare target (it.restartKey i) ≠ .lt) it.restarts.length 0
    it.restarts.length with
  | none => none
  | some first =>
    let first := if first ≠ 0 then first - 1 else first
    let first := if it.restarts.length ≤ first then 0 else first
    it.seekGroups compare target first [first, first + 1]

def next (it : BlockIterator) : Option BlockIterator :=
  if sizePred it.entries.length ≤ toSize it.currLocal then
    let moved := { it with currRestart := it.currRestart + 1 }
    (if toSize it.currRestart < sizePred it.restarts.length
      then moved.prepareRead (toSize moved.currRestart)
      else some moved).map fun it => { it with currLocal := 0 }
  else some { it with currLocal := it.currLocal + 1 }

def prev (it : BlockIterator) : Option BlockIterator :=
  if it.currLocal = 0 then
    let moved := { it with currRestart := it.currRestart - 1 }
    (if 0 < it.currRestart then moved.prepareRead (toSize moved.currRestart)
      else some moved).map fun it => { it with currLocal := (it.entries.length : ℤ) - 1 }
  else some { it with currLocal := it.currLocal - 1 }

def nextTimes : ℕ → BlockIterator → Option BlockIterator
  | 0, it => some it
  | n + 1, it => it.next.bind (nextTimes n)

end BlockIterator

section Encoding
variable {nRestart : ℕ} {b : DataBlockBuilder} {groups : List Entries} {e : Bytes × Bytes}
  {k : Bytes}

def entryAfter (lastKey : Bytes) (e : Bytes × Bytes) : Bytes :=
  encodeEntry (extractPrefix lastKey e.1) (e.1.drop (extractPrefix lastKey e.1)) e.2

def encodeFrom : Bytes → Entries → Bytes
  | _, [] => []
  | lastKey, e :: l => entryAfter lastKey e ++ encodeFrom e.1 l

def endKey (k : Bytes) (l : Entries) : Bytes := (l.getLast?.map Prod.fst).getD k

lemma take_extractPrefix (lastKey key : Bytes) :
    lastKey.take (extractPrefix lastKey key) ++ key.drop (extractPrefix lastKey key) = key := by
  induction lastKey generalizing key with
  | nil => cases key <;> rfl
  | cons a lastKey ih =>
    cases key with
    | nil => rfl
    | cons b key =>
      rw [extractPrefix]
      split_ifs with hab
      · rw [take_succ_cons, drop_succ_cons, cons_append, ih, hab]
      · rfl

lemma readEntry_entryAfter (lastKey : Bytes) (e : Bytes × Bytes) (more : Bytes) :
    readEntry lastKey (entryAfter lastKey e ++ more) = (e, more) := by
  rw [entryAfter, readEntry_encodeEntry, take_extractPrefix]

lemma entryAfter_pos (lastKey : Bytes) (e : Bytes × Bytes) : 0 < (entryAfter lastKey e).length :=
  length_pos_iff.mpr (encodeEntry_ne_nil _ _ _)

lemma length_le_encodeFrom (k : Bytes) (l : Entries) : l.length ≤ (encodeFrom k l).length := by
  induction l generalizing k with
  | nil => exact le_rfl
  | cons e l ih =>
    have := ih e.1
    have := entryAfter_pos k e
    rw [encodeFrom, length_append, length_cons]
    omega

lemma encodeFrom_concat (k : Bytes) (l : Entries) (e : Bytes × Bytes) :
    encodeFrom k (l ++ [e]) = encodeFrom k l ++ entryAfter (endKey k l) e := by
  induction l generalizing k with
  | nil => simp [encodeFrom, endKey]
  | cons a l ih =>
    have hend : endKey k (a :: l) = endKey a.1 l := by
      cases l with
      | nil => rfl
      | cons b l => rw [endKey, endKey, getLast?_cons_cons, getLast?_cons]; rfl
    rw [cons_append, encodeFrom, ih, encodeFrom, hend, append_assoc]

lemma readGroup_encodeFrom (front rest : Bytes) (k : Bytes) (l : Entries) (fuel : ℕ)
    (hfuel : l.length ≤ fuel) :
    readGroup (front ++ encodeFrom k l ++ rest) (front ++ encodeFrom k l).length fuel front.length
      k = some l := by
  induction l generalizing front k fuel with
  | nil =>
    have hstop : ¬ front.length < (front ++ encodeFrom k []).length := by simp [encodeFrom]
    cases fuel <;> rw [readGroup, if_neg hstop]
  | cons e l ih =>
    cases fuel with
    | zero => exact absurd hfuel (by simp)
    | succ fuel =>
      have hpos := entryAfter_pos k e
      have hlt : front.length < (front ++ encodeFrom k (e :: l)).length := by
        rw [encodeFrom, length_append, length_append]
        omega
      have hdrop : (front ++ encodeFrom k (e :: l) ++ rest).drop front.length =
          entryAfter k e ++ (encodeFrom e.1 l ++ rest) := by
        rw [append_assoc, drop_left, encodeFrom, append_assoc]
      have hshift : front ++ encodeFrom k (e :: l) =
          front ++ entryAfter k e ++ encodeFrom e.1 l := by
        rw [encodeFrom, append_assoc]
      have hposition :
          (front ++ encodeFrom k (e :: l) ++ rest).length - (encodeFrom e.1 l ++ rest).length =
          (front ++ entryAfter k e).length := by
        rw [hshift]
        simp only [length_append]
        omega
      rw [readGroup, if_pos hlt, hdrop, readEntry_entryAfter]
      simp only [hposition]
      rw [hshift, ih (front ++ entryAfter k e) e.1 fuel (by simpa using hfuel)]
      rfl

structure Built (nRestart : ℕ) (b : DataBlockBuilder) (groups : List Entries) : Prop where
  buf : b.buf = groups.flatMap (encodeFrom [])
  restarts : b.restarts = (List.range groups.length).map fun g =>
    ((groups.take g).flatMap (encodeFrom [])).length % 256 ^ 4
  lastKey : b.lastKey = endKey [] (groups.getLast?.getD [])
  count : b.count = (groups.getLast?.getD []).length % nRestart

lemma built_new (nRestart : ℕ) : Built nRestart .new [] :=
  ⟨rfl, rfl, rfl, (Nat.zero_mod nRestart).symm⟩

lemma restarts_concat {front : List Entries} (last last' : Entries) :
    ((List.range (front ++ [last]).length).map fun g =>
      (((front ++ [last]).take g).flatMap (encodeFrom [])).length % 256 ^ 4) =
      (List.range (front ++ [last']).length).map fun g =>
        (((front ++ [last']).take g).flatMap (encodeFrom [])).length % 256 ^ 4 := by
  rw [length_append, length_append, length_singleton, length_singleton]
  refine map_congr_left fun g hg => ?_
  have hle : g ≤ front.length := Nat.lt_succ_iff.mp (mem_range.mp hg)
  rw [take_append_of_le_length hle, take_append_of_le_length hle]

lemma Built.add (h : Built nRestart b groups) (e : Bytes × Bytes) :
    Built nRestart (b.add nRestart e.1 e.2) (snoc nRestart groups e) := by
  rw [snoc, ← h.count]
  split_ifs with hcount
  · refine ⟨?_, ?_, by simp [DataBlockBuilder.add, endKey], by simp [DataBlockBuilder.add, hcount]⟩
    · simp [DataBlockBuilder.add, hcount, h.buf, encodeFrom, entryAfter, extractPrefix]
    · have hold : ((List.range groups.length).map fun g =>
          (((groups ++ [[e]]).take g).flatMap (encodeFrom [])).length % 256 ^ 4) = b.restarts := by
        rw [h.restarts]
        refine map_congr_left fun g hg => ?_
        rw [take_append_of_le_length (mem_range.mp hg).le]
      rw [length_append, length_singleton, range_succ, map_append, hold, map_singleton,
        take_left, ← h.buf]
      simp [DataBlockBuilder.add, hcount]
  · have hne : groups ≠ [] := by
      rintro rfl
      exact hcount (h.count.trans (Nat.zero_mod nRestart))
    have hconcat := eq_concat hne
    generalize groups.dropLast = front at hconcat ⊢
    generalize groups.getLast?.getD [] = last at hconcat ⊢
    subst hconcat
    have hlast : ((front ++ [last]).getLast?.getD []) = last := by simp
    have hkey := h.lastKey
    have hlength := h.count
    rw [hlast] at hkey hlength
    refine ⟨?_, ?_, by simp [DataBlockBuilder.add, endKey], ?_⟩
    · rw [flatMap_append, flatMap_singleton, encodeFrom_concat, ← hkey]
      simp [DataBlockBuilder.add, hcount, h.buf, entryAfter]
    · rw [restarts_concat (last ++ [e]) last, ← h.restarts]
      simp [DataBlockBuilder.add, hcount]
    · rw [getLast?_concat, getD_some, length_append, length_singleton]
      simp [DataBlockBuilder.add, hlength]

lemma addAll_concat (nRestart : ℕ) (l : Entries) (e : Bytes × Bytes) :
    DataBlockBuilder.addAll nRestart (l ++ [e]) =
      (DataBlockBuilder.addAll nRestart l).add nRestart e.1 e.2 := by
  rw [DataBlockBuilder.addAll, foldl_append]
  rfl

lemma built_addAll (nRestart : ℕ) (l : Entries) :
    Built nRestart (.addAll nRestart l) (groupsOf nRestart l) := by
  induction l using List.reverseRecOn with
  | nil => exact built_new nRestart
  | append_singleton l e ih =>
    rw [addAll_concat, groupsOf, foldl_append]
    exact ih.add e

lemma lastKey_addAll (nRestart : ℕ) (l : Entries) :
    (DataBlockBuilder.addAll nRestart l).lastKey = endKey [] l := by
  induction l using List.reverseRecOn with
  | nil => rfl
  | append_singleton l e ih => rw [addAll_concat]; simp [DataBlockBuilder.add, endKey]

end Encoding

section Reading
variable {nRestart : ℕ} {b : DataBlockBuilder} {groups : List Entries} {it : BlockIterator}
  {G : Entries} {g : ℕ}

lemma length_flatMap_toFixed (l : List ℕ) : (l.flatMap (toFixed 4)).length = 4 * l.length := by
  induction l with
  | nil => rfl
  | cons n l ih =>
    rw [flatMap_cons, length_append, ih, length_toFixed, length_cons]
    ring

lemma map_ofFixed (l : List ℕ) (rest : Bytes) (hl : ∀ n ∈ l, n < 256 ^ 4) :
    ((List.range l.length).map fun i =>
      ofFixed (((l.flatMap (toFixed 4) ++ rest).drop (4 * i)).take 4)) = l := by
  induction l with
  | nil => rfl
  | cons n l ih =>
    have hsucc (i : ℕ) : ((n :: l).flatMap (toFixed 4) ++ rest).drop (4 * (i + 1)) =
        (l.flatMap (toFixed 4) ++ rest).drop (4 * i) := by
      rw [flatMap_cons, append_assoc, mul_add, add_comm, ← drop_drop,
        drop_left' (length_toFixed _ _)]
    have hzero : ((n :: l).flatMap (toFixed 4) ++ rest).take 4 = toFixed 4 n := by
      rw [flatMap_cons, append_assoc, take_left' (length_toFixed _ _)]
    rw [length_cons, range_succ_eq_map, map_cons, List.map_map, mul_zero, drop_zero, hzero,
      ofFixed_toFixed (hl n (by simp))]
    refine congrArg (n :: ·)
      ((map_congr_left fun i _ => ?_).trans (ih fun m hm => hl m (by simp [hm])))
    rw [Function.comp_apply, hsucc]

lemma new_finish (x y : ℤ) (hbuf : b.buf ≠ []) (hsize : b.finish.length < 256 ^ 4)
    (hrestarts : ∀ n ∈ b.restarts, n < 256 ^ 4) :
    BlockIterator.new b.finish x y = some ⟨b.buf, b.restarts, x, y, [], none⟩ := by
  have hfinish : b.finish =
      b.buf ++ b.restarts.flatMap (toFixed 4) ++ toFixed 4 b.restarts.length := if_neg hbuf
  have hlength : b.finish.length = b.buf.length + 4 * b.restarts.length + 4 := by
    rw [hfinish, length_append, length_append, length_toFixed, length_flatMap_toFixed]
  have hcount : ofFixed (b.finish.drop (b.finish.length - 4)) = b.restarts.length := by
    rw [hlength, Nat.add_sub_cancel, hfinish, drop_left', ofFixed_toFixed (by omega)]
    rw [length_append, length_flatMap_toFixed]
  have hidx : b.finish.length - 4 - 4 * b.restarts.length = b.buf.length := by omega
  have hoffsets : ((List.range b.restarts.length).map fun i =>
      ofFixed ((b.finish.drop (b.buf.length + 4 * i)).take 4)) =
      b.restarts := by
    refine (map_congr_left fun i _ => ?_).trans
      (map_ofFixed b.restarts (toFixed 4 b.restarts.length) hrestarts)
    rw [hfinish, append_assoc, ← drop_drop, drop_left]
  rw [BlockIterator.new]
  simp only [hcount, hidx, hoffsets]
  rw [if_neg (by omega), hfinish, append_assoc, take_left]

structure Reads (it : BlockIterator) (groups : List Entries) : Prop where
  count : it.restarts.length = groups.length
  nonempty : ∀ G ∈ groups, G ≠ []
  group : ∀ g G, groups[g]? = some G →
    readGroup it.data (it.stop g) it.data.length (it.restarts.getD g 0) [] = some G
  first : ∀ g e G, groups[g]? = some (e :: G) → it.restartKey g = e.1
  small : groups.flatten.length < 2 ^ 63

lemma Built.restarts_eq (h : Built nRestart b groups) (hsize : b.buf.length < 256 ^ 4)
    (hg : g < groups.length) :
    b.restarts.getD g 0 = ((groups.take g).flatMap (encodeFrom [])).length := by
  have hle : ((groups.take g).flatMap (encodeFrom [])).length ≤ b.buf.length := by
    rw [h.buf]
    exact (List.Sublist.flatMap (take_sublist g groups) _).length_le
  rw [h.restarts, getD_eq_getElem?_getD, getElem?_map, getElem?_range hg, map_some, getD_some,
    Nat.mod_eq_of_lt (by omega)]

lemma flatMap_split {f : Entries → Bytes} (h : groups[g]? = some G) :
    groups.flatMap f = (groups.take g).flatMap f ++ f G ++ (groups.drop (g + 1)).flatMap f ∧
      (groups.take (g + 1)).flatMap f = (groups.take g).flatMap f ++ f G := by
  obtain ⟨hg, rfl⟩ := List.getElem?_eq_some_iff.mp h
  have htake : (groups.take (g + 1)).flatMap f = (groups.take g).flatMap f ++ f groups[g] := by
    rw [take_add_one, h, flatMap_append]
    simp
  refine ⟨?_, htake⟩
  rw [← htake, ← flatMap_append, take_append_drop]

lemma length_flatten_le (groups : List Entries) :
    groups.flatten.length ≤ (groups.flatMap (encodeFrom [])).length := by
  induction groups with
  | nil => exact le_rfl
  | cons G groups ih =>
    have := length_le_encodeFrom [] G
    rw [flatten_cons, flatMap_cons, length_append, length_append]
    omega

lemma Built.reads (h : Built nRestart b groups) (hgrouped : ∀ G ∈ groups, G ≠ [])
    (hsize : b.buf.length < 256 ^ 4) (hdata : it.data = b.buf)
    (hrestarts : it.restarts = b.restarts) : Reads it groups where
  count := by rw [hrestarts, h.restarts, length_map, length_range]
  nonempty := hgrouped
  group g G hG := by
    obtain ⟨hg, -⟩ := List.getElem?_eq_some_iff.mp hG
    obtain ⟨hsplit, htake⟩ := flatMap_split (f := encodeFrom []) hG
    have hcount : b.restarts.length = groups.length := by rw [h.restarts, length_map, length_range]
    have hstop : it.stop g =
        ((groups.take g).flatMap (encodeFrom []) ++ encodeFrom [] G).length := by
      rw [BlockIterator.stop, hrestarts, hdata, hcount]
      split_ifs with hlast
      · rw [h.buf, hsplit, hlast, drop_length, flatMap_nil, append_nil]
      · rw [h.restarts_eq hsize (by omega), htake]
    have hfuel : G.length ≤ b.buf.length := by
      have := length_le_encodeFrom [] G
      rw [h.buf, hsplit, length_append, length_append]
      omega
    rw [hstop, hdata, hrestarts, h.restarts_eq hsize hg]
    rw [h.buf, hsplit] at hfuel ⊢
    exact readGroup_encodeFrom _ _ [] G _ hfuel
  first g e G hG := by
    obtain ⟨hg, -⟩ := List.getElem?_eq_some_iff.mp hG
    obtain ⟨hsplit, -⟩ := flatMap_split (f := encodeFrom []) hG
    rw [BlockIterator.restartKey, hrestarts, hdata, h.restarts_eq hsize hg, h.buf, hsplit,
      append_assoc, drop_left, encodeFrom, append_assoc, readEntry_entryAfter]
  small := by
    have := length_flatten_le groups
    rw [← h.buf] at this
    omega

end Reading

section Moves
variable {groups : List Entries} {it : BlockIterator} {G : Entries} {g i j : ℕ}

def At (it : BlockIterator) (groups : List Entries) (i : ℕ) : Prop :=
  it.error = none ∧ ∃ g G j, groups[g]? = some G ∧ j < G.length ∧ i = offset groups g + j ∧
    it.currRestart = g ∧ it.currLocal = j ∧ it.entries = G

lemma At.lt (h : At it groups i) : i < groups.flatten.length := by
  obtain ⟨-, g, G, j, hG, hj, rfl, -⟩ := h
  exact place_lt hG hj

lemma toSize_natCast {n : ℕ} (h : n < 2 ^ 64) : toSize n = n := by
  rw [toSize]
  omega

lemma sizePred_eq {n : ℕ} (hpos : 0 < n) (h : n < 2 ^ 64) : sizePred n = n - 1 := by
  rw [sizePred]
  omega

lemma Reads.length_le (h : Reads it groups) : groups.length ≤ groups.flatten.length := by
  have hle : ∀ l : List Entries, (∀ G ∈ l, G ≠ []) → l.length ≤ l.flatten.length := by
    intro l hl
    induction l with
    | nil => exact le_rfl
    | cons G l ih =>
      have := ih fun G' hG' => hl G' (by simp [hG'])
      have := length_pos_iff.mpr (hl G (by simp))
      rw [length_cons, flatten_cons, length_append]
      omega
  exact hle groups h.nonempty

lemma Reads.group_length (h : Reads it groups) (hG : groups[g]? = some G) :
    0 < G.length ∧ G.length < 2 ^ 63 ∧ g < 2 ^ 63 := by
  have hpos := length_pos_iff.mpr (h.nonempty G (mem_of_getElem? hG))
  have hlt := place_lt hG (show G.length - 1 < G.length by omega)
  have hg := (List.getElem?_eq_some_iff.mp hG).1
  have := h.length_le
  have := h.small
  omega

lemma Reads.prepareRead (h : Reads it groups) (herror : it.error = none)
    (hG : groups[g]? = some G) :
    it.prepareRead g = some { it with entries := G } := by
  rw [BlockIterator.prepareRead, herror, h.group g G hG]
  rfl

lemma Reads.moved (h : Reads it groups) (x y : ℤ) (entries : Entries) (error : Option Error) :
    Reads { it with currRestart := x, currLocal := y, entries := entries, error := error } groups :=
  ⟨h.count, h.nonempty, h.group, h.first, h.small⟩

lemma Reads.valid_at (h : Reads it groups) (hat : At it groups i) : it.valid = true := by
  obtain ⟨herror, g, G, j, hG, hj, -, hr, hl, he⟩ := hat
  have hg := (List.getElem?_eq_some_iff.mp hG).1
  rw [BlockIterator.valid, decide_eq_true_iff, herror, hr, hl, he, h.count]
  exact ⟨rfl, by omega, by omega⟩

lemma Reads.current_at (h : Reads it groups) (hat : At it groups i) :
    it.current = groups.flatten[i]? := by
  rw [BlockIterator.current, h.valid_at hat]
  obtain ⟨-, g, G, j, hG, hj, rfl, -, hl, he⟩ := hat
  rw [if_pos rfl, hl, he, Int.toNat_natCast, getElem?_flatten hG hj]

lemma current_eq_none (h : it.valid = false) : it.current = none := by
  rw [BlockIterator.current, h]
  rfl

def BlockIterator.moveTo (it : BlockIterator) (g j : ℕ) (G : Entries) : BlockIterator :=
  { it with currRestart := g, currLocal := j, entries := G }

lemma Reads.moveTo (h : Reads it groups) (g j : ℕ) (G : Entries) : Reads (it.moveTo g j G) groups :=
  ⟨h.count, h.nonempty, h.group, h.first, h.small⟩

lemma at_moveTo (herror : it.error = none) (hG : groups[g]? = some G) (hj : j < G.length) :
    At (it.moveTo g j G) groups (offset groups g + j) :=
  ⟨herror, g, G, j, hG, hj, rfl, rfl, rfl, rfl⟩

lemma Reads.seekToFirst (h : Reads it groups) (herror : it.error = none) (hne : groups ≠ []) :
    ∃ it', it.seekToFirst = some it' ∧ Reads it' groups ∧ At it' groups 0 := by
  obtain ⟨G, rest, rfl⟩ := exists_cons_of_ne_nil hne
  have hpos := length_pos_iff.mpr (h.nonempty G (by simp))
  refine ⟨it.moveTo 0 0 G, ?_, h.moveTo 0 0 G, at_moveTo herror rfl hpos⟩
  rw [BlockIterator.seekToFirst, h.prepareRead herror rfl]
  rfl

lemma Reads.seekToLast (h : Reads it groups) (herror : it.error = none) (hne : groups ≠ []) :
    ∃ it', it.seekToLast = some it' ∧ Reads it' groups ∧
      At it' groups (groups.flatten.length - 1) := by
  have hcount := length_pos_iff.mpr hne
  obtain ⟨G, hG⟩ : ∃ G, groups[groups.length - 1]? = some G := ⟨_, getElem?_eq_getElem (by omega)⟩
  obtain ⟨hpos, -⟩ := h.group_length hG
  have hoffset := offset_succ hG
  rw [Nat.sub_add_cancel hcount, offset_length] at hoffset
  have hindex : groups.flatten.length - 1 = offset groups (groups.length - 1) + (G.length - 1) := by
    omega
  rw [hindex]
  refine ⟨it.moveTo (groups.length - 1) (G.length - 1) G, ?_, h.moveTo _ _ G,
    at_moveTo herror hG (by omega)⟩
  have hlocal : ((G.length - 1 : ℕ) : ℤ) = (G.length : ℤ) - 1 := by omega
  have hrestart : ((groups.length - 1 : ℕ) : ℤ) = (groups.length : ℤ) - 1 := by omega
  rw [BlockIterator.seekToLast, h.count, h.prepareRead herror hG, map_some, BlockIterator.moveTo,
    hlocal, hrestart, ← h.count]

lemma At.eq_moveTo (h : At it groups i) :
    it.error = none ∧ ∃ g G j, groups[g]? = some G ∧ j < G.length ∧
    i = offset groups g + j ∧ it = it.moveTo g j G := by
  obtain ⟨herror, g, G, j, hG, hj, hi, hr, hl, he⟩ := h
  exact ⟨herror, g, G, j, hG, hj, hi, by rw [BlockIterator.moveTo, ← hr, ← hl, ← he]⟩

lemma next_over (it : BlockIterator) (hlast : sizePred it.entries.length ≤ toSize it.currLocal)
    (hmore : toSize it.currRestart < sizePred it.restarts.length) :
    it.next = ({ it with
      currRestart := it.currRestart + 1 }.prepareRead (toSize (it.currRestart + 1))).map
      fun it : BlockIterator => { it with currLocal := 0 } := by
  unfold BlockIterator.next
  dsimp only
  rw [if_pos hlast, if_pos hmore]

lemma next_end (it : BlockIterator) (hlast : sizePred it.entries.length ≤ toSize it.currLocal)
    (hmore : ¬ toSize it.currRestart < sizePred it.restarts.length) :
    it.next = some { it with currRestart := it.currRestart + 1, currLocal := 0 } := by
  unfold BlockIterator.next
  dsimp only
  rw [if_pos hlast, if_neg hmore]
  rfl

lemma Reads.next_within (h : Reads it groups) (hG : groups[g]? = some G) (hj : j + 1 < G.length) :
    (it.moveTo g j G).next = some (it.moveTo g (j + 1) G) := by
  obtain ⟨hpos, hlength, -⟩ := h.group_length hG
  have hlast : ¬ sizePred G.length ≤ toSize j := by
    rw [sizePred_eq hpos (by omega), toSize_natCast (by omega)]
    omega
  rw [BlockIterator.next, BlockIterator.moveTo, if_neg hlast]
  rfl

lemma Reads.next_group (h : Reads it groups) (hG : groups[g]? = some G) (hj : j + 1 = G.length)
    (herror : it.error = none) :
    (∀ G', groups[g + 1]? = some G' → (it.moveTo g j G).next = some (it.moveTo (g + 1) 0 G')) ∧
      (groups[g + 1]? = none → (it.moveTo g j G).next = some (it.moveTo (g + 1) 0 G)) := by
  obtain ⟨hpos, hlength, hg⟩ := h.group_length hG
  have hcount := (List.getElem?_eq_some_iff.mp hG).1
  have hsmall := h.length_le.trans_lt h.small
  have hlast : sizePred G.length ≤ toSize j := by
    rw [sizePred_eq hpos (by omega), toSize_natCast (by omega)]
    omega
  have hrestarts : it.restarts.length = groups.length := h.count
  have hmore : toSize g < sizePred it.restarts.length ↔ g + 1 < groups.length := by
    rw [hrestarts, sizePred_eq (by omega) (by omega), toSize_natCast (by omega)]
    omega
  have hsucc : toSize ((g : ℤ) + 1) = g + 1 := toSize_natCast (n := g + 1) (by omega)
  constructor
  · intro G' hG'
    have hread := (h.moved (g + 1) j G it.error).prepareRead herror hG'
    have hnext := next_over (it.moveTo g j G) hlast (hmore.mpr (List.getElem?_eq_some_iff.mp hG').1)
    have hsize : toSize ((it.moveTo g j G).currRestart + 1) = g + 1 := hsucc
    rw [hsize] at hnext
    exact hnext.trans (congrArg _ hread)
  · intro hnone
    refine next_end (it.moveTo g j G) hlast fun hlt => ?_
    have := List.getElem?_eq_none_iff.mp hnone
    have := hmore.mp hlt
    omega

lemma Reads.next_at (h : Reads it groups) (hat : At it groups i) :
    ∃ it', it.next = some it' ∧ Reads it' groups ∧
      (i + 1 < groups.flatten.length → At it' groups (i + 1)) ∧
      (i + 1 = groups.flatten.length → it'.current = none) := by
  obtain ⟨herror, g, G, j, hG, hj, rfl, hit⟩ := hat.eq_moveTo
  rw [congrArg BlockIterator.next hit]
  have hoffset := offset_succ hG
  by_cases hlast : j + 1 < G.length
  · refine ⟨_, h.next_within hG hlast, h.moveTo _ _ _, fun _ => at_moveTo herror hG hlast,
      fun hend => ?_⟩
    have := place_lt hG hlast
    omega
  · obtain ⟨hmore, hend⟩ := h.next_group hG (show j + 1 = G.length by omega) herror
    cases hG' : groups[g + 1]? with
    | some G' =>
      obtain ⟨hpos, -⟩ := h.group_length hG'
      have hindex : offset groups g + j + 1 = offset groups (g + 1) + 0 := by omega
      rw [hindex]
      refine ⟨_, hmore G' hG', h.moveTo _ _ _, fun _ => at_moveTo herror hG' hpos,
        fun hlength => ?_⟩
      have := place_lt hG' hpos
      omega
    | none =>
      have hcount : groups.length = g + 1 := by
        have := List.getElem?_eq_none_iff.mp hG'
        have := (List.getElem?_eq_some_iff.mp hG).1
        omega
      have hlength : offset groups (g + 1) = groups.flatten.length := hcount ▸ offset_length groups
      refine ⟨_, hend hG', h.moveTo _ _ _, fun hlt => by omega, fun _ => current_eq_none ?_⟩
      rw [BlockIterator.valid, decide_eq_false_iff_not]
      rintro ⟨-, ⟨-, hlt⟩, -⟩
      have hrestarts : it.restarts.length = groups.length := h.count
      simp only [BlockIterator.moveTo] at hlt
      omega

lemma prev_over (it : BlockIterator) (hlocal : it.currLocal = 0) (hmore : 0 < it.currRestart) :
    it.prev = ({ it with
      currRestart := it.currRestart - 1 }.prepareRead (toSize (it.currRestart - 1))).map
      fun it : BlockIterator => { it with currLocal := (it.entries.length : ℤ) - 1 } := by
  unfold BlockIterator.prev
  dsimp only
  rw [if_pos hlocal, if_pos hmore]

lemma Reads.prev_group {G' : Entries} (h : Reads it groups) (herror : it.error = none)
    (hG' : groups[g]? = some G') :
    (it.moveTo (g + 1) 0 G).prev = some (it.moveTo g (G'.length - 1) G') := by
  obtain ⟨hpos, hlength, hg⟩ := h.group_length hG'
  have hread := (h.moved g 0 G it.error).prepareRead herror hG'
  have hrestart : (it.moveTo (g + 1) 0 G).currRestart - 1 = g := by
    simp only [BlockIterator.moveTo]
    omega
  have hprev := prev_over (it.moveTo (g + 1) 0 G) rfl (by simp only [BlockIterator.moveTo]; omega)
  rw [hrestart, toSize_natCast (by omega)] at hprev
  refine hprev.trans ((congrArg _ hread).trans ?_)
  have hlocal : ((G'.length - 1 : ℕ) : ℤ) = (G'.length : ℤ) - 1 := by omega
  rw [BlockIterator.moveTo, hlocal]
  rfl

lemma prev_first (it : BlockIterator) (G : Entries) :
    (it.moveTo 0 0 G).prev =
      some { it with currRestart := -1, currLocal := (G.length : ℤ) - 1, entries := G } ∧
      BlockIterator.current { it with
        currRestart := -1, currLocal := (G.length : ℤ) - 1, entries := G } = none := by
  refine ⟨rfl, current_eq_none ?_⟩
  rw [BlockIterator.valid, decide_eq_false_iff_not]
  rintro ⟨-, ⟨hneg, -⟩, -⟩
  exact absurd hneg (by simp)

lemma Reads.prev_at (h : Reads it groups) (hat : At it groups i) :
    ∃ it', it.prev = some it' ∧ Reads it' groups ∧ (0 < i → At it' groups (i - 1)) ∧
      (i = 0 → it'.current = none) := by
  obtain ⟨herror, g, G, j, hG, hj, rfl, hit⟩ := hat.eq_moveTo
  rw [congrArg BlockIterator.prev hit]
  cases j with
  | succ j =>
    refine ⟨it.moveTo g j G, ?_, h.moveTo _ _ _, fun _ => at_moveTo herror hG (by omega),
      fun hzero => by omega⟩
    have hlocal : (it.moveTo g (j + 1) G).currLocal ≠ 0 := by
      simp only [BlockIterator.moveTo]
      omega
    rw [BlockIterator.prev, if_neg hlocal]
    simp [BlockIterator.moveTo]
  | zero =>
    cases g with
    | succ g =>
      obtain ⟨G', hG'⟩ : ∃ G', groups[g]? = some G' :=
        ⟨_, getElem?_eq_getElem (by have := (List.getElem?_eq_some_iff.mp hG).1; omega)⟩
      obtain ⟨hpos, -⟩ := h.group_length hG'
      have hoffset := offset_succ hG'
      have hindex : offset groups (g + 1) + 0 - 1 = offset groups g + (G'.length - 1) := by omega
      refine ⟨_, h.prev_group herror hG', h.moveTo _ _ _, fun _ => ?_, fun hzero => by omega⟩
      rw [hindex]
      exact at_moveTo herror hG' (by omega)
    | zero =>
      have hzero : offset groups 0 = 0 := by simp [offset]
      obtain ⟨hprev, hcurrent⟩ := prev_first it G
      exact ⟨_, hprev, h.moved _ _ _ _, fun hpos => by omega, fun _ => hcurrent⟩

end Moves

section Seek
variable {compare : Bytes → Bytes → Ordering} {groups : List Entries} {it : BlockIterator}
  {G : Entries} {g i j : ℕ} {target : Bytes} {l : Entries}
  {e : Bytes × Bytes} {nRestart : ℕ}

def seekIndex (compare : Bytes → Bytes → Ordering) (l : Entries) (target : Bytes) : ℕ :=
  l.findIdx fun e => compare e.1 target ≠ .lt

lemma seekIndex_append {l before after : Entries} (hl : l = before ++ e :: after)
    (hbefore : ∀ a ∈ before, compare a.1 target = .lt) (he : compare e.1 target ≠ .lt) :
    seekIndex compare l target = before.length := by
  subst hl
  rw [seekIndex]
  induction before with
  | nil => simp [findIdx_cons, he]
  | cons a before ih =>
    rw [cons_append, findIdx_cons, ih fun b hb => hbefore b (by simp [hb])]
    simp [hbefore a (by simp)]

lemma seekIndex_all (h : ∀ a ∈ l, compare a.1 target = .lt) :
    seekIndex compare l target = l.length := by
  rw [seekIndex, findIdx_eq_length]
  intro a ha
  simp [h a ha]

inductive Sought (compare : Bytes → Bytes → Ordering) (it : BlockIterator) (groups : List Entries)
    (target : Bytes) : BlockIterator → Prop
  | found {g j : ℕ} {G : Entries} {e : Bytes × Bytes} (hG : groups[g]? = some G)
      (hj : G[j]? = some e)
      (hindex : seekIndex compare groups.flatten target = offset groups g + j)
      (hrestart : j ≠ 0 ∨ g = 0 ∨ compare target e.1 = .eq) :
        Sought compare it groups target (it.moveTo g j G)
  | behind {g : ℕ} {G : Entries} {e : Bytes × Bytes} (hG : groups[g + 1]? = some G)
      (he : G[0]? = some e)
      (hindex : seekIndex compare groups.flatten target = offset groups (g + 1))
      (hlt : compare target e.1 = .lt) : Sought compare it groups target (it.moveTo g 0 G)
  | none {it' : BlockIterator}
      (hindex : seekIndex compare groups.flatten target = groups.flatten.length)
      (herror : it'.error ≠ none) : Sought compare it groups target it'

lemma flatten_split (h : groups[g]? = some G) :
    groups.flatten = (groups.take g).flatten ++ G ++ (groups.drop (g + 1)).flatten ∧
      (groups.take (g + 1)).flatten = (groups.take g).flatten ++ G := by
  obtain ⟨hg, rfl⟩ := List.getElem?_eq_some_iff.mp h
  have htake : (groups.take (g + 1)).flatten = (groups.take g).flatten ++ groups[g] := by
    rw [take_add_one, h, flatten_append]
    simp
  exact ⟨by rw [← htake, ← flatten_append, take_append_drop], htake⟩

lemma before_of_restart [Std.TransCmp compare] {a : Bytes × Bytes} {rest : Entries}
    (hsorted : groups.flatten.Pairwise fun a b => compare a.1 b.1 = .lt)
    (hG : groups[g]? = some (e :: rest)) (hle : compare target e.1 ≠ .lt)
    (ha : a ∈ (groups.take g).flatten) : compare a.1 target = .lt := by
  rw [(flatten_split hG).1, append_assoc] at hsorted
  have hlt : compare a.1 e.1 = .lt := (pairwise_append.mp hsorted).2.2 a ha e (by simp)
  have hisLE : (compare e.1 target).isLE := by
    rw [@Std.OrientedCmp.eq_swap _ compare _]
    cases hcase : compare target e.1 with
    | lt => exact absurd hcase hle
    | eq => rfl
    | gt => rfl
  exact Std.TransCmp.lt_of_lt_of_isLE hlt hisLE

lemma exists_head (h : Reads it groups) (hg : g < groups.length) :
    ∃ e rest, groups[g]? = some (e :: rest) := by
  obtain ⟨e, rest, heq⟩ := exists_cons_of_ne_nil (h.nonempty _ (getElem_mem hg))
  exact ⟨e, rest, by rw [getElem?_eq_getElem hg, heq]⟩

lemma Reads.bisect_eq [Std.TransCmp compare] (h : Reads it groups)
    (hsorted : groups.flatten.Pairwise fun a b => compare a.1 b.1 = .lt) (target : Bytes) :
    ∃ k, bisect (fun i => compare target (it.restartKey i) ≠ .lt) it.restarts.length 0
      it.restarts.length = some k ∧
      k ≤ groups.length ∧
      (∀ g e rest, g < k → groups[g]? = some (e :: rest) → compare target e.1 ≠ .lt) ∧
      ∀ g e rest, k ≤ g → groups[g]? = some (e :: rest) → compare target e.1 = .lt := by
  have hmono : ∀ i j, i ≤ j → j < 0 + it.restarts.length →
      decide (compare target (it.restartKey j) ≠ .lt) = true →
      decide (compare target (it.restartKey i) ≠ .lt) = true := by
    intro i j hij hj hp
    rw [h.count, zero_add] at hj
    obtain ⟨e, rest, he⟩ := exists_head h hj
    obtain ⟨e', rest', he'⟩ := exists_head h (show i < groups.length by omega)
    rw [h.first j e rest he, decide_eq_true_iff] at hp
    rw [h.first i e' rest' he', decide_eq_true_iff]
    rcases hij.lt_or_eq with hlt | rfl
    · have hmem : e' ∈ (groups.take j).flatten := by
        refine mem_flatten.mpr ⟨e' :: rest', ?_, by simp⟩
        exact mem_of_getElem? (getElem?_take_of_lt hlt ▸ he')
      rw [(flatten_split he).1, append_assoc] at hsorted
      have hkeys : compare e'.1 e.1 = .lt := (pairwise_append.mp hsorted).2.2 e' hmem e (by simp)
      exact fun hlt => hp (Std.TransCmp.lt_trans hlt hkeys)
    · rw [he] at he'
      cases he'
      exact hp
  obtain ⟨k, hk, -, hle, htrue, hfalse⟩ :=
    bisect_spec it.restarts.length 0 it.restarts.length le_rfl hmono
  rw [zero_add, h.count] at hle
  refine ⟨k, hk, hle, fun g e rest hg he => ?_, fun g e rest hg he => ?_⟩
  · have := htrue g (Nat.zero_le g) hg
    rwa [h.first g e rest he, decide_eq_true_iff] at this
  · have hlt := (List.getElem?_eq_some_iff.mp he).1
    have := hfalse g hg (by rw [h.count]; omega)
    rw [h.first g e rest he, decide_eq_false_iff_not] at this
    exact not_not.mp this

lemma seek_first [Std.TransCmp compare] {first k : ℕ} {rest : Entries}
    (hsorted : groups.flatten.Pairwise fun a b => compare a.1 b.1 = .lt) (hfirst : first = k - 1)
    (htrue : ∀ g e rest, g < k → groups[g]? = some (e :: rest) → compare target e.1 ≠ .lt)
    (hG : groups[first]? = some (e :: rest)) :
    ∀ a ∈ (groups.take first).flatten, compare a.1 target = .lt := by
  intro a ha
  cases k with
  | zero =>
    subst hfirst
    simp at ha
  | succ k => exact before_of_restart hsorted hG (htrue first e rest (by omega) hG) ha

lemma Reads.seekGroups_cons (h : Reads it groups) (herror : it.error = none)
    (hG : groups[i]? = some G) (first : ℕ) (is : List ℕ) :
    it.seekGroups compare target first (i :: is) =
      if (G.takeWhile fun e => compare e.1 target = .lt).length < G.length then
        some (it.moveTo first (G.takeWhile fun e => compare e.1 target = .lt).length G)
      else ({ it with entries := G } : BlockIterator).seekGroups compare target first is := by
  have hlt := (List.getElem?_eq_some_iff.mp hG).1
  rw [BlockIterator.seekGroups, if_neg (by rw [h.count]; omega), h.prepareRead herror hG]
  rfl

lemma Reads.seekGroups_end (h : Reads it groups) (hi : groups.length ≤ i) (first : ℕ)
    (is : List ℕ) :
    it.seekGroups compare target first (i :: is) =
      some { it with error := some (.notFound "Seek()") } := by
  rw [BlockIterator.seekGroups, if_pos (by rw [h.count]; omega)]

lemma group_cases (compare : Bytes → Bytes → Ordering) (target : Bytes) (G : Entries) :
    (∃ e after, G = (G.takeWhile fun e => compare e.1 target = .lt) ++ e :: after ∧
      compare e.1 target ≠ .lt ∧
      (G.takeWhile fun e => compare e.1 target = .lt).length < G.length) ∨
    (∀ a ∈ G, compare a.1 target = .lt) ∧ ¬ (G.takeWhile fun e => compare e.1 target = .lt).length <
      G.length := by
  have hsplit := takeWhile_append_dropWhile
    (p := fun e : Bytes × Bytes => decide (compare e.1 target = .lt)) (l := G)
  cases hdrop : G.dropWhile fun e => compare e.1 target = .lt with
  | nil =>
    rw [hdrop, append_nil] at hsplit
    refine .inr ⟨fun a ha => ?_, by rw [hsplit]; exact lt_irrefl _⟩
    rw [← hsplit] at ha
    simpa using mem_takeWhile_imp ha
  | cons e after =>
    rw [hdrop] at hsplit
    have hlength := congrArg List.length hsplit
    rw [length_append, length_cons] at hlength
    refine .inl ⟨e, after, hsplit.symm, ?_, by omega⟩
    have hne : (G.dropWhile fun e => compare e.1 target = .lt) ≠ [] := by
      rw [hdrop]
      simp
    have := head_dropWhile_not (fun e : Bytes × Bytes => decide (compare e.1 target = .lt)) hne
    simpa [hdrop] using this

lemma sought_first [Std.TransCmp compare] {first k : ℕ} {e' : Bytes × Bytes} {rest after : Entries}
    (hfirst : first = k - 1)
    (htrue : ∀ g e rest, g < k → groups[g]? = some (e :: rest) → compare target e.1 ≠ .lt)
    (hG : groups[first]? = some G) (hcons : G = e' :: rest)
    (hbefore : ∀ a ∈ (groups.take first).flatten, compare a.1 target = .lt)
    (hsplit : G = (G.takeWhile fun e => compare e.1 target = .lt) ++ e :: after)
    (he : compare e.1 target ≠ .lt) :
    Sought compare it groups target
      (it.moveTo first (G.takeWhile fun e => compare e.1 target = .lt).length G) := by
  generalize hfront : (G.takeWhile fun e => decide (compare e.1 target = .lt)) = front at hsplit ⊢
  have hlt : ∀ a ∈ front, compare a.1 target = .lt := by
    intro a ha
    rw [← hfront] at ha
    simpa using mem_takeWhile_imp ha
  have hindex : seekIndex compare groups.flatten target = offset groups first + front.length := by
    have hl : groups.flatten = ((groups.take first).flatten ++ front) ++ e ::
        (after ++ (groups.drop (first + 1)).flatten) := by
      rw [(flatten_split hG).1, hsplit]
      simp
    rw [seekIndex_append hl (fun a ha => ?_) he, length_append, offset]
    rcases mem_append.mp ha with ha | ha
    · exact hbefore a ha
    · exact hlt a ha
  refine .found hG (e := e) (by rw [hsplit]; simp) hindex ?_
  by_cases hzero : front.length = 0
  · have hnil := eq_nil_of_length_eq_zero hzero
    rw [hnil, nil_append, hcons] at hsplit
    obtain ⟨rfl, rfl⟩ := List.cons.inj hsplit
    rcases Nat.eq_zero_or_pos first with hz | hpos
    · exact .inr (.inl hz)
    · refine .inr (.inr ?_)
      have hge := htrue first e' rest (by omega) (hcons ▸ hG)
      rw [@Std.OrientedCmp.eq_swap _ compare _] at he
      cases hcase : compare target e'.1 with
      | lt => exact absurd hcase hge
      | eq => rfl
      | gt => rw [hcase] at he; exact absurd rfl he
  · exact .inl hzero

theorem Reads.seek_eq [Std.TransCmp compare] (h : Reads it groups) (herror : it.error = none)
    (hne : groups ≠ []) (hsorted : groups.flatten.Pairwise fun a b => compare a.1 b.1 = .lt)
    (target : Bytes) :
    ∃ it', it.seek compare target = some it' ∧ Reads it' groups ∧
      Sought compare it groups target it' := by
  obtain ⟨k, hbisect, hk, htrue, hfalse⟩ := h.bisect_eq hsorted target
  have hcount := length_pos_iff.mpr hne
  have hseek : it.seek compare target =
      it.seekGroups compare target (k - 1) [k - 1, k - 1 + 1] := by
    rw [BlockIterator.seek, hbisect]
    have hzero : (if k ≠ 0 then k - 1 else k) = k - 1 := by split_ifs <;> omega
    simp only [hzero]
    rw [if_neg (by rw [h.count]; omega)]
  obtain ⟨e', rest, hG⟩ := exists_head h (show k - 1 < groups.length by omega)
  have hbefore := seek_first hsorted rfl htrue hG
  rw [hseek, h.seekGroups_cons herror hG]
  rcases group_cases compare target (e' :: rest) with ⟨e, after, hsplit, he, hlt⟩ | ⟨hall, hend⟩
  · rw [if_pos hlt]
    exact ⟨_, rfl, h.moveTo _ _ _, sought_first rfl htrue hG rfl hbefore hsplit he⟩
  · rw [if_neg hend]
    have hpos : 0 < k := by
      by_contra hzero
      obtain rfl : k = 0 := by omega
      have hlt := hfalse 0 e' rest le_rfl hG
      have hgt := hall e' (by simp)
      rw [@Std.OrientedCmp.eq_swap _ compare _, hlt] at hgt
      cases hgt
    have hread : Reads { it with entries := e' :: rest } groups := h.moved _ _ _ _
    have hupTo : ∀ a ∈ (groups.take (k - 1 + 1)).flatten, compare a.1 target = .lt := by
      intro a ha
      rw [(flatten_split hG).2] at ha
      rcases mem_append.mp ha with ha | ha
      · exact hbefore a ha
      · exact hall a ha
    by_cases hmore : k - 1 + 1 < groups.length
    · obtain ⟨e, rest', hG'⟩ := exists_head h hmore
      have hlt := hfalse (k - 1 + 1) e rest' (by omega) hG'
      have he : compare e.1 target ≠ .lt := by
        rw [@Std.OrientedCmp.eq_swap _ compare _, hlt]
        decide
      have hnone : ((e :: rest').takeWhile fun e => compare e.1 target = .lt) = [] := by simp [he]
      rw [hread.seekGroups_cons herror hG', hnone, if_pos (by simp)]
      have hl : groups.flatten =
          (groups.take (k - 1 + 1)).flatten ++ e ::
          (rest' ++ (groups.drop (k - 1 + 1 + 1)).flatten) := by
        rw [(flatten_split hG').1]
        simp
      exact ⟨_, rfl, h.moveTo _ _ _, .behind hG' rfl (seekIndex_append hl hupTo he) hlt⟩
    · rw [hread.seekGroups_end (by omega)]
      refine ⟨_, rfl, h.moved _ _ _ _, .none (seekIndex_all fun a ha => hupTo a ?_) (by simp)⟩
      rwa [take_of_length_le (by omega)]

lemma current_of_error (herror : it.error ≠ none) : it.current = none := by
  refine current_eq_none ?_
  rw [BlockIterator.valid, decide_eq_false_iff_not]
  exact fun h => herror h.1

lemma Sought.current {it' : BlockIterator} (hsought : Sought compare it groups target it')
    (h : Reads it groups) (herror : it.error = Option.none) :
    it'.current = groups.flatten[seekIndex compare groups.flatten target]? := by
  cases hsought with
  | found hG hj hindex hrestart =>
    rw [hindex]
    exact (h.moveTo _ _ _).current_at (at_moveTo herror hG (List.getElem?_eq_some_iff.mp hj).1)
  | @behind g G e hG he hindex hlt =>
    have hpos := (List.getElem?_eq_some_iff.mp he).1
    have hg := (List.getElem?_eq_some_iff.mp hG).1
    have hcount := h.count
    have hvalid : (it.moveTo g 0 G).valid = true := by
      rw [BlockIterator.valid, decide_eq_true_iff]
      simp only [BlockIterator.moveTo]
      exact ⟨herror, by omega, by omega⟩
    have hplace := getElem?_flatten hG hpos
    rw [add_zero] at hplace
    rw [hindex, hplace, BlockIterator.current, hvalid, if_pos rfl]
    rfl
  | none hindex herror' =>
    rw [hindex, getElem?_eq_none le_rfl]
    exact current_of_error herror'

lemma groupsOf_ne_nil (hl : l ≠ []) : groupsOf nRestart l ≠ [] := fun hnil =>
  hl (by rw [← flatten_groupsOf nRestart l, hnil, flatten_nil])

lemma Reads.seek_current [Std.TransCmp compare]
    (h : Reads it (groupsOf nRestart l)) (herror : it.error = none) (hl : l ≠ [])
    (hsorted : l.Pairwise fun a b => compare a.1 b.1 = .lt) (target : Bytes) :
    ∃ it', it.seek compare target = some it' ∧ it'.current = l[seekIndex compare l target]? := by
  rw [← flatten_groupsOf nRestart l] at hsorted
  obtain ⟨it', hit', -, hsought⟩ := h.seek_eq herror (groupsOf_ne_nil hl) hsorted target
  have hcurrent := hsought.current h herror
  rw [flatten_groupsOf] at hcurrent
  exact ⟨it', hit', hcurrent⟩

/-- From the `i`-th entry on, `Next` lists the rest, and `Prev` steps back from each of them. -/
structure Iterates (it : BlockIterator) (l : Entries) (i : ℕ) : Prop where
  next : ∀ j ≤ l.length - i, ∃ it', it.nextTimes j = some it' ∧ it'.current = l[i + j]?
  prev : ∀ j, i + j < l.length → ∃ it' it'', it.nextTimes j = some it' ∧ it'.prev = some it'' ∧
    it''.current = if i + j = 0 then none else l[i + j - 1]?

/-- What `Seek` and `SeekToFirst` of one iterator show is what they show of the other. -/
structure SeeksAlike (compare : Bytes → Bytes → Ordering) (it it' : BlockIterator) : Prop where
  seek : ∀ target, (it'.seek compare target).map BlockIterator.current =
    (it.seek compare target).map BlockIterator.current
  seekToFirst : it'.seekToFirst.map BlockIterator.current = it.seekToFirst.map BlockIterator.current

/-- `Seek` on a new iterator: the entry it is to find and the steps from it, or that the iterator
can be used again. -/
def SeekWorks (compare : Bytes → Bytes → Ordering) (nRestart : ℕ) (l : Entries) (target : Bytes) :
    Prop :=
  ∀ x y, ∃ it it', BlockIterator.new (block nRestart l) x y = some it ∧ it.seek compare target =
    some it' ∧
    if seekIndex compare l target < l.length then Iterates it' l (seekIndex compare l target)
    else it'.current = none ∧ SeeksAlike compare it it'

lemma Reads.nextTimes_at (h : Reads it groups) (hat : At it groups i)
    (hij : i + j < groups.flatten.length) :
    ∃ it', it.nextTimes j = some it' ∧ Reads it' groups ∧ At it' groups (i + j) := by
  induction j generalizing it i with
  | zero => exact ⟨it, rfl, h, hat⟩
  | succ j ih =>
    obtain ⟨it₁, hnext, hreads, hmore, -⟩ := h.next_at hat
    obtain ⟨it₂, htimes, hreads₂, hat₂⟩ := ih hreads (hmore (by omega)) (by omega)
    refine ⟨it₂, ?_, hreads₂, ?_⟩
    · rw [BlockIterator.nextTimes, hnext, bind_some, htimes]
    · rwa [show i + (j + 1) = i + 1 + j by omega]

lemma nextTimes_succ (j : ℕ) (it : BlockIterator) :
    it.nextTimes (j + 1) = (it.nextTimes j).bind BlockIterator.next := by
  induction j generalizing it with
  | zero =>
    have hzero : BlockIterator.nextTimes 0 = some := rfl
    change it.next.bind (BlockIterator.nextTimes 0) = (some it).bind BlockIterator.next
    rw [hzero, bind_fun_some, bind_some]
  | succ j ih =>
    rw [BlockIterator.nextTimes, BlockIterator.nextTimes, bind_assoc]
    exact congrArg _ (funext ih)

lemma Reads.iterates (h : Reads it groups) (hat : At it groups i) (hi : i < groups.flatten.length) :
    Iterates it groups.flatten i where
  next j hj := by
    cases j with
    | zero => exact ⟨it, rfl, h.current_at hat⟩
    | succ j =>
      obtain ⟨it₁, htimes, hreads, hat₁⟩ :=
        h.nextTimes_at hat (show i + j < groups.flatten.length by omega)
      obtain ⟨it₂, hnext, hreads₂, hmore, hend⟩ := hreads.next_at hat₁
      refine ⟨it₂, by rw [nextTimes_succ, htimes, bind_some, hnext], ?_⟩
      by_cases hlast : i + j + 1 < groups.flatten.length
      · exact hreads₂.current_at (hmore hlast)
      · rw [hend (by omega), getElem?_eq_none (by omega)]
  prev j hj := by
    obtain ⟨it₁, htimes, hreads, hat₁⟩ := h.nextTimes_at hat hj
    obtain ⟨it₂, hprev, hreads₂, hmore, hfirst⟩ := hreads.prev_at hat₁
    refine ⟨it₁, it₂, htimes, hprev, ?_⟩
    split_ifs with hzero
    · exact hfirst hzero
    · exact hreads₂.current_at (hmore (by omega))

lemma index_unique [Std.TransCmp compare] (hsorted : l.Pairwise fun a b => compare a.1 b.1 = .lt)
    {m n : ℕ} (hm : l[m]? = some e) (hn : l[n]? = some e) : m = n := by
  have hirrefl (e : Bytes × Bytes) : compare e.1 e.1 ≠ .lt := by
    rw [@Std.ReflCmp.compare_self _ compare _]
    decide
  obtain ⟨hmlt, hme⟩ := List.getElem?_eq_some_iff.mp hm
  obtain ⟨hnlt, hne⟩ := List.getElem?_eq_some_iff.mp hn
  rcases lt_trichotomy m n with hlt | heq | hlt
  · have := pairwise_iff_getElem.mp hsorted m n hmlt hnlt hlt
    rw [hme, hne] at this
    exact absurd this (hirrefl e)
  · exact heq
  · have := pairwise_iff_getElem.mp hsorted n m hnlt hmlt hlt
    rw [hme, hne] at this
    exact absurd this (hirrefl e)

lemma Reads.behind_not_iterates [Std.TransCmp compare] (h : Reads it groups)
    (herror : it.error = none) (hsorted : groups.flatten.Pairwise fun a b => compare a.1 b.1 = .lt)
    (hG : groups[g + 1]? = some G) :
    ¬ Iterates (it.moveTo g 0 G) groups.flatten (offset groups (g + 1)) := by
  intro hiterates
  obtain ⟨hpos, -⟩ := h.group_length hG
  have hlt := place_lt hG hpos
  obtain ⟨G₀, hG₀⟩ : ∃ G₀, groups[g]? = some G₀ :=
    ⟨_, getElem?_eq_getElem (by have := (List.getElem?_eq_some_iff.mp hG).1; omega)⟩
  obtain ⟨hpos₀, -⟩ := h.group_length hG₀
  have hoffset := offset_succ hG₀
  obtain ⟨it', it'', htimes, hprev, hcurrent⟩ := hiterates.prev 0 (by omega)
  cases htimes
  rw [add_zero, if_neg (by omega)] at hcurrent
  obtain ⟨e, he⟩ : ∃ e, groups.flatten[offset groups (g + 1) - 1]? = some e :=
    ⟨_, getElem?_eq_getElem (by omega)⟩
  rw [he] at hcurrent
  cases g with
  | zero =>
    obtain ⟨hfirst, hnone⟩ := prev_first it G
    rw [hfirst] at hprev
    cases hprev
    rw [hnone] at hcurrent
    cases hcurrent
  | succ g =>
    obtain ⟨G₁, hG₁⟩ : ∃ G₁, groups[g]? = some G₁ :=
      ⟨_, getElem?_eq_getElem (by have := (List.getElem?_eq_some_iff.mp hG).1; omega)⟩
    obtain ⟨hpos₁, -⟩ := h.group_length hG₁
    have hoffset₁ := offset_succ hG₁
    rw [h.prev_group herror hG₁] at hprev
    cases hprev
    rw [(h.moveTo _ _ _).current_at (at_moveTo herror hG₁ (by omega))] at hcurrent
    have := index_unique hsorted he hcurrent
    omega

lemma seekToFirst_of_error (herror : it.error ≠ none) :
    it.seekToFirst.map BlockIterator.current = some none := by
  have hsome : it.error.isSome = true := isSome_iff_ne_none.mpr herror
  rw [BlockIterator.seekToFirst, BlockIterator.prepareRead, if_pos hsome, map_some, map_some]
  exact congrArg some (current_of_error herror)

lemma length_le_buf (nRestart : ℕ) (l : Entries) :
    l.length ≤ (DataBlockBuilder.addAll nRestart l).buf.length := by
  have hlength := length_flatten_le (groupsOf nRestart l)
  rwa [flatten_groupsOf, ← (built_addAll nRestart l).buf] at hlength

lemma block_ne_nil (nRestart : ℕ) (hl : l ≠ []) : block nRestart l ≠ [] := by
  have hbuf : (DataBlockBuilder.addAll nRestart l).buf ≠ [] :=
    ne_nil_of_length_pos ((length_pos_iff.mpr hl).trans_le (length_le_buf nRestart l))
  rw [block, DataBlockBuilder.finish, if_neg hbuf]
  simp [hbuf]

lemma new_block (hr : 0 < nRestart) (hl : l ≠ [])
    (hsize : (block nRestart l).length < 256 ^ 4) (x y : ℤ) :
    ∃ it, BlockIterator.new (block nRestart l) x y = some it ∧ it.error = none ∧
      Reads it (groupsOf nRestart l) := by
  have hbuilt := built_addAll nRestart l
  have hbuf : (DataBlockBuilder.addAll nRestart l).buf ≠ [] :=
    ne_nil_of_length_pos ((length_pos_iff.mpr hl).trans_le (length_le_buf nRestart l))
  have hle : (DataBlockBuilder.addAll nRestart l).buf.length ≤ (block nRestart l).length := by
    rw [block, DataBlockBuilder.finish, if_neg hbuf, append_assoc, length_append]
    exact Nat.le_add_right _ _
  have hrestarts : ∀ n ∈ (DataBlockBuilder.addAll nRestart l).restarts, n < 256 ^ 4 := by
    intro n hn
    rw [hbuilt.restarts] at hn
    obtain ⟨g, -, rfl⟩ := List.mem_map.mp hn
    exact Nat.mod_lt _ (by decide)
  refine ⟨_, new_finish x y hbuf hsize hrestarts, rfl, ?_⟩
  exact hbuilt.reads (grouped_groupsOf hr l).nonempty (by omega) rfl rfl

/-- `Seek` works exactly for targets whose entry is not first in its group, is the first of the
block or has the key of the target. -/
theorem seekWorks_iff (compare : Bytes → Bytes → Ordering) [Std.TransCmp compare] {nRestart : ℕ}
    (hr : 0 < nRestart) {l : Entries}
    (hsorted : l.Pairwise fun a b => compare a.1 b.1 = .lt)
    (hsize : (block nRestart l).length < 256 ^ 4) (target : Bytes) :
    SeekWorks compare nRestart l target ↔ ∃ e, l[seekIndex compare l target]? = some e ∧
      (seekIndex compare l target % nRestart ≠ 0 ∨ seekIndex compare l target = 0 ∨
        compare target e.1 = .eq) := by
  by_cases hl : l = []
  · subst hl
    refine iff_of_false (fun hworks => ?_) (by simp)
    obtain ⟨it, it', hnew, -⟩ := hworks 0 0
    cases hnew
  have hgrouped := grouped_groupsOf hr l
  have hflatten := flatten_groupsOf nRestart l
  have hne : groupsOf nRestart l ≠ [] := by
    intro hnil
    rw [hnil] at hflatten
    exact hl hflatten.symm
  generalize hgroups : groupsOf nRestart l = groups at hgrouped hflatten hne
  subst hflatten
  constructor
  · intro hworks
    obtain ⟨it₁, it', hnew₁, hseek₁, hresult⟩ := hworks 0 0
    obtain ⟨it, hnew, herror, hreads⟩ := new_block hr hl hsize 0 0
    obtain rfl : it₁ = it := Option.some.inj (hnew₁.symm.trans hnew)
    rw [hgroups] at hreads
    obtain ⟨it'', hseek, hreads', hsought⟩ := hreads.seek_eq herror hne hsorted target
    obtain rfl : it' = it'' := Option.some.inj (hseek₁.symm.trans hseek)
    cases hsought with
    | @found g j G e hG hj hindex hrestart =>
      have hlt := (List.getElem?_eq_some_iff.mp hj).1
      rw [hindex, hgrouped.mod_eq hG hlt, getElem?_flatten hG hlt]
      refine ⟨e, hj, ?_⟩
      by_cases hzero : j = 0
      · refine .inr (hrestart.elim (fun hne => absurd hzero hne) (Or.imp_left fun hg => ?_))
        rw [hzero, hg]
        simp [offset]
      · exact .inl hzero
    | @behind g G e hG he hindex hlt =>
      rw [if_pos (by rw [hindex]; exact place_lt hG (List.getElem?_eq_some_iff.mp he).1),
        hindex] at hresult
      exact absurd hresult (hreads.behind_not_iterates herror hsorted hG)
    | none hindex herror' =>
      rw [if_neg (by rw [hindex]; exact lt_irrefl _)] at hresult
      obtain ⟨it'', hfirst, hreads'', hat⟩ := hreads.seekToFirst herror hne
      have halike := hresult.2.seekToFirst
      rw [seekToFirst_of_error herror', hfirst, map_some, hreads''.current_at hat] at halike
      have hnone := List.getElem?_eq_none_iff.mp (Option.some.inj halike).symm
      exact absurd (eq_nil_of_length_eq_zero (Nat.le_zero.mp hnone)) hl
  · rintro ⟨e, he, hcondition⟩ x y
    obtain ⟨it, hnew, herror, hreads⟩ := new_block hr hl hsize x y
    rw [hgroups] at hreads
    obtain ⟨it', hseek, hreads', hsought⟩ := hreads.seek_eq herror hne hsorted target
    refine ⟨it, it', hnew, hseek, ?_⟩
    have hlt := (List.getElem?_eq_some_iff.mp he).1
    rw [if_pos hlt]
    cases hsought with
    | found hG hj hindex hrestart =>
      have hat := at_moveTo herror hG (List.getElem?_eq_some_iff.mp hj).1
      rw [hindex] at hlt ⊢
      exact hreads'.iterates hat hlt
    | behind hG he' hindex hlt' =>
      have hpos := (List.getElem?_eq_some_iff.mp he').1
      have hplace := getElem?_flatten hG hpos
      have hmod := hgrouped.mod_eq hG hpos
      rw [add_zero] at hplace hmod
      rw [hindex, hmod] at hcondition
      rw [hindex, hplace, he'] at he
      cases he
      have hlast := (List.getElem?_eq_some_iff.mp hG).1
      obtain ⟨G₀, hG₀⟩ : ∃ G₀, groups[_]? = some G₀ :=
        ⟨_, getElem?_eq_getElem (Nat.lt_of_succ_lt hlast)⟩
      obtain ⟨hpos₀, -⟩ := hreads.group_length hG₀
      have hoffset := offset_succ hG₀
      rcases hcondition with hfalse | hzero | heq
      · exact absurd rfl hfalse
      · omega
      · rw [hlt'] at heq
        cases heq
    | none hindex herror' => exact absurd hlt (by rw [hindex]; exact lt_irrefl _)

instance : Std.TransCmp compareKeys where
  eq_swap {_ _} := @Std.OrientedCmp.eq_swap _ InternalKey.compare _ _ _
  isLE_trans {_ _ _} := @Std.TransCmp.isLE_trans _ InternalKey.compare _ _ _ _

def threeEntries : Entries :=
  [(keyBytes (makeKey [1] 9 .value), [10]), (keyBytes (makeKey [3] 9 .value), [30]),
    (keyBytes (makeKey [5] 9 .value), [50])]

theorem seekWorks_within :
    SeekWorks compareKeys 2 threeEntries (keyBytes (makeKey [2] 9 .valueForSeek)) :=
  (seekWorks_iff compareKeys (by decide) (by decide +kernel) (by decide +kernel) _).mpr
    ⟨(keyBytes (makeKey [3] 9 .value), [30]), by decide +kernel, by decide +kernel⟩

def afterSeek (target : Bytes) (move : BlockIterator → Option BlockIterator) :
    Option (Option (Bytes × Bytes)) :=
  ((BlockIterator.new (block 2 threeEntries) 0 0).bind fun it =>
    (it.seek compareKeys target).bind move).map
    BlockIterator.current

/-- A seek between the groups finds the third entry, lists it twice and does not step back to the
second; after a seek behind the last entry the iterator shows nothing any more. -/
theorem seek_between_groups :
    afterSeek (keyBytes (makeKey [4] 9 .valueForSeek)) some = some threeEntries[2]? ∧
      afterSeek (keyBytes (makeKey [4] 9 .valueForSeek)) BlockIterator.next =
        some threeEntries[2]? ∧
      afterSeek (keyBytes (makeKey [4] 9 .valueForSeek)) BlockIterator.prev = some none ∧
      ¬ SeekWorks compareKeys 2 threeEntries (keyBytes (makeKey [4] 9 .valueForSeek)) ∧
      afterSeek (keyBytes (makeKey [6] 9 .valueForSeek)) BlockIterator.seekToFirst = some none ∧
      ¬ SeekWorks compareKeys 2 threeEntries (keyBytes (makeKey [6] 9 .valueForSeek)) := by
  have hprev : afterSeek (keyBytes (makeKey [4] 9 .valueForSeek)) BlockIterator.prev =
      some none := by decide +kernel
  have hfirst : afterSeek (keyBytes (makeKey [6] 9 .valueForSeek)) BlockIterator.seekToFirst =
      some none := by
    decide +kernel
  have hnew : ((BlockIterator.new (block 2 threeEntries) 0 0).bind BlockIterator.seekToFirst).map
      BlockIterator.current =
      some threeEntries[0]? := by decide +kernel
  refine ⟨by decide +kernel, by decide +kernel, hprev, fun hworks => ?_, hfirst, fun hworks => ?_⟩
  · obtain ⟨it, it', hit, hseek, hresult⟩ := hworks 0 0
    rw [if_pos (by decide +kernel)] at hresult
    obtain ⟨it₁, it₂, htimes, hstep, hcurrent⟩ := hresult.prev 0 (by decide +kernel)
    cases htimes
    rw [afterSeek, hit, bind_some, hseek, bind_some, hstep, map_some, hcurrent] at hprev
    exact absurd hprev (by decide +kernel)
  · obtain ⟨it, it', hit, hseek, hresult⟩ := hworks 0 0
    rw [if_neg (by decide +kernel)] at hresult
    rw [afterSeek, hit, bind_some, hseek, bind_some, hresult.2.seekToFirst] at hfirst
    rw [hit, bind_some, hfirst] at hnew
    exact absurd hnew (by decide +kernel)

end Seek

end Mai.TableDataBlock
