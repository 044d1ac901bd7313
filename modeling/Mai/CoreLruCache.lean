import Mai.CoreHashMap
import Mai.RunInvariant

/-! One shard of the cache (`core/lru-cache-v1.cc`). Handles are numbered in the order in which they
are made, and the two lists hold their numbers, the oldest first. -/
namespace Mai.CoreLruCache
open CoreHashMap SortedInsert RunInvariant List Option

variable {K V : Type*}

structure Ref (K : Type*) where
  key : K
  id : ℕ
  deriving DecidableEq, Repr

structure LRUHandle (K V : Type*) where
  key : K
  value : V
  refs : ℕ
  deletion : Bool
  hits : ℕ
  deriving DecidableEq, Repr

structure Options (K : Type*) where
  capacity : ℕ
  hash : K → ℕ
  /-- `LockGroup::GetByKey`. -/
  stripe : K → ℕ
  /-- `n_slots() * conflict_factor`, cut to an integer. -/
  scaled : ℕ → ℕ → ℕ
  /-- What the head of the LRU list has in `refs`, which only debug builds set (to zero). -/
  dummyRefs : ℤ
  /-- Whether the head of the LRU list has a `deleter`; likewise. -/
  dummyDeleter : Bool

def kMinLRUTableSlots : ℕ := 1237
def kPageSize : ℕ := 16 * 1024
def kMB : ℕ := 1024 * 1024

def memoryUsage (nSlots nEntries : ℕ) : ℕ :=
  kPageSize * (max 1 ((nEntries + 1022) / 1023) + (16 + 16 * nSlots + kPageSize - 1) / kPageSize)

structure LRUCacheShard (K V : Type*) where
  table : HashMap (Ref K)
  handles : List (LRUHandle K V)
  size : ℕ
  lru : List ℕ
  inUse : List ℕ
  locked : ℕ → Bool

def compareRefs [LinearOrder K] (a b : Ref K) : Ordering := compare a.key b.key

def hashRef (o : Options K) (r : Ref K) : ℕ := o.hash r.key

namespace LRUCacheShard

def new : LRUCacheShard K V := ⟨HashMap.empty kMinLRUTableSlots, [], 0, [], [], fun _ => false⟩

def refs (s : LRUCacheShard K V) (id : ℕ) : ℕ := (s.handles[id]?).elim 0 LRUHandle.refs

def live (s : LRUCacheShard K V) (id : ℕ) : Bool := (s.handles[id]?).any fun h => !h.deletion

def modify (s : LRUCacheShard K V) (id : ℕ) (f : LRUHandle K V → LRUHandle K V) :
    LRUCacheShard K V :=
  { s with handles := s.handles.modify id f }

def addRef (s : LRUCacheShard K V) (id : ℕ) : LRUCacheShard K V :=
  s.modify id fun h => { h with refs := h.refs + 1 }

def releaseRef (s : LRUCacheShard K V) (id : ℕ) : LRUCacheShard K V :=
  s.modify id fun h => { h with refs := h.refs - 1 }

def setDeletion (s : LRUCacheShard K V) (id : ℕ) : LRUCacheShard K V :=
  s.modify id fun h => { h with deletion := true }

def lruRemove (s : LRUCacheShard K V) (id : ℕ) : LRUCacheShard K V :=
  { s with lru := s.lru.erase id, inUse := s.inUse.erase id }

/-- What `Get` does with a handle that it has found; the eighteenth hit moves it to the end of a
list. -/
def hit (s : LRUCacheShard K V) (id hits : ℕ) : LRUCacheShard K V :=
  if 17 ≤ hits then
    let s := (s.modify id fun h => { h with hits := 1 }).lruRemove id
    if s.refs id = 1 then { s with lru := s.lru ++ [id] }
    else if 1 < s.refs id then { s with inUse := s.inUse ++ [id] }
    else s
  else s.modify id fun h => { h with hits := h.hits + 1 }

def find [LinearOrder K] (o : Options K) (s : LRUCacheShard K V) (key : K) :
    Option (Option (Ref K)) :=
  (s.table.findEqual (hashRef o) compareRefs ⟨key, 0⟩).map fun it =>
    if it.1 < s.table.nSlots ∧ it.2 ≠ 0 then s.table.keyAt it.2 else none

def get [LinearOrder K] (o : Options K) (s : LRUCacheShard K V) (key : K) :
    Option (LRUCacheShard K V × Option ℕ) :=
  (s.find o key).map fun found =>
    match found with
    | none => (s, none)
    | some r =>
      match s.handles[r.id]? with
      | none => (s, none)
      | some h => if h.deletion then (s, none) else (s.hit r.id h.hits, some r.id)

/-- `--size_`. -/
def dropSize (size : ℕ) : ℕ := if size = 0 then 2 ^ 64 - 1 else size - 1

def evict (s : LRUCacheShard K V) (id : ℕ) : LRUCacheShard K V :=
  let s := (s.setDeletion id).lruRemove id
  { s with size := dropSize s.size }

/-- The entry behind the head of an empty list is the head itself. With one reference its deleter is
called and the size drops; with more it is linked into the other list, and neither is a list of
handles any longer. -/
def purgeFirst (o : Options K) (s : LRUCacheShard K V) : Option (LRUCacheShard K V) :=
  match s.lru with
  | [] =>
    if o.dummyRefs = 1 then
      if o.dummyDeleter then none else some { s with size := dropSize s.size }
    else if 2 ≤ o.dummyRefs then none
    else some s
  | id :: _ =>
    if s.refs id = 1 then some (s.evict id)
    else if 2 ≤ s.refs id then
      let s := s.lruRemove id
      some { s with inUse := s.inUse ++ [id] }
    else some s

def purgeInUse (s : LRUCacheShard K V) : LRUCacheShard K V :=
  s.inUse.foldl (fun s id => if s.refs id = 1 then s.evict id else s) s

def rehashes (nSlots nEntries : ℕ) : Bool :=
  3 * nSlots < nEntries ∨ kMB < memoryUsage nSlots nEntries

def rehash [LinearOrder K] (o : Options K) (s : LRUCacheShard K V) : Option (LRUCacheShard K V) :=
  let newSlots := max kMinLRUTableSlots (o.scaled s.table.nSlots s.table.keys.length + 7)
  let put := fun table r => if s.live r.id then HashMap.put (hashRef o) compareRefs table r
    else some table
  (s.table.entries.foldlM put (HashMap.empty newSlots)).map fun table => { s with table := table }

def purgeIfNeeded [LinearOrder K] (o : Options K) (force : Bool) (s : LRUCacheShard K V) :
    Option (LRUCacheShard K V) :=
  if s.size ≤ o.capacity ∧ force = false then some s
  else (s.purgeFirst o).bind fun s =>
    let s := s.purgeInUse
    if rehashes s.table.nSlots s.table.keys.length then s.rehash o else some s

def add (s : LRUCacheShard K V) (table : HashMap (Ref K)) (key : K) (value : V) :
    LRUCacheShard K V :=
  { s with
    table := table
    handles := s.handles ++ [⟨key, value, 1, false, 10⟩]
    lru := s.lru ++ [s.handles.length]
    size := s.size + 1 }

def put [LinearOrder K] (o : Options K) (s : LRUCacheShard K V) (key : K) (value : V) :
    Option (LRUCacheShard K V) :=
  (s.table.put (hashRef o) compareRefs ⟨key, s.handles.length⟩).map fun table =>
    s.add table key value

def insert [LinearOrder K] (o : Options K) (s : LRUCacheShard K V) (key : K) (value : V) :
    Option (LRUCacheShard K V) :=
  (s.put o key value).bind (purgeIfNeeded o false)

def remove [LinearOrder K] (o : Options K) (s : LRUCacheShard K V) (key : K) :
    Option (LRUCacheShard K V) :=
  (s.get o key).map fun (s, x) =>
    match x with
    | none => s
    | some id => if s.refs id = 1 then (s.setDeletion id).lruRemove id else s

/-- `GetOrLoad` of a caller that is alone. It never returns if the stripe is locked; a loader that
fails leaves it so. -/
def getOrLoad [LinearOrder K] (o : Options K) (s : LRUCacheShard K V) (key : K)
    (loaded : Option V) :
    Option (LRUCacheShard K V) :=
  (s.get o key).bind fun (s, x) =>
    match x with
    | some id => some (s.addRef id)
    | none =>
      if s.locked (o.stripe key) then none
      else
        match loaded with
        | none => some { s with locked := Function.update s.locked (o.stripe key) true }
        | some value =>
          (s.insert o key value).bind fun t => (t.purgeIfNeeded o false).map fun t =>
            t.addRef s.handles.length

end LRUCacheShard

inductive Call (K V : Type*)
  | insert (key : K) (value : V)
  | get (key : K) (keep : Bool)
  | release (id : ℕ)
  | remove (key : K)
  | getOrLoad (key : K) (loaded : Option V)
  | purgeIfNeeded (force : Bool)
  deriving DecidableEq, Repr

def step [LinearOrder K] (o : Options K) (s : LRUCacheShard K V) :
    Call K V → Option (LRUCacheShard K V)
  | .insert key value => s.insert o key value
  | .get key keep => (s.get o key).map fun (s, x) =>
      match x with
      | none => s
      | some id => if keep then s.addRef id else s
  | .release id => if 2 ≤ s.refs id then some (s.releaseRef id) else none
  | .remove key => s.remove o key
  | .getOrLoad key loaded => s.getOrLoad o key loaded
  | .purgeIfNeeded force => s.purgeIfNeeded o force

def numbers (capacity : ℕ) : Options ℕ :=
  ⟨capacity, id, fun _ => 0, fun _ nEntries => nEntries, 0, false⟩

section Handles
variable {s : LRUCacheShard K V} {id i : ℕ} {f : LRUHandle K V → LRUHandle K V}

lemma handles_modify (s : LRUCacheShard K V) (id i : ℕ) (f : LRUHandle K V → LRUHandle K V) :
    (s.modify id f).handles[i]? = if id = i then (s.handles[i]?).map f else s.handles[i]? := by
  simp only [LRUCacheShard.modify, getElem?_modify]
  split_ifs
  · rfl
  · simp

lemma refs_modify (h : ∀ x, (f x).refs = x.refs) : (s.modify id f).refs i = s.refs i := by
  rw [LRUCacheShard.refs, LRUCacheShard.refs, handles_modify]
  split_ifs
  · cases s.handles[i]? <;> simp [h]
  · rfl

lemma live_modify (h : ∀ x, (f x).deletion = x.deletion) : (s.modify id f).live i = s.live i := by
  rw [LRUCacheShard.live, LRUCacheShard.live, handles_modify]
  split_ifs
  · cases s.handles[i]? <;> simp [h]
  · rfl

lemma live_setDeletion : (s.setDeletion id).live i = (s.live i && decide (id ≠ i)) := by
  rw [LRUCacheShard.live, LRUCacheShard.live, LRUCacheShard.setDeletion, handles_modify]
  split_ifs with hid
  · cases s.handles[i]? <;> simp [hid]
  · simp [hid]

lemma live_iff : s.live id = true ↔ ∃ h, s.handles[id]? = some h ∧ h.deletion = false := by
  rw [LRUCacheShard.live, Option.any_eq_true]
  simp

lemma handles_add (s : LRUCacheShard K V) (table : HashMap (Ref K)) (key : K) (value : V) (i : ℕ) :
    (s.add table key value).handles[i]? =
      if i = s.handles.length then some ⟨key, value, 1, false, 10⟩ else s.handles[i]? := by
  change (s.handles ++ _)[i]? = _
  split_ifs with hi
  · rw [hi, getElem?_concat_length]
  · by_cases hlt : i < s.handles.length
    · exact getElem?_append_left hlt
    · rw [getElem?_eq_none (by simp; omega), getElem?_eq_none (by omega)]

lemma live_add (s : LRUCacheShard K V) (table : HashMap (Ref K)) (key : K) (value : V) (i : ℕ) :
    (s.add table key value).live i = (decide (i = s.handles.length) || s.live i) := by
  rw [LRUCacheShard.live, LRUCacheShard.live, handles_add]
  split_ifs with hi
  · simp [hi]
  · simp [hi]

lemma erase_both {a b : List ℕ} (h : (a ++ b).Nodup) (id : ℕ) :
    a.erase id ++ b.erase id = (a ++ b).erase id := by
  by_cases ha : id ∈ a
  · have hb : id ∉ b := fun hb => (nodup_append.mp h).2.2 id ha id hb rfl
    rw [erase_append_left _ ha, erase_of_not_mem hb]
  · rw [erase_append_right _ ha, erase_of_not_mem ha]

end Handles

section Invariant
variable [LinearOrder K] {o : Options K} {s : LRUCacheShard K V} {l : List (Ref K)} {id : ℕ}

instance compareRefs_trans : Std.TransCmp (compareRefs : Ref K → Ref K → Ordering) where
  eq_swap {a b} := @Std.OrientedCmp.eq_swap _ compare _ a.key b.key
  isLE_trans {a b c} hab hbc := @Std.TransCmp.isLE_trans _ compare _ a.key b.key c.key hab hbc

/-- The table holds `l`, which has every handle that is not deleted; these are the ones in the
lists. -/
structure ShardInv (o : Options K) (s : LRUCacheShard K V) (l : List (Ref K)) : Prop where
  table : ∃ chains, Holds (hashRef o) compareRefs s.table chains l
  nodup : (l.map Ref.id).Nodup
  known : ∀ r ∈ l, ∃ h, s.handles[r.id]? = some h ∧ h.key = r.key
  stored : ∀ (id : ℕ) (h : LRUHandle K V), s.handles[id]? = some h → h.deletion = false →
    ⟨h.key, id⟩ ∈ l
  lists : (s.lru ++ s.inUse).Nodup
  mem_lists : ∀ id, id ∈ s.lru ++ s.inUse ↔ s.live id = true
  counted : ∀ (id : ℕ) (h : LRUHandle K V), s.handles[id]? = some h → 1 ≤ h.refs

def LRUCacheShard.listed (s : LRUCacheShard K V) : ℕ := (s.lru ++ s.inUse).length

lemma inv_new (o : Options K) : ShardInv o (LRUCacheShard.new : LRUCacheShard K V) [] where
  table := ⟨_, holds_empty (by decide)⟩
  nodup := nodup_nil
  known := by simp
  stored := by simp [LRUCacheShard.new]
  lists := nodup_nil
  mem_lists := by simp [LRUCacheShard.new, LRUCacheShard.live]
  counted := by simp [LRUCacheShard.new]

lemma ShardInv.modify {f : LRUHandle K V → LRUHandle K V} (h : ShardInv o s l)
    (hkey : ∀ x, (f x).key = x.key) (hdel : ∀ x, (f x).deletion = x.deletion)
    (hrefs : ∀ x, s.handles[id]? = some x → 1 ≤ (f x).refs) :
    ShardInv o (s.modify id f) l where
  table := h.table
  nodup := h.nodup
  known r hr := by
    obtain ⟨x, hx, hxk⟩ := h.known r hr
    rw [handles_modify, hx]
    split_ifs
    · exact ⟨f x, rfl, (hkey x).trans hxk⟩
    · exact ⟨x, rfl, hxk⟩
  stored i y hy hlive := by
    rw [handles_modify] at hy
    split_ifs at hy
    · obtain ⟨x, hx, rfl⟩ := map_eq_some_iff.mp hy
      rw [hkey]
      exact h.stored i x hx (by rwa [hdel] at hlive)
    · exact h.stored i y hy hlive
  lists := h.lists
  mem_lists i := by rw [live_modify hdel]; exact h.mem_lists i
  counted i y hy := by
    rw [handles_modify] at hy
    split_ifs at hy with hid
    · obtain ⟨x, hx, rfl⟩ := map_eq_some_iff.mp hy
      exact hrefs x (hid ▸ hx)
    · exact h.counted i y hy

lemma ShardInv.relist (h : ShardInv o s l) {lru inUse : List ℕ}
    (hperm : (lru ++ inUse).Perm (s.lru ++ s.inUse)) :
    ShardInv o { s with lru := lru, inUse := inUse } l where
  table := h.table
  nodup := h.nodup
  known := h.known
  stored := h.stored
  lists := hperm.nodup_iff.mpr h.lists
  mem_lists i := hperm.mem_iff.trans (h.mem_lists i)
  counted := h.counted

lemma ShardInv.delete (h : ShardInv o s l) (id : ℕ) :
    ShardInv o ((s.setDeletion id).lruRemove id) l where
  table := h.table
  nodup := h.nodup
  known r hr := by
    obtain ⟨x, hx, hxk⟩ := h.known r hr
    change ∃ y, (s.modify id _).handles[r.id]? = some y ∧ _
    rw [handles_modify, hx]
    split_ifs
    · exact ⟨_, rfl, hxk⟩
    · exact ⟨x, rfl, hxk⟩
  stored i y hy hlive := by
    change (s.modify id _).handles[i]? = some y at hy
    rw [handles_modify] at hy
    split_ifs at hy
    · obtain ⟨x, hx, rfl⟩ := map_eq_some_iff.mp hy
      cases hlive
    · exact h.stored i y hy hlive
  lists := by
    change (s.lru.erase id ++ s.inUse.erase id).Nodup
    rw [erase_both h.lists]
    exact h.lists.erase id
  mem_lists i := by
    change i ∈ s.lru.erase id ++ s.inUse.erase id ↔ (s.setDeletion id).live i = true
    rw [erase_both h.lists, h.lists.mem_erase_iff, h.mem_lists, live_setDeletion, Bool.and_eq_true,
      decide_eq_true_iff, and_comm, ne_comm]
  counted i y hy := by
    change (s.modify id _).handles[i]? = some y at hy
    rw [handles_modify] at hy
    split_ifs at hy
    · obtain ⟨x, hx, rfl⟩ := map_eq_some_iff.mp hy
      exact h.counted i x hx
    · exact h.counted i y hy

lemma ShardInv.resize (h : ShardInv o s l) (size : ℕ) : ShardInv o { s with size := size } l :=
  ⟨h.table, h.nodup, h.known, h.stored, h.lists, h.mem_lists, h.counted⟩

lemma ShardInv.relock (h : ShardInv o s l) (locked : ℕ → Bool) :
    ShardInv o { s with locked := locked } l :=
  ⟨h.table, h.nodup, h.known, h.stored, h.lists, h.mem_lists, h.counted⟩

lemma ShardInv.evict (h : ShardInv o s l) (id : ℕ) : ShardInv o (s.evict id) l :=
  (h.delete id).resize _

lemma ShardInv.live_of_refs (h : ShardInv o s l) (hid : id ∈ s.lru ++ s.inUse) :
    s.live id = true ∧ 1 ≤ s.refs id := by
  have hlive := (h.mem_lists id).mp hid
  obtain ⟨x, hx, -⟩ := live_iff.mp hlive
  refine ⟨hlive, ?_⟩
  rw [LRUCacheShard.refs, hx]
  exact h.counted id x hx

lemma ShardInv.hit (h : ShardInv o s l) (hid : s.live id = true) (hits : ℕ) :
    ShardInv o (s.hit id hits) l := by
  rw [LRUCacheShard.hit]
  split_ifs with hmost
  · have hmodify : ShardInv o (s.modify id fun h => { h with hits := 1 }) l :=
      h.modify (fun _ => rfl) (fun _ => rfl) (h.counted id)
    have hmem : id ∈ s.lru ++ s.inUse := (h.mem_lists id).mpr hid
    have hperm : ((s.lru.erase id ++ s.inUse.erase id) ++ [id]).Perm (s.lru ++ s.inUse) := by
      rw [erase_both h.lists]
      exact (perm_append_singleton id _).trans (perm_cons_erase hmem).symm
    simp only
    split_ifs with hone hmore
    · refine hmodify.relist ?_
      refine List.Perm.trans ?_ hperm
      change ((s.lru.erase id ++ [id]) ++ s.inUse.erase id).Perm _
      rw [append_assoc, append_assoc]
      exact (perm_append_comm).append_left _
    · refine hmodify.relist ?_
      refine List.Perm.trans ?_ hperm
      change (s.lru.erase id ++ (s.inUse.erase id ++ [id])).Perm _
      rw [append_assoc]
    · exfalso
      have hrefs := (h.live_of_refs hmem).2
      have hsame : ((s.modify id fun h => { h with hits := 1 }).lruRemove id).refs id = s.refs id :=
        refs_modify fun _ => rfl
      omega
  · exact h.modify (fun _ => rfl) (fun _ => rfl) (h.counted id)

lemma ShardInv.find_eq (h : ShardInv o s l) (key : K) :
    s.find o key = some (l.find? fun r => r.key = key) := by
  obtain ⟨chains, htable⟩ := h.table
  obtain ⟨slot, n, hfind, hkey⟩ := htable.findEqual_eq ⟨key, 0⟩
  rw [LRUCacheShard.find, hfind, map_some, hkey, find?_filter]
  congr 2
  funext r
  simp only [decide_eq_true_iff]
  refine decide_eq_decide.mpr ⟨fun hr => compare_eq_iff_eq.mp hr.2,
    fun hr => ⟨?_, compare_eq_iff_eq.mpr hr⟩⟩
  rw [HashMap.index, HashMap.index, hashRef, hashRef, hr]

lemma ShardInv.get_eq (h : ShardInv o s l) (key : K) :
    ∃ t x, s.get o key = some (t, x) ∧
      x = ((l.find? fun r => r.key = key).map Ref.id).filter s.live ∧
      (x = none ∧ t = s ∨ ∃ id hits, x = some id ∧ s.live id = true ∧ t = s.hit id hits) := by
  rw [LRUCacheShard.get, h.find_eq key]
  cases hfind : l.find? fun r => r.key = key with
  | none => exact ⟨s, none, rfl, rfl, .inl ⟨rfl, rfl⟩⟩
  | some r =>
    obtain ⟨x, hx, -⟩ := h.known r (mem_of_find?_eq_some hfind)
    simp only [map_some, hx]
    cases hdel : x.deletion with
    | true =>
      have hlive : s.live r.id = false := by simp [LRUCacheShard.live, hx, hdel]
      exact ⟨s, none, rfl, by simp [Option.filter, hlive], .inl ⟨rfl, rfl⟩⟩
    | false =>
      have hlive : s.live r.id = true := live_iff.mpr ⟨x, hx, hdel⟩
      exact ⟨_, some r.id, rfl, by simp [Option.filter, hlive],
        .inr ⟨r.id, x.hits, rfl, hlive, rfl⟩⟩

lemma ShardInv.lt_length (h : ShardInv o s l) {r : Ref K} (hr : r ∈ l) :
    r.id < s.handles.length := by
  obtain ⟨x, hx, -⟩ := h.known r hr
  exact (List.getElem?_eq_some_iff.mp hx).1

lemma ShardInv.add (h : ShardInv o s l) {table : HashMap (Ref K)} {key : K}
    (htable : ∃ chains,
      Holds (hashRef o) compareRefs table chains (insertKey compareRefs ⟨key, s.handles.length⟩ l))
    (value : V) : ShardInv o (s.add table key value)
    (insertKey compareRefs ⟨key, s.handles.length⟩ l) where
  table := htable
  nodup := by
    rw [(insertKey_perm.map Ref.id).nodup_iff, map_cons, nodup_cons]
    refine ⟨fun hmem => ?_, h.nodup⟩
    obtain ⟨r, hr, hid⟩ := List.mem_map.mp hmem
    exact absurd hid (h.lt_length hr).ne
  known r hr := by
    rw [handles_add]
    rcases mem_cons.mp (insertKey_perm.mem_iff.mp hr) with rfl | hr
    · exact ⟨_, if_pos rfl, rfl⟩
    · rw [if_neg (h.lt_length hr).ne]
      exact h.known r hr
  stored i x hx hlive := by
    rw [insertKey_perm.mem_iff]
    rw [handles_add] at hx
    split_ifs at hx with hi
    · obtain rfl := Option.some.inj hx
      rw [hi]
      exact mem_cons_self
    · exact mem_cons_of_mem _ (h.stored i x hx hlive)
  lists := by
    have hnew : s.handles.length ∉ s.lru ++ s.inUse := by
      rw [h.mem_lists, live_iff, getElem?_eq_none le_rfl]
      simp
    change ((s.lru ++ [s.handles.length]) ++ s.inUse).Nodup
    rw [append_assoc, singleton_append, perm_middle.nodup_iff]
    exact nodup_cons.mpr ⟨hnew, h.lists⟩
  mem_lists i := by
    change i ∈ (s.lru ++ [s.handles.length]) ++ s.inUse ↔ _
    rw [append_assoc, singleton_append, perm_middle.mem_iff, mem_cons, live_add, Bool.or_eq_true,
      decide_eq_true_iff, h.mem_lists]
  counted i x hx := by
    rw [handles_add] at hx
    split_ifs at hx
    · obtain rfl := Option.some.inj hx
      exact le_rfl
    · exact h.counted i x hx

lemma ShardInv.put_eq (h : ShardInv o s l) (key : K) (value : V) :
    ∃ table, s.put o key value = some (s.add table key value) ∧
      table.nSlots = s.table.nSlots ∧ table.keys.length = s.table.keys.length + 1 ∧
      ShardInv o (s.add table key value) (insertKey compareRefs ⟨key, s.handles.length⟩ l) := by
  obtain ⟨chains, htable⟩ := h.table
  obtain ⟨table, chains', hput, hholds⟩ := htable.put_eq ⟨key, s.handles.length⟩
  have hlink := htable.put_link ⟨key, s.handles.length⟩
  rw [hput, Option.some.injEq] at hlink
  refine ⟨table, by rw [LRUCacheShard.put, hput]; rfl, ?_, ?_, h.add ⟨chains', hholds⟩ value⟩
  · rw [hlink]
    rfl
  · rw [hlink]
    exact length_append

end Invariant

section Evictions
variable {s t u : LRUCacheShard K V} {id : ℕ}

/-- What a purge leaves as it is, and what becomes of the handles in `ids`. -/
structure Evicted (s t : LRUCacheShard K V) (ids : List ℕ) : Prop where
  table : t.table = s.table
  length : t.handles.length = s.handles.length
  keys : ∀ i : ℕ, (t.handles[i]?).map LRUHandle.key = (s.handles[i]?).map LRUHandle.key
  refs : ∀ i, t.refs i = s.refs i
  live : ∀ i, t.live i = true ↔ s.live i = true ∧ i ∉ ids
  locked : t.locked = s.locked

lemma Evicted.refl (s : LRUCacheShard K V) : Evicted s s [] :=
  ⟨rfl, rfl, fun _ => rfl, fun _ => rfl, fun _ => by simp, rfl⟩

lemma Evicted.trans {ids ids' : List ℕ} (h : Evicted s t ids) (h' : Evicted t u ids') :
    Evicted s u (ids ++ ids') where
  table := h'.table.trans h.table
  length := h'.length.trans h.length
  keys i := (h'.keys i).trans (h.keys i)
  refs i := (h'.refs i).trans (h.refs i)
  live i := by rw [h'.live, h.live, mem_append, not_or, and_assoc]
  locked := h'.locked.trans h.locked

lemma refs_evict (s : LRUCacheShard K V) (id i : ℕ) : (s.evict id).refs i = s.refs i := by
  change (s.modify id _).refs i = _
  exact refs_modify fun _ => rfl

lemma evicted_evict (s : LRUCacheShard K V) (id : ℕ) : Evicted s (s.evict id) [id] where
  table := rfl
  length := length_modify ..
  keys i := by
    change ((s.modify id _).handles[i]?).map _ = _
    rw [handles_modify]
    split_ifs
    · cases s.handles[i]? <;> rfl
    · rfl
  refs i := refs_evict s id i
  live i := by
    change (s.setDeletion id).live i = true ↔ _
    rw [live_setDeletion, Bool.and_eq_true, decide_eq_true_iff, mem_singleton, ne_comm]
  locked := rfl

lemma evicted_hits (hits : ℕ → ℕ) (lru inUse : List ℕ) :
    Evicted s { s.modify id fun h => { h with hits := hits h.hits } with
      lru := lru, inUse := inUse } [] where
  table := rfl
  length := length_modify ..
  keys i := by
    change ((s.modify id _).handles[i]?).map _ = _
    rw [handles_modify]
    split_ifs
    · cases s.handles[i]? <;> rfl
    · rfl
  refs i := refs_modify fun _ => rfl
  live i := by
    have hlive : (s.modify id fun h => { h with hits := hits h.hits }).live i = s.live i :=
      live_modify fun _ => rfl
    change (s.modify id _).live i = true ↔ _
    simp [hlive]
  locked := rfl

lemma evicted_hit (hits : ℕ) : Evicted s (s.hit id hits) [] := by
  rw [LRUCacheShard.hit]
  split_ifs
  · simp only
    split_ifs <;> exact evicted_hits (fun _ => 1) _ _
  · exact evicted_hits (· + 1) _ _

lemma size_hit (hits : ℕ) : (s.hit id hits).size = s.size := by
  rw [LRUCacheShard.hit]
  split_ifs
  · simp only
    split_ifs <;> rfl
  · rfl

lemma purgeInUse_eq (s : LRUCacheShard K V) :
    s.purgeInUse = (s.inUse.filter fun id => s.refs id = 1).foldl LRUCacheShard.evict s := by
  have hfold : ∀ (ids : List ℕ) (t : LRUCacheShard K V), (∀ i, t.refs i = s.refs i) →
      ids.foldl (fun s id => if s.refs id = 1 then s.evict id else s) t =
        (ids.filter fun id => s.refs id = 1).foldl LRUCacheShard.evict t := by
    intro ids
    induction ids with
    | nil => intro t _; rfl
    | cons id ids ih =>
      intro t ht
      rw [foldl_cons, ht]
      by_cases hone : s.refs id = 1
      · rw [if_pos hone, filter_cons_of_pos (by simpa using hone)]
        exact ih _ fun i => (refs_evict t id i).trans (ht i)
      · rw [if_neg hone, filter_cons_of_neg (by simpa using hone)]
        exact ih t ht
  exact hfold s.inUse s fun _ => rfl

lemma size_evictAll (ids : List ℕ) (s : LRUCacheShard K V) :
    (ids.foldl LRUCacheShard.evict s).size = LRUCacheShard.dropSize^[ids.length] s.size := by
  induction ids generalizing s with
  | nil => rfl
  | cons id ids ih =>
    rw [foldl_cons, ih]
    rfl

lemma purgeFirst_none {o : Options K} (hlru : s.lru = []) (hdummy : 2 ≤ o.dummyRefs) :
    s.purgeFirst o = none := by
  have hone : o.dummyRefs ≠ 1 := by omega
  simp [LRUCacheShard.purgeFirst, hlru, hone, hdummy]

lemma purgeFirst_isSome {o : Options K} (hdummy : s.lru = [] → o.dummyRefs ≤ 0) :
    ∃ t, s.purgeFirst o = some t := by
  rw [LRUCacheShard.purgeFirst]
  cases hlru : s.lru with
  | nil =>
    have hrefs := hdummy hlru
    simp only
    rw [if_neg (by omega), if_neg (by omega)]
    exact ⟨s, rfl⟩
  | cons id rest =>
    simp only
    split_ifs <;> exact ⟨_, rfl⟩

end Evictions

section Purge
variable [LinearOrder K] {o : Options K} {s t : LRUCacheShard K V} {l : List (Ref K)} {id : ℕ}
  {force : Bool}

lemma ShardInv.not_mem_inUse (h : ShardInv o s l) (hid : id ∈ s.lru) : id ∉ s.inUse := fun hin =>
  (nodup_append.mp h.lists).2.2 id hid id hin rfl

lemma ShardInv.evictAll (h : ShardInv o s l) {ids : List ℕ} (hsub : ids ⊆ s.inUse)
    (hnodup : ids.Nodup) :
    ShardInv o (ids.foldl LRUCacheShard.evict s) l ∧
      Evicted s (ids.foldl LRUCacheShard.evict s) ids ∧
      (ids.foldl LRUCacheShard.evict s).lru = s.lru := by
  induction ids generalizing s with
  | nil => exact ⟨h, Evicted.refl s, rfl⟩
  | cons id ids ih =>
    obtain ⟨hid, hnodup⟩ := nodup_cons.mp hnodup
    have hin : id ∈ s.inUse := hsub mem_cons_self
    have hmem : id ∈ s.lru ++ s.inUse := mem_append_right _ hin
    have hrest : ids ⊆ (s.evict id).inUse := by
      intro i hi
      have hne : i ≠ id := fun he => hid (he ▸ hi)
      exact (mem_erase_of_ne hne).mpr (hsub (mem_cons_of_mem _ hi))
    obtain ⟨hinv, hevicted, hlru⟩ := ih (h.evict id) hrest hnodup
    refine ⟨hinv, (evicted_evict s id).trans hevicted, hlru.trans ?_⟩
    exact erase_of_not_mem fun hlru => h.not_mem_inUse hlru hin

/-- The handles of the list that `purgeFirst` deletes, and how often it lowers the size. -/
def purgedFirst (s : LRUCacheShard K V) : List ℕ :=
  s.lru.head?.toList.filter fun id => s.refs id = 1

def firstDrops (o : Options K) (s : LRUCacheShard K V) : ℕ :=
  (purgedFirst s).length + if s.lru = [] ∧ o.dummyRefs = 1 then 1 else 0

lemma ShardInv.purgeFirst (h : ShardInv o s l) (hfirst : s.purgeFirst o = some t) :
    ShardInv o t l ∧ Evicted s t (purgedFirst s) ∧ t.lru = s.lru.tail ∧
      (t.inUse.filter fun id => s.refs id = 1) = (s.inUse.filter fun id => s.refs id = 1) ∧
      t.size = LRUCacheShard.dropSize^[firstDrops o s] s.size := by
  rw [LRUCacheShard.purgeFirst] at hfirst
  split at hfirst
  · rename_i hlru
    have hids : purgedFirst s = [] := by simp [purgedFirst, hlru]
    have htail : s.lru = s.lru.tail := by rw [hlru, tail_nil]
    have hrefl := Evicted.refl s
    rw [firstDrops, hids]
    split_ifs at hfirst with hone hdeleter hmore
    · obtain rfl := Option.some.inj hfirst
      refine ⟨h.resize _, ⟨rfl, rfl, hrefl.keys, hrefl.refs, hrefl.live, rfl⟩, htail, rfl, ?_⟩
      rw [if_pos ⟨hlru, hone⟩]
      rfl
    · obtain rfl := Option.some.inj hfirst
      refine ⟨h, hrefl, htail, rfl, ?_⟩
      rw [if_neg fun hdummy => hone hdummy.2]
      rfl
  · rename_i id rest hlru
    have hfirstMem : id ∈ s.lru := by simp [hlru]
    have hmem : id ∈ s.lru ++ s.inUse := mem_append_left _ hfirstMem
    have hnot := h.not_mem_inUse hfirstMem
    obtain ⟨hlive, hrefs⟩ := h.live_of_refs hmem
    have herase : s.lru.erase id = rest := by simp [hlru]
    have hsame : s.inUse.erase id = s.inUse := erase_of_not_mem hnot
    rw [firstDrops, if_neg (by simp [hlru]), Nat.add_zero, hlru, tail_cons]
    by_cases hone : s.refs id = 1
    · have hids : purgedFirst s = [id] := by simp [purgedFirst, hlru, hone]
      rw [if_pos hone] at hfirst
      obtain rfl := Option.some.inj hfirst
      rw [hids]
      refine ⟨h.evict id, evicted_evict s id, herase, ?_, rfl⟩
      change (s.inUse.erase id).filter _ = _
      rw [hsame]
    · have hids : purgedFirst s = [] := by simp [purgedFirst, hlru, hone]
      have hperm : (rest ++ (s.inUse ++ [id])).Perm (s.lru ++ s.inUse) := by
        rw [hlru, ← append_assoc, cons_append]
        exact perm_append_singleton id _
      rw [if_neg hone, if_pos (by omega)] at hfirst
      simp only [LRUCacheShard.lruRemove, herase, hsame] at hfirst
      obtain rfl := Option.some.inj hfirst
      rw [hids]
      refine ⟨h.relist hperm, ?_, rfl, ?_, rfl⟩
      · exact ⟨rfl, rfl, fun _ => rfl, fun _ => rfl, fun _ => by simp [LRUCacheShard.live], rfl⟩
      · rw [filter_append, filter_cons_of_neg (by simpa using hone), filter_nil, append_nil]

def purged (s : LRUCacheShard K V) : List ℕ :=
  (s.lru.head?.toList ++ s.inUse).filter fun id => s.refs id = 1

def drops (o : Options K) (s : LRUCacheShard K V) : ℕ :=
  (purged s).length + if s.lru = [] ∧ o.dummyRefs = 1 then 1 else 0

lemma ShardInv.purge (h : ShardInv o s l) (hfirst : s.purgeFirst o = some t) :
    ShardInv o t.purgeInUse l ∧ Evicted s t.purgeInUse (purged s) ∧ t.purgeInUse.lru = s.lru.tail ∧
      t.purgeInUse.size = LRUCacheShard.dropSize^[drops o s] s.size := by
  obtain ⟨hinv, hevicted, hlru, hinUse, hsize⟩ := h.purgeFirst hfirst
  have hids : (t.inUse.filter fun id => t.refs id = 1) =
      s.inUse.filter fun id => s.refs id = 1 := by
    rw [← hinUse]
    exact filter_congr fun i _ => by rw [hevicted.refs]
  have hnodup := ((nodup_append.mp hinv.lists).2.1).filter fun id => decide (t.refs id = 1)
  obtain ⟨hinv', hevicted', hlru'⟩ := hinv.evictAll (filter_subset_self _) hnodup
  rw [← purgeInUse_eq] at hinv' hevicted' hlru'
  rw [hids] at hevicted'
  have hpurged : purged s = purgedFirst s ++ s.inUse.filter fun id => s.refs id = 1 :=
    filter_append ..
  refine ⟨hinv', hpurged ▸ hevicted.trans hevicted', hlru'.trans hlru, ?_⟩
  rw [purgeInUse_eq, size_evictAll, hids, hsize, ← Function.iterate_add_apply, drops, firstDrops,
    hpurged, length_append]
  congr 1
  omega

lemma putAll_holds {table : HashMap (Ref K)} {chains : ℕ → List ℕ} {l : List (Ref K)}
    (keep : Ref K → Bool) (h : Holds (hashRef o) compareRefs table chains l) (es : List (Ref K)) :
    ∃ table' chains' l', es.foldlM (fun table r => if keep r
      then HashMap.put (hashRef o) compareRefs table r else some table)
        table = some table' ∧
      Holds (hashRef o) compareRefs table' chains' l' ∧ l'.Perm (es.filter keep ++ l) ∧
      l' = (es.filter keep).foldl (fun l r => insertKey compareRefs r l) l := by
  induction es generalizing table chains l with
  | nil => exact ⟨table, chains, l, rfl, h, List.Perm.refl _, rfl⟩
  | cons r es ih =>
    rw [foldlM_cons]
    by_cases hr : keep r = true
    · obtain ⟨table₁, chains₁, hput, h₁⟩ := h.put_eq r
      obtain ⟨table', chains', l', hfold, h', hperm, heq⟩ := ih h₁
      refine ⟨table', chains', l', ?_, h', ?_, ?_⟩
      · rw [if_pos hr, hput]
        exact hfold
      · rw [filter_cons_of_pos hr, cons_append]
        exact hperm.trans ((insertKey_perm.append_left _).trans perm_middle)
      · rw [filter_cons_of_pos hr, foldl_cons]
        exact heq
    · obtain ⟨table', chains', l', hfold, h', hperm, heq⟩ := ih h
      refine ⟨table', chains', l', ?_, h', ?_, ?_⟩
      · rw [if_neg hr]
        exact hfold
      · rw [filter_cons_of_neg hr]
        exact hperm
      · rw [filter_cons_of_neg hr]
        exact heq

lemma ShardInv.rehash (h : ShardInv o s l) :
    ∃ table l', s.rehash o = some { s with table := table } ∧
      ShardInv o { s with table := table } l' ∧
      l'.Perm (l.filter fun r => s.live r.id) ∧
      l' = (s.table.entries.filter fun r => s.live r.id).foldl (fun l r =>
        insertKey compareRefs r l) [] := by
  obtain ⟨chains, htable⟩ := h.table
  have hslots : 0 < max kMinLRUTableSlots (o.scaled s.table.nSlots s.table.keys.length + 7) :=
    lt_max_of_lt_left (by decide)
  obtain ⟨table, chains', l', hfold, hholds, hperm, heq⟩ :=
    putAll_holds (o := o) (fun r => s.live r.id) (holds_empty hslots) s.table.entries
  have hlive : l'.Perm (l.filter fun r => s.live r.id) := by
    rw [append_nil] at hperm
    exact hperm.trans (htable.entries_perm.filter _)
  refine ⟨table, l', ?_, ?_, hlive, heq⟩
  · rw [LRUCacheShard.rehash]
    simp only [hfold, map_some]
  · have hmem : ∀ r, r ∈ l' ↔ r ∈ l ∧ s.live r.id = true := fun r => hlive.mem_iff.trans mem_filter
    exact {
      table := ⟨chains', hholds⟩
      nodup := (hlive.map Ref.id).nodup_iff.mpr (h.nodup.sublist (filter_sublist.map _))
      known := fun r hr => h.known r ((hmem r).mp hr).1
      stored := fun i x hx hdel => (hmem _).mpr ⟨h.stored i x hx hdel, live_iff.mpr ⟨x, hx, hdel⟩⟩
      lists := h.lists
      mem_lists := h.mem_lists
      counted := h.counted }

def purges (o : Options K) (force : Bool) (s : LRUCacheShard K V) : Prop :=
  o.capacity < s.size ∨ force = true

/-- A purge takes the head of the empty LRU list for an entry that is referenced. -/
def ReadsDummy (o : Options K) (force : Bool) (s : LRUCacheShard K V) : Prop :=
  purges o force s ∧ s.lru = [] ∧ 1 ≤ o.dummyRefs

/-- `PurgeIfNeeded` deletes the handles in `purged` and may rebuild the table. -/
inductive PurgeResult (o : Options K) (force : Bool) (s : LRUCacheShard K V) (l : List (Ref K)) :
    LRUCacheShard K V → List (Ref K) → Prop
  | skipped (h : ¬ purges o force s) : PurgeResult o force s l s l
  | purged {t : LRUCacheShard K V} (h : purges o force s) (hevicted : Evicted s t (purged s))
      (hlru : t.lru = s.lru.tail) (hsize : t.size = LRUCacheShard.dropSize^[drops o s] s.size)
      (hsame : LRUCacheShard.rehashes s.table.nSlots s.table.keys.length = false) :
      PurgeResult o force s l t l
  | rebuilt {t : LRUCacheShard K V} {table : HashMap (Ref K)} {l' : List (Ref K)}
      (h : purges o force s) (hevicted : Evicted s t (purged s)) (hlru : t.lru = s.lru.tail)
      (hsize : t.size = LRUCacheShard.dropSize^[drops o s] s.size)
      (hrehashes : LRUCacheShard.rehashes s.table.nSlots s.table.keys.length = true)
      (hlive : l'.Perm (l.filter fun r => t.live r.id))
      (horder : l' = (s.table.entries.filter fun r => t.live r.id).foldl
        (fun l r => insertKey compareRefs r l) []) :
      PurgeResult o force s l { t with table := table } l'

omit [LinearOrder K] in
lemma not_purges (h : s.size ≤ o.capacity ∧ force = false) : ¬ purges o force s := by
  rintro (hover | hforce)
  · exact absurd h.1 (by omega)
  · exact Bool.false_ne_true (h.2.symm.trans hforce)

omit [LinearOrder K] in
lemma purges_of_not (h : ¬ (s.size ≤ o.capacity ∧ force = false)) : purges o force s := by
  rw [not_and_or] at h
  exact h.imp (by omega) (by simp)

lemma ShardInv.purgeIfNeeded (h : ShardInv o s l) (ht : s.purgeIfNeeded o force = some t) :
    ∃ l', ShardInv o t l' ∧ PurgeResult o force s l t l' := by
  rw [LRUCacheShard.purgeIfNeeded] at ht
  by_cases hskip : s.size ≤ o.capacity ∧ force = false
  · rw [if_pos hskip] at ht
    exact ⟨l, Option.some.inj ht ▸ h, Option.some.inj ht ▸ .skipped (not_purges hskip)⟩
  · have hpurges := purges_of_not hskip
    rw [if_neg hskip] at ht
    obtain ⟨u, hfirst, ht⟩ := bind_eq_some_iff.mp ht
    obtain ⟨hinv, hevicted, hlru, hsize⟩ := h.purge hfirst
    simp only [hevicted.table] at ht
    by_cases hrehash : LRUCacheShard.rehashes s.table.nSlots s.table.keys.length = true
    · obtain ⟨table, l', heq, hinv', hlive, horder⟩ := hinv.rehash
      rw [hevicted.table] at horder
      rw [if_pos hrehash, heq] at ht
      obtain rfl := Option.some.inj ht
      exact ⟨l', hinv', .rebuilt hpurges hevicted hlru hsize hrehash hlive horder⟩
    · rw [if_neg hrehash] at ht
      obtain rfl := Option.some.inj ht
      exact ⟨l, hinv, .purged hpurges hevicted hlru hsize (by simpa using hrehash)⟩

lemma ShardInv.purge_exists (h : ShardInv o s l) (hdummy : ¬ ReadsDummy o force s) :
    ∃ t, s.purgeIfNeeded o force = some t := by
  rw [LRUCacheShard.purgeIfNeeded]
  by_cases hskip : s.size ≤ o.capacity ∧ force = false
  · exact ⟨s, if_pos hskip⟩
  · obtain ⟨u, hfirst⟩ := purgeFirst_isSome (o := o) fun hlru =>
      not_lt.mp fun hrefs => hdummy ⟨purges_of_not hskip, hlru, hrefs⟩
    rw [if_neg hskip, hfirst, bind_some]
    dsimp only
    split_ifs
    · obtain ⟨table, l', heq, -⟩ := (h.purge hfirst).1.rehash
      exact ⟨_, heq⟩
    · exact ⟨_, rfl⟩

end Purge

section Calls
variable [LinearOrder K] {o : Options K} {s : LRUCacheShard K V} {l : List (Ref K)} {id : ℕ}

lemma ShardInv.get_spec (h : ShardInv o s l) (key : K) :
    ∃ t x, s.get o key = some (t, x) ∧
      x = ((l.find? fun r => r.key = key).map Ref.id).filter s.live ∧
      ShardInv o t l ∧ Evicted s t [] ∧ t.size = s.size := by
  obtain ⟨t, x, hget, hx, ⟨rfl, rfl⟩ | ⟨id, hits, rfl, hlive, rfl⟩⟩ := h.get_eq key
  · exact ⟨t, none, hget, hx, h, Evicted.refl t, rfl⟩
  · exact ⟨_, some id, hget, hx, h.hit hlive hits, evicted_hit hits, size_hit hits⟩

lemma ShardInv.insert_spec (h : ShardInv o s l) (key : K) (value : V) :
    ∃ table t l', s.insert o key value = some t ∧ s.put o key value = some (s.add table key value) ∧
      ShardInv o (s.add table key value) (insertKey compareRefs ⟨key, s.handles.length⟩ l) ∧
      table.nSlots = s.table.nSlots ∧ table.keys.length = s.table.keys.length + 1 ∧
        ShardInv o t l' ∧
      PurgeResult o false (s.add table key value) (insertKey compareRefs ⟨key, s.handles.length⟩ l)
        t l' := by
  obtain ⟨table, hput, hslots, hkeys, hadd⟩ := h.put_eq key value
  have hdummy : ¬ ReadsDummy o false (s.add table key value) := fun hdummy =>
    append_ne_nil_of_right_ne_nil _ (cons_ne_nil _ _) hdummy.2.1
  obtain ⟨t, hpurge⟩ := hadd.purge_exists hdummy
  obtain ⟨l', hinv, hresult⟩ := hadd.purgeIfNeeded hpurge
  exact ⟨table, t, l', by rw [LRUCacheShard.insert, hput]; exact hpurge, hput, hadd, hslots, hkeys,
    hinv, hresult⟩

lemma ShardInv.addRef (h : ShardInv o s l) (id : ℕ) : ShardInv o (s.addRef id) l :=
  h.modify (fun _ => rfl) (fun _ => rfl) fun _ _ => Nat.le_add_left 1 _

lemma ShardInv.releaseRef (h : ShardInv o s l) (hrefs : 2 ≤ s.refs id) :
    ShardInv o (s.releaseRef id) l := by
  refine h.modify (fun _ => rfl) (fun _ => rfl) fun x hx => ?_
  rw [LRUCacheShard.refs, hx] at hrefs
  exact Nat.le_sub_one_of_lt hrefs

end Calls

end Mai.CoreLruCache
