import Mai.TableSst

/-! Reading sorted tables (`table/sst-table-reader.cc`): what the iterator and `Get` find in a file
that the builder has written. -/
namespace Mai.TableSstReader
open ByteCodec CoreKeys GroupedList TableFormat TableDataBlock TableSst List Option

section Iteration
variable {r : SstTableReader} {nRestart m i p : ℕ} {blocks : List Entries} {index c : Entries}
  {it : IteratorImpl} {idx : BlockIterator}

structure Opened (r : SstTableReader) (nRestart : ℕ) (blocks : List Entries)
    (index : Entries) : Prop where
  nonempty : ∀ c ∈ blocks, c ≠ []
  keys : index.map Prod.fst = blocks.map (endKey [])
  lastLevel : r.props.lastLevel = false
  indexIterator : ∃ idx, r.newIndexIterator = some (.ok idx) ∧ idx.error = none ∧
    Reads idx (groupsOf nRestart index)
  blockIterator : ∀ (m : ℕ) (c : Entries) (e : Bytes × Bytes), blocks[m]? = some c →
    index[m]? = some e →
    ∀ verify, ∃ b,
    r.newBlockIterator (BlockHandle.read e.2).1 verify = some (.ok b) ∧ b.error = none ∧
    Reads b (groupsOf nRestart c)

def IndexAt (nRestart : ℕ) (index : Entries) (it : IteratorImpl) (m : ℕ) : Prop :=
  it.error = none ∧ ∃ idx, it.index = .ok idx ∧ Reads idx (groupsOf nRestart index) ∧
    At idx (groupsOf nRestart index) m

structure Stands (nRestart : ℕ) (blocks : List Entries) (index : Entries) (it : IteratorImpl)
    (m i : ℕ) : Prop where
  index : IndexAt nRestart index it m
  block : ∃ c b, blocks[m]? = some c ∧ i < c.length ∧ it.block = some (.ok b) ∧
    Reads b (groupsOf nRestart c) ∧
    At b (groupsOf nRestart c) i

lemma Opened.length_eq (h : Opened r nRestart blocks index) : index.length = blocks.length := by
  have hlength := congrArg List.length h.keys
  rwa [length_map, length_map] at hlength

lemma IndexAt.current (h : IndexAt nRestart index it m) : it.index.current = index[m]? := by
  obtain ⟨-, idx, hidx, hreads, hat⟩ := h
  rw [hidx, ← flatten_groupsOf nRestart index]
  exact hreads.current_at hat

lemma IndexAt.lt (h : IndexAt nRestart index it m) : m < index.length := by
  obtain ⟨-, idx, -, -, hat⟩ := h
  rw [← flatten_groupsOf nRestart index]
  exact hat.lt

lemma Opened.saveKeyIfNeed (h : Opened r nRestart blocks index) (it : IteratorImpl) :
    it.saveKeyIfNeed r = it := by
  rw [IteratorImpl.saveKeyIfNeed]
  split
  · rw [h.lastLevel]
    rfl
  · rfl

lemma Opened.current_eq (h : Opened r nRestart blocks index) (it : IteratorImpl) :
    it.current r = it.shown := by
  rw [IteratorImpl.current, h.lastLevel]
  exact Option.map_id'

lemma Opened.current (h : Opened r nRestart blocks index)
    (hat : Stands nRestart blocks index it m i) :
    it.current r = blocks.flatten[offset blocks m + i]? := by
  obtain ⟨c, b, hc, hi, hb, hreads, hblock⟩ := hat.block
  have hcurrent := hreads.current_at hblock
  rw [flatten_groupsOf] at hcurrent
  have hindex : it.index.current.isSome = true := by
    rw [hat.index.current, getElem?_eq_getElem hat.index.lt]
    rfl
  rw [h.current_eq, IteratorImpl.shown, if_pos ⟨hat.index.1, hindex⟩, hb, getElem?_flatten hc hi,
    ← hcurrent]
  rfl

lemma Opened.seekBlock (h : Opened r nRestart blocks index) (hat : IndexAt nRestart index it m)
    (hc : blocks[m]? = some c) (verify toFirst : Bool) :
    ∃ it', IteratorImpl.seekBlock r verify it toFirst = some it' ∧
      Stands nRestart blocks index it' m (if toFirst then 0 else c.length - 1) := by
  obtain ⟨e, he⟩ : ∃ e, index[m]? = some e := ⟨_, getElem?_eq_getElem hat.lt⟩
  obtain ⟨b, hb, herror, hreads⟩ := h.blockIterator m c e hc he verify
  have hne := h.nonempty c (mem_of_getElem? hc)
  have hpos := length_pos_iff.mpr hne
  obtain ⟨b', hb', hreads', hblock⟩ : ∃ b', (if toFirst then b.seekToFirst else b.seekToLast) =
      some b' ∧
      Reads b' (groupsOf nRestart c) ∧
      At b' (groupsOf nRestart c) (if toFirst then 0 else c.length - 1) := by
    cases toFirst with
    | true => exact hreads.seekToFirst herror (groupsOf_ne_nil hne)
    | false =>
      have hlast := hreads.seekToLast herror (groupsOf_ne_nil hne)
      rwa [flatten_groupsOf] at hlast
  refine ⟨{ it with block := some (.ok b') }, ?_, hat, c, b', hc, ?_, rfl, hreads', hblock⟩
  · simp only [IteratorImpl.seekBlock, hat.current, he, hb, BlockIter.move, hb', bind_eq_bind,
      bind_some, map_some]
  · split_ifs <;> omega

lemma Opened.exists_block (h : Opened r nRestart blocks index) (hat : IndexAt nRestart index it m) :
    ∃ c, blocks[m]? = some c := by
  have hlt := hat.lt
  rw [h.length_eq] at hlt
  exact ⟨_, getElem?_eq_getElem hlt⟩

lemma Opened.seekToFirst (h : Opened r nRestart blocks index) (hne : blocks ≠ []) (verify : Bool) :
    ∃ it', (IteratorImpl.new r).bind (IteratorImpl.seekToFirst r verify) = some it' ∧
      Stands nRestart blocks index it' 0 0 := by
  obtain ⟨idx, hidx, herror, hreads⟩ := h.indexIterator
  have hindex : index ≠ [] :=
    ne_nil_of_length_pos (by rw [h.length_eq]; exact length_pos_iff.mpr hne)
  obtain ⟨idx', hidx', hreads', hat⟩ := hreads.seekToFirst herror (groupsOf_ne_nil hindex)
  have hindexAt : IndexAt nRestart index ⟨.ok idx', none, [], none⟩ 0 :=
    ⟨rfl, idx', rfl, hreads', hat⟩
  obtain ⟨c, hc⟩ := h.exists_block hindexAt
  obtain ⟨it', hit', hstands⟩ := h.seekBlock hindexAt hc verify true
  refine ⟨it', ?_, hstands⟩
  simp only [IteratorImpl.new, hidx, IteratorImpl.seekToFirst, BlockIter.move, hidx', hit',
    h.saveKeyIfNeed, bind_eq_bind, bind_some, map_some]

lemma Opened.seekToLast (h : Opened r nRestart blocks index) (hne : blocks ≠ []) (verify : Bool) :
    ∃ it' c, blocks[blocks.length - 1]? = some c ∧
      (IteratorImpl.new r).bind (IteratorImpl.seekToLast r verify) = some it' ∧
      Stands nRestart blocks index it' (blocks.length - 1) (c.length - 1) := by
  obtain ⟨idx, hidx, herror, hreads⟩ := h.indexIterator
  have hindex : index ≠ [] :=
    ne_nil_of_length_pos (by rw [h.length_eq]; exact length_pos_iff.mpr hne)
  obtain ⟨idx', hidx', hreads', hat⟩ := hreads.seekToLast herror (groupsOf_ne_nil hindex)
  rw [flatten_groupsOf, h.length_eq] at hat
  have hindexAt : IndexAt nRestart index ⟨.ok idx', none, [], none⟩ (blocks.length - 1) :=
    ⟨rfl, idx', rfl, hreads', hat⟩
  obtain ⟨c, hc⟩ := h.exists_block hindexAt
  obtain ⟨it', hit', hstands⟩ := h.seekBlock hindexAt hc verify false
  refine ⟨it', c, hc, ?_, hstands⟩
  simp only [IteratorImpl.new, hidx, IteratorImpl.seekToLast, BlockIter.move, hidx', hit',
    h.saveKeyIfNeed, bind_eq_bind, bind_some, map_some]

section Step
variable {move : BlockIterator → Option BlockIterator} {b b' idx' : BlockIterator} {i' m' : ℕ}
  (verify : Bool)

lemma Opened.step_within (h : Opened r nRestart blocks index) (hindex : IndexAt nRestart index it m)
    (hc : blocks[m]? = some c) (hb : it.block = some (.ok b)) (hmove : move b = some b')
    (hreads : Reads b' (groupsOf nRestart c)) (hat : At b' (groupsOf nRestart c) i') :
    ∃ it', it.step r verify move = some it' ∧ Stands nRestart blocks index it' m i' := by
  have hlt := hat.lt
  rw [flatten_groupsOf] at hlt
  have hcurrent : (BlockIter.current (.ok b')) ≠ none := by
    have hshown := hreads.current_at hat
    rw [flatten_groupsOf, getElem?_eq_getElem hlt] at hshown
    exact fun hnone => by cases hshown.symm.trans hnone
  refine ⟨{ it with block := some (.ok b') }, ?_, hindex, c, b', hc, hlt, rfl, hreads, hat⟩
  simp only [IteratorImpl.step, hb, BlockIter.move, hmove, h.saveKeyIfNeed, if_neg hcurrent,
    bind_eq_bind, bind_some, map_some]

lemma Opened.step_over (h : Opened r nRestart blocks index) (herror : it.error = none)
    (hidx : it.index = .ok idx) (hb : it.block = some (.ok b)) (hmove : move b = some b')
    (hend : b'.current = none) (hmove' : move idx = some idx')
    (hreads : Reads idx' (groupsOf nRestart index)) (hat : At idx' (groupsOf nRestart index) m') :
    ∃ it', it.step r verify move = some it' ∧ Stands nRestart blocks index it' m' 0 := by
  have hindex : IndexAt nRestart index { it with block := some (.ok b'), index := .ok idx' } m' :=
    ⟨herror, idx', rfl, hreads, hat⟩
  have hcurrent : BlockIter.current (.ok b') = none := hend
  obtain ⟨c, hc⟩ := h.exists_block hindex
  obtain ⟨it', hit', hstands⟩ := h.seekBlock hindex hc verify true
  refine ⟨it', ?_, hstands⟩
  simp only [IteratorImpl.step, hb, hidx, BlockIter.move, hmove, hmove', hit', h.saveKeyIfNeed,
    if_pos hcurrent, bind_eq_bind, bind_some, map_some]

lemma Opened.step_end (h : Opened r nRestart blocks index) (hidx : it.index = .ok idx)
    (hb : it.block = some (.ok b)) (hmove : move b = some b') (hend : b'.current = none)
    (hmove' : move idx = some idx') (hend' : idx'.current = none) :
    ∃ it', it.step r verify move = some it' ∧ it'.current r = none := by
  have hcurrent : BlockIter.current (.ok b') = none := hend
  have hcurrent' : BlockIter.current (.ok idx') = none := hend'
  refine ⟨{ it with block := some (.ok b'), index := .ok idx' }, ?_, ?_⟩
  · simp only [IteratorImpl.step, hb, hidx, BlockIter.move, hmove, hmove', h.saveKeyIfNeed,
      if_pos hcurrent, IteratorImpl.seekBlock, hcurrent', bind_eq_bind, bind_some, map_some]
  · rw [h.current_eq, IteratorImpl.shown, if_neg]
    rintro ⟨-, hsome⟩
    rw [hcurrent'] at hsome
    cases hsome

end Step

lemma Opened.next (h : Opened r nRestart blocks index) (hat : Stands nRestart blocks index it m i)
    (hc : blocks[m]? = some c) (verify : Bool) : ∃ it', it.next r verify = some it' ∧
      (i + 1 < c.length → Stands nRestart blocks index it' m (i + 1)) ∧
      (i + 1 = c.length → m + 1 < blocks.length → Stands nRestart blocks index it' (m + 1) 0) ∧
      (i + 1 = c.length → m + 1 = blocks.length → it'.current r = none) := by
  obtain ⟨⟨herror, idx, hidx, hreads, hindex⟩, c', b, hc', hi, hb, hreadsBlock, hblock⟩ := hat
  obtain rfl := Option.some.inj (hc.symm.trans hc')
  obtain ⟨b', hb', hreads', hmore, hend⟩ := hreadsBlock.next_at hblock
  obtain ⟨idx', hidx', hreadsIdx, hmoreIdx, hendIdx⟩ := hreads.next_at hindex
  rw [flatten_groupsOf] at hmore hend hmoreIdx hendIdx
  rw [h.length_eq] at hmoreIdx hendIdx
  have hm := (List.getElem?_eq_some_iff.mp hc).1
  rcases Nat.lt_or_ge (i + 1) c.length with hlt | hge
  · obtain ⟨it', hit', hstands⟩ :=
      h.step_within verify ⟨herror, idx, hidx, hreads, hindex⟩ hc hb hb' hreads'
      (hmore hlt)
    exact ⟨it', hit', fun _ => hstands, fun heq => by omega, fun heq => by omega⟩
  · have heq : i + 1 = c.length := by omega
    rcases Nat.lt_or_ge (m + 1) blocks.length with hlt' | hge'
    · obtain ⟨it', hit', hstands⟩ :=
        h.step_over verify herror hidx hb hb' (hend heq) hidx' hreadsIdx
        (hmoreIdx hlt')
      exact ⟨it', hit', fun hlt => by omega, fun _ _ => hstands, fun _ heq' => by omega⟩
    · have heq' : m + 1 = blocks.length := by omega
      obtain ⟨it', hit', hcurrent⟩ := h.step_end verify hidx hb hb' (hend heq) hidx' (hendIdx heq')
      exact ⟨it', hit', fun hlt => by omega, fun _ hlt => by omega, fun _ _ => hcurrent⟩

lemma Opened.prev (h : Opened r nRestart blocks index) (hat : Stands nRestart blocks index it m i)
    (verify : Bool) :
    ∃ it', it.prev r verify = some it' ∧ (0 < i → Stands nRestart blocks index it' m (i - 1)) ∧
      (i = 0 → 0 < m → Stands nRestart blocks index it' (m - 1) 0) ∧
        (i = 0 → m = 0 → it'.current r = none) := by
  obtain ⟨⟨herror, idx, hidx, hreads, hindex⟩, c, b, hc, hi, hb, hreadsBlock, hblock⟩ := hat
  obtain ⟨b', hb', hreads', hmore, hend⟩ := hreadsBlock.prev_at hblock
  obtain ⟨idx', hidx', hreadsIdx, hmoreIdx, hendIdx⟩ := hreads.prev_at hindex
  rcases Nat.eq_zero_or_pos i with hzero | hpos
  · rcases Nat.eq_zero_or_pos m with hzero' | hpos'
    · obtain ⟨it', hit', hcurrent⟩ :=
        h.step_end verify hidx hb hb' (hend hzero) hidx' (hendIdx hzero')
      exact ⟨it', hit', fun hlt => by omega, fun _ hlt => by omega, fun _ _ => hcurrent⟩
    · obtain ⟨it', hit', hstands⟩ :=
        h.step_over verify herror hidx hb hb' (hend hzero) hidx' hreadsIdx
        (hmoreIdx hpos')
      exact ⟨it', hit', fun hlt => by omega, fun _ _ => hstands, fun _ heq => by omega⟩
  · obtain ⟨it', hit', hstands⟩ :=
      h.step_within verify ⟨herror, idx, hidx, hreads, hindex⟩ hc hb hb' hreads'
      (hmore hpos)
    exact ⟨it', hit', fun _ => hstands, fun heq => by omega, fun heq => by omega⟩

def Place (nRestart : ℕ) (blocks : List Entries) (index : Entries) (it : IteratorImpl)
    (p : ℕ) : Prop :=
  ∃ m i, Stands nRestart blocks index it m i ∧ p = offset blocks m + i

lemma Opened.current_place (h : Opened r nRestart blocks index)
    (hp : Place nRestart blocks index it p) :
    it.current r = blocks.flatten[p]? := by
  obtain ⟨m, i, hstands, rfl⟩ := hp
  exact h.current hstands

lemma Opened.next_place (h : Opened r nRestart blocks index) (hp : Place nRestart blocks index it p)
    (verify : Bool) :
    ∃ it', it.next r verify = some it' ∧
      (p + 1 < blocks.flatten.length → Place nRestart blocks index it' (p + 1)) ∧
      (p + 1 = blocks.flatten.length → it'.current r = none) := by
  obtain ⟨m, i, hstands, rfl⟩ := hp
  obtain ⟨c, b, hc, hi, -⟩ := hstands.block
  obtain ⟨it', hit', hwithin, hover, hend⟩ := h.next hstands hc verify
  have hoffset := offset_succ hc
  have hm := (List.getElem?_eq_some_iff.mp hc).1
  refine ⟨it', hit', fun hlt => ?_, fun heq => ?_⟩
  · rcases Nat.lt_or_ge (i + 1) c.length with hlt' | hge
    · exact ⟨m, i + 1, hwithin hlt', by omega⟩
    · have hm' : m + 1 < blocks.length := by
        by_contra hnot
        have hlast : m + 1 = blocks.length := by omega
        rw [hlast, offset_length] at hoffset
        omega
      exact ⟨m + 1, 0, hover (by omega) hm', by omega⟩
  · have hm' : m + 1 = blocks.length := by
      by_contra hnot
      obtain ⟨c', hc'⟩ : ∃ c', blocks[m + 1]? = some c' := ⟨_, getElem?_eq_getElem (by omega)⟩
      have hpos := length_pos_iff.mpr (h.nonempty c' (mem_of_getElem? hc'))
      have hlt := place_lt hc' hpos
      omega
    rw [← offset_length, ← hm'] at heq
    exact hend (by omega) hm'

lemma Place.lt (hp : Place nRestart blocks index it p) : p < blocks.flatten.length := by
  obtain ⟨m, i, hstands, rfl⟩ := hp
  obtain ⟨c, b, hc, hi, -⟩ := hstands.block
  exact place_lt hc hi

lemma Opened.flatten_pos (h : Opened r nRestart blocks index) (hne : blocks ≠ []) :
    0 < blocks.flatten.length := by
  obtain ⟨c, rest, rfl⟩ := exists_cons_of_ne_nil hne
  have hc := length_pos_iff.mpr (h.nonempty c (by simp))
  rw [flatten_cons, length_append]
  omega

lemma bind_times_succ (x : Option IteratorImpl) (move : IteratorImpl → Option IteratorImpl)
    (n : ℕ) :
    x.bind (IteratorImpl.times move (n + 1)) = (x.bind (IteratorImpl.times move n)).bind move := by
  cases x <;> rfl

lemma Opened.forward (h : Opened r nRestart blocks index) (hne : blocks ≠ []) (verify : Bool)
    {j : ℕ} (hj : j < blocks.flatten.length) :
    ∃ it, ((IteratorImpl.new r).bind (IteratorImpl.seekToFirst r verify)).bind
      (IteratorImpl.times (IteratorImpl.next r verify) j) = some it ∧
        Place nRestart blocks index it j := by
  induction j with
  | zero =>
    obtain ⟨it, hit, hstands⟩ := h.seekToFirst hne verify
    exact ⟨it, by rw [hit]; rfl, 0, 0, hstands, rfl⟩
  | succ j ih =>
    obtain ⟨it, hit, hplace⟩ := ih (by omega)
    obtain ⟨it', hit', hmore, -⟩ := h.next_place hplace verify
    refine ⟨it', ?_, hmore hj⟩
    rw [bind_times_succ, hit]
    exact hit'

end Iteration

section Get
variable {r : SstTableReader} {nRestart : ℕ} {blocks : List Entries} {index c : Entries}
  {compare : Bytes → Bytes → Ordering} {target : Bytes}

lemma exists_endKey (hc : c ≠ []) : ∃ front e, c = front ++ [e] ∧ endKey [] c = e.1 := by
  refine ⟨c.dropLast, c.getLast hc, (dropLast_append_getLast hc).symm, ?_⟩
  rw [endKey, getLast?_eq_some_getLast hc]
  rfl

lemma endKey_iff [Std.TransCmp compare] (hc : c ≠ [])
    (hsorted : c.Pairwise fun a b => compare a.1 b.1 = .lt) :
    compare (endKey [] c) target ≠ .lt ↔ ∃ e ∈ c, compare e.1 target ≠ .lt := by
  obtain ⟨front, last, rfl, hlast⟩ := exists_endKey hc
  rw [hlast]
  constructor
  · exact fun h => ⟨last, by simp, h⟩
  · rintro ⟨e, he, hnot⟩ hlt
    rcases mem_append.mp he with he | he
    · exact hnot (Std.TransCmp.lt_trans ((pairwise_append.mp hsorted).2.2 e he last (by simp)) hlt)
    · rw [mem_singleton.mp he] at hnot
      exact hnot hlt

lemma Opened.index_sorted (h : Opened r nRestart blocks index)
    (hsorted : blocks.flatten.Pairwise fun a b => compare a.1 b.1 = .lt) :
    index.Pairwise fun a b => compare a.1 b.1 = .lt := by
  have hblocks : blocks.Pairwise fun a b => compare (endKey [] a) (endKey [] b) = .lt := by
    refine (pairwise_flatten.mp hsorted).2.imp_of_mem fun {a b} ha hb hab => ?_
    obtain ⟨_, x, rfl, hx⟩ := exists_endKey (h.nonempty a ha)
    obtain ⟨_, y, rfl, hy⟩ := exists_endKey (h.nonempty b hb)
    rw [hx, hy]
    exact hab x (by simp) y (by simp)
  have hkeys : (index.map Prod.fst).Pairwise fun a b => compare a b = .lt := by
    rw [h.keys]
    exact pairwise_map.mpr hblocks
  exact pairwise_map.mp hkeys

lemma Opened.find_block (h : Opened r nRestart blocks index) (compare : Bytes → Bytes → Ordering)
    (target : Bytes) :
    (blocks.find? fun c => compare (endKey [] c) target ≠ .lt) =
      blocks[seekIndex compare index target]? := by
  have hfind := congrArg (List.findIdx fun key => compare key target ≠ .lt) h.keys
  rw [findIdx_map, findIdx_map] at hfind
  rw [find?_eq_getElem?_findIdx]
  exact congrArg (blocks[·]?) hfind.symm

/-- What `Get` does with the first entry that is not before the target. -/
def answer (target : Bytes) (e : Bytes × Bytes) : Except Error ((ℕ × ℕ) × Bytes) :=
  if some (parseTaggedKey e.1).userKey ≠ extractUserKey target
    then .error (.notFound "Key not seeked!")
  else .ok (((parseTaggedKey e.1).sequenceNumber, (parseTaggedKey e.1).flag), e.2)

lemma Opened.get_eq [Std.TransCmp compare] (h : Opened r nRestart blocks index) (hne : blocks ≠ [])
    (hsorted : blocks.flatten.Pairwise fun a b => compare a.1 b.1 = .lt) (verify : Bool)
    (target : Bytes) :
    r.get compare verify target = some
      (match blocks.flatten.find? fun e => compare e.1 target ≠ .lt with
        | none => .error (.notFound "Index Seek()")
        | some e => answer target e) := by
  obtain ⟨idx, hidx, herror, hreads⟩ := h.indexIterator
  have hindex : index ≠ [] :=
    ne_nil_of_length_pos (by rw [h.length_eq]; exact length_pos_iff.mpr hne)
  obtain ⟨idx', hseek, hcurrent⟩ :=
    hreads.seek_current herror hindex (h.index_sorted hsorted) target
  have hfind : blocks.flatten.find? (fun e => compare e.1 target ≠ .lt) =
      (blocks.find? fun c => compare (endKey [] c) target ≠ .lt).bind (List.find? fun e =>
        compare e.1 target ≠ .lt) :=
    find?_flatten fun c hc => by
      simpa using endKey_iff (h.nonempty c hc) ((pairwise_flatten.mp hsorted).1 c hc)
  rw [hfind]
  have hblock := h.find_block compare target
  have hindexCurrent : BlockIter.current (.ok idx') = index[seekIndex compare index target]? :=
    hcurrent
  cases hfound : blocks.find? fun c => compare (endKey [] c) target ≠ .lt with
  | none =>
    rw [hfound, eq_comm, List.getElem?_eq_none_iff, ← h.length_eq] at hblock
    rw [getElem?_eq_none hblock] at hindexCurrent
    simp only [SstTableReader.get, hidx, BlockIter.move, hseek, hindexCurrent, bind_eq_bind,
      bind_some, map_some, bind_none]
  | some c =>
    rw [hfound, eq_comm] at hblock
    obtain ⟨e, he⟩ : ∃ e, index[seekIndex compare index target]? = some e :=
      ⟨_, getElem?_eq_getElem (by rw [h.length_eq]; exact (List.getElem?_eq_some_iff.mp hblock).1)⟩
    have hmem := mem_of_getElem? hblock
    have hcne := h.nonempty c hmem
    have hcsorted := (pairwise_flatten.mp hsorted).1 c hmem
    obtain ⟨b, hb, hberror, hbreads⟩ := h.blockIterator _ c e hblock he verify
    obtain ⟨b', hb', hbcurrent⟩ := hbreads.seek_current hberror hcne hcsorted target
    have hlast := find?_some hfound
    obtain ⟨x, hx⟩ : ∃ x, (c.find? fun e => compare e.1 target ≠ .lt) = some x :=
      isSome_iff_exists.mp
        (find?_isSome.mpr (by simpa using (endKey_iff hcne hcsorted).mp (by simpa using hlast)))
    have hblockCurrent : BlockIter.current (.ok b') = some x := by
      rw [← hx, find?_eq_getElem?_findIdx]
      exact hbcurrent
    rw [he] at hindexCurrent
    simp only [SstTableReader.get, hidx, BlockIter.move, hseek, hindexCurrent, hb, hb',
      hblockCurrent, hx, bind_eq_bind, bind_some, map_some, answer]
    split_ifs <;> rfl

end Get

section File
variable {o : Options} {es : List (Entry Bytes)} {file front : Bytes} {props : TableProperties}
  {r : SstTableReader}

lemma newBlockIterator_written {bh : BlockHandle} {nRestart : ℕ} {l : Entries}
    (h : Written r.file bh (block nRestart l)) (hr : 0 < nRestart) (hl : l ≠ [])
    (hsize : (block nRestart l).length < 2 ^ 32) (verify : Bool) :
    ∃ it, r.newBlockIterator bh verify = some (.ok it) ∧ it.error = none ∧
      Reads it (groupsOf nRestart l) := by
  obtain ⟨it, hit, herror, hreads⟩ := new_block hr hl hsize 0 0
  refine ⟨it, ?_, herror, hreads⟩
  simp only [SstTableReader.newBlockIterator, getOrLoad, h.readBlockOr, hit, map_some]

lemma storedAll_ne_nil (hne : es ≠ []) : storedAll es ≠ [] := by simpa [storedAll] using hne

lemma opened_of_finished (h : Finished o es file front props) (hfits : Fits o es file)
    (hne : es ≠ []) (verify : Bool) :
    ∃ r, SstTableReader.prepare file verify = .ok r ∧
      Opened r o.nRestart (dataBlocks o (storedAll es)) (tableLayout o es).2 := by
  obtain ⟨hprepare, hposition, hsize⟩ := h.prepare hfits verify
  refine ⟨_, hprepare, dataBlocks_nonempty, layout_keys _ _, h.lastLevel, ?_,
    fun m c e hc he verify' => ?_⟩
  · have hlayout : (tableLayout o es).2 ≠ [] := by
      rw [← length_pos_iff, tableLayout, length_layout, length_pos_iff]
      exact dataBlocks_ne_nil o (storedAll_ne_nil hne)
    have hindex := hfits.index
    refine newBlockIterator_written ?_ o.nRestart_pos hlayout (by omega) verify
    rw [hposition, hsize]
    exact h.index
  · obtain ⟨bh, hbh, hwritten⟩ := layout_written o.nRestart hc
    obtain rfl := Option.some.inj (he.symm.trans hbh)
    obtain ⟨more, hmore⟩ := h.blocks
    have hread : (BlockHandle.read bh.encode).1 = bh := by
      rw [← append_nil bh.encode, BlockHandle.read_encode]
    have hmem := mem_of_getElem? hc
    refine newBlockIterator_written ?_ o.nRestart_pos (dataBlocks_nonempty c hmem)
      (hfits.blocks c hmem) verify'
    rw [hread]
    exact hmore ▸ hwritten.append more

lemma exists_opened (hne : es ≠ []) (hseq : ∀ e ∈ es, e.sequenceNumber ≤ kMaxSequenceNumber)
    (hfits : ∀ file, SstTableBuilder.build o es = some file → Fits o es file) (verify : Bool) :
    ∃ file r, SstTableBuilder.build o es = some file ∧ SstTableReader.prepare file verify = .ok r ∧
      Opened r o.nRestart (dataBlocks o (storedAll es)) (tableLayout o es).2 := by
  obtain ⟨b, hb, hbuilt⟩ := built_foldlM es (built_new o) hseq
  rw [nil_append] at hbuilt
  obtain ⟨file, front, props, hfinish, hfinished⟩ := hbuilt.finish hne
  have hbuild : SstTableBuilder.build o es = some file := by
    rw [SstTableBuilder.build, hb]
    exact hfinish
  obtain ⟨r, hprepare, hopened⟩ := opened_of_finished hfinished (hfits file hbuild) hne verify
  exact ⟨file, r, hbuild, hprepare, hopened⟩

end File

section Results
variable {o : Options} {es : List (Entry Bytes)} {r : SstTableReader}

/-- The iterator lists the entries with `SeekToFirst` and `Next`, and is invalid after the last
one. -/
def ListsForward (r : SstTableReader) (verify : Bool) (l : Entries) : Prop :=
  ∀ j ≤ l.length, ∃ it, ((IteratorImpl.new r).bind (IteratorImpl.seekToFirst r verify)).bind
    (IteratorImpl.times (IteratorImpl.next r verify) j) = some it ∧ it.current r = l[j]?

/-- `Get` returns the first entry that is not before the lookup key if it is one of the user key. -/
def GetsFirst (r : SstTableReader) (verify : Bool) (es : List (Entry Bytes)) : Prop :=
  ∀ k, ∀ s ≤ kMaxSequenceNumber, match seekEntry es k s with
    | some e => r.get compareKeys verify (keyBytes (makeKey k s .valueForSeek)) =
        some (.ok (tagOf e.key, e.value))
    | none => ∃ message,
      r.get compareKeys verify (keyBytes (makeKey k s .valueForSeek)) =
      some (.error (.notFound message))

def ReadsBack (es : List (Entry Bytes)) (checksumVerify verify : Bool) (file : Bytes) : Prop :=
  ∃ r, SstTableReader.prepare file checksumVerify = .ok r ∧
    ListsForward r verify (es.map (stored false)) ∧
    GetsFirst r verify es

lemma Opened.listsForward {nRestart : ℕ} {blocks : List Entries} {index : Entries}
    (h : Opened r nRestart blocks index) (hne : blocks ≠ []) (verify : Bool) :
    ListsForward r verify blocks.flatten := by
  intro j hj
  rcases Nat.lt_or_ge j blocks.flatten.length with hlt | hge
  · obtain ⟨it, hit, hplace⟩ := h.forward hne verify hlt
    exact ⟨it, hit, h.current_place hplace⟩
  · have hpos := h.flatten_pos hne
    obtain ⟨it, hit, hplace⟩ := h.forward hne verify (Nat.sub_lt hpos Nat.one_pos)
    obtain ⟨it', hit', -, hend⟩ := h.next_place hplace verify
    have hj' : j = blocks.flatten.length - 1 + 1 := by omega
    refine ⟨it', ?_, ?_⟩
    · rw [hj', bind_times_succ, hit]
      exact hit'
    · rw [getElem?_eq_none hge]
      exact hend (by omega)

lemma firstIsZero_of_shown {i : ℕ} (hi : i < es.length)
    (h : (storedAll es)[i]? = (es.map (stored false))[i]?) :
    firstIsZero es = false := by
  cases hzero : firstIsZero es with
  | false => rfl
  | true =>
    rw [storedAll, hzero, getElem?_map, getElem?_map, getElem?_eq_getElem hi] at h
    have hkey : es[i].key.userKey = keyBytes es[i].key := congrArg Prod.fst (Option.some.inj h)
    have hlength := congrArg List.length hkey
    rw [length_keyBytes] at hlength
    omega

lemma stored_sorted (hsorted : SortedEntries es)
    (hseq : ∀ e ∈ es, e.sequenceNumber ≤ kMaxSequenceNumber) :
    (es.map (stored false)).Pairwise fun a b => compareKeys a.1 b.1 = .lt := by
  refine pairwise_map.mpr (hsorted.imp_of_mem fun {a b} ha hb hab => ?_)
  exact (compareKeys_keyBytes (hseq a ha) (hseq b hb)).trans hab

lemma find_stored {k : Bytes} {s : ℕ} (hseq : ∀ e ∈ es, e.sequenceNumber ≤ kMaxSequenceNumber)
    (hs : s ≤ kMaxSequenceNumber) :
    ((es.map (stored false)).find? fun e => compareKeys e.1 (keyBytes (makeKey k s .valueForSeek)) ≠
      .lt) =
      (seek es (makeKey k s .valueForSeek)).map (stored false) := by
  rw [find?_map, seek]
  congr 1
  refine find?_congr fun e he => ?_
  have hcompare : compareKeys (stored false e).1 (keyBytes (makeKey k s .valueForSeek)) =
      e.key.compare (makeKey k s .valueForSeek) := compareKeys_keyBytes (hseq e he) hs
  simp only [Function.comp, hcompare]

lemma flatten_of_ne_zero (o : Options) (h : firstIsZero es = false) :
    (dataBlocks o (storedAll es)).flatten = es.map (stored false) := by
  rw [flatten_dataBlocks, storedAll, h]

lemma Opened.getsFirst {nRestart : ℕ} {blocks : List Entries} {index : Entries}
    (h : Opened r nRestart blocks index) (hne : blocks ≠ [])
    (hblocks : blocks.flatten = es.map (stored false)) (hsorted : SortedEntries es)
    (hseq : ∀ e ∈ es, e.sequenceNumber ≤ kMaxSequenceNumber) (verify : Bool) :
    GetsFirst r verify es := by
  intro k s hs
  have hget := h.get_eq hne (hblocks ▸ stored_sorted hsorted hseq) verify
    (keyBytes (makeKey k s .valueForSeek))
  rw [hblocks, find_stored hseq hs] at hget
  rw [hget, seekEntry]
  cases hseek : seek es (makeKey k s .valueForSeek) with
  | none => exact ⟨_, rfl⟩
  | some e =>
    have he : e ∈ es := mem_of_find?_eq_some hseek
    have hanswer : answer (keyBytes (makeKey k s .valueForSeek)) (stored false e) =
        if e.userKey ≠ k then .error (.notFound "Key not seeked!")
        else .ok (tagOf e.key, e.value) := by
      have hparse : parseTaggedKey (stored false e).1 =
          ⟨e.userKey, (tagOf e.key).1, (tagOf e.key).2⟩ :=
        parseTaggedKey_keyBytes (hseq e he)
      simp only [answer, hparse, extractUserKey_keyBytes, ne_eq, Option.some.injEq]
      rfl
    simp only [map_some, hanswer, filter_some]
    by_cases hk : e.userKey = k
    · simp [hk]
    · simp [hk]

/-- A sorted table reads back what has been built exactly if its first sequence number is not 0. -/
theorem sstReadsBack_iff (o : Options) {es : List (Entry Bytes)} (hne : es ≠ [])
    (hsorted : SortedEntries es) (hseq : ∀ e ∈ es, e.sequenceNumber ≤ kMaxSequenceNumber)
    (hfits : ∀ file, SstTableBuilder.build o es = some file → Fits o es file)
    (checksumVerify verify : Bool) :
    (∃ file, SstTableBuilder.build o es = some file ∧ ReadsBack es checksumVerify verify file) ↔
      firstIsZero es = false := by
  obtain ⟨file, r, hbuild, hprepare, hopened⟩ := exists_opened hne hseq hfits checksumVerify
  have hblocks := dataBlocks_ne_nil o (storedAll_ne_nil hne)
  have hforward := hopened.listsForward hblocks verify
  constructor
  · rintro ⟨file', hbuild', r', hprepare', hlists, -⟩
    obtain rfl := Option.some.inj (hbuild.symm.trans hbuild')
    obtain rfl := Except.ok.inj (hprepare.symm.trans hprepare')
    obtain ⟨it, hit, hcurrent⟩ := hforward 0 (Nat.zero_le _)
    obtain ⟨it', hit', hcurrent'⟩ := hlists 0 (Nat.zero_le _)
    obtain rfl := Option.some.inj (hit.symm.trans hit')
    rw [flatten_dataBlocks] at hcurrent
    exact firstIsZero_of_shown (length_pos_iff.mpr hne) (hcurrent.symm.trans hcurrent')
  · intro hzero
    have hflatten := flatten_of_ne_zero o hzero
    rw [hflatten] at hforward
    exact ⟨file, hbuild, r, hprepare, hforward,
      hopened.getsFirst hblocks hflatten hsorted hseq verify⟩

def smallBlocks : Options where
  hashes := [fun key => UInt32.ofNat (key.headD 0).toNat]
  blockSize := 516
  nRestart := 3
  approximatedNEntries := 0
  blockSize_dvd := by decide
  blockSize_ge := by decide
  blockSize_lt := by decide
  nRestart_pos := by decide

def fitsCheck (o : Options) (es : List (Entry Bytes)) : Bool :=
  ((SstTableBuilder.build o es).all fun file => file.length < 2 ^ 64) &&
    (dataBlocks o (storedAll es)).all (fun c => (block o.nRestart c).length < 2 ^ 32) &&
    decide (4 + (block o.nRestart (tableLayout o es).2).length < 2 ^ 32) &&
      decide (filterSize o < 2 ^ 32)

lemma fits_of_fitsCheck (h : fitsCheck o es = true) (file : Bytes)
    (hfile : SstTableBuilder.build o es = some file) :
    Fits o es file := by
  simp only [fitsCheck, hfile, all_some, Bool.and_eq_true, List.all_eq_true,
    decide_eq_true_iff] at h
  exact ⟨h.1.1.1, h.1.1.2, h.1.2, h.2⟩

def threeKeys : List (Entry Bytes) :=
  [⟨makeKey [1] 9 .value, [5]⟩, ⟨makeKey [2] 7 .deletion, []⟩, ⟨makeKey [3] 0 .value, [6]⟩]

theorem sstReadsBack_threeKeys : ∃ file, SstTableBuilder.build smallBlocks threeKeys = some file ∧
    ReadsBack threeKeys true true file :=
  (sstReadsBack_iff smallBlocks (by decide) (by decide) (by decide)
    (fits_of_fitsCheck (by decide +kernel)) true
    true).mpr (by decide)

def zeroKey : List (Entry Bytes) := [⟨makeKey [1] 0 .value, [5]⟩]

/-- The tag of a key with sequence number 0 is not there when the key is read. -/
theorem sst_tag_lost : (SstTableBuilder.build smallBlocks zeroKey).map (fun file =>
      (SstTableReader.prepare file false).map fun r =>
        ((IteratorImpl.new r).bind (IteratorImpl.seekToFirst r true)).map (IteratorImpl.current r))
        =
      some (.ok (some (some ([1], [5])))) ∧
    zeroKey.map (stored false) = [([1, 0, 0, 0, 0, 0, 0, 0, 0], [5])] := by
  decide +kernel

section Backward
variable {nRestart m i p : ℕ} {blocks : List Entries} {index : Entries} {it : IteratorImpl}
  {verify : Bool}

/-- The iterators that `SeekToFirst`, `SeekToLast`, `Next` and `Prev` lead to. -/
inductive Reached (r : SstTableReader) (verify : Bool) : IteratorImpl → Prop
  | first {it : IteratorImpl}
      (h : (IteratorImpl.new r).bind (IteratorImpl.seekToFirst r verify) = some it) :
      Reached r verify it
  | last {it : IteratorImpl}
      (h : (IteratorImpl.new r).bind (IteratorImpl.seekToLast r verify) = some it) :
      Reached r verify it
  | next {it it' : IteratorImpl} (h : Reached r verify it) (hvalid : it.current r ≠ none)
      (hnext : it.next r verify = some it') : Reached r verify it'
  | prev {it it' : IteratorImpl} (h : Reached r verify it) (hvalid : it.current r ≠ none)
      (hprev : it.prev r verify = some it') : Reached r verify it'

/-- The iterator lists the entries in reverse with `SeekToLast` and `Prev`, and is invalid after the
first one. -/
def ListsBackward (r : SstTableReader) (verify : Bool) (l : Entries) : Prop :=
  ∀ j ≤ l.length, ∃ it, ((IteratorImpl.new r).bind (IteratorImpl.seekToLast r verify)).bind
    (IteratorImpl.times (IteratorImpl.prev r verify) j) = some it ∧ it.current r = l.reverse[j]?

def Returns (r : SstTableReader) (verify : Bool) (l : Entries) : Prop :=
  ∀ it, Reached r verify it → ∀ i, 0 < i → i + 1 < l.length → it.current r = l[i]? →
    (∃ it', (it.prev r verify).bind (IteratorImpl.next r verify) = some it' ∧
      it'.current r = l[i]?) ∧
    ∃ it', (it.next r verify).bind (IteratorImpl.prev r verify) = some it' ∧ it'.current r = l[i]?

def Reverses (es : List (Entry Bytes)) (checksumVerify verify : Bool) (file : Bytes) : Prop :=
  ∃ r, SstTableReader.prepare file checksumVerify = .ok r ∧
    ListsBackward r verify (es.map (stored false)) ∧
    Returns r verify (es.map (stored false))

def SingleEntries (blocks : List Entries) : Prop := ∀ c ∈ blocks.dropLast, c.length = 1

instance (blocks : List Entries) : Decidable (SingleEntries blocks) :=
  inferInstanceAs (Decidable (∀ c ∈ blocks.dropLast, c.length = 1))

lemma SingleEntries.length_eq {c : Entries} (h : SingleEntries blocks) (hm : m + 1 < blocks.length)
    (hc : blocks[m]? = some c) : c.length = 1 := by
  refine h c (mem_of_getElem? (i := m) ?_)
  rw [getElem?_dropLast, if_pos (by omega), hc]

lemma Opened.prev_place (h : Opened r nRestart blocks index) (hsingle : SingleEntries blocks)
    (hp : Place nRestart blocks index it p) (verify : Bool) : ∃ it', it.prev r verify = some it' ∧
      (0 < p → Place nRestart blocks index it' (p - 1)) ∧ (p = 0 → it'.current r = none) := by
  obtain ⟨m, i, hstands, rfl⟩ := hp
  obtain ⟨it', hit', hwithin, hover, hend⟩ := h.prev hstands verify
  refine ⟨it', hit', ?_⟩
  rcases Nat.eq_zero_or_pos i with rfl | hi
  · rcases Nat.eq_zero_or_pos m with rfl | hm
    · exact ⟨fun hpos => by simp [offset] at hpos, fun _ => hend rfl rfl⟩
    · have hlt := hstands.index.lt
      rw [h.length_eq] at hlt
      obtain ⟨c, hc⟩ : ∃ c, blocks[m - 1]? = some c := ⟨_, getElem?_eq_getElem (by omega)⟩
      have hone := hsingle.length_eq (by omega) hc
      have hoffset := offset_succ hc
      rw [Nat.sub_add_cancel hm] at hoffset
      exact ⟨fun _ => ⟨m - 1, 0, hover rfl hm, by omega⟩, fun hzero => by omega⟩
  · exact ⟨fun _ => ⟨m, i - 1, hwithin hi, by omega⟩, fun hzero => by omega⟩

lemma Opened.last_place (h : Opened r nRestart blocks index) (hne : blocks ≠ []) (verify : Bool) :
    ∃ it, (IteratorImpl.new r).bind (IteratorImpl.seekToLast r verify) = some it ∧
      Place nRestart blocks index it (blocks.flatten.length - 1) := by
  obtain ⟨it, c, hc, hit, hstands⟩ := h.seekToLast hne verify
  have hpos := length_pos_iff.mpr hne
  have hc' := length_pos_iff.mpr (h.nonempty c (mem_of_getElem? hc))
  have hoffset := offset_succ hc
  rw [Nat.sub_add_cancel hpos, offset_length] at hoffset
  exact ⟨it, hit, _, _, hstands, by omega⟩

lemma Opened.backward (h : Opened r nRestart blocks index) (hne : blocks ≠ [])
    (hsingle : SingleEntries blocks) (verify : Bool) {j : ℕ} (hj : j < blocks.flatten.length) :
    ∃ it, ((IteratorImpl.new r).bind (IteratorImpl.seekToLast r verify)).bind
      (IteratorImpl.times (IteratorImpl.prev r verify) j) = some it ∧
        Place nRestart blocks index it (blocks.flatten.length - 1 - j) := by
  induction j with
  | zero =>
    obtain ⟨it, hit, hplace⟩ := h.last_place hne verify
    exact ⟨it, by rw [hit]; rfl, hplace⟩
  | succ j ih =>
    obtain ⟨it, hit, hplace⟩ := ih (by omega)
    obtain ⟨it', hit', hmore, -⟩ := h.prev_place hsingle hplace verify
    refine ⟨it', ?_, Nat.sub_sub _ j 1 ▸ hmore (by omega)⟩
    rw [bind_times_succ, hit]
    exact hit'

lemma Opened.listsBackward (h : Opened r nRestart blocks index) (hne : blocks ≠ [])
    (hsingle : SingleEntries blocks) (verify : Bool) : ListsBackward r verify blocks.flatten := by
  intro j hj
  rcases Nat.lt_or_ge j blocks.flatten.length with hlt | hge
  · obtain ⟨it, hit, hplace⟩ := h.backward hne hsingle verify hlt
    exact ⟨it, hit, by rw [h.current_place hplace, getElem?_reverse hlt]⟩
  · have hpos := h.flatten_pos hne
    obtain ⟨it, hit, hplace⟩ := h.backward hne hsingle verify (Nat.sub_lt hpos Nat.one_pos)
    obtain ⟨it', hit', -, hend⟩ := h.prev_place hsingle hplace verify
    have hj' : j = blocks.flatten.length - 1 + 1 := by omega
    refine ⟨it', ?_, ?_⟩
    · rw [hj', bind_times_succ, hit]
      exact hit'
    · rw [getElem?_eq_none (by rw [length_reverse]; exact hge)]
      exact hend (by omega)

lemma Opened.reached_place (h : Opened r nRestart blocks index) (hne : blocks ≠ [])
    (hsingle : SingleEntries blocks) (hreached : Reached r verify it) :
    (∃ p, Place nRestart blocks index it p) ∨ it.current r = none := by
  induction hreached with
  | first hfirst =>
    obtain ⟨it, hit, hstands⟩ := h.seekToFirst hne verify
    obtain rfl := Option.some.inj (hit.symm.trans hfirst)
    exact .inl ⟨_, 0, 0, hstands, rfl⟩
  | last hlast =>
    obtain ⟨it, hit, hplace⟩ := h.last_place hne verify
    obtain rfl := Option.some.inj (hit.symm.trans hlast)
    exact .inl ⟨_, hplace⟩
  | next hreached hvalid hnext ih =>
    obtain ⟨p, hplace⟩ := ih.resolve_right hvalid
    obtain ⟨it', hit', hmore, hend⟩ := h.next_place hplace verify
    obtain rfl := Option.some.inj (hit'.symm.trans hnext)
    rcases Nat.lt_or_ge (p + 1) blocks.flatten.length with hlt | hge
    · exact .inl ⟨_, hmore hlt⟩
    · have hp := hplace.lt
      exact .inr (hend (by omega))
  | prev hreached hvalid hprev ih =>
    obtain ⟨p, hplace⟩ := ih.resolve_right hvalid
    obtain ⟨it', hit', hmore, hend⟩ := h.prev_place hsingle hplace verify
    obtain rfl := Option.some.inj (hit'.symm.trans hprev)
    rcases Nat.eq_zero_or_pos p with hzero | hpos
    · exact .inr (hend hzero)
    · exact .inl ⟨_, hmore hpos⟩

lemma Opened.returns (h : Opened r nRestart blocks index) (hne : blocks ≠ [])
    (hnodup : blocks.flatten.Nodup) (hsingle : SingleEntries blocks) (verify : Bool) :
    Returns r verify blocks.flatten := by
  intro it hreached i hpos hlast hcurrent
  have hi : i < blocks.flatten.length := by omega
  obtain ⟨p, hplace⟩ := (h.reached_place hne hsingle hreached).resolve_right (by
    rw [hcurrent, getElem?_eq_getElem hi]
    exact some_ne_none _)
  rw [h.current_place hplace] at hcurrent
  obtain rfl := (getElem?_inj hplace.lt hnodup).mp hcurrent
  obtain ⟨before, hbefore, hbeforeAt, -⟩ := h.prev_place hsingle hplace verify
  obtain ⟨back, hback, hbackAt, -⟩ := h.next_place (hbeforeAt hpos) verify
  obtain ⟨after, hafter, hafterAt, -⟩ := h.next_place hplace verify
  obtain ⟨back', hback', hbackAt', -⟩ := h.prev_place hsingle (hafterAt hlast) verify
  rw [Nat.sub_add_cancel hpos] at hbackAt
  rw [hbefore, hafter]
  exact ⟨⟨back, hback, h.current_place (hbackAt hi)⟩, back', hback',
    h.current_place (hbackAt' (by omega))⟩

lemma Opened.exists_reached (h : Opened r nRestart blocks index) (hne : blocks ≠ []) (verify : Bool)
    (hp : p < blocks.flatten.length) :
    ∃ it, Reached r verify it ∧ Place nRestart blocks index it p := by
  induction p with
  | zero =>
    obtain ⟨it, hit, hstands⟩ := h.seekToFirst hne verify
    exact ⟨it, .first hit, 0, 0, hstands, rfl⟩
  | succ p ih =>
    obtain ⟨it, hreached, hplace⟩ := ih (by omega)
    obtain ⟨it', hit', hmore, -⟩ := h.next_place hplace verify
    refine ⟨it', hreached.next ?_ hit', hmore hp⟩
    rw [h.current_place hplace, getElem?_eq_getElem hplace.lt]
    exact some_ne_none _

lemma Opened.singleEntries (h : Opened r nRestart blocks index) (hne : blocks ≠ [])
    (hnodup : blocks.flatten.Nodup) (hreturns : Returns r verify blocks.flatten) :
    SingleEntries blocks := by
  intro c hmem
  obtain ⟨m, hm⟩ := mem_iff_getElem?.mp hmem
  rw [getElem?_dropLast] at hm
  split_ifs at hm with hlt
  have hpos := length_pos_iff.mpr (h.nonempty c (mem_of_getElem? hm))
  by_contra hmany
  obtain ⟨c', hc'⟩ : ∃ c', blocks[m + 1]? = some c' := ⟨_, getElem?_eq_getElem (by omega)⟩
  have hnext := place_lt hc' (length_pos_iff.mpr (h.nonempty c' (mem_of_getElem? hc')))
  have hoffset := offset_succ hm
  obtain ⟨it, hreached, m', i, hstands, hplace⟩ :=
    h.exists_reached hne verify (p := offset blocks m + (c.length - 1)) (by omega)
  obtain ⟨c'', b, hc'', hi, -⟩ := hstands.block
  obtain ⟨rfl, rfl⟩ := place_unique hm (by omega) hc'' hi hplace
  obtain ⟨after, hafter, -, hover, -⟩ := h.next hstands hm verify
  obtain ⟨back, hback, -, hover', -⟩ := h.prev (hover (by omega) (by omega)) verify
  obtain ⟨-, back', hback', hcurrent⟩ :=
    hreturns it hreached _ (by omega) (by omega) (h.current hstands)
  rw [hafter, bind_some, hback] at hback'
  obtain rfl := Option.some.inj hback'
  have hfirst := h.current (hover' rfl (by omega))
  rw [Nat.add_sub_cancel, hcurrent] at hfirst
  have hsame := (getElem?_inj (by omega) hnodup).mp hfirst
  omega

lemma stored_nodup (hsorted : SortedEntries es)
    (hseq : ∀ e ∈ es, e.sequenceNumber ≤ kMaxSequenceNumber) :
    (es.map (stored false)).Nodup := by
  refine (stored_sorted hsorted hseq).imp fun {a b} hab heq => ?_
  rw [heq, @Std.ReflCmp.compare_self _ compareKeys] at hab
  cases hab

/-- A sorted table lists its entries in reverse, and every step can be taken back, exactly if its
first sequence number is not 0 and every data block but the last has one entry. -/
theorem sstReverses_iff (o : Options) {es : List (Entry Bytes)} (hne : es ≠ [])
    (hsorted : SortedEntries es) (hseq : ∀ e ∈ es, e.sequenceNumber ≤ kMaxSequenceNumber)
    (hfits : ∀ file, SstTableBuilder.build o es = some file → Fits o es file)
    (checksumVerify verify : Bool) :
    (∃ file, SstTableBuilder.build o es = some file ∧ Reverses es checksumVerify verify file) ↔
      firstIsZero es = false ∧ SingleEntries (dataBlocks o (storedAll es)) := by
  obtain ⟨file, r, hbuild, hprepare, hopened⟩ := exists_opened hne hseq hfits checksumVerify
  have hblocks := dataBlocks_ne_nil o (storedAll_ne_nil hne)
  constructor
  · rintro ⟨file', hbuild', r', hprepare', hlists, hreturns⟩
    obtain rfl := Option.some.inj (hbuild.symm.trans hbuild')
    obtain rfl := Except.ok.inj (hprepare.symm.trans hprepare')
    have hpos := length_pos_iff.mpr hne
    have hzero : firstIsZero es = false := by
      obtain ⟨it, hit, hplace⟩ := hopened.last_place hblocks verify
      obtain ⟨it', hit', hcurrent⟩ := hlists 0 (Nat.zero_le _)
      rw [hit] at hit'
      obtain rfl := Option.some.inj hit'
      have hshown := hopened.current_place hplace
      rw [hcurrent, flatten_dataBlocks, getElem?_reverse (by simpa using hpos)] at hshown
      refine firstIsZero_of_shown (i := es.length - 1) (by omega) ?_
      simpa [storedAll] using hshown.symm
    have hnodup := stored_nodup hsorted hseq
    rw [← flatten_of_ne_zero o hzero] at hreturns hnodup
    exact ⟨hzero, hopened.singleEntries hblocks hnodup hreturns⟩
  · rintro ⟨hzero, hsingle⟩
    have hnodup := stored_nodup hsorted hseq
    rw [← flatten_of_ne_zero o hzero] at hnodup
    refine ⟨file, hbuild, r, hprepare, ?_⟩
    rw [← flatten_of_ne_zero o hzero]
    exact ⟨hopened.listsBackward hblocks hsingle verify,
      hopened.returns hblocks hnodup hsingle verify⟩

theorem sstReverses_threeKeys : ∃ file, SstTableBuilder.build smallBlocks threeKeys = some file ∧
    Reverses threeKeys true true file :=
  (sstReverses_iff smallBlocks (by decide) (by decide) (by decide)
    (fits_of_fitsCheck (by decide +kernel)) true
    true).mpr (by decide +kernel)

def twoBlocks : List (Entry Bytes) :=
  [⟨makeKey [1] 9 .value, [5]⟩, ⟨makeKey [2] 9 .value, List.replicate 490 0⟩,
    ⟨makeKey [3] 9 .value, [6]⟩]

/-- `Prev` from the third key shows the first one. -/
theorem sst_prev_skips : (SstTableBuilder.build smallBlocks twoBlocks).map (fun file =>
      (SstTableReader.prepare file false).map fun r =>
        (((IteratorImpl.new r).bind (IteratorImpl.seekToLast r false)).bind
        (IteratorImpl.prev r false)).map
          (IteratorImpl.current r)) =
      some (.ok (some ((twoBlocks.map (stored false))[0]?))) ∧
    (twoBlocks.map (stored false))[0]? ≠ (twoBlocks.map (stored false))[1]? := by
  decide +kernel

end Backward

end Results

end Mai.TableSstReader
