import Mai.AssocMap
import Mai.BreadthFirst
import Mai.CoreKeys
import Mai.RunInvariant

/-! The wait-for graph of the lock manager and the search for deadlocks in it (`IncrementWaiters`,
`DecrementWaiters` of `txn/transaction-lock-mgr.cc`). -/
namespace Mai.TxnWaitGraph
open AssocMap BreadthFirst CoreKeys RunInvariant Function List

structure TrackedTxnInfo where
  neighbors : List ℕ
  cfid : UInt32
  waitingKey : Bytes
  exclusive : Bool
  deriving DecidableEq, Repr

structure DeadLockInfo where
  txnId : ℕ
  cfid : UInt32
  exclusive : Bool
  waitingKey : Bytes
  deriving DecidableEq, Repr

structure DeadLockPath where
  path : List DeadLockInfo
  limitExceeded : Bool
  deriving DecidableEq, Repr

structure WaitGraph where
  waitTxnMap : AList fun _ : ℕ => TrackedTxnInfo
  revWaitTxnMap : ℕ → Option ℤ
  dlocks : List DeadLockPath

namespace WaitGraph

def empty : WaitGraph := ⟨∅, fun _ => none, []⟩

def increment (rev : ℕ → Option ℤ) (wid : ℕ) : ℕ → Option ℤ :=
  update rev wid (some (((rev wid).getD 0) + 1))

def decrement (rev : ℕ → Option ℤ) (wid : ℕ) : ℕ → Option ℤ :=
  let n := (rev wid).getD 0 - 1
  update rev wid (if n = 0 then none else some n)

def decrementWaitersLockless (s : WaitGraph) (txnId : ℕ) (waitIds : List ℕ) : WaitGraph :=
  { s with
    waitTxnMap := s.waitTxnMap.erase txnId
    revWaitTxnMap := waitIds.foldl decrement s.revWaitTxnMap }

def neighbors (s : WaitGraph) (id : ℕ) : List ℕ :=
  (find s.waitTxnMap id).elim [] TrackedTxnInfo.neighbors

def pathTo (s : WaitGraph) (queue : List (ℕ × ℤ)) : ℕ → ℤ → List DeadLockInfo
  | 0, _ => []
  | fuel + 1, head =>
    if head = -1 then []
    else
      let (id, parent) := queue.getD head.toNat (0, -1)
      let info := (find s.waitTxnMap id).getD ⟨[], 0, [], false⟩
      ⟨id, info.cfid, info.exclusive, info.waitingKey⟩ :: pathTo s queue fuel parent

/-- The loop of `IncrementWaiters`, from `head = depth - fuel` on; `none` if no deadlock was found.
An element of the queue is a transaction with the place of the one that waits for it. -/
def search (s : WaitGraph) (txnId depth : ℕ) :
    ℕ → ℕ → List (ℕ × ℤ) → List ℕ → ℤ → Option DeadLockPath
  | 0, _, _, _, _ => some ⟨[], true⟩
  | fuel + 1, head, queue, nextIds, parent =>
    let queue := queue ++ (nextIds.take (depth - queue.length)).map fun id => (id, parent)
    match queue[head]? with
    | none => none
    | some (next, _) =>
      if next = txnId then some ⟨(s.pathTo queue depth head).reverse, false⟩
      else
        match find s.waitTxnMap next with
        | none => search s txnId depth fuel (head + 1) queue [] parent
        | some info => search s txnId depth fuel (head + 1) queue info.neighbors head

def record (s : WaitGraph) (txnId : ℕ) (info : TrackedTxnInfo) : WaitGraph :=
  { s with
    waitTxnMap := emplace txnId info s.waitTxnMap
    revWaitTxnMap := info.neighbors.foldl increment s.revWaitTxnMap }

def incrementWaiters (s : WaitGraph) (txnId depth : ℕ) (info : TrackedTxnInfo) : WaitGraph × Bool :=
  let s := s.record txnId info
  if s.revWaitTxnMap txnId = none then (s, false)
  else
    match s.search txnId depth depth 0 [] info.neighbors (-1) with
    | none => (s, false)
    | some path =>
      ({ s with dlocks := s.dlocks ++ [path] }.decrementWaitersLockless txnId info.neighbors, true)

end WaitGraph

/-- A waiting transaction has called `IncrementWaiters` once, and calls `DecrementWaiters` with the
same ids when it wakes up. -/
inductive Action
  | incrementWaiters (txnId depth : ℕ) (info : TrackedTxnInfo)
  | decrementWaiters (txnId : ℕ) (waitIds : List ℕ)
  deriving DecidableEq, Repr

def step (s : WaitGraph) : Action → Option WaitGraph
  | .incrementWaiters txnId depth info =>
    if find s.waitTxnMap txnId = none then some (s.incrementWaiters txnId depth info).1 else none
  | .decrementWaiters txnId waitIds =>
    match find s.waitTxnMap txnId with
    | some info => if info.neighbors = waitIds then some (s.decrementWaitersLockless txnId waitIds)
        else none
    | none => none

section Search
variable {s : WaitGraph} {txnId depth : ℕ}

lemma map_drop_append {queue : List (ℕ × ℤ)} {head fuel : ℕ} (nextIds : List ℕ) (parent : ℤ)
    (hfuel : head + fuel = depth) (hhead : head ≤ queue.length) (hqueue : queue.length ≤ depth) :
    ((queue ++ (nextIds.take (depth - queue.length)).map fun id => (id, parent)).drop head).map
      Prod.fst =
      ((queue.drop head).map Prod.fst ++ nextIds).take fuel := by
  rw [drop_append_of_le_length hhead, map_append, List.map_map, take_append]
  congr 1
  · rw [take_of_length_le]
    simp only [length_map, List.length_drop]
    omega
  · simp only [comp_def, List.map_id', length_map, List.length_drop]
    congr 1
    omega

lemma take_take_append {α : Type*} (l m : List α) (n : ℕ) :
    (l.take n ++ m).take n = (l ++ m).take n := by
  rw [take_append, take_append, take_take, min_self, length_take]
  by_cases h : n ≤ l.length
  · rw [min_eq_left h, Nat.sub_self, Nat.sub_eq_zero_of_le h]
  · rw [min_eq_right (not_le.mp h).le]

lemma search_eq_none_iff {fuel head : ℕ} {queue : List (ℕ × ℤ)} {nextIds : List ℕ} {parent : ℤ}
    (hfuel : head + fuel = depth) (hhead : head ≤ queue.length) (hqueue : queue.length ≤ depth) :
    s.search txnId depth fuel head queue nextIds parent = none ↔
      txnId ∉ visits s.neighbors fuel ((queue.drop head).map Prod.fst ++ nextIds) ∧
      (visits s.neighbors fuel ((queue.drop head).map Prod.fst ++ nextIds)).length < fuel := by
  induction fuel generalizing head queue nextIds parent with
  | zero => simp [WaitGraph.search]
  | succ fuel ih =>
    have hpending := map_drop_append nextIds parent hfuel hhead hqueue
    have hlength : (queue ++ (nextIds.take (depth - queue.length)).map fun id =>
        (id, parent)).length ≤ depth := by
      simp only [length_append, length_map, length_take]
      omega
    rw [WaitGraph.search]
    generalize queue ++ (nextIds.take (depth - queue.length)).map (fun id => (id, parent)) =
      queue' at hpending hlength
    generalize (queue.drop head).map Prod.fst ++ nextIds = pending at hpending
    cases pending with
    | nil =>
      have hdrop : queue'.drop head = [] := by simpa using hpending
      have hnone : queue'[head]? = none := by rw [← head?_drop, hdrop]; rfl
      simp [hnone, visits]
    | cons next pending =>
      obtain ⟨⟨id, p⟩, rest, hdrop⟩ : ∃ e rest, queue'.drop head = e :: rest :=
        exists_cons_of_ne_nil fun hnil => by simp [hnil] at hpending
      have hsome : queue'[head]? = some (id, p) := by rw [← head?_drop, hdrop]; rfl
      rw [hdrop, map_cons, take_succ_cons, List.cons.injEq] at hpending
      obtain ⟨rfl, hrest⟩ := hpending
      have hdrop' : queue'.drop (head + 1) = rest := by rw [← drop_drop, hdrop]; rfl
      have hlt : head < queue'.length := (List.getElem?_eq_some_iff.mp hsome).1
      have hloop (parent : ℤ) :=
        @ih (head + 1) queue' (s.neighbors id) parent (by omega) hlt hlength
      simp only [hsome]
      by_cases hid : id = txnId
      · simp [hid, visits]
      · have hvisits :
            visits s.neighbors fuel ((queue'.drop (head + 1)).map Prod.fst ++ s.neighbors id) =
            visits s.neighbors fuel (pending ++ s.neighbors id) := by
          rw [hdrop', hrest]
          exact visits_congr (take_take_append _ _ _)
        rw [if_neg hid, visits]
        cases hfind : find s.waitTxnMap id with
        | none =>
          have hnil : s.neighbors id = [] := by rw [WaitGraph.neighbors, hfind]; rfl
          have hloop := hloop parent
          rw [hvisits, hnil] at hloop
          simpa [hnil, Ne.symm hid] using hloop
        | some info =>
          have hneighbors : s.neighbors id = info.neighbors := by
            rw [WaitGraph.neighbors, hfind]; rfl
          have hloop := hloop head
          rw [hvisits, hneighbors] at hloop
          simpa [hneighbors, Ne.symm hid] using hloop

variable {info : TrackedTxnInfo}

lemma neighbors_record (hnot : find s.waitTxnMap txnId = none) (id : ℕ) :
    (s.record txnId info).neighbors id = if id = txnId then info.neighbors else s.neighbors id := by
  rw [WaitGraph.neighbors, WaitGraph.record]
  simp only [emplace_of_notMem (find_eq_none.mp hnot)]
  by_cases hid : id = txnId
  · rw [if_pos hid, hid, find_insert]
    rfl
  · rw [if_neg hid, find_insert_ne hid]
    rfl

lemma reached_record (hnot : find s.waitTxnMap txnId = none) {a : ℕ} :
    Relation.ReflTransGen (Edge (s.record txnId info).neighbors) a txnId ↔
      Relation.ReflTransGen (Edge s.neighbors) a txnId := by
  have hnil : s.neighbors txnId = [] := by rw [WaitGraph.neighbors, hnot]; rfl
  constructor
  · intro h
    induction h using Relation.ReflTransGen.head_induction_on with
    | refl => exact .refl
    | head hedge _ ih =>
      rw [Edge, neighbors_record hnot] at hedge
      split_ifs at hedge with hid
      · rw [hid]
      · exact ih.head hedge
  · refine Relation.ReflTransGen.mono (fun x y hedge => ?_) a txnId
    rw [Edge, neighbors_record hnot, if_neg]
    · exact hedge
    · rintro rfl
      simp [Edge, hnil] at hedge

lemma levels_record (hnot : find s.waitTxnMap txnId = none)
    (hfree : ¬ ∃ a ∈ info.neighbors, Relation.ReflTransGen (Edge s.neighbors) a txnId) (k : ℕ) :
    levels (s.record txnId info).neighbors info.neighbors k =
      levels s.neighbors info.neighbors k := by
  refine flatMap_congr fun j _ => level_congr (fun a ha b hreach => ?_) j
  rw [neighbors_record hnot, if_neg]
  rintro rfl
  exact hfree ⟨a, ha, hreach⟩

lemma search_record (hnot : find s.waitTxnMap txnId = none) :
    (s.record txnId info).search txnId depth depth 0 [] info.neighbors (-1) = none ↔
      (¬ ∃ a ∈ info.neighbors, Relation.ReflTransGen (Edge s.neighbors) a txnId) ∧
      ∀ k, (levels s.neighbors info.neighbors k).length < depth := by
  rw [search_eq_none_iff (Nat.zero_add depth) (Nat.zero_le _) (Nat.zero_le _), length_visits_lt_iff]
  simp only [drop_nil, map_nil, nil_append]
  constructor
  · rintro ⟨hvisits, hfew⟩
    have hfree : ¬ ∃ a ∈ info.neighbors, Relation.ReflTransGen (Edge s.neighbors) a txnId :=
      fun ⟨a, ha, hreach⟩ =>
      hvisits (mem_visits_of_reached hfew ⟨a, ha, (reached_record hnot).mpr hreach⟩)
    exact ⟨hfree, fun k => levels_record hnot hfree k ▸ hfew k⟩
  · rintro ⟨hfree, hfew⟩
    refine ⟨fun hvisits => hfree ?_, fun k => (levels_record hnot hfree k).symm ▸ hfew k⟩
    obtain ⟨a, ha, hreach⟩ := reached_of_mem_visits hvisits
    exact ⟨a, ha, (reached_record hnot).mp hreach⟩

end Search

section Counts
variable {s : WaitGraph} {txnId : ℕ} {info : TrackedTxnInfo} {rev : ℕ → Option ℤ} {f : ℕ → ℕ}

def WaitGraph.edgesInto (s : WaitGraph) (id : ℕ) : ℕ :=
  (s.waitTxnMap.entries.flatMap fun e => e.2.neighbors).count id

def CountsOf (rev : ℕ → Option ℤ) (f : ℕ → ℕ) : Prop :=
  ∀ id, rev id = if f id = 0 then none else some (f id : ℤ)

lemma CountsOf.getD (h : CountsOf rev f) (id : ℕ) : (rev id).getD 0 = f id := by
  rw [h id]
  split_ifs with hzero
  · simp [hzero]
  · rfl

lemma CountsOf.increment (h : CountsOf rev f) (wid : ℕ) :
    CountsOf (WaitGraph.increment rev wid) fun id => f id + [wid].count id := by
  intro id
  rw [WaitGraph.increment, h.getD]
  by_cases hid : id = wid
  · simp [hid]
  · simp [hid, Ne.symm hid, h id]

lemma CountsOf.decrement {wid : ℕ} (h : CountsOf rev fun id => f id + [wid].count id) :
    CountsOf (WaitGraph.decrement rev wid) f := by
  intro id
  rw [WaitGraph.decrement, h.getD]
  by_cases hid : id = wid
  · simp [hid]
  · simp [hid, Ne.symm hid, h id]

lemma count_cons_eq (wid : ℕ) (ids : List ℕ) (id : ℕ) :
    (wid :: ids).count id = [wid].count id + ids.count id := by
  simp [count_cons, add_comm]

lemma CountsOf.foldl_increment (h : CountsOf rev f) (ids : List ℕ) :
    CountsOf (ids.foldl WaitGraph.increment rev) fun id => f id + ids.count id := by
  induction ids generalizing rev f with
  | nil => exact h
  | cons wid ids ih =>
    have hcount := ih (h.increment wid)
    simp only [count_cons_eq wid ids, ← add_assoc]
    exact hcount

lemma CountsOf.foldl_decrement {ids : List ℕ} (h : CountsOf rev fun id => f id + ids.count id) :
    CountsOf (ids.foldl WaitGraph.decrement rev) f := by
  induction ids generalizing rev f with
  | nil => exact h
  | cons wid ids ih =>
    simp only [count_cons_eq wid ids, add_comm ([wid].count _), ← add_assoc] at h
    exact ih h.decrement

lemma edgesInto_record (hnot : find s.waitTxnMap txnId = none) (id : ℕ) :
    (s.record txnId info).edgesInto id = s.edgesInto id + info.neighbors.count id := by
  rw [WaitGraph.edgesInto, WaitGraph.record]
  simp only [emplace_of_notMem (find_eq_none.mp hnot)]
  rw [AList.insert_of_notMem (find_eq_none.mp hnot), flatMap_cons, count_append, add_comm]
  rfl

lemma edgesInto_erase (hinfo : find s.waitTxnMap txnId = some info) (id : ℕ) :
    s.edgesInto id = (s.decrementWaitersLockless txnId info.neighbors).edgesInto id +
      info.neighbors.count id := by
  have hmem : (⟨txnId, info⟩ : Sigma fun _ : ℕ => TrackedTxnInfo) ∈ s.waitTxnMap.entries :=
    AList.mem_lookup_iff.mp hinfo
  obtain ⟨info', before, after, -, hentries, herase⟩ := exists_of_kerase (mem_keys_of_mem hmem)
  have hinfo' : find s.waitTxnMap txnId = some info' :=
    AList.mem_lookup_iff.mpr (by rw [hentries]; simp)
  obtain rfl := Option.some.inj (hinfo.symm.trans hinfo')
  have herase' : (s.waitTxnMap.erase txnId).entries = before ++ after := herase
  rw [WaitGraph.edgesInto, WaitGraph.edgesInto, WaitGraph.decrementWaitersLockless, hentries,
    herase']
  simp only [flatMap_append, flatMap_cons, count_append]
  omega

def Counted (s : WaitGraph) : Prop :=
  ∀ id, (s.revWaitTxnMap id).getD 0 = s.edgesInto id ∧ s.revWaitTxnMap id ≠ some 0

lemma CountsOf.counted (h : CountsOf s.revWaitTxnMap s.edgesInto) : Counted s := by
  refine fun id => ⟨h.getD id, ?_⟩
  rw [h id]
  split_ifs with hzero
  · simp
  · simpa using hzero

lemma edgesInto_eq_zero {id : ℕ} : s.edgesInto id = 0 ↔ ∀ a, id ∉ s.neighbors a := by
  rw [WaitGraph.edgesInto, count_eq_zero]
  constructor
  · intro h a ha
    rw [WaitGraph.neighbors] at ha
    cases hfind : find s.waitTxnMap a with
    | none => simp [hfind] at ha
    | some info =>
      rw [hfind] at ha
      exact h (mem_flatMap.mpr ⟨⟨a, info⟩, AList.mem_lookup_iff.mp hfind, ha⟩)
  · intro h hmem
    obtain ⟨⟨a, info⟩, he, hid⟩ := mem_flatMap.mp hmem
    have hfind : find s.waitTxnMap a = some info := AList.mem_lookup_iff.mpr he
    exact h a (by rw [WaitGraph.neighbors, hfind]; exact hid)

end Counts

section Acyclic
variable {s : WaitGraph} {txnId : ℕ} {info : TrackedTxnInfo}

def WaitsFor (s : WaitGraph) : ℕ → ℕ → Prop := Relation.TransGen (Edge s.neighbors)

def Acyclic (s : WaitGraph) : Prop := ∀ id, ¬ WaitsFor s id id

lemma waitsFor_record (hnot : find s.waitTxnMap txnId = none) {a b : ℕ}
    (h : WaitsFor (s.record txnId info) a b) :
    WaitsFor s a b ∨ Relation.ReflTransGen (Edge (s.record txnId info).neighbors) a txnId ∧
      ∃ c ∈ info.neighbors, Relation.ReflTransGen (Edge (s.record txnId info).neighbors) c b := by
  have hedge {x y : ℕ} (h : Edge (s.record txnId info).neighbors x y) :
      Edge s.neighbors x y ∨ x = txnId ∧ y ∈ info.neighbors := by
    rw [Edge, neighbors_record hnot] at h
    split_ifs at h with hid
    · exact Or.inr ⟨hid, h⟩
    · exact Or.inl h
  induction h with
  | single h =>
    rcases hedge h with h | ⟨rfl, hmem⟩
    · exact Or.inl (.single h)
    · exact Or.inr ⟨.refl, _, hmem, .refl⟩
  | tail hchain h ih =>
    rcases ih with ih | ⟨hto, c, hc, hfrom⟩
    · rcases hedge h with h | ⟨rfl, hmem⟩
      · exact Or.inl (ih.tail h)
      · exact Or.inr ⟨hchain.to_reflTransGen, _, hmem, .refl⟩
    · exact Or.inr ⟨hto, c, hc, hfrom.tail h⟩

lemma Acyclic.record (h : Acyclic s) (hnot : find s.waitTxnMap txnId = none)
    (hfree : ¬ ∃ a ∈ info.neighbors, Relation.ReflTransGen (Edge s.neighbors) a txnId) :
    Acyclic (s.record txnId info) := by
  intro id hcycle
  rcases waitsFor_record hnot hcycle with hcycle | ⟨hto, c, hc, hfrom⟩
  · exact h id hcycle
  · exact hfree ⟨c, hc, (reached_record hnot).mp (hfrom.trans hto)⟩

lemma Acyclic.mono {s' : WaitGraph} (h : Acyclic s)
    (hsub : ∀ id, s'.neighbors id ⊆ s.neighbors id) : Acyclic s' :=
  fun id hcycle => h id (Relation.TransGen.mono (fun _ _ hedge => hsub _ hedge) id id hcycle)

lemma neighbors_decrement (waitIds : List ℕ) (id : ℕ) :
    (s.decrementWaitersLockless txnId waitIds).neighbors id = if id = txnId then []
      else s.neighbors id := by
  rw [WaitGraph.neighbors, WaitGraph.decrementWaitersLockless, find]
  by_cases hid : id = txnId
  · rw [if_pos hid, hid, AList.lookup_erase]
    rfl
  · rw [if_neg hid, AList.lookup_erase_ne hid]
    rfl

end Acyclic

section Invariant
variable {s s' : WaitGraph} {txnId depth : ℕ} {info : TrackedTxnInfo}

structure Sound (s : WaitGraph) : Prop where
  acyclic : Acyclic s
  counts : CountsOf s.revWaitTxnMap s.edgesInto

lemma sound_empty : Sound .empty := by
  have hnil (id : ℕ) : WaitGraph.empty.neighbors id = [] := rfl
  refine ⟨fun id hcycle => ?_, fun id => rfl⟩
  obtain ⟨b, hedge, -⟩ := Relation.TransGen.head'_iff.mp hcycle
  simp [Edge, hnil] at hedge

lemma Sound.counts_record (h : Sound s) (hnot : find s.waitTxnMap txnId = none)
    (info : TrackedTxnInfo) :
    CountsOf (s.record txnId info).revWaitTxnMap (s.record txnId info).edgesInto := by
  have hcounts := h.counts.foldl_increment info.neighbors
  rw [← funext (edgesInto_record hnot)] at hcounts
  exact hcounts

lemma Sound.rev_eq_none_iff (h : Sound s) (hnot : find s.waitTxnMap txnId = none) :
    (s.record txnId info).revWaitTxnMap txnId = none ↔ (∀ a, txnId ∉ s.neighbors a) ∧
      txnId ∉ info.neighbors := by
  rw [h.counts_record hnot info txnId, edgesInto_record hnot]
  split_ifs with hzero
  · obtain ⟨hinto, hcount⟩ := Nat.add_eq_zero_iff.mp hzero
    exact iff_of_true rfl ⟨edgesInto_eq_zero.mp hinto, count_eq_zero.mp hcount⟩
  · refine iff_of_false (by simp) fun ⟨hinto, hcount⟩ => hzero ?_
    rw [edgesInto_eq_zero.mpr hinto, count_eq_zero.mpr hcount]

lemma not_reached_of_no_edge (hinto : ∀ a, txnId ∉ s.neighbors a) (hnot : txnId ∉ info.neighbors) :
    ¬ ∃ a ∈ info.neighbors, Relation.ReflTransGen (Edge s.neighbors) a txnId := by
  rintro ⟨a, ha, hreach⟩
  rcases Relation.reflTransGen_iff_eq_or_transGen.mp hreach with rfl | hchain
  · exact hnot ha
  · obtain ⟨b, -, hedge⟩ := Relation.TransGen.tail'_iff.mp hchain
    exact hinto b hedge

lemma incrementWaiters_cases (s : WaitGraph) (txnId depth : ℕ) (info : TrackedTxnInfo) :
    (s.incrementWaiters txnId depth info = (s.record txnId info, false) ∧
      ((s.record txnId info).revWaitTxnMap txnId = none ∨
        (s.record txnId info).search txnId depth depth 0 [] info.neighbors (-1) = none)) ∨
    (∃ path, s.incrementWaiters txnId depth info =
        ({ s.record txnId info with
        dlocks := s.dlocks ++ [path] }.decrementWaitersLockless txnId info.neighbors, true)) ∧
      (s.record txnId info).revWaitTxnMap txnId ≠ none ∧
      (s.record txnId info).search txnId depth depth 0 [] info.neighbors (-1) ≠ none := by
  simp only [WaitGraph.incrementWaiters]
  split_ifs with hrev
  · exact Or.inl ⟨rfl, Or.inl hrev⟩
  · cases hsearch : (s.record txnId info).search txnId depth depth 0 [] info.neighbors (-1) with
    | none => exact Or.inl ⟨rfl, Or.inr rfl⟩
    | some path => exact Or.inr ⟨⟨path, rfl⟩, hrev, by simp⟩

lemma Sound.record (h : Sound s) (hnot : find s.waitTxnMap txnId = none)
    (hfree : ¬ ∃ a ∈ info.neighbors, Relation.ReflTransGen (Edge s.neighbors) a txnId) :
    Sound (s.record txnId info) :=
  ⟨h.acyclic.record hnot hfree, h.counts_record hnot info⟩

lemma Sound.decrement (h : Sound s) (hinfo : find s.waitTxnMap txnId = some info) :
    Sound (s.decrementWaitersLockless txnId info.neighbors) := by
  refine ⟨h.acyclic.mono fun id => ?_, ?_⟩
  · rw [neighbors_decrement]
    split_ifs <;> simp
  · have hcounts := h.counts
    rw [funext (edgesInto_erase hinfo)] at hcounts
    exact hcounts.foldl_decrement

lemma Sound.giveUp (h : Sound s) (hnot : find s.waitTxnMap txnId = none) (path : DeadLockPath) :
    Sound ({ s.record txnId info with
      dlocks := s.dlocks ++ [path] }.decrementWaitersLockless txnId info.neighbors) := by
  set r : WaitGraph := { s.record txnId info with dlocks := s.dlocks ++ [path] } with hr
  have hfind : find r.waitTxnMap txnId = some info := by
    rw [hr, WaitGraph.record]
    simp only [emplace_of_notMem (find_eq_none.mp hnot), find_insert]
  have hneighbors (id : ℕ) : r.neighbors id = (s.record txnId info).neighbors id := rfl
  refine ⟨h.acyclic.mono fun id => ?_, ?_⟩
  · rw [neighbors_decrement, hneighbors, neighbors_record hnot]
    split_ifs <;> simp
  · have hcounts : CountsOf r.revWaitTxnMap r.edgesInto := h.counts_record hnot info
    rw [funext (edgesInto_erase hfind)] at hcounts
    exact hcounts.foldl_decrement

lemma Sound.step {a : Action} (h : Sound s) (hstep : step s a = some s') : Sound s' := by
  cases a with
  | incrementWaiters txnId depth info =>
    rw [TxnWaitGraph.step] at hstep
    split_ifs at hstep with hnot
    obtain rfl := Option.some.inj hstep
    obtain ⟨heq, hcase⟩ | ⟨⟨path, heq⟩, -, -⟩ := incrementWaiters_cases s txnId depth info
    · rw [heq]
      refine h.record hnot ?_
      rcases hcase with hrev | hsearch
      · obtain ⟨hinto, hids⟩ := (h.rev_eq_none_iff hnot).mp hrev
        exact not_reached_of_no_edge hinto hids
      · exact ((search_record hnot).mp hsearch).1
    · rw [heq]
      exact h.giveUp hnot path
  | decrementWaiters txnId waitIds =>
    rw [TxnWaitGraph.step] at hstep
    split at hstep
    · next info hinfo =>
      obtain ⟨rfl, ⟨⟩⟩ := Option.ite_none_right_eq_some.mp hstep
      exact h.decrement hinfo
    · cases hstep

lemma sound_run {actions : List Action} (h : run step .empty actions = some s) : Sound s :=
  run_invariant (G := fun _ => True) (fun _ _ _ _ hs hstep => hs.step hstep) sound_empty
    (fun _ _ => trivial) h

/-- The graph of waiting transactions never has a cycle, and its counts are those of its edges. -/
theorem waitGraph_acyclic_counted (actions : List Action) :
    Always step (fun s => Acyclic s ∧ Counted s) .empty actions :=
  fun _ _ _ hrun => ⟨(sound_run hrun).acyclic, (sound_run hrun).counts.counted⟩

end Invariant

section Precision
variable {s : WaitGraph} {txnId : ℕ} {info : TrackedTxnInfo}

lemma incrementWaiters_iff (h : Sound s) (hnot : find s.waitTxnMap txnId = none) (depth : ℕ)
    (info : TrackedTxnInfo) :
    (s.incrementWaiters txnId depth info).2 = false ↔
      (∀ a, txnId ∉ s.neighbors a) ∧ txnId ∉ info.neighbors ∨
      (¬ ∃ a ∈ info.neighbors, Relation.ReflTransGen (Edge s.neighbors) a txnId) ∧
        ∀ k, (levels s.neighbors info.neighbors k).length < depth := by
  rw [← h.rev_eq_none_iff hnot, ← search_record hnot]
  obtain ⟨heq, hcase⟩ | ⟨⟨path, heq⟩, hrev, hsearch⟩ := incrementWaiters_cases s txnId depth info
  · rw [heq]
    exact iff_of_true rfl hcase
  · rw [heq]
    exact iff_of_false (by simp) (not_or.mpr ⟨hrev, hsearch⟩)

def RealDeadlock (s : WaitGraph) (txnId : ℕ) (holders : List ℕ) : Prop :=
  ∃ id ∈ holders, id ≠ txnId ∧ WaitsFor s id txnId

lemma reached_iff (hnot : find s.waitTxnMap txnId = none) :
    (∃ a ∈ info.neighbors, Relation.ReflTransGen (Edge s.neighbors) a txnId) ↔
      txnId ∈ info.neighbors ∨ RealDeadlock s txnId info.neighbors := by
  have hnil : s.neighbors txnId = [] := by rw [WaitGraph.neighbors, hnot]; rfl
  constructor
  · rintro ⟨a, ha, hreach⟩
    rcases Relation.reflTransGen_iff_eq_or_transGen.mp hreach with rfl | hchain
    · exact Or.inl ha
    · refine Or.inr ⟨a, ha, ?_, hchain⟩
      rintro rfl
      obtain ⟨b, hedge, -⟩ := Relation.TransGen.head'_iff.mp hchain
      simp [Edge, hnil] at hedge
  · rintro (hmem | ⟨a, ha, -, hchain⟩)
    · exact ⟨txnId, hmem, .refl⟩
    · exact ⟨a, ha, hchain.to_reflTransGen⟩

/-- When a transaction begins to wait for the holders of a key, the deadlock that is reported is a
real one, except that the transaction may be a holder itself, or be waited for while the chains from
the holders fill the queue. -/
theorem noFalseDeadlock_iff {actions : List Action} (hrun : run step .empty actions = some s)
    (hnot : find s.waitTxnMap txnId = none) (depth : ℕ) (info : TrackedTxnInfo) :
    ((s.incrementWaiters txnId depth info).2 = true → RealDeadlock s txnId info.neighbors) ↔
      RealDeadlock s txnId info.neighbors ∨ txnId ∉ info.neighbors ∧
        ((∀ a, txnId ∉ s.neighbors a) ∨ ∀ k, (levels s.neighbors info.neighbors k).length <
        depth) := by
  have hiff := incrementWaiters_iff (sound_run hrun) hnot depth info
  rw [reached_iff hnot, not_or] at hiff
  by_cases hreal : RealDeadlock s txnId info.neighbors
  · simp [hreal]
  · simp only [hreal, imp_false, false_or, Bool.not_eq_true, not_false_eq_true, and_true] at hiff ⊢
    rw [hiff]
    tauto

def exclusiveRequest (holders : List ℕ) : TrackedTxnInfo := ⟨holders, 0, [7], true⟩

def twoWaits : WaitGraph := WaitGraph.empty.record 2 (exclusiveRequest [1])

theorem noFalseDeadlock_real : (twoWaits.incrementWaiters 1 50 (exclusiveRequest [2])).2 = true ∧
    RealDeadlock twoWaits 1 [2] := by
  have hrun : run step .empty [.incrementWaiters 2 50 (exclusiveRequest [1])] = some twoWaits := rfl
  have hreported : (twoWaits.incrementWaiters 1 50 (exclusiveRequest [2])).2 = true := by decide
  exact ⟨hreported, (noFalseDeadlock_iff hrun rfl 50 (exclusiveRequest [2])).mpr
    (Or.inl ⟨2, by decide, by decide, .single (show 1 ∈ twoWaits.neighbors 2 by decide)⟩) hreported⟩

def diamond : WaitGraph := ((((WaitGraph.empty.record 4 (exclusiveRequest [5, 6, 7, 8])).record 3
  (exclusiveRequest [4])).record 30 (exclusiveRequest [4])).record 2
    (exclusiveRequest [3, 30])).record 9
  (exclusiveRequest [1])

lemma diamond_free : ¬ RealDeadlock diamond 1 [2] := by
  rintro ⟨a, ha, -, hchain⟩
  obtain ⟨k, hk⟩ := exists_mem_level.mpr ⟨a, ha, hchain.to_reflTransGen⟩
  have hnil : level diamond.neighbors [2] 4 = [] := by decide
  by_cases hle : 4 ≤ k
  · rw [level_nil_of_le hnil hle] at hk
    cases hk
  · have hsmall : ∀ k < 4, 1 ∉ level diamond.neighbors [2] k := by decide
    exact hsmall k (not_le.mp hle) hk

/-- Transaction 1 asks for more than the lock that it shares with 2, and is told of a deadlock
though nothing waits. With 9 edges and a depth of 11, it is told of one because 4 is reached
twice. -/
theorem falseDeadlock :
    ((WaitGraph.empty.incrementWaiters 1 50 (exclusiveRequest [1, 2])).2 = true ∧
      ¬ RealDeadlock .empty 1 [1, 2]) ∧
    run step .empty [.incrementWaiters 4 50 (exclusiveRequest [5, 6, 7, 8]),
      .incrementWaiters 3 50 (exclusiveRequest [4]), .incrementWaiters 30 50 (exclusiveRequest [4]),
      .incrementWaiters 2 50 (exclusiveRequest [3, 30]),
        .incrementWaiters 9 50 (exclusiveRequest [1])] = some diamond ∧
    (diamond.waitTxnMap.entries.flatMap fun e => e.2.neighbors).length = 9 ∧
    (diamond.incrementWaiters 1 11 (exclusiveRequest [2])).2 = true ∧
      ¬ RealDeadlock diamond 1 [2] := by
  refine ⟨⟨by decide, ?_⟩, rfl, by decide, by decide, diamond_free⟩
  rintro ⟨a, -, -, hchain⟩
  obtain ⟨b, hedge, -⟩ := Relation.TransGen.head'_iff.mp hchain
  exact not_mem_nil hedge

end Precision

end Mai.TxnWaitGraph
