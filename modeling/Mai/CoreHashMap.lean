import Mai.GroupedList
import Mai.IndexChain
import Mai.SortedInsert

/-! The hash map of the unordered memory table (`core/hash-map-v2.h`): one chain of nodes for each
slot, in the order of the comparator. The slots are the cells `1, …, nSlots`, the nodes follow in
the order of their allocation and 0 is the null pointer. -/
namespace Mai.CoreHashMap
open IndexChain SortedInsert Function List

variable {K : Type*}

structure HashMap (K : Type*) where
  nSlots : ℕ
  keys : List K
  next : ℕ → ℕ

namespace HashMap

def empty (initialSlots : ℕ) : HashMap K := ⟨initialSlots, [], fun _ => 0⟩

def keyAt (m : HashMap K) (n : ℕ) : Option K :=
  if n ≤ m.nSlots then none else m.keys[n - (m.nSlots + 1)]?

def index (hash : K → ℕ) (m : HashMap K) (key : K) : ℕ := hash key % m.nSlots

/-- The loop of `Put` and `FindGreaterOrEqual`, with the cell before the one it stops at. -/
def walk (compare : K → K → Ordering) (m : HashMap K) (key : K) : ℕ → ℕ → ℕ → Option (ℕ × ℕ)
  | 0, _, _ => none
  | fuel + 1, pp, p =>
    if (m.keyAt p).any fun k => compare k key = .lt then walk compare m key fuel p (m.next p)
    else some (pp, p)

/-- The loop around `compare_exchange_strong`, which runs as long as the exchange succeeds. -/
def exchange (oldVal node pp : ℕ) : ℕ → (ℕ → ℕ) → Option (ℕ → ℕ)
  | 0, _ => none
  | fuel + 1, next => if next pp = oldVal then exchange oldVal node pp fuel (update next pp node)
      else some next

def walkSlot (hash : K → ℕ) (compare : K → K → Ordering) (m : HashMap K) (key : K) :
    Option (ℕ × ℕ) :=
  let slot := m.index hash key + 1
  m.walk compare key (m.keys.length + 1) slot (m.next slot)

def put (hash : K → ℕ) (compare : K → K → Ordering) (m : HashMap K) (key : K) :
    Option (HashMap K) :=
  match m.walkSlot hash compare key with
  | none => none
  | some (pp, p) =>
    let node := m.nSlots + 1 + m.keys.length
    let next := update m.next node p
    match exchange (next pp) node pp 2 next with
    | none => none
    | some next => some { m with keys := m.keys ++ [key], next := next }

def findGreaterOrEqual (hash : K → ℕ) (compare : K → K → Ordering) (m : HashMap K) (key : K) :
    Option (ℕ × ℕ) :=
  (m.walkSlot hash compare key).map fun (_, p) => if p = 0 then (m.nSlots, 0)
    else (m.index hash key, p)

def walkEqual (compare : K → K → Ordering) (m : HashMap K) (key : K) : ℕ → ℕ → Option ℕ
  | 0, _ => none
  | fuel + 1, p =>
    if p = 0 ∨ (m.keyAt p).any fun k => compare k key = .eq then some p
    else walkEqual compare m key fuel (m.next p)

def findEqual (hash : K → ℕ) (compare : K → K → Ordering) (m : HashMap K) (key : K) :
    Option (ℕ × ℕ) :=
  (m.walkEqual compare key (m.keys.length + 1) (m.next (m.index hash key + 1))).map fun p =>
    if p = 0 then (m.nSlots, 0) else (m.index hash key, p)

def nextSlot (m : HashMap K) : ℕ → ℕ → ℕ × ℕ
  | 0, slot => (slot, 0)
  | n + 1, slot => if m.next (slot + 1) ≠ 0 then (slot, m.next (slot + 1))
      else nextSlot m n (slot + 1)

def seekToFirst (m : HashMap K) : ℕ × ℕ := m.nextSlot m.nSlots 0

def iterNext (m : HashMap K) (it : ℕ × ℕ) : ℕ × ℕ :=
  if m.next it.2 ≠ 0 then (it.1, m.next it.2) else m.nextSlot (m.nSlots - (it.1 + 1)) (it.1 + 1)

def iterate (m : HashMap K) : ℕ → ℕ × ℕ → List K
  | 0, _ => []
  | fuel + 1, it =>
    if it.2 = 0 then [] else (m.keyAt it.2).toList ++ iterate m fuel (m.iterNext it)

def entries (m : HashMap K) : List K := m.iterate (m.keys.length + 1) m.seekToFirst

end HashMap

section Contents
variable {hash : K → ℕ} {compare : K → K → Ordering} {m : HashMap K} {key : K} {chains : ℕ → List ℕ}
  {l : List K}
  {before rest : List ℕ} {x : ℕ} {i : ℕ}

lemma HashMap.walk_eq (fuel : ℕ) (hlinked : Linked m.next x (x :: (before ++ rest)))
    (hbefore : ∀ n ∈ before, ((m.keyAt n).any fun k => compare k key = .lt) = true)
    (hrest : ((m.keyAt (rest.headD 0)).any fun k => compare k key = .lt) = false) :
    m.walk compare key (before.length + 1 + fuel) x (m.next x) =
      some (before.getLastD x, rest.headD 0) := by
  induction before generalizing x with
  | nil =>
    have hnext : m.next x = rest.headD 0 := hlinked.next_eq
    rw [length_nil, zero_add, add_comm, HashMap.walk, hnext, hrest]
    rfl
  | cons n before ih =>
    have hnext : m.next x = n := hlinked.next_eq
    have htail : Linked m.next n (n :: (before ++ rest)) := by
      have := hlinked.2.2
      rwa [hnext] at this
    have hturns : (n :: before).length + 1 + fuel = before.length + 1 + fuel + 1 := by
      rw [length_cons]
      omega
    rw [hturns, HashMap.walk, hnext, if_pos (hbefore n (by simp)),
      ih htail fun k hk => hbefore k (by simp [hk])]
    cases before <;> rfl

lemma exchange_eq {oldVal node pp : ℕ} {next : ℕ → ℕ} (hold : next pp = oldVal)
    (hne : node ≠ oldVal) :
    HashMap.exchange oldVal node pp 2 next = some (update next pp node) := by
  rw [HashMap.exchange, if_pos hold, HashMap.exchange, update_self, if_neg hne]

structure Holds (hash : K → ℕ) (compare : K → K → Ordering) (m : HashMap K) (chains : ℕ → List ℕ)
    (l : List K) : Prop where
  linked : ∀ i < m.nSlots, Linked m.next (i + 1) ((i + 1) :: chains i)
  keyed : ∀ i < m.nSlots, (chains i).map m.keyAt = (l.filter fun k => m.index hash k = i).map some
  sorted : l.Pairwise fun a b => compare b a ≠ .lt
  size : l.length = m.keys.length
  slots : 0 < m.nSlots

lemma Holds.index_lt (h : Holds hash compare m chains l) (key : K) : m.index hash key < m.nSlots :=
  Nat.mod_lt _ h.slots

lemma Holds.mem_chain (h : Holds hash compare m chains l) {i n : ℕ} (hi : i < m.nSlots)
    (hn : n ∈ chains i) :
    ∃ k, m.keyAt n = some k ∧ m.index hash k = i ∧ m.nSlots < n ∧
      n < m.nSlots + 1 + m.keys.length := by
  have hkey : m.keyAt n ∈ (l.filter fun k => m.index hash k = i).map some :=
    h.keyed i hi ▸ List.mem_map_of_mem hn
  obtain ⟨k, hk, heq⟩ := List.mem_map.mp hkey
  refine ⟨k, heq.symm, of_decide_eq_true (mem_filter.mp hk).2, ?_⟩
  rw [HashMap.keyAt] at heq
  split_ifs at heq with hle
  obtain ⟨hlt, -⟩ := List.getElem?_eq_some_iff.mp heq.symm
  omega

lemma Holds.slot_unique (h : Holds hash compare m chains l) {i j n : ℕ} (hi : i < m.nSlots)
    (hj : j < m.nSlots) (hni : n ∈ (i + 1) :: chains i) (hnj : n ∈ (j + 1) :: chains j) :
    i = j := by
  rcases mem_cons.mp hni with hni | hni <;> rcases mem_cons.mp hnj with hnj | hnj
  · omega
  · obtain ⟨k, -, -, hlt, -⟩ := h.mem_chain hj hnj
    omega
  · obtain ⟨k, -, -, hlt, -⟩ := h.mem_chain hi hni
    omega
  · obtain ⟨k, hk, hki, -⟩ := h.mem_chain hi hni
    obtain ⟨k', hk', hkj, -⟩ := h.mem_chain hj hnj
    rw [← hki, ← hkj, Option.some.inj (hk.symm.trans hk')]

def passed (compare : K → K → Ordering) (m : HashMap K) (chains : ℕ → List ℕ) (key : K) (i : ℕ) :
    List ℕ :=
  (chains i).filter fun n => (m.keyAt n).any fun k => compare k key = .lt

def ahead (compare : K → K → Ordering) (m : HashMap K) (chains : ℕ → List ℕ) (key : K) (i : ℕ) :
    List ℕ :=
  (chains i).filter fun n => !((m.keyAt n).any fun k => compare k key = .lt)

def front (hash : K → ℕ) (compare : K → K → Ordering) (m : HashMap K) (chains : ℕ → List ℕ)
    (key : K) : ℕ :=
  (passed compare m chains key (m.index hash key)).getLastD (m.index hash key + 1)

lemma Holds.filter_keyed (h : Holds hash compare m chains l) (hi : i < m.nSlots)
    (p : Option K → Bool) :
    ((chains i).filter fun n => p (m.keyAt n)).map m.keyAt =
      ((l.filter fun k => m.index hash k = i).filter fun k => p (some k)).map some := by
  have hfilter := List.filter_map (f := m.keyAt) (p := p) (l := chains i)
  rw [comp_def] at hfilter
  rw [← hfilter, h.keyed i hi, List.filter_map]
  rfl

lemma Holds.chain_eq [Std.TransCmp compare] (h : Holds hash compare m chains l) (key : K)
    (hi : i < m.nSlots) :
    chains i = passed compare m chains key i ++ ahead compare m chains key i := by
  refine eq_filter_append ?_
  have hsome : ((l.filter fun k => m.index hash k = i).map some).Pairwise fun a b : Option K =>
      (b.any fun k => compare k key = .lt) = true → (a.any fun k => compare k key = .lt) = true :=
    pairwise_map.mpr (sorted_pairwise (h.sorted.sublist filter_sublist) key)
  rw [← h.keyed i hi] at hsome
  exact pairwise_map.mp hsome

lemma Holds.chain_length (h : Holds hash compare m chains l) (hi : i < m.nSlots) :
    (chains i).length ≤ m.keys.length := by
  have hlength := congrArg List.length (h.keyed i hi)
  rw [length_map, length_map] at hlength
  rw [hlength, ← h.size]
  exact length_filter_le _ _

lemma Holds.walkSlot_eq [Std.TransCmp compare] (h : Holds hash compare m chains l) (key : K) :
    m.walkSlot hash compare key =
      some (front hash compare m chains key,
        (ahead compare m chains key (m.index hash key)).headD 0) := by
  have hi := h.index_lt key
  have hlinked := h.linked _ hi
  have hlength := h.chain_length hi
  rw [h.chain_eq key hi] at hlinked hlength
  rw [length_append] at hlength
  obtain ⟨fuel, hfuel⟩ := Nat.exists_eq_add_of_le
    (show (passed compare m chains key (m.index hash key)).length + 1 ≤ m.keys.length + 1 by omega)
  rw [HashMap.walkSlot]
  simp only [hfuel]
  refine HashMap.walk_eq fuel hlinked (fun n hn => (mem_filter.mp hn).2) ?_
  cases hahead : ahead compare m chains key (m.index hash key) with
  | nil => rfl
  | cons n rest =>
    have hn : n ∈ ahead compare m chains key (m.index hash key) := hahead ▸ mem_cons_self
    simpa using (mem_filter.mp hn).2

lemma Holds.findGreaterOrEqual_eq [Std.TransCmp compare] (h : Holds hash compare m chains l)
    (key : K) :
    ∃ slot n, m.findGreaterOrEqual hash compare key = some (slot, n) ∧
      (if slot < m.nSlots ∧ n ≠ 0 then m.keyAt n else none) =
        (l.filter fun k => m.index hash k = m.index hash key).find? fun k =>
        !(compare k key = .lt) := by
  have hi := h.index_lt key
  have hkeys : (ahead compare m chains key (m.index hash key)).head?.map m.keyAt =
      ((l.filter fun k => m.index hash k = m.index hash key).find? fun k =>
        !(compare k key = .lt)).map some := by
    have hfilter := congrArg List.head?
      (h.filter_keyed hi fun o => !(o.any fun k => compare k key = .lt))
    rw [head?_map, head?_map] at hfilter
    rw [← head?_filter]
    exact hfilter
  rw [HashMap.findGreaterOrEqual, h.walkSlot_eq key]
  cases hahead : ahead compare m chains key (m.index hash key) with
  | nil =>
    rw [hahead] at hkeys
    refine ⟨m.nSlots, 0, rfl, ?_⟩
    rw [if_neg (by simp), Option.map_eq_none_iff.mp hkeys.symm]
  | cons n rest =>
    rw [hahead] at hkeys
    have hn : n ∈ chains (m.index hash key) :=
      mem_of_mem_filter (hahead ▸ mem_cons_self : n ∈ ahead compare m chains key (m.index hash key))
    obtain ⟨k, -, -, hslot, -⟩ := h.mem_chain hi hn
    have hn0 : n ≠ 0 := by omega
    refine ⟨m.index hash key, n, by simp [hn0], ?_⟩
    obtain ⟨k', hfound, hkey⟩ := Option.map_eq_some_iff.mp hkeys.symm
    rw [if_pos ⟨hi, hn0⟩, hfound, hkey]

def HashMap.link (m : HashMap K) (key : K) (pp p : ℕ) : HashMap K :=
  { m with
    keys := m.keys ++ [key]
    next := update (update m.next (m.nSlots + 1 + m.keys.length) p) pp
      (m.nSlots + 1 + m.keys.length) }

lemma HashMap.link_keyAt (m : HashMap K) (key : K) (pp p n : ℕ) :
    (m.link key pp p).keyAt n = if n ≤ m.nSlots then none
      else (m.keys ++ [key])[n - (m.nSlots + 1)]? := rfl

lemma keyAt_link {pp p n : ℕ} (hn : n < m.nSlots + 1 + m.keys.length) :
    (m.link key pp p).keyAt n = m.keyAt n := by
  rw [HashMap.link_keyAt, HashMap.keyAt]
  split_ifs
  · rfl
  · rw [getElem?_append_left (by omega)]

lemma keyAt_link_new {pp p : ℕ} :
    (m.link key pp p).keyAt (m.nSlots + 1 + m.keys.length) = some key := by
  rw [HashMap.link_keyAt, if_neg (by omega), Nat.add_sub_cancel_left, getElem?_concat_length]

lemma Holds.lt_node (h : Holds hash compare m chains l) {i n : ℕ} (hi : i < m.nSlots)
    (hn : n ∈ (i + 1) :: chains i) :
    n < m.nSlots + 1 + m.keys.length := by
  rcases mem_cons.mp hn with rfl | hn
  · omega
  · obtain ⟨k, -, -, -, hlt⟩ := h.mem_chain hi hn
    exact hlt

lemma Holds.front_split [Std.TransCmp compare] (h : Holds hash compare m chains l) (key : K) :
    ∃ a, (m.index hash key + 1) :: passed compare m chains key (m.index hash key) =
      a ++ [front hash compare m chains key] ∧
      (m.index hash key + 1) :: chains (m.index hash key) =
        a ++ front hash compare m chains key :: ahead compare m chains key (m.index hash key) := by
  obtain ⟨a, ha⟩ := exists_cons_eq_concat (m.index hash key + 1)
    (passed compare m chains key (m.index hash key))
  refine ⟨a, ha, ?_⟩
  rw [h.chain_eq key (h.index_lt key), ← cons_append, ha, append_assoc, singleton_append]
  rfl

lemma Holds.put_link [Std.TransCmp compare] (h : Holds hash compare m chains l) (key : K) :
    m.put hash compare key = some (m.link key (front hash compare m chains key)
      (m.next (front hash compare m chains key))) := by
  obtain ⟨a, -, hsplit⟩ := h.front_split key
  have hlinked := h.linked _ (h.index_lt key)
  have hlt {n : ℕ} (hn : n ∈ (m.index hash key + 1) :: chains (m.index hash key)) :=
    h.lt_node (h.index_lt key) hn
  rw [hsplit] at hlinked hlt
  have hfront : front hash compare m chains key ≠ m.nSlots + 1 + m.keys.length := (hlt (by simp)).ne
  have hnext := hlinked.suffix.next_eq
  have hnode : m.nSlots + 1 + m.keys.length ≠ m.next (front hash compare m chains key) := by
    rw [hnext]
    cases hahead : ahead compare m chains key (m.index hash key) with
    | nil => rw [headD_nil]; omega
    | cons n rest => exact (hlt (by simp [hahead])).ne'
  rw [HashMap.put, h.walkSlot_eq key, ← hnext]
  simp only [exchange_eq rfl
    (show m.nSlots + 1 + m.keys.length ≠ update m.next (m.nSlots + 1 + m.keys.length)
    (m.next (front hash compare m chains key)) (front hash compare m chains key)
      by rwa [update_of_ne hfront])]
  rfl

def linkChains (hash : K → ℕ) (compare : K → K → Ordering) (m : HashMap K) (chains : ℕ → List ℕ)
    (key : K) : ℕ → List ℕ :=
  update chains (m.index hash key) (passed compare m chains key (m.index hash key) ++
    (m.nSlots + 1 + m.keys.length) :: ahead compare m chains key (m.index hash key))

lemma Holds.link_linked [Std.TransCmp compare] (h : Holds hash compare m chains l) (key : K)
    (hi : i < m.nSlots) :
    Linked (m.link key (front hash compare m chains key)
      (m.next (front hash compare m chains key))).next (i + 1)
      ((i + 1) :: linkChains hash compare m chains key i) := by
  obtain ⟨a, ha, hsplit⟩ := h.front_split key
  have hfront : front hash compare m chains key ∈
      (m.index hash key + 1) :: chains (m.index hash key) := by
    rw [hsplit]
    simp
  have hlt := h.lt_node (h.index_lt key) hfront
  by_cases hslot : i = m.index hash key
  · subst hslot
    have hlinked := h.linked _ hi
    have hmem : m.nSlots + 1 + m.keys.length ∉
        (m.index hash key + 1) :: chains (m.index hash key) :=
      fun hn => absurd (h.lt_node hi hn) (lt_irrefl _)
    rw [hsplit] at hlinked hmem
    rw [linkChains, update_self, ← cons_append, ha, append_assoc, singleton_append]
    refine hlinked.insertAfter (by omega) hmem (update_self ..) ?_ fun k hk hkx => ?_
    · simp only [HashMap.link]
      rw [update_of_ne hlt.ne', update_self]
    · simp only [HashMap.link]
      rw [update_of_ne hk, update_of_ne hkx]
  · rw [linkChains, update_of_ne hslot]
    refine (h.linked i hi).congr fun n hn => ?_
    have hne : n ≠ front hash compare m chains key :=
      fun he => hslot (h.slot_unique hi (h.index_lt key) hn (he ▸ hfront))
    simp only [HashMap.link]
    rw [update_of_ne hne, update_of_ne (h.lt_node hi hn).ne]

lemma Holds.link_keyed [Std.TransCmp compare] (h : Holds hash compare m chains l) (key : K)
    {i pp p : ℕ} (hi : i < m.nSlots) :
    (linkChains hash compare m chains key i).map (m.link key pp p).keyAt =
      ((insertKey compare key l).filter fun k => m.index hash k = i).map some := by
  have hold {part : List ℕ} (hpart : ∀ n ∈ part, n ∈ chains i) :
      part.map (m.link key pp p).keyAt = part.map m.keyAt :=
    map_congr_left fun n hn => keyAt_link (h.lt_node hi (mem_cons_of_mem _ (hpart n hn)))
  rw [insertKey_filter h.sorted]
  by_cases hslot : i = m.index hash key
  · subst hslot
    have hpassed : ∀ n ∈ passed compare m chains key (m.index hash key),
        n ∈ chains (m.index hash key) :=
      fun n hn => mem_of_mem_filter hn
    have hahead : ∀ n ∈ ahead compare m chains key (m.index hash key),
        n ∈ chains (m.index hash key) :=
      fun n hn => mem_of_mem_filter hn
    rw [linkChains, update_self, map_append, map_cons, hold hpassed, hold hahead, keyAt_link_new,
      if_pos (decide_eq_true rfl), insertKey, map_append, map_cons]
    exact congrArg₂ (· ++ some key :: ·)
      (h.filter_keyed hi fun o => o.any fun k => compare k key = .lt)
      (h.filter_keyed hi fun o => !(o.any fun k => compare k key = .lt))
  · rw [linkChains, update_of_ne hslot, if_neg (by simpa using Ne.symm hslot), hold fun n hn => hn,
      h.keyed i hi]

/-- `Put` adds the key in its place in its slot. -/
theorem Holds.put_eq [Std.TransCmp compare] (h : Holds hash compare m chains l) (key : K) :
    ∃ m' chains', m.put hash compare key = some m' ∧
      Holds hash compare m' chains' (insertKey compare key l) := by
  refine ⟨_, linkChains hash compare m chains key, h.put_link key,
    ⟨?_, ?_, insertKey_sorted h.sorted, ?_, h.slots⟩⟩
  · exact fun i hi => h.link_linked key hi
  · exact fun i hi => h.link_keyed key hi
  · rw [insertKey_perm.length_eq, length_cons, h.size]
    exact (@length_append _ m.keys [key]).symm

section Iteration
variable {nodes : List ℕ} {keys : List K} {p : ℕ}

lemma HashMap.walkEqual_eq (hlinked : Linked m.next p nodes)
    (hkeys : nodes.map m.keyAt = keys.map some) {fuel : ℕ} (hfuel : nodes.length < fuel) :
    ∃ n, m.walkEqual compare key fuel p = some n ∧
      (n = 0 ∧ keys.find? (fun k => compare k key = .eq) = none ∨
        n ∈ nodes ∧ m.keyAt n = keys.find? fun k => compare k key = .eq) := by
  induction nodes generalizing p keys fuel with
  | nil =>
    obtain ⟨fuel, rfl⟩ : ∃ f, fuel = f + 1 := ⟨fuel - 1, by simp at hfuel; omega⟩
    obtain rfl : keys = [] := by simpa using hkeys.symm
    rw [linked_nil.mp hlinked]
    exact ⟨0, by simp [HashMap.walkEqual], .inl ⟨rfl, rfl⟩⟩
  | cons n nodes ih =>
    rw [length_cons] at hfuel
    obtain ⟨fuel, rfl⟩ : ∃ f, fuel = f + 1 := ⟨fuel - 1, by omega⟩
    obtain ⟨rfl, hne, htail⟩ := hlinked
    obtain ⟨k, keys, rfl⟩ : ∃ k ks, keys = k :: ks := by
      cases keys with
      | nil => simp at hkeys
      | cons k ks => exact ⟨k, ks, rfl⟩
    rw [map_cons, map_cons, List.cons.injEq] at hkeys
    by_cases hk : compare k key = .eq
    · refine ⟨p, ?_, .inr ⟨mem_cons_self, ?_⟩⟩
      · rw [HashMap.walkEqual, if_pos (by simp [hkeys.1, hk])]
      · rw [hkeys.1, find?_cons_of_pos (by simpa using hk)]
    · obtain ⟨n, hwalk, hn⟩ := ih htail hkeys.2 (show nodes.length < fuel by omega)
      refine ⟨n, ?_, ?_⟩
      · rw [HashMap.walkEqual, if_neg (by simp [hkeys.1, hk, hne]), hwalk]
      · rw [find?_cons_of_neg (by simpa using hk)]
        exact hn.imp_right fun h => ⟨mem_cons_of_mem _ h.1, h.2⟩

lemma Holds.findEqual_eq (h : Holds hash compare m chains l) (key : K) :
    ∃ slot n, m.findEqual hash compare key = some (slot, n) ∧
      (if slot < m.nSlots ∧ n ≠ 0 then m.keyAt n else none) =
        (l.filter fun k => m.index hash k = m.index hash key).find? fun k => compare k key =
        .eq := by
  have hi := h.index_lt key
  have hlinked : Linked m.next (m.next (m.index hash key + 1)) (chains (m.index hash key)) :=
    (h.linked _ hi).2.2
  have hlength := h.chain_length hi
  obtain ⟨n, hwalk, hn⟩ := HashMap.walkEqual_eq hlinked (h.keyed _ hi) (Nat.lt_succ_of_le hlength)
  rw [HashMap.findEqual, hwalk]
  rcases hn with ⟨rfl, hnone⟩ | ⟨hmem, hkey⟩
  · exact ⟨m.nSlots, 0, rfl, by simp [hnone]⟩
  · obtain ⟨k, -, -, hlt, -⟩ := h.mem_chain hi hmem
    have hne : n ≠ 0 := by omega
    exact ⟨m.index hash key, n, by simp [hne], by rw [if_pos ⟨hi, hne⟩, hkey]⟩

lemma HashMap.iterate_chain {slot fuel : ℕ} (hlinked : Linked m.next p nodes)
    (hkeys : nodes.map m.keyAt = keys.map some) (hne : nodes ≠ []) :
    m.iterate (nodes.length + fuel) (slot, p) =
      keys ++ m.iterate fuel (m.nextSlot (m.nSlots - (slot + 1)) (slot + 1)) := by
  induction nodes generalizing p keys with
  | nil => exact absurd rfl hne
  | cons n nodes ih =>
    obtain ⟨rfl, hp, htail⟩ := hlinked
    obtain ⟨k, keys, rfl⟩ : ∃ k ks, keys = k :: ks := by
      cases keys with
      | nil => simp at hkeys
      | cons k ks => exact ⟨k, ks, rfl⟩
    rw [map_cons, map_cons, List.cons.injEq] at hkeys
    rw [show (p :: nodes).length + fuel = nodes.length + fuel + 1 by rw [length_cons]; omega,
      HashMap.iterate, if_neg hp, hkeys.1, HashMap.iterNext]
    cases nodes with
    | nil =>
      obtain rfl : keys = [] := by simpa using hkeys.2.symm
      rw [linked_nil.mp htail]
      simp
    | cons n nodes =>
      have hn : m.next p ≠ 0 := by
        rw [htail.1]
        exact htail.2.1
      rw [if_pos hn, ih htail hkeys.2 (by simp)]
      rfl

lemma Holds.iterate_slots (h : Holds hash compare m chains l) {n slot fuel : ℕ}
    (hn : slot + n = m.nSlots)
    (hfuel : ((List.range' slot n).flatMap fun i => l.filter fun k => m.index hash k = i).length ≤
    fuel) :
    m.iterate fuel (m.nextSlot n slot) = (List.range' slot n).flatMap fun i => l.filter fun k =>
      m.index hash k = i := by
  induction n generalizing slot fuel with
  | zero => cases fuel <;> rfl
  | succ n ih =>
    have hi : slot < m.nSlots := by omega
    have hlinked : Linked m.next (m.next (slot + 1)) (chains slot) := (h.linked _ hi).2.2
    have hkeyed := h.keyed slot hi
    have hlength := congrArg List.length hkeyed
    rw [length_map, length_map] at hlength
    rw [range'_succ, flatMap_cons] at hfuel ⊢
    rw [length_append] at hfuel
    rw [HashMap.nextSlot]
    cases hchain : chains slot with
    | nil =>
      rw [hchain] at hlinked hkeyed
      rw [if_neg (by simpa using linked_nil.mp hlinked), ih (by omega) (by omega)]
      rw [(by simpa using hkeyed.symm : (l.filter fun k => m.index hash k = slot) = []), nil_append]
    | cons node nodes =>
      rw [hchain] at hlinked hkeyed hlength
      obtain ⟨fuel, rfl⟩ := Nat.exists_eq_add_of_le (show (node :: nodes).length ≤ fuel by omega)
      have hnext : m.next (slot + 1) ≠ 0 := by
        rw [hlinked.1]
        exact hlinked.2.1
      rw [if_pos hnext, HashMap.iterate_chain hlinked hkeyed (by simp),
        show m.nSlots - (slot + 1) = n by omega, ih (by omega) (by omega)]

lemma Holds.flatMap_perm (h : Holds hash compare m chains l) :
    ((List.range m.nSlots).flatMap fun i => l.filter fun k => m.index hash k = i).Perm l := by
  have hall : (l.filter fun k => m.index hash k < m.nSlots) = l :=
    filter_eq_self.mpr fun k _ => decide_eq_true (h.index_lt k)
  have hperm := GroupedList.perm_flatMap_filter (m.index hash) l m.nSlots
  rwa [hall] at hperm

lemma Holds.entries_eq (h : Holds hash compare m chains l) :
    m.entries = (List.range m.nSlots).flatMap fun i => l.filter fun k => m.index hash k = i := by
  have hlength := h.flatMap_perm.length_eq
  rw [range_eq_range'] at hlength ⊢
  rw [HashMap.entries, HashMap.seekToFirst]
  refine h.iterate_slots (zero_add _) ?_
  rw [hlength, h.size]
  exact Nat.le_succ _

lemma Holds.entries_perm (h : Holds hash compare m chains l) : m.entries.Perm l := by
  rw [h.entries_eq]
  exact h.flatMap_perm

end Iteration

lemma holds_empty {n : ℕ} (hn : 0 < n) :
    Holds hash compare (HashMap.empty n : HashMap K) (fun _ => []) [] where
  linked _ _ := ⟨rfl, Nat.succ_ne_zero _, rfl⟩
  keyed _ _ := rfl
  sorted := List.Pairwise.nil
  size := rfl
  slots := hn

end Contents

end Mai.CoreHashMap
