import Mai.CoreHashMap
import Mai.CoreMemoryTable
import Mai.CoreSkipList

/-! The two memory tables (`core/ordered-memory-table.cc`, `core/unordered-memory-table.cc`). Both
keep key boundles in the order of the internal keys, one in a skip list and one in a hash map, and
answer a read by a seek. A key boundle keeps the length of its user key in 32 bits, so user keys are
shorter than 4 GiB. -/
namespace Mai.CoreTableGet
open VersionedEntries CoreKeys CoreMemoryTable SortedInsert List
open CoreSkipList (SkipList)
open CoreHashMap (HashMap)

variable {K : Type*}

section Model

structure PutArgs (K : Type*) where
  key : K
  value : Bytes
  version : ℕ
  flag : Flag

def keyBoundle (key : K) (value : Bytes) (version : ℕ) (flag : Flag) : Entry K :=
  ⟨makeKey key (version % 2 ^ 56) flag, value⟩

def PutArgs.boundle (args : PutArgs K) : Entry K :=
  keyBoundle args.key args.value args.version args.flag

def PutArgs.entry (args : PutArgs K) : Entry K :=
  ⟨makeKey args.key args.version args.flag, args.value⟩

variable [LinearOrder K]

def compareEntries (a b : Entry K) : Ordering := a.key.compare b.key

def Entry.found (e : Entry K) : Tag × Option Bytes :=
  (e.key.tag, if e.flag = .value then some e.value else none)

def answerGet (key : K) : Option (Entry K) → Except Error (Tag × Option Bytes)
  | none => .error (.notFound "Can not seek key.")
  | some e => if e.userKey ≠ key then .error (.notFound "Key not equals target.")
      else .ok (Entry.found e)

def orderedPut (t : SkipList (Entry K)) (args : PutArgs K) (rand : List ℕ) :
    Option (SkipList (Entry K)) :=
  t.put compareEntries args.boundle rand

def orderedGet (t : SkipList (Entry K)) (key : K) (version : ℕ) :
    Option (Except Error (Tag × Option Bytes)) :=
  (t.findGreaterOrEqual compareEntries (keyBoundle key [] version .valueForSeek)).map fun (n, _) =>
    answerGet key (t.keyAt n)

def hashEntry (hash : K → ℕ) (e : Entry K) : ℕ := hash e.userKey

def unorderedPut (hash : K → ℕ) (t : HashMap (Entry K)) (args : PutArgs K) :
    Option (HashMap (Entry K)) :=
  t.put (hashEntry hash) compareEntries args.boundle

def unorderedGet (hash : K → ℕ) (t : HashMap (Entry K)) (key : K) (version : ℕ) :
    Option (Except Error (Tag × Option Bytes)) :=
  (t.findGreaterOrEqual (hashEntry hash) compareEntries
    (keyBoundle key [] version .valueForSeek)).map fun (slot, n) =>
    answerGet key (if slot < t.nSlots ∧ n ≠ 0 then t.keyAt n else none)

/-- The tables after a history of calls of `Put`, each with the random numbers of its node. -/
def orderedRun (history : List (PutArgs K × List ℕ)) : Option (SkipList (Entry K)) :=
  history.foldlM (fun t call => orderedPut t call.1 call.2) SkipList.empty

def unorderedRun (hash : K → ℕ) (initialSlots : ℕ) (history : List (PutArgs K × List ℕ)) :
    Option (HashMap (Entry K)) :=
  history.foldlM (fun t call => unorderedPut hash t call.1) (HashMap.empty initialSlots)

end Model

variable [LinearOrder K] {history : List (PutArgs K × List ℕ)} {l : List (Entry K)}

instance : Std.TransCmp (compareEntries (K := K)) where
  eq_swap {a b} := @Std.OrientedCmp.eq_swap _ InternalKey.compare _ a.key b.key
  isLE_trans {a b c} := @Std.TransCmp.isLE_trans _ InternalKey.compare _ a.key b.key c.key

def contents (history : List (PutArgs K × List ℕ)) : List (Entry K) :=
  history.foldl (fun l call => insertKey compareEntries call.1.boundle l) []

lemma orderedRun_holds (history : List (PutArgs K × List ℕ)) :
    ∃ t levels, orderedRun history = some t ∧
      CoreSkipList.Holds compareEntries t levels (contents history) := by
  induction history using List.reverseRecOn with
  | nil => exact ⟨_, _, rfl, CoreSkipList.holds_empty⟩
  | append_singleton history call ih =>
    obtain ⟨t, levels, hrun, hholds⟩ := ih
    obtain ⟨t', levels', hput, hholds'⟩ := hholds.put_eq call.1.boundle call.2
    refine ⟨t', levels', ?_, ?_⟩
    · rw [orderedRun] at hrun ⊢
      rw [foldlM_append, hrun]
      simp [orderedPut, hput]
    · rw [contents, foldl_append]
      exact hholds'

lemma unorderedRun_holds (hash : K → ℕ) {initialSlots : ℕ} (hslots : 0 < initialSlots)
    (history : List (PutArgs K × List ℕ)) :
    ∃ t chains, unorderedRun hash initialSlots history = some t ∧
      CoreHashMap.Holds (hashEntry hash) compareEntries t chains (contents history) := by
  induction history using List.reverseRecOn with
  | nil => exact ⟨_, _, rfl, CoreHashMap.holds_empty hslots⟩
  | append_singleton history call ih =>
    obtain ⟨t, chains, hrun, hholds⟩ := ih
    obtain ⟨t', chains', hput, hholds'⟩ := hholds.put_eq call.1.boundle
    refine ⟨t', chains', ?_, ?_⟩
    · rw [unorderedRun] at hrun ⊢
      rw [foldlM_append, hrun]
      simp [unorderedPut, hput]
    · rw [contents, foldl_append]
      exact hholds'

lemma insertEntry_eq {e : Entry K} (h : OrderedEntries l) :
    MemoryTable.insertEntry e l = insertKey compareEntries e l := by
  induction l with
  | nil => rfl
  | cons a l ih =>
    obtain ⟨hhead, htail⟩ := pairwise_cons.mp h
    rw [MemoryTable.insertEntry]
    by_cases ha : a.Before e
    · have ha' : decide (compareEntries a e = .lt) = true := decide_eq_true ha
      rw [if_pos ha, ih htail, insertKey, insertKey]
      simp [ha']
    · have hnone : (a :: l).filter (fun b => compareEntries b e = .lt) = [] := by
        refine filter_eq_nil_iff.mpr fun b hb hbe => ?_
        rcases mem_cons.mp hb with rfl | hb
        · exact ha (of_decide_eq_true hbe)
        · exact ha (@before_trans _ compareEntries e _ a b (hhead b hb) (of_decide_eq_true hbe))
      rw [if_neg ha, insertKey, hnone, filter_eq_self.mpr fun b hb => ?_, nil_append]
      rw [Bool.not_eq_true']
      simpa using filter_eq_nil_iff.mp hnone b hb

def tableAfter (history : List (PutArgs K × List ℕ)) : MemoryTable K :=
  history.foldl (fun m call => m.put call.1.key call.1.value call.1.version call.1.flag) .empty

lemma contents_eq (h : ∀ call ∈ history, call.1.version ≤ kMaxSequenceNumber) :
    contents history = (tableAfter history).entries := by
  induction history using List.reverseRecOn with
  | nil => rfl
  | append_singleton history call ih =>
    have hpacked : call.1.version % 2 ^ 56 = call.1.version :=
      Nat.mod_eq_of_lt ((h call (by simp)).trans_lt (by decide))
    have hafter : tableAfter (history ++ [call]) =
        (tableAfter history).put call.1.key call.1.value call.1.version call.1.flag :=
      foldl_concat ..
    rw [contents, foldl_concat, ← contents, ih fun c hc => h c (by simp [hc]), hafter,
      PutArgs.boundle, keyBoundle, hpacked]
    exact (insertEntry_eq (tableAfter history).ordered).symm

/-- Both kinds of tables refine the memory table of the database. -/
theorem memoryTables_refine (hash : K → ℕ) {initialSlots : ℕ} (hslots : 0 < initialSlots)
    (history : List (PutArgs K × List ℕ))
    (hversions : ∀ call ∈ history, call.1.version ≤ kMaxSequenceNumber) :
    (∃ t levels, orderedRun history = some t ∧
      CoreSkipList.Holds compareEntries t levels (tableAfter history).entries) ∧
      ∃ t chains, unorderedRun hash initialSlots history = some t ∧
        CoreHashMap.Holds (hashEntry hash) compareEntries t chains
        (tableAfter history).entries := by
  rw [← contents_eq hversions]
  exact ⟨orderedRun_holds history, unorderedRun_holds hash hslots history⟩

theorem memoryTables_refine_two :
    ∃ t levels, orderedRun [(⟨2, [7], 1, .value⟩, [0]), (⟨1, [], 2, .deletion⟩, [1])] = some t ∧
    CoreSkipList.Holds compareEntries t levels [keyBoundle 1 [] 2 .deletion,
      keyBoundle (2 : ℕ) [7] 1 .value] :=
  (memoryTables_refine id Nat.one_pos _ (by decide)).1

lemma contents_ordered (history : List (PutArgs K × List ℕ)) :
    OrderedEntries (contents history) := by
  obtain ⟨t, levels, -, hholds⟩ := orderedRun_holds history
  exact hholds.sorted

lemma mem_contents {e : Entry K} :
    e ∈ contents history ↔ e ∈ history.map fun call => call.1.boundle := by
  induction history using List.reverseRecOn with
  | nil => rfl
  | append_singleton history call ih =>
    rw [contents, foldl_append, foldl_cons, foldl_nil, insertKey_perm.mem_iff, mem_cons, ← contents,
      ih]
    simp [or_comm]

lemma seekEntry_eq_find (h : OrderedEntries l) (k : K) (s : ℕ) :
    seekEntry l k s = l.find? (entryStamp.visible k s) := by
  induction l with
  | nil => rfl
  | cons a l ih =>
    obtain ⟨hhead, htail⟩ := pairwise_cons.mp h
    by_cases ha : a.key.compare (makeKey k s .valueForSeek) ≠ .lt
    · have hseek : seekEntry (a :: l) k s = (some a).filter fun e => e.userKey = k := by
        simp [seekEntry, seek, ha]
      rw [hseek, Option.filter_some]
      rcases not_before_seekKey.mp ha with hk | ⟨hk, hs⟩
      · rw [if_neg (by simp [hk.ne'])]
        refine (find?_eq_none.mpr fun b hb hvisible => ?_).symm
        have hbk : b.userKey = k := (Stamp.visible_iff.mp hvisible).1
        rcases mem_cons.mp hb with rfl | hb
        · exact hk.ne' hbk
        · rcases Entry.not_before_iff.mp (hhead b hb) with hab | ⟨hab, -⟩
          · exact (hk.trans hab).ne' hbk
          · exact hk.ne' (hab.trans hbk)
      · rw [if_pos (by simp [hk]), find?_cons_of_pos (Stamp.visible_iff.mpr ⟨hk, hs⟩)]
    · have hlt : a.key.compare (makeKey k s .valueForSeek) = .lt := not_not.mp ha
      have hseek : seekEntry (a :: l) k s = seekEntry l k s := by
        simp [seekEntry, seek, hlt]
      rw [hseek, ih htail, find?_cons_of_neg]
      exact fun hvisible => ha (not_before_seekKey.mpr (.inr (Stamp.visible_iff.mp hvisible)))

def Answers (r : Except Error (Tag × Option Bytes)) : Option (Tag × Option Bytes) → Prop
  | some found => r = .ok found
  | none => ∃ message, r = .error (.notFound message)

lemma answerGet_answers (l : List (Entry K)) (k : K) (s : ℕ) :
    Answers (answerGet k (l.find? fun e =>
      !(compareEntries e (keyBoundle k [] s .valueForSeek) = .lt)))
      ((seekEntry l k (s % 2 ^ 56)).map Entry.found) := by
  have hseek : (l.find? fun e => !(compareEntries e (keyBoundle k [] s .valueForSeek) = .lt)) =
      seek l (makeKey k (s % 2 ^ 56) .valueForSeek) := by
    rw [seek]
    congr 1
    funext e
    rw [decide_not]
    rfl
  rw [hseek, seekEntry]
  cases seek l (makeKey k (s % 2 ^ 56) .valueForSeek) with
  | none => exact ⟨_, rfl⟩
  | some e =>
    rw [Option.filter_some, answerGet]
    by_cases he : e.userKey = k
    · rw [if_neg (not_not.mpr he), if_pos (decide_eq_true he)]
      rfl
    · rw [if_pos he, if_neg (by simpa using he)]
      exact ⟨_, rfl⟩

lemma seekEntry_filter (h : OrderedEntries l) {p : Entry K → Bool} {k : K} {s : ℕ}
    (hp : ∀ e : Entry K, e.userKey = k → p e = true) :
    seekEntry (l.filter p) k s = seekEntry l k s := by
  rw [seekEntry_eq_find h, seekEntry_eq_find (h.sublist filter_sublist), find?_filter]
  congr 1
  funext e
  cases hvisible : entryStamp.visible k s e with
  | false => simp
  | true => simp [hp e (Stamp.visible_iff.mp hvisible).1]

lemma seekEntry_contents {version : ℕ}
    (hnodup : (history.map fun call => call.1.version).Nodup)
    (hmax : ∀ call ∈ history, call.1.version ≤ kMaxSequenceNumber)
    (hversion : version ≤ kMaxSequenceNumber) (key : K) :
    seekEntry (contents history) key (version % 2 ^ 56) =
      entryStamp.newest (history.map fun call => call.1.entry) key version := by
  have hlt : kMaxSequenceNumber < 2 ^ 56 := by decide
  have hmem (e : Entry K) : e ∈ contents history ↔ e ∈ history.map fun call => call.1.entry := by
    rw [mem_contents, map_congr_left fun call hcall => ?_]
    rw [PutArgs.boundle, keyBoundle, Nat.mod_eq_of_lt ((hmax call hcall).trans_lt hlt),
      PutArgs.entry]
  have hdistinct : entryStamp.Distinct (· ∈ contents history) := by
    intro a b ha hb _ hseq
    obtain ⟨call, hcall, rfl⟩ := List.mem_map.mp ((hmem a).mp ha)
    obtain ⟨call', hcall', rfl⟩ := List.mem_map.mp ((hmem b).mp hb)
    rw [inj_on_of_nodup_map hnodup hcall hcall' hseq]
  rw [Nat.mod_eq_of_lt (hversion.trans_lt hlt),
    seekEntry_eq_newest (contents_ordered history) hdistinct, Stamp.newest_congr hdistinct hmem]

/-- Both memory tables answer every read alike, with the newest version if no two puts share one. -/
theorem memoryTables_agree (hash : K → ℕ) (initialSlots : ℕ) (hslots : 0 < initialSlots)
    (history : List (PutArgs K × List ℕ)) :
    ∃ ordered unordered, orderedRun history = some ordered ∧
      unorderedRun hash initialSlots history = some unordered ∧
      ∀ key version, ∃ expected,
        (∃ r, orderedGet ordered key version = some r ∧ Answers r expected) ∧
        (∃ r, unorderedGet hash unordered key version = some r ∧ Answers r expected) ∧
        ((history.map fun call => call.1.version).Nodup →
        (∀ call ∈ history, call.1.version ≤ kMaxSequenceNumber) →
          version ≤ kMaxSequenceNumber →
          expected = (entryStamp.newest (history.map fun call => call.1.entry) key version).map
          Entry.found) := by
  obtain ⟨ordered, levels, hrun, hordered⟩ := orderedRun_holds history
  obtain ⟨unordered, chains, hrun', hunordered⟩ := unorderedRun_holds hash hslots history
  refine ⟨ordered, unordered, hrun, hrun', fun key version => ?_⟩
  refine ⟨(seekEntry (contents history) key (version % 2 ^ 56)).map Entry.found, ?_, ?_,
    fun hnodup hmax hversion => ?_⟩
  · obtain ⟨n, prev, hfind, hkey, -⟩ :=
      hordered.findGreaterOrEqual_eq (keyBoundle key [] version .valueForSeek)
    refine ⟨answerGet key (ordered.keyAt n), by rw [orderedGet, hfind]; rfl, ?_⟩
    rw [hkey]
    exact answerGet_answers _ _ _
  · obtain ⟨slot, n, hfind, hkey⟩ :=
      hunordered.findGreaterOrEqual_eq (keyBoundle key [] version .valueForSeek)
    refine ⟨answerGet key (if slot < unordered.nSlots ∧ n ≠ 0 then unordered.keyAt n else none),
      by rw [unorderedGet, hfind]; rfl, ?_⟩
    rw [hkey, ← seekEntry_filter (contents_ordered history)]
    · exact answerGet_answers _ _ _
    · intro e he
      rw [decide_eq_true_eq, HashMap.index, HashMap.index, hashEntry, he]
      rfl
  · rw [seekEntry_contents hnodup hmax hversion]

theorem memoryTables_agree_overwritten :
    ∃ ordered unordered,
      orderedRun [(⟨5, [1], 2, .value⟩, [0, 3]), (⟨7, [2], 3, .deletion⟩, []),
        (⟨5, [4], 4, .value⟩, [4])] = some ordered ∧
      unorderedRun (fun k => k) 2 [(⟨5, [1], 2, .value⟩, [0, 3]), (⟨7, [2], 3, .deletion⟩, []),
        (⟨5, [4], 4, .value⟩, [4])] =
        some unordered ∧
      (∃ r, orderedGet ordered 5 3 = some r ∧ Answers r (some (⟨2, .value⟩, some [1]))) ∧
      ∃ r, unorderedGet (fun k => k) unordered 5 3 = some r ∧
        Answers r (some (⟨2, .value⟩, some [1])) := by
  obtain ⟨ordered, unordered, hrun, hrun', hget⟩ :=
    memoryTables_agree (K := ℕ) (fun k => k) 2 (by decide)
    [(⟨5, [1], 2, .value⟩, [0, 3]), (⟨7, [2], 3, .deletion⟩, []), (⟨5, [4], 4, .value⟩, [4])]
  obtain ⟨expected, hordered, hunordered, hexpected⟩ := hget 5 3
  have hfound : expected = some (⟨2, .value⟩, some [1]) :=
    (hexpected (by decide) (by decide) (by decide)).trans (by decide)
  exact ⟨ordered, unordered, hrun, hrun', hfound ▸ hordered, hfound ▸ hunordered⟩

end Mai.CoreTableGet
