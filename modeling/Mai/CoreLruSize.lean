import Mai.CoreLruCache

/-! How many entries a shard of the cache counts, and how many a purge leaves. -/
namespace Mai.CoreLruSize
open CoreHashMap SortedInsert RunInvariant CoreLruCache List Option

variable {K V : Type*} [LinearOrder K] {o : Options K} {s t : LRUCacheShard K V}
  {l l' : List (Ref K)}
  {force : Bool} {a : Call K V}

def liveEntries (s : LRUCacheShard K V) : ℕ := (s.table.entries.filter fun r => s.live r.id).length

lemma liveEntries_eq (h : ShardInv o s l) : s.listed = liveEntries s := by
  obtain ⟨chains, htable⟩ := h.table
  have hperm : ((l.filter fun r => s.live r.id).map Ref.id).Perm (s.lru ++ s.inUse) := by
    refine (perm_ext_iff_of_nodup (h.nodup.sublist (filter_sublist.map _)) h.lists).mpr fun id => ?_
    rw [h.mem_lists, List.mem_map]
    constructor
    · rintro ⟨r, hr, rfl⟩
      exact (mem_filter.mp hr).2
    · intro hlive
      obtain ⟨x, hx, hdel⟩ := live_iff.mp hlive
      exact ⟨⟨x.key, id⟩, mem_filter.mpr ⟨h.stored id x hx hdel, hlive⟩, rfl⟩
  have hlength := hperm.length_eq
  rw [length_map, ← (htable.entries_perm.filter _).length_eq] at hlength
  exact hlength.symm

/-- The deleted handles were in the lists and are so no longer. -/
lemma Evicted.listed {ids : List ℕ} (hevicted : Evicted s t ids) (h : ShardInv o s l)
    (hlists : (t.lru ++ t.inUse).Nodup) (hmem : ∀ id, id ∈ t.lru ++ t.inUse ↔ t.live id = true)
    (hnodup : ids.Nodup) (hlive : ∀ id ∈ ids, s.live id = true) :
    t.listed + ids.length = s.listed := by
  have hdisjoint : ∀ id ∈ t.lru ++ t.inUse, ∀ i ∈ ids, id ≠ i := by
    rintro id hid i hi rfl
    exact ((hevicted.live id).mp ((hmem id).mp hid)).2 hi
  have hall : ((t.lru ++ t.inUse) ++ ids).Nodup := nodup_append.mpr ⟨hlists, hnodup, hdisjoint⟩
  have hperm : ((t.lru ++ t.inUse) ++ ids).Perm (s.lru ++ s.inUse) := by
    refine (perm_ext_iff_of_nodup hall h.lists).mpr fun id => ?_
    rw [mem_append, hmem, h.mem_lists, hevicted.live]
    constructor
    · rintro (⟨hid, -⟩ | hid)
      · exact hid
      · exact hlive id hid
    · intro hid
      by_cases hin : id ∈ ids
      · exact .inr hin
      · exact .inl ⟨hid, hin⟩
  rw [LRUCacheShard.listed, ← length_append, hperm.length_eq, LRUCacheShard.listed]

lemma listed_kept (h : ShardInv o s l) (h' : ShardInv o t l') (hevicted : Evicted s t []) :
    t.listed = s.listed :=
  Evicted.listed hevicted h h'.lists h'.mem_lists nodup_nil (by simp)

omit [LinearOrder K] in
lemma dropSize_iterate {n k : ℕ} (h : k ≤ n) : LRUCacheShard.dropSize^[k] n = n - k := by
  induction k with
  | zero => rfl
  | succ k ih =>
    rw [Function.iterate_succ_apply', ih (by omega), LRUCacheShard.dropSize, if_neg (by omega)]
    omega

lemma dropSize_iterate_ne {n k : ℕ} (h : k ≤ n) : LRUCacheShard.dropSize^[k + 1] n ≠ n - k := by
  rw [Function.iterate_succ_apply', dropSize_iterate h, LRUCacheShard.dropSize]
  split_ifs <;> omega

lemma purge_counts (h : ShardInv o s l) (h' : ShardInv o t l')
    (hresult : PurgeResult o force s l t l') (hpurges : purges o force s) :
    t.listed + (purged s).length = s.listed ∧
      t.size = LRUCacheShard.dropSize^[drops o s] s.size := by
  have hsub : List.Sublist (purged s) (s.lru ++ s.inUse) := by
    refine filter_sublist.trans (List.Sublist.append_right ?_ _)
    cases s.lru <;> simp
  have hlive : ∀ id ∈ purged s, s.live id = true :=
    fun id hid => (h.mem_lists id).mp (hsub.subset hid)
  cases hresult with
  | skipped hskip => exact absurd hpurges hskip
  | purged _ hevicted _ hsize =>
    exact ⟨Evicted.listed hevicted h h'.lists h'.mem_lists (h.lists.sublist hsub) hlive, hsize⟩
  | @rebuilt u table _ _ hevicted _ hsize =>
    exact ⟨Evicted.listed (t := u) hevicted h h'.lists h'.mem_lists (h.lists.sublist hsub) hlive,
      hsize⟩

/-- A purge that does not take the head of the list for an entry lowers the size by as many handles
as leave the lists. -/
lemma purge_sized (h : ShardInv o s l) (h' : ShardInv o t l')
    (hresult : PurgeResult o force s l t l') (hdummy : ¬ ReadsDummy o force s)
    (hsize : s.listed ≤ s.size) :
    t.size + s.listed = s.size + t.listed := by
  by_cases hpurges : purges o force s
  · obtain ⟨hlisted, hdrops⟩ := purge_counts h h' hresult hpurges
    have hno : ¬ (s.lru = [] ∧ o.dummyRefs = 1) :=
      fun hread => hdummy ⟨hpurges, hread.1, hread.2.ge⟩
    rw [drops, if_neg hno, Nat.add_zero, dropSize_iterate (by omega)] at hdrops
    omega
  · cases hresult with
    | skipped => rfl
    | purged hp => exact absurd hp hpurges
    | rebuilt hp => exact absurd hp hpurges

lemma size_ne_of_readsDummy (h : ShardInv o s l) (hdummy : ReadsDummy o force s)
    (hsize : s.size = s.listed) (ht : s.purgeIfNeeded o force = some t) : t.size ≠ t.listed := by
  obtain ⟨hpurges, hlru, hrefs⟩ := hdummy
  obtain ⟨l', h', hresult⟩ := h.purgeIfNeeded ht
  obtain ⟨hlisted, hdrops⟩ := purge_counts h h' hresult hpurges
  have hone : o.dummyRefs = 1 := by
    by_contra hne
    have hskip : ¬ (s.size ≤ o.capacity ∧ force = false) := fun hskip => not_purges hskip hpurges
    rw [LRUCacheShard.purgeIfNeeded, if_neg hskip, purgeFirst_none hlru (by omega)] at ht
    cases ht
  rw [drops, if_pos ⟨hlru, hone⟩] at hdrops
  have hne := dropSize_iterate_ne (n := s.size) (k := (purged s).length) (by omega)
  omega

def Fits (o : Options K) (s : LRUCacheShard K V) : Prop :=
  s.size ≤ o.capacity ∨ ∀ id, s.live id = true → 2 ≤ s.refs id

/-- The first entry of the LRU list and those in use have enough that are not referenced, or the
other entries of the LRU list are all referenced. -/
def Enough (o : Options K) (s : LRUCacheShard K V) : Prop :=
  s.size ≤ o.capacity + (purged s).length ∨ ∀ id ∈ s.lru.tail, 2 ≤ s.refs id

omit [LinearOrder K] in
lemma mem_purged {id : ℕ} :
    id ∈ purged s ↔ (s.lru.head? = some id ∨ id ∈ s.inUse) ∧ s.refs id = 1 := by
  rw [purged, mem_filter, mem_append, mem_toList, decide_eq_true_iff]

lemma fits_iff (h : ShardInv o s l) (hevicted : Evicted s t (purged s))
    (hsize : t.size + (purged s).length = s.size) : Fits o t ↔ Enough o s := by
  refine or_congr (by omega) ?_
  constructor
  · intro hall id hid
    have hlru : id ∈ s.lru := mem_of_mem_tail hid
    have hlive : s.live id = true := (h.mem_lists id).mp (mem_append_left _ hlru)
    rw [← hevicted.refs]
    refine hall id ((hevicted.live id).mpr ⟨hlive, fun hpurged => ?_⟩)
    rcases (mem_purged.mp hpurged).1 with hhead | hin
    · have hnodup := (nodup_append.mp h.lists).1
      obtain ⟨rest, hrest⟩ := head?_eq_some_iff.mp hhead
      rw [hrest] at hnodup hid
      exact (nodup_cons.mp hnodup).1 hid
    · exact h.not_mem_inUse hlru hin
  · intro htail id hlive
    obtain ⟨hlive, hnot⟩ := (hevicted.live id).mp hlive
    rw [hevicted.refs]
    have hmem := (h.mem_lists id).mpr hlive
    have hrefs := (h.live_of_refs hmem).2
    rw [mem_purged, not_and'] at hnot
    by_contra hfew
    have hone : s.refs id = 1 := by omega
    refine hnot hone ?_
    rcases mem_append.mp hmem with hlru | hin
    · cases hs : s.lru with
      | nil => simp [hs] at hlru
      | cons first rest =>
        rw [hs] at hlru htail
        rcases mem_cons.mp hlru with rfl | hrest
        · exact .inl rfl
        · exact absurd (htail id hrest) (by omega)
    · exact .inr hin

lemma purge_fits_iff (h : ShardInv o s l) (h' : ShardInv o t l')
    (hresult : PurgeResult o force s l t l') (hdummy : ¬ ReadsDummy o force s)
    (hsize : s.size = s.listed) :
    Fits o t ↔ s.size ≤ o.capacity ∨ Enough o s := by
  have hsized := purge_sized h h' hresult hdummy hsize.ge
  by_cases hpurges : purges o force s
  · have hlisted := (purge_counts h h' hresult hpurges).1
    have hfits : Fits o t ↔ Enough o s := by
      cases hresult with
      | skipped hskip => exact absurd hpurges hskip
      | purged _ hevicted => exact CoreLruSize.fits_iff h hevicted (by omega)
      | @rebuilt u table _ _ hevicted =>
        have hsame : Fits o { u with table := table } ↔ Fits o u := Iff.rfl
        have htable : u.size + (purged s).length = s.size := by
          change u.size + s.listed = s.size + u.listed at hsized
          change u.listed + _ = _ at hlisted
          omega
        rw [hsame, CoreLruSize.fits_iff h hevicted htable]
    rw [hfits]
    exact ⟨.inr, fun hor => hor.elim (fun hle => .inl (by omega)) id⟩
  · have hle : s.size ≤ o.capacity := not_lt.mp fun hover => hpurges (.inl hover)
    have ht : t.size ≤ o.capacity := by
      cases hresult with
      | skipped => exact hle
      | purged hp => exact absurd hp hpurges
      | rebuilt hp => exact absurd hp hpurges
    exact ⟨fun _ => .inl hle, fun _ => .inl ht⟩

def endsWithPurge : Call K V → Bool
  | .insert _ _ | .purgeIfNeeded _ => true
  | _ => false

def direct : Call K V → Bool
  | .getOrLoad _ _ => false
  | _ => true

/-- Handles are released by those who have them. -/
def Permitted (s : LRUCacheShard K V) (a : Call K V) : Prop := ∀ id, a = .release id → 2 ≤ s.refs id

def Accounted (o : Options K) (a : Call K V) (t : LRUCacheShard K V) : Prop :=
  t.size = liveEntries t ∧ (endsWithPurge a = true → Fits o t)

/-- The call comes to its end, with the right size and with nothing left to purge. -/
def AccountedAfter (o : Options K) (s : LRUCacheShard K V) (a : Call K V) : Prop :=
  Permitted s a → ∃ t, step o s a = some t ∧ Accounted o a t

def Meets (o : Options K) (s : LRUCacheShard K V) : Call K V → Prop
  | .remove key => ∀ found ∈ s.find o key, ∀ r ∈ found, s.live r.id = true → s.refs r.id ≠ 1
  | .insert key value => ∀ t ∈ s.put o key value, t.size ≤ o.capacity ∨ Enough o t
  | .purgeIfNeeded force => ¬ ReadsDummy o force s ∧ (s.size ≤ o.capacity ∨ Enough o s)
  | _ => True

instance decidableEnough (o : Options K) (s : LRUCacheShard K V) : Decidable (Enough o s) :=
  inferInstanceAs (Decidable (_ ∨ ∀ id ∈ s.lru.tail, 2 ≤ s.refs id))

instance decidableReadsDummy (o : Options K) (force : Bool) (s : LRUCacheShard K V) :
    Decidable (ReadsDummy o force s) :=
  inferInstanceAs (Decidable ((o.capacity < s.size ∨ force = true) ∧ s.lru = [] ∧ 1 ≤ o.dummyRefs))

instance decidableMeets (o : Options K) (s : LRUCacheShard K V) :
    (a : Call K V) → Decidable (Meets o s a)
  | .remove key => inferInstanceAs (Decidable
      (∀ found ∈ s.find o key, ∀ r ∈ found, s.live r.id = true → s.refs r.id ≠ 1))
  | .insert key value => inferInstanceAs (Decidable
      (∀ t ∈ s.put o key value, t.size ≤ o.capacity ∨ Enough o t))
  | .purgeIfNeeded force => inferInstanceAs (Decidable
      (¬ ReadsDummy o force s ∧ (s.size ≤ o.capacity ∨ Enough o s)))
  | .get _ _ | .release _ | .getOrLoad _ _ => .isTrue trivial

lemma accounted_iff (h : ShardInv o t l) (a : Call K V) :
    Accounted o a t ↔ t.size = t.listed ∧ (endsWithPurge a = true → Fits o t) := by
  rw [Accounted, liveEntries_eq h]

/-- A call that releases nothing is accounted for by the state it ends in. -/
lemma accountedAfter_iff (hpermitted : Permitted s a) (hstep : step o s a = some t) :
    AccountedAfter o s a ↔ Accounted o a t := by
  constructor
  · intro hall
    obtain ⟨u, hu, hacc⟩ := hall hpermitted
    exact Option.some.inj (hu.symm.trans hstep) ▸ hacc
  · exact fun hacc _ => ⟨t, hstep, hacc⟩

lemma accountedAfter_of_sized (hpermitted : Permitted s a) (hstep : step o s a = some t)
    (h : ShardInv o t l) (ha : endsWithPurge a = false) (hsize : t.size = t.listed) :
    AccountedAfter o s a := by
  rw [accountedAfter_iff hpermitted hstep, accounted_iff h]
  exact ⟨hsize, fun hends => by simp [ha] at hends⟩

lemma remove_accounted (h : ShardInv o s l) (hsize : s.size = s.listed) (key : K) :
    AccountedAfter o s (.remove key) ↔ Meets o s (.remove key) := by
  obtain ⟨u, x, hget, hx, hinv, hevicted, hsame⟩ := h.get_spec key
  have hlisted := listed_kept h hinv hevicted
  have hpermitted : Permitted s (.remove key : Call K V) := fun id hid => by cases hid
  have hfound : ∀ id, x = some id ↔ ∃ r, s.find o key = some (some r) ∧ s.live r.id = true ∧
      r.id = id := by
    intro id
    rw [hx, h.find_eq, filter_eq_some_iff, map_eq_some_iff]
    constructor
    · rintro ⟨⟨r, hr, rfl⟩, hlive⟩
      exact ⟨r, by rw [hr], hlive, rfl⟩
    · rintro ⟨r, hr, hlive, rfl⟩
      exact ⟨⟨r, Option.some.inj hr, rfl⟩, hlive⟩
  cases x with
  | none =>
    have hstep : step o s (.remove key) = some u := by rw [step, LRUCacheShard.remove, hget]; rfl
    refine iff_of_true (accountedAfter_of_sized hpermitted hstep hinv rfl (by omega))
      fun found hr r hmem hlive => ?_
    obtain rfl := mem_def.mp hmem
    cases (hfound r.id).mpr ⟨r, hr, hlive, rfl⟩
  | some id =>
    obtain ⟨r, hr, hlive, rfl⟩ := (hfound id).mp rfl
    have hstep : step o s (.remove key) =
        some (if s.refs r.id = 1 then (u.setDeletion r.id).lruRemove r.id else u) := by
      rw [step, LRUCacheShard.remove, hget]
      simp only [map_some, hevicted.refs]
    by_cases hone : s.refs r.id = 1
    · rw [if_pos hone] at hstep
      have hdelete := hinv.delete r.id
      have hlive' := (hevicted.live r.id).mpr ⟨hlive, by simp⟩
      have hless := Evicted.listed (evicted_evict u r.id) hinv hdelete.lists hdelete.mem_lists
        (nodup_singleton r.id) (by simpa using hlive')
      refine iff_of_false (fun hacc => ?_) fun hmeets => hmeets (some r) hr r rfl hlive hone
      rw [accountedAfter_iff hpermitted hstep, accounted_iff hdelete] at hacc
      have hkept : u.size = ((u.setDeletion r.id).lruRemove r.id).listed := hacc.1
      change ((u.setDeletion r.id).lruRemove r.id).listed + 1 = u.listed at hless
      omega
    · rw [if_neg hone] at hstep
      refine iff_of_true (accountedAfter_of_sized hpermitted hstep hinv rfl (by omega))
        fun found hr' r' hmem _ => ?_
      obtain rfl := mem_def.mp hmem
      obtain rfl : r = r' := Option.some.inj (Option.some.inj (hr.symm.trans hr'))
      exact hone

lemma purgeIfNeeded_accounted (h : ShardInv o s l) (hsize : s.size = s.listed) (force : Bool) :
    AccountedAfter o s (.purgeIfNeeded force) ↔ Meets o s (.purgeIfNeeded force) := by
  have hpermitted : Permitted s (.purgeIfNeeded force : Call K V) := fun id hid => by cases hid
  by_cases hdummy : ReadsDummy o force s
  · refine iff_of_false (fun hacc => ?_) fun hmeets => hmeets.1 hdummy
    obtain ⟨t, ht, hright⟩ := hacc hpermitted
    obtain ⟨l', hinv, -⟩ := h.purgeIfNeeded ht
    exact size_ne_of_readsDummy h hdummy hsize ht ((accounted_iff hinv _).mp hright).1
  · obtain ⟨t, ht⟩ := h.purge_exists hdummy
    obtain ⟨l', hinv, hresult⟩ := h.purgeIfNeeded ht
    have hsized := purge_sized h hinv hresult hdummy hsize.ge
    rw [accountedAfter_iff hpermitted ht, accounted_iff hinv,
      purge_fits_iff h hinv hresult hdummy hsize, Meets]
    simp only [endsWithPurge, true_imp_iff]
    exact and_congr (iff_of_true (by omega) hdummy) Iff.rfl

omit [LinearOrder K] in
lemma listed_add (s : LRUCacheShard K V) (table : HashMap (Ref K)) (key : K) (value : V) :
    (s.add table key value).listed = s.listed + 1 := by
  simp only [LRUCacheShard.listed, LRUCacheShard.add, length_append, length_singleton]
  omega

omit [LinearOrder K] in
lemma not_readsDummy_add (s : LRUCacheShard K V) (table : HashMap (Ref K)) (key : K) (value : V) :
    ¬ ReadsDummy o false (s.add table key value) := fun hdummy =>
  append_ne_nil_of_right_ne_nil _ (cons_ne_nil _ _) hdummy.2.1

lemma step_accounted (h : ShardInv o s l) (hsize : s.size = s.listed)
    (ha : direct a = true) : AccountedAfter o s a ↔ Meets o s a := by
  cases a with
  | insert key value =>
    obtain ⟨table, t, l', hinsert, hput, hadd, -, -, hinv, hresult⟩ := h.insert_spec key value
    have hlisted := listed_add s table key value
    have hadded : (s.add table key value).size = (s.add table key value).listed := by
      rw [hlisted, ← hsize]
      rfl
    have hdummy := not_readsDummy_add (o := o) s table key value
    have hsized := purge_sized hadd hinv hresult hdummy hadded.ge
    have hpermitted : Permitted s (.insert key value) := fun id hid => by cases hid
    have hstep : step o s (.insert key value) = some t := hinsert
    rw [accountedAfter_iff hpermitted hstep, accounted_iff hinv,
      purge_fits_iff hadd hinv hresult hdummy hadded, Meets, hput]
    simp only [endsWithPurge, true_imp_iff, mem_def, Option.some.injEq, forall_eq']
    exact and_iff_right (by omega)
  | get key keep =>
    obtain ⟨u, x, hget, -, hinv, hevicted, hsame⟩ := h.get_spec key
    have hlisted := listed_kept h hinv hevicted
    refine iff_of_true ?_ trivial
    cases x with
    | none =>
      exact accountedAfter_of_sized (t := u) (fun id hid => by cases hid) (by rw [step, hget]; rfl)
        hinv rfl (by omega)
    | some id =>
      cases keep with
      | true =>
        exact accountedAfter_of_sized (t := u.addRef id) (fun id hid => by cases hid)
          (by rw [step, hget]; rfl)
          (hinv.addRef id) rfl (hsame.trans (hsize.trans hlisted.symm))
      | false =>
        exact accountedAfter_of_sized (t := u) (fun id hid => by cases hid)
          (by rw [step, hget]; rfl) hinv rfl
          (by omega)
  | release id =>
    refine iff_of_true (fun hpermitted => ?_) trivial
    have hrefs := hpermitted id rfl
    exact accountedAfter_of_sized (t := s.releaseRef id) hpermitted (if_pos hrefs)
      (h.releaseRef hrefs) rfl hsize
      hpermitted
  | remove key => exact remove_accounted h hsize key
  | getOrLoad key loaded => cases ha
  | purgeIfNeeded force => exact purgeIfNeeded_accounted h hsize force

lemma permitted_of_step (hstep : step o s a = some t) : Permitted s a := by
  rintro id rfl
  exact (ite_none_right_eq_some.mp hstep).1

/-- What every call keeps: the lists hold the live handles, and the size stays above their number if
purges leave the head of the list alone. -/
structure Kept (o : Options K) (s t : LRUCacheShard K V) : Prop where
  inv : ∃ l, ShardInv o t l
  size : o.dummyRefs ≤ 0 → s.listed ≤ s.size → t.listed ≤ t.size

lemma kept_purge (h : ShardInv o s l) (ht : s.purgeIfNeeded o force = some t) : Kept o s t := by
  obtain ⟨l', h', hresult⟩ := h.purgeIfNeeded ht
  refine ⟨⟨l', h'⟩, fun hdummy hsize => ?_⟩
  have hsized := purge_sized h h' hresult (fun hread => absurd hread.2.2 (by omega)) hsize
  omega

lemma kept_insert {key : K} {value : V} (h : ShardInv o s l) (ht : s.insert o key value = some t) :
    Kept o s t := by
  obtain ⟨table, hput, -, -, hadd⟩ := h.put_eq key value
  rw [LRUCacheShard.insert, hput] at ht
  obtain ⟨hinv, hsize⟩ := kept_purge hadd ht
  refine ⟨hinv, fun hdummy hle => hsize hdummy ?_⟩
  rw [listed_add]
  exact Nat.succ_le_succ hle

lemma kept_get {key : K} {x : Option ℕ} (h : ShardInv o s l) (hget : s.get o key = some (t, x)) :
    ShardInv o t l ∧ Kept o s t := by
  obtain ⟨u, y, hget', -, hinv, hevicted, hsame⟩ := h.get_spec key
  obtain ⟨rfl, rfl⟩ := Prod.mk.inj (Option.some.inj (hget'.symm.trans hget))
  have hlisted := listed_kept h hinv hevicted
  exact ⟨hinv, ⟨l, hinv⟩, fun _ hle => by omega⟩

lemma kept_delete (h : ShardInv o s l) (id : ℕ) : Kept o s ((s.setDeletion id).lruRemove id) := by
  refine ⟨⟨l, h.delete id⟩, fun _ hle => le_trans ?_ hle⟩
  change (s.lru.erase id ++ s.inUse.erase id).length ≤ (s.lru ++ s.inUse).length
  rw [length_append, length_append]
  exact Nat.add_le_add (length_erase_le ..) (length_erase_le ..)

lemma Kept.trans {u : LRUCacheShard K V} (h : Kept o s t) (h' : Kept o t u) : Kept o s u :=
  ⟨h'.inv, fun hdummy hle => h'.size hdummy (h.size hdummy hle)⟩

lemma Kept.addRef (h : Kept o s t) (id : ℕ) : Kept o s (t.addRef id) :=
  ⟨h.inv.imp fun _ hinv => hinv.addRef id, h.size⟩

lemma kept_step (h : ShardInv o s l) (hstep : step o s a = some t) : Kept o s t := by
  cases a with
  | insert key value => exact kept_insert h hstep
  | purgeIfNeeded force => exact kept_purge h hstep
  | release id =>
    obtain ⟨hrefs, ht⟩ := ite_none_right_eq_some.mp hstep
    obtain rfl := Option.some.inj ht
    exact ⟨⟨l, h.releaseRef hrefs⟩, fun _ hle => hle⟩
  | get key keep =>
    obtain ⟨⟨u, x⟩, hget, rfl⟩ := map_eq_some_iff.mp hstep
    have hkept := (kept_get h hget).2
    cases x with
    | none => exact hkept
    | some id =>
      cases keep with
      | true => exact hkept.addRef id
      | false => exact hkept
  | remove key =>
    obtain ⟨⟨u, x⟩, hget, rfl⟩ := map_eq_some_iff.mp hstep
    obtain ⟨hinv, hkept⟩ := kept_get h hget
    cases x with
    | none => exact hkept
    | some id =>
      dsimp only
      split_ifs
      · exact hkept.trans (kept_delete hinv id)
      · exact hkept
  | getOrLoad key loaded =>
    obtain ⟨⟨u, x⟩, hget, ht⟩ := bind_eq_some_iff.mp hstep
    obtain ⟨hinv, hkept⟩ := kept_get h hget
    cases x with
    | some id => exact Option.some.inj ht ▸ hkept.addRef id
    | none =>
      obtain ⟨-, ht⟩ := ite_none_left_eq_some.mp ht
      cases loaded with
      | none =>
        obtain rfl := Option.some.inj ht
        exact ⟨⟨l, hinv.relock _⟩, hkept.size⟩
      | some value =>
        obtain ⟨v, hv, ht⟩ := bind_eq_some_iff.mp ht
        obtain ⟨w, hw, rfl⟩ := map_eq_some_iff.mp ht
        have hinserted := kept_insert hinv hv
        obtain ⟨l₁, h₁⟩ := hinserted.inv
        exact ((hkept.trans hinserted).trans (kept_purge h₁ hw)).addRef _

/-- Along a run of calls the size is right after each of them, and the purges have done their work,
exactly if all of them meet the condition. -/
theorem sizes_accounted_iff (o : Options K) (calls : List (Call K V))
    (hdirect : ∀ a ∈ calls, direct a = true) :
    EachTry (step o) (AccountedAfter o) LRUCacheShard.new calls ↔
      EachTry (step o) (Meets o) LRUCacheShard.new calls := by
  refine eachTry_iff (I := fun s => (∃ l, ShardInv o s l) ∧ s.size = s.listed) ?_ ?_ hdirect
    ⟨⟨[], inv_new o⟩, rfl⟩
  · rintro s a t ha hmeets ⟨⟨l, h⟩, hsize⟩ ht
    obtain ⟨l', h'⟩ := (kept_step h ht).inv
    have hacc := (step_accounted h hsize ha).mpr hmeets
    rw [accountedAfter_iff (permitted_of_step ht) ht, accounted_iff h'] at hacc
    exact ⟨⟨l', h'⟩, hacc.1⟩
  · rintro s a ha ⟨⟨l, h⟩, hsize⟩
    exact step_accounted h hsize ha

/-- Whatever the words of the list's head are. -/
theorem sizes_accounted_keptEntry :
    EachTry (step { numbers 1 with dummyRefs := 2 })
      (AccountedAfter { numbers 1 with dummyRefs := 2 }) LRUCacheShard.new
      [.insert 1 10, .get 1 true, .remove 1, .release 0, .insert 2 20, .purgeIfNeeded true] :=
  (sizes_accounted_iff { numbers 1 with dummyRefs := 2 } _ (by decide)).mpr
    (eachTry_of_checkTries (by decide +kernel))

/-- An entry that is removed is still counted after everything has been purged. Two entries that
nobody uses are left over the capacity behind two that had to stay. -/
theorem sizes_drift :
    (∃ s : LRUCacheShard ℕ ℕ, run (step (numbers 5)) LRUCacheShard.new
        [.insert 1 10, .insert 2 20, .remove 1, .purgeIfNeeded true] = some s ∧
      s.size = 1 ∧ liveEntries s = 0 ∧ s.table.entries.length = 2) ∧
    ∃ s : LRUCacheShard ℕ ℕ, run (step (numbers 2)) LRUCacheShard.new
        [.insert 1 10, .get 1 true, .insert 2 20, .get 2 true, .insert 3 30, .insert 4 40] =
        some s ∧
      s.size = 4 ∧ s.live 2 = true ∧ s.refs 2 = 1 ∧ s.live 3 = true ∧ s.refs 3 = 1 := by
  have hremoved : (run (step (numbers 5)) (LRUCacheShard.new : LRUCacheShard ℕ ℕ)
      [.insert 1 10, .insert 2 20, .remove 1, .purgeIfNeeded true]).any (fun s =>
        s.size = 1 ∧ liveEntries s = 0 ∧ s.table.entries.length = 2) = true := by decide +kernel
  have hover : (run (step (numbers 2)) (LRUCacheShard.new : LRUCacheShard ℕ ℕ)
      [.insert 1 10, .get 1 true, .insert 2 20, .get 2 true, .insert 3 30, .insert 4 40]).any
        (fun s =>
        s.size = 4 ∧ s.live 2 = true ∧ s.refs 2 = 1 ∧ s.live 3 = true ∧ s.refs 3 = 1) =
          true := by decide +kernel
  obtain ⟨s, hs, hsize⟩ := (Option.any_eq_true _ _).mp hremoved
  obtain ⟨t, ht, hfits⟩ := (Option.any_eq_true _ _).mp hover
  exact ⟨⟨s, hs, of_decide_eq_true hsize⟩, t, ht, of_decide_eq_true hfits⟩

/-- After any calls the two lists hold every live handle once and no other. The size does not fall
below their number, unless a purge takes the head of the empty list for an entry. -/
theorem lists_hold_live (o : Options K) (calls : List (Call K V))
    (hs : run (step o) LRUCacheShard.new calls = some s) :
    (s.lru ++ s.inUse).Nodup ∧ (∀ id, id ∈ s.lru ++ s.inUse ↔ s.live id = true) ∧
      (o.dummyRefs ≤ 0 → liveEntries s ≤ s.size) := by
  obtain ⟨⟨l, h⟩, hsize⟩ := run_invariant
    (I := fun s => (∃ l, ShardInv o s l) ∧ (o.dummyRefs ≤ 0 → s.listed ≤ s.size))
      (G := fun _ => True)
    (fun s a t _ hi ht => by
      obtain ⟨⟨l, h⟩, hle⟩ := hi
      obtain ⟨hinv, hsize⟩ := kept_step h ht
      exact ⟨hinv, fun hdummy => hsize hdummy (hle hdummy)⟩)
    ⟨⟨[], inv_new o⟩, fun _ => le_rfl⟩ (fun _ _ => trivial) hs
  exact ⟨h.lists, h.mem_lists, fun hdummy => liveEntries_eq h ▸ hsize hdummy⟩

theorem lists_hold_live_removed :
    ∃ s, run (step (numbers 2)) .new [.insert 1 10, .get 1 true, .remove 1, .insert 2 20] = some s ∧
    (s.lru ++ s.inUse).Nodup ∧ liveEntries s ≤ s.size := by
  obtain ⟨s, hs⟩ := isSome_iff_exists.mp
    (show (run (step (numbers 2)) .new [.insert 1 10, .get 1 true, .remove 1, .insert 2 20]).isSome
      by decide +kernel)
  obtain ⟨hnodup, -, hsize⟩ := lists_hold_live (numbers 2) _ hs
  exact ⟨s, hs, hnodup, hsize (by decide)⟩

end Mai.CoreLruSize
