import Mai.TxnLockInvariant

/-! The counter of a lock map (`LockMap::lock_count`) and the limit on it. A key that is locked is
counted once, but every holder that lets go of it is subtracted. -/
namespace Mai.TxnLockCount
open TxnLockMgr TxnLockMgr.State TxnLockInvariant RunInvariant Function List Option

variable {K : Type*} [LinearOrder K] {cfid : UInt32} {s t : State K} {m : LockMap K} {key : K}
  {txnId : ℕ}

inductive Action (K : Type*)
  | acquireLocked (key : K) (txnId expirationTime : ℕ) (exclusive : Bool)
  | unlockKey (key : K) (txnId : ℕ)
  | others (now : ℕ) (txns : ℕ → Option Transaction) (expirable : ℕ → Option ℕ)

def step (cfid : UInt32) (s : State K) : Action K → Option (State K)
  | .acquireLocked key txnId expirationTime exclusive =>
    (s.lockMaps cfid).map fun m => (s.acquireLocked cfid m key txnId expirationTime exclusive).1
  | .unlockKey key txnId => (s.lockMaps cfid).map fun m => s.unlockKey txnId cfid key m
  | .others now txns expirable => some { s with now, txns, expirable }

def presentKeys (m : LockMap K) : Set K := {key | m.keys key ≠ none}

def Counted (cfid : UInt32) (s : State K) : Prop :=
  ∀ m, s.lockMaps cfid = some m → m.lockCount = (presentKeys m).ncard ∧ m.lockCount ≤ s.maxNumLocks

def SoleHolder (cfid : UInt32) (s : State K) : Action K → Prop
  | .unlockKey key txnId => ∀ m ∈ s.lockMaps cfid, ∀ info ∈ m.keys key, txnId ∈ info.txnIds →
      info.txnIds.length = 1
  | _ => True

instance (cfid : UInt32) (s : State K) (a : Action K) : Decidable (SoleHolder cfid s a) :=
  match a with
  | .unlockKey key txnId => inferInstanceAs
    (Decidable (∀ m ∈ s.lockMaps cfid, ∀ info ∈ m.keys key, txnId ∈ info.txnIds →
      info.txnIds.length = 1))
  | .acquireLocked .. => isTrue trivial
  | .others .. => isTrue trivial

section Keys

omit [LinearOrder K] in
lemma presentKeys_update_some [DecidableEq K] (info : LockInfo) (n : ℤ) :
    presentKeys ⟨update m.keys key (some info), n⟩ = insert key (presentKeys m) := by
  ext k
  by_cases hk : k = key <;> simp [presentKeys, update_apply, hk]

omit [LinearOrder K] in
lemma presentKeys_update_none [DecidableEq K] (n : ℤ) :
    presentKeys ⟨update m.keys key none, n⟩ = presentKeys m \ {key} := by
  ext k
  by_cases hk : k = key <;> simp [presentKeys, update_apply, hk]

end Keys

section Steps

omit [LinearOrder K] in
lemma tryStealing_maxNumLocks (s : State K) (id : ℕ) :
    (s.tryStealing id).1.maxNumLocks = s.maxNumLocks := by
  rw [tryStealing]
  split
  · rfl
  · split
    · rfl
    · split_ifs <;> rfl

omit [LinearOrder K] in
lemma stealFrom_maxNumLocks (s : State K) (txnId : ℕ) (expired : Bool) (ids : List ℕ) :
    (s.stealFrom txnId expired ids).1.maxNumLocks = s.maxNumLocks := by
  induction ids generalizing s with
  | nil => rfl
  | cons id ids ih =>
    have hsteal := tryStealing_maxNumLocks s id
    simp only [stealFrom]
    split_ifs
    · exact ih s
    · exact (ih _).trans hsteal
    · exact hsteal

omit [LinearOrder K] in
lemma isLockExpired_maxNumLocks (s : State K) (txnId : ℕ) (info : LockInfo) :
    (s.isLockExpired txnId info).1.maxNumLocks = s.maxNumLocks := by
  simp only [isLockExpired]
  split_ifs
  · rfl
  · exact stealFrom_maxNumLocks s _ _ _

inductive Requested (limit : ℤ) (m : LockMap K) (key : K) : LockMap K → Prop
  | refused : Requested limit m key m
  | changed {info : LockInfo} (hkey : m.keys key = some info) (info' : LockInfo) :
    Requested limit m key ⟨update m.keys key (some info'), m.lockCount⟩
  | added (hkey : m.keys key = none) (hlimit : m.lockCount < limit) (info' : LockInfo) :
    Requested limit m key ⟨update m.keys key (some info'), m.lockCount + 1⟩

lemma acquireLocked_spec (hm : s.lockMaps cfid = some m) (key : K) (txnId expirationTime : ℕ)
    (exclusive : Bool) (hpos : 0 < s.maxNumLocks) :
    (s.acquireLocked cfid m key txnId expirationTime exclusive).1.maxNumLocks = s.maxNumLocks ∧
    ∃ m', (s.acquireLocked cfid m key txnId expirationTime exclusive).1.lockMaps cfid = some m' ∧
      Requested s.maxNumLocks m key m' := by
  have hset (s : State K) (m' : LockMap K) : (s.setLockMap cfid m').lockMaps cfid = some m' := by
    simp [setLockMap]
  rw [acquireLocked]
  split
  · next info hinfo =>
    obtain ⟨-, hmaps, -, -⟩ := isLockExpired_spec s txnId info
    have hmax := isLockExpired_maxNumLocks s txnId info
    split_ifs
    · exact ⟨rfl, _, hset _ _, .changed hinfo _⟩
    · simp only
      split_ifs
      · exact ⟨hmax, _, hset _ _, .changed hinfo _⟩
      · exact ⟨hmax, m, by rw [hmaps, hm], .refused⟩
    · exact ⟨rfl, _, hset _ _, .changed hinfo _⟩
  · next hnone =>
    split_ifs with hlimit
    · exact ⟨rfl, m, hm, .refused⟩
    · exact ⟨rfl, _, hset _ _, .added hnone (by omega) _⟩
    · omega

structure MapCounted (limit : ℤ) (m : LockMap K) : Prop where
  count : m.lockCount = (presentKeys m).ncard
  limit : m.lockCount ≤ limit

variable {m' : LockMap K} {limit : ℤ}

lemma Requested.finite (h : Requested limit m key m') (hfinite : (presentKeys m).Finite) :
    (presentKeys m').Finite := by
  cases h with
  | refused => exact hfinite
  | changed hkey info' => rw [presentKeys_update_some]; exact hfinite.insert key
  | added hkey hlimit info' => rw [presentKeys_update_some]; exact hfinite.insert key

lemma Requested.counted (h : Requested limit m key m') (hfinite : (presentKeys m).Finite)
    (hcounted : MapCounted limit m) : MapCounted limit m' := by
  obtain ⟨hcount, hle⟩ := hcounted
  cases h with
  | refused => exact ⟨hcount, hle⟩
  | changed hkey info' =>
    have hmem : key ∈ presentKeys m := by simp [presentKeys, hkey]
    refine ⟨?_, hle⟩
    rw [presentKeys_update_some, Set.insert_eq_of_mem hmem]
    exact hcount
  | added hkey hlimit info' =>
    have hmem : key ∉ presentKeys m := by simp [presentKeys, hkey]
    refine ⟨?_, hlimit⟩
    rw [presentKeys_update_some, Set.ncard_insert_of_notMem hmem hfinite]
    push_cast
    rw [← hcount]

inductive Released (m : LockMap K) (key : K) (txnId : ℕ) : LockMap K → Prop
  | ignored (hother : ∀ info, m.keys key = some info → txnId ∉ info.txnIds) : Released m key txnId m
  | removed {info : LockInfo} (hkey : m.keys key = some info) (hholder : txnId ∈ info.txnIds)
    (hsole : info.txnIds.length = 1) :
      Released m key txnId ⟨update m.keys key none, m.lockCount - 1⟩
  | shared {info : LockInfo} (hkey : m.keys key = some info) (hholder : txnId ∈ info.txnIds)
    (hmore : info.txnIds.length ≠ 1) (info' : LockInfo) :
    Released m key txnId ⟨update m.keys key (some info'), m.lockCount - 1⟩

lemma unlockKey_spec (hm : s.lockMaps cfid = some m) (key : K) (txnId : ℕ)
    (hpos : 0 < s.maxNumLocks) :
    (s.unlockKey txnId cfid key m).maxNumLocks = s.maxNumLocks ∧
    ∃ m', (s.unlockKey txnId cfid key m).lockMaps cfid = some m' ∧ Released m key txnId m' := by
  rw [unlockKey]
  split
  · next hnone => exact ⟨rfl, m, hm, .ignored fun info hinfo => by simp [hnone] at hinfo⟩
  · next info hinfo =>
    by_cases hholder : txnId ∈ info.txnIds
    · rw [if_pos hholder, if_pos hpos]
      refine ⟨rfl, _, by simp only [setLockMap, update_self]; rfl, ?_⟩
      split_ifs with hsole
      · exact .removed hinfo hholder hsole
      · exact .shared hinfo hholder hsole _
    · rw [if_neg hholder]
      exact ⟨rfl, m, hm,
        .ignored fun info' hinfo' => Option.some.inj (hinfo.symm.trans hinfo') ▸ hholder⟩

lemma Released.finite (h : Released m key txnId m') (hfinite : (presentKeys m).Finite) :
    (presentKeys m').Finite := by
  cases h with
  | ignored hother => exact hfinite
  | removed hkey hholder hsole => rw [presentKeys_update_none]; exact hfinite.sdiff
  | shared hkey hholder hmore info' => rw [presentKeys_update_some]; exact hfinite.insert key

lemma Released.counted_iff (h : Released m key txnId m') (hfinite : (presentKeys m).Finite)
    (hcounted : MapCounted limit m) :
    MapCounted limit m' ↔
      ∀ info, m.keys key = some info → txnId ∈ info.txnIds → info.txnIds.length = 1 := by
  obtain ⟨hcount, hle⟩ := hcounted
  cases h with
  | ignored hother =>
    exact iff_of_true ⟨hcount, hle⟩ fun info hinfo hmem => absurd hmem (hother info hinfo)
  | removed hkey hholder hsole =>
    have hmem : key ∈ presentKeys m := by simp [presentKeys, hkey]
    refine iff_of_true ⟨?_, by simp only; omega⟩ fun info hinfo _ =>
      Option.some.inj (hkey.symm.trans hinfo) ▸ hsole
    rw [presentKeys_update_none, Set.ncard_sdiff_singleton_of_mem hmem,
      Nat.cast_sub ((Set.ncard_pos hfinite).mpr ⟨key, hmem⟩), ← hcount]
    rfl
  | shared hkey hholder hmore info' =>
    have hmem : key ∈ presentKeys m := by simp [presentKeys, hkey]
    refine iff_of_false (fun h => ?_) fun h => hmore (h _ hkey hholder)
    have hcount' := h.count
    rw [presentKeys_update_some, Set.insert_eq_of_mem hmem] at hcount'
    simp only at hcount'
    omega

end Steps

section Runs

structure Limited (cfid : UInt32) (s : State K) : Prop where
  pos : 0 < s.maxNumLocks
  map : ∃ m, s.lockMaps cfid = some m ∧ (presentKeys m).Finite

lemma Limited.step {a : Action K} (h : Limited cfid s) (hstep : step cfid s a = some t) :
    Limited cfid t := by
  obtain ⟨hpos, m, hm, hfinite⟩ := h
  cases a with
  | acquireLocked key txnId expirationTime exclusive =>
    simp only [TxnLockCount.step, hm, map_some, Option.some.injEq] at hstep
    obtain ⟨hmax, m', hm', hrequested⟩ :=
      acquireLocked_spec hm key txnId expirationTime exclusive hpos
    rw [hstep] at hmax hm'
    exact ⟨hmax ▸ hpos, m', hm', hrequested.finite hfinite⟩
  | unlockKey key txnId =>
    simp only [TxnLockCount.step, hm, map_some, Option.some.injEq] at hstep
    obtain ⟨hmax, m', hm', hreleased⟩ := unlockKey_spec hm key txnId hpos
    rw [hstep] at hmax hm'
    exact ⟨hmax ▸ hpos, m', hm', hreleased.finite hfinite⟩
  | others now txns expirable =>
    obtain rfl := Option.some.inj hstep
    exact ⟨hpos, m, hm, hfinite⟩

omit [LinearOrder K] in
lemma counted_iff (hm : s.lockMaps cfid = some m) :
    Counted cfid s ↔ MapCounted s.maxNumLocks m := by
  constructor
  · intro h
    obtain ⟨hcount, hle⟩ := h m hm
    exact ⟨hcount, hle⟩
  · rintro ⟨hcount, hle⟩ m' hm'
    obtain rfl := Option.some.inj (hm.symm.trans hm')
    exact ⟨hcount, hle⟩

lemma counted_step {a : Action K} (h : Limited cfid s) (hcounted : Counted cfid s)
    (hstep : step cfid s a = some t) :
    Counted cfid t ↔ SoleHolder cfid s a := by
  obtain ⟨hpos, m, hm, hfinite⟩ := h
  rw [counted_iff hm] at hcounted
  cases a with
  | acquireLocked key txnId expirationTime exclusive =>
    simp only [step, hm, map_some, Option.some.injEq] at hstep
    obtain ⟨hmax, m', hm', hrequested⟩ :=
      acquireLocked_spec hm key txnId expirationTime exclusive hpos
    rw [hstep] at hmax hm'
    rw [counted_iff hm', hmax]
    exact iff_of_true (hrequested.counted hfinite hcounted) trivial
  | unlockKey key txnId =>
    simp only [step, hm, map_some, Option.some.injEq] at hstep
    obtain ⟨hmax, m', hm', hreleased⟩ := unlockKey_spec hm key txnId hpos
    rw [hstep] at hmax hm'
    rw [counted_iff hm', hmax, hreleased.counted_iff hfinite hcounted]
    simp only [SoleHolder, hm, mem_def, Option.some.injEq, forall_eq']
  | others now txns expirable =>
    obtain rfl := Option.some.inj hstep
    exact iff_of_true ((counted_iff hm).mpr hcounted) trivial

omit [LinearOrder K] in
lemma presentKeys_empty (n : ℤ) : presentKeys (⟨fun _ => none, n⟩ : LockMap K) = ∅ := by
  simp [presentKeys]

/-- From a new lock map on, the counter is right and within the limit in every state exactly if
every release is one by the only holder. -/
theorem counted_always_iff (families : UInt32 → Bool) (hfamily : families cfid = true) {limit : ℤ}
    (hlimit : 0 < limit) (now : ℕ) (actions : List (Action K)) :
    Always (step cfid) (Counted cfid) (State.new families limit now) actions ↔
      EachStep (step cfid) (SoleHolder cfid) (State.new families limit now) actions := by
  have hm : (State.new (K := K) families limit now).lockMaps cfid = some ⟨fun _ => none, 0⟩ := by
    simp [State.new, hfamily]
  refine always_iff_eachStep (I := Limited cfid) (G := fun _ _ => True)
    (fun s a t _ h hstep => h.step hstep)
    (fun s a t _ h hcounted hstep => counted_step h hcounted hstep)
      (eachStep_of_forall fun _ _ _ => trivial)
    ⟨hlimit, _, hm, by rw [presentKeys_empty]; exact Set.finite_empty⟩
      ((counted_iff hm).mpr ⟨?_, hlimit.le⟩)
  rw [presentKeys_empty, Set.ncard_empty]
  rfl

def limitedToTwo : State ℕ := State.new (fun _ => true) 2 0

theorem counted_released : Always (step 0) (Counted 0) limitedToTwo
    [.acquireLocked 5 1 0 true, .acquireLocked 6 2 0 false, .unlockKey 5 1, .unlockKey 6 2] :=
  (counted_always_iff (fun _ => true) rfl (by decide) 0 _).mpr (eachStep_of_checkEach (by decide))

/-- The count falls to zero while one of two shared holders keeps the lock. -/
theorem count_lost : ∃ s m, run (step 0) limitedToTwo
      [.acquireLocked 5 1 0 false, .acquireLocked 5 2 0 false, .unlockKey 5 1] = some s ∧
        s.lockMaps 0 = some m ∧
    m.lockCount = 0 ∧ m.keys 5 = some ⟨false, [2], 0⟩ :=
  ⟨_, _, rfl, rfl, by decide, by decide⟩

end Runs

def Held (info : LockInfo) : Prop :=
  info.txnIds ≠ [] ∧ (info.exclusive = true → info.txnIds.length = 1)

def AllHeld (cfid : UInt32) (s : State K) : Prop :=
  ∀ m, s.lockMaps cfid = some m → ∀ key info, m.keys key = some info → Held info

/-- The lock of a key after an action that changes it. -/
inductive Changed (m : LockMap K) (key : K) : Action K → Option LockInfo → Prop
  | taken {txnId time : ℕ} {exclusive : Bool} {info : LockInfo} (hids : info.txnIds = [txnId])
    (hold : ∀ old, m.keys key = some old → old.txnIds = [txnId] ∨ 0 < old.expirationTime) :
    Changed m key (.acquireLocked key txnId time exclusive) (some info)
  | joined {txnId time : ℕ} {exclusive : Bool} {old info : LockInfo} (hold : m.keys key = some old)
    (hshared : old.exclusive = false) (hinfo : info.exclusive = false) (hids : info.txnIds ≠ []) :
    Changed m key (.acquireLocked key txnId time exclusive) (some info)
  | released {txnId : ℕ} {old : LockInfo} {o : Option LockInfo} (hold : m.keys key = some old)
      (hholder : txnId ∈ old.txnIds)
    (ho : ∀ info, o = some info → info.txnIds ≠ [] ∧ info.exclusive = old.exclusive ∧
      old.txnIds.length ≠ 1) :
    Changed m key (.unlockKey key txnId) o

def Follows (cfid : UInt32) (m : LockMap K) (a : Action K) (t : State K) : Prop :=
  ∃ m', t.lockMaps cfid = some m' ∧ ∀ key, m'.keys key = m.keys key ∨ Changed m key a (m'.keys key)

variable {a : Action K} {id : ℕ}

lemma follows_setLockMap {o : Option LockInfo} {n : ℤ} (h : Changed m key a o) :
    Follows cfid m a (s.setLockMap cfid ⟨update m.keys key o, n⟩) := by
  refine ⟨_, update_self .., fun k => ?_⟩
  by_cases hk : k = key
  · rw [hk]
    exact .inr (by simpa using h)
  · exact .inl (update_of_ne hk ..)

lemma follows_step (hm : s.lockMaps cfid = some m) (hs : step cfid s a = some t) :
    Follows cfid m a t := by
  have hsame : ∀ {s : State K}, s.lockMaps cfid = some m → Follows cfid m a s :=
    fun h => ⟨m, h, fun _ => .inl rfl⟩
  cases a with
  | acquireLocked key txnId time exclusive =>
    obtain rfl : (s.acquireLocked cfid m key txnId time exclusive).1 = t := by
      simpa [step, hm] using hs
    rw [State.acquireLocked]
    split
    · next old hold =>
      obtain ⟨-, hmaps, -, hexpired⟩ := isLockExpired_spec s txnId old
      split_ifs with hexclusive hsole
      · exact follows_setLockMap (.taken hsole (by simp [hold, hsole]))
      · simp only
        split_ifs with htrue
        · exact follows_setLockMap (.taken rfl (by simp [hold, (hexpired htrue).1.1]))
        · exact hsame (hmaps ▸ hm)
      · simp only [Bool.or_eq_true, not_or, Bool.not_eq_true] at hexclusive
        exact follows_setLockMap (.joined hold hexclusive.1 hexclusive.1 (by simp))
    · next hnone =>
      split_ifs
      · exact hsame hm
      all_goals exact follows_setLockMap (.taken rfl (by simp [hnone]))
  | unlockKey key txnId =>
    obtain rfl : s.unlockKey txnId cfid key m = t := by simpa [step, hm] using hs
    rw [State.unlockKey]
    split
    · exact hsame hm
    · next old hold =>
      by_cases hholder : txnId ∈ old.txnIds
      · rw [if_pos hholder]
        refine follows_setLockMap (.released hold hholder fun info heq => ?_)
        obtain ⟨hlength, heq⟩ := ite_none_left_eq_some.mp heq
        obtain rfl := Option.some.inj heq
        refine ⟨fun hnil => ?_, rfl, hlength⟩
        have hzero := congrArg List.length hnil
        have hpos := length_pos_of_mem hholder
        simp only [removeId, length_dropLast, length_set, length_nil] at hzero
        omega
      · rw [if_neg hholder]
        exact hsame hm
  | others now txns expirable =>
    obtain rfl := Option.some.inj hs
    exact hsame hm

lemma AllHeld.step (h : AllHeld cfid s) (hs : step cfid s a = some t) : AllHeld cfid t := by
  intro m' hm' key info hinfo
  cases hm : s.lockMaps cfid with
  | none =>
    cases a with
    | others =>
      obtain rfl := Option.some.inj hs
      exact absurd (hm.symm.trans hm') (by simp)
    | _ => simp [TxnLockCount.step, hm] at hs
  | some m =>
    obtain ⟨m'', hm'', hkeys⟩ := follows_step hm hs
    obtain rfl := Option.some.inj (hm''.symm.trans hm')
    rcases hkeys key with heq | hchanged
    · exact h m hm key info (heq ▸ hinfo)
    · rw [hinfo] at hchanged
      cases hchanged with
      | taken hids _ => simp [Held, hids]
      | joined _ _ hshared hids => simp [Held, hids, hshared]
      | released hold _ ho =>
        obtain ⟨hids, hexclusive, hmore⟩ := ho info rfl
        exact ⟨hids, fun htrue => absurd ((h m hm key _ hold).2 (hexclusive ▸ htrue)) hmore⟩

/-- Exclusive locks exclude, whatever requests, releases and expirations come in whatever order. -/
theorem locks_exclude (families : UInt32 → Bool) (limit : ℤ) (now : ℕ) (actions : List (Action K)) :
    Always (step cfid) (AllHeld cfid) (State.new families limit now) actions := by
  have hnew : AllHeld cfid (State.new (K := K) families limit now) := by
    intro m hm key info hinfo
    simp only [State.new, ite_none_right_eq_some, Option.some.injEq] at hm
    rw [← hm.2] at hinfo
    cases hinfo
  exact fun bs t _ ht => run_invariant (G := fun _ => True) (fun _ _ _ _ h hs => h.step hs) hnew
    (fun _ _ => trivial) ht

/-- The lock of the key is exclusive, without an expiration, and held by `id`. -/
def Keeps (cfid : UInt32) (key : K) (id : ℕ) (s : State K) : Prop :=
  ∃ m, s.lockMaps cfid = some m ∧ m.keys key = some ⟨true, [id], 0⟩

/-- Any action but the holder's own requests and releases of the key. -/
def Spares (key : K) (id : ℕ) : Action K → Prop
  | .acquireLocked k txnId _ _ | .unlockKey k txnId => k = key → txnId ≠ id
  | .others .. => True

lemma Keeps.step (h : Keeps cfid key id s) (ha : Spares key id a) (hs : step cfid s a = some t) :
    Keeps cfid key id t := by
  obtain ⟨m, hm, hkey⟩ := h
  obtain ⟨m', hm', hkeys⟩ := follows_step hm hs
  refine ⟨m', hm', (hkeys key).elim (·.trans hkey) fun hchanged => ?_⟩
  generalize m'.keys key = o at hchanged ⊢
  cases hchanged with
  | taken _ hold => simpa [(ha rfl).symm] using hold _ hkey
  | joined hold hshared => simp [← Option.some.inj (hkey.symm.trans hold)] at hshared
  | released hold hholder =>
    exact absurd (by simpa [← Option.some.inj (hkey.symm.trans hold)] using hholder) (ha rfl)

/-- Whatever the others do, an exclusive lock without an expiration stays with its holder. -/
theorem lock_kept (h : Keeps cfid key id s) {actions : List (Action K)}
    (ha : ∀ a ∈ actions, Spares key id a) :
    Always (step cfid) (Keeps cfid key id) s actions :=
  always_of_eachStep (fun _ _ _ ha h hs => h.step ha hs) h
    (eachStep_of_forall fun a hmem _ => ha a hmem)

theorem lock_kept_contended : Always (step 0) (Keeps 0 5 1)
    { limitedToTwo with lockMaps := fun _ => some ⟨fun _ => some ⟨true, [1], 0⟩, 1⟩ }
    [.acquireLocked 5 2 0 true, .unlockKey 5 2, .unlockKey 6 1] :=
  lock_kept ⟨_, rfl, rfl⟩ (by simp [Spares])

/-- A lock of others is given away as an exclusive one only if it has expired, and those that are
registered are marked. -/
theorem acquired_by_expiry {info : LockInfo} (hinfo : m.keys key = some info)
    (hothers : info.txnIds ≠ [txnId]) {time : ℕ}
    (hok : (s.acquireLocked cfid m key txnId time true).2 = .ok ()) :
    (0 < info.expirationTime ∧ info.expirationTime ≤ s.now) ∧
      ∀ id ∈ info.txnIds, id ≠ txnId →
        Fenced (s.acquireLocked cfid m key txnId time true).1 id := by
  obtain ⟨-, -, -, hfenced⟩ := isLockExpired_spec s txnId info
  simp only [State.acquireLocked, hinfo, Bool.or_true, if_true, if_neg hothers] at hok ⊢
  split_ifs at hok ⊢ with hexpired
  exact hfenced hexpired

theorem acquired_by_expiry_shared : Fenced
    (State.acquireLocked { limitedToTwo with now := 5 } 0 ⟨fun _ => some ⟨false, [2, 3], 4⟩,
      1⟩ 5 1 0 true).1 3 :=
  (acquired_by_expiry rfl (by decide) rfl).2 3 (by decide) (by decide)

end Mai.TxnLockCount
