import Mai.TxnLockMgr

/-! What requests and releases do to the locks. -/
namespace Mai.TxnLockInvariant
open CoreKeys TxnLockMgr TxnLockMgr.State

variable {K : Type*}

def lockOf (s : State K) (key : TxnKey K) : Option LockInfo :=
  (s.lockMaps key.1).bind fun m => m.keys key.2

structure Frame (s s' : State K) : Prop where
  families : ∀ cfid, (s'.lockMaps cfid).isSome = (s.lockMaps cfid).isSome
  expirable : s'.expirable = s.expirable
  now : s'.now = s.now

lemma Frame.refl (s : State K) : Frame s s := ⟨fun _ => rfl, rfl, rfl⟩

lemma Frame.trans {s s' s'' : State K} (h : Frame s s') (h' : Frame s' s'') : Frame s s'' :=
  ⟨fun cfid => (h'.families cfid).trans (h.families cfid), h'.expirable.trans h.expirable,
    h'.now.trans h.now⟩

/-- A request of `txnId` may have stolen the locks of transactions that are in the map of expirable
ones. -/
def Stole (txnId : ℕ) (s s' : State K) : Prop := ∀ txn, s'.txns txn = s.txns txn ∨
  (∃ id, id ≠ txnId ∧ s.expirable id = some txn) ∧
    ∃ t, s.txns txn = some t ∧ t.state = .started ∧
    s'.txns txn = some { t with state := .locksStolen }

def Fenced (s : State K) (id : ℕ) : Prop :=
  ∀ txn, s.expirable id = some txn → ∃ t, s.txns txn = some t ∧ t.state = .locksStolen

lemma tryStealing_spec (s : State K) (txnId id : ℕ) (hid : txnId ≠ id) :
    Frame s (s.tryStealing id).1 ∧ (s.tryStealing id).1.lockMaps = s.lockMaps ∧
      Stole txnId s (s.tryStealing id).1 ∧
      ((s.tryStealing id).2 = true → Fenced (s.tryStealing id).1 id) := by
  rw [tryStealing]
  split
  · next hnone => exact ⟨Frame.refl s, rfl, fun _ => Or.inl rfl,
      fun _ txn htxn => by simp [hnone] at htxn⟩
  · next txn htxn =>
    split
    · exact ⟨Frame.refl s, rfl, fun _ => Or.inl rfl, by simp⟩
    · next t ht =>
      split_ifs with hstarted
      · refine ⟨⟨fun _ => rfl, rfl, rfl⟩, rfl, fun txn' => ?_, fun _ txn' htxn' => ?_⟩
        · by_cases heq : txn' = txn
          · subst heq
            exact Or.inr ⟨⟨id, hid.symm, htxn⟩, t, ht, hstarted, by simp [updateTxn]⟩
          · exact Or.inl (by simp [updateTxn, heq])
        · obtain rfl := Option.some.inj (htxn'.symm.trans htxn)
          exact ⟨{ t with state := .locksStolen }, by simp [updateTxn], rfl⟩
      · exact ⟨Frame.refl s, rfl, fun _ => Or.inl rfl, by simp⟩

lemma Stole.trans {txnId : ℕ} {s s' s'' : State K} (hexp : s'.expirable = s.expirable)
    (h : Stole txnId s s') (h' : Stole txnId s' s'') : Stole txnId s s'' := by
  intro txn
  rcases h txn with heq | ⟨hexp₁, t, ht, hstarted, heq⟩
  · rcases h' txn with heq' | ⟨hexp₂, t, ht, hstarted, heq'⟩
    · exact Or.inl (heq'.trans heq)
    · exact Or.inr ⟨by rwa [hexp] at hexp₂, t, heq.symm.trans ht, hstarted, heq'⟩
  · rcases h' txn with heq' | ⟨-, t', ht', hstarted', -⟩
    · exact Or.inr ⟨hexp₁, t, ht, hstarted, heq'.trans heq⟩
    · obtain rfl := Option.some.inj (ht'.symm.trans heq)
      exact absurd hstarted' (by simp)

lemma Stole.fenced {txnId id : ℕ} {s s' : State K} (hexp : s'.expirable = s.expirable)
    (h : Stole txnId s s') (hf : Fenced s id) : Fenced s' id := by
  intro txn htxn
  obtain ⟨t, ht, hstolen⟩ := hf txn (by rwa [hexp] at htxn)
  rcases h txn with heq | ⟨-, t', ht', hstarted, -⟩
  · exact ⟨t, heq.trans ht, hstolen⟩
  · obtain rfl := Option.some.inj (ht'.symm.trans ht)
    exact absurd (hstarted.symm.trans hstolen) (by simp)

lemma stealFrom_spec (s : State K) (txnId : ℕ) (expired : Bool) (ids : List ℕ) :
    Frame s (s.stealFrom txnId expired ids).1 ∧ (s.stealFrom txnId expired ids).1.lockMaps =
      s.lockMaps ∧
      Stole txnId s (s.stealFrom txnId expired ids).1 ∧
      ((s.stealFrom txnId expired ids).2 = true → expired = true ∧
        ∀ id ∈ ids, id ≠ txnId → Fenced (s.stealFrom txnId expired ids).1 id) := by
  induction ids generalizing s with
  | nil => exact ⟨Frame.refl s, rfl, fun _ => Or.inl rfl, fun h => ⟨h, by simp⟩⟩
  | cons id ids ih =>
    rw [stealFrom]
    split_ifs with hid
    · obtain ⟨hframe, hmaps, hstole, hfenced⟩ := ih s
      refine ⟨hframe, hmaps, hstole, fun h => ⟨(hfenced h).1, fun i hi hne => ?_⟩⟩
      rcases List.mem_cons.mp hi with rfl | hi
      · exact absurd hid.symm hne
      · exact (hfenced h).2 i hi hne
    · obtain ⟨hframe, hmaps, hstole, hfenced⟩ := tryStealing_spec s txnId id hid
      rcases hsteal : s.tryStealing id with ⟨s', success⟩
      rw [hsteal] at hframe hmaps hstole hfenced
      simp only at hframe hmaps hstole hfenced ⊢
      split_ifs with hsuccess
      · obtain ⟨hframe', hmaps', hstole', hfenced'⟩ := ih s'
        refine ⟨hframe.trans hframe', hmaps'.trans hmaps, hstole.trans hframe.expirable hstole',
          fun h => ⟨(hfenced' h).1, fun i hi hne => ?_⟩⟩
        rcases List.mem_cons.mp hi with rfl | hi
        · exact hstole'.fenced hframe'.expirable (hfenced hsuccess)
        · exact (hfenced' h).2 i hi hne
      · exact ⟨hframe, hmaps, hstole, by simp⟩

lemma isLockExpired_spec (s : State K) (txnId : ℕ) (info : LockInfo) :
    Frame s (s.isLockExpired txnId info).1 ∧ (s.isLockExpired txnId info).1.lockMaps = s.lockMaps ∧
      Stole txnId s (s.isLockExpired txnId info).1 ∧
      ((s.isLockExpired txnId info).2 = true →
        (0 < info.expirationTime ∧ info.expirationTime ≤ s.now) ∧
        ∀ id ∈ info.txnIds, id ≠ txnId → Fenced (s.isLockExpired txnId info).1 id) := by
  simp only [isLockExpired]
  split_ifs with hlater
  · exact ⟨Frame.refl s, rfl, fun _ => Or.inl rfl, by simp⟩
  · obtain ⟨hframe, hmaps, hstole, hfenced⟩ :=
      stealFrom_spec s txnId (decide (0 < info.expirationTime ∧ info.expirationTime ≤ s.now))
        info.txnIds
    exact ⟨hframe, hmaps, hstole, fun h => ⟨of_decide_eq_true (hfenced h).1, (hfenced h).2⟩⟩

end Mai.TxnLockInvariant
