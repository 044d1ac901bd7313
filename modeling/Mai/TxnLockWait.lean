import Mai.TxnLockInvariant
import Mai.TxnWaitGraph

/-! Waiting for a lock (`TransactionLockMgr::AcquireWithTimeout`, `LockMapStripe`). A thread that
waits has let go of the stripe; it goes on with whatever the others have made of the locks. -/
namespace Mai.TxnLockWait
open CoreKeys TxnLockMgr TxnLockInvariant TxnWaitGraph

structure Request where
  cfid : UInt32
  key : Bytes
  txnId : ℕ
  expirationTime : ℕ
  exclusive : Bool
  timeout : ℤ
  deadlockDetect : Bool
  deadlockDetectDepth : ℕ

structure Env where
  locks : State Bytes
  graph : WaitGraph

/-- One round of the waiting loop: the time when it begins, and what the thread finds when it is
woken up. The result of a wait with a limit is `cvTimeout`. -/
structure Wake where
  now : ℕ
  env : Env
  cvTimeout : Bool

structure Attempt where
  locks : State Bytes
  rs : Except Error Unit
  expireTime : ℕ
  waitIds : List ℕ

def isTimeout : Except Error Unit → Bool
  | .error (.timeout _) => true
  | _ => false

/-- The loop of `IsLockExpired` sets the hint back for every lock that it steals. -/
def stealHint (s : State Bytes) (txnId hint : ℕ) : List ℕ → ℕ
  | [] => hint
  | id :: ids =>
    if txnId = id then stealHint s txnId hint ids
    else
      let (s, success) := s.tryStealing id
      if success then stealHint s txnId 0 ids else hint

def expireHint (s : State Bytes) (txnId : ℕ) (info : LockInfo) (hint : ℕ) : ℕ :=
  if ¬ (0 < info.expirationTime ∧ info.expirationTime ≤ s.now) ∧
    0 < info.expirationTime then info.expirationTime
  else stealHint s txnId hint info.txnIds

/-- `AcquireLocked`, with the ids to wait for when the lock is not granted. -/
def attempt (r : Request) (s : State Bytes) (expireTime : ℕ) (waitIds : List ℕ) : Attempt :=
  let m := (s.lockMaps r.cfid).getD ⟨fun _ => none, 0⟩
  let (s', rs) := s.acquireLocked r.cfid m r.key r.txnId r.expirationTime r.exclusive
  match m.keys r.key with
  | some info =>
    if (info.exclusive || r.exclusive) = true ∧ info.txnIds ≠ [r.txnId] then
      ⟨s', rs, expireHint s r.txnId info expireTime, if rs.isOk then waitIds else info.txnIds⟩
    else ⟨s', rs, expireTime, waitIds⟩
  | none => ⟨s', rs, expireTime, waitIds⟩

def cvEndTime (r : Request) (endTime : ℕ) (a : Attempt) : Option ℕ :=
  if 0 < a.expireTime ∧ (r.timeout < 0 ∨ 0 < r.timeout ∧ a.expireTime < endTime)
    then some a.expireTime
  else if 0 ≤ r.timeout then some endTime
  else none

def beginWait (r : Request) (graph : WaitGraph) (a : Attempt) : WaitGraph × Bool :=
  if a.waitIds ≠ [] ∧ r.deadlockDetect = true then
    graph.incrementWaiters r.txnId r.deadlockDetectDepth ⟨a.waitIds, r.cfid, r.key, r.exclusive⟩
  else (graph, false)

def endWait (r : Request) (graph : WaitGraph) (a : Attempt) : WaitGraph :=
  if a.waitIds ≠ [] ∧ r.deadlockDetect = true then graph.decrementWaitersLockless r.txnId a.waitIds
  else graph

/-- The wait itself. `Wait` has no result: the status stays the one of the last attempt. -/
def wait (r : Request) (endTime : ℕ) (env : Env) (a : Attempt) (w : Wake) :
    Env × Except Error Unit :=
  match cvEndTime r endTime a with
  | none => (w.env, a.rs)
  | some time =>
    if w.now < time then (w.env, if w.cvTimeout then .error (.timeout "CV timeout.") else .ok ())
    else (env, a.rs)

/-- The loop; `none` if the thread still waits after the last wake-up. -/
def acquireLoop (r : Request) (endTime : ℕ) :
    List Wake → Env → Attempt → Option (Env × Except Error Unit)
  | [], env, a =>
    let (graph, deadlock) := beginWait r env.graph a
    if deadlock then some (⟨env.locks, graph⟩, .error (.busy "Dead lock.")) else none
  | w :: ws, env, a =>
    let (graph, deadlock) := beginWait r env.graph a
    if deadlock then some (⟨env.locks, graph⟩, .error (.busy "Dead lock."))
    else
      let (env, rs) := wait r endTime ⟨env.locks, graph⟩ a w
      let graph := endWait r env.graph a
      let timedOut := isTimeout rs
      let a' := if rs.isOk || timedOut then attempt r env.locks a.expireTime a.waitIds
        else { a with locks := env.locks, rs := rs }
      if a'.rs.isOk || timedOut then some (⟨a'.locks, graph⟩, a'.rs)
      else acquireLoop r endTime ws ⟨a'.locks, graph⟩ a'

/-- `AcquireWithTimeout` at a time; `mutexFree` is the result of `try_lock`. -/
def acquireWithTimeout (r : Request) (env : Env) (now : ℕ) (mutexFree : Bool)
    (schedule : List Wake) :
    Option (Env × Except Error Unit) :=
  if r.timeout = 0 ∧ mutexFree = false then some (env, .error (.timeout "Mutex timeout."))
  else
    let endTime := if 0 < r.timeout then now + r.timeout.toNat else 0
    let a := attempt r env.locks 0 []
    if a.rs.isOk ∨ r.timeout = 0 then some (⟨a.locks, env.graph⟩, a.rs)
    else acquireLoop r endTime schedule ⟨a.locks, env.graph⟩ a

section Forever
variable {r : Request} {s : State Bytes}

def Blocked (r : Request) (s : State Bytes) : Prop :=
  ∃ info ∈ lockOf s (r.cfid, r.key), (info.exclusive || r.exclusive) = true ∧
    info.txnIds ≠ [r.txnId]

def NeverExpires (r : Request) (s : State Bytes) : Prop :=
  ∀ info ∈ lockOf s (r.cfid, r.key), info.expirationTime = 0

lemma stealHint_zero (s : State Bytes) (txnId : ℕ) (ids : List ℕ) :
    stealHint s txnId 0 ids = 0 := by
  induction ids generalizing s with
  | nil => rfl
  | cons id ids ih =>
    simp only [stealHint]
    split_ifs
    · exact ih s
    · exact ih _
    · rfl

lemma keys_eq_lockOf (s : State Bytes) (cfid : UInt32) (key : Bytes) :
    ((s.lockMaps cfid).getD ⟨fun _ => none, 0⟩).keys key = lockOf s (cfid, key) := by
  rw [lockOf]
  cases s.lockMaps cfid <;> rfl

lemma isLockExpired_never (txnId : ℕ) {info : LockInfo} (h : info.expirationTime = 0) :
    (s.isLockExpired txnId info).2 = false := by
  by_contra htrue
  have hexpired := (isLockExpired_spec s txnId info).2.2.2 (Bool.not_eq_false _ ▸ htrue)
  omega

lemma attempt_blocked (hblocked : Blocked r s) (hnever : NeverExpires r s) (waitIds : List ℕ) :
    (attempt r s 0 waitIds).rs = .error (.timeout "Lock time out!") ∧
      (attempt r s 0 waitIds).expireTime = 0 := by
  obtain ⟨info, hinfo, hconflict, hothers⟩ := hblocked
  have hkey := (keys_eq_lockOf s r.cfid r.key).trans hinfo
  have hexpired := isLockExpired_never (s := s) r.txnId (hnever info hinfo)
  simp only [attempt, hkey, State.acquireLocked, hconflict, hothers, if_true, if_false, hexpired,
    Bool.false_eq_true, ne_eq, not_false_eq_true, and_self, expireHint, hnever info hinfo,
    lt_self_iff_false, and_false, stealHint_zero]

lemma attempt_free (hfree : ¬ Blocked r s) (expireTime : ℕ) (waitIds : List ℕ) :
    (attempt r s expireTime waitIds).rs = .ok () ∨ (attempt r s expireTime waitIds).rs =
      .error (.busy "Lock limit") := by
  have hkey := keys_eq_lockOf s r.cfid r.key
  cases hinfo : lockOf s (r.cfid, r.key) with
  | none =>
    rw [hinfo] at hkey
    simp only [attempt, hkey, State.acquireLocked]
    split_ifs
    · exact Or.inr rfl
    · exact Or.inl rfl
    · exact Or.inl rfl
  | some info =>
    rw [hinfo] at hkey
    by_cases hconflict : (info.exclusive || r.exclusive) = true
    · have hown : info.txnIds = [r.txnId] := by
        by_contra hothers
        exact hfree ⟨info, hinfo, hconflict, hothers⟩
      simp [attempt, hkey, State.acquireLocked, hconflict, hown]
    · simp [attempt, hkey, State.acquireLocked, hconflict]

def Legal (rs : Except Error Unit) : Prop :=
  rs = .ok () ∨ rs = .error (.busy "Dead lock.") ∨ rs = .error (.busy "Lock limit")

lemma acquireLoop_forever (hforever : r.timeout < 0) (endTime : ℕ) (env : Env) {a : Attempt}
    (hrs : a.rs = .error (.timeout "Lock time out!")) (htime : a.expireTime = 0) (w : Wake)
    (ws : List Wake) :
    acquireLoop r endTime (w :: ws) env a =
      if (beginWait r env.graph a).2
        then some (⟨env.locks, (beginWait r env.graph a).1⟩, .error (.busy "Dead lock."))
      else some (⟨(attempt r w.env.locks 0 a.waitIds).locks, endWait r w.env.graph a⟩,
        (attempt r w.env.locks 0 a.waitIds).rs) := by
  have hend : cvEndTime r endTime a = none := by
    simp only [cvEndTime, htime, lt_self_iff_false, false_and, if_false]
    rw [if_neg (by omega)]
  simp [acquireLoop, wait, hend, hrs, htime, isTimeout]

/-- A request that waits forever for a key of others returns a timeout exactly if it is woken up
while they still hold it. -/
theorem waitsForever_iff (hforever : r.timeout < 0) {env : Env} (hblocked : Blocked r env.locks)
    (hnever : NeverExpires r env.locks) {schedule : List Wake}
    (hschedule : ∀ w ∈ schedule, NeverExpires r w.env.locks) (now : ℕ) (mutexFree : Bool) :
    (∀ env' rs, acquireWithTimeout r env now mutexFree schedule = some (env', rs) → Legal rs) ↔
      (beginWait r env.graph (attempt r env.locks 0 [])).2 = true ∨ ∀ w ∈ schedule.head?,
        ¬ Blocked r w.env.locks := by
  obtain ⟨hrs, htime⟩ := attempt_blocked hblocked hnever []
  have hcall : acquireWithTimeout r env now mutexFree schedule = acquireLoop r 0 schedule
      ⟨(attempt r env.locks 0 []).locks, env.graph⟩ (attempt r env.locks 0 []) := by
    have hzero : r.timeout ≠ 0 := by omega
    have hpos : ¬ 0 < r.timeout := by omega
    simp [acquireWithTimeout, hzero, hpos, hrs, Except.isOk, Except.toBool]
  rw [hcall]
  cases schedule with
  | nil =>
    simp only [acquireLoop, List.head?_nil, Option.not_mem_none, false_imp_iff, implies_true,
      or_true, iff_true]
    intro env' rs h
    split_ifs at h
    obtain ⟨-, rfl⟩ := Prod.mk.inj (Option.some.inj h)
    exact Or.inr (Or.inl rfl)
  | cons w ws =>
    rw [acquireLoop_forever hforever 0 _ hrs htime]
    simp only [List.head?_cons, Option.mem_some_iff, forall_eq']
    by_cases hdead : (beginWait r env.graph (attempt r env.locks 0 [])).2 = true
    · rw [if_pos hdead]
      refine iff_of_true (fun env' rs h => ?_) (Or.inl hdead)
      obtain ⟨-, rfl⟩ := Prod.mk.inj (Option.some.inj h)
      exact Or.inr (Or.inl rfl)
    · rw [if_neg hdead]
      rw [or_iff_right hdead]
      constructor
      · intro h hstill
        have hlegal := h _ _ rfl
        rw [(attempt_blocked hstill (hschedule w (by simp)) _).1] at hlegal
        simp [Legal] at hlegal
      · intro hfree env' rs h
        obtain ⟨-, rfl⟩ := Prod.mk.inj (Option.some.inj h)
        rcases attempt_free hfree 0 (attempt r env.locks 0 []).waitIds with hok | hlimit
        · exact Or.inl hok
        · exact Or.inr (Or.inr hlimit)

def heldBy2 (held : Bool) : Env where
  locks := { (State.new (fun _ => true) 0 0 : State Bytes) with
    lockMaps := fun _ => some ⟨fun k => if held ∧ k = [7] then some ⟨true, [2], 0⟩ else none, 0⟩ }
  graph := .empty

def foreverRequest : Request := ⟨0, [7], 1, 0, true, -1, true, 50⟩

lemma heldBy2_never (held : Bool) : NeverExpires foreverRequest (heldBy2 held).locks := by
  intro info hinfo
  cases held with
  | false => cases hinfo
  | true =>
    obtain rfl : (⟨true, [2], 0⟩ : LockInfo) = info := Option.some.inj hinfo
    rfl

theorem waitsForever_released : foreverRequest.timeout < 0 ∧ ∀ env' rs,
    acquireWithTimeout foreverRequest (heldBy2 true) 5 true [⟨6, heldBy2 false, false⟩] =
      some (env', rs) → Legal rs := by
  refine ⟨by decide,
    (waitsForever_iff (by decide) ⟨⟨true, [2], 0⟩, rfl, rfl, by decide⟩ (heldBy2_never true) ?_ 5
      true).mpr ?_⟩
  · simp [heldBy2_never]
  · refine Or.inr fun w hw => ?_
    obtain rfl := Option.some.inj hw
    rintro ⟨info, hinfo, -⟩
    cases hinfo

/-- A wait without a limit ends with a timeout. -/
theorem waitsForever_woken :
    (acquireWithTimeout foreverRequest (heldBy2 true) 5 true [⟨6, heldBy2 true, false⟩]).map
      Prod.snd =
      some (.error (.timeout "Lock time out!")) := by
  rfl

end Forever

end Mai.TxnLockWait
