import Mai.CoreKeys
import Mai.RunInvariant

/-! Pessimistic transactions and their locks (`txn/transaction-lock-mgr.cc`,
`txn/pessimistic-transaction.cc`, `txn/transaction-base.cc`). Stripes only split a family's lock map
and are merged here; a request that waits is a request that fails and is made again. -/
namespace Mai.TxnLockMgr
open CoreKeys Function

structure LockInfo where
  exclusive : Bool
  txnIds : List ℕ
  expirationTime : ℕ
  deriving DecidableEq, Repr

structure LockMap (K : Type*) where
  keys : K → Option LockInfo
  lockCount : ℤ

inductive TxnState
  | started
  | awaitingCommit
  | commited
  | rolledback
  | locksStolen
  deriving DecidableEq, Repr

abbrev TxnKey (K : Type*) := UInt32 × K

structure Transaction where
  id : ℕ
  state : TxnState
  expirationTime : ℕ

/-- Transactions are named by their object, since `Reinitialize` changes the id. `expirable` is
`expirable_txns_`. -/
structure State (K : Type*) where
  lockMaps : UInt32 → Option (LockMap K)
  txns : ℕ → Option Transaction
  expirable : ℕ → Option ℕ
  now : ℕ
  maxNumLocks : ℤ

variable {K : Type*} [LinearOrder K]

namespace State

def updateTxn (s : State K) (txn : ℕ) (t : Transaction) : State K :=
  { s with txns := update s.txns txn (some t) }

def setLockMap (s : State K) (cfid : UInt32) (m : LockMap K) : State K :=
  { s with lockMaps := update s.lockMaps cfid (some m) }

def tryStealing (s : State K) (id : ℕ) : State K × Bool :=
  match s.expirable id with
  | none => (s, true)
  | some txn =>
    match s.txns txn with
    | none => (s, false)
    | some t => if t.state = .started then (s.updateTxn txn { t with state := .locksStolen }, true)
        else (s, false)

def stealFrom (s : State K) (txnId : ℕ) (expired : Bool) : List ℕ → State K × Bool
  | [] => (s, expired)
  | id :: ids =>
    if txnId = id then stealFrom s txnId expired ids
    else
      let (s, success) := s.tryStealing id
      if success then stealFrom s txnId expired ids else (s, false)

def isLockExpired (s : State K) (txnId : ℕ) (info : LockInfo) : State K × Bool :=
  let expired := decide (0 < info.expirationTime ∧ info.expirationTime ≤ s.now)
  if expired = false ∧ 0 < info.expirationTime then (s, false)
  else s.stealFrom txnId expired info.txnIds

def LockMap.put (m : LockMap K) (key : K) (info : LockInfo) : LockMap K :=
  { m with keys := update m.keys key (some info) }

def acquireLocked (s : State K) (cfid : UInt32) (m : LockMap K) (key : K) (txnId expirationTime : ℕ)
    (exclusive : Bool) :
    State K × Except Error Unit :=
  match m.keys key with
  | some info =>
    if info.exclusive || exclusive then
      if info.txnIds = [txnId] then
        (s.setLockMap cfid (LockMap.put m key { info with
          exclusive := exclusive, expirationTime := expirationTime }), .ok ())
      else
        let (s, expired) := s.isLockExpired txnId info
        if expired then (s.setLockMap cfid (LockMap.put m key ⟨exclusive, [txnId], expirationTime⟩),
          .ok ())
        else (s, .error (.timeout "Lock time out!"))
    else
      (s.setLockMap cfid (LockMap.put m key { info with
        txnIds := info.txnIds ++ [txnId]
        expirationTime := max info.expirationTime expirationTime }), .ok ())
  | none =>
    if 0 < s.maxNumLocks ∧ s.maxNumLocks ≤ m.lockCount then (s, .error (.busy "Lock limit"))
    else
      (s.setLockMap cfid { LockMap.put m key ⟨exclusive, [txnId], expirationTime⟩ with
        lockCount := if s.maxNumLocks ≠ 0 then m.lockCount + 1 else m.lockCount }, .ok ())

def removeId (id : ℕ) (ids : List ℕ) : List ℕ := (ids.set (ids.idxOf id) (ids.getLastD 0)).dropLast

def unlockKey (s : State K) (id : ℕ) (cfid : UInt32) (key : K) (m : LockMap K) : State K :=
  match m.keys key with
  | none => s
  | some info =>
    if id ∈ info.txnIds then
      s.setLockMap cfid {
        keys := update m.keys key
          (if info.txnIds.length = 1 then none
            else some { info with txnIds := removeId id info.txnIds })
        lockCount := if 0 < s.maxNumLocks then m.lockCount - 1 else m.lockCount }
    else s

def new (families : UInt32 → Bool) (maxNumLocks : ℤ) (now : ℕ) : State K where
  lockMaps := fun cfid => if families cfid then some ⟨fun _ => none, 0⟩ else none
  txns := fun _ => none
  expirable := fun _ => none
  now := now
  maxNumLocks := maxNumLocks

end State

end Mai.TxnLockMgr
