import Mathlib.Algebra.BigOperators.Group.List.Basic
import Mathlib.Data.List.Infix
import VeriNode.Lib.Decimal
import VeriNode.Lib.OrdMap
import VeriNode.Lib.Run

/-!
# Reward distribution

`RewardDistributor` of `src/rewards/distributor.ts` with the lock of `src/rewards/lock_manager.ts`,
inside `Database.transaction` of `src/config/database.ts`, over the tables of
`src/database/migrations/005_balance_ledger.sql`. Amounts are counted in units of the seventh
decimal. Any number of calls go on at once, each a statement at a time; any statement may fail, with
any error, and a lock that another transaction holds makes a statement wait. What a transaction
writes is its own until it commits, and is gone when it rolls back, with its locks.
-/

namespace VeriNode

namespace Rewards

section Allocations

structure RewardAllocation where
  nodeId : String
  amount : String
deriving DecidableEq

/-- What is thrown. -/
inductive Failure
  /-- A `RewardLockTimeoutError`. -/
  | lockTimeout (nodeId : String) (code : Option String)
  | error (code : Option String) (message : String)
deriving DecidableEq

/-- `toLowerCase` of a character, as far as letters of ASCII come out of it; the other one is the
Kelvin sign. -/
def toLowerCase (c : Char) : Char := if c.toNat = 0x212A then 'k' else c.toLower

def isLockTimeoutError : Failure → Bool
  | .lockTimeout _ _ => true
  | .error code message =>
    code = some "55P03" || decide ("lock timeout".toList <:+: message.toList.map toLowerCase)

def decimalScale : ℕ := 10000000

def rewardPoolMinUnits : ℕ := 1

def rewardPoolMaxUnits : ℕ := 1000000 * decimalScale

def parseUnits (value : String) : Except Failure ℕ :=
  match Decimal.parse 7 value with
  | some units => .ok units
  | none => .error (.error none ("Invalid 7-decimal reward amount: " ++ value))

def formatUnits (value : ℕ) : String := Decimal.format 7 value

def computeAllocations (pendingRewards : List RewardAllocation) (totalRewardPool : String) :
    Except Failure (List RewardAllocation) := do
  let pool ← parseUnits totalRewardPool
  if pool < rewardPoolMinUnits ∨ rewardPoolMaxUnits < pool then
    throw (.error none "totalRewardPool is outside supported reward-cycle bounds")
  let rewards ← pendingRewards.mapM fun reward => do
    return (reward.nodeId, ← parseUnits reward.amount)
  let positiveRewards := rewards.filter fun reward => 0 < reward.2
  let totalPending := (positiveRewards.map Prod.snd).sum
  if totalPending = 0 then return []
  let allocations := positiveRewards.map fun reward =>
    { nodeId := reward.1, amount := formatUnits (pool * reward.2 / totalPending) }
  allocations.filterM fun reward => do return decide (0 < (← parseUnits reward.amount))

end Allocations

section Tables

/-- A row of `reward_tx`. -/
structure RewardTx where
  nodeId : String
  amount : ℤ
deriving DecidableEq

/-- The committed rows. -/
structure Tables where
  rewardPendingAmounts : OrdMap String ℤ := ∅
  rewardTx : List RewardTx := []

/-- What a `NUMERIC(30, 7)` can be. -/
def numeric (units : ℤ) : Bool := -10 ^ 30 < units ∧ units < 10 ^ 30

/-- How a `NUMERIC(30, 7)` is sent. -/
def numericText (units : ℤ) : String :=
  if units < 0 then "-" ++ Decimal.format 7 units.natAbs else Decimal.format 7 units.natAbs

end Tables

section Calls

inductive DistributionStatus
  | distributed
  | skipped
  | requeued
deriving DecidableEq

structure RewardDistributionResult where
  nodeId : String
  allocatedAmount : String
  status : DistributionStatus
deriving DecidableEq

/-- The next statement of a call, or how it ended. -/
inductive Phase
  | beginning
  /-- `SAVEPOINT`. -/
  | saving
  /-- `SET LOCAL lock_timeout`. -/
  | settingTimeout
  /-- `pg_advisory_xact_lock`. -/
  | locking
  /-- `SELECT … FOR UPDATE`. -/
  | selecting
  | inserting (allocation : RewardAllocation)
  | updating (allocation : RewardAllocation)
  /-- `RELEASE SAVEPOINT`. -/
  | releasing (result : RewardDistributionResult)
  /-- `ROLLBACK TO SAVEPOINT`. -/
  | rollingBack (error : Failure)
  /-- `RELEASE SAVEPOINT`, rolled back to. -/
  | releasingAfter (error : Failure)
  /-- `requeueRewardCycle`. -/
  | requeueing
  | committing (result : RewardDistributionResult)
  /-- `ROLLBACK`. -/
  | aborting
  | returned (result : RewardDistributionResult)
  | threw
deriving DecidableEq

/-- A call of `computeAndDistributeNodeReward`, of a distributor that was given a queue for what
it has to leave or was given none, with what it has locked and what it has written. -/
structure Call where
  nodeId : String
  requeue : Bool
  phase : Phase := .beginning
  advisoryLock : Bool := false
  rowLock : Bool := false
  txWrite : Option RewardTx := none
  pendingWrite : Option ℤ := none
deriving DecidableEq

def rewardLockName (nodeId : String) : String := "reward_cycle_" ++ nodeId

/-- What `acquireRewardNodeLock` throws for an error of its statements. -/
def lockFailure (nodeId : String) (error : Failure) : Failure :=
  if isLockTimeoutError error then
    match error with
    | .lockTimeout _ code => .lockTimeout nodeId code
    | .error code _ => .lockTimeout nodeId code
  else error

def skipped (nodeId : String) : RewardDistributionResult := ⟨nodeId, "0.0000000", .skipped⟩

def requeued (nodeId : String) : RewardDistributionResult := ⟨nodeId, "0.0000000", .requeued⟩

/-- The allocation for the pending amount; none if the node is skipped. -/
def allocation (nodeId amount : String) : Except Failure (Option RewardAllocation) := do
  if (← parseUnits amount) = 0 then return none
  return (← computeAllocations [⟨nodeId, amount⟩] amount).head?

/-- What comes after the `SELECT`. -/
def afterSelect (nodeId amount : String) : Phase :=
  match allocation nodeId amount with
  | .error error => .rollingBack error
  | .ok none => .releasing (skipped nodeId)
  | .ok (some allocation) => .inserting allocation

/-- The transaction has no locks, and nothing is written. -/
def Call.rollBack (call : Call) (phase : Phase) : Call :=
  { call with
    phase := phase
    advisoryLock := false
    rowLock := false
    txWrite := none
    pendingWrite := none }

/-- The statement fails. -/
def Call.fail (call : Call) (error : Failure) : Option Call :=
  match call.phase with
  | .beginning => some { call with phase := .aborting }
  | .saving => some { call with phase := .aborting }
  | .settingTimeout => some { call with phase := .rollingBack (lockFailure call.nodeId error) }
  | .locking => some { call with phase := .rollingBack (lockFailure call.nodeId error) }
  | .selecting => some { call with phase := .rollingBack error }
  | .inserting _ => some { call with phase := .rollingBack error }
  | .updating _ => some { call with phase := .rollingBack error }
  | .releasing _ => some { call with phase := .rollingBack error }
  | .rollingBack _ => some { call with phase := .aborting }
  | .releasingAfter _ => some { call with phase := .aborting }
  | .requeueing => some { call with phase := .aborting }
  | .committing _ => some { call with phase := .aborting }
  | .aborting => some (call.rollBack .threw)
  | .returned _ => none
  | .threw => none

structure State where
  tables : Tables := {}
  calls : OrdMap ℕ Call := ∅
  requeues : List ℕ := []
  nextId : ℕ := 0

/-- Another call has the advisory lock. -/
def advisoryLocked (hashtext : String → ℤ) (s : State) (id : ℕ) (nodeId : String) : Bool :=
  s.calls.entries.any fun e => e.1 ≠ id ∧ e.2.advisoryLock = true
    ∧ hashtext (rewardLockName e.2.nodeId) = hashtext (rewardLockName nodeId)

/-- Another call has locked the row of the node. -/
def rowLocked (s : State) (id : ℕ) (nodeId : String) : Bool :=
  s.calls.entries.any fun e => e.1 ≠ id ∧ e.2.rowLock = true ∧ e.2.nodeId = nodeId

/-- The statement succeeds; none if it has to wait, or can only fail. -/
def Call.succeed (hashtext : String → ℤ) (id : ℕ) (call : Call) (s : State) : Option Call :=
  match call.phase with
  | .beginning => some { call with phase := .saving }
  | .saving => some { call with phase := .settingTimeout }
  | .settingTimeout => some { call with phase := .locking }
  | .locking =>
    if advisoryLocked hashtext s id call.nodeId then none
    else some { call with phase := .selecting, advisoryLock := true }
  | .selecting =>
    if rowLocked s id call.nodeId then none
    else
      match s.tables.rewardPendingAmounts.get call.nodeId with
      | none => some { call with phase := afterSelect call.nodeId "0" }
      | some units =>
        some { call with phase := afterSelect call.nodeId (numericText units), rowLock := true }
  | .inserting allocation =>
    match Decimal.parse 7 allocation.amount with
    | none => none
    | some units =>
      if 0 < units ∧ numeric units ∧ s.tables.rewardPendingAmounts.has call.nodeId then
        some { call with phase := .updating allocation, txWrite := some ⟨call.nodeId, units⟩ }
      else none
  | .updating allocation =>
    if rowLocked s id call.nodeId then none
    else
      match Decimal.parse 7 allocation.amount,
        s.tables.rewardPendingAmounts.get call.nodeId with
      | none, _ => none
      | some _, none =>
        some { call with
          phase := .releasing ⟨call.nodeId, allocation.amount, .distributed⟩ }
      | some units, some pending =>
        if 0 ≤ pending - units ∧ numeric (pending - units) then
          some { call with
            phase := .releasing ⟨call.nodeId, allocation.amount, .distributed⟩
            rowLock := true
            pendingWrite := some (pending - units) }
        else none
  | .releasing result => some { call with phase := .committing result }
  | .rollingBack error => some (call.rollBack (.releasingAfter error))
  | .releasingAfter error =>
    if isLockTimeoutError error then
      if call.requeue then some { call with phase := .requeueing }
      else some { call with phase := .committing (requeued call.nodeId) }
    else some { call with phase := .aborting }
  | .requeueing => some { call with phase := .committing (requeued call.nodeId) }
  | .committing result => some (call.rollBack (.returned result))
  | .aborting => some (call.rollBack .threw)
  | .returned _ => none
  | .threw => none

/-- The statement commits. -/
def Call.commits (call : Call) (error : Option Failure) : Bool :=
  match call.phase, error with
  | .committing _, none => true
  | _, _ => false

/-- The tables with what the call has written. -/
def Call.apply (call : Call) (tables : Tables) : Tables where
  rewardPendingAmounts :=
    match call.pendingWrite with
    | none => tables.rewardPendingAmounts
    | some amount => tables.rewardPendingAmounts.set call.nodeId amount
  rewardTx := tables.rewardTx ++ call.txWrite.toList

inductive Action
  | call (nodeId : String) (requeue : Bool)
  /-- The next statement of a call, and the error it fails with. -/
  | next (id : ℕ) (error : Option Failure)
deriving DecidableEq

/-- What the next statement of the call does to it. -/
def Call.next (hashtext : String → ℤ) (id : ℕ) (call : Call) (s : State) :
    Option Failure → Option Call
  | none => call.succeed hashtext id s
  | some error => call.fail error

def step (hashtext : String → ℤ) (s : State) : Action → Option State
  | .call nodeId requeue =>
    some { s with
      calls := s.calls.set s.nextId { nodeId := nodeId, requeue := requeue }
      nextId := s.nextId + 1 }
  | .next id error =>
    match s.calls.get id with
    | none => none
    | some call =>
      match call.next hashtext id s error with
      | none => none
      | some call' =>
        some { s with
          tables := if call.commits error then call.apply s.tables else s.tables
          calls := s.calls.set id call'
          requeues := if call.phase = .requeueing then s.requeues ++ [id] else s.requeues }

/-- No call is going on at first, and no amount is negative. -/
def sys (hashtext : String → ℤ) : Sys State Action where
  init s := (∀ nodeId amount, s.tables.rewardPendingAmounts.get nodeId = some amount → 0 ≤ amount)
    ∧ s.calls = ∅ ∧ s.requeues = []
  step := step hashtext

end Calls

end Rewards

end VeriNode
