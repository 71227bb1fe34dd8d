import VeriNode.Lib.OrdMap
import VeriNode.Lib.Run
import Mathlib.Algebra.Order.Ring.Int

/-!
# Bond pools in memory

`InMemoryBondPoolStore` of `src/staking/poolStore.ts` behind `BondPoolService` of
`src/staking/bondPool.ts`, any number of calls at once. A call of the store takes its place in the
pool's chain of promises, waits until the one before it has released, runs, and releases. The
bodies of `stake` and `unstake` run in one piece; the body of `reconcilePool` waits between the sum
of the stakes and its write, and calls on other pools may run there.
-/

namespace VeriNode

structure BondPool where
  id : String
  balance : ℤ
  version : ℤ
deriving DecidableEq

structure ValidatorStake where
  poolId : String
  validatorId : String
  amount : ℤ
deriving DecidableEq

inductive PoolError
  | poolNotFound (poolId : String)
  | insufficientStake (validatorId poolId : String)
  | insufficientPoolBalance (poolId : String)
  | validatorStakeLimit (validatorId poolId : String) (maxStake : ℤ)
  | stakeAmount (amount : ℤ)
  | conflicted (poolId : String)
deriving DecidableEq

def PoolError.message : PoolError → String
  | .poolNotFound poolId => s!"Bond pool {poolId} was not found"
  | .insufficientStake validatorId poolId =>
    s!"Validator {validatorId} does not have enough stake in pool {poolId}"
  | .insufficientPoolBalance poolId => s!"Bond pool {poolId} does not have enough balance"
  | .validatorStakeLimit validatorId poolId maxStake =>
    s!"Validator {validatorId} stake in pool {poolId} would exceed maximum {maxStake}"
  | .stakeAmount amount => s!"Stake amount {amount} is outside the allowed range"
  | .conflicted poolId => s!"Bond pool {poolId} balance update conflicted too many times"

def minStake : ℤ := 100

def maxStake : ℤ := 100000

/-- `assertStakeAmount`. -/
def assertStakeAmount (amount : ℤ) : Except PoolError Unit :=
  if amount < minStake ∨ maxStake < amount then .error (.stakeAmount amount) else .ok ()

namespace MemoryPool

section Store

structure Tables where
  pools : OrdMap String BondPool := ∅
  stakes : OrdMap String ValidatorStake := ∅

def stakeKey (poolId validatorId : String) : String := s!"{poolId}:{validatorId}"

def getValidatorStake (poolId validatorId : String) (d : Tables) : Option ValidatorStake :=
  d.stakes.get (stakeKey poolId validatorId)

def sumValidatorStakes (poolId : String) (stakes : OrdMap String ValidatorStake) : ℤ :=
  stakes.sum fun _ stake => if stake.poolId = poolId then stake.amount else 0

def requirePool (poolId : String) (d : Tables) : Except PoolError BondPool :=
  match d.pools.get poolId with
  | none => .error (.poolNotFound poolId)
  | some pool => .ok pool

/-- The body of `stake`: the pool it returns, and the tables after it. -/
def stake (maxValidatorStake : ℤ) (poolId validatorId : String) (amount : ℤ) (d : Tables) :
    Except PoolError (BondPool × Tables) := do
  let pool ← requirePool poolId d
  let key := stakeKey poolId validatorId
  let nextAmount := ((d.stakes.get key).map (·.amount)).getD 0 + amount
  if maxValidatorStake < nextAmount then
    throw (.validatorStakeLimit validatorId poolId maxValidatorStake)
  let pool' := { pool with balance := pool.balance + amount, version := pool.version + 1 }
  return (pool',
    { pools := d.pools.set poolId pool'
      stakes := d.stakes.set key ⟨poolId, validatorId, nextAmount⟩ })

/-- The body of `unstake`. -/
def unstake (poolId validatorId : String) (amount : ℤ) (d : Tables) :
    Except PoolError (BondPool × Tables) := do
  let pool ← requirePool poolId d
  let key := stakeKey poolId validatorId
  match d.stakes.get key with
  | none => throw (.insufficientStake validatorId poolId)
  | some stake =>
    if stake.amount < amount then throw (.insufficientStake validatorId poolId)
    if pool.balance < amount then throw (.insufficientPoolBalance poolId)
    let nextAmount := stake.amount - amount
    let pool' := { pool with balance := pool.balance - amount, version := pool.version + 1 }
    return (pool',
      { pools := d.pools.set poolId pool'
        stakes :=
          if nextAmount = 0 then d.stakes.delete key
          else d.stakes.set key { stake with amount := nextAmount } })

/-- The end of the body of `reconcilePool`. -/
def writeBalance (poolId : String) (total : ℤ) (pool : BondPool) (d : Tables) : BondPool × Tables :=
  let pool' := { pool with balance := total, version := pool.version + 1 }
  (pool', { d with pools := d.pools.set poolId pool' })

end Store

section System

inductive Op
  | stake (poolId validatorId : String) (amount : ℤ)
  | unstake (poolId validatorId : String) (amount : ℤ)
  | reconcile (poolId : String)
deriving DecidableEq

def Op.poolId : Op → String
  | .stake poolId _ _ => poolId
  | .unstake poolId _ _ => poolId
  | .reconcile poolId => poolId

/-- Where a call stands. -/
inductive Phase
  /-- It waits for the promise before its own. -/
  | waiting
  /-- `reconcilePool` has the sum of the stakes. -/
  | summed (total : ℤ)
  /-- Its body is through; it has not released yet. -/
  | done (result : Except PoolError BondPool)

/-- A call, with the call whose promise it waits for. -/
structure Call where
  op : Op
  previous : Option ℕ
  phase : Phase

inductive Answer
  | pool (pool : BondPool)
  | stake (stake : Option ValidatorStake)
  | threw (error : PoolError)
deriving DecidableEq

/-- `locks` has the call that was last to queue for the pool. -/
structure State where
  tables : Tables := {}
  locks : OrdMap String ℕ := ∅
  calls : OrdMap ℕ Call := ∅
  answers : OrdMap ℕ Answer := ∅
  nextId : ℕ := 0

/-- `withPoolLock` up to its wait. -/
def withPoolLock (op : Op) (s : State) : State :=
  { s with
    nextId := s.nextId + 1
    locks := s.locks.set op.poolId s.nextId
    calls := s.calls.set s.nextId ⟨op, s.locks.get op.poolId, .waiting⟩ }

/-- A call that is over at once. -/
def State.answer (answer : Answer) (s : State) : State :=
  { s with nextId := s.nextId + 1, answers := s.answers.set s.nextId answer }

/-- `BondPoolService`: the amount is checked, and the store is called. -/
def serve (op : Op) (amount : ℤ) (s : State) : State :=
  match assertStakeAmount amount with
  | .error e => s.answer (.threw e)
  | .ok _ => withPoolLock op s

/-- The promise the call waits for is resolved: the call before it has released. -/
def resolved (s : State) : Option ℕ → Bool
  | none => true
  | some id => !s.calls.has id

/-- The body is through. -/
def State.settle (id : ℕ) (call : Call) (result : Except PoolError (BondPool × Tables))
    (s : State) : State :=
  match result with
  | .error e => { s with calls := s.calls.set id { call with phase := .done (.error e) } }
  | .ok (pool, tables) =>
    { s with tables := tables, calls := s.calls.set id { call with phase := .done (.ok pool) } }

/-- The body of a call, up to where it waits. -/
def body (maxValidatorStake : ℤ) (id : ℕ) (call : Call) (s : State) : State :=
  match call.op with
  | .stake poolId validatorId amount =>
    s.settle id call (stake maxValidatorStake poolId validatorId amount s.tables)
  | .unstake poolId validatorId amount =>
    s.settle id call (unstake poolId validatorId amount s.tables)
  | .reconcile poolId =>
    match requirePool poolId s.tables with
    | .error e => s.settle id call (.error e)
    | .ok _ =>
      let total := sumValidatorStakes poolId s.tables.stakes
      { s with calls := s.calls.set id { call with phase := .summed total } }

/-- The `finally` block of `withPoolLock`. -/
def release (id : ℕ) (call : Call) (result : Except PoolError BondPool) (s : State) : State :=
  { s with
    calls := s.calls.delete id
    locks :=
      if s.locks.get call.op.poolId = some id then s.locks.delete call.op.poolId else s.locks
    answers := s.answers.set id
      (match result with
        | .error e => .threw e
        | .ok pool => .pool pool) }

inductive Action
  | stake (poolId validatorId : String) (amount : ℤ)
  | unstake (poolId validatorId : String) (amount : ℤ)
  | reconcile (poolId : String)
  | getValidatorStake (poolId validatorId : String)
  | run (id : ℕ)
  | write (id : ℕ)
  | release (id : ℕ)
deriving DecidableEq

def step (maxValidatorStake : ℤ) (s : State) : Action → Option State
  | .stake poolId validatorId amount => some (serve (.stake poolId validatorId amount) amount s)
  | .unstake poolId validatorId amount => some (serve (.unstake poolId validatorId amount) amount s)
  | .reconcile poolId => some (withPoolLock (.reconcile poolId) s)
  | .getValidatorStake poolId validatorId =>
    some (s.answer (.stake (getValidatorStake poolId validatorId s.tables)))
  | .run id =>
    match s.calls.get id with
    | some ⟨op, previous, .waiting⟩ =>
      if resolved s previous then some (body maxValidatorStake id ⟨op, previous, .waiting⟩ s)
      else none
    | _ => none
  | .write id =>
    match s.calls.get id with
    | some ⟨op, previous, .summed total⟩ =>
      match s.tables.pools.get op.poolId with
      | none => none
      | some pool =>
        some (s.settle id ⟨op, previous, .summed total⟩
          (.ok (writeBalance op.poolId total pool s.tables)))
    | _ => none
  | .release id =>
    match s.calls.get id with
    | some ⟨op, previous, .done result⟩ =>
      some (MemoryPool.release id ⟨op, previous, .done result⟩ result s)
    | _ => none

/-- The system starts with any pools, all empty, and no stakes. -/
def sys (maxValidatorStake : ℤ) : Sys State Action where
  init s := ∃ pools : OrdMap String BondPool, (∀ id pool, pools.get id = some pool → pool = ⟨id, 0, 0⟩)
    ∧ s = { tables := { pools := pools } }
  step := step maxValidatorStake

end System

end MemoryPool

end VeriNode
