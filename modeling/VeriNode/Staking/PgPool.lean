import VeriNode.Staking.MemoryPool

/-!
# Bond pools in Postgres

`PgBondPoolStore` of `src/staking/poolStore.ts` over the tables of
`src/database/migrations/006_bond_pools.sql`, any number of transactions at once, under READ
COMMITTED. A statement reads what was committed when it starts. A row that a transaction has
written is locked until the transaction ends, and nobody else sees what was written before it is
committed. A write to a row that is locked waits; it then takes the row as it is committed by
then and tests it again, but keeps what its sub-select had read when it started. Once `unstake`
has the lock of its stake, its `UPDATE` and `DELETE` of that row are one step: nobody sees the
row in between.
-/

namespace VeriNode

namespace PgPool

section Tables

structure PoolRow where
  balance : ℤ
  version : ℤ
deriving DecidableEq

/-- The committed rows. -/
structure Tables where
  bondPools : OrdMap String PoolRow := ∅
  validatorStakes : OrdMap (String × String) ℤ := ∅

/-- `SELECT COALESCE(SUM(amount), 0) FROM validator_stakes WHERE pool_id = …`. -/
def sumValidatorStakes (poolId : String) (stakes : OrdMap (String × String) ℤ) : ℤ :=
  stakes.sum fun key amount => if key.1 = poolId then amount else 0

/-- What a `BIGINT` can be. -/
def bigint (x : ℤ) : Bool := -2 ^ 63 ≤ x ∧ x < 2 ^ 63

/-- What a `BIGINT` column with `CHECK (… >= 0)` takes. -/
def storable (x : ℤ) : Bool := 0 ≤ x ∧ x < 2 ^ 63

end Tables

section Transactions

inductive Op
  | stake (poolId validatorId : String) (amount : ℤ)
  | unstake (poolId validatorId : String) (amount : ℤ)
  | reconcile (poolId : String)
deriving DecidableEq

def Op.poolId : Op → String
  | .stake poolId _ _ => poolId
  | .unstake poolId _ _ => poolId
  | .reconcile poolId => poolId

/-- The key of the stake it writes. -/
def Op.stakeKey : Op → Option (String × String)
  | .stake poolId validatorId _ => some (poolId, validatorId)
  | .unstake poolId validatorId _ => some (poolId, validatorId)
  | .reconcile _ => none

/-- The next statement of a transaction. -/
inductive Phase
  /-- `stake` looks for the pool. -/
  | checking
  /-- `stake` inserts or updates the stake. -/
  | inserting
  /-- `unstake` looks for the stake. -/
  | selecting
  /-- `unstake` has seen the stake, and waits for its lock. -/
  | locking
  /-- The attempt to move the balance reads the pool. -/
  | reading (attempt : ℕ)
  /-- The `UPDATE` of the balance starts, with the version that was read. -/
  | updating (attempt : ℕ) (version : ℤ)
  /-- The `UPDATE` has found the pool, and waits for its lock. -/
  | waiting (attempt : ℕ) (version : ℤ)
  /-- The `UPDATE` of `reconcilePool` starts. -/
  | summing
  /-- The `UPDATE` of `reconcilePool` has the sum, and waits for the pool's lock. -/
  | summed (total : ℤ)
  | committing
deriving DecidableEq

/-- A transaction: what it wrote of its stake (nothing, the row's end, or an amount) and of its
pool, not committed yet. -/
structure Tx where
  op : Op
  phase : Phase
  stakeWrite : Option (Option ℤ) := none
  poolWrite : Option PoolRow := none

inductive Answer
  | pool (pool : BondPool)
  | threw (error : PoolError)
  /-- The database reported an error, or the process is gone. -/
  | failed
deriving DecidableEq

structure State where
  tables : Tables := {}
  txs : OrdMap ℕ Tx := ∅
  answers : OrdMap ℕ Answer := ∅
  nextId : ℕ := 0

/-- `maxOptimisticAttempts`. -/
def maxOptimisticAttempts : ℕ := 5

/-- Another transaction has written the stake. -/
def stakeLocked (s : State) (id : ℕ) (op : Op) : Bool :=
  s.txs.entries.any fun e => e.1 ≠ id ∧ e.2.op.stakeKey = op.stakeKey ∧ e.2.stakeWrite.isSome

/-- Another transaction has written the pool. -/
def poolLocked (s : State) (id : ℕ) (op : Op) : Bool :=
  s.txs.entries.any fun e => e.1 ≠ id ∧ e.2.op.poolId = op.poolId ∧ e.2.poolWrite.isSome

def State.goOn (id : ℕ) (tx : Tx) (s : State) : State := { s with txs := s.txs.set id tx }

/-- The transaction is rolled back, or has nothing left to do. -/
def State.finish (id : ℕ) (answer : Answer) (s : State) : State :=
  { s with txs := s.txs.delete id, answers := s.answers.set id answer }

/-- The `INSERT … ON CONFLICT` of `stake`. Both parameters are bound as `BIGINT`, and the sum of
the `WHERE` clause is one. -/
def insertStake (maxValidatorStake : ℤ) (id : ℕ) (tx : Tx) (poolId validatorId : String)
    (amount : ℤ) (s : State) : State :=
  if storable amount ∧ bigint maxValidatorStake then
    match s.tables.validatorStakes.get (poolId, validatorId) with
    | none => s.goOn id { tx with phase := .reading 0, stakeWrite := some (some amount) }
    | some existing =>
      if storable (existing + amount) then
        if existing + amount ≤ maxValidatorStake then
          s.goOn id { tx with phase := .reading 0, stakeWrite := some (some (existing + amount)) }
        else s.finish id (.threw (.validatorStakeLimit validatorId poolId maxValidatorStake))
      else s.finish id .failed
  else s.finish id .failed

/-- `unstake` with the lock of its stake. -/
def takeStake (id : ℕ) (tx : Tx) (poolId validatorId : String) (amount : ℤ) (s : State) : State :=
  match s.tables.validatorStakes.get (poolId, validatorId) with
  | none => s.finish id (.threw (.insufficientStake validatorId poolId))
  | some existing =>
    if existing < amount then s.finish id (.threw (.insufficientStake validatorId poolId))
    else if storable (existing - amount) then
      s.goOn id { tx with
        phase := .reading 0
        stakeWrite := some (if existing - amount = 0 then none else some (existing - amount)) }
    else s.finish id .failed

/-- The `SELECT` of an attempt to move the balance. -/
def readPool (id : ℕ) (tx : Tx) (attempt : ℕ) (s : State) : State :=
  if attempt < maxOptimisticAttempts then
    match s.tables.bondPools.get tx.op.poolId with
    | none => s.finish id (.threw (.poolNotFound tx.op.poolId))
    | some row =>
      match tx.op with
      | .unstake poolId _ amount =>
        if row.balance < amount then s.finish id (.threw (.insufficientPoolBalance poolId))
        else s.goOn id { tx with phase := .updating attempt row.version }
      | _ => s.goOn id { tx with phase := .updating attempt row.version }
  else s.finish id (.threw (.conflicted tx.op.poolId))

/-- The `WHERE` clause of the `UPDATE` of the balance. -/
def Op.matches (op : Op) (version : ℤ) (row : PoolRow) : Bool :=
  row.version = version &&
    match op with
    | .unstake _ _ amount => decide (amount ≤ row.balance)
    | _ => true

/-- What the transaction adds to the balance. -/
def Op.delta : Op → ℤ
  | .stake _ _ amount => amount
  | .unstake _ _ amount => -amount
  | .reconcile _ => 0

/-- A row of `bond_pools` is written. -/
def writePool (id : ℕ) (tx : Tx) (row : PoolRow) (s : State) : State :=
  if storable row.balance ∧ bigint row.version then
    s.goOn id { tx with phase := .committing, poolWrite := some row }
  else s.finish id .failed

/-- The `UPDATE` of the balance, with the pool's lock. -/
def movePool (id : ℕ) (tx : Tx) (attempt : ℕ) (version : ℤ) (s : State) : State :=
  match s.tables.bondPools.get tx.op.poolId with
  | none => s.goOn id { tx with phase := .reading (attempt + 1) }
  | some row =>
    if tx.op.matches version row then
      writePool id tx ⟨row.balance + tx.op.delta, row.version + 1⟩ s
    else s.goOn id { tx with phase := .reading (attempt + 1) }

/-- The `UPDATE` of `reconcilePool`, with the pool's lock. -/
def writeTotal (id : ℕ) (tx : Tx) (total : ℤ) (s : State) : State :=
  match s.tables.bondPools.get tx.op.poolId with
  | none => s.finish id (.threw (.poolNotFound tx.op.poolId))
  | some row => writePool id tx ⟨total, row.version + 1⟩ s

/-- What the transaction wrote takes the place of what was committed. -/
def Tables.apply (d : Tables) (tx : Tx) : Tables where
  bondPools :=
    match tx.poolWrite with
    | none => d.bondPools
    | some row => d.bondPools.set tx.op.poolId row
  validatorStakes :=
    match tx.op.stakeKey, tx.stakeWrite with
    | some key, some none => d.validatorStakes.delete key
    | some key, some (some amount) => d.validatorStakes.set key amount
    | _, _ => d.validatorStakes

def commit (id : ℕ) (tx : Tx) (s : State) : State :=
  match tx.poolWrite with
  | none => s.finish id .failed
  | some row =>
    { s with tables := s.tables.apply tx }.finish id
      (.pool ⟨tx.op.poolId, row.balance, row.version⟩)

end Transactions

section System

/-- The next statement of a transaction, if it need not wait. -/
def next (maxValidatorStake : ℤ) (id : ℕ) (tx : Tx) (s : State) : Option State :=
  match tx.op, tx.phase with
  | .stake poolId _ _, .checking =>
    some (if s.tables.bondPools.has poolId then s.goOn id { tx with phase := .inserting }
      else s.finish id (.threw (.poolNotFound poolId)))
  | .stake poolId validatorId amount, .inserting =>
    if stakeLocked s id tx.op then none
    else some (insertStake maxValidatorStake id tx poolId validatorId amount s)
  | .unstake poolId validatorId _, .selecting =>
    some (if s.tables.validatorStakes.has (poolId, validatorId) then
        s.goOn id { tx with phase := .locking }
      else s.finish id (.threw (.insufficientStake validatorId poolId)))
  | .unstake poolId validatorId amount, .locking =>
    if stakeLocked s id tx.op then none else some (takeStake id tx poolId validatorId amount s)
  | .reconcile poolId, .summing =>
    some (if s.tables.bondPools.has poolId then
        s.goOn id { tx with phase := .summed (sumValidatorStakes poolId s.tables.validatorStakes) }
      else s.finish id (.threw (.poolNotFound poolId)))
  | .reconcile _, .summed total =>
    if poolLocked s id tx.op then none else some (writeTotal id tx total s)
  | _, .reading attempt => some (readPool id tx attempt s)
  | _, .updating attempt version =>
    some (s.goOn id { tx with
      phase :=
        if (s.tables.bondPools.get tx.op.poolId).any (tx.op.matches version) then
          .waiting attempt version
        else .reading (attempt + 1) })
  | _, .waiting attempt version =>
    if poolLocked s id tx.op then none else some (movePool id tx attempt version s)
  | _, .committing => some (commit id tx s)
  | _, _ => none

inductive Action
  | stake (poolId validatorId : String) (amount : ℤ)
  | unstake (poolId validatorId : String) (amount : ℤ)
  | reconcile (poolId : String)
  | next (id : ℕ)
  | abort (id : ℕ)
deriving DecidableEq

/-- A new transaction. -/
def State.start (tx : Tx) (s : State) : State :=
  { s with nextId := s.nextId + 1, txs := s.txs.set s.nextId tx }

def step (maxValidatorStake : ℤ) (s : State) : Action → Option State
  | .stake poolId validatorId amount =>
    some (s.start { op := .stake poolId validatorId amount, phase := .checking })
  | .unstake poolId validatorId amount =>
    some (s.start { op := .unstake poolId validatorId amount, phase := .selecting })
  | .reconcile poolId => some (s.start { op := .reconcile poolId, phase := .summing })
  | .next id =>
    match s.txs.get id with
    | none => none
    | some tx => next maxValidatorStake id tx s
  | .abort id => if s.txs.has id then some (s.finish id .failed) else none

/-- Every pool has the sum of its stakes, and every stake is positive and within the limit. -/
structure Conserved (maxValidatorStake : ℤ) (d : Tables) : Prop where
  balance : ∀ poolId row, d.bondPools.get poolId = some row →
    row.balance = sumValidatorStakes poolId d.validatorStakes
  bounds : ∀ key amount, d.validatorStakes.get key = some amount →
    0 < amount ∧ amount ≤ maxValidatorStake

/-- The system starts with any tables that are conserved, and no transactions. -/
def sys (maxValidatorStake : ℤ) : Sys State Action where
  init s := ∃ tables, Conserved maxValidatorStake tables ∧ s = { tables := tables }
  step := step maxValidatorStake

end System

end PgPool

end VeriNode
