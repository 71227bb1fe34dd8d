import VeriNode.Staking.PgPool
import VeriNode.Lib.Calls
import VeriNode.Lib.OrdMap

/-!
# The interface of the bond pool stores

`BondPoolStore` of `src/staking/poolStore.ts`, called one call at a time. Each store takes the
steps of the call until it has its answer, nobody else being there; `getPool`, `getValidatorStake`
and `sumValidatorStakes` only read. `PgBondPoolStore` returns the sum of the stakes as the balance
of `getPool`, and not the column.
-/

namespace VeriNode

namespace PoolStore

section Interface

inductive Call
  | getPool (poolId : String)
  | getValidatorStake (poolId validatorId : String)
  | stake (poolId validatorId : String) (amount : ℤ)
  | unstake (poolId validatorId : String) (amount : ℤ)
  | sumValidatorStakes (poolId : String)
  | reconcilePool (poolId : String)
deriving DecidableEq

inductive Reply
  | pool (pool : Option BondPool)
  | stake (stake : Option ValidatorStake)
  | total (total : ℤ)
  | threw (error : PoolError)
  /-- An error of the database's own. -/
  | failed
deriving DecidableEq

/-- The amounts of a call are positive. -/
def Call.positive : Call → Prop
  | .stake _ _ amount => 0 < amount
  | .unstake _ _ amount => 0 < amount
  | _ => True

/-- The replies to the calls, in order. -/
def replies {δ : Type} (call : Call → δ → Option (Reply × δ)) : δ → List Call → Option (List Reply)
  | _, [] => some []
  | d, c :: cs =>
    match call c d with
    | none => none
    | some (reply, d') => (replies call d' cs).map (reply :: ·)

end Interface

section Memory

variable (maxValidatorStake : ℤ)

/-- Call 0 takes its steps, as long as it has one. -/
def Memory.settle : ℕ → MemoryPool.State → MemoryPool.State
  | 0, s => s
  | k + 1, s =>
    match [.run 0, .write 0, .release 0].findSome? (MemoryPool.step maxValidatorStake s) with
    | none => s
    | some s' => Memory.settle k s'

def Memory.reply : MemoryPool.Answer → Reply
  | .pool pool => .pool (some pool)
  | .stake stake => .stake stake
  | .threw error => .threw error

/-- A call behind the pool's lock: its body, its write, its release. -/
def Memory.locked (op : MemoryPool.Op) (d : MemoryPool.Tables) :
    Option (Reply × MemoryPool.Tables) :=
  let s := Memory.settle maxValidatorStake 3 (MemoryPool.withPoolLock op { tables := d })
  (s.answers.get 0).map fun answer => (Memory.reply answer, s.tables)

/-- `InMemoryBondPoolStore`. -/
def Memory.call : Call → MemoryPool.Tables → Option (Reply × MemoryPool.Tables)
  | .getPool poolId, d => some (.pool (d.pools.get poolId), d)
  | .getValidatorStake poolId validatorId, d =>
    some (.stake (MemoryPool.getValidatorStake poolId validatorId d), d)
  | .stake poolId validatorId amount, d =>
    Memory.locked maxValidatorStake (.stake poolId validatorId amount) d
  | .unstake poolId validatorId amount, d =>
    Memory.locked maxValidatorStake (.unstake poolId validatorId amount) d
  | .sumValidatorStakes poolId, d => some (.total (MemoryPool.sumValidatorStakes poolId d.stakes), d)
  | .reconcilePool poolId, d => Memory.locked maxValidatorStake (.reconcile poolId) d

end Memory

section Pg

variable (maxValidatorStake : ℤ)

/-- Transaction 0 sends its statements, as long as it has one. -/
def Pg.settle : ℕ → PgPool.State → PgPool.State
  | 0, s => s
  | k + 1, s =>
    match PgPool.step maxValidatorStake s (.next 0) with
    | none => s
    | some s' => Pg.settle k s'

def Pg.reply : PgPool.Answer → Reply
  | .pool pool => .pool (some pool)
  | .threw error => .threw error
  | .failed => .failed

/-- A transaction from its first statement to its answer. The bound is above what five attempts
take. -/
def Pg.transaction (action : PgPool.Action) (d : PgPool.Tables) : Option (Reply × PgPool.Tables) :=
  match PgPool.step maxValidatorStake { tables := d } action with
  | none => none
  | some s =>
    let s' := Pg.settle maxValidatorStake 20 s
    (s'.answers.get 0).map fun answer => (Pg.reply answer, s'.tables)

/-- The `SELECT` of `getPool`. -/
def Pg.getPool (poolId : String) (d : PgPool.Tables) : Option BondPool :=
  (d.bondPools.get poolId).map fun row =>
    ⟨poolId, PgPool.sumValidatorStakes poolId d.validatorStakes, row.version⟩

def Pg.getValidatorStake (poolId validatorId : String) (d : PgPool.Tables) :
    Option ValidatorStake :=
  (d.validatorStakes.get (poolId, validatorId)).map fun amount => ⟨poolId, validatorId, amount⟩

/-- `PgBondPoolStore`. -/
def Pg.call : Call → PgPool.Tables → Option (Reply × PgPool.Tables)
  | .getPool poolId, d => some (.pool (Pg.getPool poolId d), d)
  | .getValidatorStake poolId validatorId, d =>
    some (.stake (Pg.getValidatorStake poolId validatorId d), d)
  | .stake poolId validatorId amount, d =>
    Pg.transaction maxValidatorStake (.stake poolId validatorId amount) d
  | .unstake poolId validatorId amount, d =>
    Pg.transaction maxValidatorStake (.unstake poolId validatorId amount) d
  | .sumValidatorStakes poolId, d =>
    some (.total (PgPool.sumValidatorStakes poolId d.validatorStakes), d)
  | .reconcilePool poolId, d => Pg.transaction maxValidatorStake (.reconcile poolId) d

end Pg

end PoolStore

end VeriNode

/-!
# The lock of a pool

`withPoolLock` of the in-memory store of `src/staking/poolStore.ts`, for bodies of any kind: a body
that has started settles at any time, with a value or an error, and other calls go on meanwhile.
The promises `queued` are those of the calls, each known by the place of its call, and one that can
be fulfilled is fulfilled by a job of its own, at any time after.
-/

namespace VeriNode

namespace PoolLock

variable {κ ρ ε : Type*}

/-- Where a call stands. -/
inductive Phase (ρ ε : Type*)
  /-- It waits for `previous`. -/
  | waiting
  /-- It is in its body. -/
  | running
  /-- The body has settled; the `finally` block has not run yet. -/
  | settled (result : Except ε ρ)
  | over (result : Except ε ρ)

/-- A call. Its `previous` is the promise `queued` of another call, or one that is fulfilled. -/
structure Call (κ ρ ε : Type*) where
  poolId : κ
  previous : Option ℕ
  queued : ℕ
  phase : Phase ρ ε := .waiting

/-- The promises that have been made, and whether each is fulfilled. -/
structure Shared (κ : Type*) where
  locks : OrdMap κ ℕ := ∅
  promises : List Bool := []

inductive Event (ρ ε : Type*)
  | start
  | settle (result : Except ε ρ)
  | finish
  /-- The promise `queued` of the call is fulfilled. -/
  | queue

def Shared.fulfilled (w : Shared κ) : Option ℕ → Bool
  | none => true
  | some promise => w.promises.getD promise false

variable [DecidableEq κ]

/-- `withPoolLock` up to its wait. -/
def withPoolLock (poolId : κ) (w : Shared κ) : Shared κ × List (Call κ ρ ε) :=
  ({ locks := w.locks.set poolId w.promises.length, promises := w.promises ++ [false] },
    [{ poolId, previous := w.locks.get poolId, queued := w.promises.length }])

/-- The `finally` block. -/
def release (call : Call κ ρ ε) (w : Shared κ) : Shared κ :=
  { w with
    locks :=
      if w.locks.get call.poolId = some call.queued then w.locks.delete call.poolId else w.locks }

/-- `current` is resolved when the call is over. -/
def resume (event : Event ρ ε) (call : Call κ ρ ε) (w : Shared κ) :
    Option (Shared κ × Call κ ρ ε) :=
  match event, call.phase with
  | .start, .waiting =>
    if w.fulfilled call.previous then some (w, { call with phase := .running }) else none
  | .settle result, .running => some (w, { call with phase := .settled result })
  | .finish, .settled result => some (release call w, { call with phase := .over result })
  | .queue, .over _ =>
    if w.fulfilled call.previous then
      some ({ w with promises := w.promises.set call.queued true }, call)
    else none
  | _, _ => none

def calls (κ ρ ε : Type*) [DecidableEq κ] : Calls (Shared κ) (Call κ ρ ε) κ (Event ρ ε) where
  enter := withPoolLock
  resume := resume

/-- The calls on the locks of a store, from a store that is new. -/
def system (κ ρ ε : Type*) [DecidableEq κ] :
    Sys (Calls.State (Shared κ) (Call κ ρ ε)) (Calls.Action κ (Event ρ ε)) :=
  (calls κ ρ ε).system fun s => s = ⟨{}, []⟩

end PoolLock

end VeriNode
