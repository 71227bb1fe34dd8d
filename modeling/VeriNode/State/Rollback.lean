import Mathlib.Data.Rat.Defs
import Mathlib.Algebra.Order.Ring.Rat
import VeriNode.Lib.OrdMap
import VeriNode.Lib.Run

/-!
# The two-phase tables and the rollback handler

The tables of `src/database/node_status.sql`, and `RollbackHandler` of
`src/core/state/rollback_handler.ts`: one transaction that claims a node's tentative row if it is
pending, logs the rollback, and takes back what was written on the strength of the attempt. A
table with a primary key is a map; times are milliseconds of the database's clock.
-/

namespace VeriNode

inductive NodeStatus
  | provisioned
  | pending
  | active
  | slashed
  | archived
deriving DecidableEq

/-- The status as the tables have it. -/
def NodeStatus.text : NodeStatus → String
  | .provisioned => "Provisioned"
  | .pending => "Pending"
  | .active => "Active"
  | .slashed => "Slashed"
  | .archived => "Archived"

inductive TentativeState
  | pending
  | committed
  | rolledBack
deriving DecidableEq

structure NodeStatusRow where
  status : NodeStatus
  updatedAt : ℕ
deriving DecidableEq

structure TentativeRow where
  targetStatus : NodeStatus
  idempotencyKey : String
  state : TentativeState
  errorDetail : Option String := none
  resolvedAt : Option ℕ := none
  createdAt : ℕ
  expiresAt : ℕ
deriving DecidableEq

structure RollbackLogRow where
  nodeId : String
  idempotencyKey : String
  targetStatus : NodeStatus
  failureReason : String
  createdAt : ℕ
deriving DecidableEq

structure RewardTx where
  nodeId : String
  createdAt : ℕ
deriving DecidableEq

structure NodeAttestation where
  nodeId : String
  attestedStatus : String
  createdAt : ℕ
deriving DecidableEq

structure Reputation where
  score : ℚ
  slashVersion : ℤ
  updatedAt : ℕ
deriving DecidableEq

structure ReputationAdjustment where
  nodeId : String
  idempotencyKey : String
  delta : ℚ
  isSlash : Bool
deriving DecidableEq

/-- The tables other services write on the strength of an attempt. -/
structure Speculative where
  rewardTx : List RewardTx := []
  nodeAttestations : List NodeAttestation := []
  reputations : OrdMap String Reputation := ∅
  reputationAdjustments : List ReputationAdjustment := []

structure TwoPhaseDb where
  nodeStatus : OrdMap String NodeStatusRow := ∅
  nodeStatusTentative : OrdMap String TentativeRow := ∅
  twoPhaseRollbackLog : List RollbackLogRow := []
  speculative : Speculative := {}

namespace RollbackHandler

/-- The adjustments tagged with the key. -/
def tagged (nodeId idempotencyKey : String) (xs : List ReputationAdjustment) :
    List ReputationAdjustment :=
  xs.filter fun x => x.nodeId = nodeId ∧ x.idempotencyKey = idempotencyKey

/-- The node's reputation without the tagged adjustments, within its bounds. -/
def revert (nodeId idempotencyKey : String) (now : ℕ) (xs : List ReputationAdjustment)
    (r : Reputation) : Reputation where
  score := max (-1000) (min 1000 (r.score - ((tagged nodeId idempotencyKey xs).map (·.delta)).sum))
  slashVersion := r.slashVersion - ((tagged nodeId idempotencyKey xs).filter (·.isSlash)).length
  updatedAt := now

/-- Takes back what was written since the tentative row was. -/
def cascade (nodeId idempotencyKey : String) (targetStatus : NodeStatus) (since now : ℕ)
    (t : Speculative) : Speculative where
  rewardTx := t.rewardTx.filter fun x => ¬ (x.nodeId = nodeId ∧ since ≤ x.createdAt)
  nodeAttestations := t.nodeAttestations.filter fun x =>
    ¬ (x.nodeId = nodeId ∧ x.attestedStatus = targetStatus.text ∧ since ≤ x.createdAt)
  reputations :=
    match t.reputations.get nodeId with
    | none => t.reputations
    | some r => t.reputations.set nodeId (revert nodeId idempotencyKey now t.reputationAdjustments r)
  reputationAdjustments := t.reputationAdjustments.filter fun x =>
    ¬ (x.nodeId = nodeId ∧ x.idempotencyKey = idempotencyKey)

/-- Whether the row was claimed, and the tables after the transaction. -/
def execute (nodeId idempotencyKey : String) (targetStatus : NodeStatus) (reason : String)
    (now : ℕ) (db : TwoPhaseDb) : Bool × TwoPhaseDb :=
  match db.nodeStatusTentative.get nodeId with
  | none => (false, db)
  | some row =>
    if row.state = .pending then
      (true,
        { nodeStatus := db.nodeStatus
          nodeStatusTentative := db.nodeStatusTentative.set nodeId { row with
            state := .rolledBack
            errorDetail := some reason
            resolvedAt := some now }
          twoPhaseRollbackLog :=
            db.twoPhaseRollbackLog ++ [⟨nodeId, idempotencyKey, targetStatus, reason, now⟩]
          speculative :=
            cascade nodeId idempotencyKey targetStatus row.createdAt now db.speculative })
    else (false, db)

end RollbackHandler

end VeriNode

/-!
# The statements of a rollback

`RollbackHandler.execute` of `src/core/state/rollback_handler.ts`, statement by statement, in the
transaction of `src/config/database.ts`: any of them may fail, and then nothing is changed and the
call throws. The tables have the columns of `src/database/node_status.sql` that are read or written,
with the values these may hold. Calls for one node wait for each other at the row they claim.
-/

namespace VeriNode

namespace RollbackStatements

structure TentativeRecord where
  targetStatus : String
  idempotencyKey : String
  state : Option String
  errorDetail : Option String
  resolvedAt : Option ℕ
  createdAt : Option ℕ
  expiresAt : ℕ
deriving DecidableEq

structure LogRecord where
  nodeId : String
  idempotencyKey : String
  targetStatus : String
  failureReason : Option String
  createdAt : Option ℕ
deriving DecidableEq

structure RewardRecord where
  nodeId : String
  createdAt : Option ℕ
deriving DecidableEq

structure AttestationRecord where
  nodeId : String
  attestedStatus : String
  createdAt : Option ℕ
deriving DecidableEq

structure ReputationRecord where
  score : Option ℚ
  slashVersion : Option ℤ
  updatedAt : Option ℕ
deriving DecidableEq

structure AdjustmentRecord where
  nodeId : String
  idempotencyKey : String
  delta : ℚ
  isSlash : Option Bool
deriving DecidableEq

structure Tables where
  nodeStatusTentative : OrdMap String TentativeRecord
  twoPhaseRollbackLog : List LogRecord
  rewardTx : List RewardRecord
  nodeAttestations : List AttestationRecord
  reputations : OrdMap String ReputationRecord
  reputationAdjustments : List AdjustmentRecord

/-- The arguments of a call. -/
structure Call where
  nodeId : String
  idempotencyKey : String
  targetStatus : String
  reason : String
deriving DecidableEq

section Statements

variable (c : Call) (now : ℕ)

/-- The UPDATE of the node's row where it is pending: how many rows it matched, and the tables. -/
def claim (t : Tables) : ℕ × Tables :=
  match t.nodeStatusTentative.get c.nodeId with
  | none => (0, t)
  | some row =>
    if row.state = some "PENDING" then
      (1, { t with
        nodeStatusTentative := t.nodeStatusTentative.set c.nodeId { row with
          state := some "ROLLED_BACK"
          errorDetail := some c.reason
          resolvedAt := some now } })
    else (0, t)

/-- `created_at >=` that of the node's row; not where one of them is NULL. -/
def sinceTentative (t : Tables) (createdAt : Option ℕ) : Bool :=
  match (t.nodeStatusTentative.get c.nodeId).bind (·.createdAt), createdAt with
  | some since, some createdAt => since ≤ createdAt
  | _, _ => false

def tagged (x : AdjustmentRecord) : Bool :=
  x.nodeId = c.nodeId ∧ x.idempotencyKey = c.idempotencyKey

/-- The reputation without the tagged adjustments. LEAST and GREATEST ignore a NULL. -/
def revert (xs : List AdjustmentRecord) (r : ReputationRecord) : ReputationRecord where
  score := some (max (-1000) (match r.score with
    | some score => min 1000 (score - ((xs.filter (tagged c)).map (·.delta)).sum)
    | none => 1000))
  slashVersion := r.slashVersion.map fun version =>
    version - ((xs.filter (tagged c)).filter (·.isSlash = some true)).length
  updatedAt := some now

/-- The statements after the first. -/
inductive Statement
  | log
  | rewardTx
  | nodeAttestations
  | reputations
  | adjustments
deriving DecidableEq

def Statement.run : Statement → Tables → Tables
  | .log, t =>
    { t with
      twoPhaseRollbackLog := t.twoPhaseRollbackLog ++
        [⟨c.nodeId, c.idempotencyKey, c.targetStatus, some c.reason, some now⟩] }
  | .rewardTx, t =>
    { t with
      rewardTx := t.rewardTx.filter fun x =>
        ¬ (x.nodeId = c.nodeId ∧ sinceTentative c t x.createdAt) }
  | .nodeAttestations, t =>
    { t with
      nodeAttestations := t.nodeAttestations.filter fun x =>
        ¬ (x.nodeId = c.nodeId ∧ x.attestedStatus = c.targetStatus
          ∧ sinceTentative c t x.createdAt) }
  | .reputations, t =>
    { t with
      reputations :=
        match t.reputations.get c.nodeId with
        | none => t.reputations
        | some r => t.reputations.set c.nodeId (revert c now t.reputationAdjustments r) }
  | .adjustments, t =>
    { t with reputationAdjustments := t.reputationAdjustments.filter fun x => ¬ tagged c x }

def cascade : List Statement := [.log, .rewardTx, .nodeAttestations, .reputations, .adjustments]

/-- Where a transaction may fail. -/
inductive Point
  | begin
  | claim
  | statement (s : Statement)
  | commit
deriving DecidableEq

/-- What the transaction returns and leaves, if nothing in it fails. -/
def transaction (fails : Point → Bool) (t : Tables) : Option (Bool × Tables) :=
  if fails .begin || fails .claim then none
  else
    let (rowCount, t) := claim c now t
    if rowCount = 0 then
      if fails .commit then none else some (false, t)
    else
      match cascade.foldlM (fun t s =>
        if fails (.statement s) then none else some (s.run c now t)) t with
      | none => none
      | some t => if fails .commit then none else some (true, t)

inductive Outcome
  | threw
  | reported (claimed : Bool)
deriving DecidableEq

/-- `execute`: a transaction that failed has changed nothing. -/
def execute (fails : Point → Bool) (t : Tables) : Outcome × Tables :=
  match transaction c now fails t with
  | none => (.threw, t)
  | some (claimed, t') => (.reported claimed, t')

end Statements

section Concurrent

/-- A call is to claim the row, has claimed it and what it has done so far is seen by itself alone, or
is over. -/
inductive Phase
  | ready
  | working (now : ℕ) (left : List Statement) (view : Tables)
  | settled (outcome : Outcome)

structure Execution where
  call : Call
  phase : Phase := .ready

/-- It has the lock on the row. -/
def Execution.holds (e : Execution) : Bool :=
  match e.phase with
  | .working .. => true
  | _ => false

structure State where
  tables : Tables
  executions : List Execution

def State.enter (s : State) (i : ℕ) (e : Execution) (phase : Phase) : State :=
  { s with executions := s.executions.set i { e with phase } }

inductive Action
  | claim (i now : ℕ)
  | statement (i : ℕ)
  | commit (i : ℕ)
  | fail (i : ℕ)

/-- The claim of a row that is locked waits. A call that matched no row commits at once. -/
def step (s : State) : Action → Option State
  | .claim i now =>
    match s.executions[i]? with
    | some e =>
      match e.phase with
      | .ready =>
        if s.executions.any Execution.holds then none
        else
          let (rowCount, view) := claim e.call now s.tables
          if rowCount = 0 then some (s.enter i e (.settled (.reported false)))
          else some (s.enter i e (.working now cascade view))
      | _ => none
    | none => none
  | .statement i =>
    match s.executions[i]? with
    | some e =>
      match e.phase with
      | .working now (st :: left) view =>
        some (s.enter i e (.working now left (st.run e.call now view)))
      | _ => none
    | none => none
  | .commit i =>
    match s.executions[i]? with
    | some e =>
      match e.phase with
      | .working _ [] view =>
        some { s.enter i e (.settled (.reported true)) with tables := view }
      | _ => none
    | none => none
  | .fail i =>
    match s.executions[i]? with
    | some e =>
      match e.phase with
      | .settled _ => none
      | _ => some (s.enter i e (.settled .threw))
    | none => none

/-- Any number of calls for one node. -/
def sys (nodeId : String) (t : Tables) : Sys State Action where
  init s := s.tables = t ∧ ∀ e ∈ s.executions, e.call.nodeId = nodeId ∧ e.phase = .ready
  step := step

end Concurrent

end RollbackStatements

end VeriNode
