import VeriNode.State.Rollback
import VeriNode.Lib.Run
import Mathlib.Data.List.Sort

/-!
# The two-phase controller and the cleanup worker

`TwoPhaseController` of `src/core/state/two_phase_controller.ts` and `TentativeCleanupWorker` of
`src/core/state/tentative_cleanup_worker.ts`, any number of calls of each at once. A call is split
where it waits, for the database or for the contract: `calls` has where each call that is under
way stands, `answers` what the finished ones returned. A statement or a transaction takes effect
whole, or fails and has none. A call may also be aborted at any point, by an error it does not
catch or with its process. The idempotency key of an attempt is a digest of a random nonce, so no
key is made twice; `issued` keeps the attempt each key was made for.
-/

namespace VeriNode

/-- Directed edges of the node status state machine. -/
def validTransitions : NodeStatus → List NodeStatus
  | .provisioned => [.pending]
  | .pending => [.active]
  | .active => [.slashed, .archived]
  | .slashed => [.archived]
  | .archived => []

namespace TwoPhase

/-- `INTERVAL '30 seconds'`. -/
def tentativeTtl : ℕ := 30000

structure Options where
  /-- `createHash('sha256')…digest('hex')`. -/
  sha256 : String → String
  batchSize : ℕ := 50

def buildIdempotencyKey (o : Options) (nodeId ledgerSequence nonce : String) : String :=
  o.sha256 s!"{nodeId}:{ledgerSequence}:{nonce}"

/-- An attempt at a transition: the status its check read, the target, and its key. -/
structure Attempt where
  nodeId : String
  previousStatus : NodeStatus
  targetStatus : NodeStatus
  idempotencyKey : String
deriving DecidableEq

structure TransitionResult where
  nodeId : String
  previousStatus : NodeStatus
  targetStatus : NodeStatus
  idempotencyKey : String
  txHash : Option String
  committed : Bool
  rolledBack : Bool
deriving DecidableEq

def Attempt.result (a : Attempt) (txHash : Option String) (committed rolledBack : Bool) :
    TransitionResult :=
  ⟨a.nodeId, a.previousStatus, a.targetStatus, a.idempotencyKey, txHash, committed, rolledBack⟩

inductive Resolution
  | commit
  | rollback
deriving DecidableEq

inductive ResolveOutcome
  | committed
  | rolledBack
  | noPendingRow
deriving DecidableEq

structure ResolveTentativeResult where
  resolved : Bool
  outcome : ResolveOutcome
deriving DecidableEq

/-- What the contract call comes back with. -/
inductive ContractAnswer
  | returned (hash : String) (success : Bool) (error : Option String)
  | threw (message : Option String)

/-- The transaction's hash, or the error that sends the attempt to the rollback path. -/
def ContractAnswer.outcome : ContractAnswer → Except String String
  | .returned hash true _ => .ok hash
  | .returned _ false error => .error (error.getD "Contract rejected the transaction")
  | .threw message => .error (message.getD "RPC threw unexpectedly")

/-- A row the sweep selected. -/
structure SweepRow where
  nodeId : String
  idempotencyKey : String
  targetStatus : NodeStatus
deriving DecidableEq

/-- Where a call stands: what it does next. -/
inductive Call
  /-- `transition` asks for the ledger sequence and inserts its tentative row. -/
  | inserting (nodeId : String) (previousStatus targetStatus : NodeStatus)
  /-- `transition` found the node's row pending, and reads it for the error message. -/
  | conflicted (nodeId : String)
  /-- `transition` waits for the contract call. -/
  | calling (a : Attempt)
  /-- `transition` commits; the attempts are numbered from 1. -/
  | committing (a : Attempt) (txHash : String) (attempt : ℕ)
  /-- `transition` marks its row after the retries are exhausted. -/
  | marking (a : Attempt) (txHash : String)
  /-- `transition` rolls back. -/
  | rollingBack (a : Attempt) (contractError : String)
  /-- `resolveTentative` commits the row it read. -/
  | forceCommitting (row : SweepRow)
  /-- `resolveTentative` rolls the row it read back. -/
  | forceRollingBack (row : SweepRow)
  /-- `sweep` rolls the rows it selected back, one by one. -/
  | sweeping (rows : List SweepRow) (processed skipped : ℕ)

inductive Answer
  | transition (result : TransitionResult)
  | resolve (result : ResolveTentativeResult)
  | sweep (processed skipped : ℕ)
  | threw (message : String)
deriving DecidableEq

structure State where
  db : TwoPhaseDb := {}
  now : ℕ := 0
  calls : OrdMap ℕ Call := ∅
  answers : OrdMap ℕ Answer := ∅
  nextId : ℕ := 0
  issued : OrdMap String Attempt := ∅

/-- `COMMIT_RETRY_ATTEMPTS`. -/
def commitRetryAttempts : ℕ := 2

def commitFailedDetail : String :=
  "COMMIT_FAILED_ONCHAIN_CONFIRMED: requires admin resolveTentative(commit)"

def sweepReason : String := "Expired without on-chain confirmation (TentativeCleanupWorker sweep)"

def adminRollbackReason : String := "Admin force-rollback via /internal/state/resolve-tentative"

section Statements

/-- `VALID_TRANSITIONS[s].join(', ')`. -/
def joinStatuses (xs : List NodeStatus) : String := ", ".intercalate (xs.map NodeStatus.text)

def notFoundError (nodeId : String) : String :=
  s!"[TwoPhaseController] Node \"{nodeId}\" not found in node_status."

def illegalTransitionError (nodeId : String) (current target : NodeStatus) : String :=
  s!"[TwoPhaseController] Illegal transition {current.text} → {target.text} " ++
    s!"for node \"{nodeId}\". Allowed: [{joinStatuses (validTransitions current)}]"

/-- `Math.max(0, Math.round((expires_at - Date.now()) / 1000))`. -/
def expiresIn (expiresAt now : ℕ) : ℕ := (((expiresAt : ℤ) - now + 500) / 1000).toNat

def alreadyPendingError (nodeId : String) (existing : Option TentativeRow) (now : ℕ) : String :=
  let target := (existing.map (·.targetStatus.text)).getD "?"
  let key := (existing.map (·.idempotencyKey)).getD "?"
  let seconds := (existing.map fun r => expiresIn r.expiresAt now).getD 0
  s!"[TwoPhaseController] Node \"{nodeId}\" already has a PENDING tentative " ++
    s!"transition to \"{target}\" (key={key}, expires in ~{seconds}s). " ++
    "Wait for TTL expiry or call resolveTentative()."

def fetchCommittedStatus (db : TwoPhaseDb) (nodeId : String) : Option NodeStatus :=
  (db.nodeStatus.get nodeId).map (·.status)

/-- The insert of phase 1: no row if the node's row is pending. -/
def insertTentative (a : Attempt) (now : ℕ) (db : TwoPhaseDb) : Option TwoPhaseDb :=
  if (db.nodeStatusTentative.get a.nodeId).any (·.state = .pending) then none
  else some { db with
    nodeStatusTentative := db.nodeStatusTentative.set a.nodeId
      { targetStatus := a.targetStatus, idempotencyKey := a.idempotencyKey, state := .pending,
        createdAt := now, expiresAt := now + tentativeTtl } }

/-- `UPDATE node_status SET status = … WHERE node_id = …`. -/
def updateStatus (nodeId : String) (status : NodeStatus) (now : ℕ)
    (m : OrdMap String NodeStatusRow) : OrdMap String NodeStatusRow :=
  match m.get nodeId with
  | none => m
  | some _ => m.set nodeId ⟨status, now⟩

/-- `UPDATE node_status_tentative SET … WHERE node_id = …`. -/
def updateTentative (nodeId : String) (f : TentativeRow → TentativeRow)
    (m : OrdMap String TentativeRow) : OrdMap String TentativeRow :=
  match m.get nodeId with
  | none => m
  | some row => m.set nodeId (f row)

/-- The commit transaction of `transition`. -/
def commitTx (nodeId : String) (target : NodeStatus) (now : ℕ) (db : TwoPhaseDb) : TwoPhaseDb :=
  { db with
    nodeStatus := updateStatus nodeId target now db.nodeStatus
    nodeStatusTentative := updateTentative nodeId
      (fun row => { row with state := .committed, resolvedAt := some now })
      db.nodeStatusTentative }

/-- The commit transaction of `resolveTentative`. -/
def forceCommitTx (nodeId : String) (target : NodeStatus) (now : ℕ) (db : TwoPhaseDb) :
    TwoPhaseDb :=
  { db with
    nodeStatus := updateStatus nodeId target now db.nodeStatus
    nodeStatusTentative := updateTentative nodeId
      (fun row => { row with
        state := .committed
        resolvedAt := some now
        errorDetail := some "Admin force-commit" })
      db.nodeStatusTentative }

/-- The marker written once the commit retries are exhausted. -/
def markCommitFailed (nodeId : String) (db : TwoPhaseDb) : TwoPhaseDb :=
  { db with
    nodeStatusTentative := updateTentative nodeId
      (fun row => if row.state = .pending then { row with errorDetail := some commitFailedDetail }
        else row)
      db.nodeStatusTentative }

/-- `error_detail LIKE 'COMMIT_FAILED%'`; an underscore stands for any character. -/
def likeCommitFailed (s : String) : Bool :=
  s.toList.take 6 = "COMMIT".toList && (s.toList.drop 7).take 6 = "FAILED".toList

/-- The rows a sweep takes: pending, expired and not marked, oldest first, at most the batch, and
none that is locked. -/
def sweepSelect (batchSize now : ℕ) (locked : List String) (db : TwoPhaseDb) : List SweepRow :=
  let expired := db.nodeStatusTentative.entries.filter fun e =>
    e.2.state = .pending ∧ e.2.expiresAt < now
      ∧ (e.2.errorDetail.all fun d => !likeCommitFailed d) ∧ e.1 ∉ locked
  ((expired.insertionSort fun e e' => e.2.expiresAt ≤ e'.2.expiresAt).take batchSize).map
    fun e => ⟨e.1, e.2.idempotencyKey, e.2.targetStatus⟩

end Statements

section System

/-- The call stands somewhere else. -/
def State.goOn (s : State) (id : ℕ) (call : Call) : State :=
  { s with calls := s.calls.set id call }

/-- The call is over, with its answer. -/
def State.finish (s : State) (id : ℕ) (answer : Answer) : State :=
  { s with calls := s.calls.delete id, answers := s.answers.set id answer }

/-- A new call, which stands there. -/
def State.start (s : State) (call : Call) : State :=
  { s with nextId := s.nextId + 1, calls := s.calls.set s.nextId call }

/-- A new call, which is over at once. -/
def State.startFinished (s : State) (answer : Answer) : State :=
  { s with nextId := s.nextId + 1, answers := s.answers.set s.nextId answer }

/-- `transition` up to the check of the edge. -/
def transition (nodeId : String) (targetStatus : NodeStatus) (s : State) : State :=
  match fetchCommittedStatus s.db nodeId with
  | none => s.startFinished (.threw (notFoundError nodeId))
  | some current =>
    if targetStatus ∈ validTransitions current then
      s.start (.inserting nodeId current targetStatus)
    else s.startFinished (.threw (illegalTransitionError nodeId current targetStatus))

/-- Phase 1. -/
def phase1 (id : ℕ) (a : Attempt) (s : State) : State :=
  match insertTentative a s.now s.db with
  | none => s.goOn id (.conflicted a.nodeId)
  | some db => { s with db := db, issued := s.issued.set a.idempotencyKey a }.goOn id (.calling a)

/-- The end of phase 2. -/
def contractAnswered (id : ℕ) (a : Attempt) (answer : ContractAnswer) (s : State) : State :=
  match answer.outcome with
  | .ok hash => s.goOn id (.committing a hash 1)
  | .error message => s.goOn id (.rollingBack a message)

/-- One attempt of the commit transaction. -/
def commit (id : ℕ) (a : Attempt) (txHash : String) (attempt : ℕ) (ok : Bool) (s : State) : State :=
  if ok then
    { s with db := commitTx a.nodeId a.targetStatus s.now s.db }.finish id
      (.transition (a.result (some txHash) true false))
  else if attempt < commitRetryAttempts then s.goOn id (.committing a txHash (attempt + 1))
  else s.goOn id (.marking a txHash)

/-- The best-effort marker, and the answer after it. -/
def mark (id : ℕ) (a : Attempt) (txHash : String) (ok : Bool) (s : State) : State :=
  { s with db := if ok then markCommitFailed a.nodeId s.db else s.db }.finish id
    (.transition (a.result (some txHash) false false))

/-- The rollback path of `transition`. -/
def rollback (id : ℕ) (a : Attempt) (contractError : String) (s : State) : State :=
  let result := RollbackHandler.execute a.nodeId a.idempotencyKey a.targetStatus contractError s.now s.db
  { s with db := result.2 }.finish id (.transition (a.result none false true))

/-- `resolveTentative` up to its write. -/
def resolveTentative (nodeId : String) (resolution : Resolution) (s : State) : State :=
  match s.db.nodeStatusTentative.get nodeId with
  | none => s.startFinished (.resolve ⟨false, .noPendingRow⟩)
  | some row =>
    if row.state ≠ .pending then s.startFinished (.resolve ⟨false, .noPendingRow⟩)
    else
      let read : SweepRow := ⟨nodeId, row.idempotencyKey, row.targetStatus⟩
      match resolution with
      | .commit => s.start (.forceCommitting read)
      | .rollback => s.start (.forceRollingBack read)

def forceCommit (id : ℕ) (row : SweepRow) (s : State) : State :=
  { s with db := forceCommitTx row.nodeId row.targetStatus s.now s.db }.finish id
    (.resolve ⟨true, .committed⟩)

def forceRollback (id : ℕ) (row : SweepRow) (s : State) : State :=
  let result := RollbackHandler.execute row.nodeId row.idempotencyKey row.targetStatus
    adminRollbackReason s.now s.db
  { s with db := result.2 }.finish id (.resolve ⟨true, .rolledBack⟩)

/-- `sweep` up to the rows it selects. -/
def sweep (o : Options) (locked : List String) (s : State) : State :=
  s.start (.sweeping (sweepSelect o.batchSize s.now locked s.db) 0 0)

/-- The next row of a sweep, or its end. -/
def sweepNext (id : ℕ) (rows : List SweepRow) (processed skipped : ℕ) (s : State) : State :=
  match rows with
  | [] => s.finish id (.sweep processed skipped)
  | row :: rest =>
    let result := RollbackHandler.execute row.nodeId row.idempotencyKey row.targetStatus
      sweepReason s.now s.db
    { s with db := result.2 }.goOn id
      (if result.1 then .sweeping rest (processed + 1) skipped
        else .sweeping rest processed (skipped + 1))

inductive Action
  | transition (nodeId : String) (targetStatus : NodeStatus)
  | phase1 (id : ℕ) (ledgerSequence nonce : String)
  | readConflict (id : ℕ)
  | contractAnswered (id : ℕ) (answer : ContractAnswer)
  | commit (id : ℕ) (ok : Bool)
  | mark (id : ℕ) (ok : Bool)
  | rollback (id : ℕ)
  | resolveTentative (nodeId : String) (resolution : Resolution)
  | forceCommit (id : ℕ)
  | forceRollback (id : ℕ)
  | sweep (locked : List String)
  | sweepNext (id : ℕ)
  | abort (id : ℕ)
  | tick (ms : ℕ)
  | others (tables : Speculative)

/-- One step of one call, of the clock, or of the other services. -/
def step (o : Options) (s : State) : Action → Option State
  | .transition nodeId targetStatus => some (TwoPhase.transition nodeId targetStatus s)
  | .phase1 id ledgerSequence nonce =>
    match s.calls.get id with
    | some (.inserting nodeId previousStatus targetStatus) =>
      let key := buildIdempotencyKey o nodeId ledgerSequence nonce
      if s.issued.has key then none
      else some (TwoPhase.phase1 id ⟨nodeId, previousStatus, targetStatus, key⟩ s)
    | _ => none
  | .readConflict id =>
    match s.calls.get id with
    | some (.conflicted nodeId) =>
      some (s.finish id
        (.threw (alreadyPendingError nodeId (s.db.nodeStatusTentative.get nodeId) s.now)))
    | _ => none
  | .contractAnswered id answer =>
    match s.calls.get id with
    | some (.calling a) => some (TwoPhase.contractAnswered id a answer s)
    | _ => none
  | .commit id ok =>
    match s.calls.get id with
    | some (.committing a txHash attempt) => some (TwoPhase.commit id a txHash attempt ok s)
    | _ => none
  | .mark id ok =>
    match s.calls.get id with
    | some (.marking a txHash) => some (TwoPhase.mark id a txHash ok s)
    | _ => none
  | .rollback id =>
    match s.calls.get id with
    | some (.rollingBack a contractError) => some (TwoPhase.rollback id a contractError s)
    | _ => none
  | .resolveTentative nodeId resolution => some (TwoPhase.resolveTentative nodeId resolution s)
  | .forceCommit id =>
    match s.calls.get id with
    | some (.forceCommitting row) => some (TwoPhase.forceCommit id row s)
    | _ => none
  | .forceRollback id =>
    match s.calls.get id with
    | some (.forceRollingBack row) => some (TwoPhase.forceRollback id row s)
    | _ => none
  | .sweep locked => some (TwoPhase.sweep o locked s)
  | .sweepNext id =>
    match s.calls.get id with
    | some (.sweeping rows processed skipped) =>
      some (TwoPhase.sweepNext id rows processed skipped s)
    | _ => none
  | .abort id => if s.calls.has id then some { s with calls := s.calls.delete id } else none
  | .tick ms => some { s with now := s.now + ms }
  | .others tables => some { s with db := { s.db with speculative := tables } }

/-- The system starts with any nodes, and nothing attempted. -/
def sys (o : Options) : Sys State Action where
  init s := ∃ nodes now, s = { db := { nodeStatus := nodes }, now := now }
  step := step o

end System

end TwoPhase

end VeriNode
