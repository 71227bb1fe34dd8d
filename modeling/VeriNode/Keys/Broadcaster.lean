import VeriNode.Keys.Registry
import VeriNode.Lib.OrdMap

/-!
# The commitment broadcaster

`CommitmentBroadcaster` of `src/consensus/commitment-broadcaster.ts`: it takes a snapshot of the
active validators for a rotation, announces the rotation, and collects approvals until two thirds
of the snapshot approved or time runs out. Each attempt has a number, which stands for the
identity of its objects: its entry in `starting`, its entry in `pending`, its timer and its
promise. The awaits split `commitRotation` into the call, the answer of the snapshot, and the
clean-up once the promise is settled; the listeners of the announcement run inside the turn that
makes it. `log` records what an observer sees, newest first; the program does not read it.
-/

namespace VeriNode

open Turn

def validatorKeyRotationEvent : String := "ValidatorKeyRotation"

structure ValidatorKeyRotation where
  type : String := validatorKeyRotationEvent
  rotationId : String
  validatorId : String
  oldPublicKey : String
  newPublicKey : String
  initiatedEpoch : JsNumber
  initiatedSlot : JsNumber
deriving DecidableEq

structure RotationCommitResult where
  rotationId : String
  approvals : List String
  approvalThreshold : JsNumber
  activeValidatorIds : List String
deriving DecidableEq

inductive ApprovalStatus
  | counted
  | duplicate
  | ineligible
  | unknownRotation
deriving DecidableEq

structure ApprovalResult where
  status : ApprovalStatus
  approvalCount : ℕ
  approvalThreshold : Option ℕ := none
deriving DecidableEq

def rotationCommitError (message code : String) : CodedError :=
  ⟨"RotationCommitError", message, code⟩

def rotationCommitTimeoutError (rotationId timeoutMs : String) : CodedError :=
  ⟨"RotationCommitTimeoutError",
    s!"Rotation {rotationId} did not reach quorum within {timeoutMs}ms",
    "ERR_ROTATION_COMMIT_TIMEOUT"⟩

/-- `Math.ceil((2 * n) / 3)`. -/
def approvalThreshold (n : ℕ) : ℕ := (2 * n + 2) / 3

def calculateRotationApprovalThreshold (activeValidatorCount : ℕ) : Except CodedError ℕ :=
  if activeValidatorCount = 0 then
    .error (rotationCommitError "Rotation approval requires at least one active validator"
      "ERR_EMPTY_ACTIVE_VALIDATOR_SET")
  else .ok (approvalThreshold activeValidatorCount)

def proposalsMatch (left right : ValidatorKeyRotation) : Bool :=
  left.type = right.type && left.rotationId = right.rotationId
    && left.validatorId = right.validatorId && left.oldPublicKey = right.oldPublicKey
    && left.newPublicKey = right.newPublicKey
    && left.initiatedEpoch.strictEq right.initiatedEpoch
    && left.initiatedSlot.strictEq right.initiatedSlot

namespace Broadcaster

/-- The options the constructor admits; the timeout as messages print it. -/
structure Options where
  timeoutMs : String := "5000"
  maxCompletedCommitments : ℕ := 1024

structure PendingCommitment where
  id : ℕ
  proposal : ValidatorKeyRotation
  activeValidatorIds : OrdSet String
  approvalThreshold : ℕ
  approvals : OrdSet String

structure StartingCommitment where
  id : ℕ
  proposal : ValidatorKeyRotation

/-- What an observer sees: the snapshot of an attempt, a call of `approveRotation`, and how the
attempt's promise is settled. -/
inductive Event
  | snapshot (id : ℕ) (rotationId : String) (ids : List String)
  | approve (rotationId validatorId : String)
  | resolved (id : ℕ) (result : RotationCommitResult)
  | rejected (id : ℕ) (error : CodedError)

structure State where
  pending : OrdMap String PendingCommitment := ∅
  starting : OrdMap String StartingCommitment := ∅
  completed : OrdMap String (ValidatorKeyRotation × RotationCommitResult) := ∅
  /-- The attempts that wait for their snapshot. -/
  snapshotting : OrdMap ℕ ValidatorKeyRotation := ∅
  /-- The commit timers that are set, with the rotation each looks up when it fires. -/
  timers : OrdMap ℕ String := ∅
  /-- The attempts whose promise is settled. -/
  settled : OrdMap ℕ (Except CodedError RotationCommitResult) := ∅
  nextId : ℕ := 0
  log : List Event := []

abbrev Block := EStateM CodedError State

/-- Settles the attempt's promise; a promise is settled at most once. -/
def settle (id : ℕ) (outcome : Except CodedError RotationCommitResult) (s : State) : State :=
  if s.settled.has id then s
  else { s with
    settled := s.settled.set id outcome
    log := (match outcome with
      | .ok result => .resolved id result
      | .error error => .rejected id error) :: s.log }

/-- Deletes the oldest entries while there are more than `max`. -/
def evict {κ ν : Type} [DecidableEq κ] (max : ℕ) : ℕ → OrdMap κ ν → OrdMap κ ν
  | 0, m => m
  | fuel + 1, m =>
    if max < m.size then
      match m.keys.head? with
      | none => m
      | some oldest => evict max fuel (m.delete oldest)
    else m

def rememberCompleted (o : Options) (proposal : ValidatorKeyRotation)
    (result : RotationCommitResult) (s : State) : State :=
  if o.maxCompletedCommitments = 0 then s
  else
    let completed := s.completed.set proposal.rotationId (proposal, result)
    { s with completed := evict o.maxCompletedCommitments completed.size completed }

/-- The entry of the rotation in `pending` is this attempt's. -/
def isCurrent (s : State) (pending : PendingCommitment) : Bool :=
  (s.pending.get pending.proposal.rotationId).any (·.id = pending.id)

/-- Takes the attempt off `pending` and clears its timer. -/
def remove (pending : PendingCommitment) (s : State) : State :=
  { s with
    timers := s.timers.delete pending.id
    pending := s.pending.delete pending.proposal.rotationId }

/-- `pending.approvals.add(validatorId)`. -/
def PendingCommitment.count (pending : PendingCommitment) (validatorId : String) :
    PendingCommitment :=
  { pending with approvals := pending.approvals.add validatorId }

def PendingCommitment.result (pending : PendingCommitment) : RotationCommitResult where
  rotationId := pending.proposal.rotationId
  approvals := JsString.sort pending.approvals.elems
  approvalThreshold := .ofNat pending.approvalThreshold
  activeValidatorIds := pending.activeValidatorIds.elems

def completeCommitment (o : Options) (pending : PendingCommitment) (s : State) : State :=
  if isCurrent s pending then
    settle pending.id (.ok pending.result)
      (rememberCompleted o pending.proposal pending.result (remove pending s))
  else s

def failCommitment (pending : PendingCommitment) (error : CodedError) (s : State) : State :=
  if isCurrent s pending then settle pending.id (.error error) (remove pending s) else s

def approveRotation (o : Options) (rotationId validatorId : String) (s₀ : State) :
    ApprovalResult × State :=
  let s := { s₀ with log := .approve rotationId validatorId :: s₀.log }
  match s.pending.get rotationId with
  | none => (⟨.unknownRotation, 0, none⟩, s)
  | some pending =>
    if pending.activeValidatorIds.has validatorId = false then
      (⟨.ineligible, pending.approvals.size, some pending.approvalThreshold⟩, s)
    else if pending.approvals.has validatorId then
      (⟨.duplicate, pending.approvals.size, some pending.approvalThreshold⟩, s)
    else
      let pending := pending.count validatorId
      let s := { s with pending := s.pending.set rotationId pending }
      (⟨.counted, pending.approvals.size, some pending.approvalThreshold⟩,
        if pending.approvalThreshold ≤ pending.approvals.size then completeCommitment o pending s
        else s)

def validateProposal (proposal : ValidatorKeyRotation) : Block PUnit := do
  throwIf (proposal.type ≠ validatorKeyRotationEvent ∨ proposal.rotationId = ""
      ∨ proposal.validatorId = "")
    (rotationCommitError "Invalid validator-key rotation proposal" "ERR_INVALID_ROTATION_PROPOSAL")
  throwIf (proposal.oldPublicKey = "" ∨ proposal.newPublicKey = ""
      ∨ proposal.oldPublicKey = proposal.newPublicKey)
    (rotationCommitError "Rotation proposal must contain distinct keys"
      "ERR_INVALID_ROTATION_PROPOSAL")

def assertSameProposal (expected received : ValidatorKeyRotation) : Block PUnit :=
  throwIf (proposalsMatch expected received = false)
    (rotationCommitError
      s!"Rotation id {received.rotationId} was reused with different metadata"
      "ERR_ROTATION_ID_CONFLICT")

/-- The promise `commitRotation` returns: resolved with a cached result, or an attempt's. -/
inductive Promised
  | cached (result : RotationCommitResult)
  | joined (id : ℕ)
  | started (id : ℕ)
deriving DecidableEq

def commitRotation (proposal : ValidatorKeyRotation) : Block Promised := do
  validateProposal proposal
  let s ← get
  match s.completed.get proposal.rotationId with
  | some (completed, result) =>
    assertSameProposal completed proposal
    return .cached result
  | none =>
    match s.pending.get proposal.rotationId with
    | some pending =>
      assertSameProposal pending.proposal proposal
      return .joined pending.id
    | none =>
      match s.starting.get proposal.rotationId with
      | some starting =>
        assertSameProposal starting.proposal proposal
        return .joined starting.id
      | none =>
        modify fun s => { s with
          nextId := s.nextId + 1
          snapshotting := s.snapshotting.set s.nextId proposal
          starting := s.starting.set proposal.rotationId ⟨s.nextId, proposal⟩ }
        return .started s.nextId

/-- A call a listener makes. -/
inductive ListenerCall
  | approve (rotationId validatorId : String)
  | commit (proposal : ValidatorKeyRotation)

def ListenerCall.run (o : Options) (s : State) : ListenerCall → State
  | .approve rotationId validatorId => (approveRotation o rotationId validatorId s).2
  | .commit proposal => after (commitRotation proposal) s

/-- The attempt's entry once the snapshot is there. -/
def openCommitment (id : ℕ) (proposal : ValidatorKeyRotation) (suppliedIds : List String) :
    Except CodedError PendingCommitment := do
  let activeValidatorIds := OrdSet.ofList (suppliedIds.filter (· ≠ ""))
  let threshold ← calculateRotationApprovalThreshold activeValidatorIds.size
  return ⟨id, proposal, activeValidatorIds, threshold, ∅⟩

/-- The rest of `startCommit` after the snapshot: the listeners make their calls, and one of them
may throw at the end. -/
def startCommit (o : Options) (id : ℕ) (proposal : ValidatorKeyRotation)
    (suppliedIds : List String) (calls : List ListenerCall) (thrown : Option CodedError)
    (s : State) : State :=
  match openCommitment id proposal suppliedIds with
  | .error error => settle id (.error error) s
  | .ok pending =>
    let s := { s with
      timers := s.timers.set id proposal.rotationId
      pending := s.pending.set proposal.rotationId pending
      log := .snapshot id proposal.rotationId suppliedIds :: s.log }
    let s := calls.foldl (ListenerCall.run o) s
    match thrown with
    | none => s
    | some error => failCommitment pending error s

/-- What the commit timer does when it fires. -/
def fireTimer (o : Options) (id : ℕ) (rotationId : String) (s : State) : State :=
  let s := { s with timers := s.timers.delete id }
  match s.pending.get rotationId with
  | none => s
  | some current => failCommitment current (rotationCommitTimeoutError rotationId o.timeoutMs) s

inductive Action
  | commitRotation (proposal : ValidatorKeyRotation)
  | approveRotation (rotationId validatorId : String)
  | snapshotAnswered (id : ℕ) (suppliedIds : List String) (calls : List ListenerCall)
      (thrown : Option CodedError)
  | snapshotFailed (id : ℕ) (error : CodedError)
  | commitTimeout (id : ℕ)
  | cleanup (id : ℕ) (rotationId : String)

/-- One turn: a call, the answer or the failure of a snapshot, a timer, or the clean-up after an
attempt's promise is settled. -/
def step (o : Options) (s : State) : Action → Option State
  | .commitRotation proposal => some (after (Broadcaster.commitRotation proposal) s)
  | .approveRotation rotationId validatorId =>
    some (Broadcaster.approveRotation o rotationId validatorId s).2
  | .snapshotAnswered id suppliedIds calls thrown =>
    (s.snapshotting.get id).map fun proposal =>
      startCommit o id proposal suppliedIds calls thrown
        { s with snapshotting := s.snapshotting.delete id }
  | .snapshotFailed id error =>
    (s.snapshotting.get id).map fun _ =>
      settle id (.error error) { s with snapshotting := s.snapshotting.delete id }
  | .commitTimeout id => (s.timers.get id).map fun rotationId => fireTimer o id rotationId s
  | .cleanup id rotationId =>
    if s.settled.has id then
      some (if (s.starting.get rotationId).any (·.id = id) then
        { s with starting := s.starting.delete rotationId } else s)
    else none

def sys (o : Options) : Sys State Action where
  init s := s = {}
  step := step o

end Broadcaster

end VeriNode
