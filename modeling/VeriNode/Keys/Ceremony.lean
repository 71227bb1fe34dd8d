import VeriNode.Keys.Broadcaster

/-!
# The rotation ceremony

`RotationCeremony` of `src/keys/rotation-ceremony.ts`: a validator's signing key is replaced in
four phases. `initiate` waits for the validator's stake and `approve` for the committer, so each
is split there: what runs before the wait is the call, what runs after it is a turn of its own,
and every other call may come in between. What the clock, the stake provider, the committer and
the id factory answer is given with each turn. The ceremony owns the registry it was built with;
nothing else writes it but `registerActiveKey`.
-/

namespace VeriNode

open Turn

def rotationGraceEpochs : ℕ := 256

def minRotationStake : ℤ := 10000

def oldKeyRetirementSlots : ℕ := 4096

inductive RotationPhase
  | initiate
  | approve
  | activate
  | retire
deriving DecidableEq

/-- The phase as messages print it. -/
def RotationPhase.text : RotationPhase → String
  | .initiate => "INITIATE"
  | .approve => "APPROVE"
  | .activate => "ACTIVATE"
  | .retire => "RETIRE"

structure RotationRecord where
  rotationId : String
  validatorId : String
  oldPublicKey : String
  newPublicKey : String
  phase : RotationPhase
  initiatedEpoch : JsNumber
  initiatedSlot : JsNumber
  approvedEpoch : Option JsNumber := none
  activatedEpoch : Option JsNumber := none
  activationSlot : Option JsNumber := none
  retiredEpoch : Option JsNumber := none
  approvals : List String
  approvalThreshold : Option JsNumber := none
  approvalValidatorSet : List String
deriving DecidableEq

structure InitiateRotationInput where
  validatorId : String
  newPublicKey : String
  rotationId : Option String := none

def rotationCeremonyError (message code : String) : CodedError :=
  ⟨"RotationCeremonyError", message, code⟩

def insufficientRotationStakeError (validatorId : String) (actualStake : ℤ) : CodedError :=
  ⟨"InsufficientRotationStakeError",
    s!"Validator {validatorId} has {actualStake} VERI; {minRotationStake} required",
    "ERR_INSUFFICIENT_ROTATION_STAKE"⟩

/-- The ceremony's maps and its registry. An approval attempt has a number, which stands for the
identity of its promise; `initiating` and `approving` hold the calls that wait. -/
structure Ceremony where
  registry : KeyRegistry := {}
  rotations : OrdMap String RotationRecord := ∅
  activeRotationByValidator : OrdMap String String := ∅
  approvalAttempts : OrdMap String ℕ := ∅
  initiating : OrdMap ℕ InitiateRotationInput := ∅
  approving : OrdMap ℕ ValidatorKeyRotation := ∅
  nextId : ℕ := 0

namespace Ceremony

abbrev Block := EStateM CodedError Ceremony

/-- A call on the ceremony's registry. -/
def onRegistry {α : Type} : KeyRegistry.Block α → Block α :=
  zoom Ceremony.registry fun c r => { c with registry := r }

def assertProtocolNumber (value : JsNumber) (field : String) : Block PUnit :=
  throwIf (value.isProtocol = false)
    (rotationCeremonyError s!"{field} must be a non-negative safe integer"
      "ERR_INVALID_PROTOCOL_CLOCK")

def requireRotation (rotationId : String) : Block RotationRecord := do
  let c ← get
  orThrow (c.rotations.get rotationId)
    (rotationCeremonyError s!"Unknown rotation: {rotationId}" "ERR_UNKNOWN_ROTATION")

def setRotation (rotationId : String) (record : RotationRecord) : Block PUnit :=
  modify fun c => { c with rotations := c.rotations.set rotationId record }

/-- `activeRotationByValidator.delete(validatorId)`, if it names the rotation. -/
def clearActive (validatorId rotationId : String) : Block PUnit :=
  modify fun c => if c.activeRotationByValidator.get validatorId = some rotationId then
    { c with activeRotationByValidator := c.activeRotationByValidator.delete validatorId } else c

/-- `initiate` up to the stake lookup. -/
def initiate (input : InitiateRotationInput) : Block ℕ := do
  throwIf (input.validatorId = "" ∨ input.newPublicKey = "")
    (rotationCeremonyError "validatorId and newPublicKey are required" "ERR_INVALID_ROTATION")
  let c ← get
  throwIf (c.registry.hasPublicKey input.newPublicKey = true) (duplicateKeyError input.newPublicKey)
  modify fun c => { c with
    nextId := c.nextId + 1
    initiating := c.initiating.set c.nextId input }
  return c.nextId

/-- The try block of `initiate` and its catch: a failure after the reservation releases it. -/
def reserveAndRecord (record : RotationRecord) : Block RotationRecord :=
  tryCatch
    (do
      let _ ← onRegistry (KeyRegistry.reservePendingKey
        { validatorId := record.validatorId, publicKey := record.newPublicKey,
          registeredEpoch := record.initiatedEpoch })
      tryCatch
        (do
          setRotation record.rotationId record
          modify fun c => { c with
            activeRotationByValidator :=
              c.activeRotationByValidator.set record.validatorId record.rotationId }
          return record)
        fun error => do
          let _ ← onRegistry
            (KeyRegistry.releasePendingKey record.validatorId record.newPublicKey)
          throw error)
    fun error => do
      modify fun c => { c with rotations := c.rotations.delete record.rotationId }
      clearActive record.validatorId record.rotationId
      throw error

/-- `initiate` once the stake is there. `currentEpoch` and `currentSlot` are what the clock says,
`freshId` what the id factory makes. -/
def finishInitiate (input : InitiateRotationInput) (stake : ℤ) (currentEpoch currentSlot : JsNumber)
    (freshId : String) : Block RotationRecord := do
  throwIf (stake < minRotationStake) (insufficientRotationStakeError input.validatorId stake)
  assertProtocolNumber currentEpoch "currentEpoch"
  assertProtocolNumber currentSlot "currentSlot"
  let c ← get
  let conflictingRotationId := (c.activeRotationByValidator.get input.validatorId).getD ""
  throwIf (conflictingRotationId ≠ "")
    (rotationCeremonyError
      s!"Validator {input.validatorId} already has rotation {conflictingRotationId} in progress"
      "ERR_ROTATION_IN_PROGRESS")
  let oldKey ← orThrow
    ((c.registry.getCurrentSigningKey input.validatorId).filter fun k =>
      k.state = .active ∧ k.signingEnabled = true)
    (rotationCeremonyError s!"Validator {input.validatorId} has no active signing key"
      "ERR_NO_ACTIVE_SIGNING_KEY")
  let rotationId := input.rotationId.getD freshId
  throwIf (rotationId = "" ∨ c.rotations.has rotationId = true)
    (rotationCeremonyError s!"Rotation id is already in use: {rotationId}"
      "ERR_ROTATION_ID_CONFLICT")
  reserveAndRecord
    { rotationId := rotationId, validatorId := input.validatorId, oldPublicKey := oldKey.publicKey,
      newPublicKey := input.newPublicKey, phase := .initiate, initiatedEpoch := currentEpoch,
      initiatedSlot := currentSlot, approvals := [], approvalValidatorSet := [] }

/-- The promise `approve` returns: resolved with the record, or an attempt's. -/
inductive Approval
  | settled (record : RotationRecord)
  | joined (id : ℕ)
  | started (id : ℕ)

/-- What `performApproval` hands to the committer. -/
def proposalOf (record : RotationRecord) : ValidatorKeyRotation where
  rotationId := record.rotationId
  validatorId := record.validatorId
  oldPublicKey := record.oldPublicKey
  newPublicKey := record.newPublicKey
  initiatedEpoch := record.initiatedEpoch
  initiatedSlot := record.initiatedSlot

/-- `approve` up to the committer's answer. -/
def approve (rotationId : String) : Block Approval := do
  let record ← requireRotation rotationId
  if record.phase ≠ .initiate then
    return .settled record
  else
    let c ← get
    match c.approvalAttempts.get rotationId with
    | some attempt => return .joined attempt
    | none =>
      modify fun c => { c with
        nextId := c.nextId + 1
        approving := c.approving.set c.nextId (proposalOf record)
        approvalAttempts := c.approvalAttempts.set rotationId c.nextId }
      return .started c.nextId

/-- The commitment is for the rotation and proves its quorum. -/
def commitmentValid (rotationId : String) (commitment : RotationCommitResult)
    (activeValidatorIds approvals : OrdSet String) (expectedThreshold : ℕ) : Bool :=
  commitment.rotationId = rotationId
    && commitment.approvalThreshold.strictEq (.ofNat expectedThreshold)
    && decide (expectedThreshold ≤ approvals.size)
    && approvals.elems.all activeValidatorIds.has

def persistApproval (rotationId : String) (commitment : RotationCommitResult)
    (currentEpoch : JsNumber) : Block RotationRecord := do
  let current ← requireRotation rotationId
  if current.phase ≠ .initiate then
    return current
  else
    let activeValidatorIds := OrdSet.ofList commitment.activeValidatorIds
    let approvals := OrdSet.ofList commitment.approvals
    match calculateRotationApprovalThreshold activeValidatorIds.size with
    | .error error => throw error
    | .ok expectedThreshold =>
      throwIf (commitmentValid rotationId commitment activeValidatorIds approvals expectedThreshold
          = false)
        (rotationCeremonyError "Commitment did not prove rotation quorum"
          "ERR_INVALID_ROTATION_COMMITMENT")
      assertProtocolNumber currentEpoch "currentEpoch"
      let approved : RotationRecord := { current with
        phase := .approve
        approvedEpoch := some currentEpoch
        approvals := approvals.elems
        approvalThreshold := some (.ofNat expectedThreshold)
        approvalValidatorSet := activeValidatorIds.elems }
      setRotation rotationId approved
      return approved

def activate (rotationId : String) (currentEpoch currentSlot : JsNumber) :
    Block RotationRecord := do
  let record ← requireRotation rotationId
  if record.phase = .activate ∨ record.phase = .retire then
    return record
  else
    throwIf (record.phase ≠ .approve)
      (rotationCeremonyError s!"Rotation {rotationId} cannot activate from {record.phase.text}"
        "ERR_ILLEGAL_ROTATION_TRANSITION")
    assertProtocolNumber currentEpoch "currentEpoch"
    assertProtocolNumber currentSlot "currentSlot"
    let _ ← onRegistry (KeyRegistry.activateRotation
      { validatorId := record.validatorId, oldPublicKey := record.oldPublicKey,
        newPublicKey := record.newPublicKey, activationEpoch := currentEpoch,
        activationSlot := currentSlot })
    let activated : RotationRecord := { record with
      phase := .activate
      activatedEpoch := some currentEpoch
      activationSlot := some currentSlot }
    setRotation rotationId activated
    return activated

/-- `Math.max(0, inactiveSlots)` as the message prints it: the difference of two protocol numbers
is an integer. -/
def inactiveText : JsNumber → String
  | .fin q => toString q.floor.toNat
  | _ => "0"

def retire (rotationId : String) (currentSlot currentEpoch : JsNumber) :
    Block RotationRecord := do
  let record ← requireRotation rotationId
  if record.phase = .retire then
    return record
  else
    let activationSlot ← orThrow (if record.phase = .activate then record.activationSlot else none)
      (rotationCeremonyError s!"Rotation {rotationId} cannot retire from {record.phase.text}"
        "ERR_ILLEGAL_ROTATION_TRANSITION")
    assertProtocolNumber currentSlot "currentSlot"
    assertProtocolNumber currentEpoch "currentEpoch"
    let inactiveSlots := currentSlot.sub activationSlot
    throwIf (inactiveSlots.lt (.ofNat oldKeyRetirementSlots) = true)
      (rotationCeremonyError
        s!"Old key has been inactive for {inactiveText inactiveSlots} slots; {oldKeyRetirementSlots} required"
        "ERR_RETIREMENT_DELAY")
    let _ ← onRegistry
      (KeyRegistry.retireKey record.validatorId record.oldPublicKey currentEpoch)
    let retired : RotationRecord := { record with
      phase := .retire
      retiredEpoch := some currentEpoch }
    setRotation rotationId retired
    clearActive record.validatorId rotationId
    return retired

def getRotation (c : Ceremony) (rotationId : String) : Option RotationRecord :=
  c.rotations.get rotationId

inductive Action
  | registerActiveKey (input : RegisterActiveKeyInput)
  | initiate (input : InitiateRotationInput)
  | stakeAnswered (call : ℕ) (stake : ℤ) (currentEpoch currentSlot : JsNumber) (freshId : String)
  | stakeFailed (call : ℕ)
  | approve (rotationId : String)
  | commitAnswered (attempt : ℕ) (commitment : RotationCommitResult) (currentEpoch : JsNumber)
  | commitFailed (attempt : ℕ)
  | cleanup (attempt : ℕ) (rotationId : String)
  | activate (rotationId : String) (currentEpoch currentSlot : JsNumber)
  | retire (rotationId : String) (currentSlot currentEpoch : JsNumber)

/-- One turn: a call, or the answer or the failure that a waiting call gets, or the clean-up once
an approval attempt is settled. -/
def step (c : Ceremony) : Action → Option Ceremony
  | .registerActiveKey input => some (after (onRegistry (KeyRegistry.registerActiveKey input)) c)
  | .initiate input => some (after (Ceremony.initiate input) c)
  | .stakeAnswered call stake currentEpoch currentSlot freshId =>
    (c.initiating.get call).map fun input =>
      after (finishInitiate input stake currentEpoch currentSlot freshId)
        { c with initiating := c.initiating.delete call }
  | .stakeFailed call =>
    (c.initiating.get call).map fun _ => { c with initiating := c.initiating.delete call }
  | .approve rotationId => some (after (Ceremony.approve rotationId) c)
  | .commitAnswered attempt commitment currentEpoch =>
    (c.approving.get attempt).map fun proposal =>
      after (persistApproval proposal.rotationId commitment currentEpoch)
        { c with approving := c.approving.delete attempt }
  | .commitFailed attempt =>
    (c.approving.get attempt).map fun _ => { c with approving := c.approving.delete attempt }
  | .cleanup attempt rotationId =>
    if c.approving.has attempt = false then
      some (if c.approvalAttempts.get rotationId = some attempt then
        { c with approvalAttempts := c.approvalAttempts.delete rotationId } else c)
    else none
  | .activate rotationId currentEpoch currentSlot =>
    some (after (Ceremony.activate rotationId currentEpoch currentSlot) c)
  | .retire rotationId currentSlot currentEpoch =>
    some (after (Ceremony.retire rotationId currentSlot currentEpoch) c)

def sys : Sys Ceremony Action where
  init c := c = {}
  step := step

end Ceremony

end VeriNode
