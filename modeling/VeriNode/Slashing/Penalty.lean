import VeriNode.Keys.Ceremony

/-!
# The penalty calculator

`PenaltyCalculator` of `src/slashing/penalty-calculator.ts`: whether evidence that a validator
signed with two keys asks for a penalty. It does not if the keys are the two of a rotation that
was just activated. The calculator reads the rotation, the registry and the clock; it writes
nothing.
-/

namespace VeriNode

def doubleSigningMisbehavior : String := "DOUBLE_SIGNING"

structure KeyOverlapEvidence where
  validatorId : String
  misbehaviorType : String
  firstPublicKey : String
  secondPublicKey : String
  firstSigningSlot : JsNumber
  secondSigningSlot : JsNumber
  rotationId : Option String := none

inductive PenaltyDecisionReason
  | legitimateRotationOverlap
  | notDoubleSigning
  | noKnownRotation
  | rotationNotActivated
  | validatorMismatch
  | keyPairMismatch
  | evidenceOutsideActivationTransition
  | invalidRotationCommitment
  | invalidKeyState
  | outsideRotationGracePeriod
deriving DecidableEq

structure PenaltyDecision where
  penaltyRequired : Bool
  suppressed : Bool
  reason : PenaltyDecisionReason
deriving DecidableEq

def penalize (reason : PenaltyDecisionReason) : PenaltyDecision := ⟨true, false, reason⟩

namespace PenaltyCalculator

/-- The evidence names the rotation's two keys, in either order. -/
def exactPair (rotation : RotationRecord) (evidence : KeyOverlapEvidence) : Bool :=
  (evidence.firstPublicKey = rotation.oldPublicKey
      && evidence.secondPublicKey = rotation.newPublicKey)
    || (evidence.firstPublicKey = rotation.newPublicKey
      && evidence.secondPublicKey = rotation.oldPublicKey)

def oldKeySigningSlot (rotation : RotationRecord) (evidence : KeyOverlapEvidence) : JsNumber :=
  if evidence.firstPublicKey = rotation.oldPublicKey then evidence.firstSigningSlot
  else evidence.secondSigningSlot

def newKeySigningSlot (rotation : RotationRecord) (evidence : KeyOverlapEvidence) : JsNumber :=
  if evidence.firstPublicKey = rotation.newPublicKey then evidence.firstSigningSlot
  else evidence.secondSigningSlot

/-- The old key signed before the activation, and the new one since. -/
def transitionEvidenceValid (oldSlot newSlot currentSlot activationSlot : JsNumber) : Bool :=
  oldSlot.isSafeInteger && newSlot.isSafeInteger && currentSlot.isSafeInteger
    && JsNumber.le 0 oldSlot && oldSlot.lt activationSlot && activationSlot.le newSlot
    && newSlot.le currentSlot

/-- The rotation's record proves its quorum. -/
def commitmentValid (rotation : RotationRecord) : Bool :=
  let uniqueApprovals := OrdSet.ofList rotation.approvals
  let eligibleValidators := OrdSet.ofList rotation.approvalValidatorSet
  match calculateRotationApprovalThreshold eligibleValidators.size with
  | .error _ => false
  | .ok expectedThreshold =>
    JsNumber.optStrictEq rotation.approvalThreshold (some (.ofNat expectedThreshold))
      && decide (expectedThreshold ≤ uniqueApprovals.size)
      && uniqueApprovals.elems.all eligibleValidators.has

/-- The registry has the two keys as the activation left them. -/
def keyStateValid (registry : KeyRegistry) (rotation : RotationRecord) : Bool :=
  ((registry.getKey rotation.oldPublicKey).any fun oldKey =>
      oldKey.validatorId = rotation.validatorId && oldKey.state = .active
        && !oldKey.signingEnabled
        && JsNumber.optStrictEq oldKey.deactivationEpoch rotation.activatedEpoch
        && JsNumber.optStrictEq oldKey.deactivationSlot rotation.activationSlot)
    && (registry.getKey rotation.newPublicKey).any fun newKey =>
      newKey.validatorId = rotation.validatorId && newKey.state = .active
        && newKey.signingEnabled
        && JsNumber.optStrictEq newKey.activationEpoch rotation.activatedEpoch
        && JsNumber.optStrictEq newKey.activationSlot rotation.activationSlot

/-- The clock is within `ROTATION_GRACE_EPOCHS` of the activation. -/
def withinGrace (currentEpoch activatedEpoch : JsNumber) : Bool :=
  let elapsedEpochs := currentEpoch.sub activatedEpoch
  !(!currentEpoch.isSafeInteger || elapsedEpochs.lt 0
    || JsNumber.le (.ofNat rotationGraceEpochs) elapsedEpochs)

/-- The checks on a rotation that was activated. -/
def calculateActivated (registry : KeyRegistry) (currentSlot currentEpoch : JsNumber)
    (rotation : RotationRecord) (activatedEpoch activationSlot : JsNumber)
    (evidence : KeyOverlapEvidence) : PenaltyDecision :=
  if rotation.validatorId ≠ evidence.validatorId then penalize .validatorMismatch
  else if exactPair rotation evidence = false
      ∨ evidence.firstPublicKey = evidence.secondPublicKey then
    penalize .keyPairMismatch
  else if transitionEvidenceValid (oldKeySigningSlot rotation evidence)
      (newKeySigningSlot rotation evidence) currentSlot activationSlot = false then
    penalize .evidenceOutsideActivationTransition
  else if commitmentValid rotation = false then penalize .invalidRotationCommitment
  else if keyStateValid registry rotation = false then penalize .invalidKeyState
  else if withinGrace currentEpoch activatedEpoch = false then
    penalize .outsideRotationGracePeriod
  else ⟨false, true, .legitimateRotationOverlap⟩

def calculate (rotations : String → Option RotationRecord) (registry : KeyRegistry)
    (currentSlot currentEpoch : JsNumber) (evidence : KeyOverlapEvidence) : PenaltyDecision :=
  if evidence.misbehaviorType ≠ doubleSigningMisbehavior then penalize .notDoubleSigning
  else if evidence.rotationId.getD "" = "" then penalize .noKnownRotation
  else
    match rotations (evidence.rotationId.getD "") with
    | none => penalize .noKnownRotation
    | some rotation =>
      match rotation.phase, rotation.approvedEpoch, rotation.activatedEpoch,
        rotation.activationSlot with
      | .activate, some _, some activatedEpoch, some activationSlot =>
        calculateActivated registry currentSlot currentEpoch rotation activatedEpoch
          activationSlot evidence
      | _, _, _, _ => penalize .rotationNotActivated

end PenaltyCalculator

end VeriNode
