import VeriNode.Lib.OrdMap
import VeriNode.Lib.Run
import VeriNode.Lib.Turn
import VeriNode.Lib.JsNumber
import VeriNode.Lib.JsString

/-!
# The key registry

`KeyRegistry` of `src/keys/key-registry.ts`: every public key that was ever registered or
reserved, with its owner and state, and per validator the key it signs with and the key it has
pending. Each operation is a block that checks, then writes; it throws a `CodedError`.
-/

namespace VeriNode

open Turn

/-- An error the program throws: the class's name, the message and the code. -/
structure CodedError where
  name : String
  message : String
  code : String
deriving DecidableEq

inductive KeyState
  | pending
  | active
  | retired
deriving DecidableEq

structure KeyRecord where
  validatorId : String
  publicKey : String
  state : KeyState
  registeredEpoch : JsNumber
  activationEpoch : Option JsNumber := none
  activationSlot : Option JsNumber := none
  deactivationEpoch : Option JsNumber := none
  deactivationSlot : Option JsNumber := none
  retirementEpoch : Option JsNumber := none
  signingEnabled : Bool
deriving DecidableEq

structure RegisterActiveKeyInput where
  validatorId : String
  publicKey : String
  registeredEpoch : JsNumber
  activationEpoch : Option JsNumber := none
  activationSlot : Option JsNumber := none

structure ReservePendingKeyInput where
  validatorId : String
  publicKey : String
  registeredEpoch : JsNumber

structure ActivateKeyRotationInput where
  validatorId : String
  oldPublicKey : String
  newPublicKey : String
  activationEpoch : JsNumber
  activationSlot : JsNumber

def duplicateKeyError (publicKey : String) : CodedError :=
  ⟨"DuplicateKeyError", s!"Public key is already registered: {publicKey}", "ERR_DUPLICATE_KEY"⟩

def keyRegistryError (message code : String) : CodedError := ⟨"KeyRegistryError", message, code⟩

/-- The registry's three maps. -/
structure KeyRegistry where
  keysByPublicKey : OrdMap String KeyRecord := ∅
  currentSigningKeyByValidator : OrdMap String String := ∅
  pendingKeyByValidator : OrdMap String String := ∅

namespace KeyRegistry

/-- A block on the registry. -/
abbrev Block := EStateM CodedError KeyRegistry

def assertIdentifier (value field : String) : Block PUnit :=
  throwIf (JsString.isBlank value = true)
    (keyRegistryError s!"{field} must not be empty" "ERR_INVALID_KEY_RECORD")

def assertProtocolNumber (value : JsNumber) (field : String) : Block PUnit :=
  throwIf (value.isProtocol = false)
    (keyRegistryError s!"{field} must be a non-negative safe integer" "ERR_INVALID_KEY_RECORD")

def validateRegistration (validatorId publicKey : String) (registeredEpoch : JsNumber) :
    Block PUnit := do
  assertIdentifier validatorId "validatorId"
  assertIdentifier publicKey "publicKey"
  assertProtocolNumber registeredEpoch "registeredEpoch"

def assertPublicKeyAvailable (publicKey : String) : Block PUnit := do
  let r ← get
  throwIf (r.keysByPublicKey.has publicKey = true) (duplicateKeyError publicKey)

def setKey (publicKey : String) (record : KeyRecord) : Block PUnit :=
  modify fun r => { r with keysByPublicKey := r.keysByPublicKey.set publicKey record }

def registerActiveKey (input : RegisterActiveKeyInput) : Block KeyRecord := do
  validateRegistration input.validatorId input.publicKey input.registeredEpoch
  let activationEpoch := input.activationEpoch.getD input.registeredEpoch
  let activationSlot := input.activationSlot.getD 0
  assertProtocolNumber activationEpoch "activationEpoch"
  assertProtocolNumber activationSlot "activationSlot"
  assertPublicKeyAvailable input.publicKey
  let r ← get
  throwIf (r.currentSigningKeyByValidator.has input.validatorId = true)
    (keyRegistryError s!"Validator {input.validatorId} already has an active signing key"
      "ERR_ACTIVE_KEY_EXISTS")
  let record : KeyRecord :=
    { validatorId := input.validatorId, publicKey := input.publicKey, state := .active,
      registeredEpoch := input.registeredEpoch, activationEpoch := some activationEpoch,
      activationSlot := some activationSlot, signingEnabled := true }
  setKey record.publicKey record
  modify fun r => { r with
    currentSigningKeyByValidator :=
      r.currentSigningKeyByValidator.set record.validatorId record.publicKey }
  return record

def reservePendingKey (input : ReservePendingKeyInput) : Block KeyRecord := do
  validateRegistration input.validatorId input.publicKey input.registeredEpoch
  assertPublicKeyAvailable input.publicKey
  let r ← get
  throwIf (r.pendingKeyByValidator.has input.validatorId = true)
    (keyRegistryError s!"Validator {input.validatorId} already has a pending key"
      "ERR_PENDING_KEY_EXISTS")
  let record : KeyRecord :=
    { validatorId := input.validatorId, publicKey := input.publicKey, state := .pending,
      registeredEpoch := input.registeredEpoch, signingEnabled := false }
  setKey record.publicKey record
  modify fun r => { r with
    pendingKeyByValidator := r.pendingKeyByValidator.set record.validatorId record.publicKey }
  return record

/-- Removes only an unactivated reservation, for the rollback of an initiation. -/
def releasePendingKey (validatorId publicKey : String) : Block Bool := do
  let r ← get
  match r.keysByPublicKey.get publicKey with
  | none => return false
  | some record =>
    if record.validatorId = validatorId ∧ record.state = .pending
        ∧ r.pendingKeyByValidator.get validatorId = some publicKey then
      modify fun r => { r with
        keysByPublicKey := r.keysByPublicKey.delete publicKey
        pendingKeyByValidator := r.pendingKeyByValidator.delete validatorId }
      return true
    else
      return false

/-- The old and the new key's records, if the rotation was activated before. -/
def activatedPair (r : KeyRegistry) (input : ActivateKeyRotationInput) :
    Option (KeyRecord × KeyRecord) :=
  match r.keysByPublicKey.get input.oldPublicKey, r.keysByPublicKey.get input.newPublicKey with
  | some oldKey, some newKey =>
    if oldKey.validatorId = input.validatorId ∧ newKey.validatorId = input.validatorId
        ∧ oldKey.state = .active ∧ oldKey.signingEnabled = false
        ∧ newKey.state = .active ∧ newKey.signingEnabled = true
        ∧ r.currentSigningKeyByValidator.get input.validatorId = some input.newPublicKey then
      some (oldKey, newKey)
    else none
  | _, _ => none

/-- The records carry the activation's coordinates. -/
def sameCoordinates (oldKey newKey : KeyRecord) (input : ActivateKeyRotationInput) : Bool :=
  JsNumber.optStrictEq oldKey.deactivationEpoch (some input.activationEpoch)
    && JsNumber.optStrictEq oldKey.deactivationSlot (some input.activationSlot)
    && JsNumber.optStrictEq newKey.activationEpoch (some input.activationEpoch)
    && JsNumber.optStrictEq newKey.activationSlot (some input.activationSlot)

/-- The record, if it is the validator's and in the state. -/
def ownedIn (record : Option KeyRecord) (validatorId : String) (state : KeyState) :
    Option KeyRecord :=
  record.filter fun k => k.validatorId = validatorId ∧ k.state = state

/-- Hands signing over from the old key to the new one. All checks come before either record is
replaced. -/
def performActivation (input : ActivateKeyRotationInput) : Block (KeyRecord × KeyRecord) := do
  let r ← get
  let oldKey ← orThrow
    (ownedIn (r.keysByPublicKey.get input.oldPublicKey) input.validatorId .active)
    (keyRegistryError "Rotation old key is not active for the validator" "ERR_INVALID_OLD_KEY")
  throwIf (oldKey.signingEnabled = false
      ∨ r.currentSigningKeyByValidator.get input.validatorId ≠ some input.oldPublicKey)
    (keyRegistryError "Rotation old key is not the current signing key" "ERR_INVALID_OLD_KEY")
  let newKey ← orThrow
    (ownedIn (r.keysByPublicKey.get input.newPublicKey) input.validatorId .pending)
    (keyRegistryError "Rotation new key is not pending for the validator" "ERR_INVALID_NEW_KEY")
  throwIf (r.pendingKeyByValidator.get input.validatorId ≠ some input.newPublicKey)
    (keyRegistryError "Rotation pending-key index is inconsistent" "ERR_INVALID_NEW_KEY")
  let deactivatedOldKey : KeyRecord := { oldKey with
    signingEnabled := false
    deactivationEpoch := some input.activationEpoch
    deactivationSlot := some input.activationSlot }
  let activatedNewKey : KeyRecord := { newKey with
    state := .active
    signingEnabled := true
    activationEpoch := some input.activationEpoch
    activationSlot := some input.activationSlot }
  setKey input.oldPublicKey deactivatedOldKey
  setKey input.newPublicKey activatedNewKey
  modify fun r => { r with
    currentSigningKeyByValidator :=
      r.currentSigningKeyByValidator.set input.validatorId input.newPublicKey
    pendingKeyByValidator := r.pendingKeyByValidator.delete input.validatorId }
  return (deactivatedOldKey, activatedNewKey)

def activateRotation (input : ActivateKeyRotationInput) : Block (KeyRecord × KeyRecord) := do
  assertProtocolNumber input.activationEpoch "activationEpoch"
  assertProtocolNumber input.activationSlot "activationSlot"
  let r ← get
  match r.activatedPair input with
  | some (oldKey, newKey) =>
    throwIf (sameCoordinates oldKey newKey input = false)
      (keyRegistryError "Rotation was already activated with different protocol coordinates"
        "ERR_ACTIVATION_CONFLICT")
    return (oldKey, newKey)
  | none => performActivation input

def retireKey (validatorId publicKey : String) (retirementEpoch : JsNumber) :
    Block KeyRecord := do
  assertProtocolNumber retirementEpoch "retirementEpoch"
  let r ← get
  let record ← orThrow
    ((r.keysByPublicKey.get publicKey).filter fun k => k.validatorId = validatorId)
    (keyRegistryError "Retirement key does not belong to the validator" "ERR_UNKNOWN_KEY")
  if record.state = .retired then
    return record
  else
    throwIf (record.state ≠ .active ∨ record.signingEnabled = true
        ∨ record.deactivationSlot = none)
      (keyRegistryError "Only a deactivated active key can be retired" "ERR_KEY_NOT_DEACTIVATED")
    let retired : KeyRecord := { record with
      state := .retired
      signingEnabled := false
      retirementEpoch := some retirementEpoch }
    setKey publicKey retired
    return retired

def getKey (r : KeyRegistry) (publicKey : String) : Option KeyRecord :=
  r.keysByPublicKey.get publicKey

/-- An empty key counts as none, as the source's truth test has it. -/
def getCurrentSigningKey (r : KeyRegistry) (validatorId : String) : Option KeyRecord :=
  match r.currentSigningKeyByValidator.get validatorId with
  | none => none
  | some publicKey => if publicKey = "" then none else r.getKey publicKey

def hasPublicKey (r : KeyRegistry) (publicKey : String) : Bool := r.keysByPublicKey.has publicKey

/-- The entry of the signing index points at a signing record of the validator's. -/
def signingEntryOk (r : KeyRegistry) (entry : String × String) : Bool :=
  (r.keysByPublicKey.get entry.2).any fun k =>
    k.validatorId = entry.1 && k.state = .active && k.signingEnabled

/-- The entry of the pending index points at a pending record of the validator's. -/
def pendingEntryOk (r : KeyRegistry) (entry : String × String) : Bool :=
  (r.keysByPublicKey.get entry.2).any fun k => k.validatorId = entry.1 && k.state = .pending

def assertConsistent : Block PUnit := do
  let r ← get
  throwIf (r.currentSigningKeyByValidator.entries.all r.signingEntryOk = false)
    (keyRegistryError "Current signing-key index is inconsistent" "ERR_REGISTRY_INCONSISTENT")
  throwIf (r.pendingKeyByValidator.entries.all r.pendingEntryOk = false)
    (keyRegistryError "Pending-key index is inconsistent" "ERR_REGISTRY_INCONSISTENT")

/-- A call on the registry, with its arguments. -/
inductive Call
  | registerActiveKey (input : RegisterActiveKeyInput)
  | reservePendingKey (input : ReservePendingKeyInput)
  | releasePendingKey (validatorId publicKey : String)
  | activateRotation (input : ActivateKeyRotationInput)
  | retireKey (validatorId publicKey : String) (retirementEpoch : JsNumber)

/-- What the call runs. -/
def Call.block : Call → Block PUnit
  | .registerActiveKey input => do let _ ← KeyRegistry.registerActiveKey input; return ⟨⟩
  | .reservePendingKey input => do let _ ← KeyRegistry.reservePendingKey input; return ⟨⟩
  | .releasePendingKey v k => do let _ ← KeyRegistry.releasePendingKey v k; return ⟨⟩
  | .activateRotation input => do let _ ← KeyRegistry.activateRotation input; return ⟨⟩
  | .retireKey v k epoch => do let _ ← KeyRegistry.retireKey v k epoch; return ⟨⟩

/-- The registry as a system: it starts empty, and a call leaves what its block leaves, whether
it returns or throws. -/
def sys : Sys KeyRegistry Call where
  init r := r = {}
  step r c := some (after c.block r)

end KeyRegistry

end VeriNode
