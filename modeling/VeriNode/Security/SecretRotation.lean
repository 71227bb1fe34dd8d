import VeriNode.Lib.JsNumber
import VeriNode.Lib.OrdMap
import VeriNode.Lib.Run
import VeriNode.Lib.Turn

/-!
# Secret rotation

`SecretRotationService` and `InMemorySecretStore` of `src/security/secret_rotation.ts`. The versions
of a secret are labelled, and the secret's descriptor points to one of them; the store keeps the two
apart. Each call is a block on the service and may throw an error's message. The clock's readings,
the generated values and ids, and how the hooks end are inputs of the call; a hook that is not given
returns.
-/

namespace VeriNode

open Turn

namespace Secrets

inductive SecretKind
  | database
  | api_key
deriving DecidableEq

inductive RotationPhase
  | idle
  | preparing
  | canary
  | promoting
  | complete
  | failed
  | rolled_back
deriving DecidableEq

/-- What a version's label `state` says. -/
inductive LabelState
  | current
  | previous
  | candidate
deriving DecidableEq

structure Labels where
  state : LabelState
  fingerprint : String
deriving DecidableEq

structure SecretVersion where
  id : String
  value : String
  createdAt : ℤ
  activatedAt : Option ℤ := none
  retiredAt : Option ℤ := none
  labels : Labels
deriving DecidableEq

structure SecretDescriptor where
  name : String
  kind : SecretKind
  currentVersionId : String
  previousVersionId : Option String := none
  rotateAfter : ℤ
  canaryPercent : JsNumber
  phase : RotationPhase
  lastRotatedAt : Option ℤ := none
  lastError : Option String := none
deriving DecidableEq

structure InMemorySecretStore where
  secrets : OrdMap String SecretDescriptor := ∅
  versions : OrdMap String (OrdMap String SecretVersion) := ∅

structure Metrics where
  rotationsStarted : ℕ := 0
  rotationsSucceeded : ℕ := 0
  rotationsFailed : ℕ := 0
  rollbacks : ℕ := 0
  activeCanaries : ℕ := 0
  lastDurationMs : ℤ := 0
deriving DecidableEq

/-- The options that are not inputs of a call, and the hash of a value. -/
structure Options where
  canaryPercent : JsNumber := 5
  rotationIntervalMs : ℤ := 30 * 24 * 60 * 60 * 1000
  fingerprint : String → String

structure RotationResult where
  name : String
  phase : RotationPhase
  oldVersionId : String
  newVersionId : Option String := none
  durationMs : ℤ
  canaryPercent : JsNumber
  error : Option String := none
deriving DecidableEq

/-- The service with its store. -/
structure Service where
  store : InMemorySecretStore := {}
  metrics : Metrics := {}

abbrev Block := EStateM String Service

section Store

/-- A letter, a digit or one of the five signs a name may have. -/
def isNameChar (c : Char) : Bool :=
  c.isAlphanum || c = '_' || c = '.' || c = ':' || c = '/' || c = '-'

/-- The test of `assertValidName`. -/
def validName (name : String) : Bool :=
  name.toList.all isNameChar && 3 ≤ name.length && name.length ≤ 128

def invalidName : String :=
  "Secret name must be 3-128 chars and contain only letters, numbers, _, ., :, /, or -"

def assertValidName (name : String) : Block PUnit :=
  throwIf (validName name = false) invalidName

namespace InMemorySecretStore

def getSecret (store : InMemorySecretStore) (name : String) : Option SecretDescriptor :=
  store.secrets.get name

def listSecrets (store : InMemorySecretStore) : List SecretDescriptor := store.secrets.values

def getVersion (store : InMemorySecretStore) (name versionId : String) : Option SecretVersion :=
  (store.versions.get name).bind (·.get versionId)

/-- `putSecret`, of a secret with a valid name. -/
def setSecret (store : InMemorySecretStore) (secret : SecretDescriptor) : InMemorySecretStore :=
  { store with secrets := store.secrets.set secret.name secret }

/-- `putVersion`, of a secret with a valid name. -/
def setVersion (store : InMemorySecretStore) (name : String) (version : SecretVersion) :
    InMemorySecretStore :=
  { store with
    versions := store.versions.set name
      (((store.versions.get name).getD ∅).set version.id version) }

end InMemorySecretStore

def putSecret (secret : SecretDescriptor) : Block PUnit := do
  assertValidName secret.name
  modify fun s => { s with store := s.store.setSecret secret }

def putVersion (name : String) (version : SecretVersion) : Block PUnit := do
  assertValidName name
  modify fun s => { s with store := s.store.setVersion name version }

end Store

section Calls

def requiredSecret (name : String) : Block SecretDescriptor := do
  let s ← get
  orThrow (s.store.getSecret name) s!"Secret not found: {name}"

def requiredVersion (name versionId : String) : Block SecretVersion := do
  let s ← get
  orThrow (s.store.getVersion name versionId) s!"Secret version not found: {name}@{versionId}"

def setMetrics (f : Metrics → Metrics) : Block PUnit :=
  modify fun s => { s with metrics := f s.metrics }

/-- How a hook, or the generator, ends. -/
def ended {α : Type} (result : Except String α) : Block α :=
  match result with
  | .ok a => pure a
  | .error message => throw message

def firstVersion (o : Options) (initialValue : String) (now : ℤ) (versionId : String) :
    SecretVersion :=
  { id := versionId, value := initialValue, createdAt := now, activatedAt := some now,
    labels := ⟨.current, o.fingerprint initialValue⟩ }

def registerSecret (o : Options) (name : String) (kind : SecretKind) (initialValue : String)
    (rotateAfter : Option ℤ) (now : ℤ) (versionId : String) : Block SecretDescriptor := do
  assertValidName name
  throwIf (initialValue = "") "Initial secret value must not be empty"
  let descriptor : SecretDescriptor :=
    { name, kind, currentVersionId := versionId,
      rotateAfter := rotateAfter.getD (now + o.rotationIntervalMs), canaryPercent := 0,
      phase := .idle, lastRotatedAt := some now }
  putVersion name (firstVersion o initialValue now versionId)
  putSecret descriptor
  return descriptor

def dueForRotation (now : ℤ) (store : InMemorySecretStore) : List SecretDescriptor :=
  store.listSecrets.filter fun secret => secret.phase ≠ .canary && secret.rotateAfter ≤ now

/-- The descriptor as `updatePhase` writes it. -/
def SecretDescriptor.inPhase (secret : SecretDescriptor) (phase : RotationPhase)
    (canaryPercent : JsNumber) : SecretDescriptor :=
  { secret with phase, canaryPercent }

def updatePhase (secret : SecretDescriptor) (phase : RotationPhase) (canaryPercent : JsNumber) :
    Block PUnit :=
  putSecret (secret.inPhase phase canaryPercent)

def SecretVersion.labelled (version : SecretVersion) (state : LabelState) : SecretVersion :=
  { version with labels := { version.labels with state } }

/-- The version as `promote` retires it. -/
def SecretVersion.retire (previous : SecretVersion) (now : ℤ) : SecretVersion :=
  { previous.labelled .previous with retiredAt := some now }

/-- The version as `promote` activates it. -/
def SecretVersion.activate (candidate : SecretVersion) (now : ℤ) : SecretVersion :=
  { candidate.labelled .current with activatedAt := some now }

/-- The descriptor as `promote` writes it. -/
def SecretDescriptor.promoted (o : Options) (secret : SecretDescriptor)
    (candidate previous : SecretVersion) (now : ℤ) : SecretDescriptor :=
  { secret with
    currentVersionId := candidate.id
    previousVersionId := some previous.id
    rotateAfter := now + o.rotationIntervalMs
    canaryPercent := 0
    phase := .complete
    lastRotatedAt := some now
    lastError := none }

/-- The descriptor as `rollback` writes it. -/
def SecretDescriptor.rolledBack (secret : SecretDescriptor) (previous : SecretVersion)
    (reason : String) : SecretDescriptor :=
  { secret with
    currentVersionId := previous.id
    canaryPercent := 0
    phase := .rolled_back
    lastError := some reason }

/-- A canary is over; there are never less than none. -/
def Metrics.endCanary (m : Metrics) : Metrics := { m with activeCanaries := m.activeCanaries - 1 }

def promote (o : Options) (name candidateVersionId : String) (now : ℤ) : Block PUnit := do
  let secret ← requiredSecret name
  let previous ← requiredVersion name secret.currentVersionId
  let candidate ← requiredVersion name candidateVersionId
  putVersion name (previous.retire now)
  putVersion name (candidate.activate now)
  putSecret (secret.promoted o candidate previous now)
  setMetrics Metrics.endCanary

def rollback (name previousVersionId reason : String) (hook : Except String PUnit) :
    Block PUnit := do
  let secret ← requiredSecret name
  let previous ← requiredVersion name previousVersionId
  ended hook
  putVersion name (previous.labelled .current)
  putSecret (secret.rolledBack previous reason)
  setMetrics fun m => { m with rollbacks := m.rollbacks + 1 }.endCanary

/-- What a call of `rotate` is given from outside: the clock's readings, the generated value and id,
and how the hooks end. -/
structure Inputs where
  startedAt : ℤ
  generated : Except String String
  versionId : String
  createdAt : ℤ
  validated : Except String PUnit
  applied : Except String PUnit
  promotedAt : ℤ
  rolledBack : Except String PUnit
  endedAt : ℤ

def newCandidate (o : Options) (value versionId : String) (createdAt : ℤ) : SecretVersion :=
  { id := versionId, value, createdAt, labels := ⟨.candidate, o.fingerprint value⟩ }

def sameValue : String :=
  "Generated secret must be non-empty and different from the current version"

/-- The `try` block of `rotate`. -/
def attempt (o : Options) (name : String) (secret : SecretDescriptor) (oldVersion : SecretVersion)
    (i : Inputs) : Block RotationResult := do
  updatePhase secret .preparing 0
  let value ← ended i.generated
  throwIf (value = "" ∨ value = oldVersion.value) sameValue
  let candidate := newCandidate o value i.versionId i.createdAt
  putVersion secret.name candidate
  ended i.validated
  updatePhase secret .canary o.canaryPercent
  setMetrics fun m => { m with activeCanaries := m.activeCanaries + 1 }
  ended i.applied
  promote o secret.name candidate.id i.promotedAt
  let durationMs := i.endedAt - i.startedAt
  setMetrics fun m =>
    { m with rotationsSucceeded := m.rotationsSucceeded + 1, lastDurationMs := durationMs }
  return { name, phase := .complete, oldVersionId := oldVersion.id,
           newVersionId := some candidate.id, durationMs, canaryPercent := o.canaryPercent }

def rotate (o : Options) (name : String) (i : Inputs) : Block RotationResult := do
  let secret ← requiredSecret name
  let oldVersion ← requiredVersion secret.name secret.currentVersionId
  setMetrics fun m => { m with rotationsStarted := m.rotationsStarted + 1 }
  tryCatch (attempt o name secret oldVersion i) fun message => do
    rollback secret.name oldVersion.id message i.rolledBack
    let durationMs := i.endedAt - i.startedAt
    setMetrics fun m =>
      { m with rotationsFailed := m.rotationsFailed + 1, lastDurationMs := durationMs }
    return { name, phase := .rolled_back, oldVersionId := oldVersion.id, durationMs,
             canaryPercent := 0, error := some message }

end Calls

section History

/-- The calls of a history, one after the other. -/
inductive Call
  | registerSecret (name : String) (kind : SecretKind) (initialValue : String)
      (rotateAfter : Option ℤ) (now : ℤ) (versionId : String)
  | rotate (name : String) (i : Inputs)
  | promote (name candidateVersionId : String) (now : ℤ)
  | rollback (name previousVersionId reason : String) (hook : Except String PUnit)

/-- The id that `versionIdFactory` gives during the call. -/
def Call.newId : Call → Option String
  | .registerSecret _ _ _ _ _ versionId => some versionId
  | .rotate _ i => some i.versionId
  | .promote .. | .rollback .. => none

/-- The call's block; what it returns is left out. -/
def Call.block (o : Options) : Call → Block PUnit
  | .registerSecret name kind initialValue rotateAfter now versionId => do
    let _ ← Secrets.registerSecret o name kind initialValue rotateAfter now versionId
  | .rotate name i => do
    let _ ← Secrets.rotate o name i
  | .promote name candidateVersionId now => Secrets.promote o name candidateVersionId now
  | .rollback name previousVersionId reason hook =>
    Secrets.rollback name previousVersionId reason hook

/-- The service, and the ids that were given. -/
structure State where
  service : Service := {}
  issued : List String := []

/-- A call returns or throws; the id it was given is a new one. -/
def step (o : Options) (s : State) (c : Call) : Option State :=
  if ∀ id ∈ c.newId, id ∉ s.issued then
    some { service := after (c.block o) s.service, issued := c.newId.toList ++ s.issued }
  else none

/-- Histories from an empty store. -/
def system (o : Options) : Sys State Call where
  init s := s = {}
  step := step o

end History

end Secrets

end VeriNode
