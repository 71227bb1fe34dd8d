import VeriNode.Security.SecretRotation

/-!
# Rotations at the same time

Calls of `rotate` and `rollback` of `src/security/secret_rotation.ts` for one secret, interleaved at
each `await`. A call waits for a promise, and what it does until it waits again is one step. The
store's functions read and write when they are called; the call goes on with what was read, or with
what the store has thrown.
-/

namespace VeriNode

open Turn

namespace Secrets

namespace Rotations

/-- What a function does when it goes on: it waits again, returns or throws. -/
inductive Next (π : Type)
  | waits (place : π)
  | returns
  | throws (message : String)

/-- Waits for a block of the store, at a place, or at another one if the block throws. -/
def await {π : Type} (x : Block PUnit) (place : π) (thrown : String → π) (s : Service) :
    π × Service :=
  match x.run s with
  | .ok _ s' => (place, s')
  | .error message s' => (thrown message, s')

/-- Where `promote` waits, with what it has read. -/
inductive Promoting
  | secret (read : Option SecretDescriptor)
  | previous (secret : SecretDescriptor) (read : Option SecretVersion)
  | candidate (secret : SecretDescriptor) (previous : SecretVersion) (read : Option SecretVersion)
  | retired (secret : SecretDescriptor) (previous candidate : SecretVersion) (now : ℤ)
  | activated (secret : SecretDescriptor) (previous candidate : SecretVersion) (now : ℤ)
  | described
  | thrown (message : String)

/-- `promote` goes on, at a time. -/
def promoteNext (o : Options) (name candidateVersionId : String) (now : ℤ) :
    Promoting → Service → Next Promoting × Service
  | .secret none, s => (.throws s!"Secret not found: {name}", s)
  | .secret (some secret), s =>
    (.waits (.previous secret (s.store.getVersion name secret.currentVersionId)), s)
  | .previous secret none, s =>
    (.throws s!"Secret version not found: {name}@{secret.currentVersionId}", s)
  | .previous secret (some previous), s =>
    (.waits (.candidate secret previous (s.store.getVersion name candidateVersionId)), s)
  | .candidate _ _ none, s =>
    (.throws s!"Secret version not found: {name}@{candidateVersionId}", s)
  | .candidate secret previous (some candidate), s =>
    await (putVersion name (previous.retire now)) (.waits (.retired secret previous candidate now))
      (.waits <| .thrown ·) s
  | .retired secret previous candidate now, s =>
    await (putVersion name (candidate.activate now))
      (.waits (.activated secret previous candidate now)) (.waits <| .thrown ·) s
  | .activated secret previous candidate now, s =>
    await (putSecret (secret.promoted o candidate previous now)) (.waits .described)
      (.waits <| .thrown ·) s
  | .described, s => (.returns, { s with metrics := s.metrics.endCanary })
  | .thrown message, s => (.throws message, s)

/-- Where `rollback` waits, with what it has read. -/
inductive RollingBack
  | secret (read : Option SecretDescriptor)
  | version (secret : SecretDescriptor) (read : Option SecretVersion)
  | hook (secret : SecretDescriptor) (previous : SecretVersion)
  | labelled (secret : SecretDescriptor) (previous : SecretVersion)
  | described
  | thrown (message : String)

/-- `rollback` goes on; the hook has ended in the given way. -/
def rollbackNext (name previousVersionId reason : String) (hook : Except String PUnit) :
    RollingBack → Service → Next RollingBack × Service
  | .secret none, s => (.throws s!"Secret not found: {name}", s)
  | .secret (some secret), s =>
    (.waits (.version secret (s.store.getVersion name previousVersionId)), s)
  | .version _ none, s => (.throws s!"Secret version not found: {name}@{previousVersionId}", s)
  | .version secret (some previous), s => (.waits (.hook secret previous), s)
  | .hook secret previous, s =>
    match hook with
    | .error message => (.throws message, s)
    | .ok _ =>
      await (putVersion name (previous.labelled .current)) (.waits (.labelled secret previous))
        (.waits <| .thrown ·) s
  | .labelled secret previous, s =>
    await (putSecret (secret.rolledBack previous reason)) (.waits .described)
      (.waits <| .thrown ·) s
  | .described, s =>
    (.returns, { s with
      metrics := { s.metrics with rollbacks := s.metrics.rollbacks + 1 }.endCanary })
  | .thrown message, s => (.throws message, s)

/-- What a rotation has read before its `try` block. -/
structure Trial where
  startedAt : ℤ
  secret : SecretDescriptor
  oldVersion : SecretVersion

/-- Where a call waits. A rotation that has failed is `canary` if it is counted as an active
canary. -/
inductive Stage
  | secret (startedAt : ℤ) (read : Option SecretDescriptor)
  | version (startedAt : ℤ) (secret : SecretDescriptor) (read : Option SecretVersion)
  | prepared (r : Trial)
  | generating (r : Trial)
  | stored (r : Trial) (candidate : SecretVersion)
  | validating (r : Trial) (candidate : SecretVersion)
  | inCanary (r : Trial) (candidate : SecretVersion)
  | applying (r : Trial) (candidate : SecretVersion)
  | promoting (r : Trial) (candidate : SecretVersion) (place : Promoting)
  | promoted (r : Trial) (candidate : SecretVersion)
  | thrown (r : Trial) (message : String) (canary : Bool)
  | restoring (r : Trial) (message : String) (canary : Bool) (place : RollingBack)
  | restored (r : Trial) (message : String)
  | undoing (previousVersionId reason : String) (place : RollingBack)
  | resolved (result : RotationResult)
  | undone
  | rejected (message : String)

/-- What a call is given when it goes on: the time, the value and the id of a candidate, and how a
hook has ended. -/
structure Input where
  now : ℤ
  generated : Except String String
  versionId : String
  hook : Except String PUnit

/-- The `catch` block of `rotate`. -/
def recover (r : Trial) (message : String) (canary : Bool) (s : Service) : Stage × Service :=
  (.restoring r message canary (.secret (s.store.getSecret r.secret.name)), s)

/-- `updatePhase` in a rotation. -/
def awaitPhase (r : Trial) (phase : RotationPhase) (percent : JsNumber) (place : Stage)
    (s : Service) : Stage × Service :=
  await (updatePhase r.secret phase percent) place (.thrown r · false) s

/-- A call goes on, if it is not over. -/
def Stage.next (o : Options) (name : String) (i : Input) :
    Stage → Service → Option (Stage × Service)
  | .secret _ none, s => some (.rejected s!"Secret not found: {name}", s)
  | .secret startedAt (some d), s =>
    some (.version startedAt d (s.store.getVersion d.name d.currentVersionId), s)
  | .version _ d none, s =>
    some (.rejected s!"Secret version not found: {d.name}@{d.currentVersionId}", s)
  | .version startedAt d (some oldVersion), s =>
    some (awaitPhase ⟨startedAt, d, oldVersion⟩ .preparing 0 (.prepared ⟨startedAt, d, oldVersion⟩)
      { s with metrics := { s.metrics with rotationsStarted := s.metrics.rotationsStarted + 1 } })
  | .prepared r, s => some (.generating r, s)
  | .generating r, s =>
    match i.generated with
    | .error message => some (recover r message false s)
    | .ok value =>
      if value = "" ∨ value = r.oldVersion.value then some (recover r sameValue false s)
      else
        let candidate := newCandidate o value i.versionId i.now
        some (await (putVersion r.secret.name candidate) (.stored r candidate)
          (.thrown r · false) s)
  | .stored r candidate, s => some (.validating r candidate, s)
  | .validating r candidate, s =>
    match i.hook with
    | .error message => some (recover r message false s)
    | .ok _ => some (awaitPhase r .canary o.canaryPercent (.inCanary r candidate) s)
  | .inCanary r candidate, s =>
    some (.applying r candidate, { s with
      metrics := { s.metrics with activeCanaries := s.metrics.activeCanaries + 1 } })
  | .applying r candidate, s =>
    match i.hook with
    | .error message => some (recover r message true s)
    | .ok _ => some (.promoting r candidate (.secret (s.store.getSecret r.secret.name)), s)
  | .promoting r candidate place, s =>
    match promoteNext o r.secret.name candidate.id i.now place s with
    | (.waits place, s) => some (.promoting r candidate place, s)
    | (.throws message, s) => some (.thrown r message true, s)
    | (.returns, s) => some (.promoted r candidate, s)
  | .promoted r candidate, s =>
    let durationMs := i.now - r.startedAt
    some (.resolved { name, phase := .complete, oldVersionId := r.oldVersion.id,
                      newVersionId := some candidate.id, durationMs,
                      canaryPercent := o.canaryPercent },
      { s with metrics := { s.metrics with
          rotationsSucceeded := s.metrics.rotationsSucceeded + 1, lastDurationMs := durationMs } })
  | .thrown r message canary, s => some (recover r message canary s)
  | .restoring r message canary place, s =>
    match rollbackNext r.secret.name r.oldVersion.id message i.hook place s with
    | (.waits place, s) => some (.restoring r message canary place, s)
    | (.throws error, s) => some (.rejected error, s)
    | (.returns, s) => some (.restored r message, s)
  | .restored r message, s =>
    let durationMs := i.now - r.startedAt
    some (.resolved { name, phase := .rolled_back, oldVersionId := r.oldVersion.id, durationMs,
                      canaryPercent := 0, error := some message },
      { s with metrics := { s.metrics with
          rotationsFailed := s.metrics.rotationsFailed + 1, lastDurationMs := durationMs } })
  | .undoing previousVersionId reason place, s =>
    match rollbackNext name previousVersionId reason i.hook place s with
    | (.waits place, s) => some (.undoing previousVersionId reason place, s)
    | (.throws error, s) => some (.rejected error, s)
    | (.returns, s) => some (.undone, s)
  | .resolved _, _ | .undone, _ | .rejected _, _ => none

structure State where
  service : Service
  calls : OrdMap ℕ Stage := ∅
  nextCall : ℕ := 0

inductive Action
  | rotate (now : ℤ)
  | rollback (previousVersionId reason : String)
  | resume (call : ℕ) (i : Input)

/-- A new call. -/
def State.begin (s : State) (stage : Stage) : State :=
  { s with calls := s.calls.set s.nextCall stage, nextCall := s.nextCall + 1 }

def step (o : Options) (name : String) (s : State) : Action → Option State
  | .rotate now => some (s.begin (.secret now (s.service.store.getSecret name)))
  | .rollback previousVersionId reason =>
    some (s.begin (.undoing previousVersionId reason (.secret (s.service.store.getSecret name))))
  | .resume call i =>
    ((s.calls.get call).bind fun stage => stage.next o name i s.service).map fun next =>
      { s with service := next.2, calls := s.calls.set call next.1 }

/-- Calls for a secret that was registered. -/
def system (o : Options) (name : String) : Sys State Action where
  init s := ∃ kind initialValue rotateAfter now versionId secret,
    Returns (registerSecret o name kind initialValue rotateAfter now versionId) {} secret s.service
      ∧ s.calls = ∅
  step := step o name

end Rotations

end Secrets

end VeriNode
