import VeriNode.Config.Manager
import VeriNode.Audit.Hmac
import VeriNode.Config.HotUpdate

/-!
# Configuration drift

`deepDiff` and `classify` of `src/audit/drift_detector.ts`, and `ConfigAuditService.rollback` of
`src/audit/config_audit_service.ts`. A difference is reported with a path, its keys with dots
between them, and a rollback reads the path again.
-/

namespace VeriNode

namespace Drift

open JsVal Config

variable {ν : Type*}

section Diff

structure RawDiff (ν : Type*) where
  path : String
  baselineValue : JsVal ν
  liveValue : JsVal ν

inductive DriftSeverity
  | critical
  | nonCritical
deriving DecidableEq

structure DriftedKey (ν : Type*) extends RawDiff ν where
  severity : DriftSeverity

structure DriftReport (ν : Type*) where
  baselineId : String
  detectedAt : JsDate
  driftedKeys : List (DriftedKey ν)

def criticalSections : List String := ["db", "mtls", "tls", "staking"]

def classify (path : String) : DriftSeverity :=
  if (splitPath path).headI ∈ criticalSections then .critical else .nonCritical

/-- `prefix ? prefix + '.' + key : key`. -/
def fullPath (pre key : String) : String := if pre = "" then key else pre ++ "." ++ key

variable [JsonNumber ν]

/-- `JSON.stringify(bVal) !== JSON.stringify(lVal)`. -/
def textDiff (path : String) (bVal lVal : JsVal ν) : List (RawDiff ν) :=
  if stringify bVal ≠ stringify lVal then [⟨path, bVal, lVal⟩] else []

/-- The keys that the baseline has not as its own; one that it inherits is not missing. -/
def liveDiff (pre : String) (baseline live : List (String × JsVal ν)) : List (RawDiff ν) :=
  live.flatMap fun f =>
    if (own f.1 baseline).isSome then []
    else if has f.1 baseline then textDiff (fullPath pre f.1) (read f.1 baseline) f.2
    else [⟨fullPath pre f.1, .undefined, f.2⟩]

mutual

/-- Both present: into plain objects, and by their texts otherwise. -/
def valueDiff (path : String) : JsVal ν → JsVal ν → List (RawDiff ν)
  | .obj baseline, .obj live => keysDiff path baseline live ++ liveDiff path baseline live
  | .obj baseline, .undefined => textDiff path (.obj baseline) .undefined
  | .obj baseline, .func f => textDiff path (.obj baseline) (.func f)
  | .obj baseline, .json j => textDiff path (.obj baseline) (.json j)
  | .undefined, lVal => textDiff path .undefined lVal
  | .func f, lVal => textDiff path (.func f) lVal
  | .json j, lVal => textDiff path (.json j) lVal

/-- The keys of the baseline. -/
def keysDiff (pre : String) : List (String × JsVal ν) → List (String × JsVal ν) → List (RawDiff ν)
  | [], _ => []
  | f :: rest, live =>
    (if has f.1 live then valueDiff (fullPath pre f.1) f.2 (read f.1 live)
      else [⟨fullPath pre f.1, f.2, .undefined⟩]) ++ keysDiff pre rest live

end

/-- `deepDiff`: the keys of the baseline, then the others of the live configuration. -/
def deepDiff (baseline live : List (String × JsVal ν)) (pre : String) : List (RawDiff ν) :=
  keysDiff pre baseline live ++ liveDiff pre baseline live

def report (baselineId : String) (detectedAt : JsDate) (baseline live : List (String × JsVal ν)) :
    DriftReport ν :=
  { baselineId, detectedAt
    driftedKeys := (deepDiff baseline live "").map fun d =>
      { d with severity := classify d.path } }

end Diff

section Rollback

inductive AuditPermission
  | configRead
  | configBaselineWrite
  | configRollbackWrite
deriving DecidableEq

structure ForbiddenError where
  detail : String
deriving DecidableEq

structure RollbackResult where
  baselineId : String
  restored : List String
  skipped : List String
  dryRun : Bool
deriving DecidableEq

/-- The live configuration, and the paths of the rollback so far; each is audited as `rollback` or
`rollback_skip`. -/
structure Progress (ν : Type*) where
  live : List (String × JsVal ν)
  restored : List String
  skipped : List String
  audited : List (String × AuditLog.ChangeSource)

variable (schema : Schema ν) (valid : List (String × JsVal ν) → Bool)

/-- One drifted key. -/
def rollbackKey (p : Progress ν) (dk : DriftedKey ν) : Progress ν :=
  match update schema valid dk.path dk.baselineValue p.live with
  | some live =>
    { p with
      live
      restored := p.restored ++ [dk.path]
      audited := p.audited ++ [(dk.path, .rollback)] }
  | none =>
    { p with
      skipped := p.skipped ++ [dk.path]
      audited := p.audited ++ [(dk.path, .rollbackSkip)] }

/-- `rollback`, with the configuration it leaves. -/
def rollback (report : DriftReport ν) (permissions : List AuditPermission) (dryRun : Bool)
    (live : List (String × JsVal ν)) :
    Except ForbiddenError (RollbackResult × List (String × JsVal ν)) :=
  if AuditPermission.configRollbackWrite ∉ permissions then
    .error ⟨"config:rollback:write permission required"⟩
  else if dryRun then
    .ok (⟨report.baselineId, report.driftedKeys.map (·.path), [], true⟩, live)
  else
    let p := report.driftedKeys.foldl (rollbackKey schema valid) ⟨live, [], [], []⟩
    .ok (⟨report.baselineId, p.restored, p.skipped, false⟩, p.live)

end Rollback

end Drift

end VeriNode

/-!
# The audit of configuration changes

The listener that `ConfigAuditService.start` of `src/audit/config_audit_service.ts` puts on the bus.
It reads what changed from the data of the event, which is the new configuration. The time of an
entry is left out, and so are the drift check and the gauge, whose errors the listener catches.
-/

namespace VeriNode

namespace ConfigAudit

open JsVal Config

variable {ν : Type*}

/-- An `AuditEntryInput`, of whatever values the data has. -/
structure AuditEntryInput (ν : Type*) where
  configPath : JsVal ν
  previousValue : JsVal ν
  newValue : JsVal ν
  actor : JsVal ν
  sourceIp : JsVal ν
  changeSource : JsVal ν

/-- A property of the data, and its default where it is `undefined`. -/
def pick (key : String) (default data : JsVal ν) : JsVal ν :=
  match child key data with
  | .undefined => default
  | v => v

def entry (data : JsVal ν) : AuditEntryInput ν where
  configPath := pick "configPath" (.json (.str "")) data
  previousValue := pick "previousValue" .undefined data
  newValue := pick "newValue" .undefined data
  actor := pick "actor" (.json (.str "system")) data
  sourceIp := pick "sourceIp" (.json .null) data
  changeSource := pick "changeSource" (.json (.str "hot_update")) data

/-- `_updatedListener`: what it passes to `AuditLogger.write`. -/
def updatedListener : Listener ν (AuditEntryInput ν) := fun data => ([entry data], false)

/-- Whether the other listeners of a bus throw: those of `updated` before and after the service's,
those of `loaded` and those of every event. -/
structure Others (ν : Type*) where
  before : List (JsVal ν → Bool) := []
  after : List (JsVal ν → Bool) := []
  loaded : List (JsVal ν → Bool) := []
  all : List (JsVal ν → Bool) := []

def other (throws : JsVal ν → Bool) : Listener ν (AuditEntryInput ν) := fun data => ([], throws data)

/-- The bus that the service is started on. -/
def Others.bus (others : Others ν) : Bus ν (AuditEntryInput ν) where
  updated := others.before.map other ++ updatedListener :: others.after.map other
  loaded := others.loaded.map other
  all := others.all.map other

/-- Calls on a manager with a configuration, on such a bus. -/
def sys (schema : Schema ν) (valid : List (String × JsVal ν) → Bool)
    (toNumber : String → Option ℕ) (others : Others ν) :
    Sys (Manager ν (AuditEntryInput ν)) (Change ν) where
  init m := m.bus = others.bus ∧ ∃ fields, m.config = .obj fields
  step m c := some { m with config := (m.call schema valid toNumber c).config }

end ConfigAudit

end VeriNode
