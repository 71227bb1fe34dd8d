import VeriNode.Audit.DeepDiff

/-!
# Alerts

`_buildPayload` and `_redact` of `src/audit/alert_dispatcher.ts`. The current values are assigned in an
object that begins as `{}`. There `__proto__` is an accessor that it inherits: what is assigned to it
is what the object inherits from then on, and no property of it.
-/

namespace VeriNode

namespace AlertDispatcher

open JsVal Config Drift

variable {ν : Type*}

section Redaction

/-- `SENSITIVE_PATTERN.test(segment)`. -/
def isSensitive (segment : String) : Bool :=
  ["password", "secret", "key", "token"].any fun word =>
    word.toList <:+: segment.toList.map Char.toLower

example : ["apiKey", "TOKENS", "host", "db.passWord"].map isSensitive
    = [true, true, false, true] := by
  decide

def redacted : JsVal ν := .json (.str "[REDACTED]")

def isRedacted (path : String) : Bool := (splitPath path).any isSensitive

/-- `_redact`. -/
def redact (path : String) (value : JsVal ν) : JsVal ν :=
  if isRedacted path then redacted else value

end Redaction

section Assignment

/-- An object that values are assigned in: what it inherits from, if that is not `Object.prototype`,
and its own properties. -/
structure Assigned (ν : Type*) where
  proto : Option (JsVal ν) := none
  fields : List (String × JsVal ν) := []

/-- What inherits from the value inherits the accessor `__proto__`. -/
def passesAccessor : JsVal ν → Bool
  | .obj fields => (own "__proto__" fields).isNone
  | .json .null => false
  | _ => true

def Assigned.hasAccessor (o : Assigned ν) : Bool :=
  (own "__proto__" o.fields).isNone && o.proto.all passesAccessor

/-- An object can inherit from it: it is null, or not a primitive value. -/
def canInherit : JsVal ν → Bool
  | .obj _ => true
  | .func _ => true
  | .json .null => true
  | .json (.arr _) => true
  | _ => false

/-- `object[key] = value`. -/
def Assigned.write (o : Assigned ν) (key : String) (value : JsVal ν) : Assigned ν :=
  if key = "__proto__" && o.hasAccessor then
    if canInherit value then { o with proto := some value } else o
  else { o with fields := assign key value o.fields }

end Assignment

section Payload

structure AlertPayload (ν : Type*) where
  alertId : String
  severity : DriftSeverity
  driftedKeys : List String
  baselineId : String
  detectedAt : String
  currentValues : List (String × JsVal ν)

def currentValues (driftedKeys : List (DriftedKey ν)) : List (String × JsVal ν) :=
  (driftedKeys.foldl (fun o dk => Assigned.write o dk.path (redact dk.path dk.liveValue)) {}).fields

/-- `_buildPayload`. -/
def buildPayload (alertId : String) (report : Option (DriftReport ν)) (_partialError : Option String)
    (detectedAt : JsDate) : AlertPayload ν :=
  let driftedKeys := (report.map (·.driftedKeys)).getD []
  let hasCritical := (report.map (·.driftedKeys.any (·.severity = .critical))).getD true
  { alertId
    severity := if hasCritical then .critical else .nonCritical
    driftedKeys := driftedKeys.map (·.path)
    baselineId := (report.map (·.baselineId)).getD "unknown"
    detectedAt := detectedAt.toISOString
    currentValues := currentValues driftedKeys }

variable [JsonNumber ν]

/-- The report of a comparison. -/
def driftReport (baselineId : String) (detectedAt : JsDate) (baseline live : JsonObject ν) :
    DriftReport ν :=
  { baselineId, detectedAt
    driftedKeys := (DeepDiff.deepDiff baseline.fields live.fields "").map fun d =>
      { d with severity := classify d.path } }

/-- The alert on it. -/
def alert (alertId baselineId : String) (detectedAt : JsDate) (baseline live : JsonObject ν) :
    AlertPayload ν :=
  buildPayload alertId (some (driftReport baselineId detectedAt baseline live)) none detectedAt

end Payload

end AlertDispatcher

end VeriNode
