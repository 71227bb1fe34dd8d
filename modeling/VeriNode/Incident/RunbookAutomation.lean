import VeriNode.Lib.JsDate
import VeriNode.Lib.JsNumber
import VeriNode.Lib.JsString
import VeriNode.Lib.OrdMap
import VeriNode.Lib.RegExp
import VeriNode.Lib.Run
import VeriNode.Lib.Separated

/-!
# Runbooks for incidents

A signal is planned with the first runbook whose patterns match its service and its metric, under an
id made of what it is about. The patterns are objects: a runbook has references to them, and what
`test` leaves in their `lastIndex` is the state that one call leaves to the next.
-/

namespace VeriNode

namespace Incident

inductive IncidentSeverity
  | critical
  | error
  | warning
  | info
deriving DecidableEq

def IncidentSeverity.text : IncidentSeverity → String
  | .critical => "critical"
  | .error => "error"
  | .warning => "warning"
  | .info => "info"

structure IncidentSignal where
  service : String
  summary : String
  severity : IncidentSeverity
  metric : String
  value : JsNumber
  threshold : JsNumber
  observedAt : Option JsDate := none
  labels : Option (OrdMap String String) := none

/-- A runbook, with references to its patterns and the ids of its steps. -/
structure RunbookDefinition where
  id : String
  title : String
  servicePattern : ℕ
  metricPattern : ℕ
  dashboardUrl : String
  escalationPolicy : String
  steps : List String
deriving DecidableEq

structure CustomDetails where
  runbookId : String
  runbookTitle : String
  metric : String
  value : JsNumber
  threshold : JsNumber
  labels : OrdMap String String
  automationStepCount : ℕ
  performanceTarget : String := "P99 < 100ms"
  availabilityTarget : String := "99.99%"

structure Payload where
  summary : String
  source : String
  severity : IncidentSeverity
  component : String
  group : String
  «class» : String
  timestamp : String
  customDetails : CustomDetails

structure PagerDutyIncidentEvent where
  routingKey : String
  eventAction : String := "trigger"
  dedupKey : String
  payload : Payload
  links : List (String × String)

structure Canary where
  analysisWindowMinutes : ℕ
  successCriteria : List String
  rollbackCriteria : List String

structure AutomationPlan where
  incidentId : String
  runbook : RunbookDefinition
  pagerDutyEvent : PagerDutyIncidentEvent
  canary : Canary

/-- What the automation is made with: the options, the expressions that the patterns refer to, and
the first 32 digits of the hash of a text. -/
structure Options where
  pagerDutyRoutingKey : String
  runbooks : List RunbookDefinition
  patterns : ℕ → JsRegExp
  digest : String → String

/-- The `lastIndex` of every pattern. -/
abbrev Indices := ℕ → ℕ

section Matching

variable (o : Options)

/-- `pattern.test(text)`. -/
def testPattern (pattern : ℕ) (text : String) (indices : Indices) : Bool × Indices :=
  let (found, lastIndex) := (o.patterns pattern).test (JsString.utf16 text) (indices pattern)
  (found, Function.update indices pattern lastIndex)

/-- The `find` of `matchRunbook`. -/
def findRunbook (signal : IncidentSignal) :
    List RunbookDefinition → Indices → Option RunbookDefinition × Indices
  | [], indices => (none, indices)
  | candidate :: candidates, indices =>
    let (service, indices) := testPattern o candidate.servicePattern signal.service indices
    if service then
      let (metric, indices) := testPattern o candidate.metricPattern signal.metric indices
      if metric then (some candidate, indices) else findRunbook signal candidates indices
    else findRunbook signal candidates indices

def matchRunbook (signal : IncidentSignal) (indices : Indices) :
    Except String RunbookDefinition × Indices :=
  match findRunbook o signal o.runbooks indices with
  | (some runbook, indices) => (.ok runbook, indices)
  | (none, indices) =>
    (.error ("No incident runbook matches service=" ++ signal.service ++ " metric=" ++
      signal.metric), indices)

end Matching

section Plans

/-- `signal.labels?.region ?? 'global'`. -/
def IncidentSignal.region (signal : IncidentSignal) : String :=
  (signal.labels.bind (·.get "region")).getD "global"

def incidentIdFor (digest : String → String) (signal : IncidentSignal) (runbookId : String) :
    String :=
  "incident:" ++ digest (Separated.join '|'
    [signal.service, signal.metric, signal.severity.text, runbookId, signal.region])

def buildPagerDutyEvent (routingKey incidentId : String) (runbook : RunbookDefinition)
    (signal : IncidentSignal) (observedAt : JsDate) : PagerDutyIncidentEvent where
  routingKey := routingKey
  dedupKey := incidentId
  payload := {
    summary := signal.service ++ ": " ++ signal.summary
    source := "verinode-incident-automation"
    severity := signal.severity
    component := signal.service
    group := runbook.escalationPolicy
    «class» := signal.metric
    timestamp := observedAt.toISOString
    customDetails := {
      runbookId := runbook.id
      runbookTitle := runbook.title
      metric := signal.metric
      value := signal.value
      threshold := signal.threshold
      labels := signal.labels.getD OrdMap.empty
      automationStepCount := runbook.steps.length } }
  links := [(runbook.dashboardUrl, runbook.title ++ " dashboard")]

def canary : Canary where
  analysisWindowMinutes := 15
  successCriteria :=
    ["critical path P99 latency remains below 100ms",
      "error rate does not increase above the pre-incident baseline",
      "automated remediation completes every runbook step or halts safely"]
  rollbackCriteria :=
    ["P99 latency exceeds 100ms for two consecutive analysis windows",
      "PagerDuty deduplication key receives a second critical trigger",
      "any runbook rollback command reports failure"]

variable (o : Options)

def plan (now : JsDate) (signal : IncidentSignal) (indices : Indices) :
    Except String AutomationPlan × Indices :=
  match matchRunbook o signal indices with
  | (.error e, indices) => (.error e, indices)
  | (.ok runbook, indices) =>
    let incidentId := incidentIdFor o.digest signal runbook.id
    (.ok {
      incidentId
      runbook
      pagerDutyEvent := buildPagerDutyEvent o.pagerDutyRoutingKey incidentId runbook signal
        (signal.observedAt.getD now)
      canary }, indices)

/-- What `trigger` answers with, when its plan is made and its event has been sent. -/
def trigger (made : Except String AutomationPlan) (sent : Except String Unit) :
    Except String AutomationPlan :=
  match made with
  | .error e => .error e
  | .ok made => sent.map fun _ => made

end Plans

section Calls

/-- A call of `plan`, or of `trigger` with what sending its event comes to. -/
structure Call where
  signal : IncidentSignal
  now : JsDate
  sent : Option (Except String Unit) := none

/-- A call that has been made: what it has planned, and what it answers with. -/
structure Planned where
  signal : IncidentSignal
  result : Except String AutomationPlan
  answer : Except String AutomationPlan

structure State where
  indices : Indices
  planned : List Planned

def step (o : Options) (s : State) (call : Call) : Option State :=
  let (result, indices) := plan o call.now call.signal s.indices
  let answer :=
    match call.sent with
    | none => result
    | some sent => trigger result sent
  some { indices, planned := s.planned ++ [⟨call.signal, result, answer⟩] }

/-- The calls of an automation, whose patterns have not been used before. -/
def system (o : Options) : Sys State Call where
  init s := s = ⟨fun _ => 0, []⟩
  step := step o

end Calls

end Incident

end VeriNode
