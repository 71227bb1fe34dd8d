import Mathlib.Data.List.Sort
import VeriNode.Lib.JsNumber
import VeriNode.Lib.JsString

/-!
# Burn rates of an error budget

The monitor compares how fast each window burns the error budget of an objective with the thresholds
of the window, and calls the alert sink when one is reached. Numbers that have passed the checks are
rational, and the arithmetic is exact.
-/

namespace VeriNode

namespace Slo

inductive SloStatus
  | healthy
  | warning
  | critical
deriving DecidableEq

structure SloObjective where
  id : String
  service : String
  target : ℚ
  windowDays : ℚ
deriving DecidableEq

structure SloWindowSample where
  window : String
  goodEvents : JsNumber
  totalEvents : JsNumber
deriving DecidableEq

/-- A threshold, of a severity that is not `healthy`. -/
structure BurnRateThreshold where
  window : String
  burnRate : ℚ
  severity : SloStatus
  not_healthy : severity ≠ .healthy
deriving DecidableEq

structure SloWindow where
  sample : SloWindowSample
  errorRate : ℚ
  burnRate : ℚ
  exhaustedInHours : Option ℚ
  severity : SloStatus
deriving DecidableEq

/-- A window whose severity is not `healthy`. -/
structure Violated where
  window : String
  burnRate : ℚ
  severity : SloStatus
deriving DecidableEq

structure SloEvaluation where
  objective : SloObjective
  status : SloStatus
  errorBudgetRemaining : ℚ
  errorBudgetSpent : ℚ
  windows : List SloWindow
  violatedThresholds : List Violated
  evaluatedAt : ℤ
deriving DecidableEq

section Checks

def assertObjective (objective : SloObjective) : Except String Unit := do
  if JsString.isBlank objective.id then throw "SLO objective id is required"
  if JsString.isBlank objective.service then throw "SLO service is required"
  if objective.target ≤ 0 ∨ 1 ≤ objective.target then
    throw "SLO target must be a ratio greater than 0 and less than 1"
  if objective.windowDays ≤ 0 then throw "SLO windowDays must be positive"

/-- A number that is finite; the others do not pass the check. -/
def events : JsNumber → ℚ
  | .fin q => q
  | _ => 0

def isFinite : JsNumber → Bool
  | .fin _ => true
  | _ => false

def assertSample (sample : SloWindowSample) : Except String Unit := do
  if JsString.isBlank sample.window then throw "SLO sample window is required"
  if !isFinite sample.goodEvents || !isFinite sample.totalEvents then
    throw "SLO sample events must be finite numbers"
  if events sample.goodEvents < 0 ∨ events sample.totalEvents < 0 then
    throw "SLO sample events cannot be negative"
  if events sample.totalEvents < events sample.goodEvents then
    throw "SLO goodEvents cannot exceed totalEvents"

end Checks

section Evaluation

def rankSeverity : SloStatus → ℕ
  | .critical => 2
  | .warning => 1
  | .healthy => 0

def evaluateWindow (thresholds : List BurnRateThreshold) (objective : SloObjective)
    (sample : SloWindowSample) : SloWindow :=
  let allowedErrorRate := 1 - objective.target
  let errorEvents := events sample.totalEvents - events sample.goodEvents
  let errorRate :=
    if events sample.totalEvents = 0 then 0 else errorEvents / events sample.totalEvents
  let burnRate := if allowedErrorRate = 0 then 0 else errorRate / allowedErrorRate
  let threshold :=
    ((thresholds.filter fun candidate =>
      candidate.window = sample.window ∧ candidate.burnRate ≤ burnRate).insertionSort
        fun a b => rankSeverity b.severity ≤ rankSeverity a.severity).head?
  { sample, errorRate, burnRate
    exhaustedInHours := if 0 < burnRate then some (objective.windowDays * 24 / burnRate) else none
    severity := (threshold.map (·.severity)).getD .healthy }

def budgetSpent (objective : SloObjective) (samples : List SloWindowSample) : ℚ :=
  let allowedErrorRate := 1 - objective.target
  let totalEvents := (samples.map fun sample => events sample.totalEvents).sum
  let totalGoodEvents := (samples.map fun sample => events sample.goodEvents).sum
  let aggregateErrorRate :=
    if totalEvents = 0 then 0 else (totalEvents - totalGoodEvents) / totalEvents
  if allowedErrorRate = 0 then 0 else aggregateErrorRate / allowedErrorRate

def highest (windows : List SloWindow) : SloStatus :=
  windows.foldl (fun highest window =>
    if rankSeverity highest < rankSeverity window.severity then window.severity else highest)
    .healthy

/-- What is computed of samples that have passed the checks. -/
def assess (thresholds : List BurnRateThreshold) (now : ℤ) (objective : SloObjective)
    (samples : List SloWindowSample) : SloEvaluation :=
  let evaluatedWindows := samples.map (evaluateWindow thresholds objective)
  let errorBudgetSpent := budgetSpent objective samples
  { objective
    status := highest evaluatedWindows
    errorBudgetRemaining := max 0 (1 - errorBudgetSpent)
    errorBudgetSpent
    windows := evaluatedWindows
    violatedThresholds := (evaluatedWindows.filter (·.severity ≠ .healthy)).map fun window =>
      ⟨window.sample.window, window.burnRate, window.severity⟩
    evaluatedAt := now }

end Evaluation

section Alerts

/-- How a call of the sink's `notify` ends: it returns, its promise is rejected, or it throws. -/
inductive Dispatch
  | returns
  | rejects (message : String)
  | throws (message : String)
deriving DecidableEq

inductive Attribute
  | text (value : String)
  | number (value : ℚ)
deriving DecidableEq

structure LogRecord where
  message : String
  attributes : List (String × Attribute)
deriving DecidableEq

def SloStatus.text : SloStatus → String
  | .healthy => "healthy"
  | .warning => "warning"
  | .critical => "critical"

/-- What a call of `evaluate` comes to, and what it does on the way. -/
structure Evaluated where
  result : Except String SloEvaluation
  notified : List SloEvaluation := []
  warnings : List LogRecord := []
  errors : List LogRecord := []

/-- `emitAlert`, after which the evaluation is returned. -/
def emitAlert (alertSink : Option Dispatch) (evaluation : SloEvaluation) : Evaluated :=
  let warned : LogRecord :=
    ⟨"SLO burn-rate threshold violated",
      [("slo_id", .text evaluation.objective.id), ("service", .text evaluation.objective.service),
        ("status", .text evaluation.status.text),
        ("error_budget_remaining", .number evaluation.errorBudgetRemaining)]⟩
  let notified := if alertSink.isSome then [evaluation] else []
  match alertSink with
  | none | some .returns => { result := .ok evaluation, notified, warnings := [warned] }
  | some (.rejects message) =>
    { result := .ok evaluation, notified, warnings := [warned]
      errors := [⟨"Failed to dispatch SLO burn-rate alert",
        [("slo_id", .text evaluation.objective.id), ("error.message", .text message)]⟩] }
  -- the sink is called before there is a promise to catch what it throws
  | some (.throws message) => { result := .error message, notified, warnings := [warned] }

def check (objective : SloObjective) (samples : List SloWindowSample) : Except String Unit := do
  assertObjective objective
  if samples.isEmpty then throw "At least one SLO window sample is required"
  samples.forM assertSample

def evaluate (thresholds : List BurnRateThreshold) (alertSink : Option Dispatch) (now : ℤ)
    (objective : SloObjective) (samples : List SloWindowSample) : Evaluated :=
  match check objective samples with
  | .error message => { result := .error message }
  | .ok _ =>
    let evaluation := assess thresholds now objective samples
    if evaluation.status ≠ .healthy then emitAlert alertSink evaluation
    else { result := .ok evaluation }

end Alerts

end Slo

end VeriNode
