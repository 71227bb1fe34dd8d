import Mathlib.Data.List.Sort
import VeriNode.Lib.Decimal
import VeriNode.Lib.JsNumber
import VeriNode.Lib.JsString
import VeriNode.Lib.OrdMap
import VeriNode.Lib.Run
import VeriNode.Lib.Separated

/-!
# Capacity planning

The planner keeps what has been recorded of each resource of a service, in the order of time, under
a key made of both names. A forecast takes the trend of what is kept, and `forecastAll` reads the
names back out of the keys. What has been validated is a rational number, and the arithmetic is
exact.
-/

namespace VeriNode

namespace Capacity

inductive CapacityResource
  | cpu
  | memory
  | storage
  | requests
  | latency
deriving DecidableEq

def CapacityResource.text : CapacityResource → String
  | .cpu => "cpu"
  | .memory => "memory"
  | .storage => "storage"
  | .requests => "requests"
  | .latency => "latency"

structure UsageSample where
  service : String
  resource : CapacityResource
  value : JsNumber
  capacity : JsNumber
  timestamp : JsNumber
deriving DecidableEq

/-- A sample that has been validated. -/
structure Usage where
  service : String
  resource : CapacityResource
  value : ℚ
  capacity : ℚ
  timestamp : ℚ
  value_nonneg : 0 ≤ value
  capacity_pos : 0 < capacity

inductive Level
  | healthy
  | watch
  | scale
  | critical
deriving DecidableEq

structure CapacityForecast where
  /-- The names, as they have been read from a key. -/
  service : String
  resource : String
  currentUtilizationPercent : ℚ
  projectedUtilizationPercent : ℚ
  projectedValue : ℚ
  daysToExhaustion : Option ℚ
  growthPerDay : ℚ
  confidence : ℚ
  level : Level
  recommendation : String
deriving DecidableEq

structure Options where
  retentionDays : ℚ := 90
  forecastDays : ℚ := 30
  watchUtilizationPercent : ℚ := 70
  scaleUtilizationPercent : ℚ := 85
  criticalUtilizationPercent : ℚ := 95
  minSamplesForTrend : ℚ := 3

def dayMs : ℚ := 24 * 60 * 60 * 1000

abbrev Samples := OrdMap String (List Usage)

def key (service resource : String) : String := service ++ "|" ++ resource

section Recording

/-- A finite number of the kind that is asked for. -/
def checked (p : ℚ → Prop) [DecidablePred p] (message : String) : JsNumber →
    Except String {q : ℚ // p q}
  | .fin q => if h : p q then .ok ⟨q, h⟩ else .error message
  | _ => .error message

def validateSample (sample : UsageSample) : Except String Usage := do
  if JsString.isBlank sample.service then throw "service is required"
  let value ← checked (0 ≤ ·) "value must be a non-negative number" sample.value
  let capacity ← checked (0 < ·) "capacity must be greater than zero" sample.capacity
  let timestamp ← checked (fun _ => True) "timestamp must be finite" sample.timestamp
  return ⟨sample.service, sample.resource, value, capacity, timestamp, value.2, capacity.2⟩

def retain (o : Options) (now : ℚ) (entry : Usage) (history : List Usage) : List Usage :=
  let cutoff := now - o.retentionDays * dayMs
  (history.filter (cutoff ≤ ·.timestamp) ++ [entry]).insertionSort (·.timestamp ≤ ·.timestamp)

def record (o : Options) (now : ℚ) (sample : UsageSample) (samples : Samples) :
    Except String Samples :=
  (validateSample sample).map fun entry =>
    let k := key entry.service entry.resource.text
    samples.set k (retain o now entry ((samples.get k).getD []))

/-- A call of `record`, at a time of the planner's clock. -/
structure Call where
  now : ℚ
  sample : UsageSample

/-- Calls of `record`; one that throws records nothing. -/
def planner (o : Options) : Sys Samples Call where
  init samples := samples = ∅
  step samples c := some ((record o c.now c.sample samples).toOption.getD samples)

end Recording

section Trend

def mean (l : List ℚ) : ℚ := l.sum / l.length

def variance (xs : List ℚ) : ℚ := (xs.map fun x => (x - mean xs) ^ 2).sum

def covariance (xs ys : List ℚ) : ℚ :=
  ((xs.zip ys).map fun p => (p.1 - mean xs) * (p.2 - mean ys)).sum

def total (ys : List ℚ) : ℚ := (ys.map fun y => (y - mean ys) ^ 2).sum

def residual (slopePerDay : ℚ) (xs ys : List ℚ) : ℚ :=
  ((xs.zip ys).map fun p => (p.2 - (mean ys + slopePerDay * (p.1 - mean xs))) ^ 2).sum

structure Trend where
  slopePerDay : ℚ
  confidence : ℚ
deriving DecidableEq

def trendOf (xs ys : List ℚ) : Trend :=
  if variance xs = 0 then ⟨0, 0⟩
  else
    let slopePerDay := covariance xs ys / variance xs
    ⟨slopePerDay,
      if total ys = 0 then 1 else max 0 (min 1 (1 - residual slopePerDay xs ys / total ys))⟩

/-- The days since the first sample. -/
def days (history : List Usage) : List ℚ :=
  history.map fun sample =>
    (sample.timestamp - (history.head?.map (·.timestamp)).getD 0) / dayMs

def calculateTrend (history : List Usage) : Trend :=
  if history.length < 2 then ⟨0, 0⟩ else trendOf (days history) (history.map (·.value))

end Trend

section Forecasting

def utilization (value capacity : ℚ) : ℚ := value / capacity * 100

def levelFor (o : Options) (utilizationPercent : ℚ) (daysToExhaustion : Option ℚ) : Level :=
  if o.criticalUtilizationPercent ≤ utilizationPercent ∨ daysToExhaustion.any (· ≤ 7) then
    .critical
  else if o.scaleUtilizationPercent ≤ utilizationPercent ∨ daysToExhaustion.any (· ≤ 30) then
    .scale
  else if o.watchUtilizationPercent ≤ utilizationPercent then .watch
  else .healthy

def recommend (level : Level) (resource : String) (daysToExhaustion : Option ℚ) : String :=
  match level with
  | .critical =>
    "Urgently add " ++ resource ++ " capacity or shed load; projected exhaustion in "
      ++ (daysToExhaustion.map (Decimal.toFixed 1)).getD "unknown" ++ " days."
  | .scale =>
    "Schedule blue-green capacity expansion for " ++ resource
      ++ " and validate with canary analysis."
  | .watch =>
    "Monitor " ++ resource ++ " growth and prepare scaling runbook if trend continues."
  | .healthy => resource ++ " capacity is within target bounds."

/-- The forecast of a history whose latest sample is given. -/
def forecastOf (o : Options) (service resource : String) (forecastDays : ℚ)
    (history : List Usage) (latest : Usage) : CapacityForecast :=
  let trend := calculateTrend history
  let growthPerDay := if o.minSamplesForTrend ≤ history.length then trend.slopePerDay else 0
  let projectedValue := max 0 (latest.value + growthPerDay * forecastDays)
  let currentUtilizationPercent := utilization latest.value latest.capacity
  let projectedUtilizationPercent := utilization projectedValue latest.capacity
  let daysToExhaustion :=
    if 0 < growthPerDay then some (max 0 ((latest.capacity - latest.value) / growthPerDay))
    else none
  let level := levelFor o (max currentUtilizationPercent projectedUtilizationPercent)
    daysToExhaustion
  { service, resource, currentUtilizationPercent, projectedUtilizationPercent, projectedValue,
    daysToExhaustion, growthPerDay
    confidence := if o.minSamplesForTrend ≤ history.length then trend.confidence else 0
    level
    recommendation := recommend level resource daysToExhaustion }

def forecast (o : Options) (service resource : String) (forecastDays : ℚ) (samples : Samples) :
    Option CapacityForecast :=
  let history := (samples.get (key service resource)).getD []
  history.getLast?.map (forecastOf o service resource forecastDays history)

def Level.number : Level → ℚ
  | .healthy => 0
  | .watch => 1
  | .scale => 2
  | .critical => 3

def rank (f : CapacityForecast) : ℚ := f.level.number * 1000 + f.projectedUtilizationPercent

def forecastKey (o : Options) (forecastDays : ℚ) (samples : Samples) (k : String) :
    Option CapacityForecast :=
  match Separated.split '|' k with
  | service :: resource :: _ => forecast o service resource forecastDays samples
  | _ => none

def forecastAll (o : Options) (forecastDays : ℚ) (samples : Samples) : List CapacityForecast :=
  (samples.keys.filterMap (forecastKey o forecastDays samples)).insertionSort
    fun a b => rank b ≤ rank a

end Forecasting

end Capacity

end VeriNode
