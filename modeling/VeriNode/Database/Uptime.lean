import VeriNode.Lib.Averages
import VeriNode.Lib.JsDate
import VeriNode.Lib.JsNumber
import VeriNode.Lib.Json
import Mathlib.Data.List.Sort
import Mathlib.Data.Rat.Floor

/-!
# Uptime queries

The read paths of `src/database/uptime_queries.ts` over the rows of `uptime_heartbeat`, and the view
`uptime_hourly_agg` of `timescale_uptime.sql` as the query that defines it. Times are microseconds,
averages exact. The write paths make statements whose placeholders stand for the values that are
bound to them.
-/

namespace VeriNode

namespace Uptime

open Groups

section Data

structure Heartbeat where
  time : ℤ
  nodeId : String
  sourceIp : Option String := none
  latencyMs : ℚ
  status : String := "up"
  uptimePct : ℚ := 100
  blockHeight : Option ℤ := none
  extra : Option String := none
deriving DecidableEq

structure HourlyAggregateRow where
  bucket : ℤ
  nodeId : String
  avgLatencyMs : ℚ
  p50LatencyMs : ℚ
  p95LatencyMs : ℚ
  p99LatencyMs : ℚ
  avgUptimePct : ℚ
  heartbeatCount : ℕ
  upCount : ℕ
  degradedCount : ℕ
  downCount : ℕ
deriving DecidableEq

structure UptimeMetrics where
  nodeId : String
  avgLatencyMs : ℚ
  p50LatencyMs : ℚ
  p95LatencyMs : ℚ
  p99LatencyMs : ℚ
  avgUptimePct : ℚ
  heartbeatCount : ℕ
  upCount : ℕ
  degradedCount : ℕ
  downCount : ℕ
deriving DecidableEq

/-- `RawQueryParams` and `AggregateParams`. -/
structure Params where
  nodeIds : Option (List String) := none
  startTime : ℤ
  endTime : ℤ
  limit : ℕ := 500
  offset : ℕ := 0

end Data

section View

/-- An hour. -/
def hour : ℤ := 3600 * 1000000

/-- `time_bucket('1 hour', time)`. -/
def timeBucket (time : ℤ) : ℤ := time / hour * hour

/-- `percentile_cont(fraction) WITHIN GROUP (ORDER BY …)`. -/
def percentileCont (fraction : ℚ) (values : List ℚ) : ℚ :=
  let sorted := values.insertionSort (· ≤ ·)
  let position := fraction * (values.length - 1)
  let first := sorted.getD position.floor.toNat 0
  let second := sorted.getD position.ceil.toNat 0
  first + (position - position.floor) * (second - first)

/-- `COUNT(*) FILTER (WHERE status = …)`. -/
def countStatus (status : String) (rows : List Heartbeat) : ℕ :=
  (rows.filter (·.status = status)).length

def hourlyRow (key : ℤ × String) (rows : List Heartbeat) : HourlyAggregateRow where
  bucket := key.1
  nodeId := key.2
  avgLatencyMs := avg (rows.map (·.latencyMs))
  p50LatencyMs := percentileCont (1 / 2) (rows.map (·.latencyMs))
  p95LatencyMs := percentileCont (95 / 100) (rows.map (·.latencyMs))
  p99LatencyMs := percentileCont (99 / 100) (rows.map (·.latencyMs))
  avgUptimePct := avg (rows.map (·.uptimePct))
  heartbeatCount := rows.length
  upCount := countStatus "up" rows
  degradedCount := countStatus "degraded" rows
  downCount := countStatus "down" rows

/-- `GROUP BY bucket, node_id`. -/
def bucketNode (h : Heartbeat) : ℤ × String := (timeBucket h.time, h.nodeId)

def uptimeHourlyAgg (table : List Heartbeat) : List HourlyAggregateRow :=
  groupBy bucketNode hourlyRow table

end View

section Queries

/-- `AND node_id IN (…)`, if there are any ids. -/
def selected (p : Params) (nodeId : String) : Bool :=
  match p.nodeIds with
  | none => true
  | some ids => ids = [] || nodeId ∈ ids

/-- `LIMIT … OFFSET …`. -/
def page {α : Type*} (p : Params) (rows : List α) : List α := (rows.drop p.offset).take p.limit

def queryRawHeartbeats (p : Params) (table : List Heartbeat) : List Heartbeat :=
  page p ((table.filter fun h =>
    p.startTime ≤ h.time && h.time ≤ p.endTime && selected p h.nodeId).insertionSort
      fun a b => b.time ≤ a.time)

/-- The buckets of the window. -/
def inWindow (p : Params) (r : HourlyAggregateRow) : Bool :=
  p.startTime ≤ r.bucket && r.bucket ≤ p.endTime && selected p r.nodeId

def queryHourlyAggregates (p : Params) (table : List Heartbeat) : List HourlyAggregateRow :=
  page p (((uptimeHourlyAgg table).filter (inWindow p)).insertionSort
    fun a b => b.bucket ≤ a.bucket)

def metricsRow (nodeId : String) (rows : List HourlyAggregateRow) : UptimeMetrics where
  nodeId := nodeId
  avgLatencyMs := avg (rows.map (·.avgLatencyMs))
  p50LatencyMs := avg (rows.map (·.p50LatencyMs))
  p95LatencyMs := avg (rows.map (·.p95LatencyMs))
  p99LatencyMs := avg (rows.map (·.p99LatencyMs))
  avgUptimePct := avg (rows.map (·.avgUptimePct))
  heartbeatCount := (rows.map (·.heartbeatCount)).sum
  upCount := (rows.map (·.upCount)).sum
  degradedCount := (rows.map (·.degradedCount)).sum
  downCount := (rows.map (·.downCount)).sum

def queryDashboardMetrics (p : Params) (table : List Heartbeat) : List UptimeMetrics :=
  (groupBy (·.nodeId) metricsRow ((uptimeHourlyAgg table).filter (inWindow p))).insertionSort
    fun a b => b.avgLatencyMs ≤ a.avgLatencyMs

end Queries

section Writes

inductive HeartbeatStatus
  | up
  | degraded
  | down
deriving DecidableEq

structure UpsertHeartbeatParams (ν : Type) where
  time : JsDate
  nodeId : String
  sourceIp : Option String := none
  latencyMs : JsNumber
  status : HeartbeatStatus
  uptimePct : JsNumber
  blockHeight : Option JsNumber := none
  extra : Option (Json ν) := none

/-- A value that is bound to a placeholder. -/
inductive Bound
  | null
  | text (value : String)
  | number (value : JsNumber)
deriving DecidableEq

/-- `$index`, with a cast or without one. -/
structure Placeholder where
  index : ℕ
  cast : String := ""
deriving DecidableEq

/-- An `INSERT` into `uptime_heartbeat` of rows of placeholders. -/
structure Statement where
  rows : List (List Placeholder)
  values : List Bound
deriving DecidableEq

def Placeholder.text (p : Placeholder) : String := "$" ++ toString p.index ++ p.cast

def Statement.text (st : Statement) : String :=
  "INSERT INTO uptime_heartbeat (time, node_id, source_ip, latency_ms, status, uptime_pct, " ++
    "block_height, extra) VALUES " ++
    ", ".intercalate (st.rows.map fun row => "(" ++ ", ".intercalate (row.map (·.text)) ++ ")")

def HeartbeatStatus.text : HeartbeatStatus → String
  | .up => "up"
  | .degraded => "degraded"
  | .down => "down"

variable {ν : Type} [JsonNumber ν]

/-- The eight values of a heartbeat. -/
def heartbeatValues (hb : UpsertHeartbeatParams ν) : List Bound :=
  [.text hb.time.toISOString, .text hb.nodeId, (hb.sourceIp.map .text).getD .null,
    .number hb.latencyMs, .text hb.status.text, .number hb.uptimePct,
    (hb.blockHeight.map .number).getD .null,
    (hb.extra.map fun extra => .text extra.stringify).getD .null]

/-- The placeholders of a row, from an index on. -/
def rowAt (idx : ℕ) : List Placeholder :=
  [⟨idx, ""⟩, ⟨idx + 1, ""⟩, ⟨idx + 2, "::inet"⟩, ⟨idx + 3, ""⟩, ⟨idx + 4, ""⟩, ⟨idx + 5, ""⟩,
    ⟨idx + 6, ""⟩, ⟨idx + 7, "::jsonb"⟩]

/-- `UPSERT_HEARTBEAT_SQL`, with the values of the heartbeat. -/
def insertHeartbeat (hb : UpsertHeartbeatParams ν) : Statement := ⟨[rowAt 1], heartbeatValues hb⟩

structure Batch where
  values : List Bound := []
  placeholders : List (List Placeholder) := []
  idx : ℕ := 1

def Batch.push (b : Batch) (hb : UpsertHeartbeatParams ν) : Batch where
  values := b.values ++ heartbeatValues hb
  placeholders := b.placeholders ++ [rowAt b.idx]
  idx := b.idx + 8

/-- The statements of `insertHeartbeatBatch` between the `BEGIN` and the `COMMIT`. -/
def insertHeartbeatBatch (heartbeats : List (UpsertHeartbeatParams ν)) : List Statement :=
  if heartbeats.isEmpty then []
  else
    let b := heartbeats.foldl Batch.push {}
    [⟨b.placeholders, b.values⟩]

end Writes

section Execution

/-- What the placeholders of a row stand for, with their casts. -/
def denote (values : List Bound) (row : List Placeholder) : Option (List (String × Bound)) :=
  row.mapM fun p => (values[p.index - 1]?).map fun value => (p.cast, value)

/-- The most parameters a statement can have: the protocol counts them in sixteen bits. -/
def maxParameters : ℕ := 65535

variable {Row : Type}

/-- A table after a statement, where `convert` makes a row of what is inserted, or refuses it. -/
def execute (convert : List (String × Bound) → Option Row) (table : List Row) (st : Statement) :
    Option (List Row) :=
  if maxParameters < st.values.length then none
  else (st.rows.mapM fun row => (denote st.values row).bind convert).map (table ++ ·)

end Execution

end Uptime

end VeriNode
