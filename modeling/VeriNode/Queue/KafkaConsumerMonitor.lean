import Mathlib.Algebra.Order.Floor.Defs
import Mathlib.Data.Rat.Floor
import VeriNode.Lib.JsNumber
import VeriNode.Lib.Pieces

/-!
# Watching consumer groups

`KafkaConsumerMonitor` of `src/queue/kafka_consumer_monitor.ts`: what a check makes of the metrics
of a group, and whether it tells the listeners. A lag is a rational number, and what is computed of
lags is exact. What the broker says of a partition besides its topic and its lag, the timer, and
what is logged are left out.
-/

namespace VeriNode

namespace KafkaConsumerMonitor

inductive ConsumerGroupStatus
  | healthy
  | warning
  | critical
deriving DecidableEq

structure ConsumerGroupMetrics where
  topic : String
  lag : ℚ
deriving DecidableEq

structure ConsumerGroupSummary where
  groupId : String
  topic : String
  totalLag : ℚ
  maxLag : ℚ
  avgLag : ℤ
  partitionCount : ℕ
  laggingPartitions : ℕ
  status : ConsumerGroupStatus
  members : ℕ
  timestamp : ℕ
deriving DecidableEq

/-- `KafkaConsumerMonitorConfig`, with `DEFAULT_CONFIG`. -/
structure Config where
  lagWarningThreshold : JsNumber := 1000
  lagCriticalThreshold : JsNumber := 10000
  partitionLagWarningThreshold : JsNumber := 500
  partitionLagCriticalThreshold : JsNumber := 5000

/-- What the admin client says of a group: its metrics, and how many members it has. -/
structure Answer where
  metrics : List ConsumerGroupMetrics
  members : ℕ
deriving DecidableEq

abbrev Summaries := OrdMap String ConsumerGroupSummary

/-- What the listeners are told: the summary, and the one before. -/
abbrev Change := ConsumerGroupSummary × Option ConsumerGroupSummary

section Functions

variable (o : Config)

def determineStatus (totalLag maxLag : ℚ) (laggingPartitions partitionCount : ℕ) :
    ConsumerGroupStatus :=
  if o.lagCriticalThreshold.le (.fin totalLag) || o.partitionLagCriticalThreshold.le (.fin maxLag)
  then .critical
  else if o.lagWarningThreshold.le (.fin totalLag) ||
    o.partitionLagWarningThreshold.le (.fin maxLag) ||
      0 < partitionCount && partitionCount < 2 * laggingPartitions then .warning
  else .healthy

/-- The partitions, topic by topic. -/
def partitions (metrics : List ConsumerGroupMetrics) : List ConsumerGroupMetrics :=
  (Pieces.groups ConsumerGroupMetrics.topic metrics).entries.flatMap Prod.snd

/-- What `checkGroup` makes of the answer. -/
def summarize (groupId : String) (answer : Answer) (now : ℕ) : ConsumerGroupSummary :=
  let lags := (partitions answer.metrics).map (·.lag)
  let totalLag := lags.foldl (· + ·) 0
  let maxLag := lags.foldl max 0
  let partitionCount := lags.length
  let laggingCount := lags.countP fun lag => o.partitionLagWarningThreshold.lt (.fin lag)
  { groupId
    topic := String.intercalate "," (Pieces.groups ConsumerGroupMetrics.topic answer.metrics).keys
    totalLag
    maxLag
    avgLag := if 0 < partitionCount then ⌊totalLag / partitionCount + 1 / 2⌋ else 0
    partitionCount
    laggingPartitions := laggingCount
    status := determineStatus o totalLag maxLag laggingCount partitionCount
    members := answer.members
    timestamp := now }

/-- Whether the listeners are told. -/
def changed (previous : Option ConsumerGroupSummary) (summary : ConsumerGroupSummary) : Bool :=
  match previous with
  | none => true
  | some previous =>
    previous.status ≠ summary.status ||
      o.lagWarningThreshold.lt (.fin |previous.totalLag - summary.totalLag|)

/-- `checkGroup`: the summary, what is kept, and what the listeners are told, if they are. -/
def checkGroup (groupId : String) (answer : Answer) (now : ℕ) (summaries : Summaries) :
    ConsumerGroupSummary × Summaries × Option Change :=
  let summary := summarize o groupId answer now
  let previous := summaries.get groupId
  (summary, summaries.set groupId summary,
    if changed o previous summary then some (summary, previous) else none)

/-- `checkAllGroups`, for the groups that are listed and what is answered of each, if the client
does not fail: the summaries, those that are kept, and what the listeners are told. -/
def checkAllGroups (now : ℕ) : List (String × Option Answer) → Summaries →
    List ConsumerGroupSummary × Summaries × List Change
  | [], summaries => ([], summaries, [])
  | (_, none) :: groups, summaries => checkAllGroups now groups summaries
  | (groupId, some answer) :: groups, summaries =>
    let (summary, summaries, change) := checkGroup o groupId answer now summaries
    let (results, summaries, changes) := checkAllGroups now groups summaries
    (summary :: results, summaries, change.toList ++ changes)

end Functions

end KafkaConsumerMonitor

end VeriNode
