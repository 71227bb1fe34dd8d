import VeriNode.Lib.JsNumber

/-!
# Recovery across regions

The coordinator is given the status of every region. It looks for risks of the primary and for the
standby regions that could take its place, and decides whether one of them is promoted. The clock
is read as one time during a decision.
-/

namespace VeriNode

namespace Replication

inductive RegionRole
  | primary
  | standby
deriving DecidableEq

inductive RegionHealth
  | healthy
  | degraded
  | unhealthy
deriving DecidableEq

structure RegionStatus where
  name : String
  role : RegionRole
  health : RegionHealth
  replicationLagMs : JsNumber
  p99LatencyMs : JsNumber
  lastHeartbeatAt : JsNumber
  priority : JsNumber
deriving DecidableEq

structure DisasterRecoveryPolicy where
  maxReplicationLagMs : JsNumber := 5000
  maxCriticalPathP99Ms : JsNumber := 100
  heartbeatTimeoutMs : JsNumber := 15000
  minHealthyStandbyRegions : ℕ := 1

inductive FailoverAction
  | none
  | promoteStandby
  | haltWrites
deriving DecidableEq

inductive Reason
  | standbyCount (healthy required : ℕ)
  | health (status : RegionHealth)
  | replicationLag (lag limit : JsNumber)
  | p99Latency (latency limit : JsNumber)
  | heartbeat
deriving DecidableEq

def RegionHealth.text : RegionHealth → String
  | .healthy => "healthy"
  | .degraded => "degraded"
  | .unhealthy => "unhealthy"

/-- The text of a reason, in which numbers are printed as the language prints them. -/
def Reason.text (number : JsNumber → String) : Reason → String
  | .standbyCount healthy required =>
    "healthy standby count " ++ number (.ofNat healthy) ++ " below required " ++
      number (.ofNat required)
  | .health status => "primary health is " ++ status.text
  | .replicationLag lag limit =>
    "replication lag " ++ number lag ++ "ms exceeds " ++ number limit ++ "ms"
  | .p99Latency latency limit =>
    "p99 latency " ++ number latency ++ "ms exceeds " ++ number limit ++ "ms"
  | .heartbeat => "primary heartbeat timed out"

structure FailoverDecision where
  action : FailoverAction
  fromRegion : Option String := Option.none
  toRegion : Option String := Option.none
  reasons : List Reason
  writeSafe : Bool
deriving DecidableEq

def requireSinglePrimary (regions : List RegionStatus) : Except String RegionStatus :=
  match regions.filter (·.role = .primary) with
  | [primary] => .ok primary
  | primaries =>
    .error s!"expected exactly one primary region, found {primaries.length}"

def findRegionRisks (policy : DisasterRecoveryPolicy) (now : JsNumber) (region : RegionStatus) :
    List Reason :=
  (if region.health ≠ .healthy then [.health region.health] else []) ++
  (if policy.maxReplicationLagMs.lt region.replicationLagMs then
    [.replicationLag region.replicationLagMs policy.maxReplicationLagMs] else []) ++
  (if policy.maxCriticalPathP99Ms.lt region.p99LatencyMs then
    [.p99Latency region.p99LatencyMs policy.maxCriticalPathP99Ms] else []) ++
  (if policy.heartbeatTimeoutMs.lt (now.sub region.lastHeartbeatAt) then [.heartbeat] else [])

def isPromotionCandidate (policy : DisasterRecoveryPolicy) (now : JsNumber)
    (region : RegionStatus) : Bool :=
  region.health = .healthy && region.replicationLagMs.le policy.maxReplicationLagMs &&
    region.p99LatencyMs.le policy.maxCriticalPathP99Ms &&
    (now.sub region.lastHeartbeatAt).le policy.heartbeatTimeoutMs

/-- `a.priority - b.priority || a.replicationLagMs - b.replicationLagMs`. -/
def compareRegions (a b : RegionStatus) : JsNumber :=
  let byPriority := a.priority.sub b.priority
  if byPriority = .nan ∨ byPriority = 0 then a.replicationLagMs.sub b.replicationLagMs
  else byPriority

/-- The comparison puts a region before another: its answer is negative. -/
def Before (a b : RegionStatus) : Prop := (compareRegions a b).lt 0 = true

instance : DecidableRel Before := fun _ _ => inferInstanceAs (Decidable (_ = true))

def candidates (policy : DisasterRecoveryPolicy) (now : JsNumber) (regions : List RegionStatus) :
    List RegionStatus :=
  (regions.filter (·.role = .standby)).filter (isPromotionCandidate policy now)

/-- `evaluate`, where `sort` is how the language sorts regions by `compareRegions`. -/
def evaluate (sort : List RegionStatus → List RegionStatus) (policy : DisasterRecoveryPolicy)
    (now : JsNumber) (regions : List RegionStatus) : Except String FailoverDecision := do
  let primary ← requireSinglePrimary regions
  let unhealthyReasons := findRegionRisks policy now primary
  let healthyStandbyRegions := sort (candidates policy now regions)
  if healthyStandbyRegions.length < policy.minHealthyStandbyRegions then
    return {
      action := .haltWrites
      fromRegion := some primary.name
      reasons := .standbyCount healthyStandbyRegions.length policy.minHealthyStandbyRegions ::
        unhealthyReasons
      writeSafe := false }
  else if unhealthyReasons ≠ [] then
    match healthyStandbyRegions.head? with
    | some region =>
      return {
        action := .promoteStandby
        fromRegion := some primary.name
        toRegion := some region.name
        reasons := unhealthyReasons
        writeSafe := true }
    | Option.none => throw "Cannot read properties of undefined (reading 'name')"
  else
    return { action := .none, reasons := [], writeSafe := true }

end Replication

end VeriNode
