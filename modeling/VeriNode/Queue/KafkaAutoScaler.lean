import VeriNode.Lib.Calls
import VeriNode.Lib.JsNumber
import VeriNode.Lib.OrdMap

/-!
# Scaling consumer groups

`KafkaAutoScaler` of `src/queue/kafka_auto_scaler.ts`: any number of evaluations of any groups,
interleaved at their two awaits, under one clock in milliseconds. Each `start` after a `stop` adds
a listener to the monitor, and none is ever removed, so a notification begins as many evaluations
as there have been such starts. The scaler may fail at any call. The text of a reason, what is
logged, and the callbacks of `onScale` are left out.
-/

namespace VeriNode

namespace KafkaAutoScaler

section Data

/-- `KafkaAutoScalerConfig`, with `DEFAULT_CONFIG`. -/
structure Config where
  minConsumers : ℤ := 1
  maxConsumers : ℤ := 20
  scaleUpThreshold : JsNumber := 1000
  scaleDownThreshold : JsNumber := 100
  scaleUpBy : ℤ := 2
  scaleDownBy : ℤ := 1
  cooldownPeriodMs : JsNumber := 60000
  maxConsecutiveScaleDowns : JsNumber := 3

inductive Direction
  | up
  | down
deriving DecidableEq

structure ScaleEvent where
  groupId : String
  direction : Direction
  «from» : ℤ
  «to» : ℤ
  timestamp : ℕ
deriving DecidableEq

/-- Where an evaluation stands. -/
inductive Stage
  /-- It waits for the scaler to count the consumers. -/
  | asking
  /-- It has the count. -/
  | counted (currentConsumers : ℤ)
  /-- It waits for the scaler to do what the event says; it has read the time of the last. -/
  | scaling (event : ScaleEvent) (lastScale : ℕ)
  | over
deriving DecidableEq

structure Evaluation where
  groupId : String
  totalLag : JsNumber
  stage : Stage
deriving DecidableEq

/-- A call of `scaleConsumerGroup`, and whether the auto-scaler runs when it is made. -/
structure Request where
  event : ScaleEvent
  isRunning : Bool
deriving DecidableEq

structure World where
  clock : ℕ
  isRunning : Bool := false
  listeners : ℕ := 0
  lastScaleTimes : OrdMap String ℕ := {}
  consecutiveScaleDowns : OrdMap String ℕ := {}
  currentConsumerCounts : OrdMap String ℤ := {}
  scaleHistory : List ScaleEvent := []
  /-- The calls of `scaleConsumerGroup`, the last first. -/
  requests : List Request := []
  /-- The events of those that have succeeded, the last first. -/
  successes : List ScaleEvent := []

inductive Input
  | start
  | stop
  /-- The monitor tells its listeners of a lag. -/
  | notify (groupId : String) (totalLag : JsNumber)
  /-- Time passes. -/
  | pass (ms : ℕ)
deriving DecidableEq

inductive Event
  /-- The scaler has counted. -/
  | counted (count : ℤ)
  | countFailed
  | proceed
  | scaled
  | scaleFailed
deriving DecidableEq

end Data

section Functions

variable (o : Config)

/-- `evaluate`, up to its first wait. -/
def evaluate (groupId : String) (totalLag : JsNumber) (w : World) : Evaluation :=
  if !w.isRunning then ⟨groupId, totalLag, .over⟩
  else
    match w.currentConsumerCounts.get groupId with
    | some cached => ⟨groupId, totalLag, .counted cached⟩
    | none => ⟨groupId, totalLag, .asking⟩

/-- The direction that a lag asks for, and what the counter is set to, if it is. -/
def choose (totalLag : JsNumber) (currentConsumers : ℤ) (consecutiveDown : ℕ) :
    Option Direction × Option ℕ :=
  if o.scaleUpThreshold.le totalLag && currentConsumers < o.maxConsumers then (some .up, none)
  else if totalLag.le o.scaleDownThreshold && o.minConsumers < currentConsumers then
    if (JsNumber.ofNat consecutiveDown).lt o.maxConsecutiveScaleDowns then
      (some .down, some (consecutiveDown + 1))
    else (none, none)
  else (none, some 0)

/-- The count that a scaling is to come to. -/
def target : Direction → ℤ → ℤ
  | .up, «from» => min («from» + o.scaleUpBy) o.maxConsumers
  | .down, «from» => max («from» - o.scaleDownBy) o.minConsumers

/-- Whether an evaluation goes no further than the cooldown. -/
def held (groupId : String) (currentConsumers : ℤ) (w : World) : Bool :=
  currentConsumers = 0 ||
    ((JsNumber.ofNat w.clock).sub (JsNumber.ofNat ((w.lastScaleTimes.get groupId).getD 0))).lt
      o.cooldownPeriodMs

def consecutiveDown (w : World) (groupId : String) : ℕ :=
  (w.consecutiveScaleDowns.get groupId).getD 0

/-- The scaling that an evaluation with this count calls for. -/
def wanted (t : Evaluation) (currentConsumers : ℤ) (w : World) : Option ScaleEvent :=
  if held o t.groupId currentConsumers w then none
  else
    match (choose o t.totalLag currentConsumers (consecutiveDown w t.groupId)).1 with
    | none => none
    | some direction =>
      let «to» := target o direction currentConsumers
      if «to» = currentConsumers then none
      else some ⟨t.groupId, direction, currentConsumers, «to», w.clock⟩

/-- The counter, as an evaluation with this count leaves it. -/
def recount (t : Evaluation) (currentConsumers : ℤ) (w : World) : World :=
  if held o t.groupId currentConsumers w then w
  else
    match (choose o t.totalLag currentConsumers (consecutiveDown w t.groupId)).2 with
    | none => w
    | some n => { w with consecutiveScaleDowns := w.consecutiveScaleDowns.set t.groupId n }

/-- `evaluate`, from the count to the scaling it calls for. -/
def proceed (t : Evaluation) (currentConsumers : ℤ) (w : World) : World × Evaluation :=
  let w' := recount o t currentConsumers w
  match wanted o t currentConsumers w with
  | none => (w', { t with stage := .over })
  | some event =>
    ({ w' with requests := ⟨event, w.isRunning⟩ :: w.requests },
      { t with stage := .scaling event ((w.lastScaleTimes.get t.groupId).getD 0) })

/-- The history keeps a hundred events. -/
def push (scaleHistory : List ScaleEvent) (event : ScaleEvent) : List ScaleEvent :=
  if 100 < (scaleHistory ++ [event]).length then (scaleHistory ++ [event]).tail
  else scaleHistory ++ [event]

/-- What a scaling that succeeded leaves. -/
def World.scaled (w : World) (event : ScaleEvent) : World :=
  { w with
    currentConsumerCounts := w.currentConsumerCounts.set event.groupId event.«to»
    lastScaleTimes := w.lastScaleTimes.set event.groupId event.timestamp
    scaleHistory := push w.scaleHistory event
    successes := event :: w.successes }

/-- What an evaluation does when what it waits for comes. -/
def resume (event : Event) (t : Evaluation) (w : World) : Option (World × Evaluation) :=
  match t.stage, event with
  | .asking, .counted count =>
    some ({ w with currentConsumerCounts := w.currentConsumerCounts.set t.groupId count },
      { t with stage := .counted count })
  | .asking, .countFailed => some (w, { t with stage := .counted 0 })
  | .counted currentConsumers, .proceed => some (proceed o t currentConsumers w)
  | .scaling event _, .scaled => some (w.scaled event, { t with stage := .over })
  | .scaling _ _, .scaleFailed => some (w, { t with stage := .over })
  | _, _ => none

abbrev State := Calls.State World Evaluation

abbrev Action := Calls.Action Input Event

def evaluations : Calls World Evaluation Input Event where
  enter
    | .start, w =>
      (if w.isRunning then w else { w with isRunning := true, listeners := w.listeners + 1 }, [])
    | .stop, w => ({ w with isRunning := false }, [])
    | .notify groupId totalLag, w => (w, List.replicate w.listeners (evaluate groupId totalLag w))
    | .pass ms, w => ({ w with clock := w.clock + ms }, [])
  resume := resume o

/-- The evaluations of an auto-scaler that has not been started, at any time. -/
def system : Sys State Action :=
  (evaluations o).system fun s => ∃ clock, s = ⟨{ clock := clock }, []⟩

end Functions

section Alone

/-- What the scaler does for one evaluation: what it counts, if it does not fail, and whether it
scales. -/
structure Outcome where
  count : Option ℤ
  scales : Bool
deriving DecidableEq

/-- What comes of what an evaluation waits for. -/
def Outcome.event (r : Outcome) : Stage → Event
  | .asking =>
    match r.count with
    | some count => .counted count
    | none => .countFailed
  | .counted _ => .proceed
  | _ => if r.scales then .scaled else .scaleFailed

/-- An evaluation that nothing comes between goes on, three times at most. -/
def finish (o : Config) (r : Outcome) : ℕ → World × Evaluation → World × Evaluation
  | 0, p => p
  | fuel + 1, (w, t) =>
    match resume o (r.event t.stage) t w with
    | none => (w, t)
    | some p => finish o r fuel p

/-- A whole evaluation, nothing coming between. -/
def evaluateAlone (o : Config) (groupId : String) (totalLag : JsNumber) (r : Outcome) (w : World) :
    World :=
  (finish o r 3 (w, evaluate groupId totalLag w)).1

end Alone

end KafkaAutoScaler

end VeriNode
