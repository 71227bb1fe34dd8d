import VeriNode.Ingress.FeatureFlags
import VeriNode.Lib.Run

/-!
# Shedding load by feature flags

`src/core/ingress/capacity_shedder.ts`, with the flags it overrides, the middleware of
`graceful_degradation.ts` that reads them, and the configuration that both modules follow:
`ConfigManager` of `src/config/manager.ts` calls them after each change. Whoever listens for changes
of the level is left out. An event is one call, and what calls it: the timer, the manager's callers,
or a reader of a flag.
-/

namespace VeriNode

namespace Ingress

open JsVal Config

inductive SheddingLevel
  | none
  | light
  | medium
  | critical
deriving DecidableEq

structure CapacityThresholds where
  cpuPercent : JsNumber
  memoryPercent : JsNumber
  requestRatePerSec : JsNumber
  p99LatencyMs : JsNumber

structure Thresholds where
  light : CapacityThresholds
  medium : CapacityThresholds
  critical : CapacityThresholds

structure CapacityShedderConfig where
  checkIntervalMs : JsNumber
  cooldownPeriodMs : JsNumber
  thresholds : Thresholds
  flagsToShed : OrdMap String Value

structure MetricSnapshot where
  cpuPercent : JsNumber
  memoryPercent : JsNumber
  requestRatePerSec : JsNumber
  p99LatencyMs : JsNumber

def DEFAULT_CONFIG : CapacityShedderConfig where
  checkIntervalMs := 5000
  cooldownPeriodMs := 30000
  thresholds :=
    { light := ⟨70, 75, 800, 500⟩
      medium := ⟨85, 85, 1200, 1000⟩
      critical := ⟨95, 95, 2000, 3000⟩ }
  flagsToShed := ∅

section Loading

/-- A number over a default. What is no number does not pass the validator. -/
def numberOr (default : JsNumber) (key : String) (fields : Tree) : JsNumber :=
  match own key fields with
  | some (.json (.num n)) => n
  | _ => default

/-- The fields of an object, or none. -/
def fieldsOf (key : String) (fields : Tree) : Tree :=
  match own key fields with
  | some (.obj fields) => fields
  | _ => []

def loadThresholds (default : CapacityThresholds) (fields : Tree) : CapacityThresholds where
  cpuPercent := numberOr default.cpuPercent "cpuPercent" fields
  memoryPercent := numberOr default.memoryPercent "memoryPercent" fields
  requestRatePerSec := numberOr default.requestRatePerSec "requestRatePerSec" fields
  p99LatencyMs := numberOr default.p99LatencyMs "p99LatencyMs" fields

/-- The fields of an object, whatever their values are. -/
def loadFlags (fields : Tree) : OrdMap String Value :=
  fields.foldl (fun flags f => flags.set f.1 f.2) ∅

def loadConfig (config : Tree) : CapacityShedderConfig :=
  match getIn (splitPath "capacity_shedding") (.obj config) with
  | .obj cfg =>
    let thresholds := fieldsOf "thresholds" cfg
    let default := DEFAULT_CONFIG.thresholds
    { checkIntervalMs := numberOr DEFAULT_CONFIG.checkIntervalMs "checkIntervalMs" cfg
      cooldownPeriodMs := numberOr DEFAULT_CONFIG.cooldownPeriodMs "cooldownPeriodMs" cfg
      thresholds :=
        { light := loadThresholds default.light (fieldsOf "light" thresholds)
          medium := loadThresholds default.medium (fieldsOf "medium" thresholds)
          critical := loadThresholds default.critical (fieldsOf "critical" thresholds) }
      flagsToShed := loadFlags (fieldsOf "flagsToShed" cfg) }
  | _ => DEFAULT_CONFIG

end Loading

/-- One metric is no less than its threshold. -/
def exceeds (snapshot : MetricSnapshot) (t : CapacityThresholds) : Bool :=
  t.cpuPercent.le snapshot.cpuPercent || t.memoryPercent.le snapshot.memoryPercent
    || t.requestRatePerSec.le snapshot.requestRatePerSec
    || t.p99LatencyMs.le snapshot.p99LatencyMs

def determineLevel (thresholds : Thresholds) (snapshot : MetricSnapshot) : SheddingLevel :=
  if exceeds snapshot thresholds.critical then .critical
  else if exceeds snapshot thresholds.medium then .medium
  else if exceeds snapshot thresholds.light then .light
  else .none

/-- Who is called after a change of the configuration. -/
inductive Subscriber
  | featureFlags
  | capacityShedding
deriving DecidableEq

structure State where
  config : Tree
  callbacks : List Subscriber
  flags : Flags
  shedderConfig : CapacityShedderConfig
  currentLevel : SheddingLevel
  previousLevel : SheddingLevel
  /-- The interval of the timer. -/
  checkTimer : Option JsNumber
  lastElevatedAt : JsNumber
  /-- There is a collector. -/
  collector : Bool
  initialized : Bool

/-- Over a configuration, before anything is called. -/
def State.start (config : Tree) : State where
  config := config
  callbacks := []
  flags := ⟨∅, ∅, false⟩
  shedderConfig := DEFAULT_CONFIG
  currentLevel := .none
  previousLevel := .none
  checkTimer := none
  lastElevatedAt := 0
  collector := false
  initialized := false

section Calls

def applyShedding (level : SheddingLevel) (s : State) : Flags :=
  s.shedderConfig.flagsToShed.entries.foldl (fun f e =>
    if level ≠ .none then (setOverride s.config e.1 e.2 f).2
    else (resetOverride s.config e.1 f).2) s.flags

/-- With what the collector answers, if it does not throw. -/
def evaluate (snapshot : Option MetricSnapshot) (now : JsNumber) (s : State) : State :=
  if !s.collector then s
  else
    match snapshot with
    | none => s
    | some snapshot =>
      let level := determineLevel s.shedderConfig.thresholds snapshot
      let s := { s with previousLevel := s.currentLevel }
      if level = s.currentLevel then s
      else if level = .none ∧ s.previousLevel ≠ .none
          ∧ (now.sub s.lastElevatedAt).lt s.shedderConfig.cooldownPeriodMs = true then s
      else
        let s := if level ≠ .none then { s with lastElevatedAt := now } else s
        let s := { s with currentLevel := level }
        { s with flags := applyShedding level s }

def initCapacityShedder (s : State) : State :=
  if s.initialized then s
  else
    let shedderConfig := loadConfig s.config
    { s with
      collector := true
      shedderConfig := shedderConfig
      callbacks := s.callbacks ++ [.capacityShedding]
      checkTimer := some shedderConfig.checkIntervalMs
      initialized := true }

def stopCapacityShedder (s : State) : State :=
  { s with
    checkTimer := none
    currentLevel := .none
    previousLevel := .none
    initialized := false }

def getCurrentLevel (s : State) : SheddingLevel := s.currentLevel

def Subscriber.path : Subscriber → String
  | featureFlags => "feature_flags"
  | capacityShedding => "capacity_shedding"

/-- The callback of `onChangePath`. The old configuration is a copy, of other objects. -/
def callback (oldConfig : Tree) (s : State) (subscriber : Subscriber) : State :=
  if strictNe (getIn (splitPath subscriber.path) (.obj oldConfig))
      (getIn (splitPath subscriber.path) (.obj s.config)) then
    match subscriber with
    | .featureFlags => { s with flags := refresh s.config s.flags }
    | .capacityShedding => { s with shedderConfig := loadConfig s.config }
  else s

/-- Another configuration, and the callbacks for it. -/
def deliver (config : Tree) (s : State) : State :=
  s.callbacks.foldl (callback s.config) { s with config := config }

end Calls

section Runs

def isObject : Value → Bool
  | .obj _ => true
  | _ => false

/-- What the validator makes sure of in the two sections: it fills in what is missing, and what is
to be an object is one. It does not look at the statuses in them, as their schemas have no
`properties`. -/
def sectionsValid (config : Tree) : Bool :=
  isObject (getIn ["feature_flags", "overrides"] (.obj config))
    && isObject (getIn ["capacity_shedding", "flagsToShed"] (.obj config))

/-- A `reload` is any other change: from the sources, by a deletion, or within an array. -/
inductive Event
  | evaluate (snapshot : Option MetricSnapshot) (now : JsNumber)
  | update (path : String) (value : Value)
  | reload (config : Tree)
  | initCapacityShedder
  | stopCapacityShedder
  | registerFlag (flag : FeatureFlag)
  | initFeatureFlags
  | getStatus (key : String)

/-- The configuration after a change, if it is one the validator lets through. -/
def newConfig (schema : Schema JsNumber) (valid : Tree → Bool) (s : State) : Event → Option Tree
  | .update path value =>
    Config.update schema (fun data => sectionsValid data && valid data) path value s.config
  | .reload config => if sectionsValid config && valid config then some config else none
  | _ => none

/-- Flags are registered before the flags are initialised. -/
def step (schema : Schema JsNumber) (valid : Tree → Bool) (s : State) (e : Event) : Option State :=
  match e with
  | .evaluate snapshot now => some (evaluate snapshot now s)
  | .initCapacityShedder => some (initCapacityShedder s)
  | .stopCapacityShedder => some (stopCapacityShedder s)
  | .registerFlag flag =>
    if s.flags.initialized then none else some { s with flags := registerFlag flag s.flags }
  | .initFeatureFlags =>
    let (flags, subscribes) := initFeatureFlags s.config s.flags
    some { s with
      flags := flags
      callbacks := if subscribes then s.callbacks ++ [.featureFlags] else s.callbacks }
  | .getStatus key => some { s with flags := (getStatus s.config key s.flags).2 }
  | .update _ _ | .reload _ =>
    -- a configuration that is refused throws before anybody is called
    match newConfig schema valid s e with
    | some config => some (deliver config s)
    | none => some s

/-- From a configuration that the validator let through. -/
def sys (schema : Schema JsNumber) (valid : Tree → Bool) : Sys State Event where
  init s := ∃ config, sectionsValid config = true ∧ s = .start config
  step := step schema valid

end Runs

section Middleware

/-- The index among the levels. -/
def SheddingLevel.index : SheddingLevel → ℕ
  | none => 0
  | light => 1
  | medium => 2
  | critical => 3

structure FlagCheckOptions where
  statusCode : ℕ := 503
  degradeResponse : Option Tree := Option.none

/-- A response that is no call of `next`. -/
structure Refusal where
  status : ℕ
  body : Tree

def DEFAULT_DEGRADE_RESPONSE : Tree :=
  [("error", .json (.str "service degraded")),
    ("message", .json (.str
      "This feature is temporarily unavailable due to high system load"))]

/-- `degradeResponse || { ...DEFAULT_DEGRADE_RESPONSE, … }`, for a reason. -/
def FlagCheckOptions.refusal (options : FlagCheckOptions) (reason : String × Value) : Refusal where
  status := options.statusCode
  body := options.degradeResponse.getD (DEFAULT_DEGRADE_RESPONSE ++ [reason])

/-- None is a call of `next`, if the call of `isEnabled` returns. -/
def requireFlag (config : Tree) (depth : ℕ) (flagKey : String) (options : FlagCheckOptions)
    (f : Flags) : Option (Option Refusal × Flags) :=
  (isEnabled config depth flagKey f).map fun (enabled, f) =>
    (if enabled then none else some (options.refusal ("feature", .json (.str flagKey))), f)

def SheddingLevel.name : SheddingLevel → String
  | none => "none"
  | light => "light"
  | medium => "medium"
  | critical => "critical"

def degradeOnLevel (minLevel : SheddingLevel) (options : FlagCheckOptions) (s : State) :
    Option Refusal :=
  if minLevel.index ≤ (getCurrentLevel s).index then
    some (options.refusal ("sheddingLevel", .json (.str (getCurrentLevel s).name)))
  else none

end Middleware

section Evaluations

/-- What the timer does, at a reading of the clock. None is a collector that throws. -/
structure Evaluation where
  snapshot : Option MetricSnapshot
  now : ℤ

structure Clocked where
  now : ℤ
  shedder : State

/-- The clock does not go back. -/
def evaluateAt (s : Clocked) (e : Evaluation) : Option Clocked :=
  if s.now ≤ e.now then some ⟨e.now, evaluate e.snapshot (.fin e.now) s.shedder⟩ else none

/-- From a shedder that was not running, and has been initialised. -/
def evaluations : Sys Clocked Evaluation where
  init s := ∃ stopped : State, stopped.initialized = false ∧ stopped.currentLevel = .none
    ∧ s.shedder = initCapacityShedder stopped
  step := evaluateAt

end Evaluations

end Ingress

end VeriNode
