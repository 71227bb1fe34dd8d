import Mathlib.Algebra.Order.Ring.Rat
import Mathlib.Data.List.Sort
import Mathlib.Data.Rat.Floor
import VeriNode.Lib.Run

/-!
# The probe of an adaptive pool

`AdaptivePoolProbe` of `src/database/pool_isolation.ts` keeps the last samples of a pool and changes
the pool's maximum by what a controller makes of them. Its arithmetic is exact here. A duration and
a wait are times that have passed, and the clock does not go back.
-/

namespace VeriNode

namespace AdaptivePool

structure AdaptivePoolConfig where
  probeIntervalMs : ℚ := 10000
  minConnections : ℚ := 5
  maxConnections : ℚ := 200
  adjustmentStep : ℚ := 5
  latencyThresholdMs : ℚ := 100
  waitThresholdMs : ℚ := 50
  cooldownMs : ℚ := 60000
  kp : ℚ := 1
  ki : ℚ := 1 / 10
  kd : ℚ := 1 / 20

structure Sample where
  durationMs : ℚ
  waitMs : ℚ
  utilization : ℚ
deriving DecidableEq

/-- The probe, the maximum of its pool, and the time of the last evaluation. -/
structure State where
  durationSamplesMs : List ℚ := []
  waitSamplesMs : List ℚ := []
  utilizationSamples : List ℚ := []
  lastAdjustmentDirection : Option ℤ := none
  lastAdjustmentAt : ℚ := 0
  integral : ℚ := 0
  previousError : ℚ := 0
  targetConnections : ℚ
  poolMax : ℚ
  now : ℚ := 0
deriving DecidableEq

def sampleWindow : ℕ := 200

/-- `push`, and `shift` where that is too many. -/
def push (samples : List ℚ) (x : ℚ) : List ℚ :=
  let samples := samples ++ [x]
  if sampleWindow < samples.length then samples.tail else samples

def percentile (sorted : List ℚ) (p : ℚ) : ℚ :=
  if sorted = [] then 0 else sorted.getD (min ⌊sorted.length * p⌋.toNat (sorted.length - 1)) 0

def average (values : List ℚ) : ℚ := if values = [] then 0 else values.sum / values.length

def recordSample (s : State) (x : Sample) : State :=
  { s with
    durationSamplesMs := push s.durationSamplesMs x.durationMs
    waitSamplesMs := push s.waitSamplesMs x.waitMs
    utilizationSamples := push s.utilizationSamples x.utilization }

def State.durationP95 (s : State) : ℚ :=
  percentile (s.durationSamplesMs.insertionSort (· ≤ ·)) (95 / 100)

def State.waitP90 (s : State) : ℚ := percentile (s.waitSamplesMs.insertionSort (· ≤ ·)) (9 / 10)

section Evaluation

variable (c : AdaptivePoolConfig)

def clamp (maxConnections : ℚ) : ℚ := min c.maxConnections (max c.minConnections maxConnections)

def canAdjust (s : State) (direction : ℤ) (now : ℚ) : Bool :=
  s.lastAdjustmentDirection ≠ some direction || c.cooldownMs ≤ now - s.lastAdjustmentAt

def dt : ℚ := c.probeIntervalMs / 1000

def errorOf (s : State) : ℚ :=
  max ((s.durationP95 - c.latencyThresholdMs) / c.latencyThresholdMs)
    ((s.waitP90 - c.waitThresholdMs) / c.waitThresholdMs)

def pid (s : State) : ℚ :=
  let error := errorOf c s
  let integral := s.integral + error * dt c
  let derivative := (error - s.previousError) / dt c
  c.kp * error + c.ki * integral + c.kd * derivative

/-- The maximum that an evaluation comes to, with its direction. -/
def nextMax (s : State) (now : ℚ) : ℚ × ℤ :=
  if 2 / 10 < pid c s then
    (if canAdjust c s 1 now then clamp c (s.poolMax + c.adjustmentStep) else s.poolMax, 1)
  else if pid c s < -2 / 10 ∧ s.durationP95 < c.latencyThresholdMs ∧
      s.waitP90 < c.waitThresholdMs ∧ average s.utilizationSamples < 6 / 10 then
    (if canAdjust c s (-1) now then clamp c (s.poolMax - c.adjustmentStep) else s.poolMax, -1)
  else (s.poolMax, 0)

def evaluate (now : ℚ) (s : State) : State :=
  if s.durationSamplesMs = [] ∨ s.utilizationSamples = [] then { s with now }
  else
    let probed := { s with
      integral := s.integral + errorOf c s * dt c
      previousError := errorOf c s
      now }
    let (max, direction) := nextMax c s now
    if max ≠ s.poolMax then
      { probed with
        targetConnections := max
        poolMax := max
        lastAdjustmentDirection := some direction
        lastAdjustmentAt := now }
    else probed

inductive Action
  | recordSample (x : Sample)
  | evaluate (now : ℚ)
deriving DecidableEq

def step (s : State) : Action → Option State
  | .recordSample x => if 0 ≤ x.durationMs ∧ 0 ≤ x.waitMs then some (recordSample s x) else none
  | .evaluate now => if s.now ≤ now then some (evaluate c now s) else none

/-- The probe of a pool that has been made with a maximum. -/
def system (poolMax : ℚ) : Sys State Action where
  init s := s = { targetConnections := clamp c poolMax, poolMax }
  step := step c

end Evaluation

end AdaptivePool

end VeriNode
