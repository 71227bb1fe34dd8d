import VeriNode.Lib.OrdMap
import Mathlib.Algebra.Order.Ring.Rat

/-!
# The consensus simulation

`Simulation` of `src/consensus-sim/simulation.ts` under the faults of `src/consensus-sim/faults.ts`.
For each message of a round `Math.random` gives two numbers, of which one decides whether it is
delayed. All deliveries of a round are awaited, and come in the order in which they were made,
whatever their delays. What is never read, the span of an equivocation and whether a validator is
active, is left out.
-/

namespace VeriNode

namespace ConsensusSim

section Faults

structure Partition where
  groups : List (List String)
  durationRounds : Option ℚ := none

structure Delay where
  ms : ℚ
  jitter : Option ℚ := none
  probability : Option ℚ := none

structure Equivocation where
  «by» : List String

structure TimeoutFault where
  «by» : List String
  durationRounds : Option ℚ := none

structure FaultSpec where
  partition : Option Partition := none
  delay : Option Delay := none
  equivocation : Option Equivocation := none
  timeout : Option TimeoutFault := none

structure SimulationConfig where
  validators : List String
  maxRounds : Option ℕ := none
  faultSpec : Option FaultSpec := none

structure Message where
  «from» : String
  «to» : String
  round : ℕ
  payload : String
deriving DecidableEq

end Faults

section Rounds

structure ValidatorState where
  id : String
  decided : OrdMap ℕ String := ∅

/-- The numbers that `Math.random` gives for a message, by its sender, its receiver and its
round. -/
abbrev Draws := String → String → ℕ → ℚ × ℚ

variable (faultSpec : Option FaultSpec)

/-- `!durationRounds || round <= durationRounds`. -/
def lasts (durationRounds : Option ℚ) (round : ℕ) : Bool :=
  durationRounds.all fun duration => duration = 0 || (round : ℚ) ≤ duration

def timedOut (id : String) (round : ℕ) : Bool :=
  (faultSpec.bind (·.timeout)).any fun toff =>
    toff.«by».contains id && lasts toff.durationRounds round

/-- The sender and the receiver are in different groups. -/
def parted (sender dest : String) (round : ℕ) : Bool :=
  (faultSpec.bind (·.partition)).any fun p =>
    let gi := p.groups.findIdx? (·.contains sender)
    let gj := p.groups.findIdx? (·.contains dest)
    1 < p.groups.length && gi != gj && gi.isSome && gj.isSome && lasts p.durationRounds round

def shouldDeliver (sender dest : String) (round : ℕ) : Bool :=
  !parted faultSpec sender dest round && !timedOut faultSpec sender round

def equivocates (id : String) : Bool :=
  (faultSpec.bind (·.equivocation)).any fun eq => eq.«by».contains id

/-- The milliseconds that a message takes. -/
def latency (draw : ℚ × ℚ) : ℚ :=
  match faultSpec.bind (·.delay) with
  | none => 0
  | some delay =>
    if draw.1 < delay.probability.getD 1 then
      max 0 (delay.ms + (draw.2 - 1 / 2) * delay.jitter.getD 0)
    else 0

def proposal (id : String) (round : ℕ) : String := s!"{id}-v{round}"

def proposals (validators : List ValidatorState) (round : ℕ) : OrdMap String String :=
  validators.foldl
    (fun proposals v =>
      if timedOut faultSpec v.id round then proposals else proposals.set v.id (proposal v.id round))
    ∅

/-- A message, if it is delivered, and after how long. -/
structure Delivery where
  message : Option Message
  ms : ℚ := 0

def deliver (draws : Draws) (round : ℕ) (sender payload dest : String) : Delivery :=
  if shouldDeliver faultSpec sender dest round then
    let pl := if equivocates faultSpec sender then s!"{payload}-alt-{dest}" else payload
    ⟨some ⟨sender, dest, round, pl⟩, latency faultSpec (draws sender dest round)⟩
  else { message := none }

def deliveries (draws : Draws) (validators : List ValidatorState) (round : ℕ) : List Delivery :=
  (proposals faultSpec validators round).entries.flatMap fun e =>
    ((validators.map (·.id)).filter (· ≠ e.1)).map fun dest =>
      deliver faultSpec draws round e.1 e.2 dest

/-- `Promise.all`, without what was dropped. -/
def delivered (draws : Draws) (validators : List ValidatorState) (round : ℕ) : List Message :=
  (deliveries faultSpec draws validators round).filterMap (·.message)

/-- A message counts for its receiver. -/
def count (perRecipient : OrdMap String (OrdMap String ℕ)) (m : Message) :
    OrdMap String (OrdMap String ℕ) :=
  let map := (perRecipient.get m.«to»).getD ∅
  perRecipient.set m.«to» (map.set m.payload ((map.get m.payload).getD 0 + 1))

def tally (validators : List ValidatorState) (msgs : List Message) :
    OrdMap String (OrdMap String ℕ) :=
  msgs.foldl count (validators.foldl (fun perRecipient v => perRecipient.set v.id ∅) ∅)

/-- The first value that enough of `n` validators sent. -/
def majority (n : ℕ) (tally : OrdMap String ℕ) : Option String :=
  (tally.entries.find? fun e => decide (2 * n / 3 + 1 ≤ e.2)).map (·.1)

/-- `this.getValidator(vid).decided.set(round, val)`. -/
def setDecided (vid : String) (round : ℕ) (val : String) : List ValidatorState → List ValidatorState
  | [] => []
  | v :: validators =>
    if v.id = vid then { v with decided := v.decided.set round val } :: validators
    else v :: setDecided vid round val validators

/-- The validators, and whether any has decided, after one has looked at what it received. -/
def observe (n round : ℕ) (s : List ValidatorState × Bool) (e : String × OrdMap String ℕ) :
    List ValidatorState × Bool :=
  match majority n e.2 with
  | none => s
  | some val => (setDecided e.1 round val s.1, true)

def runRound (draws : Draws) (validators : List ValidatorState) (round : ℕ) :
    List ValidatorState × Bool :=
  let msgs := delivered faultSpec draws validators round
  (tally validators msgs).entries.foldl (observe validators.length round) (validators, false)

end Rounds

section Runs

/-- What a run returns. -/
structure Summary where
  rounds : ℕ
  recovered : Bool
deriving DecidableEq

namespace Simulation

variable (cfg : SimulationConfig) (draws : Draws)

def start : List ValidatorState := cfg.validators.map fun id => { id }

def maxRounds : ℕ := cfg.maxRounds.getD 20

/-- The rounds that are left, from a round on. -/
def loop : ℕ → ℕ → List ValidatorState → Summary × List ValidatorState
  | 0, _, validators => (⟨maxRounds cfg, false⟩, validators)
  | left + 1, round, validators =>
    let (validators', ok) := runRound cfg.faultSpec draws validators round
    if ok then (⟨round, true⟩, validators') else loop left (round + 1) validators'

def run : Summary × List ValidatorState := loop cfg draws (maxRounds cfg) 1 (start cfg)

end Simulation

end Runs

end ConsensusSim

end VeriNode
