import VeriNode.Lib.JsNumber
import VeriNode.Lib.JsString
import VeriNode.Lib.OrdMap
import VeriNode.Lib.Run

/-!
# The slashing executor

`SlashingExecutor` of `src/slashing/executor.ts` with `calculatePenalty` of
`src/slashing/penaltyCalculator.ts`, and `ValidatorRegistry` of `src/staking/validatorRegistry.ts`,
over the tables of `src/database/migrations/012_slashing_penalty_consistency.sql` without their
times. Any number of calls go on at once, each a statement at a time; any statement may fail. The
lock an executor takes makes the other executors and the writes of the registry wait. A statement
that fails ends what its transaction may write, and its locks; so does a `ROLLBACK`, done or failed.
-/

namespace VeriNode

namespace SlashingExecutor

section Penalty

def baseSlashingPenalty : JsNumber := .fin 500

structure PenaltyCalculation where
  penalty : ℚ
  multiplier : ℚ
  activeValidators : ℚ
  totalValidators : ℚ
  basePenalty : ℚ
deriving DecidableEq

def assertValidatorCount (value : JsNumber) (name : String) (allowZero : Bool) :
    Except String Unit :=
  if !value.isSafeInteger then .error (name ++ " must be a finite, safe integer")
  else if allowZero then
    if value.lt 0 then .error (name ++ " must be non-negative") else .ok ()
  else if value.le 0 then .error (name ++ " must be greater than zero") else .ok ()

/-- `calculatePenalty`, its arithmetic exact. -/
def calculatePenalty (activeValidators totalValidators basePenalty : JsNumber) :
    Except String PenaltyCalculation := do
  assertValidatorCount totalValidators "totalValidators" false
  assertValidatorCount activeValidators "activeValidators" true
  if totalValidators.lt activeValidators then
    throw "activeValidators must not exceed totalValidators"
  match activeValidators, totalValidators, basePenalty with
  | .fin active, .fin total, .fin base =>
    if base ≤ 0 then throw "basePenalty must be finite and greater than zero"
    let multiplier := 1 + (total - active) / total
    return ⟨base * multiplier, multiplier, active, total, base⟩
  | _, _, _ => throw "basePenalty must be finite and greater than zero"

end Penalty

section Tables

/-- `validator_registry`: whether each validator is active. -/
abbrev Registry := OrdMap String Bool

/-- `SELECT COUNT(*) FROM active_validators`. -/
def activeCount (registry : Registry) : ℕ := (registry.values.filter id).length

structure SlashingEventRow where
  eventId : ℕ
  validatorId : String
  misbehaviorType : String
  penaltyAmount : ℚ
  basePenalty : ℚ
  totalValidatorCount : ℤ
  validatorCountAtSlashing : ℕ
deriving DecidableEq

/-- The `CHECK`s of `slashing_events`. -/
def SlashingEventRow.checks (row : SlashingEventRow) : Bool :=
  row.validatorId ≠ "" && row.misbehaviorType ≠ "" && decide (0 < row.penaltyAmount)
    && decide (0 < row.basePenalty) && decide (0 < row.totalValidatorCount)
    && decide ((row.validatorCountAtSlashing : ℤ) ≤ row.totalValidatorCount)

/-- `registerValidator`: the row, new or replaced. -/
def registerValidator (validatorId : String) (active : Bool) (registry : Registry) :
    Except String Registry :=
  if JsString.isBlank validatorId then .error "validatorId must be a non-empty string"
  else .ok (registry.set validatorId active)

/-- `setActive`: the row, if there is one. -/
def setActive (validatorId : String) (active : Bool) (registry : Registry) :
    Except String Registry :=
  if JsString.isBlank validatorId then .error "validatorId must be a non-empty string"
  else if registry.has validatorId then .ok (registry.set validatorId active)
  else .error ("Validator " ++ validatorId ++ " is not registered")

def activateValidator (validatorId : String) (registry : Registry) : Except String Registry :=
  setActive validatorId true registry

def deactivateValidator (validatorId : String) (registry : Registry) : Except String Registry :=
  setActive validatorId false registry

end Tables

section Calls

structure ExecuteSlashingInput where
  validatorId : String
  misbehaviorType : String
  totalValidators : JsNumber
deriving DecidableEq

/-- What `execute` resolves with: the row it inserted, and the multiplier. -/
structure SlashingEvent where
  row : SlashingEventRow
  multiplier : ℚ
deriving DecidableEq

def requireText (value name : String) : Except String Unit :=
  if JsString.isBlank value then .error (name ++ " must be a non-empty string") else .ok ()

/-- The number of a count; not one if it is too large to be safe. -/
def parseActiveCount (count : ℕ) : Except String JsNumber :=
  if (JsNumber.ofNat count).isSafeInteger then .ok (.ofNat count)
  else .error "database returned an invalid active validator count"

/-- The next statement of a call, or how it ended. -/
inductive Phase
  | connecting
  | beginning
  /-- `LOCK TABLE … IN SHARE ROW EXCLUSIVE MODE`. -/
  | locking
  | counting
  | inserting (count : ℕ) (calculation : PenaltyCalculation)
  | committing (event : SlashingEvent)
  | rollingBack (error : String)
  /-- `client.release()`. -/
  | releasing (outcome : Except String SlashingEvent)
  | settled (outcome : Except String SlashingEvent)
deriving DecidableEq

/-- A call of `execute`, with what its transaction has locked and written. -/
structure Call where
  input : ExecuteSlashingInput
  phase : Phase
  connected : Bool := false
  lock : Bool := false
  write : Option SlashingEventRow := none
  releases : ℕ := 0
deriving DecidableEq

structure State where
  validatorRegistry : Registry := ∅
  slashingEvents : List SlashingEventRow := []
  calls : OrdMap ℕ Call := ∅
  nextId : ℕ := 0
  nextEventId : ℕ := 1

/-- A call starts with the checks of its texts. -/
def execute (input : ExecuteSlashingInput) : Call :=
  match requireText input.validatorId "validatorId",
    requireText input.misbehaviorType "misbehaviorType" with
  | .error error, _ => { input := input, phase := .settled (.error error) }
  | .ok _, .error error => { input := input, phase := .settled (.error error) }
  | .ok _, .ok _ => { input := input, phase := .connecting }

/-- What comes after the count. -/
def afterCount (input : ExecuteSlashingInput) (count : ℕ) : Phase :=
  match parseActiveCount count with
  | .error error => .rollingBack error
  | .ok active =>
    match calculatePenalty active input.totalValidators baseSlashingPenalty with
    | .error error => .rollingBack error
    | .ok calculation => .inserting count calculation

/-- The row of the `INSERT`. -/
def eventRow (input : ExecuteSlashingInput) (eventId count : ℕ) (calculation : PenaltyCalculation) :
    SlashingEventRow where
  eventId := eventId
  validatorId := input.validatorId
  misbehaviorType := input.misbehaviorType
  penaltyAmount := calculation.penalty
  basePenalty := calculation.basePenalty
  totalValidatorCount := calculation.totalValidators.num
  validatorCountAtSlashing := count

/-- The transaction is over, or can only be rolled back. -/
def Call.endTx (call : Call) (phase : Phase) : Call :=
  { call with phase := phase, lock := false, write := none }

/-- Another call has locked the registry. -/
def locked (s : State) (id : ℕ) : Bool := s.calls.entries.any fun e => e.1 ≠ id ∧ e.2.lock = true

/-- Some call has locked the registry. -/
def tableLocked (s : State) : Bool := s.calls.entries.any fun e => e.2.lock

/-- The statement succeeds; none if it has to wait, or can only fail. -/
def Call.succeed (id : ℕ) (call : Call) (s : State) : Option Call :=
  match call.phase with
  | .connecting => some { call with phase := .beginning, connected := true }
  | .beginning => some { call with phase := .locking }
  | .locking =>
    if locked s id then none else some { call with phase := .counting, lock := true }
  | .counting =>
    some { call with phase := afterCount call.input (activeCount s.validatorRegistry) }
  | .inserting count calculation =>
    let row := eventRow call.input s.nextEventId count calculation
    if row.checks then
      some { call with
        phase := .committing ⟨row, calculation.multiplier⟩
        write := some row }
    else none
  | .committing event => some (call.endTx (.releasing (.ok event)))
  | .rollingBack error => some (call.endTx (.releasing (.error error)))
  | .releasing outcome =>
    some { call with phase := .settled outcome, releases := call.releases + 1 }
  | .settled _ => none

/-- The statement fails. -/
def Call.fail (call : Call) (error : String) : Option Call :=
  match call.phase with
  | .connecting => some { call with phase := .settled (.error error) }
  | .beginning => some { call with phase := .releasing (.error error) }
  | .locking => some (call.endTx (.rollingBack error))
  | .counting => some (call.endTx (.rollingBack error))
  | .inserting _ _ => some (call.endTx (.rollingBack error))
  | .committing _ => some (call.endTx (.rollingBack error))
  | .rollingBack error => some (call.endTx (.releasing (.error error)))
  | .releasing _ => none
  | .settled _ => none

/-- What the next statement of the call does to it. -/
def Call.next (id : ℕ) (call : Call) (s : State) : Option String → Option Call
  | none => call.succeed id s
  | some error => call.fail error

/-- What the statement commits. -/
def Call.commits (call : Call) (error : Option String) : Option SlashingEventRow :=
  match call.phase, error with
  | .committing _, none => call.write
  | _, _ => none

/-- The statement takes a number for its row. -/
def Call.inserts (call : Call) (error : Option String) : Bool :=
  match call.phase, error with
  | .inserting _ _, none => true
  | _, _ => false

inductive Action
  | execute (input : ExecuteSlashingInput)
  /-- The next statement of a call, and the error it fails with. -/
  | next (id : ℕ) (error : Option String)
  | registerValidator (validatorId : String) (active : Bool)
  | activateValidator (validatorId : String)
  | deactivateValidator (validatorId : String)
deriving DecidableEq

/-- A write of the registry: it waits for the lock, and has no effect if it has an error. -/
def write (f : Registry → Except String Registry) (s : State) : Option State :=
  match f s.validatorRegistry with
  | .error _ => some s
  | .ok registry => if tableLocked s then none else some { s with validatorRegistry := registry }

def step (s : State) : Action → Option State
  | .execute input =>
    some { s with calls := s.calls.set s.nextId (execute input), nextId := s.nextId + 1 }
  | .next id error =>
    match s.calls.get id with
    | none => none
    | some call =>
      match call.next id s error with
      | none => none
      | some call' =>
        some { s with
          slashingEvents := s.slashingEvents ++ (call.commits error).toList
          calls := s.calls.set id call'
          nextEventId := if call.inserts error then s.nextEventId + 1 else s.nextEventId }
  | .registerValidator validatorId active =>
    write (SlashingExecutor.registerValidator validatorId active) s
  | .activateValidator validatorId => write (SlashingExecutor.activateValidator validatorId) s
  | .deactivateValidator validatorId => write (SlashingExecutor.deactivateValidator validatorId) s

/-- Any validators, and nothing slashed. -/
def sys : Sys State Action where
  init s := ∃ registry, s = { validatorRegistry := registry }
  step := step

end Calls

end SlashingExecutor

end VeriNode
