import VeriNode.Lib.OrdMap
import VeriNode.Lib.Run
import VeriNode.Scheduler.JobStore
import Mathlib.Algebra.Order.Floor.Semiring
import Mathlib.Data.Rat.Floor

/-!
# The dead letter queue

`DeadLetterQueueManager` of `src/queue/dead_letter_queue.ts` over the table of
`PgDeadLetterRepository`. `process` runs to its end against what its handler and its one statement
answer. Any number of calls of `retry` for one entry take turns: between two waits a call runs in
one piece, and a statement either takes effect or not, whatever the call is told.
-/

namespace VeriNode

namespace DeadLetters

section Data

def dlqBackoffMs : List ℕ := [30000, 120000, 600000]

/-- `DLQ_TTL_DAYS`, in milliseconds. -/
def dlqTtlMs : ℚ := 7 * 24 * 60 * 60 * 1000

inductive Status
  | failed
  | retrying
deriving DecidableEq

structure Entry (μ : Type*) where
  id : String
  messageType : String
  originalMessage : μ
  errorType : String
  errorMessage : String
  stackTrace : Option String
  retryCount : ℕ
  status : Status
  createdAt : ℚ
  updatedAt : ℚ
  expiresAt : ℚ
deriving DecidableEq

/-- An `Error`. -/
structure ErrorObject where
  name : String
  message : String
  stack : Option String
deriving DecidableEq

/-- A thrown value: an `Error`, or another value with its `typeof` and its `String`. -/
inductive Exception
  | error (error : ErrorObject)
  | other (type text : String)
deriving DecidableEq

/-- What a handler's call may end with: a thrown value, or an error of the handler's own class,
which carries something. -/
inductive Thrown (ρ : Type*)
  | exception (exception : Exception)
  | own (carried : ρ) (error : ErrorObject)
deriving DecidableEq

def Thrown.value {ρ : Type*} : Thrown ρ → Exception
  | .exception e => e
  | .own _ e => .error e

structure SerializedError where
  type : String
  message : String
  stackTrace : Option String
deriving DecidableEq

def serializeError : Exception → SerializedError
  | .error e => ⟨if e.name = "" then "Error" else e.name, e.message, e.stack⟩
  | .other type text => ⟨type, text, none⟩

/-- What becomes of a statement: it is done; or it fails, without effect or after it took
effect. -/
inductive Answer
  | ok
  | refused (exception : Exception)
  | cut (exception : Exception)
deriving DecidableEq

def Answer.applied : Answer → Bool
  | .ok => true
  | .refused _ => false
  | .cut _ => true

def Answer.error : Answer → Option Exception
  | .ok => none
  | .refused e => some e
  | .cut e => some e

structure Metrics where
  counts : List ℕ := [0, 0, 0, 0]
  retrySum : ℕ := 0
  retryTotal : ℕ := 0
deriving DecidableEq

def buckets : List ℕ := [0, 1, 2, 3]

def Metrics.observeRetryCount (count : ℕ) (m : Metrics) : Metrics where
  counts := List.zipWith (fun bound n => if count ≤ bound then n + 1 else n) buckets m.counts
  retrySum := m.retrySum + count
  retryTotal := m.retryTotal + 1

/-- `backoffMs[retryCount] ?? backoffMs[backoffMs.length - 1] ?? 0`. -/
def backoff (backoffMs : List ℕ) (retryCount : ℕ) : ℕ :=
  (backoffMs[retryCount]?.or backoffMs.getLast?).getD 0

end Data

section Process

variable {σ μ ρ τ : Type*}

/-- What a call of `process` leaves behind: what its handler wrote, the rows the table gained, the
metrics and the time slept. -/
structure World (σ μ : Type*) where
  handler : σ
  inserted : List (Entry μ) := []
  metrics : Metrics := {}
  slept : List ℕ := []

/-- `PgDeadLetterRepository.insert`: the row, with the id and the time the database gives it. -/
def entryOf (id : String) (now : ℚ) (messageType : String) (message : μ) (error : Exception)
    (retryCount : ℕ) : Entry μ where
  id := id
  messageType := messageType
  originalMessage := message
  errorType := (serializeError error).type
  errorMessage := (serializeError error).message
  stackTrace := (serializeError error).stackTrace
  retryCount := retryCount
  status := .failed
  createdAt := now
  updatedAt := now
  expiresAt := now + dlqTtlMs

/-- How the database answers the `insert`, and what it gives the row. -/
structure Insert where
  id : String
  now : ℚ
  answer : Answer

def insert (db : Insert) (messageType : String) (message : μ) (error : Exception) (retryCount : ℕ)
    (w : World σ μ) : World σ μ :=
  if db.answer.applied then
    { w with inserted :=
        w.inserted ++ [entryOf db.id db.now messageType message error retryCount] }
  else w

def notCaptured : ErrorObject :=
  ⟨"MessageProcessingError", "message processing failed without captured error", none⟩

/-- The rounds of the loop that are left, from a retry count on. -/
def processFrom (db : Insert) (messageType : String) (message : μ)
    (handler : μ → σ → Except (Thrown ρ) τ × σ) (maxRetries : ℚ) (backoffMs : List ℕ) :
    ℕ → ℕ → World σ μ → Except (Thrown ρ) τ × World σ μ
  | 0, _, w => (.error (.exception (.error notCaptured)), w)
  | rounds + 1, retryCount, w =>
    match handler message w.handler with
    | (.ok result, h) => (.ok result, { w with handler := h })
    | (.error errorValue, h) =>
      if (retryCount : ℚ) = maxRetries then
        let w := insert db messageType message errorValue.value retryCount
          { w with handler := h, metrics := w.metrics.observeRetryCount retryCount }
        match db.answer.error with
        | none => (.error errorValue, w)
        -- the rejection of the `insert` takes the place of the handler's error
        | some exception => (.error (.exception exception), w)
      else
        processFrom db messageType message handler maxRetries backoffMs rounds (retryCount + 1)
          { w with handler := h, slept := w.slept ++ [backoff backoffMs retryCount] }

/-- How often `retryCount <= maxRetries` holds, from zero on. -/
def rounds (maxRetries : ℚ) : ℕ := if 0 ≤ maxRetries then ⌊maxRetries⌋₊ + 1 else 0

def process (db : Insert) (messageType : String) (message : μ)
    (handler : μ → σ → Except (Thrown ρ) τ × σ) (maxRetries : ℚ) (backoffMs : List ℕ)
    (w : World σ μ) : Except (Thrown ρ) τ × World σ μ :=
  processFrom db messageType message handler maxRetries backoffMs (rounds maxRetries) 0 w

end Process

section Repository

variable {μ : Type*}

/-- The rows by their ids. -/
abbrev Table (μ : Type*) := OrdMap String (Entry μ)

def get (id : String) (now : ℚ) (rows : Table μ) : Option (Entry μ) :=
  (rows.get id).filter (now < ·.expiresAt)

/-- `UPDATE … WHERE id = $1`. -/
def update (id : String) (f : Entry μ → Entry μ) (rows : Table μ) : Table μ :=
  match rows.get id with
  | none => rows
  | some entry => rows.set id (f entry)

def markRetrying (id : String) (now : ℚ) : Table μ → Table μ :=
  update id fun entry => { entry with status := .retrying, updatedAt := now }

def markFailed (id : String) (errorValue : Exception) (retryCount : ℕ) (now : ℚ) :
    Table μ → Table μ :=
  update id fun entry =>
    { entry with
      status := .failed
      errorType := (serializeError errorValue).type
      errorMessage := (serializeError errorValue).message
      stackTrace := (serializeError errorValue).stackTrace
      retryCount := retryCount
      updatedAt := now }

structure ListDeadLettersParams where
  messageType : Option String := none
  limit : Option JsNumber := none
  offset : Option JsNumber := none

/-- `Math.max(0, Math.trunc(offset))`; none if the database has an error for it. -/
def listOffset : JsNumber → Option ℕ
  | .nan => none
  | .negInf => some 0
  | .posInf => none
  | .fin q => if q < 2 ^ 63 then some ⌊q⌋₊ else none

/-- The `WHERE` clause of `list`. -/
def listed (messageType : Option String) (now : ℚ) (entry : Entry μ) : Bool :=
  now < entry.expiresAt &&
    (messageType.filter (· ≠ "")).all fun messageType => entry.messageType = messageType

/-- `list`, where `order` is how the database sorts by `created_at DESC`. -/
def list (params : ListDeadLettersParams) (now : ℚ) (order : List (Entry μ) → List (Entry μ))
    (rows : Table μ) : Option (List (Entry μ)) :=
  (Jobs.clampInt (params.limit.getD 100) 1 500).bind fun limit =>
    (listOffset (params.offset.getD 0)).map fun offset =>
      ((order (rows.values.filter (listed params.messageType now))).drop offset).take limit.toNat

def purgeExpired (now : ℚ) (rows : Table μ) : Table μ where
  entries := rows.entries.filter fun x => !decide (x.2.expiresAt ≤ now)
  nodup := rows.nodup.sublist (List.Sublist.map _ List.filter_sublist)

def depth (now : ℚ) (rows : Table μ) : ℕ := (rows.values.filter fun e => now < e.expiresAt).length

/-- A statement that writes. -/
def Answer.write (answer : Answer) (f : Table μ → Table μ) (rows : Table μ) : Table μ :=
  if answer.applied then f rows else rows

end Repository

namespace Retry

section System

/-- Where a call of `retry` stands. -/
inductive Phase
  | getting
  /-- It has read the entry. -/
  | marking
  /-- The handler has been invoked. -/
  | handling (retryCount : ℕ)
  /-- The handler has succeeded. -/
  | deleting (retryCount : ℕ)
  | sleeping (retryCount : ℕ)
  | failing (retryCount : ℕ) (errorValue : Exception)
  | ended
deriving DecidableEq

/-- A call, with the message of the entry it has read. -/
structure Call (μ : Type*) where
  maxRetries : ℚ
  originalMessage : Option μ := none
  phase : Phase := .getting
deriving DecidableEq

/-- `done` has the calls whose handlers have succeeded, in order. -/
structure State (μ : Type*) where
  now : ℚ
  rows : Table μ
  calls : OrdMap ℕ (Call μ) := ∅
  nextCall : ℕ := 0
  done : List ℕ := []

inductive Action
  | retry (maxRetries : ℚ)
  | get (id : ℕ) (answer : Answer)
  | markRetrying (id : ℕ) (answer : Answer)
  /-- The handler returns, or throws. -/
  | handled (id : ℕ) (errorValue : Option Exception)
  | delete (id : ℕ) (answer : Answer)
  | wake (id : ℕ)
  | markFailed (id : ℕ) (answer : Answer)
  | tick (now : ℚ)
deriving DecidableEq

variable {μ : Type*}

def State.goOn (id : ℕ) (call : Call μ) (phase : Phase) (s : State μ) : State μ :=
  { s with calls := s.calls.set id { call with phase := phase } }

/-- The loop goes on with a retry count, or ends. -/
def round (retryCount : ℕ) (call : Call μ) : Phase :=
  if (retryCount : ℚ) ≤ call.maxRetries then .handling retryCount else .ended

/-- What the `catch` does with an error of the handler or of the `DELETE`. -/
def caught (retryCount : ℕ) (errorValue : Exception) (call : Call μ) : Phase :=
  if (retryCount : ℚ) = call.maxRetries then .failing retryCount errorValue
  else .sleeping retryCount

/-- A step of a call. -/
def perform (entryId : String) (id : ℕ) (call : Call μ) (s : State μ) : Action → Option (State μ)
  | .get _ answer =>
    match call.phase with
    | .getting =>
      match answer.error, DeadLetters.get entryId s.now s.rows with
      | none, some entry =>
        some (s.goOn id { call with originalMessage := some entry.originalMessage } .marking)
      | _, _ => some (s.goOn id call .ended)
    | _ => none
  | .markRetrying _ answer =>
    match call.phase with
    | .marking =>
      let mark := DeadLetters.markRetrying entryId s.now
      some ({ s with rows := answer.write mark s.rows }.goOn id call
        (if answer.error = none then round 0 call else .ended))
    | _ => none
  | .handled _ errorValue =>
    match call.phase with
    | .handling retryCount =>
      match errorValue with
      | none => some ({ s with done := s.done ++ [id] }.goOn id call (.deleting retryCount))
      | some errorValue => some (s.goOn id call (caught retryCount errorValue call))
    | _ => none
  | .delete _ answer =>
    match call.phase with
    | .deleting retryCount =>
      some ({ s with rows := answer.write (·.delete entryId) s.rows }.goOn id call
        (match answer.error with
          | none => .ended
          | some errorValue => caught retryCount errorValue call))
    | _ => none
  | .wake _ =>
    match call.phase with
    | .sleeping retryCount => some (s.goOn id call (round (retryCount + 1) call))
    | _ => none
  | .markFailed _ answer =>
    match call.phase with
    | .failing retryCount errorValue =>
      let mark := DeadLetters.markFailed entryId errorValue retryCount s.now
      some ({ s with rows := answer.write mark s.rows }.goOn id call .ended)
    | _ => none
  | _ => none

/-- The call that takes the step. -/
def Action.call : Action → Option ℕ
  | .get id _ => some id
  | .markRetrying id _ => some id
  | .handled id _ => some id
  | .delete id _ => some id
  | .wake id => some id
  | .markFailed id _ => some id
  | _ => none

def step (entryId : String) (s : State μ) (a : Action) : Option (State μ) :=
  match a with
  | .retry maxRetries =>
    some { s with
      calls := s.calls.set s.nextCall { maxRetries := maxRetries }
      nextCall := s.nextCall + 1 }
  | .tick now => if s.now ≤ now then some { s with now := now } else none
  | a =>
    match a.call with
    | none => none
    | some id =>
      match s.calls.get id with
      | none => none
      | some call => perform entryId id call s a

/-- Calls of `retry` for one entry of a table, and nothing else that writes it. -/
def sys (entryId : String) (rows : Table μ) : Sys (State μ) Action where
  init s := ∃ now, s = { now := now, rows := rows }
  step := step entryId

end System

end Retry

end DeadLetters

end VeriNode
