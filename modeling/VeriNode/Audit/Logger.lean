import VeriNode.Lib.OrdMap
import VeriNode.Lib.Run

/-!
# The audit logger

`AuditLogger.write`, its queue and its probe, of `src/audit/audit_logger.ts`, over `config_audit_log`
of `src/database/migrations/008_config_audit_log.sql`. An entry is known by its `entry_id`, which is
made for it and is the primary key; what else it holds goes along unread. Any number of calls go on
at once, each split where it waits. An `INSERT` is decided by the database, once, whether or not its
call still waits for it: the deadline only gives it up.
-/

namespace VeriNode

namespace AuditLogger

section Data

def queueCapacity : ℕ := 1000

def retryDelaysMs : List ℕ := [50, 100, 200]

inductive Status
  | undecided
  | inserted
  | failed
deriving DecidableEq

/-- An `INSERT` that was sent. -/
structure Statement where
  entryId : ℕ
  status : Status
deriving DecidableEq

/-- What an insert is for. -/
inductive Job
  | write
  | drain
deriving DecidableEq

/-- `_insertWithRetry`, with the attempts that have failed, and the statement it waits for; none
while it sleeps before the next attempt. -/
structure Insert where
  job : Job
  entryId : ℕ
  failures : ℕ := 0
  statement : Option ℕ := none
deriving DecidableEq

/-- Where a call stands. -/
inductive Call
  /-- The probe waits for `SELECT 1`. -/
  | probing
  | inserting (insert : Insert)
deriving DecidableEq

structure State where
  /-- The rows of `config_audit_log`. -/
  log : List ℕ := []
  queue : List ℕ := []
  dbAvailable : Bool := true
  /-- The entries that `queueDroppedTotal` has counted. -/
  dropped : List ℕ := []
  statements : OrdMap ℕ Statement := ∅
  calls : OrdMap ℕ Call := ∅
  /-- The entries that were passed to `write`. -/
  written : List ℕ := []
  nextEntry : ℕ := 0
  nextStatement : ℕ := 0
  nextCall : ℕ := 0

end Data

section Calls

/-- `_enqueue`. -/
def enqueue (entryId : ℕ) (s : State) : State :=
  if queueCapacity ≤ s.queue.length then
    { s with
      queue := s.queue.tail ++ [entryId]
      dropped := s.dropped ++ s.queue.head?.toList }
  else { s with queue := s.queue ++ [entryId] }

def finish (id : ℕ) (s : State) : State := { s with calls := s.calls.delete id }

/-- `_insertEntry` up to its `await`. -/
def insertEntry (id : ℕ) (insert : Insert) (s : State) : State :=
  { s with
    nextStatement := s.nextStatement + 1
    statements := s.statements.set s.nextStatement ⟨insert.entryId, .undecided⟩
    calls := s.calls.set id (.inserting { insert with statement := some s.nextStatement }) }

/-- `_drainQueue` from the test of its loop. -/
def drainQueue (id : ℕ) (s : State) : State :=
  match s.queue with
  | [] => finish id s
  | entryId :: _ =>
    if s.dbAvailable then insertEntry id { job := .drain, entryId := entryId } s else finish id s

/-- What comes after an insert that succeeded. -/
def insertSucceeded (id : ℕ) (insert : Insert) (s : State) : State :=
  match insert.job with
  | .write => drainQueue id s
  | .drain => drainQueue id { s with queue := s.queue.tail }

/-- What comes after an insert that gave up. -/
def insertThrew (id : ℕ) (insert : Insert) (s : State) : State :=
  match insert.job with
  | .write => finish id (enqueue insert.entryId { s with dbAvailable := false })
  | .drain => finish id { s with dbAvailable := false }

/-- An attempt of an insert fails. -/
def attemptFailed (id : ℕ) (insert : Insert) (s : State) : State :=
  if insert.failures < retryDelaysMs.length then
    { s with
      calls := s.calls.set id
        (.inserting { insert with failures := insert.failures + 1, statement := none }) }
  else insertThrew id insert s

/-- The state with an entry more that was passed to `write`. -/
def State.accept (s : State) : State :=
  { s with nextEntry := s.nextEntry + 1, written := s.written ++ [s.nextEntry] }

/-- `write` up to its first `await`. -/
def write (s : State) : State :=
  if s.dbAvailable then
    insertEntry s.nextCall { job := .write, entryId := s.nextEntry }
      { s.accept with nextCall := s.nextCall + 1 }
  else enqueue s.nextEntry s.accept

inductive Action
  | write
  /-- The interval of the probe is over. -/
  | tick
  /-- `SELECT 1` is answered, or fails. -/
  | selected (id : ℕ) (ok : Bool)
  /-- The database executes a statement, or the statement fails. -/
  | decide (statement : ℕ) (ok : Bool)
  /-- A call learns what became of its statement. -/
  | resume (id : ℕ)
  /-- The write deadline is over. -/
  | timeout (id : ℕ)
  /-- The delay before a retry is over. -/
  | wake (id : ℕ)
deriving DecidableEq

/-- One step of one call, or of the database. -/
def step (s : State) : Action → Option State
  | .write => some (AuditLogger.write s)
  | .tick => some { s with nextCall := s.nextCall + 1, calls := s.calls.set s.nextCall .probing }
  | .selected id ok =>
    match s.calls.get id with
    | some .probing =>
      if ok then some (drainQueue id { s with dbAvailable := true }) else some (finish id s)
    | _ => none
  | .decide n ok =>
    match s.statements.get n with
    | some ⟨entryId, .undecided⟩ =>
      if ok then
        if entryId ∈ s.log then none
        else some { s with
          log := s.log ++ [entryId]
          statements := s.statements.set n ⟨entryId, .inserted⟩ }
      else some { s with statements := s.statements.set n ⟨entryId, .failed⟩ }
    | _ => none
  | .resume id =>
    match s.calls.get id with
    | some (.inserting insert) =>
      match (insert.statement.bind s.statements.get).map Statement.status with
      | some .inserted => some (insertSucceeded id insert s)
      | some .failed => some (attemptFailed id insert s)
      | _ => none
    | _ => none
  | .timeout id =>
    match s.calls.get id with
    | some (.inserting insert) =>
      if insert.statement.isSome then some (attemptFailed id insert s) else none
    | _ => none
  | .wake id =>
    match s.calls.get id with
    | some (.inserting insert) =>
      if insert.statement.isSome then none else some (insertEntry id insert s)
    | _ => none

/-- The logger starts with an empty queue, over any rows; no entry has the key of one of them. -/
def sys : Sys State Action where
  init s := ∃ rows n, rows.Nodup ∧ (∀ e ∈ rows, e < n) ∧ s = { log := rows, nextEntry := n }
  step := step

end Calls

end AuditLogger

end VeriNode
