import VeriNode.Lib.JsDate
import VeriNode.Lib.Jsonb

/-!
# Signed audit entries

`computeHmac` of `src/audit/hmac.ts`, what `AuditLogger` makes of an entry and how it verifies the
stored ones, of `src/audit/audit_logger.ts`, and the rows that `BaselineManager` writes past it, of
`src/audit/baseline_manager.ts`. The HMAC for the secret, on texts, is a parameter; so is the cast to
`INET`, which gives the text the column is read back as, or refuses.
-/

namespace VeriNode

namespace AuditLog

section Data

/-- Hexadecimal digits in groups, as they are made and as the column is read. -/
def isUuid (s : String) : Bool :=
  (s.toList.splitOn '-').map List.length = [8, 4, 4, 4, 12]
    && s.toList.all fun c => c.isDigit || ('a' ≤ c && c ≤ 'f') || c = '-'

structure Uuid where
  text : String
  valid : isUuid text = true
deriving DecidableEq

inductive ChangeSource
  | file
  | env
  | remoteEtcd
  | remoteConsul
  | hotUpdate
  | rollback
  | rollbackSkip
  | accessDenied
deriving DecidableEq

def ChangeSource.text : ChangeSource → String
  | .file => "file"
  | .env => "env"
  | .remoteEtcd => "remote_etcd"
  | .remoteConsul => "remote_consul"
  | .hotUpdate => "hot_update"
  | .rollback => "rollback"
  | .rollbackSkip => "rollback_skip"
  | .accessDenied => "access_denied"

/-- `AuditEntryInput`; a value that is `undefined` is none. -/
structure AuditEntryInput (ν : Type*) where
  configPath : String
  previousValue : Option (JsValue ν)
  newValue : Option (JsValue ν)
  actor : String
  sourceIp : Option String
  changedAt : JsDate
  changeSource : ChangeSource

structure AuditEntry (ν : Type*) extends AuditEntryInput ν where
  entryId : Uuid
  hmacDigest : String

/-- A row of `config_audit_log`: the entry that `rowToEntry` makes of it, and what its time has beyond
the milliseconds of a `Date`. -/
structure AuditRow (ν : Type*) extends AuditEntry ν where
  micros : Fin 1000

structure NotFoundError where
  message : String
deriving DecidableEq

structure ChainVerificationResult where
  totalChecked : ℕ
  validCount : ℕ
  invalidCount : ℕ
  invalidEntryIds : List Uuid

end Data

variable {ν : Type*}

/-- `value ?? null`. -/
def orNull (v : Option (JsValue ν)) : JsValue ν := v.getD ⟨.null, rfl⟩

section Sign

variable [JsonNumber ν]

/-- What `computeHmac` authenticates. -/
def payload (e : AuditEntry ν) : String :=
  "|".intercalate
    [e.entryId.text,
      e.configPath,
      (orNull e.previousValue).json.stringify,
      (orNull e.newValue).json.stringify,
      e.actor,
      e.sourceIp.getD "",
      e.changedAt.toISOString,
      e.changeSource.text]

variable (hmac : String → String)

def computeHmac (e : AuditEntry ν) : String := hmac (payload e)

/-- The entry that `write` makes of its input. -/
def signed (input : AuditEntryInput ν) (entryId : Uuid) : AuditEntry ν :=
  { input with
    entryId
    hmacDigest := computeHmac hmac { input with entryId, hmacDigest := "" } }

def verifyIntegrity (log : List (AuditRow ν)) (entryId : Uuid) : Except NotFoundError Bool :=
  match log.filter fun row => row.entryId = entryId with
  | [] => .error ⟨"Audit entry not found: " ++ entryId.text⟩
  | row :: _ => .ok (computeHmac hmac row.toAuditEntry = row.hmacDigest)

/-- `changed_at >= $1 AND changed_at <= $2`. -/
def inPeriod (start finish : JsDate) (row : AuditRow ν) : Bool :=
  start.ms ≤ row.changedAt.ms
    && (row.changedAt.ms < finish.ms || (row.changedAt.ms = finish.ms && row.micros = 0))

/-- `ORDER BY changed_at ASC`. -/
def inOrder (rows : List (AuditRow ν)) : List (AuditRow ν) :=
  rows.insertionSort fun r q =>
    r.changedAt.ms < q.changedAt.ms ∨ (r.changedAt.ms = q.changedAt.ms ∧ r.micros ≤ q.micros)

def verifyChain (log : List (AuditRow ν)) (start finish : JsDate) : ChainVerificationResult :=
  let rows := inOrder (log.filter (inPeriod start finish))
  let invalidEntryIds := (rows.filter fun row =>
    computeHmac hmac row.toAuditEntry ≠ row.hmacDigest).map (·.entryId)
  { totalChecked := rows.length
    validCount := rows.length - invalidEntryIds.length
    invalidCount := invalidEntryIds.length
    invalidEntryIds }

end Sign

section Store

variable (inet : String → Option String)

/-- The value that a column of JSON is read back as; what is written is never `undefined`. -/
def stored (v : Option (JsValue ν)) : Option (JsValue ν) := some (orNull v).norm

/-- `_insertEntry`: the row that the entry is read back from. The cast may refuse the address. -/
def insertEntry (e : AuditEntry ν) : Option (AuditRow ν) :=
  match e.sourceIp with
  | none =>
    some { e with
      previousValue := stored e.previousValue
      newValue := stored e.newValue
      micros := 0 }
  | some ip =>
    (inet ip).map fun address =>
      { e with
        previousValue := stored e.previousValue
        newValue := stored e.newValue
        sourceIp := some address
        micros := 0 }

/-- Who asks. -/
structure ActorContext where
  actorId : String
  sourceIp : Option String

/-- `_writeAccessDenied`: the database makes the id and the time, and the digest is no HMAC. -/
def writeAccessDenied (actor : ActorContext) (operation : String) (entryId : Uuid) (now : JsDate)
    (micros : Fin 1000) : Option (AuditRow ν) :=
  let row (sourceIp : Option String) : AuditRow ν :=
    { entryId, micros, sourceIp
      configPath := "baseline." ++ operation
      previousValue := some ⟨.null, rfl⟩
      newValue := some ⟨.null, rfl⟩
      actor := actor.actorId
      changedAt := now
      changeSource := .accessDenied
      hmacDigest := "".pushn '0' 64 }
  match actor.sourceIp with
  | none => some (row none)
  | some ip => (inet ip).map fun address => row (some address)

end Store

end AuditLog

end VeriNode
