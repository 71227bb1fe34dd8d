import VeriNode.Lib.OrdMap
import VeriNode.Lib.Calls
import VeriNode.Lib.Json

/-!
# The notification delivery stores

`PgNotificationDeliveryStore`, over the table of
`src/database/migrations/007_notification_delivery.sql`, and `InMemoryNotificationDeliveryStore` of
`src/notifications/deliveryStore.ts`. A call rejects, or resolves with what it returns. A `TEXT` has
no zero character, and `attempts` is an `INTEGER`; `created_at` is not read.
-/

namespace VeriNode

namespace Notifications

section Records

inductive NotificationChannel
  | email
  | webhook
deriving DecidableEq

def NotificationChannel.text : NotificationChannel → String
  | .email => "email"
  | .webhook => "webhook"

inductive NotificationDeliveryStatus
  | pending
  | delivering
  | delivered
  | failed
deriving DecidableEq

structure NotificationDeliveryRecord where
  slashingEventId : String
  channel : NotificationChannel
  notificationId : String
  status : NotificationDeliveryStatus
  attempts : ℕ
  lastError : Option String
  updatedAt : ℤ
deriving DecidableEq

/-- What is thrown: an error, or another value with the text that `String` gives it, if it gives
one. -/
inductive Thrown
  | error (message : String)
  | value (text : Option String)
deriving DecidableEq

/-- `errorMessage`; none if `String` throws. -/
def errorMessage : Thrown → Option String
  | .error message => some message
  | .value text => text

end Records

section Interface

inductive Call
  | claimDelivery (slashingEventId : String) (channel : NotificationChannel)
      (notificationId : String)
  | markDelivered (slashingEventId : String) (channel : NotificationChannel)
  | markFailed (slashingEventId : String) (channel : NotificationChannel) (error : Thrown)
  | getDelivery (slashingEventId : String) (channel : NotificationChannel)
deriving DecidableEq

inductive Reply
  | rejected
  | void
  | record (record : Option NotificationDeliveryRecord)
deriving DecidableEq

/-- `NotificationDeliveryStore`. A call is made at a time. -/
structure NotificationDeliveryStore (σ : Type) where
  empty : σ
  call : Call → ℤ → σ → Reply × σ

/-- The replies to the calls, in order. -/
def NotificationDeliveryStore.replies {σ : Type} (store : NotificationDeliveryStore σ) :
    σ → List (Call × ℤ) → List Reply
  | _, [] => []
  | s, (call, now) :: calls =>
    (store.call call now s).1 :: store.replies (store.call call now s).2 calls

end Interface

namespace Pg

/-- A row of `notification_delivery`, without its key. -/
structure DeliveryRow where
  notificationId : String
  status : NotificationDeliveryStatus
  attempts : ℕ
  lastError : Option String
  updatedAt : ℤ
deriving DecidableEq

abbrev Table := OrdMap (String × NotificationChannel) DeliveryRow

/-- Whether a `TEXT` can hold it. -/
def text (s : String) : Bool := !s.toList.contains (Char.ofNat 0)

/-- Whether an `INTEGER` can hold it. -/
def integer (n : ℕ) : Bool := n < 2 ^ 31

def mapDeliveryRow (slashingEventId : String) (channel : NotificationChannel) (row : DeliveryRow) :
    NotificationDeliveryRecord :=
  { slashingEventId, channel
    notificationId := row.notificationId
    status := row.status
    attempts := row.attempts
    lastError := row.lastError
    updatedAt := row.updatedAt }

/-- What `ON CONFLICT … DO UPDATE` sets. -/
def reclaim (now : ℤ) (row : DeliveryRow) : DeliveryRow :=
  { row with
    status := .delivering
    attempts := row.attempts + 1
    updatedAt := now
    lastError := none }

/-- The row that the insert adds or updates; none if it leaves the row alone. It fails for an
`INTEGER` out of range, and for a `notification_id` that another row has. -/
def upsert (slashingEventId : String) (channel : NotificationChannel) (notificationId : String)
    (now : ℤ) (table : Table) : Option (Option DeliveryRow) :=
  match table.get (slashingEventId, channel) with
  | some row =>
    if row.status = .pending ∨ row.status = .failed then
      if integer (row.attempts + 1) then some (some (reclaim now row)) else none
    else some none
  | none =>
    if table.entries.any (·.2.notificationId = notificationId) then none
    else some (some ⟨notificationId, .delivering, 1, none, now⟩)

/-- `UPDATE … WHERE slashing_event_id = $1 AND channel = $2`. -/
def update (slashingEventId : String) (channel : NotificationChannel) (f : DeliveryRow → DeliveryRow)
    (table : Table) : Table :=
  match table.get (slashingEventId, channel) with
  | some row => table.set (slashingEventId, channel) (f row)
  | none => table

def call : Call → ℤ → Table → Reply × Table
  | .claimDelivery slashingEventId channel notificationId, now, table =>
    if text slashingEventId && text notificationId then
      match upsert slashingEventId channel notificationId now table with
      | none => (.rejected, table)
      | some none => (.record none, table)
      | some (some row) =>
        (.record (some (mapDeliveryRow slashingEventId channel row)),
          table.set (slashingEventId, channel) row)
    else (.rejected, table)
  | .markDelivered slashingEventId channel, now, table =>
    if text slashingEventId then
      (.void, update slashingEventId channel
        (fun row => { row with status := .delivered, updatedAt := now, lastError := none }) table)
    else (.rejected, table)
  | .markFailed slashingEventId channel error, now, table =>
    match errorMessage error with
    | none => (.rejected, table)
    | some message =>
      if text slashingEventId && text message then
        (.void, update slashingEventId channel
          (fun row => { row with status := .failed, updatedAt := now, lastError := some message })
          table)
      else (.rejected, table)
  | .getDelivery slashingEventId channel, _, table =>
    if text slashingEventId then
      (.record ((table.get (slashingEventId, channel)).map
        (mapDeliveryRow slashingEventId channel)), table)
    else (.rejected, table)

end Pg

/-- `PgNotificationDeliveryStore`. -/
def pgStore : NotificationDeliveryStore Pg.Table := ⟨∅, Pg.call⟩

namespace Memory

abbrev Records := OrdMap String NotificationDeliveryRecord

def key (slashingEventId : String) (channel : NotificationChannel) : String :=
  slashingEventId ++ ":" ++ channel.text

/-- The record that `claimDelivery` sets; none if it returns null. -/
def claim (slashingEventId : String) (channel : NotificationChannel) (notificationId : String)
    (now : ℤ) (existing : Option NotificationDeliveryRecord) : Option NotificationDeliveryRecord :=
  if existing.any fun r => r.status = .delivered || r.status = .delivering then none
  else some
    { slashingEventId, channel
      notificationId := (existing.map (·.notificationId)).getD notificationId
      status := .delivering
      attempts := (existing.map (·.attempts)).getD 0 + 1
      lastError := none
      updatedAt := now }

/-- Assigns fields of the record, if there is one. -/
def assign (slashingEventId : String) (channel : NotificationChannel)
    (f : NotificationDeliveryRecord → NotificationDeliveryRecord) (records : Records) : Records :=
  match records.get (key slashingEventId channel) with
  | some record => records.set (key slashingEventId channel) (f record)
  | none => records

def call : Call → ℤ → Records → Reply × Records
  | .claimDelivery slashingEventId channel notificationId, now, records =>
    match claim slashingEventId channel notificationId now
        (records.get (key slashingEventId channel)) with
    | none => (.record none, records)
    | some record => (.record (some record), records.set (key slashingEventId channel) record)
  | .markDelivered slashingEventId channel, now, records =>
    (.void, assign slashingEventId channel
      (fun record => { record with status := .delivered, lastError := none, updatedAt := now })
      records)
  | .markFailed slashingEventId channel error, now, records =>
    if (records.get (key slashingEventId channel)).isNone then (.void, records)
    else
      match errorMessage error with
      -- the status has been assigned when `String` throws
      | none =>
        (.rejected, assign slashingEventId channel
          (fun record => { record with status := .failed }) records)
      | some message =>
        (.void, assign slashingEventId channel
          (fun record => { record with
            status := .failed
            lastError := some message
            updatedAt := now })
          records)
  | .getDelivery slashingEventId channel, _, records =>
    (.record (records.get (key slashingEventId channel)), records)

end Memory

/-- `InMemoryNotificationDeliveryStore`. -/
def memoryStore : NotificationDeliveryStore Memory.Records := ⟨∅, Memory.call⟩

end Notifications

end VeriNode

/-!
# Senders that send once

`IdempotentWebhookService` of `src/notifications/webhookService.ts` and `IdempotentEmailService` of
`src/notifications/emailService.ts`: any number of calls of one service, interleaved at the wait for
its sender. What the sender does is the outside's: it succeeds or fails at any time, and the call
goes on at any time after that. A sender that throws at once is one that fails before anything else
happens.
-/

namespace VeriNode

namespace Notifications

structure WebhookNotification (ν : Type) where
  notificationId : String
  url : String
  payload : List (String × Json ν)
  timeoutMs : ν

structure EmailNotification where
  notificationId : String
  «to» : String
  subject : String
  body : String
deriving DecidableEq

namespace Idempotent

/-- Where a call stands. -/
inductive Phase
  /-- It waits for the sender. -/
  | sending
  /-- The sender has succeeded, or failed, and the call has not gone on. -/
  | settled (ok : Bool)
  /-- It resolved when its notification had been sent. -/
  | sent
  /-- It resolved at once. -/
  | skipped
  | rejected
deriving DecidableEq

structure Call (μ : Type) where
  notification : μ
  phase : Phase
deriving DecidableEq

inductive Event
  /-- The sender's promise settles. -/
  | settle (ok : Bool)
  | next
deriving DecidableEq

variable {μ : Type}

/-- What one call of the service's function does, by how a notification says which it is: on a call,
and with what the sender comes to. -/
def calls (notificationId : μ → String) : Calls (OrdSet String) (Call μ) μ Event where
  enter notification processed :=
    (processed,
      [⟨notification,
        if processed.has (notificationId notification) then .skipped else .sending⟩])
  resume
    | .settle ok, ⟨notification, .sending⟩, processed =>
      some (processed, ⟨notification, .settled ok⟩)
    | .next, ⟨notification, .settled true⟩, processed =>
      some (processed.add (notificationId notification), ⟨notification, .sent⟩)
    | .next, ⟨notification, .settled false⟩, processed => some (processed, ⟨notification, .rejected⟩)
    | _, _, _ => none

abbrev State (μ : Type) := Calls.State (OrdSet String) (Call μ)

abbrev Action (μ : Type) := Calls.Action μ Event

/-- The calls of a new service. -/
def system (notificationId : μ → String) : Sys (State μ) (Action μ) :=
  (calls notificationId).system fun s => s = ⟨∅, []⟩

end Idempotent

/-- `postWebhook`. -/
def IdempotentWebhookService.postWebhook (ν : Type) :
    Sys (Idempotent.State (WebhookNotification ν)) (Idempotent.Action (WebhookNotification ν)) :=
  Idempotent.system WebhookNotification.notificationId

/-- `sendEmail`. -/
def IdempotentEmailService.sendEmail :
    Sys (Idempotent.State EmailNotification) (Idempotent.Action EmailNotification) :=
  Idempotent.system EmailNotification.notificationId

end Notifications

end VeriNode
