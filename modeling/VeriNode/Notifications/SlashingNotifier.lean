import VeriNode.Lib.JsNumber
import VeriNode.Lib.Run
import VeriNode.Notifications.DeliveryStore

/-!
# Notifications of slashings

`notifySlashing` and `deliverChannel` of `src/notifications/slashingNotifier.ts`: any number of calls,
by any number of notifiers on one delivery store, interleaved at each await. An operation of the
store may fail before or after it has had its effect, a send may fail, and a process may stop; what
a message says is left out.
-/

namespace VeriNode

namespace Notifications

/-- `notificationIdFor`. -/
def notificationIdFor (sha256 : String → String) (slashingEventId : String)
    (channel : NotificationChannel) : String :=
  slashingEventId ++ ":" ++ channel.text ++ ":"
    ++ String.ofList ((sha256 (slashingEventId ++ ":" ++ channel.text)).toList.take 32)

namespace SlashingNotifier

section Deliveries

/-- How `deliverChannel` ends. -/
inductive Outcome
  | delivered
  | skipped
  /-- With a `ChannelDeliveryError`. -/
  | undelivered (causeValue : Option Thrown)
  /-- With an error of the store's. -/
  | broken (error : Thrown)
deriving DecidableEq

/-- Where `deliverChannel` stands. -/
inductive Phase
  | reading
  | claiming (attempt : ℕ)
  /-- The claim was granted, and nothing has been sent yet. -/
  | claimed (attempt : ℕ) (notificationId : String)
  | sending (attempt : ℕ) (notificationId : String)
  /-- The message has been sent, and is to be marked as delivered. -/
  | marking (attempt : ℕ)
  /-- It is to be marked as failed. -/
  | failing (attempt : ℕ) (error : Thrown)
  | sleeping (attempt : ℕ) (lastError : Thrown)
  | settled (outcome : Outcome)
  /-- Its process has stopped. -/
  | stopped
deriving DecidableEq

/-- A call of `deliverChannel`, by what it delivers and the call of `notifySlashing` that made it. -/
structure DeliveryId where
  slashingEventId : String
  channel : NotificationChannel
  call : ℕ
deriving DecidableEq

def DeliveryId.key (id : DeliveryId) : String × NotificationChannel :=
  (id.slashingEventId, id.channel)

structure Delivery where
  maxRetries : JsNumber
  phase : Phase
deriving DecidableEq

/-- What becomes of an operation of the store: it may fail before it has an effect, or when it has
had it. -/
inductive Fault
  | fine
  | refused
  | cut
deriving DecidableEq

/-- What a delivery does next. An operation that rejects does so with the error. -/
inductive Event
  | read (now : ℤ) (fault : Fault) (error : Thrown)
  | claim (now : ℤ) (fault : Fault) (error : Thrown)
  | send
  | sent (error : Option Thrown)
  | markDelivered (now : ℤ) (fault : Fault) (error : Thrown)
  | markFailed (now : ℤ) (fault : Fault) (error : Thrown)
  | wake
  | stop
deriving DecidableEq

/-- The head of the loop: another attempt, or none is left. -/
def enter (maxRetries : JsNumber) (attempt : ℕ) (lastError : Option Thrown) : Phase :=
  if (JsNumber.ofNat attempt).le maxRetries then .claiming attempt
  else .settled (.undelivered lastError)

/-- After `markFailed`. -/
def afterFailed (maxRetries : JsNumber) (attempt : ℕ) (error : Thrown) : Phase :=
  if (JsNumber.ofNat attempt).strictEq maxRetries then .settled (.undelivered (some error))
  else .sleeping attempt error

variable {σ : Type} (store : NotificationDeliveryStore σ) (sha256 : String → String)

/-- The operation that the delivery is about to make on the store. -/
def operation (id : DeliveryId) : Phase → Option Call
  | .reading => some (.getDelivery id.slashingEventId id.channel)
  | .claiming _ =>
    some (.claimDelivery id.slashingEventId id.channel
      (notificationIdFor sha256 id.slashingEventId id.channel))
  | .marking _ => some (.markDelivered id.slashingEventId id.channel)
  | .failing _ error => some (.markFailed id.slashingEventId id.channel error)
  | _ => none

/-- An operation of the store, with what becomes of it. -/
def perform (call : Call) (now : ℤ) (fault : Fault) (rows : σ) : Reply × σ :=
  match fault with
  | .fine => store.call call now rows
  | .refused => (.rejected, rows)
  | .cut => (.rejected, (store.call call now rows).2)

/-- What follows the reply to an operation. -/
def afterReply (maxRetries : JsNumber) (error : Thrown) : Phase → Reply → Phase
  | .reading, .record (some existing) =>
    if existing.status = .delivered then .settled .skipped else enter maxRetries 0 none
  | .reading, .record none => enter maxRetries 0 none
  | .claiming attempt, .record (some claimed) => .claimed attempt claimed.notificationId
  | .claiming _, .record none => .settled .skipped
  | .marking _, .void => .settled .delivered
  -- what `markDelivered` throws is caught as what a send throws
  | .marking attempt, _ => .failing attempt error
  | .failing attempt error, .void => afterFailed maxRetries attempt error
  | _, _ => .settled (.broken error)

/-- The reply to the operation, and where it leads. -/
def ask (id : DeliveryId) (delivery : Delivery) (now : ℤ) (fault : Fault) (error : Thrown)
    (rows : σ) : Option (Phase × σ) :=
  (operation sha256 id delivery.phase).map fun call =>
    let replied := perform store call now fault rows
    (afterReply delivery.maxRetries error delivery.phase replied.1, replied.2)

/-- One step of a delivery. -/
def advance (id : DeliveryId) (delivery : Delivery) (rows : σ) : Event → Option (Phase × σ)
  | .read now fault error =>
    match delivery.phase with
    | .reading => ask store sha256 id delivery now fault error rows
    | _ => none
  | .claim now fault error =>
    match delivery.phase with
    | .claiming _ => ask store sha256 id delivery now fault error rows
    | _ => none
  | .send =>
    match delivery.phase with
    | .claimed attempt notificationId => some (.sending attempt notificationId, rows)
    | _ => none
  | .sent error =>
    match delivery.phase, error with
    | .sending attempt _, none => some (.marking attempt, rows)
    | .sending attempt _, some error => some (.failing attempt error, rows)
    | _, _ => none
  | .markDelivered now fault error =>
    match delivery.phase with
    | .marking _ => ask store sha256 id delivery now fault error rows
    | _ => none
  | .markFailed now fault error =>
    match delivery.phase with
    | .failing _ _ => ask store sha256 id delivery now fault error rows
    | _ => none
  | .wake =>
    match delivery.phase with
    | .sleeping attempt lastError =>
      some (enter delivery.maxRetries (attempt + 1) (some lastError), rows)
    | _ => none
  | .stop =>
    match delivery.phase with
    | .settled _ => none
    | .stopped => none
    | _ => some (.stopped, rows)

end Deliveries

section System

variable {σ : Type}

structure State (σ : Type) where
  rows : σ
  deliveries : OrdMap DeliveryId Delivery := ∅
  nextCall : ℕ := 0

inductive Action
  | notifySlashing (slashingEventId : String) (maxRetries : JsNumber)
  | next (id : DeliveryId) (event : Event)
deriving DecidableEq

/-- A call starts a delivery on each channel. -/
def notifySlashing (slashingEventId : String) (maxRetries : JsNumber) (s : State σ) : State σ :=
  { s with
    deliveries := (s.deliveries.set ⟨slashingEventId, .email, s.nextCall⟩ ⟨maxRetries, .reading⟩).set
      ⟨slashingEventId, .webhook, s.nextCall⟩ ⟨maxRetries, .reading⟩
    nextCall := s.nextCall + 1 }

def State.goOn (id : DeliveryId) (delivery : Delivery) (phase : Phase) (rows : σ) (s : State σ) :
    State σ :=
  { s with rows, deliveries := s.deliveries.set id { delivery with phase := phase } }

def step (store : NotificationDeliveryStore σ) (sha256 : String → String) (s : State σ) :
    Action → Option (State σ)
  | .notifySlashing slashingEventId maxRetries =>
    some (notifySlashing slashingEventId maxRetries s)
  | .next id event =>
    match s.deliveries.get id with
    | none => none
    | some delivery =>
      (advance store sha256 id delivery s.rows event).map fun r => s.goOn id delivery r.1 r.2

/-- The store is empty at first, and no call has been made. -/
def sys (store : NotificationDeliveryStore σ) (sha256 : String → String) :
    Sys (State σ) Action where
  init s := s = { rows := store.empty }
  step := step store sha256

end System

section Results

variable {σ : Type}

/-- A field of `SlashingNotificationResult`. -/
inductive ChannelResult
  | delivered
  | skipped
deriving DecidableEq

/-- How `notifySlashing` ends: with its result, or with the channels of the
`SlashingNotificationError`. -/
inductive NotifyResult
  | resolved (email webhook : ChannelResult)
  | rejected (failures : List NotificationChannel)
deriving DecidableEq

/-- The channels a delivery puts among the failures; an error that is no `ChannelDeliveryError` is
put under both. -/
def failures (channel : NotificationChannel) : Outcome → List NotificationChannel
  | .undelivered _ => [channel]
  | .broken _ => [.email, .webhook]
  | _ => []

def channelResult : Outcome → ChannelResult
  | .delivered => .delivered
  | _ => .skipped

def Phase.outcome : Phase → Option Outcome
  | .settled outcome => some outcome
  | _ => none

/-- The outcome of a delivery that has settled. -/
def State.outcome (s : State σ) (id : DeliveryId) : Option Outcome :=
  (s.deliveries.get id).bind (·.phase.outcome)

/-- The result of a call, once both its deliveries have settled. -/
def State.result (s : State σ) (slashingEventId : String) (call : ℕ) : Option NotifyResult :=
  match s.outcome ⟨slashingEventId, .email, call⟩, s.outcome ⟨slashingEventId, .webhook, call⟩ with
  | some email, some webhook =>
    let failed := failures .email email ++ failures .webhook webhook
    if failed = [] then some (.resolved (channelResult email) (channelResult webhook))
    else some (.rejected failed.dedup)
  | _, _ => none

end Results

end SlashingNotifier

/-- Either delivery store. -/
inductive Backend
  | pg
  | memory
deriving DecidableEq

def Backend.Rows : Backend → Type
  | .pg => Pg.Table
  | .memory => Memory.Records

def Backend.store : (b : Backend) → NotificationDeliveryStore b.Rows
  | .pg => pgStore
  | .memory => memoryStore

end Notifications

end VeriNode
