import VeriNode.Lib.Calls
import VeriNode.Queue.DeadLetterQueue
import VeriNode.Staking.Sequencer

/-!
# A slashing request

One call of `onSlashingRequest` of `src/staking/slashing_sequencer.ts`, from its start to its end:
the nonce, the transaction sent again by the dead letter queue, and the result. What other requests
do between its waits does not reach its variables. The calls of the nonce store are listed, and
none of them throws.

Then the metrics: one sequencer from its construction on, with the entries it sends again and any
number of requests at once, of which only the counters are kept. A submission waits from its first
transaction until it is confirmed or failed, or its transaction throws. The store may throw before
a submission; after it, that changes only how the request's promise ends.

Last, `NonceWindow`: a window of nonces that are claimed and released.
-/

namespace VeriNode

namespace SlashingSequencer

section Data

structure RpcError where
  code : ℤ
  message : String
deriving DecidableEq

structure TransactionResult where
  hash : String
  success : Bool
  error : Option RpcError
deriving DecidableEq

structure SlashingProcessingMessage where
  tx : SlashingTx
  nonce : String
  txPayload : String
deriving DecidableEq

structure SlashingResult where
  validatorId : String
  nonce : ℕ
  txHash : String
  success : Bool
  error : Option String := none
deriving DecidableEq

/-- What `sendTransaction` comes to. -/
inductive Outcome
  | result (result : TransactionResult)
  | threw (exception : DeadLetters.Exception)
deriving DecidableEq

/-- Whether the transaction failed. -/
def Outcome.fails : Outcome → Bool
  | .result r => !r.success
  | .threw _ => true

/-- What the outside answers: the transactions sent, in order, with the `stack` that an error made
there has; and the `insert`. -/
structure Outside where
  send : ℕ → Outcome
  stack : ℕ → Option String
  db : DeadLetters.Insert

/-- A call of the nonce store. -/
inductive StoreCall
  | flush
  | append (entry : WalEntry)
  | advanceWaterMark (waterMark : ℕ)
  | purgeConfirmed (waterMark : ℕ)
deriving DecidableEq

/-- The fields of `NonceSequencer`, with the options its queue's `process` runs with, if it has
one. -/
structure Sequencer where
  dlqManager : Option (ℚ × List ℕ)
  headPointer : ℕ
  waterMark : ℕ
  walFlushCounter : ℕ
  totalSubmitted : ℕ
  totalConfirmed : ℕ
  totalFailed : ℕ
  pendingCount : ℕ
  store : List StoreCall

/-- What a call leaves behind: the result, the entry of the log as it is then, the payloads sent
and the dead letters inserted. -/
structure Call where
  result : SlashingResult
  walEntry : WalEntry
  sent : List String
  inserted : List (DeadLetters.Entry SlashingProcessingMessage)
  sequencer : Sequencer

end Data

section Functions

def submissionError (result : TransactionResult) (stack : Option String) :
    DeadLetters.ErrorObject where
  name := "SlashingSubmissionError"
  message := (result.error.map (·.message)).getD "Unknown slashing submission failure"
  stack := stack

/-- The handler of `submitWithRetry`, which keeps the payloads it sent. -/
def handler (out : Outside) (message : SlashingProcessingMessage) (sent : List String) :
    Except (DeadLetters.Thrown TransactionResult) TransactionResult × List String :=
  (match out.send sent.length with
    | .threw e => .error (.exception e)
    | .result result =>
      if result.success then .ok result
      else .error (.own result (submissionError result (out.stack sent.length))),
    sent ++ [message.txPayload])

/-- `err instanceof Error ? err.message : String(err)`. -/
def messageOf : DeadLetters.Exception → String
  | .error error => error.message
  | .other _ text => text

/-- Nothing has been sent. -/
def started : DeadLetters.World (List String) SlashingProcessingMessage := { handler := [] }

def submitWithRetry (out : Outside) (message : SlashingProcessingMessage) (s : Sequencer) :
    TransactionResult × DeadLetters.World (List String) SlashingProcessingMessage :=
  let (result, w) :=
    match s.dlqManager with
    | some (maxRetries, backoffMs) =>
      DeadLetters.process out.db "slashing_request" message (handler out) maxRetries backoffMs
        started
    | none =>
      let (result, sent) := handler out message started.handler
      (result, { started with handler := sent })
  match result with
  | .ok result => (result, w)
  | .error (.own result _) => (result, w)
  | .error (.exception exception) =>
    (⟨"", false, some ⟨-32000, messageOf exception⟩⟩, w)

def reserveNonce (s : Sequencer) : ℕ × Sequencer :=
  (s.headPointer,
    { s with
      headPointer := s.headPointer + 1
      walFlushCounter := s.walFlushCounter + 1
      store :=
        if (s.walFlushCounter + 1) % Sequencer.walFlushInterval = 0 then s.store ++ [.flush]
        else s.store })

def advanceWaterMark (s : Sequencer) : Sequencer :=
  { s with
    waterMark := s.waterMark + 1
    store :=
      if s.walFlushCounter % Sequencer.walFlushInterval = 0 then
        s.store ++ [.advanceWaterMark (s.waterMark + 1), .purgeConfirmed (s.waterMark + 1)]
      else s.store }

def onSlashingRequest (out : Outside) (tx : SlashingTx) (now : ℕ) (s : Sequencer) : Call :=
  let (nonce, s) := reserveNonce s
  let walEntry : WalEntry := ⟨nonce, "", now, .pending⟩
  let s := { s with store := s.store ++ [.append walEntry] }
  let message : SlashingProcessingMessage := ⟨tx, toString nonce, Sequencer.buildTx tx nonce⟩
  let (result, w) := submitWithRetry out message s
  let s := { s with totalSubmitted := s.totalSubmitted + 1, pendingCount := s.pendingCount - 1 }
  if result.success then
    { result := ⟨tx.validatorId, nonce, result.hash, true, none⟩
      walEntry := { walEntry with txHash := result.hash, status := .confirmed }
      sent := w.handler
      inserted := w.inserted
      sequencer := advanceWaterMark { s with totalConfirmed := s.totalConfirmed + 1 } }
  else
    { result := ⟨tx.validatorId, nonce, "", false,
        some ((result.error.map (·.message)).getD "Unknown error")⟩
      walEntry := { walEntry with status := .failed }
      sent := w.handler
      inserted := w.inserted
      sequencer := { s with totalFailed := s.totalFailed + 1 } }

end Functions

section Metrics

/-- The counters of `NonceSequencer`. -/
structure Counters where
  headPointer : ℕ
  totalSubmitted : ℕ := 0
  totalConfirmed : ℕ := 0
  totalFailed : ℕ := 0
  pendingCount : ℕ := 0
deriving DecidableEq

structure SlashingMetrics where
  totalSubmitted : ℕ
  totalConfirmed : ℕ
  totalFailed : ℕ
  currentNonce : String
  pendingCount : ℕ
deriving DecidableEq

def getMetrics (c : Counters) : SlashingMetrics :=
  ⟨c.totalSubmitted, c.totalConfirmed, c.totalFailed, toString c.headPointer, c.pendingCount⟩

/-- Where a submission, or a request that came to none, stands. -/
inductive Stage
  /-- A request waits for `submitWithRetry`. -/
  | submitting
  /-- An entry of the log was sent again, and waits for the answer. -/
  | resubmitting
  | settled
  /-- Its transaction threw, or its store did before there was one. -/
  | threw
deriving DecidableEq

structure Submission where
  walEntry : WalEntry
  stage : Stage
deriving DecidableEq

/-- `resubmitEntry` up to its wait. -/
def resubmit (entry : WalEntry) (c : Counters) : Counters × Submission :=
  ({ c with totalSubmitted := c.totalSubmitted + 1, pendingCount := c.pendingCount + 1 },
    ⟨entry, .resubmitting⟩)

/-- `onSlashingRequest` up to its wait; the store may throw. -/
def request (now : ℕ) (storeThrows : Bool) (c : Counters) : Counters × Submission :=
  ({ c with headPointer := c.headPointer + 1 },
    ⟨⟨c.headPointer, "", now, .pending⟩, if storeThrows then .threw else .submitting⟩)

/-- What `submitWithRetry` makes of what came of the last transaction. -/
def Outcome.caught : Outcome → TransactionResult
  | .result r => r
  | .threw e => ⟨"", false, some ⟨-32000, messageOf e⟩⟩

/-- The transaction succeeded, or did not: what both functions count. -/
def settle (result : TransactionResult) (entry : WalEntry) (hash : String) (c : Counters) :
    Counters × Submission :=
  if result.success then
    ({ c with totalConfirmed := c.totalConfirmed + 1, pendingCount := c.pendingCount - 1 },
      ⟨{ entry with txHash := hash, status := .confirmed }, .settled⟩)
  else
    ({ c with totalFailed := c.totalFailed + 1, pendingCount := c.pendingCount - 1 },
      ⟨{ entry with status := .failed }, .settled⟩)

/-- The functions after their wait. -/
def settled (outcome : Outcome) (t : Submission) (c : Counters) : Option (Counters × Submission) :=
  match t.stage with
  | .submitting =>
    some (settle outcome.caught t.walEntry outcome.caught.hash
      { c with totalSubmitted := c.totalSubmitted + 1 })
  | .resubmitting =>
    match outcome with
    | .result r => some (settle r t.walEntry t.walEntry.txHash c)
    | .threw _ => some (c, { t with stage := .threw })
  | _ => none

/-- A call of `onSlashingRequest`, when it comes and whether the store throws. -/
structure Arrival where
  now : ℕ
  storeThrows : Bool
deriving DecidableEq

abbrev History := Calls.State Counters Submission

def requests : Calls Counters Submission Arrival Outcome where
  enter arrival c :=
    ((request arrival.now arrival.storeThrows c).1,
      [(request arrival.now arrival.storeThrows c).2])
  resume := settled

/-- The constructor. -/
def construct (waterMark : ℕ) (unconfirmed : List WalEntry) : History :=
  unconfirmed.foldl
    (fun s entry => ⟨(resubmit entry s.shared).1, s.calls ++ [(resubmit entry s.shared).2]⟩)
    ⟨{ headPointer := waterMark }, []⟩

/-- The life of a sequencer. -/
def histories : Sys History (Calls.Action Arrival Outcome) :=
  requests.system fun s => ∃ waterMark unconfirmed, s = construct waterMark unconfirmed

end Metrics

end SlashingSequencer

namespace NonceWindow

structure State where
  slots : List (Option ℤ)
  head : ℕ := 0
deriving DecidableEq

def nonceWindowSize : ℕ := 1024

variable (size : ℕ)

def construct : State := { slots := List.replicate size none }

/-- The first index, from the head on, whose slot is `null`. -/
def freeIndex (s : State) : Option ℕ :=
  ((List.range size).map fun i => (s.head + i) % size).find? fun index =>
    s.slots[index]? = some none

def claim (s : State) : Option ℤ × State :=
  match freeIndex size s with
  | none => (none, s)
  | some index =>
    (some index, { slots := s.slots.set index (some index), head := (index + 1) % size })

/-- The remainder of a `bigint` has the sign of what is divided; no slot has a negative index. -/
def release (nonce : ℤ) (s : State) : State :=
  let index := nonce.tmod size
  if 0 ≤ index ∧ s.slots[index.toNat]? = some (some nonce) then
    { s with slots := s.slots.set index.toNat none }
  else s

inductive Action
  | claim
  | release (nonce : ℤ)
deriving DecidableEq

def window : Sys State Action where
  init s := s = construct size
  step s
    | .claim => some (claim size s).2
    | .release nonce => some (release size nonce s)

end NonceWindow

end VeriNode
