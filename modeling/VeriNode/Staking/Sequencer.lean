import Mathlib.Data.List.Basic
import VeriNode.Lib.JsString
import VeriNode.Lib.OrdMap
import VeriNode.Lib.Run

/-!
# The nonce store

`NonceStore` of `src/database/nonce_store.ts`, the part that is on disk. The log is a text of
lines; `JSON.stringify` of an entry has no line break in it and `JSON.parse` reads it back, so the
text is kept as the entries and the line breaks that were written. Two entries with no break
between them are one line, which is not JSON.
-/

namespace VeriNode

inductive WalStatus
  | pending
  | confirmed
  | failed
deriving DecidableEq

structure WalEntry where
  nonce : ℕ
  txHash : String
  timestamp : ℕ
  status : WalStatus
deriving DecidableEq

namespace NonceStore

inductive Piece
  | entry (entry : WalEntry)
  | newline
deriving DecidableEq

/-- `slashing_nonce_wal.jsonl` and `nonce_water_mark.json`, if they exist. -/
structure Files where
  wal : Option (List Piece) := none
  waterMark : Option ℕ := none

/-- `content.split('\n')`. -/
def split : List Piece → List (List WalEntry)
  | [] => [[]]
  | .newline :: content => [] :: split content
  | .entry e :: content =>
    match split content with
    | [] => [[e]]
    | line :: lines => (e :: line) :: lines

/-- `JSON.parse` of a line. -/
def parseLine : List WalEntry → Option WalEntry
  | [e] => some e
  | _ => none

/-- The entries of the lines that are not empty; none if a line is no entry. -/
def parse (content : List Piece) : Option (List WalEntry) :=
  ((split content).filter (· ≠ [])).mapM parseLine

/-- `flush` appends one entry. -/
def appendLine (entry : WalEntry) (f : Files) : Files :=
  { f with wal := some (f.wal.getD [] ++ [.entry entry, .newline]) }

def advanceWaterMark (nonce : ℕ) (f : Files) : Files := { f with waterMark := some nonce }

def getWaterMark (f : Files) : ℕ := f.waterMark.getD 0

/-- The entries of the log, if there is a log and it can be read. -/
def entries (f : Files) : Option (List WalEntry) :=
  match f.wal with
  | none => some []
  | some content => parse content

/-- `replayUnconfirmed`, none if it throws. -/
def replayUnconfirmed (f : Files) : Option (List WalEntry) :=
  (entries f).map fun es => es.filter (·.status = .pending)

/-- `JSON.stringify` of the entries, joined by line breaks. -/
def joined (es : List WalEntry) : List Piece := (es.map .entry).intersperse .newline

/-- `purgeConfirmed`, none if it throws. -/
def purgeConfirmed (upToNonce : ℕ) (f : Files) : Option Files :=
  match f.wal with
  | none => some f
  | some content => (parse content).map fun es =>
    { f with
      wal := some (joined (es.filter fun e => e.status ≠ .confirmed ∧ upToNonce < e.nonce)) }

end NonceStore

end VeriNode

/-!
# The nonce sequencer

`NonceSequencer` of `src/staking/slashing_sequencer.ts` over one data directory, any number of
requests at once. Between two waits a request runs in one piece, and a crash may come between any
two of its writes to the files: what is left of the piece is kept as tasks. The process that
crashes takes its memory with it; the files and what was sent stay. An entry of the log is an
object that the request goes on writing to, so the buffer holds requests, and a flush writes what
their entries are by then.
-/

namespace VeriNode

structure SlashingTx where
  validatorId : String
  misbehaviorType : String
  evidence : String
  signature : String
deriving DecidableEq

namespace Sequencer

section Data

def walFlushInterval : ℕ := 64

/-- `DLQ_MAX_RETRIES`. -/
def dlqMaxRetries : ℕ := 3

/-- What is left to do before the next wait. -/
inductive Task
  /-- `append`: the entry goes into the buffer. -/
  | append (id : ℕ)
  | flush
  /-- `flush` writes an entry. -/
  | write (id : ℕ)
  /-- `flush` empties the buffer. -/
  | clear
  /-- The transaction is built and sent. -/
  | submit (id : ℕ)
  | advanceWaterMark
  | purgeConfirmed
deriving DecidableEq

inductive Phase
  | reserved
  /-- It waits for the answer to its transaction, sent again `retries` times. -/
  | submitted (retries : ℕ)
  | confirmed
  | failed
deriving DecidableEq

/-- A call of `onSlashingRequest`. -/
structure Request where
  tx : SlashingTx
  nonce : ℕ
  walEntry : WalEntry
  phase : Phase

/-- A sequencer with its store. Its requests are those from `first` on. -/
structure Process where
  flushThreshold : ℕ
  dlqManager : Bool
  first : ℕ
  headPointer : ℕ
  waterMark : ℕ
  walFlushCounter : ℕ := 0
  buffer : List ℕ := []
  todo : List Task := []

/-- What `sendTransaction` was called with. -/
inductive Sent
  | built (id nonce : ℕ) (payload : String)
  | resubmitted (entry : WalEntry) (payload : String)
deriving DecidableEq

structure State where
  files : NonceStore.Files := {}
  process : Option Process := none
  requests : OrdMap ℕ Request := ∅
  sent : List Sent := []
  nextId : ℕ := 0

end Data

section Steps

def buildTx (tx : SlashingTx) (nonce : ℕ) : String :=
  JsString.stringify [("nonce", toString nonce), ("validatorId", tx.validatorId),
    ("misbehaviorType", tx.misbehaviorType), ("evidence", tx.evidence), ("signature", tx.signature)]

/-- What `resubmitEntry` sends. -/
def resubmitEntry (entry : WalEntry) : String := entry.txHash

/-- The constructor. If the log cannot be read it throws, and there is no sequencer. -/
def construct (flushThreshold : ℕ) (dlqManager : Bool) (s : State) : State :=
  match NonceStore.replayUnconfirmed s.files with
  | none => s
  | some unconfirmed =>
    { s with
      process := some {
        flushThreshold := flushThreshold
        dlqManager := dlqManager
        first := s.nextId
        headPointer := NonceStore.getWaterMark s.files
        waterMark := NonceStore.getWaterMark s.files }
      sent := s.sent ++ unconfirmed.map fun entry => .resubmitted entry (resubmitEntry entry) }

/-- `onSlashingRequest` up to its first write: the nonce is reserved. -/
def onSlashingRequest (tx : SlashingTx) (now : ℕ) (p : Process) (s : State) : State :=
  { s with
    process := some { p with
      headPointer := p.headPointer + 1
      walFlushCounter := p.walFlushCounter + 1
      todo :=
        if (p.walFlushCounter + 1) % walFlushInterval = 0 then
          [.flush, .append s.nextId, .submit s.nextId]
        else [.append s.nextId, .submit s.nextId] }
    requests := s.requests.set s.nextId
      ⟨tx, p.headPointer, ⟨p.headPointer, "", now, .pending⟩, .reserved⟩
    nextId := s.nextId + 1 }

/-- `sendTransaction` is called for a request. -/
def send (id : ℕ) (request : Request) (retries : ℕ) (s : State) : State :=
  { s with
    requests := s.requests.set id { request with phase := .submitted retries }
    sent := s.sent ++ [.built id request.nonce (buildTx request.tx request.nonce)] }

/-- A task is done, with what is left to do after it. -/
def runTask (task : Task) (rest : List Task) (p : Process) (s : State) : State :=
  match task with
  | .append id =>
    { s with process := some { p with
        buffer := p.buffer ++ [id]
        todo := if p.flushThreshold ≤ p.buffer.length + 1 then .flush :: rest else rest } }
  | .flush => { s with process := some { p with todo := p.buffer.map .write ++ .clear :: rest } }
  | .write id =>
    match s.requests.get id with
    | none => { s with process := some { p with todo := rest } }
    | some request =>
      { s with
        files := NonceStore.appendLine request.walEntry s.files
        process := some { p with todo := rest } }
  | .clear => { s with process := some { p with buffer := [], todo := rest } }
  | .submit id =>
    match s.requests.get id with
    | none => { s with process := some { p with todo := rest } }
    | some request => send id request 0 { s with process := some { p with todo := rest } }
  | .advanceWaterMark =>
    { s with
      files := NonceStore.advanceWaterMark p.waterMark s.files
      process := some { p with todo := rest } }
  | .purgeConfirmed =>
    match NonceStore.purgeConfirmed p.waterMark s.files with
    -- it throws, and the call of `onSlashingRequest` rejects
    | none => { s with process := some { p with todo := rest } }
    | some files => { s with files := files, process := some { p with todo := rest } }

/-- The transaction is accepted: `advanceWaterMark` up to its first write. -/
def confirm (id : ℕ) (request : Request) (hash : String) (p : Process) (s : State) : State :=
  { s with
    process := some { p with
      waterMark := p.waterMark + 1
      todo :=
        if p.walFlushCounter % walFlushInterval = 0 then [.advanceWaterMark, .purgeConfirmed]
        else [] }
    requests := s.requests.set id
      { request with
        walEntry := { request.walEntry with txHash := hash, status := .confirmed }
        phase := .confirmed } }

def fail (id : ℕ) (request : Request) (s : State) : State :=
  { s with
    requests := s.requests.set id
      { request with
        walEntry := { request.walEntry with status := .failed }
        phase := .failed } }

/-- The answer to a transaction: its hash, or that it failed. The dead letter queue's `process`
sends a failed one again. -/
def answer (id : ℕ) (request : Request) (retries : ℕ) (hash : Option String) (p : Process)
    (s : State) : State :=
  match hash with
  | some hash => confirm id request hash p s
  | none =>
    if p.dlqManager ∧ retries < dlqMaxRetries then send id request (retries + 1) s
    else fail id request s

inductive Action
  | construct (flushThreshold : ℕ) (dlqManager : Bool)
  | request (tx : SlashingTx) (now : ℕ)
  | task
  | answer (id : ℕ) (hash : Option String)
  | crash
deriving DecidableEq

def step (s : State) : Action → Option State
  | .construct flushThreshold dlqManager =>
    match s.process with
    | none => some (construct flushThreshold dlqManager s)
    | some _ => none
  | .request tx now =>
    match s.process with
    | none => none
    | some p => if p.todo = [] then some (onSlashingRequest tx now p s) else none
  | .task =>
    match s.process with
    | none => none
    | some p =>
      match p.todo with
      | [] => none
      | task :: rest => some (runTask task rest p s)
  | .answer id hash =>
    match s.process, s.requests.get id with
    | some p, some request =>
      match request.phase with
      | .submitted retries =>
        if p.todo = [] ∧ p.first ≤ id then some (answer id request retries hash p s) else none
      | _ => none
    | _, _ => none
  | .crash =>
    match s.process with
    | none => none
    | some _ => some { s with process := none }

/-- The system starts with an empty data directory. -/
def sys : Sys State Action where
  init s := s = {}
  step := step

end Steps

end Sequencer

end VeriNode
