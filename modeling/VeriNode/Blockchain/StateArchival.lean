import VeriNode.Lib.Calls
import VeriNode.Lib.JsNumber
import VeriNode.Lib.Pieces

/-!
# Renewing what would be archived

`StateArchivalListener.tick` of `src/blockchain/state_archival.ts`, with `submitBatchRenewal` and
`chunk` of `src/blockchain/transaction_builder.ts`: any number of ticks over one table
`state_archival_watchlist`, interleaved at each await, under one clock in milliseconds. A read may
fail, and so may a submission each time it is sent, the loading of the list, and the transaction
that keeps a renewal, which may have had its effect then. `NOW()` is the time its transaction
began. What is logged, and what a metric is told, is left out.
-/

namespace VeriNode

namespace StateArchival

section Data

/-- `DEFAULT_TTL_LEDGERS`. -/
def defaultTtlLedgers : ℤ := 10000

/-- `MAX_BATCH_TTL_ENTRIES`. -/
def maxBatchTtlEntries : ℕ := 20

/-- `RENEWAL_THRESHOLD_LEDGERS`. -/
def renewalThresholdLedgers : JsNumber := 2000

structure ContractDataPointer where
  contractId : String
  dataKey : String
deriving DecidableEq

structure WatchlistRow where
  contractId : String
  dataKey : String
  currentTtlLedgers : ℤ
  lastRenewedAt : Option ℕ
deriving DecidableEq

def WatchlistRow.pointer (row : WatchlistRow) : ContractDataPointer := ⟨row.contractId, row.dataKey⟩

/-- `lastRenewedMs`. -/
def WatchlistRow.lastRenewedMs (row : WatchlistRow) : ℕ := row.lastRenewedAt.getD 0

/-- The columns of the table that are not its key. -/
structure Record where
  currentTtlLedgers : ℤ
  lastRenewedAt : Option ℕ
deriving DecidableEq

abbrev Table := OrdMap ContractDataPointer Record

/-- The options that count: the gap, and how many delays there are between the attempts of a
submission. -/
structure Options where
  minRenewalGapMs : JsNumber := 300000
  retryDelays : ℕ := 3

/-- What `getLedgerEntry` answers. -/
inductive Entry
  | error (code : ℤ) (message : String)
  | data (ttl : JsNumber)
deriving DecidableEq

/-- A chunk of the pointers of a contract. -/
structure Batch where
  contractId : String
  pointers : List ContractDataPointer
deriving DecidableEq

/-- Where a tick stands. -/
inductive Stage
  | loading
  /-- The list has been read, and has not come. -/
  | listed (rows : List WatchlistRow)
  /-- It waits for the entry of the next row; some rows before it were due. -/
  | reading (due rest : List WatchlistRow)
  /-- A batch has been sent so many times, and others are left. -/
  | sending (batch : Batch) (rest : List Batch) (attempts : ℕ)
  | sleeping (batch : Batch) (rest : List Batch) (attempts : ℕ)
  /-- The transaction that keeps a renewal is about to begin. -/
  | beginning (batch : Batch) (rest : List Batch)
  /-- It has begun, at that time. -/
  | updating (batch : Batch) (rest : List Batch) (now : ℕ)
  /-- It has had its effect, which is not known yet. -/
  | updated (batch : Batch) (rest : List Batch)
  | resolved
  /-- It has thrown, with batches left. -/
  | rejected (rest : List Batch)
deriving DecidableEq

/-- A tick, with the list it loaded, when it had, and what it read of each row. -/
structure Tick where
  id : ℕ
  stage : Stage := .loading
  watchlist : Option (List WatchlistRow) := none
  now : ℕ := 0
  reads : List (WatchlistRow × Entry) := []
deriving DecidableEq

/-- A call of `submitBatchRenewal`. -/
structure Submission where
  tick : ℕ
  pointers : List ContractDataPointer
  start : ℕ
deriving DecidableEq

structure World where
  clock : ℕ
  table : Table
  submissions : List Submission := []
  started : ℕ := 0

inductive Input
  | tick
  /-- Time passes. -/
  | pass (ms : ℕ)
deriving DecidableEq

inductive Event
  | listed (rows : List WatchlistRow)
  | loaded
  | loadFailed
  | entry (entry : Entry)
  | sent (success : Bool)
  | woken
  | began
  | committed
  | persisted
  /-- The transaction throws; it may have had its effect. -/
  | persistFailed
deriving DecidableEq

end Data

section Functions

/-- The rows of the table. -/
def rowsOf (table : Table) : List WatchlistRow :=
  table.entries.map fun e =>
    ⟨e.1.contractId, e.1.dataKey, e.2.currentTtlLedgers, e.2.lastRenewedAt⟩

/-- Whether a row with a live TTL is to be renewed. -/
def isDue (o : Options) (now : ℕ) (row : WatchlistRow) (ttl : JsNumber) : Bool :=
  ttl.lt renewalThresholdLedgers &&
    o.minRenewalGapMs.lt ((JsNumber.ofNat now).sub (JsNumber.ofNat row.lastRenewedMs))

/-- `TransactionBuilder.chunk`. -/
def chunk (pointers : List ContractDataPointer) : List (List ContractDataPointer) :=
  Pieces.chunks maxBatchTtlEntries pointers

/-- The batches that the loops over `byContract` come to. -/
def batches (due : List WatchlistRow) : List Batch :=
  (Pieces.groups WatchlistRow.contractId due).entries.flatMap fun e =>
    (chunk (e.2.map WatchlistRow.pointer)).map (Batch.mk e.1)

/-- The loops go on to the next batch, and `submitBatchRenewal` is called. -/
def submitNext (t : Tick) : List Batch → World → World × Tick
  | [], w => (w, { t with stage := .resolved })
  | batch :: rest, w =>
    let w := { w with submissions := w.submissions ++ [⟨t.id, batch.pointers, w.clock⟩] }
    if batch.pointers.length = 0 then submitNext t rest w
    else if maxBatchTtlEntries < batch.pointers.length then (w, { t with stage := .rejected rest })
    else (w, { t with stage := .sending batch rest 1 })

/-- The loop over the list goes on, and is over when no row is left. -/
def readNext (t : Tick) (due rest : List WatchlistRow) (w : World) : World × Tick :=
  match rest with
  | [] => submitNext t (batches due) w
  | row :: rest => (w, { t with stage := .reading due (row :: rest) })

/-- The rows that the pointers are of are updated. -/
def update (pointers : List ContractDataPointer) (now : ℕ) (table : Table) : Table :=
  pointers.foldl
    (fun table p => if table.has p then table.set p ⟨defaultTtlLedgers, some now⟩ else table) table

/-- What a tick does when what it waits for comes. -/
def resume (o : Options) (event : Event) (t : Tick) (w : World) : Option (World × Tick) :=
  match t.stage, event with
  | .loading, .listed rows =>
    if rows.isPerm (rowsOf w.table) then some (w, { t with stage := .listed rows }) else none
  | .loading, .loadFailed => some (w, { t with stage := .rejected [] })
  | .listed _, .loadFailed => some (w, { t with stage := .rejected [] })
  | .listed rows, .loaded =>
    some (readNext { t with watchlist := some rows, now := w.clock } [] rows w)
  | .reading due (row :: rest), .entry entry =>
    let due' :=
      match entry with
      | .error _ _ => due
      | .data ttl => if isDue o t.now row ttl then due ++ [row] else due
    some (readNext { t with reads := t.reads ++ [(row, entry)] } due' rest w)
  | .sending batch rest _, .sent true => some (w, { t with stage := .beginning batch rest })
  | .sending batch rest attempts, .sent false =>
    if attempts ≤ o.retryDelays then some (w, { t with stage := .sleeping batch rest attempts })
    -- the renewal failed, which is only logged
    else some (submitNext t rest w)
  | .sleeping batch rest attempts, .woken =>
    some (w, { t with stage := .sending batch rest (attempts + 1) })
  | .beginning batch rest, .began => some (w, { t with stage := .updating batch rest w.clock })
  | .updating batch rest now, .committed =>
    some ({ w with table := update batch.pointers now w.table },
      { t with stage := .updated batch rest })
  | .updated _ rest, .persisted => some (submitNext t rest w)
  | .beginning _ rest, .persistFailed => some (w, { t with stage := .rejected rest })
  | .updating _ rest _, .persistFailed => some (w, { t with stage := .rejected rest })
  | .updated _ rest, .persistFailed => some (w, { t with stage := .rejected rest })
  | _, _ => none

abbrev State := Calls.State World Tick

abbrev Action := Calls.Action Input Event

def ticks (o : Options) : Calls World Tick Input Event where
  enter
    | .tick, w => ({ w with started := w.started + 1 }, [{ id := w.started }])
    | .pass ms, w => ({ w with clock := w.clock + ms }, [])
  resume := resume o

/-- The ticks of a listener, from any list at any time. -/
def system (o : Options) : Sys State Action :=
  (ticks o).system fun s => ∃ clock table, s = ⟨{ clock := clock, table := table }, []⟩

end Functions

end StateArchival

end VeriNode
