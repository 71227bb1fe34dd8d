import VeriNode.Lib.Bytes
import VeriNode.Lib.Calls
import VeriNode.Lib.Json
import VeriNode.Lib.OrdMap

/-!
# Preflight reports

`PreflightAnalyzer` of `src/blockchain/preflight_analyzer.ts`: any number of calls of `analyze`,
interleaved at their two awaits, under one clock in milliseconds. An argument is any value, of which
it is known what `JSON.stringify` writes for it in an array, unless it throws (`toJson`). The
service's answer is a function of the transaction (`simulate`). A number that `parseInt` makes is
taken exactly, and is none where it makes `NaN`. What is logged is left out.
-/

namespace VeriNode

namespace PreflightAnalyzer

section Data

/-- `SOROBAN_INSTRUCTIONS_LIMIT`. -/
def sorobanInstructionsLimit : ℤ := 100000000

/-- `CACHE_TTL_MS`. -/
def cacheTtlMs : ℕ := 60000

/-- `TTL_EXTENSION_INSTRUCTIONS`. -/
def ttlExtensionInstructions : ℤ := 5000

/-- `CRITICAL_DATA_KEYS`. -/
def criticalDataKeys : List String :=
  ["attestation_root", "node_registry_hash", "reward_cycle_counter", "metadata_hash",
    "governance_weight"]

structure ContractOperation (α : Type) where
  contractId : String
  functionName : String
  args : List α
  xdr : Option String := none
deriving DecidableEq

/-- The `cost` of an answer. -/
structure Cost where
  instructions : Option String
  writeBytes : Option String
deriving DecidableEq

/-- An answer of the service; of an error, its message. -/
structure SimulateTransactionResponse where
  error : Option String := none
  cost : Option Cost := none
deriving DecidableEq

structure PreflightReport where
  instructions : Option ℤ
  writeBytes : Option ℤ
  estimatedGas : Option ℤ
  simulationDurationMs : ℕ
  storageKeysAccessed : List String
deriving DecidableEq

/-- An entry of the cache, with the operation whose report it has. -/
structure CacheEntry (α : Type) where
  report : PreflightReport
  timestamp : ℕ
  operation : ContractOperation α
deriving DecidableEq

/-- Where a call stands. -/
inductive Stage (α : Type)
  /-- It waits for the service. -/
  | simulating (txXdr : String)
  /-- It has the instructions and the bytes, and waits for the keys that are accessed. -/
  | measured (instructions writeBytes : Option ℤ)
  /-- It has returned the report of the entry, at that time. -/
  | returned (entry : CacheEntry α) (time : ℕ)
  /-- It has thrown; of an error that the language throws, there is no message here. -/
  | rejected (message : Option String)
deriving DecidableEq

structure Call (α : Type) where
  operation : ContractOperation α
  start : ℕ
  stage : Stage α
deriving DecidableEq

structure World (α : Type) where
  clock : ℕ
  cache : OrdMap String (CacheEntry α) := {}

inductive Input (α : Type)
  | analyze (operation : ContractOperation α)
  /-- Time passes. -/
  | pass (ms : ℕ)

inductive Event
  /-- The service answers. -/
  | answered
  /-- The keys come. -/
  | keyed
deriving DecidableEq

end Data

section Functions

/-- `Buffer.toString('hex')`. -/
def hex (bytes : List UInt8) : String :=
  String.ofList (bytes.flatMap fun b =>
    [JsString.hexDigit (b.toNat / 16), JsString.hexDigit (b.toNat % 16)])

/-- `parseInt` with radix ten. -/
def parseInt (text : String) : Option ℤ :=
  let digits (cs : List Char) : Option ℤ :=
    match cs.takeWhile Char.isDigit with
    | [] => none
    | ds => some (Nat.ofDigitChars 10 ds 0 : ℕ)
  match text.toList.dropWhile JsString.isWhitespace with
  | '-' :: cs => (digits cs).map (- ·)
  | '+' :: cs => digits cs
  | cs => digits cs

/-- A text that is there and not empty, or else the other. -/
def orElse (text : Option String) (other : String) : String :=
  match text with
  | none => other
  | some text => if text = "" then other else text

/-- The gas for so many instructions and the keys accessed, no more than the limit. -/
def estimatedGas (instructions : Option ℤ) (storageKeys : List String) : Option ℤ :=
  instructions.map fun n =>
    let gas := n * 3 / 2 + 50000
    let gas := gas + storageKeys.length * ttlExtensionInstructions
    min gas sorobanInstructionsLimit

variable {α ν : Type} [JsonNumber ν] (toJson : α → Option (Json ν))

/-- What `JSON.stringify` makes of the arguments. -/
def argsJson (args : List α) : Option (Json ν) := (args.mapM toJson).map .arr

/-- `hashArgs`. -/
def hashArgs (args : List α) : Option String :=
  (argsJson toJson args).map fun json => hex (Utf8.encode json.stringify)

def cacheKey (operation : ContractOperation α) : Option String :=
  (hashArgs toJson operation.args).map fun hash =>
    "preflight:" ++ operation.contractId ++ ":" ++ hash

/-- `mockEncodeOperation`. -/
def mockEncodeOperation (op : ContractOperation α) : Option String :=
  (argsJson toJson op.args).map fun args =>
    Base64.encodePadded (Utf8.encode (Json.stringify (.obj
      ([("contractId", .str op.contractId), ("functionName", .str op.functionName), ("args", args)]
        ++ (op.xdr.map fun xdr => ("xdr", .str xdr)).toList))))

/-- The transaction that is submitted for an operation. -/
def txXdr (op : ContractOperation α) : Option String :=
  match op.xdr with
  | some xdr => if xdr = "" then mockEncodeOperation toJson op else some xdr
  | none => mockEncodeOperation toJson op

variable (simulate : String → Option SimulateTransactionResponse)

/-- `analyze`, up to its first wait. -/
def analyze (operation : ContractOperation α) (w : World α) : Call α :=
  let submitted : Stage α :=
    match txXdr toJson operation with
    | none => .rejected none
    | some tx => .simulating tx
  let stage : Stage α :=
    match cacheKey toJson operation with
    | none => .rejected none
    | some key =>
      match w.cache.get key with
      | none => submitted
      | some cached =>
        if w.clock - cached.timestamp < cacheTtlMs then .returned cached w.clock else submitted
  ⟨operation, w.clock, stage⟩

/-- What a call does when what it waits for comes. -/
def resume (event : Event) (call : Call α) (w : World α) : Option (World α × Call α) :=
  match call.stage, event with
  | .simulating tx, .answered =>
    match simulate tx with
    | none => some (w, { call with stage := .rejected none })
    | some simulation =>
      match simulation.error with
      | some message =>
        some (w, { call with stage := .rejected (some ("Simulation failed: " ++ message)) })
      | none =>
        let instructions := parseInt (orElse (simulation.cost.bind (·.instructions)) "0")
        let writeBytes := parseInt (orElse (simulation.cost.bind (·.writeBytes)) "0")
        some (w, { call with stage := .measured instructions writeBytes })
  | .measured instructions writeBytes, .keyed =>
    let report : PreflightReport :=
      ⟨instructions, writeBytes, estimatedGas instructions criticalDataKeys, w.clock - call.start,
        criticalDataKeys⟩
    let entry : CacheEntry α := ⟨report, w.clock, call.operation⟩
    let cache := match cacheKey toJson call.operation with
      | none => w.cache
      | some key => w.cache.set key entry
    some ({ w with cache := cache }, { call with stage := .returned entry w.clock })
  | _, _ => none

abbrev State (α : Type) := Calls.State (World α) (Call α)

abbrev Action (α : Type) := Calls.Action (Input α) Event

def calls : Calls (World α) (Call α) (Input α) Event where
  enter
    | .analyze operation, w => (w, [analyze toJson operation w])
    | .pass ms, w => ({ w with clock := w.clock + ms }, [])
  resume := resume toJson simulate

/-- The calls of an analyzer with an empty cache, from any time. -/
def system : Sys (State α) (Action α) :=
  (calls toJson simulate).system fun s => ∃ clock, s = ⟨{ clock := clock }, []⟩

end Functions

end PreflightAnalyzer

end VeriNode
