import Mathlib.Logic.Function.Basic
import Mathlib.Data.Rat.Floor
import VeriNode.Lib.OrdMap
import VeriNode.Lib.Run
import VeriNode.Lib.JsNumber
import VeriNode.Lib.JsonParse

/-!
# The cache

`get`, `set` and `delete` of `CacheLayer` in `src/cache/cache_layer.ts`, with a `redisUrl`. Calls are
interleaved at each await: of the connection, of the command, and of its answer. A value is the
text that `JSON.stringify` makes of it, a key stands for its `cacheKey`, and a set whose TTL is not
a positive number throws before it does anything. The clock may read anything.
-/

namespace VeriNode

namespace Cache

/-- A text, and the call of the layer that has set it, which nobody reads. -/
structure Copy where
  text : String
  writer : Option ℕ
deriving DecidableEq

structure MemoryEntry where
  value : Copy
  expiresAtMs : ℤ

inductive Op
  | get (key : String)
  | set (key text : String) (ttlSeconds : ℕ)
  | delete (key : String)
deriving DecidableEq

def Op.key : Op → String
  | .get key => key
  | .set key _ _ => key
  | .delete key => key

def Op.writes : Op → Bool
  | .get _ => false
  | .set _ _ _ => true
  | .delete _ => true

/-- Where a call waits that goes to Redis. -/
inductive Phase
  | connecting
  | commanding
  /-- The command has taken effect; a `get` has this answer. -/
  | answered (copy : Option Copy)
  | failed
deriving DecidableEq

/-- Nobody reads whether a write was started when no other write of its key was in progress, nor the
write that was settled when a `get` was started. -/
structure Call where
  op : Op
  phase : Phase
  alone : Bool
  since : Option ℕ

/-- What a `get` returned, and which write was settled when it started and when it returned. -/
structure Returned where
  key : String
  since : Option ℕ
  settled : Option ℕ
  copy : Option Copy
deriving DecidableEq

/-- Nobody reads which write of a key was started last, which is settled (it has resolved, and no
other write overlapped or followed it), or what was returned. -/
structure State where
  now : ℤ := 0
  memory : OrdMap String MemoryEntry := ∅
  redis : String → Option Copy := fun _ => none
  redisClient : Bool := false
  redisUnavailable : Bool := false
  calls : OrdMap ℕ Call := ∅
  nextCall : ℕ := 0
  lastWrite : String → Option ℕ := fun _ => none
  settled : String → Option ℕ := fun _ => none
  returns : List Returned := []

inductive Action
  | call (op : Op)
  | connected (id : ℕ)
  | connectFailed (id : ℕ)
  | commanded (id : ℕ)
  | commandFailed (id : ℕ)
  | resume (id : ℕ)
  /-- The `error` event of a client. -/
  | clientError
  /-- The end of a text's time in Redis. -/
  | expire (key : String)
  | clock (now : ℤ)

section Memory

def memoryGet (key : String) (s : State) : Option Copy × OrdMap String MemoryEntry :=
  match s.memory.get key with
  | none => (none, s.memory)
  | some entry =>
    if entry.expiresAtMs ≤ s.now then (none, s.memory.delete key) else (some entry.value, s.memory)

def memorySet (maxEntries : ℕ) (key : String) (value : Copy) (ttlSeconds : ℕ) (s : State) : State :=
  let memory :=
    if maxEntries ≤ s.memory.size then s.memory.keys.head?.elim s.memory s.memory.delete
    else s.memory
  { s with memory := memory.set key { value, expiresAtMs := s.now + ttlSeconds * 1000 } }

end Memory

section Calls

/-- A write of the key is in progress. -/
def State.writing (key : String) (s : State) : Bool :=
  s.calls.entries.any fun e => e.2.op.writes && e.2.op.key = key

/-- A call that starts, as if it went to Redis. -/
def State.newCall (op : Op) (s : State) : Call where
  op := op
  phase := if s.redisClient then .commanding else .connecting
  alone := !s.writing op.key
  since := s.settled op.key

/-- A call is entered with a number; a write unsettles what was written before. -/
def State.enter (op : Op) (s : State) : State :=
  { s with
    calls := s.calls.set s.nextCall (s.newCall op)
    nextCall := s.nextCall + 1
    lastWrite := if op.writes then Function.update s.lastWrite op.key (some s.nextCall)
      else s.lastWrite
    settled := if op.writes then Function.update s.settled op.key none else s.settled }

/-- A write resolves. -/
def State.resolve (id : ℕ) (call : Call) (s : State) : State :=
  let key := call.op.key
  let settled :=
    if call.alone = true ∧ s.lastWrite key = some id then Function.update s.settled key (some id)
    else s.settled
  { s with calls := s.calls.delete id, settled }

/-- A `get` returns. -/
def State.return (id : ℕ) (call : Call) (copy : Option Copy) (s : State) : State :=
  { s with
    calls := s.calls.delete id
    returns := s.returns ++ [⟨call.op.key, call.since, s.settled call.op.key, copy⟩] }

/-- A `get` from memory. -/
def State.returnMemory (id : ℕ) (call : Call) (s : State) : State :=
  let found := memoryGet call.op.key s
  { s with memory := found.2 }.return id call found.1

/-- A call as far as its first await; without Redis there is none. -/
def start (maxEntries : ℕ) (op : Op) (s : State) : State :=
  let id := s.nextCall
  let call := s.newCall op
  let s := s.enter op
  match op with
  | .get _ => if s.redisUnavailable then s.returnMemory id call else s
  | .set key text ttlSeconds =>
    if s.redisUnavailable then
      (memorySet maxEntries key ⟨text, some id⟩ ttlSeconds s).resolve id call
    else s
  | .delete key =>
    let s := { s with memory := s.memory.delete key }
    if s.redisUnavailable then s.resolve id call else s

/-- A command takes effect. -/
def command (id : ℕ) (call : Call) (s : State) : State :=
  match call.op with
  | .get key => { s with calls := s.calls.set id { call with phase := .answered (s.redis key) } }
  | .set key text _ =>
    { s with
      redis := Function.update s.redis key (some ⟨text, some id⟩)
      calls := s.calls.set id { call with phase := .answered none } }
  | .delete key =>
    { s with
      redis := Function.update s.redis key none
      calls := s.calls.set id { call with phase := .answered none } }

/-- A call goes on with the answer of its command. -/
def answered (id : ℕ) (call : Call) (copy : Option Copy) (s : State) : State :=
  match call.op with
  | .get _ => s.return id call copy
  | .set _ _ _ => s.resolve id call
  | .delete _ => s.resolve id call

/-- A call goes on with an error: where Redis was still taken to be available, in memory; else a `get`
or a `set` throws it. -/
def caught (maxEntries : ℕ) (id : ℕ) (call : Call) (s : State) : State :=
  let tried := { s with redisUnavailable := true }
  match call.op with
  | .get _ =>
    if s.redisUnavailable then { s with calls := s.calls.delete id } else tried.returnMemory id call
  | .set key text ttlSeconds =>
    if s.redisUnavailable then { s with calls := s.calls.delete id }
    else (memorySet maxEntries key ⟨text, some id⟩ ttlSeconds tried).resolve id call
  | .delete _ => tried.resolve id call

/-- A step of a call. -/
def advance (maxEntries : ℕ) (s : State) (id : ℕ) (call : Call) : Action → Option State
  | .connected _ =>
    match call.phase with
    | .connecting => some { s with
        redisClient := true
        redisUnavailable := false
        calls := s.calls.set id { call with phase := .commanding } }
    | _ => none
  | .connectFailed _ =>
    match call.phase with
    | .connecting => some { s with calls := s.calls.set id { call with phase := .failed } }
    | _ => none
  | .commanded _ =>
    match call.phase with
    | .commanding => some (command id call s)
    | _ => none
  | .commandFailed _ =>
    match call.phase with
    | .commanding => some { s with calls := s.calls.set id { call with phase := .failed } }
    | _ => none
  | .resume _ =>
    match call.phase with
    | .answered copy => some (answered id call copy s)
    | .failed => some (caught maxEntries id call s)
    | _ => none
  | _ => none

def Action.id : Action → ℕ
  | .connected id => id
  | .connectFailed id => id
  | .commanded id => id
  | .commandFailed id => id
  | .resume id => id
  | _ => 0

def step (maxEntries : ℕ) (s : State) : Action → Option State
  | .call op => some (start maxEntries op s)
  | .clientError => some { s with redisUnavailable := true }
  | .expire key => some { s with redis := Function.update s.redis key none }
  | .clock now => some { s with now := now }
  | a => (s.calls.get a.id).bind fun call => advance maxEntries s a.id call a

/-- A layer from its construction on, with what Redis then holds. -/
def sys (maxEntries : ℕ) : Sys State Action where
  init s := ∃ redis : String → Option Copy, (∀ key copy, redis key = some copy → copy.writer = none)
    ∧ s = { redis := redis }
  step := step maxEntries

end Calls

end Cache

end VeriNode

/-!
# The cache without Redis

`CacheLayer` of `src/cache/cache_layer.ts` without a `redisUrl`: a call is through before the next one
starts, and what it reads and writes is in the memory of the process.
-/

namespace VeriNode

namespace Cache

namespace MemoryOnly

structure Config where
  maxEntries : ℕ
  maxEntries_pos : 1 ≤ maxEntries
  defaultTtlSeconds : ℕ

/-- None is an error. -/
def normalizeTtlSeconds (ttlSeconds : Option JsNumber) (fallback : ℕ) : Option ℕ :=
  match ttlSeconds.getD (.ofNat fallback) with
  | .fin ttl => if ttl ≤ 0 then none else some ⌈ttl⌉₊
  | _ => none

variable {ν : Type*} [ReadableNumber ν]

/-- What is read back from what is written for it. -/
abbrev JsonValue (ν : Type*) := {value : Json ν // value.wellFormed = true}

/-- A call, at a reading of the clock. -/
inductive Action (ν : Type*)
  | get (key : String) (now : ℤ)
  | set (key : String) (value : JsonValue ν) (ttlSeconds : Option JsNumber) (now : ℤ)
  | delete (key : String) (now : ℤ)

def Action.now : Action ν → ℤ
  | .get _ now => now
  | .set _ _ _ now => now
  | .delete _ now => now

/-- What `get` returns: `null` where nothing is found. None is an error. -/
def get (key : String) (s : State) : Option (Json ν) :=
  match (memoryGet key s).1 with
  | none => some .null
  | some encoded => Json.parse encoded.text

def set (c : Config) (key : String) (value : JsonValue ν) (ttlSeconds : Option JsNumber)
    (s : State) : Option State :=
  (normalizeTtlSeconds ttlSeconds c.defaultTtlSeconds).map fun ttl =>
    memorySet c.maxEntries key ⟨value.1.stringify, none⟩ ttl s

def delete (key : String) (s : State) : State := { s with memory := s.memory.delete key }

/-- The clock does not go back. A `set` that throws leaves everything as it is. -/
def step (c : Config) (s : State) (a : Action ν) : Option State :=
  if s.now ≤ a.now then
    let s := { s with now := a.now }
    match a with
    | .get key _ => some { s with memory := (memoryGet key s).2 }
    | .set key value ttlSeconds _ => some ((set c key value ttlSeconds s).getD s)
    | .delete key _ => some (delete key s)
  else none

def sys (c : Config) : Sys State (Action ν) where
  init s := ∃ now, s = { now := now }
  step := step c

end MemoryOnly

end Cache

end VeriNode
