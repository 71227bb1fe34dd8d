import VeriNode.Lib.Calls
import VeriNode.Lib.Loans

/-!
# Two pools

`PriorityRouter.query` of `src/database/pool_isolation.ts`, with `classifyQuery`: any number of
calls of one router, interleaved at each await. A pool may have an idle client or not, gives one at
any time or refuses, and gives no client that a call has; a query may fail; the spill timer fires at
any time. What a call does when it goes on is one step with what it waited for, and so is the
release of a client that comes too late. The times that are measured are left out.
-/

namespace VeriNode

inductive PoolTier
  | oltp
  | olap
deriving DecidableEq

namespace PriorityRouter

section Classifier

/-- A piece of a pattern: a character in either case, any white space, a boundary of a word. -/
inductive Piece
  | char (c : Char)
  | space
  | spaces
  | boundary
deriving DecidableEq

/-- The characters of `\s`. -/
def isSpace (c : Char) : Bool :=
  c = ' ' || ('\t' ≤ c && c ≤ '\x0d') || c = '\u00a0' || c = '\u1680' ||
    ('\u2000' ≤ c && c ≤ '\u200a') || c = '\u2028' || c = '\u2029' || c = '\u202f' ||
    c = '\u205f' || c = '\u3000' || c = '\ufeff'

/-- The characters of `\w`. -/
def isWord (c : Char) : Bool := c.isAlphanum || c = '_'

/-- As much white space as `k` lets through. -/
def matchSpaces (k : Option Char → List Char → Bool) : Option Char → List Char → Bool
  | previous, [] => k previous []
  | previous, c :: w => (isSpace c && matchSpaces k (some c) w) || k previous (c :: w)

/-- The pattern matches at the start of the text, after the character. -/
def matchHere : List Piece → Option Char → List Char → Bool
  | [], _, _ => true
  | .char _ :: _, _, [] => false
  | .char c :: ps, _, d :: w => c.toUpper = d.toUpper && matchHere ps (some d) w
  | .space :: _, _, [] => false
  | .space :: ps, _, d :: w => isSpace d && matchHere ps (some d) w
  | .spaces :: ps, previous, w => matchSpaces (matchHere ps) previous w
  | .boundary :: ps, previous, w =>
    previous.any isWord != w.head?.any isWord && matchHere ps previous w

def matchFrom (pattern : List Piece) : Option Char → List Char → Bool
  | previous, [] => matchHere pattern previous []
  | previous, c :: w => matchHere pattern previous (c :: w) || matchFrom pattern (some c) w

/-- `pattern.test`. -/
def test (pattern : List Piece) (s : String) : Bool := matchFrom pattern none s.toList

def word (s : String) : List Piece := s.toList.map .char

/-- `\s+`. -/
def gap : List Piece := [.space, .spaces]

def routeRules : List (String × PoolTier) :=
  [("/api/v1/attestation", .oltp), ("/api/v1/analytics", .olap)]

def queryRules : List (List Piece × PoolTier) :=
  [(word "FROM" ++ gap ++ word "uptime_heartbeat" ++ gap ++ word "WHERE" ++ gap ++ word "time" ++
      [.spaces] ++ word ">" ++ [.spaces] ++ word "NOW" ++ [.spaces] ++ word "(" ++ [.spaces] ++
      word ")" ++ [.spaces] ++ word "-" ++ [.spaces] ++ word "INTERVAL" ++ [.spaces] ++
      word "'1" ++ gap ++ word "hour'", .oltp),
    (word "GROUP" ++ gap ++ word "BY" ++ gap ++ word "node_id" ++ [.spaces] ++ word "," ++
      [.spaces] ++ word "date_trunc" ++ [.spaces] ++ word "(" ++ [.spaces] ++ word "'day'", .olap)]

def olapHeuristics : List (List Piece) :=
  [.boundary :: word "uptime_hourly_agg" ++ [.boundary],
    .boundary :: word "GROUP" ++ gap ++ word "BY" ++ [.boundary],
    .boundary :: word "date_trunc" ++ [.spaces] ++ word "("]

def classifyQuery (route queryText : String) : PoolTier :=
  match routeRules.find? fun rule => rule.1.isPrefixOf route with
  | some rule => rule.2
  | none =>
    match queryRules.find? fun rule => test rule.1 queryText with
    | some rule => rule.2
    | none => if olapHeuristics.any fun pattern => test pattern queryText then .olap else .oltp

example : classifyQuery "" "SELECT node_id, count(*) FROM t group  by node_id" = .olap := by
  decide +kernel

example : classifyQuery "/api/v1/attestation/9" "SELECT 1 FROM uptime_hourly_agg" = .oltp := by
  decide +kernel

/-- `isTimeoutError`, of the text of an error. -/
def isTimeoutError (text : String) : Bool :=
  test (word "statement timeout") text ||
    test (word "canceling statement due to statement timeout") text ||
    test (word "query_timeout") text

end Classifier

section Data

structure Client where
  pool : PoolTier
  id : ℕ
deriving DecidableEq

/-- A call of `query`, and how many clients of the OLTP pool are idle then. -/
structure Input (π : Type) where
  text : String
  params : Option (List π)
  route : Option String
  tier : Option PoolTier
  idleCount : ℕ
deriving DecidableEq

/-- What the promise of a query, or of a call, settles with. -/
inductive Outcome (ρ ε : Type)
  | resolved (result : ρ)
  | rejected (error : ε)
deriving DecidableEq

/-- Where a call stands. -/
inductive Phase (ρ ε : Type)
  /-- `_exec` waits for a client of the pool. -/
  | connecting (tier : PoolTier)
  /-- The OLTP pool and the spill timer race. -/
  | racing
  | executing (client : Client)
  | settled (outcome : Outcome ρ ε)
deriving DecidableEq

/-- A call; it has spilled over, and the client it no longer waits for is still to come. -/
structure Call (π ρ ε : Type) where
  id : ℕ
  text : String
  params : Option (List π)
  phase : Phase ρ ε
  /-- The pool whose client it waits for, or waited for last. -/
  waitedFor : PoolTier
  pending : Bool := false
deriving DecidableEq

/-- The metrics that count, and what was done, by the call that did it: the clients taken, used
and released, with what they were used for, the answers, and the pools that refused. -/
structure World (π ρ ε : Type) where
  started : ℕ := 0
  queryTimeoutTotal : PoolTier → ℕ := fun _ => 0
  spilloverTotal : ℕ := 0
  loans : List (Loans.Event ℕ Client (String × Option (List π))) := []
  answers : List (ℕ × Outcome ρ ε) := []
  refusals : List (ℕ × PoolTier × ε) := []

inductive Event (ρ ε : Type)
  /-- The client comes that the call waits for, or its pool refuses. -/
  | connected (client : Client)
  | refused (error : ε)
  /-- The timer fires first. -/
  | spill
  | answer (outcome : Outcome ρ ε)
  /-- The client comes that the call no longer waits for, or its pool refuses. -/
  | late (client : Client)
  | lateRefused (error : ε)
deriving DecidableEq

end Data

section Functions

variable {π ρ ε : Type}

/-- A pool gives the call a client. -/
def World.connect (call : ℕ) (client : Client) (w : World π ρ ε) : Option (World π ρ ε) :=
  if Loans.holder client w.loans = none then
    some { w with loans := .lent call client :: w.loans }
  else none

/-- `client.query`. -/
def execute (call : Call π ρ ε) (client : Client) (w : World π ρ ε) :
    World π ρ ε × Call π ρ ε :=
  ({ w with loans := .used call.id client (call.text, call.params) :: w.loans },
    { call with phase := .executing client })

/-- `client.release`. -/
def World.release (call : ℕ) (client : Client) (w : World π ρ ε) : World π ρ ε :=
  { w with loans := .returned call client :: w.loans }

/-- A query has timed out. -/
def World.countTimeout (errorText : ε → String) (tier : PoolTier) (outcome : Outcome ρ ε)
    (w : World π ρ ε) : World π ρ ε :=
  match outcome with
  | .resolved _ => w
  | .rejected error =>
    if isTimeoutError (errorText error) then
      { w with
        queryTimeoutTotal := fun t =>
          w.queryTimeoutTotal t + if t = tier then 1 else 0 }
    else w

def reject (error : ε) (call : Call π ρ ε) (w : World π ρ ε) : World π ρ ε × Call π ρ ε :=
  ({ w with refusals := w.refusals ++ [(call.id, call.waitedFor, error)] },
    { call with phase := .settled (.rejected error) })

/-- What the call does when what it waits for comes. -/
def resume (errorText : ε → String) (event : Event ρ ε) (call : Call π ρ ε) (w : World π ρ ε) :
    Option (World π ρ ε × Call π ρ ε) :=
  match event, call.phase with
  | .connected client, .connecting tier =>
    if client.pool = tier then (w.connect call.id client).map (execute call client) else none
  | .connected client, .racing =>
    if client.pool = .oltp then (w.connect call.id client).map (execute call client) else none
  | .refused error, .connecting _ => some (reject error call w)
  | .refused error, .racing => some (reject error call w)
  | .spill, .racing =>
    some ({ w with spilloverTotal := w.spilloverTotal + 1 },
      { call with phase := .connecting .olap, waitedFor := .olap, pending := true })
  | .answer outcome, .executing client =>
    some ((({ w with answers := w.answers ++ [(call.id, outcome)] }.countTimeout errorText
        client.pool outcome).release call.id client),
      { call with phase := .settled outcome })
  | .late client, _ =>
    if call.pending ∧ client.pool = .oltp then
      (w.connect call.id client).map fun w =>
        (w.release call.id client, { call with pending := false })
    else none
  | .lateRefused error, _ =>
    if call.pending then
      some ({ w with refusals := w.refusals ++ [(call.id, .oltp, error)] },
        { call with pending := false })
    else none
  | _, _ => none

/-- The first piece of `query`. -/
def query (input : Input π) (w : World π ρ ε) : World π ρ ε × List (Call π ρ ε) :=
  let tier := input.tier.getD (classifyQuery (input.route.getD "") input.text)
  ({ w with started := w.started + 1 },
    [{ id := w.started
       text := input.text
       params := input.params
       waitedFor := tier
       phase :=
         match tier with
         | .olap => .connecting .olap
         -- an idle client is there at once
         | .oltp => if 0 < input.idleCount then .connecting .oltp else .racing }])

abbrev State (π ρ ε : Type) := Calls.State (World π ρ ε) (Call π ρ ε)

abbrev Action (π ρ ε : Type) := Calls.Action (Input π) (Event ρ ε)

/-- The calls of a new router. -/
def system (π : Type) {ρ ε : Type} (errorText : ε → String) :
    Sys (State π ρ ε) (Action π ρ ε) :=
  Calls.system { enter := query, resume := resume errorText } fun s => s = ⟨{}, []⟩

end Functions

end PriorityRouter

end VeriNode
