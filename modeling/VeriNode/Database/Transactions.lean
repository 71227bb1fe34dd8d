import VeriNode.Lib.Calls

/-!
# Transactions over a pool

`Database.transaction` of `src/config/database.ts` and `PriorityRouter.transaction` of
`src/database/pool_isolation.ts`, which have one text: any number of calls over one pool,
interleaved at each await. The pool hands out a connection that is free, or a new one; a connection
keeps its session when it is handed back. A statement may fail: it leaves the session in its
transaction, if it is in one, aborted or not. What a body runs are statements that do not begin or
end a transaction.
-/

namespace VeriNode

namespace Transactions

section Sessions

/-- A connection's session: in a transaction, with the statements done in it and the call each is
of, or not. -/
inductive Session (σ : Type)
  | idle
  | inTransaction (statements : List (ℕ × σ)) (aborted : Bool)
deriving DecidableEq

inductive Command (σ : Type)
  | begin
  | statement (call : ℕ) (statement : σ)
  | commit
  | rollback
deriving DecidableEq

variable {σ : Type}

/-- What a command that succeeds makes of a session, with what it commits. -/
def Session.run : Command σ → Session σ → Option (Session σ × List (List (ℕ × σ)))
  | .begin, .idle => some (.inTransaction [] false, [])
  -- a warning only
  | .begin, .inTransaction statements false => some (.inTransaction statements false, [])
  | .statement call x, .idle => some (.idle, [[(call, x)]])
  | .statement call x, .inTransaction statements false =>
    some (.inTransaction (statements ++ [(call, x)]) false, [])
  | .commit, .inTransaction statements false => some (.idle, [statements])
  -- an aborted transaction is rolled back, which is no error
  | .commit, _ => some (.idle, [])
  | .rollback, _ => some (.idle, [])
  | _, .inTransaction _ true => none

/-- What a command that fails makes of a session. -/
def Session.fail (aborts : Bool) : Session σ → Session σ
  | .idle => .idle
  | .inTransaction statements aborted => .inTransaction statements (aborted || aborts)

end Sessions

section Data

structure Connection (σ : Type) where
  session : Session σ
  free : Bool
deriving DecidableEq

/-- A client handed back by a call, and its session then. -/
structure Release (σ : Type) where
  call : ℕ
  client : ℕ
  session : Session σ
deriving DecidableEq

structure World (σ : Type) where
  connections : List (Connection σ) := []
  committed : List (List (ℕ × σ)) := []
  released : List (Release σ) := []
  started : ℕ := 0
deriving DecidableEq

/-- What is thrown, by what failed. -/
inductive Thrown (ε : Type)
  | connect (error : ε)
  | begin (error : ε)
  | body (error : ε)
  | commit (error : ε)
  | rollback (error : ε)
deriving DecidableEq

/-- How a call ends. -/
inductive Outcome (ρ ε : Type)
  | resolved (result : ρ)
  | rejected (err : Thrown ε)
deriving DecidableEq

/-- Where a call stands, with its client. -/
inductive Phase (ρ ε : Type)
  | connecting
  | beginning (client : ℕ)
  /-- Its body runs. -/
  | running (client : ℕ)
  | committing (client : ℕ) (result : ρ)
  | rollingBack (client : ℕ) (err : Thrown ε)
  | settled (outcome : Outcome ρ ε)
deriving DecidableEq

/-- A call, with what has become of it: the client it was given, the statements of its body that
were done, what its body resolved to, and what failed first. -/
structure Call (σ ρ ε : Type) where
  id : ℕ
  phase : Phase ρ ε
  client : Option ℕ := none
  statements : List σ := []
  result : Option ρ := none
  failure : Option (Thrown ε) := none
deriving DecidableEq

/-- What a query comes to. One that fails may abort the transaction. -/
inductive Answer (ε : Type)
  | done
  | failed (error : ε) (aborts : Bool)
deriving DecidableEq

inductive Event (σ ρ ε : Type)
  /-- A client is handed out: a free one, or a new one. -/
  | connect (client : Option ℕ)
  | refused (error : ε)
  | answer (answer : Answer ε)
  /-- The body runs a statement. -/
  | statement (statement : σ) (answer : Answer ε)
  | returns (result : ρ)
  | throws (error : ε)
deriving DecidableEq

end Data

section Functions

variable {σ ρ ε : Type}

/-- `connect`, when it gives a client. -/
def World.connect (w : World σ) : Option ℕ → Option (World σ × ℕ)
  | none =>
    some ({ w with connections := w.connections ++ [⟨.idle, false⟩] }, w.connections.length)
  | some client =>
    match w.connections[client]? with
    | some ⟨session, true⟩ =>
      some ({ w with connections := w.connections.set client ⟨session, false⟩ }, client)
    | _ => none

/-- `client.query`. -/
def World.query (command : Command σ) (client : ℕ) (answer : Answer ε) (w : World σ) :
    Option (World σ) :=
  match w.connections[client]? with
  | none => none
  | some connection =>
    match answer with
    | .done =>
      (connection.session.run command).map fun r =>
        { w with
          connections := w.connections.set client { connection with session := r.1 }
          committed := w.committed ++ r.2 }
    | .failed _ aborts =>
      some { w with
        connections := w.connections.set client
          { connection with session := connection.session.fail aborts } }

/-- `client.release`. -/
def World.release (call client : ℕ) (w : World σ) : World σ :=
  match w.connections[client]? with
  | none => w
  | some connection =>
    { w with
      connections := w.connections.set client { connection with free := true }
      released := w.released ++ [⟨call, client, connection.session⟩] }

/-- What the call does when what it waits for comes. -/
def resume (event : Event σ ρ ε) (call : Call σ ρ ε) (w : World σ) :
    Option (World σ × Call σ ρ ε) :=
  match call.phase, event with
  | .connecting, .connect client =>
    (w.connect client).map fun r =>
      (r.1, { call with client := some r.2, phase := .beginning r.2 })
  | .connecting, .refused error =>
    some (w, { call with
      failure := some (.connect error)
      phase := .settled (.rejected (.connect error)) })
  | .beginning client, .answer answer =>
    (w.query .begin client answer).map fun w =>
      (w, match answer with
        | .done => { call with phase := .running client }
        | .failed error _ =>
          { call with
            failure := some (.begin error)
            phase := .rollingBack client (.begin error) })
  | .running client, .statement statement answer =>
    (w.query (.statement call.id statement) client answer).map fun w =>
      (w, match answer with
        | .done => { call with statements := call.statements ++ [statement] }
        | .failed _ _ => call)
  | .running client, .returns result =>
    some (w, { call with result := some result, phase := .committing client result })
  | .running client, .throws error =>
    some (w, { call with
      failure := some (.body error)
      phase := .rollingBack client (.body error) })
  | .committing client result, .answer answer =>
    (w.query .commit client answer).map fun w =>
      match answer with
      | .done => (w.release call.id client, { call with phase := .settled (.resolved result) })
      | .failed error _ =>
        (w, { call with
          failure := some (.commit error)
          phase := .rollingBack client (.commit error) })
  | .rollingBack client err, .answer answer =>
    (w.query .rollback client answer).map fun w =>
      (w.release call.id client,
        match answer with
        | .done => { call with phase := .settled (.rejected err) }
        -- the failure of the rollback is what is thrown
        | .failed error _ => { call with phase := .settled (.rejected (.rollback error)) })
  | _, _ => none

/-- `transaction`. -/
def transaction : Calls (World σ) (Call σ ρ ε) Unit (Event σ ρ ε) where
  enter _ w := ({ w with started := w.started + 1 }, [{ id := w.started, phase := .connecting }])
  resume := resume

abbrev State (σ ρ ε : Type) := Calls.State (World σ) (Call σ ρ ε)

abbrev Action (σ ρ ε : Type) := Calls.Action Unit (Event σ ρ ε)

end Functions

end Transactions

/-- `Database.transaction`, over the pool of the database. -/
def Database.transaction (σ ρ ε : Type) :
    Sys (Transactions.State σ ρ ε) (Transactions.Action σ ρ ε) :=
  Transactions.transaction.system fun s => s = ⟨{}, []⟩

/-- `PriorityRouter.transaction`, over its OLTP pool. -/
def PriorityRouter.transaction (σ ρ ε : Type) :
    Sys (Transactions.State σ ρ ε) (Transactions.Action σ ρ ε) :=
  Transactions.transaction.system fun s => s = ⟨{}, []⟩

end VeriNode
