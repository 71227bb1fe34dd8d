import VeriNode.Lib.Run

/-!
# Reloading the certificate

`TlsCertificateReloader` watches the directories of a certificate's files and loads them anew some
time after the last change. A reloader emits `reload` or `error` and is an event emitter: an `error`
that nobody listens to is thrown by `emit`. The bootstraps give it two callbacks that log.
-/

namespace VeriNode

namespace Tls

namespace Reloader

abbrev SecureContext := String

/-- The directories of a store's files, from `path.dirname`. -/
structure CertificateStore where
  certDir : String
  keyDir : String
  chainDir : Option String

inductive LogLine
  /-- `TLS certificate reloaded`, from `onReload`. -/
  | reloaded
  /-- `TLS certificate reload failed`, from `onError`. -/
  | reloadFailed (error : String)
deriving DecidableEq

/-- The reloader, the timers that have not fired, what is logged, and the exceptions that have left
a timer's callback. -/
structure State where
  currentContext : Option SecureContext := none
  watchers : List String := []
  debounceTimer : Option ℕ := none
  errorListeners : ℕ := 0
  timers : List ℕ := []
  nextTimer : ℕ := 0
  log : List LogLine := []
  uncaught : List String := []
deriving DecidableEq

/-- `this.options.store.loadSecureContext()`, by what the files hold at that time. -/
abbrev Load := Except String SecureContext

def loadInitial (load : Load) (s : State) : Load × State :=
  match load with
  | .ok context => (.ok context, { s with currentContext := some context })
  | .error e => (.error e, s)

def getContext (load : Load) (s : State) : Load × State :=
  match s.currentContext with
  | none => loadInitial load s
  | some context => (.ok context, s)

/-- The directories that are watched, each once. -/
def CertificateStore.dirs (store : CertificateStore) : List String :=
  ([store.certDir, store.keyDir] ++ store.chainDir.toList).eraseDups

/-- `start`; `mkdirSync` or `watch` may throw at one of the directories, after those before it. -/
def start (store : CertificateStore) (throwsAt : Option ℕ) (s : State) : State :=
  if s.watchers ≠ [] then s
  else
    match throwsAt with
    | none => { s with watchers := store.dirs }
    | some n => { s with watchers := store.dirs.take n }

/-- `clearTimeout(this.debounceTimer)`, if there is one. -/
def clearDebounce (s : State) : State :=
  match s.debounceTimer with
  | none => s
  | some timer => { s with timers := s.timers.filter (· ≠ timer) }

def stop (s : State) : State :=
  { clearDebounce { s with watchers := [] } with debounceTimer := none }

def scheduleReload (s : State) : State :=
  let cleared := clearDebounce s
  { cleared with
    debounceTimer := some s.nextTimer
    timers := s.nextTimer :: cleared.timers
    nextTimer := s.nextTimer + 1 }

/-- `emit('error', err)`. -/
def emitError (e : String) (s : State) : State :=
  if s.errorListeners = 0 then { s with uncaught := s.uncaught ++ [e] } else s

/-- The callback of a timer that fires. -/
def reload (load : Load) (s : State) : State :=
  match load with
  | .ok context =>
    { s with currentContext := some context, log := s.log ++ [.reloaded] }
  | .error e => emitError e { s with log := s.log ++ [.reloadFailed e] }

inductive Action
  /-- A directory that is watched changes. -/
  | fileEvent (dir : String)
  | timer (id : ℕ) (load : Load)
  | start (throwsAt : Option ℕ)
  | stop
deriving DecidableEq

def step (store : CertificateStore) (s : State) : Action → Option State
  | .fileEvent dir => if dir ∈ s.watchers then some (scheduleReload s) else none
  | .timer id load =>
    if id ∈ s.timers then some (reload load { s with timers := s.timers.filter (· ≠ id) }) else none
  | .start throwsAt => some (start store throwsAt s)
  | .stop => some (stop s)

/-- A reloader as the bootstraps make it, after its first load. -/
def system (store : CertificateStore) (initial : SecureContext) : Sys State Action where
  init s := s = (loadInitial (.ok initial) {}).2
  step := step store

end Reloader

end Tls

end VeriNode

/-!
# Challenges in the name service

`AcmeDns01Issuer` answers every authorization of an order with a record of its domain. The names of
an order are authorized at once, one authorization for each, and the calls that set and remove their
records come in any order. The identifier of a wildcard is the domain under it.
-/

namespace VeriNode

namespace Tls

namespace Dns01

structure AcmeIssueRequest where
  domains : List String
  email : String

/-- What the records of a `Dns01ChallengeStore` are said to be: a record that has been set is there,
and where it has been removed there is none. Whether a record replaces another is left open. -/
structure ChallengeStore where
  Records : Type
  txt : Records → String → List String
  setTxtRecord : String → String → Records → Records
  removeTxtRecord : String → Records → Records
  mem_set : ∀ domain value records, value ∈ txt (setTxtRecord domain value records) domain
  set_other : ∀ domain value records other, other ≠ domain →
    txt (setTxtRecord domain value records) other = txt records other
  remove_self : ∀ domain records, txt (removeTxtRecord domain records) domain = []
  remove_other : ∀ domain records other, other ≠ domain →
    txt (removeTxtRecord domain records) other = txt records other

/-- An authorization of the order, with the key authorization of its challenge. -/
structure Authz where
  identifier : Option String
  keyAuthorization : String
deriving DecidableEq

/-- The identifier of a requested name. -/
def identifier (name : String) : String :=
  match name.toList with
  | '*' :: '.' :: rest => String.ofList rest
  | _ => name

/-- The names of a request, each once. -/
def requestedNames (request : AcmeIssueRequest) : List String := request.domains.dedup

/-- The authorizations of an order, with the key authorizations it is given. -/
def authorizations (keyAuthorization : String → String) (request : AcmeIssueRequest) : List Authz :=
  (requestedNames request).map fun name => ⟨some (identifier name), keyAuthorization name⟩

/-- `authz?.identifier?.value ?? request.domains[0]`. -/
def domainOf (request : AcmeIssueRequest) (authz : Authz) : String :=
  authz.identifier.getD (request.domains.headD "undefined")

/-- How far the two calls of an authorization have come. -/
inductive Phase
  | waiting
  /-- `challengeCreateFn` waits for `setTxtRecord`. -/
  | creating
  | set
  /-- `challengeCreateFn` is over. -/
  | created
  /-- `challengeRemoveFn` waits for `removeTxtRecord`. -/
  | removing
  | removed
  | done
deriving DecidableEq

structure State (T : ChallengeStore) where
  records : T.Records
  phases : List Phase

section Steps

variable (T : ChallengeStore) (request : AcmeIssueRequest)

/-- The next phase, and what it does to the records. -/
def advance (authz : Authz) (records : T.Records) : Phase → Option (Phase × T.Records)
  | .waiting => some (.creating, records)
  | .creating =>
    some (.set, T.setTxtRecord (domainOf request authz) authz.keyAuthorization records)
  | .set => some (.created, records)
  | .created => some (.removing, records)
  | .removing => some (.removed, T.removeTxtRecord (domainOf request authz) records)
  | .removed => some (.done, records)
  | .done => none

/-- The calls of one of the authorizations go on. -/
def step (authzs : List Authz) (s : State T) (i : ℕ) : Option (State T) := do
  let authz ← authzs[i]?
  let phase ← s.phases[i]?
  let (next, records) ← advance T request authz s.records phase
  return ⟨records, s.phases.set i next⟩

/-- `issueCertificate`, from the order on. -/
def system (keyAuthorization : String → String) : Sys (State T) ℕ where
  init s := s.phases = (authorizations keyAuthorization request).map fun _ => .waiting
  step := step T request (authorizations keyAuthorization request)

end Steps

end Dns01

end Tls

end VeriNode
