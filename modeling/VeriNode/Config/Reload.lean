import VeriNode.Config.HotUpdate
import VeriNode.Lib.JsonPlaces
import VeriNode.Lib.OrdMap

/-!
# Subscriptions to a path of the configuration

`onChange` and `onChangePath` of `ConfigManager` in `src/config/manager.ts`, and `getIn` of
`src/config/utils.ts` along the path of a subscription. The configuration before a change is given to
the callbacks as a copy, so what is read in it is no object or array of the configuration after it.
-/

namespace VeriNode

namespace Config

open JsVal

variable {ν ε : Type*}

section Values

/-- `getIn(obj, path)`. Of `Object.prototype` the inherited functions are read, and its own prototype,
which is `null`. -/
def readKey (key : String) : JsVal ν → JsVal ν
  | .func "__proto__" =>
    if key = "__proto__" then .json .null else if key ∈ inherited then .func key else .undefined
  | current => child key current

def readPath (path : String) (obj : JsVal ν) : JsVal ν :=
  (splitPath path).foldl (fun current key => readKey key current) obj

variable [DecidableEq ν] (isNaN : ν → Bool)

/-- `v === w`, for values of two configurations that share no object and no array. -/
def strictEq : JsVal ν → JsVal ν → Bool
  | .undefined, .undefined => true
  | .func f, .func g => f = g
  | .json .null, .json .null => true
  | .json (.bool a), .json (.bool b) => a = b
  | .json (.num a), .json (.num b) => a = b && !isNaN a
  | .json (.str a), .json (.str b) => a = b
  | _, _ => false

end Values

section Subscriptions

/-- A callback of `onChange`, or one of `onChangePath` with whether it throws on a value. -/
inductive Subscription (ν : Type*)
  | onChange (callback : Callback ν)
  | onChangePath (path : String) (throws : JsVal ν → Bool)

variable [DecidableEq ν] (isNaN : ν → Bool)

/-- What a callback of `onChangePath` is given. -/
def onPath (path : String) (oldConfig newConfig : JsVal ν) : List (JsVal ν) :=
  if strictEq isNaN (readPath path oldConfig) (readPath path newConfig) then []
  else [readPath path newConfig]

/-- What `changeCallbacks` has for it. -/
def Subscription.callback : Subscription ν → Callback ν
  | .onChange callback => callback
  | .onChangePath path throws => fun oldConfig newConfig =>
    (onPath isNaN path oldConfig newConfig).any throws

/-- A manager with these subscriptions, by their ids. -/
def managerOf (config : JsVal ν) (bus : Bus ν ε) (subscriptions : OrdMap String (Subscription ν)) :
    Manager ν ε where
  config := config
  changeCallbacks := (subscriptions.map (Subscription.callback isNaN)).entries
  bus := bus

/-- What the callback that subscribed to the path under the id was given during a call. -/
def heard (id path : String) (called : Called ν ε) : List (JsVal ν) :=
  called.invoked.flatMap fun i => if i.1 = id then onPath isNaN path i.2.1 i.2.2 else []

end Subscriptions

end Config

end VeriNode

/-!
# Reloads that overlap

`reload` of `ConfigManager` in `src/config/manager.ts` waits for `loader.load`: it copies the
current configuration and starts the load, and goes on when the load has ended. The load returns
what the sources hold at one instant between. `update` and `delete` do not wait.
-/

namespace VeriNode

namespace Reloads

open Config

variable {ν ε : Type*}

/-- A call of `reload` that waits: its `oldConfig`, when it was started, and when its load read the
sources, with what they were merged to. -/
structure Reload (ν : Type*) where
  oldConfig : JsVal ν
  startedAt : ℕ
  loaded : Option (ℕ × JsVal ν) := none

/-- The invocation of a callback, and the configuration before the change. -/
structure Notified (ν : Type*) where
  id : String
  oldConfig : JsVal ν
  newConfig : JsVal ν
  current : JsVal ν

/-- `time` counts the steps. Nobody reads when the last call of `reload` was started, when the last
one of those that have ended was, when what a reload installed last was loaded, or the
invocations. -/
structure State (ν ε : Type*) where
  manager : Manager ν ε
  sources : JsVal ν
  time : ℕ := 0
  reloads : OrdMap ℕ (Reload ν) := ∅
  nextReload : ℕ := 0
  started : ℕ := 0
  ended : ℕ := 0
  installed : Option ℕ := none
  notified : List (Notified ν) := []

inductive Action (ν ε : Type*)
  | update (path : Path) (value : JsVal ν)
  | delete (path : Path)
  | setSources (sources : JsVal ν)
  | subscribe (bus : Bus ν ε)
  | onChange (changeCallbacks : List (String × Callback ν))
  | reload
  | load (id : ℕ)
  | finish (id : ℕ)

def State.tick (s : State ν ε) : State ν ε := { s with time := s.time + 1 }

/-- What a call leaves. -/
def State.after (called : Called ν ε) (s : State ν ε) : State ν ε :=
  { s with
    manager := { s.manager with config := called.config }
    notified := s.notified ++
      called.invoked.map fun i => ⟨i.1, i.2.1, i.2.2, s.manager.config⟩ }

/-- The listeners of what a reload emits. -/
def loadEvents (bus : Bus ν ε) : List (Listener ν ε) :=
  (bus.updated ++ bus.all) ++ (bus.loaded ++ bus.all)

section System

variable (schema : Schema ν) (valid : List (String × JsVal ν) → Bool)
variable (toNumber : String → Option ℕ)

/-- The rest of a reload, from the merged sources on. -/
def finish (id : ℕ) (r : Reload ν) (loadedAt : ℕ) (merged : JsVal ν) (s : State ν ε) :
    State ν ε :=
  let s := { s with reloads := s.reloads.delete id, ended := max s.ended r.startedAt }
  match validate schema valid merged with
  | none => s
  | some newConfig =>
    { s with installed := some loadedAt }.after
      (install newConfig (loadEvents s.manager.bus) r.oldConfig s.manager)

/-- What an action does. -/
def act (s : State ν ε) : Action ν ε → Option (State ν ε)
  | .update path value => some (s.after (s.manager.update schema valid path value))
  | .delete path => some (s.after (s.manager.delete schema valid toNumber path))
  | .setSources sources => some { s with sources := sources }
  | .subscribe bus => some { s with manager := { s.manager with bus := bus } }
  | .onChange changeCallbacks =>
    some { s with manager := { s.manager with changeCallbacks := changeCallbacks } }
  | .reload =>
    let r : Reload ν := { oldConfig := s.manager.config, startedAt := s.time }
    some { s with
      reloads := s.reloads.set s.nextReload r
      nextReload := s.nextReload + 1
      started := s.time }
  | .load id =>
    match s.reloads.get id with
    | some r =>
      if r.loaded.isNone then
        some { s with reloads := s.reloads.set id { r with loaded := some (s.time, s.sources) } }
      else none
    | none => none
  | .finish id =>
    match s.reloads.get id with
    | some r => r.loaded.map fun l => finish schema valid id r l.1 l.2 s
    | none => none

/-- A manager and its sources, with no call of `reload` yet. -/
def sys : Sys (State ν ε) (Action ν ε) where
  init s := ∃ manager sources, s = { manager := manager, sources := sources }
  step s a := (act schema valid toNumber s a).map State.tick

end System

end Reloads

end VeriNode
