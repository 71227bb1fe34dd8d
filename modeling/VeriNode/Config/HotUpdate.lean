import VeriNode.Config.Manager
import VeriNode.Lib.Run

/-!
# Hot changes of the configuration

`update`, `delete` and `reload` of `ConfigManager` in `src/config/manager.ts`, with `setIn` and
`deleteIn` of `src/config/utils.ts` along any path, and `emitEvent` of `src/config/eventbus.ts`. A
listener and a callback may do what they like outside of the configuration, and may throw. An array
has no holes, and `null` where the language has no JSON; what is written to a function or a
prototype, or to an array under a name that is no index, is not part of the configuration.
-/

namespace VeriNode

namespace Config

open JsVal

variable {ν : Type*}

section Paths

/-- `path: string | string[]`. -/
inductive Path
  | dotted (path : String)
  | keys (path : List String)
deriving DecidableEq

def Path.toKeys : Path → List String
  | .dotted path => splitPath path
  | .keys path => path

/-- `current[key]`. -/
def child (key : String) : JsVal ν → JsVal ν
  | .obj fields =>
    match own key fields with
    | some v => v
    | none => if key ∈ "__proto__" :: inherited then .func key else .undefined
  | .json (.arr items) => ((Json.arrayIndex key).bind (items[·]?)).elim .undefined .ofJson
  | _ => .undefined

def setItem (index : ℕ) (item : Json ν) (items : List (Json ν)) : List (Json ν) :=
  if index < items.length then items.set index item
  else items ++ List.replicate (index - items.length) .null ++ [item]

/-- `current[key] = value`, or none if it throws. -/
def assignAt (key : String) (value : JsVal ν) : JsVal ν → Option (JsVal ν)
  | .obj fields => some (.obj (if key = "__proto__" then fields else assign key value fields))
  | .json (.arr items) =>
    some (.json (.arr ((Json.arrayIndex key).elim items fun index =>
      setItem index ((toJson value).getD .null) items)))
  | .func name => some (.func name)
  | .json _ => none
  | .undefined => none

/-- `setIn`, or none if it throws. -/
def setPath : List String → JsVal ν → JsVal ν → Option (JsVal ν)
  | [], value, current => assignAt "undefined" value current
  | [key], value, current => assignAt key value current
  | key :: keys, value, current =>
    match child key current with
    | .undefined | .json .null =>
      (setPath keys value (.obj [])).bind fun inner => assignAt key inner current
    | .func _ => some current
    | inner => (setPath keys value inner).bind fun inner => assignAt key inner current

/-- `delete parent[lastKey]`, or none where there is nothing to delete from. Of a key of an array
`toNumber` is the index that `splice` makes of `Number(lastKey)`, or none if that is negative or no
number. -/
def removeAt (toNumber : String → Option ℕ) (lastKey : String) : JsVal ν → Option (JsVal ν)
  | .obj fields => some (.obj (fields.filter (·.1 ≠ lastKey)))
  | .json (.arr items) =>
    (toNumber lastKey).bind fun index =>
      if index < items.length then some (.json (.arr (items.eraseIdx index))) else none
  | _ => none

/-- The deletion from the parent that the keys lead to. -/
def deleteAlong (toNumber : String → Option ℕ) :
    List String → String → JsVal ν → Option (JsVal ν)
  | [], lastKey, current => removeAt toNumber lastKey current
  | key :: keys, lastKey, current =>
    match child key current with
    | .func name => if name = "__proto__" ∧ keys = [] then some current else none
    | inner => (deleteAlong toNumber keys lastKey inner).bind fun inner => assignAt key inner current

/-- `deleteIn`, or none if it returns `false`. -/
def deletePath (toNumber : String → Option ℕ) (keys : List String) (current : JsVal ν) :
    Option (JsVal ν) :=
  match keys.getLast? with
  | none => none
  | some lastKey => if lastKey = "" then none else deleteAlong toNumber keys.dropLast lastKey current

end Paths

/-! The same functions on trees whose objects are read as finite maps: a key that an object has not
is `undefined` in it, whatever the key. -/

namespace Maps

def child (key : String) : JsVal ν → JsVal ν
  | .obj fields => (own key fields).getD .undefined
  | current => Config.child key current

/-- `getIn`. -/
def getIn : List String → JsVal ν → JsVal ν
  | [], current => current
  | key :: keys, current => getIn keys (child key current)

def assignAt (key : String) (value : JsVal ν) : JsVal ν → Option (JsVal ν)
  | .obj fields => some (.obj (assign key value fields))
  | current => Config.assignAt key value current

/-- `setIn`, or none if it throws. -/
def setIn : List String → JsVal ν → JsVal ν → Option (JsVal ν)
  | [], value, current => assignAt "undefined" value current
  | [key], value, current => assignAt key value current
  | key :: keys, value, current =>
    match child key current with
    | .undefined | .json .null =>
      (setIn keys value (.obj [])).bind fun inner => assignAt key inner current
    | .func _ => some current
    | inner => (setIn keys value inner).bind fun inner => assignAt key inner current

/-- The deletion from the parent that the keys lead to. -/
def deleteAlong (toNumber : String → Option ℕ) :
    List String → String → JsVal ν → Option (JsVal ν)
  | [], lastKey, current => removeAt toNumber lastKey current
  | key :: keys, lastKey, current =>
    (deleteAlong toNumber keys lastKey (child key current)).bind fun inner =>
      assignAt key inner current

/-- `deleteIn`, or none if it returns `false`. -/
def deleteIn (toNumber : String → Option ℕ) (keys : List String) (current : JsVal ν) :
    Option (JsVal ν) :=
  match keys.getLast? with
  | none => none
  | some lastKey => if lastKey = "" then none else deleteAlong toNumber keys.dropLast lastKey current

end Maps

section Bus

/-- A listener hears a payload's data: what it writes elsewhere, and whether it throws. -/
abbrev Listener (ν ε : Type*) := JsVal ν → List ε × Bool

/-- The listeners of the events that changes emit. -/
structure Bus (ν ε : Type*) where
  updated : List (Listener ν ε) := []
  loaded : List (Listener ν ε) := []
  all : List (Listener ν ε) := []

variable {ε : Type*}

/-- The listeners hear the data in their order; one that throws is the last. -/
def emit (data : JsVal ν) : List (Listener ν ε) → List ε × Bool
  | [] => ([], false)
  | listener :: listeners =>
    let heard := listener data
    if heard.2 then heard
    else
      let rest := emit data listeners
      (heard.1 ++ rest.1, rest.2)

end Bus

section Calls

variable {ε : Type*}

/-- A callback: whether it throws on the old and the new configuration. -/
abbrev Callback (ν : Type*) := JsVal ν → JsVal ν → Bool

/-- A `ConfigManager` on a bus. The configuration is `null` until it is loaded. -/
structure Manager (ν ε : Type*) where
  config : JsVal ν := .json .null
  changeCallbacks : List (String × Callback ν) := []
  bus : Bus ν ε := {}

inductive Outcome
  | returned
  /-- `delete` has nothing to delete from. -/
  | returnedFalse
  | threw
deriving DecidableEq

/-- What a call leaves: the configuration, how it ended, the callbacks that were invoked, with what
they were given, those of them that threw and were logged, and what the listeners wrote. -/
structure Called (ν ε : Type*) where
  config : JsVal ν
  outcome : Outcome
  invoked : List (String × JsVal ν × JsVal ν) := []
  logged : List String := []
  written : List ε := []

/-- The loop over the callbacks: each is invoked, and an error of it is logged. -/
def notify (old new : JsVal ν) (m : Manager ν ε) (written : List ε) : Called ν ε where
  config := new
  outcome := .returned
  invoked := m.changeCallbacks.map fun c => (c.1, old, new)
  logged := (m.changeCallbacks.filter fun c => c.2 old new).map Prod.fst
  written := written

/-- `this.config = …`, the events and the callbacks. -/
def install (new : JsVal ν) (events : List (Listener ν ε)) (old : JsVal ν) (m : Manager ν ε) :
    Called ν ε :=
  let heard := emit new events
  if heard.2 then { config := new, outcome := .threw, written := heard.1 }
  else notify old new m heard.1

variable (schema : Schema ν) (valid : List (String × JsVal ν) → Bool)
variable (toNumber : String → Option ℕ)

/-- `ConfigValidator.validate`: the data, if it is valid. -/
def validate : JsVal ν → Option (JsVal ν)
  | .obj fields =>
    let data := applyDefaults schema fields
    if valid data then some (.obj data) else none
  | _ => none

/-- `update` and `delete` from the changed copy on. -/
def change (new : JsVal ν) (m : Manager ν ε) : Called ν ε :=
  match validate schema valid new with
  | none => { config := m.config, outcome := .threw }
  | some data => install data (m.bus.updated ++ m.bus.all) m.config m

def Manager.update (path : Path) (value : JsVal ν) (m : Manager ν ε) : Called ν ε :=
  match setPath path.toKeys value m.config with
  | none => { config := m.config, outcome := .threw }
  | some new => change schema valid new m

def Manager.delete (path : Path) (m : Manager ν ε) : Called ν ε :=
  match deletePath toNumber path.toKeys m.config with
  | none => { config := m.config, outcome := .returnedFalse }
  | some new => change schema valid new m

/-- `reload`, on what the loader merges the sources to. -/
def Manager.reload (merged : JsVal ν) (m : Manager ν ε) : Called ν ε :=
  match validate schema valid merged with
  | none => { config := m.config, outcome := .threw }
  | some new =>
    install new ((m.bus.updated ++ m.bus.all) ++ (m.bus.loaded ++ m.bus.all)) m.config m

/-- A call that changes the configuration. -/
inductive Change (ν : Type*)
  | update (path : Path) (value : JsVal ν)
  | delete (path : Path)
  | reload (merged : JsVal ν)

def Manager.call (m : Manager ν ε) : Change ν → Called ν ε
  | .update path value => m.update schema valid path value
  | .delete path => m.delete schema valid toNumber path
  | .reload merged => m.reload schema valid merged

inductive Action (ν ε : Type*)
  | call (c : Change ν)
  | subscribe (bus : Bus ν ε)
  | onChange (changeCallbacks : List (String × Callback ν))

/-- A manager from its creation on: calls, each when the one before it has ended, and between them
subscriptions of any kind. -/
def sys : Sys (Manager ν ε) (Action ν ε) where
  init m := m = {}
  step m
    | .call c => some { m with config := (m.call schema valid toNumber c).config }
    | .subscribe bus => some { m with bus := bus }
    | .onChange changeCallbacks => some { m with changeCallbacks := changeCallbacks }

end Calls

end Config

end VeriNode
