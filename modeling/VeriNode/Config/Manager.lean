import VeriNode.Lib.JsObject

/-!
# Updates of the configuration

`getIn` and `setIn` of `src/config/utils.ts`, the defaults of `ConfigValidator` in
`src/config/validator.ts` and `ConfigManager.update` of `src/config/manager.ts`. A configuration is a plain object, by its fields.
What `validateValue` decides is a parameter. The copies that `update` and `validate` make of a
configuration are the configuration.
-/

namespace VeriNode

namespace Config

open JsVal

variable {ν : Type*}

/-- `path.split('.')`. -/
def splitPath (path : String) : List String := (path.toList.splitOn '.').map String.ofList

theorem splitPath_dotted (s t : String) : splitPath (s ++ "." ++ t) = splitPath s ++ splitPath t := by
  unfold splitPath
  rw [String.toList_append, String.toList_append, List.append_assoc]
  have hdot : ".".toList = ['.'] := rfl
  rw [hdot, List.singleton_append, List.splitOn_append_cons_self, List.map_append]

theorem splitPath_of_not_mem {s : String} (h : '.' ∉ s.toList) : splitPath s = [s] := by
  unfold splitPath
  rw [List.splitOn_eq_singleton h, List.map_singleton, String.ofList_toList]

theorem splitPath_ne_nil (s : String) : splitPath s ≠ [] := by
  unfold splitPath
  rw [ne_eq, List.map_eq_nil_iff]
  exact List.splitOn_ne_nil _ _

/-- `getIn`. Of an array its items are read, and nothing else that it has. -/
def getIn : List String → JsVal ν → JsVal ν
  | [], v => v
  | key :: keys, .obj fields => getIn keys (read key fields)
  | key :: keys, .json (.arr items) =>
    getIn keys (((Json.arrayIndex key).bind (items[·]?)).elim .undefined .ofJson)
  | _ :: _, _ => .undefined

/-- `setIn`. An assignment that would go through an array, a primitive value, a function or
`__proto__` is not followed: it throws, or it changes no property of the configuration's own. -/
def setIn : List String → JsVal ν → List (String × JsVal ν) → Option (List (String × JsVal ν))
  | [], _, _ => none
  | [key], value, current =>
    if key = "__proto__" then none else some (assign key value current)
  | key :: keys, value, current =>
    if key = "__proto__" then none
    else
      match own key current with
      | some (.obj inner) => (setIn keys value inner).map fun i => assign key (.obj i) current
      | some .undefined | some (.json .null) =>
        (setIn keys value []).map fun i => assign key (.obj i) current
      | some _ => none
      | none =>
        if key ∈ inherited then none
        else (setIn keys value []).map fun i => assign key (.obj i) current

/-- What of a schema the defaults come from: whether its type is `object`, its default, and its
properties. -/
inductive Schema (ν : Type*) where
  | mk (isObject : Bool) (default : Option (Json ν)) (properties : List (String × Schema ν))

namespace Schema

def isObject : Schema ν → Bool
  | .mk isObject _ _ => isObject

def default : Schema ν → Option (Json ν)
  | .mk _ default _ => default

def properties : Schema ν → List (String × Schema ν)
  | .mk _ _ properties => properties

end Schema

/-- `if (data[key] === undefined && propSchema.default !== undefined)`. -/
def fillDefault (key : String) (default : Option (Json ν)) (data : List (String × JsVal ν)) :
    List (String × JsVal ν) :=
  match read key data, default with
  | .undefined, some d => assign key (.ofJson d) data
  | _, _ => data

/-- Goes on in the object at a key, if there is one. -/
def descend (f : List (String × JsVal ν) → List (String × JsVal ν)) (key : String)
    (data : List (String × JsVal ν)) : List (String × JsVal ν) :=
  match own key data with
  | some (.obj fields) => assign key (.obj (f fields)) data
  | _ => data

mutual

/-- `applyDefaults`. -/
def applyDefaults : Schema ν → List (String × JsVal ν) → List (String × JsVal ν)
  | .mk _ _ properties, data => applyProperties properties data

def applyProperties : List (String × Schema ν) → List (String × JsVal ν) → List (String × JsVal ν)
  | [], data => data
  | (key, propSchema) :: rest, data =>
    let filled := fillDefault key propSchema.default data
    applyProperties rest
      (if propSchema.isObject then descend (applyDefaults propSchema) key filled else filled)

end

/-- `update`: the new configuration, or none if it throws. -/
def update (schema : Schema ν) (valid : List (String × JsVal ν) → Bool) (path : String)
    (value : JsVal ν) (config : List (String × JsVal ν)) : Option (List (String × JsVal ν)) :=
  (setIn (splitPath path) value config).bind fun newConfig =>
    let data := applyDefaults schema newConfig
    if valid data then some data else none

end Config

end VeriNode
