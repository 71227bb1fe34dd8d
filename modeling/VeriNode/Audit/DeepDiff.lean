import VeriNode.Lib.JsonParse
import VeriNode.Lib.JsonPlaces
import VeriNode.Audit.Drift

/-!
# The texts of baselines

`sortedKeys`, `serializeBaseline` and `deserializeBaseline` of `src/audit/baseline_manager.ts`. What
the engine says of a text that is no JSON is a parameter.
-/

namespace VeriNode

namespace Baseline

variable {ν : Type*}

structure BaselineSerializationError where
  message : String
deriving DecidableEq

structure BaselineDeserializationError where
  message : String
deriving DecidableEq

/-- `sorted[key] = …`. What is assigned to `__proto__` is no property of the object. -/
def assignKey (sorted : List (String × Json ν)) (f : String × Json ν) : List (String × Json ν) :=
  if f.1 = "__proto__" then sorted else Json.put sorted f

mutual

def sortedKeys : Json ν → Json ν
  | .arr items => .arr (sortedItems items)
  | .obj fields =>
    .obj (((sortedFields fields).insertionSort fun f g =>
      JsString.utf16 f.1 ≤ JsString.utf16 g.1).foldl assignKey [])
  | .null => .null
  | .bool b => .bool b
  | .num n => .num n
  | .str s => .str s

def sortedItems : List (Json ν) → List (Json ν)
  | [] => []
  | x :: xs => sortedKeys x :: sortedItems xs

/-- The keys, each with its value as it is assigned. -/
def sortedFields : List (String × Json ν) → List (String × Json ν)
  | [] => []
  | f :: fs => (f.1, sortedKeys f.2) :: sortedFields fs

end

example : sortedKeys (.obj [("b", .arr [.obj [("d", .null), ("c", .null)]]), ("10", .null),
      ("__proto__", .num 1), ("a", .null)] : Json ℕ)
    = .obj [("10", .null), ("a", .null), ("b", .arr [.obj [("c", .null), ("d", .null)]])] := by
  decide +kernel

/-- `typeof`. -/
def typeOf : Json ν → String
  | .null => "object"
  | .bool _ => "boolean"
  | .num _ => "number"
  | .str _ => "string"
  | .arr _ => "object"
  | .obj _ => "object"

def serializeBaseline [JsonNumber ν] : Json ν → Except BaselineSerializationError String
  | .obj fields => .ok (sortedKeys (.obj fields)).stringify
  | config =>
    .error ⟨"serializeBaseline expects a plain object but received: " ++
      match config with
      | .null => "null"
      | .arr _ => "array"
      | config => typeOf config⟩

def deserializeBaseline [ReadableNumber ν] (parseMessage : String → String) :
    Json ν → Except BaselineDeserializationError (Json ν)
  | .str text =>
    match Json.parse text with
    | some j => .ok j
    | none => .error ⟨"deserializeBaseline failed to parse JSON: " ++ parseMessage text⟩
  | json =>
    .error ⟨"deserializeBaseline expects a string but received: " ++
      match json with
      | .null => "null"
      | json => typeOf json⟩

end Baseline

end VeriNode

/-!
# Differences between any two objects of JSON

`deepDiff` of `src/audit/drift_detector.ts` where fields may be called `__proto__` too, and the alert
that `DriftDetector` dispatches on its result. A name that an object has not as its own is read in
`Object.prototype`, which has no keys that are listed, the functions that every object inherits, and
`null` as its own `__proto__`.
-/

namespace VeriNode

namespace DeepDiff

open JsVal Drift

variable {ν : Type*} [JsonNumber ν]

/-- What `Object.prototype` has under a name. -/
def prototypeValue (key : String) : Option (JsVal ν) :=
  if key = "__proto__" then some (.json .null)
  else if key ∈ inherited then some (.func key)
  else none

/-- A value compared with `Object.prototype`. -/
def prototypeDiff (path : String) : Json ν → List (RawDiff ν)
  | .obj fields => fields.flatMap fun f =>
    match prototypeValue f.1 with
    | some v => textDiff (fullPath path f.1) (ofJson f.2) v
    | none => [⟨fullPath path f.1, ofJson f.2, .undefined⟩]
  | value => textDiff path (ofJson value) (.obj [])

/-- A value under a key that the other object has not as its own. -/
def inheritedDiff (path key : String) (value : Json ν) : List (RawDiff ν) :=
  if key = "__proto__" then prototypeDiff path value
  else if key ∈ inherited then textDiff path (ofJson value) (.func key)
  else [⟨path, ofJson value, .undefined⟩]

/-- The same, found from the other side. -/
def swap (d : RawDiff ν) : RawDiff ν := ⟨d.path, d.liveValue, d.baselineValue⟩

/-- The keys that the baseline has not as its own. -/
def liveDiff (pre : String) (baseline live : List (String × Json ν)) : List (RawDiff ν) :=
  live.flatMap fun f =>
    if (baseline.lookup f.1).isSome then []
    else (inheritedDiff (fullPath pre f.1) f.1 f.2).map swap

mutual

/-- Both present: into plain objects, and by their texts otherwise. -/
def valueDiff (path : String) : Json ν → Json ν → List (RawDiff ν)
  | .obj baseline, .obj live => keysDiff path baseline live ++ liveDiff path baseline live
  | .obj baseline, lVal => textDiff path (ofJson (.obj baseline)) (ofJson lVal)
  | .null, lVal => textDiff path (ofJson .null) (ofJson lVal)
  | .bool b, lVal => textDiff path (ofJson (.bool b)) (ofJson lVal)
  | .num n, lVal => textDiff path (ofJson (.num n)) (ofJson lVal)
  | .str s, lVal => textDiff path (ofJson (.str s)) (ofJson lVal)
  | .arr items, lVal => textDiff path (ofJson (.arr items)) (ofJson lVal)

/-- The keys of the baseline. -/
def keysDiff (pre : String) : List (String × Json ν) → List (String × Json ν) → List (RawDiff ν)
  | [], _ => []
  | f :: rest, live =>
    (match live.lookup f.1 with
      | some lVal => valueDiff (fullPath pre f.1) f.2 lVal
      | none => inheritedDiff (fullPath pre f.1) f.1 f.2) ++ keysDiff pre rest live

end

def deepDiff (baseline live : List (String × Json ν)) (pre : String) : List (RawDiff ν) :=
  keysDiff pre baseline live ++ liveDiff pre baseline live

/-- What `_detectInternal` dispatches: the report, if what drifted is critical. -/
def dispatched (baselineId : String) (detectedAt : JsDate) (baseline live : List (String × Json ν)) :
    Option (DriftReport ν) :=
  let diffs := (deepDiff baseline live "").map fun d =>
    ({ d with severity := classify d.path } : DriftedKey ν)
  if diffs = [] then none
  else if diffs.any fun d => d.severity = .critical then
    some { baselineId, detectedAt, driftedKeys := diffs }
  else none

end DeepDiff

end VeriNode
