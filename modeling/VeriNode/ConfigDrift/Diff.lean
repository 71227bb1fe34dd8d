import Mathlib.Data.List.Sort
import VeriNode.Lib.Json
import VeriNode.Lib.OrdMap

/-!
# Configurations by their paths

`flattenConfig` of `src/config-drift/flatten.ts` and the hash of what it returns. A configuration is
JSON. What is flattened is a map from paths, keys and indices with dots between them, to texts; the
order of its keys is that in which they are assigned.
-/

namespace VeriNode

namespace ConfigDrift

variable {ν : Type*} [JsonNumber ν]

/-- `Object.keys(…).sort()`, with what belongs to each key. -/
def byKey {α : Type*} (entries : List (String × α)) : List (String × α) :=
  entries.insertionSort fun a b => JsString.utf16 a.1 ≤ JsString.utf16 b.1

section Texts

mutual

def stableStringify : Json ν → String
  | .arr items => "[" ++ ",".intercalate (stableItems items) ++ "]"
  | .obj fields =>
    "\x7b" ++ ",".intercalate ((byKey (stableFields fields)).map fun e =>
      JsString.quote e.1 ++ ":" ++ e.2) ++ "\x7d"
  | .null => "null"
  | .bool b => if b then "true" else "false"
  | .num n => String.ofList (JsonNumber.text n)
  | .str s => JsString.quote s

def stableItems : List (Json ν) → List String
  | [] => []
  | x :: xs => stableStringify x :: stableItems xs

/-- The keys, each with the text of its value. -/
def stableFields : List (String × Json ν) → List (String × String)
  | [] => []
  | f :: fs => (f.1, stableStringify f.2) :: stableFields fs

end

def normalizeValue : Json ν → String
  | .str s => s
  | value => stableStringify value

end Texts

section Paths

/-- `prefix ? prefix + '.' + key : key`. -/
def nextPrefix (pre key : String) : String := if pre = "" then key else pre ++ "." ++ key

/-- `String(i)`. -/
def indexText (i : ℕ) : String := String.ofList (Nat.toDigits 10 i)

mutual

/-- What `visit` assigns, in this order. -/
def visit (maxDepth : ℕ) : Json ν → String → ℕ → List (String × String)
  | .arr items, pre, depth =>
    if maxDepth < depth then [(pre, normalizeValue (.arr items))]
    else if items.isEmpty then [(pre, "[]")]
    else visitItems maxDepth items 0 pre (depth + 1)
  | .obj fields, pre, depth =>
    if maxDepth < depth then [(pre, normalizeValue (.obj fields))]
    else if fields.isEmpty then [(pre, "\x7b\x7d")]
    else (byKey (visitFields maxDepth fields pre (depth + 1))).flatMap Prod.snd
  | .null, pre, _ => [(pre, normalizeValue (.null : Json ν))]
  | .bool b, pre, _ => [(pre, normalizeValue (.bool b : Json ν))]
  | .num n, pre, _ => [(pre, normalizeValue (.num n))]
  | .str s, pre, _ => [(pre, normalizeValue (.str s : Json ν))]

def visitItems (maxDepth : ℕ) : List (Json ν) → ℕ → String → ℕ → List (String × String)
  | [], _, _, _ => []
  | x :: xs, i, pre, depth =>
    visit maxDepth x (nextPrefix pre (indexText i)) depth ++ visitItems maxDepth xs (i + 1) pre depth

/-- The keys, each with what is assigned within its value. -/
def visitFields (maxDepth : ℕ) : List (String × Json ν) → String → ℕ →
    List (String × List (String × String))
  | [], _, _ => []
  | f :: fs, pre, depth =>
    (f.1, visit maxDepth f.2 (nextPrefix pre f.1) depth) :: visitFields maxDepth fs pre depth

end

/-- `out[path] = text`. A text that is assigned to `__proto__` is not kept. -/
def assignOut (out : OrdMap String String) (e : String × String) : OrdMap String String :=
  if e.1 = "__proto__" then out else out.set e.1 e.2

/-- The keys of an array. -/
def indexed (items : List (Json ν)) : List (String × Json ν) :=
  items.zipIdx.map fun x => (indexText x.2, x.1)

/-- What `flattenConfig` assigns. -/
def assignments (maxDepth currentDepth : ℕ) : Json ν → List (String × String)
  | .obj fields => (byKey (visitFields maxDepth fields "" currentDepth)).flatMap Prod.snd
  | .arr items => (byKey (visitFields maxDepth (indexed items) "" currentDepth)).flatMap Prod.snd
  | leaf => [("", normalizeValue leaf)]

def flattenConfig (obj : Json ν) (maxDepth currentDepth : ℕ) : OrdMap String String :=
  (assignments maxDepth currentDepth obj).foldl assignOut ∅

end Paths

section Hash

/-- `hash = (hash << 5) + hash + unit`, then `hash >>> 0`. -/
def hashStep (hash unit : ℕ) : ℕ := ((hash <<< 5) % 2 ^ 32 + hash + unit) % 2 ^ 32

omit [JsonNumber ν] in
def computeHashFromFlattened (flat : OrdMap String String) : String :=
  let texts := (JsString.sort flat.keys).map fun k => k ++ "=" ++ (flat.get k).getD "" ++ ";"
  String.ofList (Nat.toDigits 16 ((texts.flatMap JsString.utf16).foldl hashStep 5381))

end Hash

end ConfigDrift

end VeriNode

/-!
# The drift report

`diffFlattenedConfigs` and `computeDriftReport` of `src/config-drift/diff.ts`. The order of
`localeCompare` is a parameter, and so are the two readings of the clock.
-/

namespace VeriNode

namespace ConfigDrift

variable {ν : Type*}

inductive DriftCategory
  | valueChange
  | keyAdded
  | keyRemoved
deriving DecidableEq

structure DriftFinding where
  category : DriftCategory
  key : String
  baselineValue : Option String := none
  runtimeValue : Option String := none
deriving DecidableEq

structure Summary where
  total : ℕ
  valueChanges : ℕ
  keyAdded : ℕ
  keyRemoved : ℕ
deriving DecidableEq

structure DriftReport where
  snapshotId : String
  startedAt : ℕ
  endedAt : ℕ
  runtimeHash : String
  baselineHash : String
  findings : List DriftFinding
  summary : Summary
deriving DecidableEq

structure DriftDiffInput (ν : Type*) where
  runtimeConfig : Json ν
  runtimeFlattened : Option (OrdMap String String) := none
  baselineFlattened : OrdMap String String
  baselineHash : String
  snapshotId : String

/-- The keys that only the runtime has. -/
def addedKeys (runtime baseline : OrdMap String String) : List DriftFinding :=
  (runtime.keys.filter fun k => !baseline.has k).map fun k =>
    { category := .keyAdded, key := k, runtimeValue := runtime.get k }

/-- The keys that only the baseline has. -/
def removedKeys (runtime baseline : OrdMap String String) : List DriftFinding :=
  (baseline.keys.filter fun k => !runtime.has k).map fun k =>
    { category := .keyRemoved, key := k, baselineValue := baseline.get k }

/-- The keys of both whose values are not the same. -/
def valueChanges (runtime baseline : OrdMap String String) : List DriftFinding :=
  ((runtime.keys.filter fun k => baseline.has k).filter fun k =>
      baseline.get k ≠ runtime.get k).map fun k =>
    { category := .valueChange, key := k, baselineValue := baseline.get k
      runtimeValue := runtime.get k }

def diffFlattenedConfigs (runtime baseline : OrdMap String String) : List DriftFinding :=
  addedKeys runtime baseline ++ removedKeys runtime baseline ++ valueChanges runtime baseline

/-- `ord`. -/
def DriftCategory.ord : DriftCategory → ℤ
  | .valueChange => 1
  | .keyAdded => 2
  | .keyRemoved => 3

/-- The order of the findings. -/
def compareFindings (localeCompare : String → String → ℤ) (a b : DriftFinding) : ℤ :=
  if a.category.ord ≠ b.category.ord then a.category.ord - b.category.ord
  else localeCompare a.key b.key

def summarize (findings : List DriftFinding) : Summary where
  total := findings.length
  valueChanges := (findings.filter (·.category = .valueChange)).length
  keyAdded := (findings.filter (·.category = .keyAdded)).length
  keyRemoved := (findings.filter (·.category = .keyRemoved)).length

variable [JsonNumber ν]

/-- `input.runtimeFlattened ?? flattenConfig(input.runtimeConfig)`. -/
def DriftDiffInput.runtime (input : DriftDiffInput ν) : OrdMap String String :=
  input.runtimeFlattened.getD (flattenConfig input.runtimeConfig 64 0)

def computeDriftReport (localeCompare : String → String → ℤ) (startedAt endedAt : ℕ)
    (input : DriftDiffInput ν) : DriftReport :=
  let findings := diffFlattenedConfigs input.runtime input.baselineFlattened
  { snapshotId := input.snapshotId
    startedAt := startedAt
    endedAt := endedAt
    runtimeHash := computeHashFromFlattened input.runtime
    baselineHash := input.baselineHash
    findings := findings.mergeSort fun a b => compareFindings localeCompare a b ≤ 0
    summary := summarize findings }

end ConfigDrift

end VeriNode
