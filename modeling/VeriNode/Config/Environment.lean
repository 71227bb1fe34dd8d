import VeriNode.Config.HotUpdate
import VeriNode.Lib.JsString

/-!
# The configuration in environment variables

`flattenToEnv` and `normalizeEnvKey` of `src/config/validator.ts`, `loadEnvironment` of
`src/config/loader.ts` with the functions that find a place in the schema, and `parseEnvValue` of
`src/config/utils.ts`. The schema is one of objects with properties down to leaves, and a
configuration assigns leaves.
-/

namespace VeriNode

namespace Config

open JsVal

variable {ν : Type*}

/-- Doubles: `String(n)`, `Number(text)`, and which of them are finite, or integers. -/
structure Numbers (ν : Type*) where
  text : ν → String
  number : String → ν
  isFinite : ν → Bool
  isInteger : ν → Bool
  number_text : ∀ n, isFinite n = true → number (text n) = n

inductive LeafType
  | string
  | number
  | integer
  | boolean
  | stringArray
deriving DecidableEq

inductive EnvSchema where
  | leaf (type : LeafType)
  | object (properties : List (String × EnvSchema))

/-- What a leaf is assigned. -/
inductive Leaf (ν : Type*) where
  | str (s : String)
  | num (n : ν)
  | bool (b : Bool)
  | strs (items : List String)

/-- A configuration, or what it assigns within. -/
inductive Assignment (ν : Type*) where
  | leaf (value : Leaf ν)
  | object (fields : List (String × Assignment ν))

section Values

/-- An array of strings. -/
def stringArray (items : List String) : JsVal ν := .json (.arr (items.map .str))

def Leaf.toVal : Leaf ν → JsVal ν
  | .str s => .json (.str s)
  | .num n => .json (.num n)
  | .bool b => .json (.bool b)
  | .strs items => stringArray items

namespace Assignment

mutual

def toVal : Assignment ν → JsVal ν
  | .leaf value => value.toVal
  | .object fields => .obj (toVals fields)
termination_by structural a => a

def toVals : List (String × Assignment ν) → List (String × JsVal ν)
  | [] => []
  | (k, a) :: fields => (k, toVal a) :: toVals fields
termination_by structural fields => fields

end

end Assignment

/-- The leaf's value is one of the type; in an array no string is empty. -/
def Leaf.ofType (numbers : Numbers ν) : LeafType → Leaf ν → Prop
  | .string, .str _ => True
  | .number, .num n => numbers.isFinite n = true
  | .integer, .num n => numbers.isFinite n = true ∧ numbers.isInteger n = true
  | .boolean, .bool _ => True
  | .stringArray, .strs items => "" ∉ items
  | _, _ => False

/-- The configuration assigns leaves of the schema. -/
inductive Assigns (numbers : Numbers ν) : EnvSchema → Assignment ν → Prop
  | leaf {type : LeafType} {value : Leaf ν} : value.ofType numbers type →
      Assigns numbers (.leaf type) (.leaf value)
  | object {properties : List (String × EnvSchema)} {fields : List (String × Assignment ν)} :
      (fields.map Prod.fst).Nodup →
      (∀ f ∈ fields, (properties.lookup f.1).isSome) →
      (∀ f ∈ fields, ∀ s, properties.lookup f.1 = some s → Assigns numbers s f.2) →
      Assigns numbers (.object properties) (.object fields)

end Values

section Keys

variable (cases : CaseMapping)

/-- `key.replace(new RegExp('^prefix_'), '')`. -/
def dropPrefix (envPrefix key : String) : String :=
  if (envPrefix ++ "_").toList <+: key.toList then
    String.ofList (key.toList.drop (envPrefix ++ "_").length)
  else key

/-- `.replace(/__/g, '.')`. -/
def replaceDouble : List Char → List Char
  | '_' :: '_' :: cs => '.' :: replaceDouble cs
  | c :: cs => c :: replaceDouble cs
  | [] => []

/-- `normalizeEnvKey`. -/
def normalizeEnvKey (key : String) (envPrefix : String := "VERINODE") : String :=
  String.ofList ((replaceDouble (cases.lower (dropPrefix envPrefix key)).toList).map
    fun c => if c = '_' then '.' else c)

/-- `.replace(/[\._]/g, '')`. -/
def stripSeparators (path : String) : String :=
  String.ofList (path.toList.filter fun c => c ≠ '.' && c ≠ '_')

mutual

/-- `search`: the first path below this one that reads as the target. -/
def search (target : String) : EnvSchema → List String → Option (List String)
  | .leaf _, path => if cases.lower ("".intercalate path) = target then some path else none
  | .object properties, path =>
    if cases.lower ("".intercalate path) = target then some path
    else searchProperties target properties path
termination_by structural s => s

def searchProperties (target : String) :
    List (String × EnvSchema) → List String → Option (List String)
  | [], _ => none
  | (key, s) :: rest, path => (search target s (path ++ [key])).or (searchProperties target rest path)
termination_by structural properties => properties

end

/-- `findActualPath`. -/
def findActualPath (schema : EnvSchema) (path : String) : Option (List String) :=
  search cases (cases.lower (stripSeparators path)) schema []

/-- What the keys lead to in the schema. -/
def EnvSchema.at : List String → EnvSchema → Option EnvSchema
  | [], s => some s
  | _ :: _, .leaf _ => none
  | k :: ks, .object properties => (properties.lookup k).bind (EnvSchema.at ks)

/-- The types `parseEnvValue` knows. -/
inductive TargetType
  | string
  | number
  | boolean
  | array
deriving DecidableEq

/-- `getSchemaTypeForPath`. -/
def getSchemaTypeForPath (schema : EnvSchema) (path : String) : Option TargetType :=
  match schema.at (splitPath path) with
  | some (.leaf .integer) | some (.leaf .number) => some .number
  | some (.leaf .boolean) => some .boolean
  | some (.leaf .stringArray) => some .array
  | some (.leaf .string) => some .string
  | _ => none

end Keys

section Texts

variable (cases : CaseMapping) (numbers : Numbers ν)

/-- `value.split(',')`, trimmed, without what is empty. -/
def splitItems (value : String) : List String :=
  (((value.toList.splitOn ',').map JsString.trim).filter (· ≠ [])).map String.ofList

/-- `parseEnvValue`. -/
def parseEnvValue (value : String) : TargetType → JsVal ν
  | .number => .json (.num (numbers.number value))
  | .boolean => .json (.bool (["true", "1", "yes"].contains (cases.lower value)))
  | .array => stringArray (splitItems value)
  | .string => .json (.str value)

/-- The value where the schema has no type for it. -/
def inferEnvValue (value : String) : JsVal ν :=
  if value = "true" || value = "false" then .json (.bool (value = "true"))
  else if value ≠ "" && numbers.isFinite (numbers.number value) then
    .json (.num (numbers.number value))
  else .json (.str value)

/-- `JSON.stringify` of an array of strings. -/
def stringifyItems (items : List String) : String :=
  "[" ++ ",".intercalate (items.map JsString.quote) ++ "]"

/-- What a leaf is written as. -/
def Leaf.text : Leaf ν → String
  | .str s => s
  | .num n => numbers.text n
  | .bool b => if b then "true" else "false"
  | .strs items => stringifyItems items

end Texts

/-- Variables, by their names. -/
abbrev Env := List (String × String)

/-- `result[name] = text`. -/
def setVar (name text : String) : Env → Env
  | [] => [(name, text)]
  | e :: env => if e.1 = name then (name, text) :: env else e :: setVar name text env

section Flatten

variable (cases : CaseMapping) (numbers : Numbers ν)

/-- `[prefix, ...next].join('_').toUpperCase()`. -/
def envName (envPrefix : String) (next : List String) : String :=
  cases.upper ("_".intercalate (envPrefix :: next))

mutual

/-- What `walk` does at a key. -/
def walkValue (envPrefix : String) : Assignment ν → List String → Env → Env
  | .leaf value, next, env => setVar (envName cases envPrefix next) (value.text numbers) env
  | .object fields, next, env => walk envPrefix fields next env
termination_by structural a => a

/-- `walk`. -/
def walk (envPrefix : String) : List (String × Assignment ν) → List String → Env → Env
  | [], _, env => env
  | (key, a) :: fields, parts, env =>
    walk envPrefix fields parts (walkValue envPrefix a (parts ++ [key]) env)
termination_by structural fields => fields

end

/-- `flattenToEnv`. -/
def flattenToEnv (config : List (String × Assignment ν)) (envPrefix : String := "VERINODE") : Env :=
  walk cases numbers envPrefix config [] []

end Flatten

section Load

variable (cases : CaseMapping) (numbers : Numbers ν) (schema : EnvSchema)

/-- The keys that a variable's value is set at. -/
def actualPath (configKey : String) : List String :=
  (findActualPath cases schema configKey).getD (splitPath configKey)

/-- The value of a variable. -/
def parsedValue (configKey value : String) : JsVal ν :=
  let targetPath := ((findActualPath cases schema configKey).map ".".intercalate).getD configKey
  match getSchemaTypeForPath schema targetPath with
  | some type => parseEnvValue cases numbers value type
  | none => inferEnvValue numbers value

/-- What one variable does to the result, or none if it throws. -/
def loadVariable (envPrefix : String) (result : JsVal ν) (entry : String × String) :
    Option (JsVal ν) :=
  if (envPrefix ++ "_").toList <+: entry.1.toList then
    let configKey := normalizeEnvKey cases entry.1
    setPath (actualPath cases schema configKey)
      (parsedValue cases numbers schema configKey entry.2) result
  else some result

/-- `loadEnvironment`, with these variables in `process.env`. -/
def loadEnvironment (env : Env) (envPrefix : String := "VERINODE") : Option (JsVal ν) :=
  env.foldlM (loadVariable cases numbers schema envPrefix) (.obj [])

end Load

end Config

end VeriNode
