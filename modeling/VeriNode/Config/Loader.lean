import VeriNode.Lib.JsPrototype

/-!
# The sources of the configuration

`deepMerge` of `src/config/utils.ts`, `mergeConfigs` of `src/config/validator.ts`, and of
`src/config/loader.ts` what `addSource` and `load` of `ConfigLoader` do up to where the merged
configuration is validated. What the load of a source comes to is given with the source.
-/

namespace VeriNode

namespace ConfigLoader

variable {ν : Type*}

section Merge

/-- A property of a source that is merged into the result: `result[key] = ...`. -/
def assignFrom (deepMerge : ProtoVal ν → ProtoVal ν → ProtoVal ν) (result : ProtoVal ν)
    (f : String × ProtoVal ν) : ProtoVal ν :=
  result.write f.1 (match result.read? f.1 with
    | some destValue => if f.2.isObject then deepMerge destValue f.2 else f.2
    | none => f.2)

/-- `deepMerge` of values of at most the depth. -/
def mergeWithin : ℕ → List (ProtoVal ν) → ProtoVal ν
  | 0, _ => .empty
  | n + 1, sources =>
    sources.foldl (fun result source =>
      source.entries.foldl
        (assignFrom fun destValue sourceValue => mergeWithin n [destValue, sourceValue]) result)
      .empty

/-- `deepMerge`. -/
def deepMerge (sources : List (ProtoVal ν)) : ProtoVal ν :=
  mergeWithin ((sources.map ProtoVal.depth).foldr max 0) sources

def mergeConfigs (configs : List (ProtoVal ν)) : ProtoVal ν :=
  configs.foldl (fun merged config => deepMerge [merged, config]) .empty

end Merge

section Sources

/-- What a source has: a plain object, by its properties. -/
structure PlainConfig (ν : Type*) where
  fields : List (String × ProtoVal ν)
  plain : (ProtoVal.obj .objectPrototype fields).plain = true

def PlainConfig.value (c : PlainConfig ν) : ProtoVal ν := .obj .objectPrototype c.fields

/-- The result is none where the load fails. -/
structure Source (ν : Type*) where
  priority : ℤ
  result : Option (PlainConfig ν)

/-- `addSource`: before the first source of a larger priority. -/
def addSource (sources : List (Source ν)) (source : Source ν) : List (Source ν) :=
  sources.takeWhile (fun s => ¬ s.priority > source.priority)
    ++ source :: sources.dropWhile fun s => ¬ s.priority > source.priority

/-- The sources of a loader that these were added to. -/
def sourcesOf (added : List (Source ν)) : List (Source ν) := added.foldl addSource []

/-- The configurations `load` merges, that of the source sorted first coming first. -/
def configs (sources : List (Source ν)) : List (ProtoVal ν) :=
  ((sources.insertionSort fun a b => a.priority ≤ b.priority).filterMap (·.result)).filterMap
    fun c => if c.fields.length > 0 then some c.value else none

/-- What `load` merges, before it is validated. -/
def merged (sources : List (Source ν)) : ProtoVal ν := mergeConfigs (configs sources).reverse

end Sources

end ConfigLoader

end VeriNode
