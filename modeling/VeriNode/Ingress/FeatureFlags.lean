import VeriNode.Config.Manager
import VeriNode.Lib.JsNumber
import VeriNode.Lib.OrdMap

/-!
# Feature flags

`src/core/ingress/feature_flags.ts`: the registry, and the cache of the statuses. Whoever listens for
changes is left out, and so are the descriptions and owners of the flags.
-/

namespace VeriNode

namespace Ingress

open JsVal Config

abbrev Value : Type := JsVal JsNumber

/-- A configuration, by its fields. -/
abbrev Tree : Type := List (String × Value)

inductive FeatureFlagStatus
  | enabled
  | disabled
  | degraded
deriving DecidableEq

namespace FeatureFlagStatus

/-- The status that a value of the configuration is. -/
def ofValue : Value → Option FeatureFlagStatus
  | .json (.str s) =>
    if s = "enabled" then some .enabled
    else if s = "disabled" then some .disabled
    else if s = "degraded" then some .degraded
    else none
  | _ => none

def value : FeatureFlagStatus → Value
  | enabled => .json (.str "enabled")
  | disabled => .json (.str "disabled")
  | degraded => .json (.str "degraded")

end FeatureFlagStatus

/-- `if (value)`. -/
def truthy : Value → Bool
  | .undefined | .json .null => false
  | .json (.bool b) => b
  | .json (.num n) => n ≠ .nan && n ≠ 0
  | .json (.str s) => s ≠ ""
  | _ => true

/-- `a !== b`, where what is an object or an array is another one. -/
def strictNe : Value → Value → Bool
  | .undefined, .undefined => false
  | .func f, .func g => f ≠ g
  | .json .null, .json .null => false
  | .json (.bool a), .json (.bool b) => a ≠ b
  | .json (.num a), .json (.num b) => !a.strictEq b
  | .json (.str a), .json (.str b) => a ≠ b
  | _, _ => true

structure FeatureFlag where
  key : String
  defaultStatus : FeatureFlagStatus
  dependencies : Option (List String)
deriving DecidableEq

/-- The cache has what the flags were overridden with: the validator lets any value through. -/
structure Flags where
  registry : OrdMap String FeatureFlag
  cache : OrdMap String Value
  initialized : Bool

def getFlagFromConfig (config : Tree) (key : String) : Option FeatureFlagStatus :=
  FeatureFlagStatus.ofValue (getIn (splitPath ("feature_flags.overrides" ++ "." ++ key)) (.obj config))

def registerFlag (flag : FeatureFlag) (f : Flags) : Flags :=
  { f with registry := f.registry.set flag.key flag }

/-- The override of the configuration, or the default status. -/
def configuredStatus (config : Tree) (key : String) (flag : FeatureFlag) : FeatureFlagStatus :=
  (getFlagFromConfig config key).getD flag.defaultStatus

def getStatus (config : Tree) (key : String) (f : Flags) : Value × Flags :=
  match (f.cache.get key).filter truthy with
  | some cached => (cached, f)
  | none =>
    match f.registry.get key with
    | none => (FeatureFlagStatus.disabled.value, f)
    | some flag =>
      let status := (configuredStatus config key flag).value
      (status, { f with cache := f.cache.set key status })

/-- Whether all of the keys are, as far as the first that is not. -/
def allEnabled (isEnabled : String → Flags → Option (Bool × Flags)) :
    List String → Flags → Option (Bool × Flags)
  | [], f => some (true, f)
  | dep :: deps, f =>
    match isEnabled dep f with
    | none => none
    | some (false, f) => some (false, f)
    | some (true, f) => allEnabled isEnabled deps f

/-- With calls nested to a depth. None is a call beyond it. -/
def isEnabled (config : Tree) : ℕ → String → Flags → Option (Bool × Flags)
  | 0, _, _ => none
  | depth + 1, key, f =>
    let (status, f) := getStatus config key f
    match FeatureFlagStatus.ofValue status with
    | some .enabled => some (true, f)
    | some .degraded =>
      match (f.registry.get key).bind FeatureFlag.dependencies with
      | some dependencies => allEnabled (isEnabled config depth) dependencies f
      | none => some (true, f)
    | _ => some (false, f)

def setOverride (config : Tree) (key : String) (status : Value) (f : Flags) : Bool × Flags :=
  match f.registry.get key with
  | none => (false, f)
  | some _ =>
    let read := getStatus config key f
    (true, { read.2 with cache := read.2.cache.set key status })

def resetOverride (config : Tree) (key : String) (f : Flags) : Bool × Flags :=
  match f.registry.get key with
  | none => (false, f)
  | some _ =>
    let read := getStatus config key f
    (true, (getStatus config key { read.2 with cache := read.2.cache.delete key }).2)

/-- The overrides, where they are an object. -/
def flagOverrides (config : Tree) : Tree :=
  match getIn (splitPath "feature_flags.overrides") (.obj config) with
  | .obj fields => fields
  | _ => []

/-- An override, as it is read when the flags are initialised. -/
def cacheOverride (config : Tree) (f : Flags) (key : String) : Flags :=
  match f.registry.get key, getFlagFromConfig config key with
  | some _, some status => { f with cache := f.cache.set key status.value }
  | _, _ => f

/-- The default of a flag that the cache has nothing of. -/
def cacheDefault (f : Flags) (e : String × FeatureFlag) : Flags :=
  if f.cache.has e.1 then f
  else { f with cache := f.cache.set e.1 e.2.defaultStatus.value }

/-- With the subscription left to the caller: whether there is one to be made. -/
def initFeatureFlags (config : Tree) (f : Flags) : Flags × Bool :=
  if f.initialized then (f, false)
  else
    let f := ((flagOverrides config).map Prod.fst).foldl (cacheOverride config) f
    let f := f.registry.entries.foldl cacheDefault f
    ({ f with initialized := true }, true)

/-- The callback for `feature_flags`. -/
def refresh (config : Tree) (f : Flags) : Flags :=
  f.registry.entries.foldl (fun f e =>
    let read := getStatus config e.1 f
    let newStatus := (configuredStatus config e.1 e.2).value
    if strictNe read.1 newStatus then
      { read.2 with cache := read.2.cache.set e.1 newStatus }
    else read.2) f

end Ingress

end VeriNode
