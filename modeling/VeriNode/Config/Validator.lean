import VeriNode.Config.Manager
import VeriNode.Lib.JsonSchema

/-!
# Validation of the configuration

`ConfigValidator` of `src/config/validator.ts`. What `RegExp` and `URL` make of a text is a parameter;
a pattern is one that `RegExp` takes. The copy that `validate` makes of the data is the data.
-/

namespace VeriNode

namespace Config

open JsVal

variable {ν : Type*}

/-- What a text is tested for: `new RegExp(pattern).test(value)`, `isUri` and `isHostname`. -/
structure TextTests where
  matchesPattern : String → String → Bool
  isUri : String → Bool
  isHostname : String → Bool

/-- An error; no schema stands for `schema: \x7b\x7d`. -/
structure ConfigValidationError (ν : Type*) where
  path : String
  message : String
  schema : Option (JsonSchema ν)
  value : JsVal ν

/-- The errors and warnings so far. -/
structure Found (ν : Type*) where
  errors : List (ConfigValidationError ν) := []
  warnings : List String := []

structure ValidationResult (ν : Type*) where
  valid : Bool
  errors : List (ConfigValidationError ν)
  warnings : List String
  data : JsVal ν

namespace Found

def push (error : ConfigValidationError ν) (found : Found ν) : Found ν :=
  { found with errors := found.errors ++ [error] }

def warn (warning : String) (found : Found ν) : Found ν :=
  { found with warnings := found.warnings ++ [warning] }

/-- `errors.some((e) => e.path === path)`. -/
def someAt (path : String) (found : Found ν) : Bool := found.errors.any (·.path = path)

end Found

section Texts

/-- `typeof value`. -/
def typeOf : JsVal ν → String
  | .undefined => "undefined"
  | .func _ => "function"
  | .obj _ => "object"
  | .json (.bool _) => "boolean"
  | .json (.num _) => "number"
  | .json (.str _) => "string"
  | .json _ => "object"

/-- What the message says was got in the place of an object. -/
def gotText : JsVal ν → String
  | .json .null => "null"
  | .json (.arr _) => "array"
  | value => typeOf value

variable [JsonNumber ν]

/-- `String(n)`. -/
def numberText (n : ν) : String := String.ofList (JsonNumber.text n)

mutual

/-- `String(value)`, or none if it throws: an object that has a `toString` of its own, which is no
function, has no text. -/
def jsonText : Json ν → Option String
  | .null => some "null"
  | .bool b => some (if b then "true" else "false")
  | .num n => some (numberText n)
  | .str s => some s
  | .arr items => (itemTexts items).map ",".intercalate
  | .obj fields => if "toString" ∈ fields.map Prod.fst then none else some "[object Object]"

/-- The texts of the items, as `join` takes them. -/
def itemTexts : List (Json ν) → Option (List String)
  | [] => some []
  | .null :: items => (itemTexts items).map ("" :: ·)
  | item :: items => (jsonText item).bind fun text => (itemTexts items).map (text :: ·)

end

/-- `String(value)`. -/
def valueText : JsVal ν → Option String
  | .undefined => some "undefined"
  | .func name => some ("function " ++ name ++ "() \x7b [native code] \x7d")
  | .json j => jsonText j
  | .obj fields => if "toString" ∈ fields.map Prod.fst then none else some "[object Object]"

/-- A listed value, as `join` writes it. -/
def scalarText : Scalar ν → String
  | .null => ""
  | .bool b => if b then "true" else "false"
  | .num n => numberText n
  | .str s => s

end Texts

/-- `${path}.${key}`, or the key at the root. -/
def keyPath (path key : String) : String := if path = "" then key else path ++ "." ++ key

/-- `${path}[${index}]`. -/
def itemPath (path : String) (index : ℕ) : String := path ++ "[" ++ toString index ++ "]"

section Checks

variable [LinearOrder ν] [JsonNumber ν]

/-- A listed value is this one. -/
def isScalar : Scalar ν → JsVal ν → Bool
  | .null, .json .null => true
  | .bool b, .json (.bool c) => b = c
  | .num n, .json (.num m) => n = m
  | .str s, .json (.str t) => s = t
  | _, _ => false

/-- What is wrong with a text. -/
def textError (tests : TextTests) (pattern format : Option String) (value : String) :
    Option String :=
  if (pattern.any fun p => p ≠ "" && !tests.matchesPattern p value) then
    some ("Value \"" ++ value ++ "\" does not match pattern " ++ pattern.getD "")
  else if format = some "uri" && !tests.isUri value then
    some ("Value \"" ++ value ++ "\" is not a valid URI")
  else if format = some "hostname" && value ≠ "" && !tests.isHostname value then
    some ("Value \"" ++ value ++ "\" is not a valid hostname")
  else none

/-- What is wrong with a number. -/
def numberError (words : Keywords ν) (value : ν) : Option String :=
  if (words.minimum.any fun m => value < m) then
    some ("Value " ++ numberText value ++ " is less than minimum "
      ++ (words.minimum.map numberText).getD "")
  else if (words.maximum.any fun m => m < value) then
    some ("Value " ++ numberText value ++ " exceeds maximum "
      ++ (words.maximum.map numberText).getD "")
  else none

/-- What the check of the type finds wrong with the value itself. -/
def typeError (isInteger : ν → Bool) (tests : TextTests) (words : Keywords ν) (value : JsVal ν) :
    Option String :=
  match words.type, value with
  | .object, .obj _ => none
  | .object, value => some ("Expected object, got " ++ gotText value)
  | .array, .json (.arr _) => none
  | .array, value => some ("Expected array, got " ++ typeOf value)
  | .string, .json (.str s) => textError tests words.pattern words.format s
  | .string, value => some ("Expected string, got " ++ typeOf value)
  | .integer, .json (.num n) =>
    if isInteger n then numberError words n else some "Expected integer, got number"
  | .integer, value => some ("Expected integer, got " ++ typeOf value)
  | .number, .json (.num n) => numberError words n
  | .number, value => some ("Expected number, got " ++ typeOf value)
  | .boolean, .json (.bool _) => none
  | .boolean, value => some ("Expected boolean, got " ++ typeOf value)

/-- The items one after another; warnings are lost. -/
def validateItems (validate : JsVal ν → String → Found ν → Option (Found ν)) (path : String) :
    ℕ → List (Json ν) → Found ν → Option (Found ν)
  | _, [], found => some found
  | index, item :: items, found =>
    (validate (.ofJson item) (itemPath path index) { found with warnings := [] }).bind fun f =>
      validateItems validate path (index + 1) items { f with warnings := found.warnings }

/-- `validateType`; the items of an array are validated by `items`. -/
def validateType (isInteger : ν → Bool) (tests : TextTests) (schema : JsonSchema ν)
    (items : List (Json ν) → Found ν → Option (Found ν)) (value : JsVal ν) (path : String)
    (found : Found ν) : Option (Found ν) :=
  match typeError isInteger tests schema.words value with
  | some message => some (found.push { path, message, schema := some schema, value })
  | none =>
    match schema.words.type, value with
    | .array, .json (.arr xs) => items xs found
    | _, _ => some found

/-- The check that the value is listed. -/
def validateEnum (schema : JsonSchema ν) (value : JsVal ν) (path : String) (found : Found ν) :
    Option (Found ν) :=
  match schema.words.enum with
  | none => some found
  | some values =>
    if values.any (isScalar · value) then some found
    else
      (valueText value).map fun text =>
        found.push
          { path
            message := "Value \"" ++ text ++ "\" not in enum ["
              ++ ", ".intercalate (values.map scalarText) ++ "]"
            schema := some schema
            value }

/-- The check of the required fields. -/
def validateRequired (path : String) (fields : List (String × JsVal ν)) :
    List String → Found ν → Found ν
  | [], found => found
  | field :: required, found =>
    validateRequired path fields required
      (match read field fields with
        | .undefined =>
          found.push
            { path := keyPath path field
              message := "Missing required field"
              schema := none
              value := .undefined }
        | _ => found)

/-- The warnings of unknown keys. -/
def warnUnknown (allowed : List String) (path : String) :
    List (String × JsVal ν) → Found ν → Found ν
  | [], found => found
  | f :: fields, found =>
    warnUnknown allowed path fields
      (if f.1 ∈ allowed then found
        else found.warn (keyPath path f.1 ++ ": unknown configuration key"))

/-- The validation of the fields that are no properties. -/
def validateUnknown (validate : JsVal ν → String → Found ν → Option (Found ν))
    (allowed : List String) (path : String) : List (String × JsVal ν) → Found ν → Option (Found ν)
  | [], found => some found
  | f :: fields, found =>
    (if f.1 ∈ allowed then some found else validate f.2 (keyPath path f.1) found).bind
      (validateUnknown validate allowed path fields)

mutual

/-- `validateValue`, or none if it throws. -/
def validateValue (isInteger : ν → Bool) (tests : TextTests) :
    JsonSchema ν → JsVal ν → String → Found ν → Option (Found ν)
  | .mk words items properties additional, value, path, found =>
    (validateType isInteger tests (.mk words items properties additional)
      (match items with
        | some s => validateItems (validateValue isInteger tests s) path 0
        | none => fun _ found => some found)
      value path found).bind fun found =>
    if found.someAt path then some found
    else
      (validateEnum (.mk words items properties additional) value path found).bind fun found =>
      match words.type, properties, value with
      | .object, some props, .obj fields =>
        ((validateProperties isInteger tests props fields path found).map
          (validateRequired path fields words.required)).bind fun found =>
        match additional with
        | .forbidden => some (warnUnknown (props.map Prod.fst) path fields found)
        | .schema s =>
          validateUnknown (validateValue isInteger tests s) (props.map Prod.fst) path fields found
        | .absent => some found
      | _, _, _ => some found
termination_by structural s => s

/-- The properties one after another. -/
def validateProperties (isInteger : ν → Bool) (tests : TextTests) :
    List (String × JsonSchema ν) → List (String × JsVal ν) → String → Found ν → Option (Found ν)
  | [], _, _, found => some found
  | (key, propSchema) :: rest, fields, path, found =>
    (match read key fields with
      | .undefined => some found
      | value => validateValue isInteger tests propSchema value (keyPath path key) found).bind
        (validateProperties isInteger tests rest fields path)
termination_by structural ps => ps

end

end Checks

mutual

/-- What of a schema the defaults come from. -/
def defaultsOf : JsonSchema ν → Schema ν
  | .mk words _ (some properties) _ =>
    .mk (words.type = .object) words.default (defaultsOfAll properties)
  | .mk words _ none _ => .mk (words.type = .object) words.default []
termination_by structural s => s

def defaultsOfAll : List (String × JsonSchema ν) → List (String × Schema ν)
  | [] => []
  | (key, s) :: rest => (key, defaultsOf s) :: defaultsOfAll rest
termination_by structural ps => ps

end

/-- `ConfigValidator.validate`, or none if it throws. -/
def ConfigValidator.validate [LinearOrder ν] [JsonNumber ν] (isInteger : ν → Bool)
    (tests : TextTests) (schema : JsonSchema ν) : JsVal ν → Option (ValidationResult ν)
  | .obj fields =>
    let normalized := .obj (applyDefaults (defaultsOf schema) fields)
    (validateValue isInteger tests schema normalized "" {}).map fun found =>
      { valid := found.errors.isEmpty
        errors := found.errors
        warnings := found.warnings
        data := normalized }
  | value =>
    some
      { valid := false
        errors := [{ path := ""
                     message := "Configuration must be an object"
                     schema := some schema
                     value }]
        warnings := []
        data := .obj [] }

end Config

end VeriNode
