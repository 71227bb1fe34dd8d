import VeriNode.Lib.Bytes
import VeriNode.Lib.JsObject
import VeriNode.Lib.JsonParse

/-!
# Encryption of the fields of a payload

`PayloadEncryptionService` of `src/security/payload_encryption.ts`. The keys and the nonces that are
drawn are counted: what the `n`-th call answers is any function of `n`, so that it does not matter
which item of an array asks first. The cipher and the hash are parameters.
-/

namespace VeriNode

namespace Security

def MARKER : String := "__verinode_e2ee"

def ALGORITHM : String := "AES-256-GCM"

def KEY_BYTES : ℕ := 32

/-- AES-256-GCM, whose decryption fails on a tag that is not right, SHA-256, and the bytes that are
drawn the `n`-th time. -/
structure Crypto where
  encrypt : (key nonce aad plaintext : List UInt8) → List UInt8 × List UInt8
  decrypt : (key nonce aad ciphertext tag : List UInt8) → Option (List UInt8)
  sha256 : List UInt8 → List UInt8
  randomBytes : ℕ → List UInt8

inductive KeyMaterial
  | buffer (bytes : List UInt8)
  | text (s : String)

structure PayloadEncryptionKey where
  keyId : String
  key : KeyMaterial

/-- What is answered the `n`-th time. -/
structure KeyProvider where
  getActiveKey : ℕ → PayloadEncryptionKey
  getKey : ℕ → String → Option PayloadEncryptionKey

def StaticKeyProvider (activeKey : PayloadEncryptionKey) (keys : List PayloadEncryptionKey) :
    KeyProvider where
  getActiveKey _ := activeKey
  getKey _ keyId := (activeKey :: keys).find? fun entry => entry.keyId = keyId

structure PayloadEncryptionOptions where
  keyProvider : KeyProvider
  sensitiveFields : List String
  aadContext : Option String

structure PayloadEncryptionService where
  options : PayloadEncryptionOptions
  sensitivePaths : List (List String)

def parsePath (path : String) : Except String (List String) :=
  let parts := ((path.toList.splitOn '.').map fun part => String.ofList (JsString.trim part)).filter
    (· ≠ "")
  if parts = [] then .error "Sensitive field path cannot be empty" else .ok parts

def PayloadEncryptionService.new (options : PayloadEncryptionOptions) :
    Except String PayloadEncryptionService :=
  (options.sensitiveFields.mapM parsePath).map fun paths => ⟨options, paths⟩

def normalizeKey (C : Crypto) (key : KeyMaterial) : List UInt8 :=
  let raw := match key with
    | .buffer bytes => bytes
    | .text s => Base64.decode s
  if raw.length = KEY_BYTES then raw else C.sha256 raw

section Envelopes

variable {ν : Type} [ReadableNumber ν]

structure EncryptedFieldEnvelope where
  keyId : String
  nonce : String
  ciphertext : String
  tag : String

def EncryptedFieldEnvelope.json (e : EncryptedFieldEnvelope) : Json ν :=
  .obj [(MARKER, .bool true), ("version", .num ReadableNumber.one), ("alg", .str ALGORITHM),
    ("keyId", .str e.keyId), ("nonce", .str e.nonce), ("ciphertext", .str e.ciphertext),
    ("tag", .str e.tag)]

/-- The string that is the value of a field. -/
def stringField (k : String) (fields : List (String × Json ν)) : Option String :=
  match fields.lookup k with
  | some (.str s) => some s
  | _ => none

/-- The value as an envelope, if it is one. -/
def encryptedEnvelope? : Json ν → Option EncryptedFieldEnvelope
  | .obj fields =>
    if fields.lookup MARKER = some (.bool true)
        ∧ fields.lookup "version" = some (.num ReadableNumber.one)
        ∧ fields.lookup "alg" = some (.str ALGORITHM) then do
      let keyId ← stringField "keyId" fields
      let nonce ← stringField "nonce" fields
      let ciphertext ← stringField "ciphertext" fields
      let tag ← stringField "tag" fields
      return ⟨keyId, nonce, ciphertext, tag⟩
    else none
  | _ => none

def isEncryptedEnvelope (value : Json ν) : Bool := (encryptedEnvelope? value).isSome

end Envelopes

section Service

/-- Answers, with the number of calls that were made for them. -/
abbrev Draws (α : Type) : Type := StateT ℕ (Except String) α

/-- The number of this call. -/
def draw : Draws ℕ := fun n => .ok (n, n + 1)

variable {ν : Type} [ReadableNumber ν] (C : Crypto) (s : PayloadEncryptionService)

def aad (keyId fieldPath : String) : List UInt8 :=
  Utf8.encode (s.options.aadContext.getD "verinode" ++ ":" ++ fieldPath ++ ":" ++ keyId)

def encryptValue (value : Json ν) (fieldPath : String) : Draws (Json ν) :=
  if isEncryptedEnvelope value then return value
  else do
    let n ← draw
    let activeKey := s.options.keyProvider.getActiveKey n
    let nonce := C.randomBytes n
    let sealed := C.encrypt (normalizeKey C activeKey.key) nonce (aad s activeKey.keyId fieldPath)
      (Utf8.encode value.stringify)
    return EncryptedFieldEnvelope.json
      { keyId := activeKey.keyId
        nonce := Base64.encode nonce
        ciphertext := Base64.encode sealed.1
        tag := Base64.encode sealed.2 }

def decryptValue (value : Json ν) (fieldPath : String) : Draws (Json ν) :=
  match encryptedEnvelope? value with
  | none => return value
  | some envelope => do
    let n ← draw
    match s.options.keyProvider.getKey n envelope.keyId with
    | none => throw ("No payload encryption key found for keyId " ++ envelope.keyId)
    | some encryptionKey =>
      match C.decrypt (normalizeKey C encryptionKey.key) (Base64.decode envelope.nonce)
          (aad s envelope.keyId fieldPath) (Base64.decode envelope.ciphertext)
          (Base64.decode envelope.tag) with
      | none => throw "Unsupported state or unable to authenticate data"
      | some plaintext =>
        match Json.parse (Utf8.decode plaintext) with
        | none => throw "SyntaxError"
        | some value => return value

inductive Operation
  | encrypt
  | decrypt
deriving DecidableEq

def transformValue (operation : Operation) (value : Json ν) (fieldPath : String) : Draws (Json ν) :=
  match operation with
  | .encrypt => encryptValue C s value fieldPath
  | .decrypt => decryptValue C s value fieldPath

/-- What every object inherits. -/
def inherited : List String := "__proto__" :: JsVal.inherited

/-- A path that ends in what an object inherits, if the object has no such key itself. -/
def inherits : List String → Bool
  | [head] => head ∈ inherited
  | [head, last] => head = "__proto__" && last ∈ inherited
  | _ => false

/-- Where a path ends in what an object inherits. On encryption a function has no text, and it
throws; what is done to `__proto__` instead, which makes an envelope the prototype of the object, is
left out and counted as throwing. On decryption a function becomes the object's own, which is left
out in the same way; `__proto__` stays what it is. -/
def visitInherited (operation : Operation) (path : List String) (fields : List (String × Json ν)) :
    Draws (List (String × Json ν)) :=
  match operation, path with
  | .encrypt, _ => throw "inherited"
  | .decrypt, [head] => if head = "__proto__" then return fields else throw "inherited"
  | .decrypt, _ => return fields

mutual

def visitPath (operation : Operation) : (node : Json ν) → (path : List String) → Draws (Json ν)
  | .arr items, path => Json.arr <$> visitItems operation items path
  | .obj fields, path =>
    if path.head?.all (· ∈ fields.map Prod.fst) then Json.obj <$> visitField operation fields path
    else if inherits path then Json.obj <$> visitInherited operation path fields
    else return .obj fields
  | node, _ => return node

def visitItems (operation : Operation) :
    (items : List (Json ν)) → (path : List String) → Draws (List (Json ν))
  | [], _ => return []
  | x :: xs, path => do
    let x ← visitPath operation x path
    let xs ← visitItems operation xs path
    return x :: xs

/-- In the field that is the head of the path. -/
def visitField (operation : Operation) :
    (fields : List (String × Json ν)) → (path : List String) → Draws (List (String × Json ν))
  | (k, v) :: fs, head :: rest =>
    if k = head then do
      let v ← match rest with
        | [] => transformValue C s operation v (".".intercalate [head])
        | _ => visitPath operation v rest
      return (k, v) :: fs
    else do
      let fs ← visitField operation fs (head :: rest)
      return (k, v) :: fs
  | fields, _ => return fields

end

def clone (payload : Json ν) : Draws (Json ν) :=
  match Json.parse payload.stringify with
  | some payload => return payload
  | none => throw "SyntaxError"

def transform (operation : Operation) (payload : Json ν) : Draws (Json ν) := do
  let cloned ← clone payload
  s.sensitivePaths.foldlM (fun node path => visitPath C s operation node path) cloned

/-- From a number of earlier calls on. -/
def encryptPayload (n : ℕ) (payload : Json ν) : Except String (Json ν) :=
  (transform C s .encrypt payload).run' n

def decryptPayload (n : ℕ) (payload : Json ν) : Except String (Json ν) :=
  (transform C s .decrypt payload).run' n

end Service

end Security

end VeriNode
