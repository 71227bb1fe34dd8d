import VeriNode.Lib.JsNumber
import Mathlib.Algebra.Module.Defs
import Mathlib.Algebra.Field.Defs
import Mathlib.Data.Rat.Floor

/-!
# Validation of batches of signatures

`BatchValidator.validateBatch` of `src/core/attestation/engine.js` over
`src/core/crypto/aggregate_sig.js`, for its two curves, and `verifySingle` for BLS12-381. That curve is
an abstract bilinear scheme, `ed25519.verify` is a parameter, and so is the division of doubles, whose
result decides how a batch is cut.
-/

namespace VeriNode

namespace Attestation

section Scheme

/-- Keys with their secrets, which add up as keys do, and the hashes of messages. -/
structure BlsScheme (F G K : Type) [Field F] [AddCommGroup G] [Module F G] [AddCommGroup K] where
  secret : K →+ F
  hash : List UInt8 → G
  hash_injective : Function.Injective hash

variable {F G K : Type} [Field F] [AddCommGroup G] [Module F G] [AddCommGroup K] [DecidableEq G]

def aggregateBLSSignatures : List G → Except String G
  | [] => .error "Cannot aggregate empty signature set"
  | signature :: signatures => .ok (signatures.foldl (· + ·) signature)

def aggregateBLSPublicKeys : List K → Except String K
  | [] => .error "Cannot aggregate empty public key set"
  | publicKey :: publicKeys => .ok (publicKeys.foldl (· + ·) publicKey)

def verifyBLSAggregate (S : BlsScheme F G K) (message : List UInt8) (aggregatedSignature : G)
    (aggregatedPublicKey : K) : Bool :=
  aggregatedSignature = S.secret aggregatedPublicKey • S.hash message

/-- With `messages[0]`. -/
def verifyAggregate (S : BlsScheme F G K) (messages : List (List UInt8)) (signatures : List G)
    (publicKeys : List K) : Except String Bool := do
  let aggSig ← aggregateBLSSignatures signatures
  let aggPub ← aggregateBLSPublicKeys publicKeys
  return verifyBLSAggregate S (messages.headD []) aggSig aggPub

inductive Message
  | text (s : String)
  | bytes (b : List UInt8)
deriving DecidableEq

/-- `Buffer.from` of a text. -/
def Message.buffer : Message → List UInt8
  | text s => s.toUTF8.data.toList
  | bytes b => b

structure SignedMessage (G K : Type) where
  message : Message
  signature : G
  publicKey : K
deriving DecidableEq

def verifySingle (S : BlsScheme F G K) (sm : SignedMessage G K) : Except String Bool :=
  verifyAggregate S [sm.message.buffer] [sm.signature] [sm.publicKey]

end Scheme

section Batches

/-- The options a validator works with. -/
structure Options where
  maxBatchSize : JsNumber
  parallelism : JsNumber

/-- The constructor: an option that is given replaces what `||` has made of it. -/
def Options.new (maxBatchSize parallelism : Option JsNumber) (cpus : ℕ) : Options where
  maxBatchSize := maxBatchSize.getD 512
  parallelism := parallelism.getD (.ofNat cpus)

/-- `Math.ceil`. -/
def ceil : JsNumber → JsNumber
  | .fin q => .fin ⌈q⌉
  | x => x

/-- The parts of a batch; none if the loop that cuts it does not end. -/
def partitionBatch {α : Type} (divide : ℕ → JsNumber → JsNumber) (batch : List α)
    (numPartitions : JsNumber) : Option (List (List α)) :=
  match ceil (divide batch.length numPartitions) with
  | .fin chunkSize =>
    if chunkSize ≤ 0 then none
    else
      let chunkSize := ⌈chunkSize⌉.toNat
      some ((List.range ((batch.length + chunkSize - 1) / chunkSize)).map fun k =>
        (batch.drop (k * chunkSize)).take chunkSize)
  | .posInf => some [batch]
  -- `slice(0, NaN)` is empty, and `NaN` ends the loop
  | .nan => some [[]]
  | .negInf => none

structure BatchResult where
  valid : Bool
  verified : ℕ
  failed : ℕ
deriving DecidableEq

variable {F G K : Type} [Field F] [AddCommGroup G] [Module F G] [AddCommGroup K] [DecidableEq G]

/-- The check of a batch that is not cut. -/
def verifyBatch (S : BlsScheme F G K) (signedMessages : List (SignedMessage G K)) : Bool :=
  match verifyAggregate S (signedMessages.map (·.message.buffer))
      (signedMessages.map SignedMessage.signature) (signedMessages.map SignedMessage.publicKey) with
  | .ok valid => valid
  | .error _ => false

/-- `validateBatch` up to a depth of the recursion, with the check of a batch that is not cut. -/
def validateCurve {α : Type} (verify : List α → Bool) (divide : ℕ → JsNumber → JsNumber)
    (o : Options) : ℕ → List α → Option BatchResult
  | 0, _ => none
  | depth + 1, signedMessages =>
    let batchSize := signedMessages.length
    if batchSize = 0 then some ⟨true, 0, 0⟩
    else if o.maxBatchSize.lt (.ofNat batchSize) then
      match partitionBatch divide signedMessages o.parallelism with
      | none => none
      | some partitions =>
        (partitions.mapM (validateCurve verify divide o depth)).map fun results =>
          { valid := results.all BatchResult.valid
            verified := (results.map BatchResult.verified).sum
            failed := (results.map BatchResult.failed).sum }
    else
      let valid := verify signedMessages
      some { valid := valid
             verified := if valid then batchSize else 0
             failed := if valid then 0 else batchSize }

/-- For BLS12-381. -/
def validateBatch (S : BlsScheme F G K) (divide : ℕ → JsNumber → JsNumber) (o : Options) :
    ℕ → List (SignedMessage G K) → Option BatchResult :=
  validateCurve (verifyBatch S) divide o

/-- What `validateBatch` answers, if its recursion ends. -/
def Answers (S : BlsScheme F G K) (divide : ℕ → JsNumber → JsNumber) (o : Options)
    (signedMessages : List (SignedMessage G K)) (result : BatchResult) : Prop :=
  ∃ depth, validateBatch S divide o depth signedMessages = some result

end Batches

section Ed25519

variable {G K : Type} (verify : G → List UInt8 → K → Except String Bool)

/-- `ed25519.verify`, where a throw is a failure. -/
def verifies (signature : G) (message : List UInt8) (publicKey : K) : Bool :=
  match verify signature message publicKey with
  | .ok valid => valid
  | .error _ => false

def verifyEd25519Batch (messages : List (List UInt8)) (signatures : List G) (publicKeys : List K) :
    Except String Bool :=
  if messages.length ≠ signatures.length ∨ messages.length ≠ publicKeys.length then
    .error "Mismatched input lengths"
  else if messages.length = 0 then .ok true
  else
    let results := (messages.zip (signatures.zip publicKeys)).map fun (message, signature, publicKey) =>
      verifies verify signature message publicKey
    .ok (results.all id)

/-- The check of a batch that is not cut. -/
def verifyBatchEd25519 (signedMessages : List (SignedMessage G K)) : Bool :=
  match verifyEd25519Batch verify (signedMessages.map (·.message.buffer))
      (signedMessages.map SignedMessage.signature) (signedMessages.map SignedMessage.publicKey) with
  | .ok valid => valid
  | .error _ => false

def validateBatchEd25519 (divide : ℕ → JsNumber → JsNumber) (o : Options) :
    ℕ → List (SignedMessage G K) → Option BatchResult :=
  validateCurve (verifyBatchEd25519 verify) divide o

end Ed25519

end Attestation

end VeriNode
