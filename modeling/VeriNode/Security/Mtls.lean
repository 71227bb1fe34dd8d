import Mathlib.Data.Rat.Floor
import VeriNode.Lib.JsString
import VeriNode.Lib.Run

/-!
# Peer identities

`src/security/mtls.ts`: the SPIFFE ids of a certificate, read off the text that the runtime makes of
its subject alternative names, and who is let in by them. The text is the runtime's: what it takes for
a special character, and how it writes a string literal, are not of the repository (`SanFormat`).
-/

namespace VeriNode

namespace Mtls

open JsString

abbrev Text := List Char

section Identities

structure VeriNodeSpiffeIdentity where
  trustDomain : Text
  serviceName : Text
  podId : Text
deriving DecidableEq

def spiffeScheme : Text := ['s', 'p', 'i', 'f', 'f', 'e', ':', '/', '/']

def parseVeriNodeSpiffeId (spiffeId : Text) : Option VeriNodeSpiffeIdentity :=
  if spiffeScheme <+: spiffeId then
    let rest := spiffeId.drop spiffeScheme.length
    if '/' ∈ rest then
      let trustDomain := rest.takeWhile (· ≠ '/')
      let path := (rest.dropWhile (· ≠ '/')).drop 1
      match path.splitOn '/' with
      | [serviceName, podId] =>
        if serviceName = [] ∨ podId = [] then none else some ⟨trustDomain, serviceName, podId⟩
      | _ => none
    else none
  else none

def uriPrefix : Text := ['U', 'R', 'I', ':']

/-- `split(/,\s*/)`, within white space after a comma if so told. -/
def splitEntries : Bool → Text → List Text
  | _, [] => [[]]
  | blank, c :: l =>
    if c = ',' then [] :: splitEntries true l
    else if blank && isWhitespace c then splitEntries true l
    else (splitEntries false l).modifyHead (c :: ·)

def extractSpiffeIds (subjectAltName : Option Text) : List Text :=
  match subjectAltName with
  | none | some [] => []
  | some text =>
    (((splitEntries false text).map trim).filter fun entry => uriPrefix ++ spiffeScheme <+: entry).map
      (·.drop uriPrefix.length)

def validateSpiffeIdentity (spiffeIds : List Text) (trustDomain : Text)
    (allowedSpiffeIds : List Text) : Bool :=
  let trustPrefix := spiffeScheme ++ trustDomain ++ ['/']
  spiffeIds.any fun id =>
    (trustPrefix.isPrefixOf id) && (allowedSpiffeIds.isEmpty || id ∈ allowedSpiffeIds)

def validatePeerCertificate (subjectAltName : Option Text) (trustDomain : Text)
    (allowedSpiffeIds : List Text) : Bool :=
  validateSpiffeIdentity (extractSpiffeIds subjectAltName) trustDomain allowedSpiffeIds

def veriNodeDomain : Text := "verinode.labs".toList

def buildVeriNodeSpiffeId (serviceName podId : Text) : Text :=
  spiffeScheme ++ veriNodeDomain ++ '/' :: serviceName ++ '/' :: podId

/-- The service name of an id that is well formed and of the domain. -/
def veriNodeService (id : Text) : Option Text :=
  match parseVeriNodeSpiffeId id with
  | some parsed => if parsed.trustDomain = veriNodeDomain then some parsed.serviceName else none
  | none => none

def extractVeriNodeServiceName (subjectAltName : Option Text) : Option Text :=
  (extractSpiffeIds subjectAltName).findSome? veriNodeService

def verifyPeerServiceIdentity (subjectAltName : Option Text) (allowedServiceNames : List Text) :
    Bool :=
  match extractVeriNodeServiceName subjectAltName with
  | none => false
  | some serviceName => allowedServiceNames.isEmpty || serviceName ∈ allowedServiceNames

end Identities

section Names

inductive NameType
  | dns
  | uri
  | email
  | ip
deriving DecidableEq

def NameType.label : NameType → Text
  | .dns => ['D', 'N', 'S']
  | .uri => ['U', 'R', 'I']
  | .email => ['e', 'm', 'a', 'i', 'l']
  | .ip => ['I', 'P', ' ', 'A', 'd', 'd', 'r', 'e', 's', 's']

/-- A subject alternative name. -/
structure AltName where
  type : NameType
  value : Text
deriving DecidableEq

/-- Which values the runtime writes as string literals, and how. A literal is in quotes, and has no
commas but those of the value. -/
structure SanFormat where
  special : Char → Bool
  literal : Text → Text
  comma_special : special ',' = true
  literal_quoted : ∀ value, ∃ body, literal value = '"' :: body
  literal_comma : ∀ value, ',' ∈ literal value → ',' ∈ value

variable (format : SanFormat)

/-- A name in the text of the certificate. -/
def SanFormat.entry (n : AltName) : Text :=
  n.type.label ++ ':' :: if n.value.any format.special then format.literal n.value else n.value

/-- `subjectAltName`. -/
def SanFormat.render (ns : List AltName) : Text := [',', ' '].intercalate (ns.map format.entry)

end Names

end Mtls

end VeriNode

/-!
# The certificate manager

`MtlsCertificateManager` of `src/security/mtls.ts`. What a call reads of the three files comes with
the call, since another process may write them at any time, between two of the reads too. Digests,
certificates and secure contexts are the runtime's (`Runtime`); a time is in milliseconds, none for
that of an invalid date.
-/

namespace VeriNode

namespace Mtls

section Config

abbrev Bytes := List UInt8

def defaultCertMaxValidityMs : ℚ := 24 * 60 * 60 * 1000

structure MtlsConfig where
  enabled : Bool
  certFile : Option Text
  keyFile : Option Text
  caFile : Option Text
  trustDomain : Text
  allowedSpiffeIds : List Text
  certMaxValidityMs : ℚ
  minSecondsUntilExpiry : ℚ
  reloadPollMs : ℚ

/-- `!value`. -/
def absent (value : Option Text) : Bool := value.all (· = [])

/-- The variables of the files that are not configured. -/
def MtlsConfig.missing (config : MtlsConfig) : List Text :=
  ([("VERINODE_MTLS_CERT_FILE".toList, config.certFile),
    ("VERINODE_MTLS_KEY_FILE".toList, config.keyFile),
    ("VERINODE_MTLS_CA_FILE".toList, config.caFile)].filter fun e => absent e.2).map Prod.fst

end Config

section Loading

/-- What the runtime makes of the bytes of a certificate. -/
structure X509 where
  subjectAltName : Option Text
  fingerprint256 : Text
  serialNumber : Text
  validFrom : Option ℤ
  validTo : Option ℤ
deriving DecidableEq

/-- Digests are in hexadecimal, and none is empty. What throws has no result. -/
structure Runtime (Ctx : Type) where
  sha256 : Bytes → Text
  x509 : Bytes → Option X509
  createSecureContext : Bytes → Bytes → Bytes → Option Ctx
  sha256_ne_nil : ∀ b, sha256 b ≠ []

/-- What reading each of the files gives, if it can be read. -/
structure Reads where
  cert : Option Bytes
  key : Option Bytes
  ca : Option Bytes
deriving DecidableEq

structure LoadedCertificate (Ctx : Type) where
  certPem : Bytes
  keyPem : Bytes
  caPem : Bytes
  fingerprint256 : Text
  serialNumber : Text
  spiffeIds : List Text
  validFrom : Option ℤ
  validTo : Option ℤ
  secureContext : Ctx
deriving DecidableEq

/-- Why a call throws. -/
inductive Failure
  | missing (names : List Text)
  | unreadable
  | invalidCertificate
  | validity (seconds : ℤ)
  | identity (trustDomain : Text)
  | secureContext
  | watch
deriving DecidableEq

/-- The texts of the errors that are thrown here; the others are the runtime's. -/
def Failure.message : Failure → Option String
  | .missing names =>
    some ("mTLS enabled but missing " ++ ", ".intercalate (names.map String.ofList))
  | .validity seconds =>
    some s!"mTLS certificate validity exceeds 24-hour policy: {seconds}s"
  | .identity trustDomain =>
    some ("mTLS certificate is missing an allowed SPIFFE identity for trust domain "
      ++ String.ofList trustDomain)
  | _ => none

variable {Ctx : Type} (runtime : Runtime Ctx) (config : MtlsConfig)

/-- `hashInputs([certPem, keyPem, caPem])`. -/
def hashInputs (certPem keyPem caPem : Bytes) : Text := runtime.sha256 (certPem ++ keyPem ++ caPem)

/-- `validTo.getTime() - validFrom.getTime()`. -/
def validityMs (cert : X509) : Option ℤ :=
  cert.validTo.bind fun last => cert.validFrom.map fun first => last - first

/-- The certificate that is made of the contents of the files. -/
def accept (certPem keyPem caPem : Bytes) : Except Failure (LoadedCertificate Ctx) :=
  match runtime.x509 certPem with
  | none => .error .invalidCertificate
  | some cert =>
    match (validityMs cert).filter fun ms : ℤ => config.certMaxValidityMs + 1000 < (ms : ℚ) with
    | some ms => .error (.validity ⌈(ms : ℚ) / 1000⌉)
    | none =>
      let spiffeIds := extractSpiffeIds cert.subjectAltName
      if !validateSpiffeIdentity spiffeIds config.trustDomain [] then
        .error (.identity config.trustDomain)
      else
        match runtime.createSecureContext certPem keyPem caPem with
        | none => .error .secureContext
        | some secureContext =>
          .ok ⟨certPem, keyPem, caPem, cert.fingerprint256, cert.serialNumber, spiffeIds,
            cert.validFrom, cert.validTo, secureContext⟩

end Loading

section Manager

variable {Ctx : Type} (runtime : Runtime Ctx) (config : MtlsConfig)

/-- The fields of a manager that change, `watcher` and `pollTimer` by whether they are there. -/
structure Manager (Ctx : Type) where
  loaded : Option (LoadedCertificate Ctx)
  contentHash : Text
  watcher : Bool
  pollTimer : Bool
  reloadFailuresTotal : ℕ
  certificateReloadsTotal : ℕ
  handshakeFailuresTotal : ℕ
  invalidPeerIdentityFailuresTotal : ℕ

/-- `load`, with the manager after it. -/
def load (reads : Reads) (m : Manager Ctx) :
    Except Failure (LoadedCertificate Ctx × Manager Ctx) :=
  if config.missing ≠ [] then .error (.missing config.missing)
  else
    match reads.cert, reads.key, reads.ca with
    | some certPem, some keyPem, some caPem =>
      let contentHash := hashInputs runtime certPem keyPem caPem
      match m.loaded.filter fun _ => contentHash = m.contentHash with
      | some loaded => .ok (loaded, m)
      | none =>
        (accept runtime config certPem keyPem caPem).map fun loaded =>
          (loaded, { m with loaded := some loaded, contentHash := contentHash })
    | _, _, _ => .error .unreadable

/-- `reloadIfChanged`, with the manager after it, which it changes also when it throws. -/
def reloadIfChanged (reads : Reads) (m : Manager Ctx) : Except Failure Bool × Manager Ctx :=
  match load runtime config reads m with
  | .error failure => (.error failure, { m with reloadFailuresTotal := m.reloadFailuresTotal + 1 })
  | .ok (_, m') =>
    if m.contentHash ≠ m'.contentHash then
      (.ok true, { m' with certificateReloadsTotal := m'.certificateReloadsTotal + 1 })
    else (.ok false, m')

/-- `startRotationWatch`, where watching the file may throw. -/
def startRotationWatch (reads : Reads) (watchThrows : Bool) (m : Manager Ctx) :
    Except Failure Unit × Manager Ctx :=
  if !config.enabled || m.watcher || m.pollTimer then (.ok (), m)
  else
    match load runtime config reads m with
    | .error failure => (.error failure, m)
    | .ok (_, m') =>
      if watchThrows then (.error .watch, m')
      else (.ok (), { m' with watcher := true, pollTimer := true })

def stopRotationWatch (m : Manager Ctx) : Manager Ctx :=
  { m with watcher := false, pollTimer := false }

structure TlsOptions where
  cert : Bytes
  key : Bytes
  ca : Bytes
  requestCert : Bool := true
  rejectUnauthorized : Bool := true
  minVersion : String := "TLSv1.3"

def serverOptions (reads : Reads) (m : Manager Ctx) : Except Failure TlsOptions × Manager Ctx :=
  match load runtime config reads m with
  | .error failure => (.error failure, m)
  | .ok (loaded, m') =>
    (.ok { cert := loaded.certPem, key := loaded.keyPem, ca := loaded.caPem }, m')

def recordHandshakeFailure (m : Manager Ctx) : Manager Ctx :=
  { m with handshakeFailuresTotal := m.handshakeFailuresTotal + 1 }

def recordInvalidPeerIdentity (m : Manager Ctx) : Manager Ctx :=
  { m with invalidPeerIdentityFailuresTotal := m.invalidPeerIdentityFailuresTotal + 1 }

/-- The constructor, which throws if a file is missing for what is enabled. -/
def construct : Except Failure (Manager Ctx) :=
  if config.enabled && config.missing ≠ [] then .error (.missing config.missing)
  else
    .ok
      { loaded := none, contentHash := [], watcher := false, pollTimer := false
        reloadFailuresTotal := 0, certificateReloadsTotal := 0, handshakeFailuresTotal := 0
        invalidPeerIdentityFailuresTotal := 0 }

end Manager

section System

variable {Ctx : Type} (runtime : Runtime Ctx) (config : MtlsConfig)

/-- `change` is the file's watcher or the poll timer, one of which calls `onChange`. -/
inductive Action
  | load (reads : Reads)
  | reloadIfChanged (reads : Reads)
  | startRotationWatch (reads : Reads) (watchThrows : Bool)
  | change (reads : Reads)
  | stopRotationWatch
  | serverOptions (reads : Reads)
  | handshakeFailure
  | invalidPeerIdentity

/-- Whether the call throws, and the manager after it. -/
def call (m : Manager Ctx) : Action → Except Failure Unit × Manager Ctx
  | .load reads =>
    match load runtime config reads m with
    | .error failure => (.error failure, m)
    | .ok (_, m') => (.ok (), m')
  | .reloadIfChanged reads =>
    ((reloadIfChanged runtime config reads m).1.map fun _ => (),
      (reloadIfChanged runtime config reads m).2)
  | .startRotationWatch reads watchThrows => startRotationWatch runtime config reads watchThrows m
  | .change reads => (.ok (), (reloadIfChanged runtime config reads m).2)
  | .stopRotationWatch => (.ok (), stopRotationWatch m)
  | .serverOptions reads =>
    ((serverOptions runtime config reads m).1.map fun _ => (),
      (serverOptions runtime config reads m).2)
  | .handshakeFailure => (.ok (), recordHandshakeFailure m)
  | .invalidPeerIdentity => (.ok (), recordInvalidPeerIdentity m)

/-- Changes are seen while there is a watcher or a timer. -/
def Action.enabled (m : Manager Ctx) : Action → Bool
  | .change _ => m.watcher || m.pollTimer
  | _ => true

def managerSystem : Sys (Manager Ctx) (Action) where
  init m := construct config = .ok m
  step m a := if a.enabled m then some (call runtime config m a).2 else none

end System

end Mtls

end VeriNode
