import VeriNode.Lib.JsString
import VeriNode.Lib.Run
import Mathlib.Logic.Function.Basic
import Mathlib.Data.Rat.Defs
import Mathlib.Algebra.Order.Ring.Rat

/-!
# Renewal of a certificate

`AcmeRenewalManager.checkOnce` of `src/tls/acme_rotation.ts`, and `CertificateStore.writeAtomic` and
`atomicWriteFile` under it: one renewal, with the writers of its files interleaved at each await. The
three files are at different paths, and so are their temporary files. Any step may fail; what a
certificate says of its expiry is a parameter, and times are milliseconds.
-/

namespace VeriNode

namespace Tls

section Data

structure StoredCertificate where
  certificate : String
  privateKey : String
  chain : Option String := none
deriving DecidableEq

structure CertificateStatus where
  «exists» : Bool
  expiresAt : Option ℤ
  daysRemaining : Option ℤ
  shouldRenew : Bool
  emergency : Bool
deriving DecidableEq

structure RenewalResult where
  attempted : Bool
  renewed : Bool
  expiresAt : Option ℤ
  error : Option String := none
deriving DecidableEq

inductive Severity
  | warning
  | critical
  | info
deriving DecidableEq

structure RenewalAlert where
  severity : Severity
  message : String
  error : Option String := none
  status : CertificateStatus
deriving DecidableEq

/-- The files of a store. -/
inductive File
  | cert
  | key
  | chain
deriving DecidableEq

abbrev Disk := File → Option String

structure Options where
  renewBeforeDays : ℚ
  emergencyNotifyDays : ℚ
  /-- The store has a `chainPath`. -/
  chainPath : Bool
  /-- The end of a certificate's validity, or the error of reading it. -/
  certificateExpiry : String → Except String ℤ

def dayMs : ℤ := 24 * 60 * 60 * 1000

def ensureTrailingNewline (value : String) : String :=
  if value.toList.getLast? = some '\n' then value else value ++ "\n"

def trimmed (value : String) : String := String.ofList (JsString.trim value.toList)

/-- The chain, if there is one and it is not empty. -/
def StoredCertificate.chainText (next : StoredCertificate) : Option String :=
  next.chain.filter (· ≠ "")

/-- What `writeAtomic` writes to a file. -/
def body (next : StoredCertificate) : File → String
  | .cert =>
    match next.chainText with
    | some chain => trimmed next.certificate ++ "\n" ++ trimmed chain ++ "\n"
    | none => ensureTrailingNewline next.certificate
  | .key => ensureTrailingNewline next.privateKey
  | .chain => ensureTrailingNewline (next.chainText.getD "")

/-- What fails in the reading of a status. -/
inductive ReadFault
  | none
  | access (file : File)
  | read (error : String)
deriving DecidableEq

/-- `fileExists`, which takes a failure for a missing file. -/
def fileExists (disk : Disk) (fault : ReadFault) (file : File) : Bool :=
  (disk file).isSome && fault ≠ .access file

def readStatus (o : Options) (disk : Disk) (fault : ReadFault) (now : ℤ) :
    Except String CertificateStatus :=
  if !(fileExists disk fault .cert && fileExists disk fault .key) then
    .ok { «exists» := false, expiresAt := none, daysRemaining := none, shouldRenew := true,
          emergency := true }
  else
    match fault with
    | .read error => .error error
    | _ =>
      match o.certificateExpiry ((disk .cert).getD "") with
      | .error error => .error error
      | .ok expiresAt =>
        let daysRemaining := (expiresAt - now) / dayMs
        .ok { «exists» := true, expiresAt := some expiresAt, daysRemaining := some daysRemaining,
              shouldRenew := (daysRemaining : ℚ) < o.renewBeforeDays,
              emergency := (daysRemaining : ℚ) < o.emergencyNotifyDays }

end Data

section Writers

/-- Where `atomicWriteFile` stands. -/
inductive Stage
  | idle
  | making
  | opening
  | writing
  | syncing
  /-- The file is being closed, after an error if there is one. -/
  | closing (error : Option String)
  | renaming
  | chmodding
  | written
  | failed (error : String)
deriving DecidableEq

structure Writer where
  stage : Stage := .idle
  content : String := ""
  /-- What the temporary file holds. -/
  tmp : String := ""
deriving DecidableEq

/-- How a step of the file system ends; a write that fails leaves something in its file. -/
inductive Outcome
  | ok
  | fail (error left : String)
deriving DecidableEq

/-- A step of `atomicWriteFile`. -/
def Writer.advance (w : Writer) : Outcome → Option Writer
  | .ok =>
    match w.stage with
    | .making => some { w with stage := .opening }
    | .opening => some { w with stage := .writing, tmp := "" }
    | .writing => some { w with stage := .syncing, tmp := w.content }
    | .syncing => some { w with stage := .closing none }
    | .closing none => some { w with stage := .renaming }
    | .closing (some error) => some { w with stage := .failed error }
    | .renaming => some { w with stage := .chmodding }
    | .chmodding => some { w with stage := .written }
    | .idle | .written | .failed _ => none
  | .fail error left =>
    match w.stage with
    | .writing => some { w with stage := .closing (some error), tmp := left }
    | .syncing => some { w with stage := .closing (some error) }
    | .making | .opening | .closing _ | .renaming | .chmodding =>
      some { w with stage := .failed error }
    | .idle | .written | .failed _ => none

/-- The rename, which alone touches the file itself. -/
def Writer.place (w : Writer) (outcome : Outcome) (file : File) (disk : Disk) : Disk :=
  if w.stage = .renaming ∧ outcome = .ok then Function.update disk file (some w.tmp) else disk

/-- A writer that has been started. -/
def Writer.start (content : String) : Writer := { stage := .making, content := content }

end Writers

section Renewal

/-- Where `checkOnce` stands. -/
inductive Phase
  | checking
  | issuing (before : CertificateStatus)
  /-- The certificate and the key are being written. -/
  | writing (before : CertificateStatus)
  | chaining (before : CertificateStatus)
  | confirming (before : CertificateStatus)
  | announcing (before after : CertificateStatus)
  /-- The block that renews has thrown. -/
  | recovering (error : String) (before : CertificateStatus)
  | reporting (error : String) (current : CertificateStatus)
  | resolved (result : RenewalResult)
  | rejected (error : String)
deriving DecidableEq

structure State where
  phase : Phase := .checking
  disk : Disk
  writers : File → Writer := fun _ => {}
  /-- What the issuer has issued. -/
  issued : Option StoredCertificate := none
  /-- What the alerts given to `onAlert` have been, newest first. -/
  alerts : List RenewalAlert := []
  /-- What was on the disk at the start. -/
  old : Disk

inductive Action
  /-- A status is read, and its metrics are emitted. -/
  | status (fault : ReadFault) (now : ℤ) (metricThrows : Option String)
  | issue (result : Except String StoredCertificate)
  | file (file : File) (outcome : Outcome)
  /-- `onAlert` and the listeners of the events. -/
  | alert (throws : Option String)

/-- The alert of a renewal. -/
def renewedAlert (after : CertificateStatus) : RenewalAlert where
  severity := .info
  message := "TLS certificate renewed successfully"
  status := after

/-- The alert of a renewal that has failed. -/
def failedAlert (error : String) (current : CertificateStatus) : RenewalAlert where
  severity := if current.emergency then .critical else .warning
  message :=
    if current.emergency then
      "TLS certificate renewal failed and certificate is inside the 7-day emergency window"
    else "TLS certificate renewal failed; keeping existing certificate"
  error := some error
  status := current

/-- What follows once a writer has taken a step: the others are not waited for when one fails. -/
def settle (o : Options) (s : State) : State :=
  match s.phase with
  | .writing before =>
    match (s.writers .cert).stage, (s.writers .key).stage with
    | .failed error, _ | _, .failed error => { s with phase := .recovering error before }
    | .written, .written =>
      match o.chainPath, s.issued.bind StoredCertificate.chainText with
      | true, some _ =>
        let content := (s.issued.map (body · .chain)).getD ""
        { s with phase := .chaining before
                 writers := Function.update s.writers .chain (Writer.start content) }
      | _, _ => { s with phase := .confirming before }
    | _, _ => s
  | .chaining before =>
    match (s.writers .chain).stage with
    | .failed error => { s with phase := .recovering error before }
    | .written => { s with phase := .confirming before }
    | _ => s
  | _ => s

/-- A step of a file's writer. -/
def fileStep (o : Options) (s : State) (file : File) (outcome : Outcome) : Option State :=
  ((s.writers file).advance outcome).map fun w =>
    settle o { s with disk := (s.writers file).place outcome file s.disk
                      writers := Function.update s.writers file w }

/-- A status and its metrics, in a block that may throw. -/
def checked (o : Options) (s : State) (fault : ReadFault) (now : ℤ) (metricThrows : Option String) :
    Except String CertificateStatus :=
  match readStatus o s.disk fault now, metricThrows with
  | .ok _, some error => .error error
  | status, _ => status

def step (o : Options) (s : State) : Action → Option State
  | .status fault now metricThrows =>
    match s.phase with
    | .checking =>
      match checked o s fault now metricThrows with
      | .error error => some { s with phase := .rejected error }
      | .ok before =>
        if before.shouldRenew then some { s with phase := .issuing before }
        else some { s with phase := .resolved ⟨false, false, before.expiresAt, none⟩ }
    | .confirming before =>
      match checked o s fault now metricThrows with
      | .error error => some { s with phase := .recovering error before }
      | .ok after => some { s with phase := .announcing before after }
    | .recovering error before =>
      let current := (readStatus o s.disk fault now).toOption.getD before
      some { s with phase := .reporting error current }
    | _ => none
  | .issue result =>
    match s.phase with
    | .issuing before =>
      match result with
      | .error error => some { s with phase := .recovering error before }
      | .ok next =>
        some { s with
          phase := .writing before
          issued := some next
          writers := fun file =>
            if file = .chain then s.writers file else Writer.start (body next file) }
    | _ => none
  | .file file outcome => fileStep o s file outcome
  | .alert throws =>
    match s.phase with
    | .announcing before after =>
      let s := { s with alerts := renewedAlert after :: s.alerts }
      match throws with
      | some error => some { s with phase := .recovering error before }
      | none => some { s with phase := .resolved ⟨true, true, after.expiresAt, none⟩ }
    | .reporting error current =>
      let s := { s with alerts := failedAlert error current :: s.alerts }
      match throws with
      | some thrown => some { s with phase := .rejected thrown }
      | none => some { s with phase := .resolved ⟨true, false, current.expiresAt, some error⟩ }
    | _ => none

/-- One renewal, from any files. -/
def sys (o : Options) : Sys State Action where
  init s := s = { disk := s.disk, old := s.disk }
  step := step o

end Renewal

end Tls

end VeriNode
