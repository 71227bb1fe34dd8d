import VeriNode.Tls.AcmeRotation
import VeriNode.Lib.OrdMap
import VeriNode.Lib.TempFile

/-!
# Renewals at the same time

Calls of `checkOnce` of `src/tls/acme_rotation.ts` on one `CertificateStore`, interleaved at each step
of the file system. A temporary file has the time in milliseconds in its name and nothing else that
two calls do not share. The three files are at different paths, nothing fails but to rename or to
change the mode of a missing file, and a text is written in pieces, by its characters. What a status
reads depends on when, and may be anything.
-/

namespace VeriNode

namespace Tls

namespace Renewals

/-- A call of `atomicWriteFile`: the time in its temporary file's name, and its handle. -/
structure Writer where
  stage : Stage := .idle
  content : List Char := []
  time : ℤ := 0
  inode : ℕ := 0
  position : ℕ := 0

/-- A writer that has been started. -/
def Writer.start (content : String) : Writer := { stage := .making, content := content.toList }

/-- A step of `atomicWriteFile`, at a time; of a text more characters than `count` are written, or
the rest. -/
def Writer.step (now : ℤ) (count : ℕ) (w : Writer) (t : Target ℤ Char) :
    Option (Writer × Target ℤ Char) :=
  match w.stage with
  | .making => some ({ w with stage := .opening, time := now }, t)
  | .opening =>
    let opened := t.openTmp w.time
    some ({ w with stage := .writing, inode := opened.2, position := 0 }, opened.1)
  | .writing =>
    let chunk := (w.content.drop w.position).take (count + 1)
    let position := w.position + chunk.length
    let stage := if position = w.content.length then Stage.syncing else .writing
    some ({ w with stage, position }, t.write '\x00' w.inode w.position chunk)
  | .syncing => some ({ w with stage := .closing none }, t)
  | .closing none => some ({ w with stage := .renaming }, t)
  | .renaming =>
    match t.rename w.time with
    | some t => some ({ w with stage := .chmodding }, t)
    | none => some ({ w with stage := .failed "ENOENT: no such file or directory, rename" }, t)
  | .chmodding =>
    if t.file.isSome then some ({ w with stage := .written }, t)
    else some ({ w with stage := .failed "ENOENT: no such file or directory, chmod" }, t)
  | .closing (some _) | .idle | .written | .failed _ => none

/-- A call of `checkOnce`. -/
structure Renewal where
  phase : Phase := .checking
  writers : File → Writer := fun _ => {}
  issued : Option StoredCertificate := none

/-- What follows once a writer has taken a step: the others are not waited for when one fails. -/
def settle (chainPath : Bool) (r : Renewal) : Renewal :=
  match r.phase with
  | .writing before =>
    match (r.writers .cert).stage, (r.writers .key).stage with
    | .failed error, _ | _, .failed error => { r with phase := .recovering error before }
    | .written, .written =>
      match chainPath, r.issued.bind StoredCertificate.chainText with
      | true, some _ =>
        let content := (r.issued.map (body · .chain)).getD ""
        { r with phase := .chaining before
                 writers := Function.update r.writers .chain (Writer.start content) }
      | _, _ => { r with phase := .confirming before }
    | _, _ => r
  | .chaining before =>
    match (r.writers .chain).stage with
    | .failed error => { r with phase := .recovering error before }
    | .written => { r with phase := .confirming before }
    | _ => r
  | _ => r

/-- A status has been read, and its metrics are emitted, or an error is thrown. -/
def Renewal.status (result : Except String CertificateStatus) (r : Renewal) : Option Renewal :=
  match r.phase, result with
  | .checking, .error error => some { r with phase := .rejected error }
  | .checking, .ok before =>
    if before.shouldRenew then some { r with phase := .issuing before }
    else some { r with phase := .resolved ⟨false, false, before.expiresAt, none⟩ }
  | .confirming before, .error error => some { r with phase := .recovering error before }
  | .confirming before, .ok after => some { r with phase := .announcing before after }
  | .recovering error before, result =>
    some { r with phase := .reporting error (result.toOption.getD before) }
  | _, _ => none

def Renewal.issue (result : Except String StoredCertificate) (r : Renewal) : Option Renewal :=
  match r.phase, result with
  | .issuing before, .error error => some { r with phase := .recovering error before }
  | .issuing before, .ok next =>
    some { r with
      phase := .writing before
      issued := some next
      writers := fun file =>
        if file = .chain then r.writers file else Writer.start (body next file) }
  | _, _ => none

/-- `onAlert` and the listeners of the events have returned or thrown. -/
def Renewal.alert (throws : Option String) (r : Renewal) : Option Renewal :=
  match r.phase, throws with
  | .announcing before _, some error => some { r with phase := .recovering error before }
  | .announcing _ after, none =>
    some { r with phase := .resolved ⟨true, true, after.expiresAt, none⟩ }
  | .reporting _ _, some thrown => some { r with phase := .rejected thrown }
  | .reporting error current, none =>
    some { r with phase := .resolved ⟨true, false, current.expiresAt, some error⟩ }
  | _, _ => none

/-- Nobody reads what has been issued. -/
structure State where
  calls : OrdMap ℕ Renewal := ∅
  nextCall : ℕ := 0
  targets : File → Target ℤ Char
  issued : List StoredCertificate := []

inductive Action
  | checkOnce
  | status (id : ℕ) (result : Except String CertificateStatus)
  | issue (id : ℕ) (result : Except String StoredCertificate)
  | file (id : ℕ) (file : File) (now : ℤ) (count : ℕ)
  | alert (id : ℕ) (throws : Option String)

/-- A step of a file's writer. -/
def fileStep (chainPath : Bool) (file : File) (now : ℤ) (count : ℕ) (id : ℕ) (r : Renewal)
    (s : State) : Option State :=
  ((r.writers file).step now count (s.targets file)).map fun wt =>
    { s with
      calls := s.calls.set id
        (settle chainPath { r with writers := Function.update r.writers file wt.1 })
      targets := Function.update s.targets file wt.2 }

def step (chainPath : Bool) (s : State) : Action → Option State
  | .checkOnce => some { s with calls := s.calls.set s.nextCall {}, nextCall := s.nextCall + 1 }
  | .status id result =>
    (s.calls.get id).bind fun r =>
      (r.status result).map fun r => { s with calls := s.calls.set id r }
  | .issue id result =>
    (s.calls.get id).bind fun r =>
      (r.issue result).map fun r =>
        { s with
          calls := s.calls.set id r
          issued := s.issued ++ result.toOption.toList }
  | .file id file now count =>
    (s.calls.get id).bind fun r => fileStep chainPath file now count id r s
  | .alert id throws =>
    (s.calls.get id).bind fun r =>
      (r.alert throws).map fun r => { s with calls := s.calls.set id r }

/-- Calls of `checkOnce` for a store with these files. -/
def sys (chainPath : Bool) (disk : Disk) : Sys State Action where
  init s := s = { targets := fun file => .new ((disk file).map String.toList) }
  step := step chainPath

end Renewals

end Tls

end VeriNode
