import VeriNode.Lib.JsonLines

/-!
# The history of drift snapshots

`DriftStorage` of `src/config-drift/storage.ts`: the last records in memory, and all of them in a
file, if there is a path for one. A record is a value of which only `snapshotId` is looked at. The
file at the path is written by this storage alone.
-/

namespace VeriNode

namespace ConfigDrift

variable {ν : Type*}

/-- `xs.slice(start)`. -/
def slice {α : Type*} (start : ℤ) (xs : List α) : List α :=
  if start < 0 then xs.drop (xs.length + start).toNat else xs.drop start.toNat

/-- `while (xs.length > max) xs.shift()`. -/
def shiftTo {α : Type*} (max : ℕ) : List α → List α
  | [] => []
  | x :: xs => if max < (x :: xs).length then shiftTo max xs else x :: xs

/-- `record && typeof record.snapshotId === 'string'`. -/
def identified : Json ν → Bool
  | .obj fields =>
    match fields.lookup "snapshotId" with
    | some (.str _) => true
    | _ => false
  | _ => false

structure DriftSnapshotRecord (ν : Type*) extends JsValue ν where
  hasId : identified json = true

structure DriftStorageOptions where
  maxInMemory : Option ℕ := none
  jsonlPath : Option String := none

namespace DriftStorageOptions

def limit (options : DriftStorageOptions) : ℕ := options.maxInMemory.getD 240

/-- `if (this.jsonlPath)`. -/
def persists (options : DriftStorageOptions) : Bool := options.jsonlPath.any (· ≠ "")

end DriftStorageOptions

/-- A `DriftStorage`, with what stands in the file at its path, if there is one. -/
structure DriftStorage (ν : Type*) where
  options : DriftStorageOptions
  inMemory : List (Json ν) := []
  file : Option String := none

namespace DriftStorage

variable [ReadableNumber ν]

/-- The record that a line holds, if it holds one. -/
def readLine (line : List Char) : Option (Json ν) :=
  if JsString.isBlank (String.ofList line) then none
  else (Json.parse (String.ofList line)).filter identified

/-- The constructor. -/
def construct (options : DriftStorageOptions) (file : Option String) : DriftStorage ν where
  options := options
  inMemory :=
    match file with
    | some content =>
      if options.persists then
        shiftTo options.limit ((Json.splitLines content.toList).filterMap readLine)
      else []
    | none => []
  file := file

def add (record : Json ν) (s : DriftStorage ν) : DriftStorage ν where
  options := s.options
  inMemory := shiftTo s.options.limit (s.inMemory ++ [record])
  file :=
    if s.options.persists then some (s.file.getD "" ++ (Json.stringify record ++ "\n")) else s.file

omit [ReadableNumber ν] in
def history (limit : ℕ) (s : DriftStorage ν) : List (Json ν) := slice (-limit) s.inMemory

/-- What becomes of a storage: a record is added, or the process starts again. -/
inductive Event (ν : Type*)
  | add (record : DriftSnapshotRecord ν)
  | restart

def apply (s : DriftStorage ν) : Event ν → DriftStorage ν
  | .add record => s.add record.json
  | .restart => construct s.options s.file

/-- The storage after the events, on a path where no file was. -/
def after (options : DriftStorageOptions) (events : List (Event ν)) : DriftStorage ν :=
  events.foldl apply (construct options none)

end DriftStorage

end ConfigDrift

end VeriNode
