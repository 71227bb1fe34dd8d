import VeriNode.Lib.JsString
import VeriNode.Lib.OrdMap
import VeriNode.Lib.Run

/-!
# The migration manager

`MigrationManager` of `src/database/migration_manager.ts`, over a directory of files and a database
with one client. What a section does is not looked into: the database keeps which sections have been
executed and not undone by a `ROLLBACK`, newest first. A statement may fail, and then its
transaction has had no effect; the times in `schema_migrations` are left out.
-/

namespace VeriNode

namespace Database

open JsString

section Files

/-- A directory: the contents of its files. -/
abbrev Directory := OrdMap String String

structure MigrationDefinition where
  version : String
  name : String
  up : String
  down : String
  checksum : String
deriving DecidableEq

/-- `/^\d+_.+\.sql$/.test(file)`. -/
def isMigrationFile (file : String) : Bool :=
  match file.toList.dropWhile Char.isDigit with
  | '_' :: rest =>
    file.toList.head?.any Char.isDigit && ['.', 's', 'q', 'l'].isSuffixOf rest && 4 < rest.length
      && (rest.take (rest.length - 4)).all fun c => !isLineTerminator c
  | _ => false

/-- `file.split('_')[0]`. -/
def versionOf (file : String) : String := String.ofList (file.toList.takeWhile (· ≠ '_'))

/-- `basename(file, '.sql')`, for a file whose name ends so. -/
def baseName (file : String) : String :=
  String.ofList (file.toList.take (file.toList.length - 4))

/-- What is left of the text after `--\s*@word\s*$`, in either case, at its front. -/
def afterMark (word : String) : List Char → Option (List Char)
  | '-' :: '-' :: text =>
    match text.dropWhile isWhitespace with
    | '@' :: text =>
      if (text.take word.length).map Char.toLower = word.toList then
        let text := (text.drop word.length).dropWhile fun c => isWhitespace c && !isLineTerminator c
        if text.head?.all isLineTerminator then some text else none
      else none
    | _ => none
  | _ => none

/-- The text before the first line with the mark, and what is left after the mark. -/
def splitAtMark (word : String) (lineStart : Bool) : List Char → Option (List Char × List Char)
  | [] => none
  | c :: text =>
    match if lineStart then afterMark word (c :: text) else none with
    | some rest => some ([], rest)
    | none => (splitAtMark word (isLineTerminator c) text).map fun parts => (c :: parts.1, parts.2)

/-- 32-bit FNV-1a over the code units, in hexadecimal. -/
def checksum (input : String) : String :=
  let hash := (utf16 input).foldl (fun hash c => (hash ^^^ UInt32.ofNat c) * 0x01000193)
    (0x811c9dc5 : UInt32)
  let digits := Nat.toDigits 16 hash.toNat
  String.ofList (List.replicate (8 - digits.length) '0' ++ digits)

def parseMigration (files : Directory) (file : String) : Except String MigrationDefinition :=
  let content := (files.get file).getD ""
  let text := content.toList
  if (splitAtMark "up" true text).isNone && (splitAtMark "down" true text).isNone then
    .ok { version := versionOf file, name := baseName file, up := content,
          down := "-- no-op rollback for " ++ file, checksum := checksum content }
  else
    let upMatch := (splitAtMark "up" true text).bind fun parts => splitAtMark "down" false parts.2
    match upMatch, splitAtMark "down" true text with
    | some (up, _), some (_, down) =>
      if trim down = [] then
        .error ("Migration " ++ file ++ " must include -- @up and non-empty -- @down sections")
      else
        .ok { version := versionOf file, name := baseName file, up := String.ofList (trim up),
              down := String.ofList (trim down), checksum := checksum content }
    | _, _ => .error ("Migration " ++ file ++ " must include -- @up and non-empty -- @down sections")

def loadMigrations (files : Directory) : Except String (List MigrationDefinition) :=
  (sort (files.keys.filter isMigrationFile)).mapM (parseMigration files)

end Files

section Client

/-- A row of `schema_migrations`. -/
structure Row where
  name : String
  checksum : String
  /-- `rolled_back_at IS NOT NULL`. -/
  rolledBack : Bool
deriving DecidableEq

inductive Section
  | up (migration : MigrationDefinition)
  | down (migration : MigrationDefinition)
deriving DecidableEq

def Section.migration : Section → MigrationDefinition
  | up migration => migration
  | down migration => migration

structure Tables where
  schemaMigrations : OrdMap String Row := ∅
  /-- The sections whose effects stand, newest first. -/
  executed : List Section := []

/-- The database as its client sees it: what is committed, and the transaction it is in. -/
structure Client where
  tables : Tables
  transaction : Option Tables := none

/-- `BEGIN`. -/
def Client.begin (c : Client) : Client := { c with transaction := c.transaction <|> some c.tables }

/-- `COMMIT`. -/
def Client.commit (c : Client) : Client := { tables := c.transaction.getD c.tables }

/-- `ROLLBACK`. -/
def Client.rollback (c : Client) : Client := { tables := c.tables }

/-- A statement that writes, in the transaction if there is one. -/
def Client.write (f : Tables → Tables) (c : Client) : Client :=
  match c.transaction with
  | some t => { c with transaction := some (f t) }
  | none => { c with tables := f c.tables }

def Tables.execute (s : Section) (t : Tables) : Tables := { t with executed := s :: t.executed }

/-- `INSERT INTO schema_migrations … ON CONFLICT (version) DO UPDATE`, which keeps the name. -/
def Tables.insertVersion (m : MigrationDefinition) (t : Tables) : Tables :=
  let name := ((t.schemaMigrations.get m.version).map Row.name).getD m.name
  { t with schemaMigrations := t.schemaMigrations.set m.version ⟨name, m.checksum, false⟩ }

/-- `UPDATE schema_migrations SET rolled_back_at = NOW() … WHERE version = $1`. -/
def Tables.rollBackVersion (m : MigrationDefinition) (t : Tables) : Tables :=
  match t.schemaMigrations.get m.version with
  | some row =>
    { t with schemaMigrations := t.schemaMigrations.set m.version { row with rolledBack := true } }
  | none => t

/-- `SELECT version FROM schema_migrations WHERE rolled_back_at IS NULL`. -/
def Tables.appliedVersions (t : Tables) : List String :=
  (t.schemaMigrations.entries.filter fun e => !e.2.rolledBack).map Prod.fst

/-- How the database orders texts. -/
structure Collation where
  lt : String → String → Bool
  irrefl : ∀ a, lt a a = false
  trans : ∀ a b c, lt a b = true → lt b c = true → lt a c = true
  total : ∀ a b, a ≠ b → lt a b = true ∨ lt b a = true

/-- `SELECT … WHERE rolled_back_at IS NULL AND version > $1 ORDER BY version DESC`. -/
def Tables.versionsAfter (collation : Collation) (targetVersion : String) (t : Tables) :
    List String :=
  (t.appliedVersions.filter (collation.lt targetVersion ·)).insertionSort
    fun a b => collation.lt a b = false

end Client

section Manager

/-- What the calls return of a migration. -/
structure MigrationRecord where
  version : String
  name : String
  checksum : String
  rolledBack : Bool := false
deriving DecidableEq

/-- A computation that issues statements, some of which throw. -/
abbrev Query := ExceptT String (StateM Client)

/-- Where the work on one migration may throw: in a call of `emit`, or in a statement. -/
inductive Point
  | started
  | begin
  | body
  | record
  | commit
  | completed
deriving DecidableEq

/-- What fails in a call: its first statements, or the work on a migration, by its name. -/
structure Faults where
  reading : Bool := false
  during : String → Option Point := fun _ => none

/-- A statement, unless it fails. -/
def query (fails : Bool) (statement : Client → Client) : Query Unit := do
  if fails then throw "failed"
  modify statement

/-- A section and its record, in one transaction. -/
def transactionally (fault : Option Point) (run record : Tables → Tables)
    (result : MigrationRecord) : Query MigrationRecord := do
  query (fault = some .started) id
  try
    query (fault = some .begin) Client.begin
    query (fault = some .body) (Client.write run)
    query (fault = some .record) (Client.write record)
    query (fault = some .commit) Client.commit
    query (fault = some .completed) id
    return result
  catch error =>
    query false Client.rollback
    throw error

def applyMigration (fault : Option Point) (migration : MigrationDefinition) :
    Query MigrationRecord :=
  transactionally fault (Tables.execute (.up migration)) (Tables.insertVersion migration)
    { version := migration.version, name := migration.name, checksum := migration.checksum }

def rollbackMigration (fault : Option Point) (migration : MigrationDefinition) :
    Query MigrationRecord :=
  transactionally fault (Tables.execute (.down migration)) (Tables.rollBackVersion migration)
    { version := migration.version, name := migration.name, checksum := migration.checksum,
      rolledBack := true }

/-- `candidates`, the migrations whose version is not among the applied ones. -/
def candidates (applied : List String) (migrations : List MigrationDefinition) :
    List MigrationDefinition :=
  migrations.filter fun m => m.version ∉ applied

/-- `selected`; an empty target is none. -/
def selected (targetVersion : Option String) (candidates : List MigrationDefinition) :
    List MigrationDefinition :=
  match targetVersion with
  | none => candidates
  | some target =>
    if target = "" then candidates else candidates.filter fun m => utf16 m.version ≤ utf16 target

def migrate (files : Directory) (targetVersion : Option String) (faults : Faults) :
    Query (List MigrationRecord) := do
  query faults.reading id
  let applied := (← get).tables.appliedVersions
  let migrations ← loadMigrations files
  (selected targetVersion (candidates applied migrations)).mapM fun migration =>
    applyMigration (faults.during migration.name) migration

/-- `new Map(…)` of the migrations by their version. -/
def byVersion (migrations : List MigrationDefinition) : OrdMap String MigrationDefinition :=
  migrations.foldl (fun map migration => map.set migration.version migration) ∅

def rollback (collation : Collation) (files : Directory) (targetVersion : String)
    (faults : Faults) : Query (List MigrationRecord) := do
  let migrations ← loadMigrations files
  query faults.reading id
  let versions := (← get).tables.versionsAfter collation targetVersion
  versions.mapM fun version =>
    match (byVersion migrations).get version with
    | none => throw ("Cannot rollback " ++ version ++ "; migration file is missing")
    | some migration => rollbackMigration (faults.during migration.name) migration

end Manager

section System

structure State where
  files : Directory
  tables : Tables

inductive Action
  | addFile (file content : String)
  | migrate (targetVersion : Option String) (faults : Faults)
  | rollback (targetVersion : String) (faults : Faults)

/-- What a call of the action returns or throws, and leaves the tables as. -/
def Action.call (collation : Collation) (s : State) :
    Action → Except String (List MigrationRecord) × Tables
  | .addFile _ _ => (.ok [], s.tables)
  | .migrate target faults => runCall (Database.migrate s.files target faults)
  | .rollback target faults => runCall (Database.rollback collation s.files target faults)
where
  runCall (calls : Query (List MigrationRecord)) : Except String (List MigrationRecord) × Tables :=
    let r := calls.run.run { tables := s.tables }
    (r.1, r.2.tables)

/-- Files are added, and calls are made one after another. -/
def step (collation : Collation) (s : State) : Action → Option State
  | .addFile file content =>
    if s.files.has file then none else some { s with files := s.files.set file content }
  | action => some { s with tables := (action.call collation s).2 }

/-- It starts with any files, none of which has been applied. -/
def sys (collation : Collation) : Sys State Action where
  init s := s.tables = {}
  step := step collation

end System

end Database

end VeriNode
