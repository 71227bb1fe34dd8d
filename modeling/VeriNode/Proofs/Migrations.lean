import VeriNode.Database.Migrations
import Mathlib.Tactic.SplitIfs

/-!
# Migrations and their files

The manager tracks versions and executes files. The two agree (`Tracked`) for as long as no file is
added with a version that is applied, no `migrate` ends between two files of one version, and no
version that several files share is rolled back. Along such runs no file is left out, none is
migrated twice, and a rollback takes every file back.
-/

namespace VeriNode

namespace Database

open JsString

section Loading

def MigrationDefinition.file (m : MigrationDefinition) : String := m.name ++ ".sql"

/-- What the directory holds for the migration's file is the migration. -/
def IsMigration (files : Directory) (m : MigrationDefinition) : Prop :=
  files.has m.file = true ∧ isMigrationFile m.file = true ∧ parseMigration files m.file = .ok m

instance (files : Directory) (m : MigrationDefinition) : Decidable (IsMigration files m) :=
  inferInstanceAs (Decidable (_ ∧ _))

variable {files : Directory} {file : String} {m m' : MigrationDefinition}
  {ms : List MigrationDefinition}

theorem baseName_append (h : isMigrationFile file = true) : baseName file ++ ".sql" = file := by
  have hsuffix : ".sql".toList <:+ file.toList := by
    unfold isMigrationFile at h
    split at h
    · rename_i rest hrest
      simp only [Bool.and_eq_true, List.isSuffixOf_iff_suffix] at h
      refine List.IsSuffix.trans h.1.1.2 ?_
      exact (List.suffix_cons _ _).trans (hrest ▸ List.dropWhile_suffix _)
    · cases h
  obtain ⟨base, hbase⟩ := hsuffix
  refine String.toList_injective ?_
  rw [String.toList_append, baseName, String.toList_ofList, ← hbase]
  simp

theorem parseMigration_eq (h : parseMigration files file = .ok m) :
    m.name = baseName file ∧ m.version = versionOf file := by
  unfold parseMigration at h
  simp only at h
  split at h
  · cases h
    exact ⟨rfl, rfl⟩
  · split at h
    · split at h
      · cases h
      · cases h
        exact ⟨rfl, rfl⟩
    · cases h

theorem file_of_parseMigration (hf : isMigrationFile file = true)
    (h : parseMigration files file = .ok m) : m.file = file := by
  rw [MigrationDefinition.file, (parseMigration_eq h).1, baseName_append hf]

theorem IsMigration.version (h : IsMigration files m) : m.version = versionOf m.file :=
  (parseMigration_eq h.2.2).2

theorem IsMigration.eq_of_file (h : IsMigration files m) (h' : IsMigration files m')
    (he : m.file = m'.file) : m = m' := by
  have hm := h.2.2
  rw [he, h'.2.2] at hm
  exact (Except.ok.inj hm).symm

theorem IsMigration.set {new content : String} (hnew : files.has new = false) :
    IsMigration (files.set new content) m ↔
      IsMigration files m ∨ m.file = new ∧ IsMigration (files.set new content) m := by
  by_cases he : m.file = new
  · simp [he, IsMigration, hnew]
  · have hget : (files.set new content).get m.file = files.get m.file :=
      OrdMap.get_set_of_ne _ _ he
    simp [IsMigration, OrdMap.has, parseMigration, hget, he]

/-- The migrations are loaded in the order of their files' names. -/
theorem loadMigrations_eq (h : loadMigrations files = .ok ms) :
    ms.map MigrationDefinition.file = sort (files.keys.filter isMigrationFile)
      ∧ ∀ m ∈ ms, IsMigration files m := by
  have hload : ∀ {names : List String} {ms : List MigrationDefinition},
      (∀ file ∈ names, file ∈ files.keys.filter isMigrationFile) →
      names.mapM (parseMigration files) = .ok ms →
      ms.map MigrationDefinition.file = names ∧ ∀ m ∈ ms, IsMigration files m := by
    intro names
    induction names with
    | nil =>
      intro ms _ h
      cases h
      simp
    | cons file names ih =>
      intro ms hnames h
      rw [List.mapM_cons] at h
      obtain ⟨hkey, hf⟩ := List.mem_filter.1 (hnames file List.mem_cons_self)
      cases hm : parseMigration files file with
      | error e =>
        rw [hm] at h
        cases h
      | ok m =>
        cases hrest : names.mapM (parseMigration files) with
        | error e =>
          rw [hm, hrest] at h
          cases h
        | ok rest =>
          rw [hm, hrest] at h
          cases h
          obtain ⟨hmap, hall⟩ := ih (fun f hmem => hnames f (List.mem_cons_of_mem _ hmem)) hrest
          have hfile := file_of_parseMigration hf hm
          refine ⟨by rw [List.map_cons, hfile, hmap], ?_⟩
          rintro m' (_ | ⟨_, hmem⟩)
          · have hhas : files.has file = true := by
              rw [← Bool.not_eq_false, OrdMap.has_eq_false_iff, OrdMap.get_eq_none_iff]
              exact not_not.2 hkey
            exact ⟨hfile ▸ hhas, hfile ▸ hf, hfile ▸ hm⟩
          · exact hall m' hmem
  exact hload (fun _ => mem_sort.1) h

theorem mem_loadMigrations (h : loadMigrations files = .ok ms) : m ∈ ms ↔ IsMigration files m := by
  obtain ⟨hmap, hall⟩ := loadMigrations_eq h
  refine ⟨hall m, fun hm => ?_⟩
  have hkey : m.file ∈ ms.map MigrationDefinition.file := by
    obtain ⟨v, hv⟩ := OrdMap.has_iff.1 hm.1
    rw [hmap, mem_sort, List.mem_filter]
    exact ⟨List.mem_map.2 ⟨_, OrdMap.mem_entries_iff.2 hv, rfl⟩, hm.2.1⟩
  obtain ⟨m', hm', hfile⟩ := List.mem_map.1 hkey
  exact (hall m' hm').eq_of_file hm hfile ▸ hm'

theorem nodup_loadMigrations (h : loadMigrations files = .ok ms) : ms.Nodup := by
  have hkeys : (files.keys.filter isMigrationFile).Nodup := files.nodup.filter _
  refine List.Nodup.of_map MigrationDefinition.file ?_
  rw [(loadMigrations_eq h).1]
  exact (sort_perm _).nodup_iff.2 hkeys

end Loading

section Calls

/-- The section of a migration executed last is its up section. -/
def Up (executed : List Section) (m : MigrationDefinition) : Prop :=
  executed.find? (·.migration = m) = some (.up m)

def Active (t : Tables) (version : String) : Prop := version ∈ t.appliedVersions

def Tables.applied (t : Tables) (m : MigrationDefinition) : Tables :=
  (t.execute (.up m)).insertVersion m

def Tables.undone (t : Tables) (m : MigrationDefinition) : Tables :=
  (t.execute (.down m)).rollBackVersion m

/-- Whether the work on a migration, for all that fails in it, is committed. -/
def lands : Option Point → Bool
  | none | some .completed => true
  | _ => false

/-- The items that a loop gets done: it goes on until one of them throws. -/
def done {ι : Type} (fault : ι → Option Point) : List ι → List ι
  | [] => []
  | i :: rest =>
    if lands (fault i) then i :: (if fault i = none then done fault rest else []) else []

variable {ι : Type} {fault : ι → Option Point} {l : List ι} {i : ι} {t : Tables} {v : String}
  {m m' : MigrationDefinition} {executed : List Section}

theorem done_subset : ∀ {l : List ι}, i ∈ done fault l → i ∈ l
  | [], h => by simp [done] at h
  | j :: l, h => by
    simp only [done] at h
    split_ifs at h with hj hn
    · rcases List.mem_cons.1 h with rfl | h
      · exact List.mem_cons_self
      · exact List.mem_cons_of_mem _ (done_subset h)
    · simp only [List.mem_singleton] at h
      exact h ▸ List.mem_cons_self
    · simp at h

theorem nodup_done : ∀ {l : List ι}, l.Nodup → (done fault l).Nodup
  | [], _ => List.nodup_nil
  | j :: l, h => by
    obtain ⟨hj, hl⟩ := List.nodup_cons.1 h
    simp only [done]
    split_ifs
    · exact List.nodup_cons.2 ⟨fun hm => hj (done_subset hm), nodup_done hl⟩
    · exact List.nodup_singleton _
    · exact List.nodup_nil

theorem done_eq_self : ∀ {l : List ι}, (∀ i ∈ l, fault i = none) → done fault l = l
  | [], _ => rfl
  | j :: l, h => by
    have hj := h j List.mem_cons_self
    have ih := done_eq_self fun i hi => h i (List.mem_cons_of_mem _ hi)
    simp [done, hj, lands, ih]

theorem transactionally_run (fault : Option Point) (run record : Tables → Tables)
    (result : MigrationRecord) (t : Tables) :
    ((transactionally fault run record result).run.run { tables := t })
      = (if fault = none then .ok result else .error "failed",
        { tables := if lands fault then record (run t) else t }) := by
  cases fault with
  | none => rfl
  | some point => cases point <;> rfl

theorem run_bind {α β : Type} (x : Query α) (f : α → Query β) (c : Client) :
    (x >>= f).run.run c = match x.run.run c with
      | (.ok a, c) => (f a).run.run c
      | (.error e, c) => (.error e, c) := by
  rcases hx : x.run.run c with ⟨e | a, c'⟩ <;> rw [ExceptT.run_bind, StateT.run_bind, hx] <;> rfl

/-- What work that is one transaction leaves, and whether it throws. -/
def Transacts {ι : Type} (fault : ι → Option Point) (write : Tables → ι → Tables)
    (work : ι → Query MigrationRecord) : Prop :=
  ∀ i t, ∃ r, (work i).run.run { tables := t }
    = (r, { tables := if lands (fault i) then write t i else t }) ∧ (r.isOk ↔ fault i = none)

theorem mapM_run {work : ι → Query MigrationRecord} {write : Tables → ι → Tables}
    (hwork : Transacts fault write work) : ∀ (l : List ι) (t : Tables),
    ∃ r, (l.mapM work).run.run { tables := t } = (r, { tables := (done fault l).foldl write t })
      ∧ (r.isOk ↔ ∀ i ∈ l, fault i = none)
  | [], t => ⟨.ok [], rfl, by simp [Except.isOk, Except.toBool]⟩
  | i :: l, t => by
    obtain ⟨r, hr, hok⟩ := hwork i t
    rw [List.mapM_cons, run_bind, hr]
    cases r with
    | error e =>
      have hf : fault i ≠ none := fun h => by simpa [Except.isOk, Except.toBool] using hok.2 h
      refine ⟨.error e, ?_, ?_⟩
      · simp only [done, if_neg hf]
        split_ifs <;> rfl
      · simp [Except.isOk, Except.toBool, hf]
    | ok a =>
      have hf : fault i = none := hok.1 rfl
      obtain ⟨r', hr', hok'⟩ := mapM_run hwork l (write t i)
      have hdone : done fault (i :: l) = i :: done fault l := by simp [done, hf, lands]
      simp only [hf, lands, if_true]
      rw [run_bind, hr', hdone]
      cases r' with
      | error e => exact ⟨.error e, rfl, by simpa [hf] using hok'⟩
      | ok as =>
        refine ⟨.ok (a :: as), rfl, fun _ => ?_, fun _ => rfl⟩
        exact List.forall_mem_cons.2 ⟨hf, hok'.1 rfl⟩

theorem transacts_applyMigration (faults : Faults) :
    Transacts (fun m : MigrationDefinition => faults.during m.name) Tables.applied
      fun m => applyMigration (faults.during m.name) m := fun m t =>
  ⟨_, transactionally_run .., by split_ifs <;> simp_all [Except.isOk, Except.toBool]⟩

/-- What fails in the work on an applied version; without a file for it, that throws at once. -/
def versionFault (map : OrdMap String MigrationDefinition) (faults : Faults) (version : String) :
    Option Point :=
  match map.get version with
  | none => some .started
  | some m => faults.during m.name

/-- Rolling a version back, if it has a file. -/
def Tables.undoneVersion (map : OrdMap String MigrationDefinition) (t : Tables) (version : String) :
    Tables :=
  match map.get version with
  | some m => t.undone m
  | none => t

theorem foldl_undoneVersion (map : OrdMap String MigrationDefinition) :
    ∀ (l : List String) (t : Tables),
      l.foldl (Tables.undoneVersion map) t = (l.filterMap map.get).foldl Tables.undone t
  | [], _ => rfl
  | v :: l, t => by
    rw [List.foldl_cons, foldl_undoneVersion map l]
    unfold Tables.undoneVersion
    cases hm : map.get v <;> simp [hm]

theorem transacts_rollbackMigration (map : OrdMap String MigrationDefinition) (faults : Faults) :
    Transacts (versionFault map faults)
      (Tables.undoneVersion map)
      fun version => match map.get version with
        | none => throw ("Cannot rollback " ++ version ++ "; migration file is missing")
        | some m => rollbackMigration (faults.during m.name) m := by
  intro version t
  cases hm : map.get version with
  | none =>
    simp only [hm, versionFault, Tables.undoneVersion]
    exact ⟨.error _, rfl, by simp [Except.isOk, Except.toBool]⟩
  | some m =>
    simp only [hm, versionFault, Tables.undoneVersion]
    exact ⟨_, transactionally_run .., by split_ifs <;> simp_all [Except.isOk, Except.toBool]⟩

/-- What `migrate` may get to. -/
def toApply (s : State) (target : Option String) (ms : List MigrationDefinition) :
    List MigrationDefinition :=
  selected target (candidates s.tables.appliedVersions ms)

/-- The migrations a call of `migrate` gets done. -/
def newlyApplied (s : State) (target : Option String) (faults : Faults)
    (ms : List MigrationDefinition) : List MigrationDefinition :=
  done (fun m => faults.during m.name) (toApply s target ms)

/-- The versions a call of `rollback` gets done. -/
def newlyUndone (collation : Collation) (s : State) (target : String) (faults : Faults)
    (ms : List MigrationDefinition) : List String :=
  done (versionFault (byVersion ms) faults) (s.tables.versionsAfter collation target)

variable {collation : Collation} {s : State} {faults : Faults} {ms : List MigrationDefinition}

theorem run_migrate (files : Directory) (target : Option String) (faults : Faults) (t : Tables) :
    (migrate files target faults).run.run { tables := t }
      = if faults.reading then (.error "failed", { tables := t })
        else match loadMigrations files with
          | .error e => (.error e, { tables := t })
          | .ok ms => ((selected target (candidates t.appliedVersions ms)).mapM fun m =>
              applyMigration (faults.during m.name) m).run.run { tables := t } := by
  unfold migrate
  cases faults.reading with
  | true => rfl
  | false => cases loadMigrations files <;> rfl

theorem run_rollback (files : Directory) (target : String) (faults : Faults) (t : Tables) :
    (rollback collation files target faults).run.run { tables := t }
      = match loadMigrations files with
        | .error e => (.error e, { tables := t })
        | .ok ms =>
          if faults.reading then (.error "failed", { tables := t })
          else ((t.versionsAfter collation target).mapM fun version =>
            match (byVersion ms).get version with
            | none => throw ("Cannot rollback " ++ version ++ "; migration file is missing")
            | some m => rollbackMigration (faults.during m.name) m).run.run { tables := t } := by
  unfold rollback
  cases loadMigrations files with
  | error e => rfl
  | ok ms => cases faults.reading <;> rfl

theorem call_migrate_of (collation : Collation) (s : State) (target : Option String)
    (hread : faults.reading = false) (hms : loadMigrations s.files = .ok ms) :
    ∃ r, (Action.migrate target faults).call collation s
        = (r, (newlyApplied s target faults ms).foldl Tables.applied s.tables)
      ∧ (r.isOk ↔ ∀ m ∈ toApply s target ms, faults.during m.name = none) := by
  obtain ⟨r, hr, hok⟩ := mapM_run (transacts_applyMigration faults) (toApply s target ms) s.tables
  refine ⟨r, ?_, hok⟩
  simp only [Action.call, Action.call.runCall, run_migrate, hread, hms, Bool.false_eq_true, if_false]
  rw [toApply] at hr
  rw [hr]
  rfl

theorem call_migrate (collation : Collation) (s : State) (target : Option String) (faults : Faults) :
    (∃ e, (Action.migrate target faults).call collation s = (.error e, s.tables))
    ∨ ∃ ms, faults.reading = false ∧ loadMigrations s.files = .ok ms := by
  simp only [Action.call, Action.call.runCall, run_migrate]
  cases hf : faults.reading with
  | true => exact .inl ⟨_, rfl⟩
  | false =>
    cases hms : loadMigrations s.files with
    | error e => exact .inl ⟨e, rfl⟩
    | ok ms => exact .inr ⟨ms, rfl, rfl⟩

/-- The migrations that a call of `rollback` gets done. -/
def undoneFiles (collation : Collation) (s : State) (target : String) (faults : Faults)
    (ms : List MigrationDefinition) : List MigrationDefinition :=
  (newlyUndone collation s target faults ms).filterMap (byVersion ms).get

theorem call_rollback_of (collation : Collation) (s : State) (target : String)
    (hread : faults.reading = false) (hms : loadMigrations s.files = .ok ms) :
    ∃ r, (Action.rollback target faults).call collation s
        = (r, (undoneFiles collation s target faults ms).foldl Tables.undone s.tables)
      ∧ (r.isOk ↔ ∀ v ∈ s.tables.versionsAfter collation target,
          versionFault (byVersion ms) faults v = none) := by
  obtain ⟨r, hr, hok⟩ := mapM_run (transacts_rollbackMigration (byVersion ms) faults)
    (s.tables.versionsAfter collation target) s.tables
  refine ⟨r, ?_, hok⟩
  simp only [Action.call, Action.call.runCall, run_rollback, hread, hms, Bool.false_eq_true,
    if_false]
  rw [hr, foldl_undoneVersion]
  rfl

theorem call_rollback (collation : Collation) (s : State) (target : String) (faults : Faults) :
    (∃ e, (Action.rollback target faults).call collation s = (.error e, s.tables))
    ∨ ∃ ms, faults.reading = false ∧ loadMigrations s.files = .ok ms := by
  simp only [Action.call, Action.call.runCall, run_rollback]
  cases hms : loadMigrations s.files with
  | error e => exact .inl ⟨e, rfl⟩
  | ok ms =>
    cases hf : faults.reading with
    | true => exact .inl ⟨_, rfl⟩
    | false => exact .inr ⟨ms, rfl, rfl⟩

end Calls

section Standing

variable {t : Tables} {v : String} {m m' : MigrationDefinition} {ms : List MigrationDefinition}
  {executed : List Section}

@[simp] theorem up_up : Up (.up m :: executed) m' ↔ m = m' ∨ Up executed m' := by
  by_cases h : m = m' <;> simp [Up, Section.migration, h]

@[simp] theorem up_down : Up (.down m :: executed) m' ↔ m ≠ m' ∧ Up executed m' := by
  by_cases h : m = m' <;> simp [Up, Section.migration, h]

theorem Up.mem (h : Up executed m) : .up m ∈ executed := List.mem_of_find?_eq_some h

theorem active_iff : Active t v ↔ ∃ row, t.schemaMigrations.get v = some row ∧ row.rolledBack = false := by
  unfold Active Tables.appliedVersions
  simp only [List.mem_map, List.mem_filter, Prod.exists, exists_and_right, exists_eq_right,
    OrdMap.mem_entries_iff, Bool.not_eq_true']

@[simp] theorem executed_applied : (t.applied m).executed = .up m :: t.executed := rfl

@[simp] theorem executed_undone : (t.undone m).executed = .down m :: t.executed := by
  unfold Tables.undone Tables.rollBackVersion
  split <;> rfl

@[simp] theorem active_applied : Active (t.applied m) v ↔ m.version = v ∨ Active t v := by
  simp only [active_iff, Tables.applied, Tables.insertVersion, Tables.execute, OrdMap.get_set]
  split_ifs with h
  · simp [h]
  · simp [Ne.symm h]

@[simp] theorem active_undone : Active (t.undone m) v ↔ m.version ≠ v ∧ Active t v := by
  simp only [active_iff, Tables.undone, Tables.rollBackVersion, Tables.execute]
  split
  · rw [OrdMap.get_set]
    split_ifs with h
    · simp [h]
    · simp [Ne.symm h]
  · rename_i hnone
    by_cases h : m.version = v
    · simp [← h, hnone]
    · simp [h]

theorem executed_foldl_applied : ∀ (ms : List MigrationDefinition) (t : Tables),
    (ms.foldl Tables.applied t).executed = (ms.map Section.up).reverse ++ t.executed
  | [], _ => rfl
  | m :: ms, t => by simp [executed_foldl_applied ms]

theorem executed_foldl_undone : ∀ (ms : List MigrationDefinition) (t : Tables),
    (ms.foldl Tables.undone t).executed = (ms.map Section.down).reverse ++ t.executed
  | [], _ => rfl
  | m :: ms, t => by simp [executed_foldl_undone ms]

theorem active_foldl_applied : ∀ {ms : List MigrationDefinition} {t : Tables},
    Active (ms.foldl Tables.applied t) v ↔ (∃ m ∈ ms, m.version = v) ∨ Active t v
  | [], t => by simp
  | m :: ms, t => by
    rw [List.foldl_cons, active_foldl_applied, active_applied]
    rw [List.exists_mem_cons_iff, or_left_comm, ← or_assoc]

theorem active_foldl_undone : ∀ {ms : List MigrationDefinition} {t : Tables},
    Active (ms.foldl Tables.undone t) v ↔ (∀ m ∈ ms, m.version ≠ v) ∧ Active t v
  | [], t => by simp
  | m :: ms, t => by
    rw [List.foldl_cons, active_foldl_undone, active_undone]
    simp only [List.forall_mem_cons]
    tauto

theorem up_ups : ∀ {ms : List MigrationDefinition} {executed : List Section},
    Up ((ms.map Section.up).reverse ++ executed) m ↔ m ∈ ms ∨ Up executed m
  | [], _ => by simp
  | m' :: ms, executed => by
    rw [List.map_cons, List.reverse_cons, List.append_assoc, List.singleton_append, up_ups, up_up,
      List.mem_cons]
    tauto

theorem up_downs : ∀ {ms : List MigrationDefinition} {executed : List Section},
    Up ((ms.map Section.down).reverse ++ executed) m ↔ m ∉ ms ∧ Up executed m
  | [], _ => by simp
  | m' :: ms, executed => by
    rw [List.map_cons, List.reverse_cons, List.append_assoc, List.singleton_append, up_downs,
      up_down, List.mem_cons]
    tauto

/-- No up section is executed twice without its down section in between. -/
def Alternating (executed : List Section) : Prop :=
  ∀ l m e, executed = l ++ .up m :: e → ¬ Up e m

theorem alternating_nil : Alternating [] := fun l _ _ h => by simp at h

theorem alternating_up :
    Alternating (.up m :: executed) ↔ ¬ Up executed m ∧ Alternating executed := by
  refine ⟨fun h => ⟨h [] m executed rfl, fun l m' e he => h (.up m :: l) m' e (he ▸ rfl)⟩,
    fun ⟨hm, h⟩ l m' e he => ?_⟩
  rcases l with _ | ⟨x, l⟩
  · obtain ⟨rfl, rfl⟩ : m = m' ∧ executed = e := by simpa using he
    exact hm
  · exact h l m' e (List.cons.inj he).2

theorem Alternating.down (h : Alternating executed) : Alternating (.down m :: executed) := by
  intro l m' e he
  rcases l with _ | ⟨x, l⟩
  · simp at he
  · exact h l m' e (List.cons.inj he).2

theorem Alternating.downs (h : Alternating executed) :
    ∀ ms : List MigrationDefinition, Alternating ((ms.map Section.down).reverse ++ executed) := by
  intro ms
  induction ms generalizing executed with
  | nil => exact h
  | cons m ms ih => simpa using ih h.down

theorem Alternating.ups (h : Alternating executed) :
    ∀ ms : List MigrationDefinition, ms.Nodup → (∀ m ∈ ms, ¬ Up executed m) →
      Alternating ((ms.map Section.up).reverse ++ executed) := by
  intro ms
  induction ms generalizing executed with
  | nil => exact fun _ _ => h
  | cons m ms ih =>
    intro hn hup
    obtain ⟨hm, hn⟩ := List.nodup_cons.1 hn
    obtain ⟨hupm, hup⟩ := List.forall_mem_cons.1 hup
    have hnext := ih (alternating_up.2 ⟨hupm, h⟩) hn fun m' hm' => by
      rw [up_up, not_or]
      exact ⟨fun he => hm (he ▸ hm'), hup m' hm'⟩
    simpa using hnext

end Standing

section Tracking

/-- A condition on a step: no file is added whose version is applied, no call of `migrate` ends
between two files of one version, and none of `rollback` gets to a version that several share. -/
def keepsFiles (collation : Collation) (s : State) : Action → Bool
  | .addFile file _ => !isMigrationFile file || versionOf file ∉ s.tables.appliedVersions
  | .migrate target faults =>
    match loadMigrations s.files with
    | .error _ => true
    | .ok ms =>
      let applied := newlyApplied s target faults ms
      faults.reading || applied.all fun m =>
        (toApply s target ms).all fun m' => m'.version ≠ m.version || m' ∈ applied
  | .rollback target faults =>
    match loadMigrations s.files with
    | .error _ => true
    | .ok ms =>
      faults.reading || (newlyUndone collation s target faults ms).all fun version =>
        (ms.filter (·.version = version)).length ≤ 1

/-- The files that are migrated are those whose version is applied. -/
structure Tracked (s : State) : Prop where
  known : ∀ x ∈ s.tables.executed, IsMigration s.files x.migration
  applied : ∀ m, IsMigration s.files m → (Up s.tables.executed m ↔ Active s.tables m.version)
  filed : ∀ v, Active s.tables v → ∃ m, IsMigration s.files m ∧ m.version = v
  alternating : Alternating s.tables.executed

variable {collation : Collation} {s s' : State} {target : Option String} {faults : Faults}
  {ms : List MigrationDefinition} {m m' : MigrationDefinition} {v : String}

theorem tracked_init (h : s.tables = {}) : Tracked s where
  known x hx := by simp [h] at hx
  applied m _ := by
    have hup : ¬ Up s.tables.executed m := fun hu => by simpa [h] using hu.mem
    have hactive : ¬ Active s.tables m.version := by simp [active_iff, h]
    exact iff_of_false hup hactive
  filed v hv := by simp [active_iff, h] at hv
  alternating := by simpa [h] using alternating_nil

/-- Whether a version is within the target. -/
def within (target : Option String) (version : String) : Bool :=
  match target with
  | none => true
  | some target => target = "" || utf16 version ≤ utf16 target

theorem mem_toApply :
    m ∈ toApply s target ms ↔ m ∈ ms ∧ ¬ Active s.tables m.version ∧ within target m.version = true := by
  unfold toApply selected within
  cases target with
  | none => simp [candidates, Active]
  | some target =>
    by_cases h : target = ""
    · simp [candidates, Active, h]
    · simp [candidates, Active, h, and_left_comm, and_comm]

theorem get_byVersion :
    ∀ (ms : List MigrationDefinition) (map : OrdMap String MigrationDefinition),
      (ms.foldl (fun map m => map.set m.version m) map).get v = some m →
      (m ∈ ms ∧ m.version = v) ∨ map.get v = some m
  | [], _, h => .inr h
  | m' :: ms, map, h => by
    rcases get_byVersion ms (map.set m'.version m') h with ⟨hm, hv⟩ | hget
    · exact .inl ⟨List.mem_cons_of_mem _ hm, hv⟩
    · rcases OrdMap.of_get_set hget with ⟨rfl, rfl⟩ | ⟨-, hget⟩
      · exact .inl ⟨List.mem_cons_self, rfl⟩
      · exact .inr hget

theorem mem_of_get_byVersion (h : (byVersion ms).get v = some m) : m ∈ ms ∧ m.version = v :=
  (get_byVersion ms ∅ h).resolve_right nofun

theorem tracked_addFile {file content : String} (hs : Tracked s) (hnew : s.files.has file = false)
    (hversion : isMigrationFile file = true → ¬ Active s.tables (versionOf file)) :
    Tracked { s with files := s.files.set file content } where
  known x hx := (IsMigration.set hnew).2 (.inl (hs.known x hx))
  applied m hm := by
    rcases (IsMigration.set hnew).1 hm with hm | ⟨rfl, hm⟩
    · exact hs.applied m hm
    · have hup : ¬ Up s.tables.executed m := fun hu => by
        have hhas : s.files.has m.file = true := (hs.known _ hu.mem).1
        rw [hnew] at hhas
        cases hhas
      exact iff_of_false hup (hm.version ▸ hversion hm.2.1)
  filed v hv := by
    obtain ⟨m, hm, hmv⟩ := hs.filed v hv
    exact ⟨m, (IsMigration.set hnew).2 (.inl hm), hmv⟩
  alternating := hs.alternating

theorem tracked_migrate {l : List MigrationDefinition} (hs : Tracked s)
    (hms : loadMigrations s.files = .ok ms) (hl : l.Nodup)
    (hpending : ∀ m ∈ l, m ∈ ms ∧ ¬ Active s.tables m.version)
    (hkeeps : ∀ m ∈ l, ∀ m' ∈ ms, m'.version = m.version → m' ∈ l) :
    Tracked { s with tables := l.foldl Tables.applied s.tables } where
  known x hx := by
    simp only [executed_foldl_applied, List.mem_append, List.mem_reverse, List.mem_map] at hx
    rcases hx with ⟨m, hm, rfl⟩ | hx
    · exact (mem_loadMigrations hms).1 (hpending m hm).1
    · exact hs.known x hx
  applied m hm := by
    simp only [executed_foldl_applied, up_ups, active_foldl_applied]
    rw [hs.applied m hm]
    refine or_congr_left ⟨fun h => ⟨m, h, rfl⟩, fun ⟨m', hm', hv⟩ => ?_⟩
    exact hkeeps m' hm' m ((mem_loadMigrations hms).2 hm) hv.symm
  filed v hv := by
    rcases active_foldl_applied.1 hv with ⟨m, hm, hmv⟩ | hv
    · exact ⟨m, (mem_loadMigrations hms).1 (hpending m hm).1, hmv⟩
    · exact hs.filed v hv
  alternating := by
    rw [executed_foldl_applied]
    refine hs.alternating.ups l hl fun m hm hup => ?_
    obtain ⟨hmem, hactive⟩ := hpending m hm
    exact hactive ((hs.applied m ((mem_loadMigrations hms).1 hmem)).1 hup)

theorem tracked_rollback {l : List MigrationDefinition} (hs : Tracked s)
    (hms : loadMigrations s.files = .ok ms) (hl : ∀ m ∈ l, m ∈ ms)
    (honly : ∀ m ∈ l, ∀ m' ∈ ms, m'.version = m.version → m' = m) :
    Tracked { s with tables := l.foldl Tables.undone s.tables } where
  known x hx := by
    simp only [executed_foldl_undone, List.mem_append, List.mem_reverse, List.mem_map] at hx
    rcases hx with ⟨m, hm, rfl⟩ | hx
    · exact (mem_loadMigrations hms).1 (hl m hm)
    · exact hs.known x hx
  applied m hm := by
    simp only [executed_foldl_undone, up_downs, active_foldl_undone]
    rw [hs.applied m hm]
    refine and_congr_left fun _ => ⟨fun h m' hm' hv => ?_, fun h hm' => h m hm' rfl⟩
    exact h (honly m' hm' m ((mem_loadMigrations hms).2 hm) hv.symm ▸ hm')
  filed v hv := hs.filed v (active_foldl_undone.1 hv).2
  alternating := by
    rw [executed_foldl_undone]
    exact hs.alternating.downs l

theorem mem_versionsAfter {t : Tables} {target : String} :
    v ∈ t.versionsAfter collation target ↔ Active t v ∧ collation.lt target v = true := by
  simp [Tables.versionsAfter, Active]

theorem mem_undoneFiles {target : String} (h : m ∈ undoneFiles collation s target faults ms) :
    m ∈ ms ∧ m.version ∈ newlyUndone collation s target faults ms := by
  obtain ⟨v, hv, hget⟩ := List.mem_filterMap.1 h
  obtain ⟨hm, rfl⟩ := mem_of_get_byVersion hget
  exact ⟨hm, hv⟩

theorem eq_of_length_filter (h : (ms.filter (·.version = v)).length ≤ 1) (hm : m ∈ ms)
    (hv : m.version = v) (hm' : m' ∈ ms) (hv' : m'.version = v) : m' = m := by
  have hmem : m ∈ ms.filter (·.version = v) := List.mem_filter.2 ⟨hm, by simpa using hv⟩
  have hmem' : m' ∈ ms.filter (·.version = v) := List.mem_filter.2 ⟨hm', by simpa using hv'⟩
  obtain ⟨x, hx⟩ := List.length_eq_one_iff.1 (Nat.le_antisymm h (List.length_pos_of_mem hmem))
  rw [hx, List.mem_singleton] at hmem hmem'
  exact hmem'.trans hmem.symm

theorem tracked_step {a : Action} (hs : Tracked s) (hk : keepsFiles collation s a = true)
    (h : step collation s a = some s') : Tracked s' := by
  cases a with
  | addFile file content =>
    simp only [step] at h
    split_ifs at h with hnew
    cases h
    refine tracked_addFile hs (Bool.eq_false_of_not_eq_true hnew) fun hf hv => ?_
    simp only [keepsFiles, hf, Bool.not_true, Bool.false_or, decide_eq_true_eq] at hk
    exact hk hv
  | migrate target faults =>
    simp only [step, Option.some.injEq] at h
    subst h
    rcases call_migrate collation s target faults with ⟨e, he⟩ |
      ⟨ms, hread, hms⟩
    · rw [he]
      exact hs
    obtain ⟨r, hcall, -⟩ := call_migrate_of collation s target hread hms
    rw [hcall]
    simp only [keepsFiles, hms, hread, Bool.false_or, List.all_eq_true, Bool.or_eq_true,
      decide_eq_true_eq] at hk
    have hsub : ∀ m ∈ newlyApplied s target faults ms, m ∈ toApply s target ms := fun m hm =>
      done_subset hm
    refine tracked_migrate hs hms ?_ (fun m hm => ?_) fun m hm m' hm' hv => ?_
    · refine nodup_done ?_
      unfold toApply selected candidates
      split
      · exact (nodup_loadMigrations hms).filter _
      · split_ifs
        · exact (nodup_loadMigrations hms).filter _
        · exact ((nodup_loadMigrations hms).filter _).filter _
    · have := mem_toApply.1 (hsub m hm)
      exact ⟨this.1, this.2.1⟩
    · obtain ⟨-, hactive, hwithin⟩ := mem_toApply.1 (hsub m hm)
      have hm' : m' ∈ toApply s target ms := mem_toApply.2 ⟨hm', hv ▸ hactive, hv ▸ hwithin⟩
      exact (hk m hm m' hm').resolve_left fun hne => hne hv
  | rollback target faults =>
    simp only [step, Option.some.injEq] at h
    subst h
    rcases call_rollback collation s target faults with ⟨e, he⟩ |
      ⟨ms, hread, hms⟩
    · rw [he]
      exact hs
    obtain ⟨r, hcall, -⟩ := call_rollback_of collation s target hread hms
    rw [hcall]
    simp only [keepsFiles, hms, hread, Bool.false_or, List.all_eq_true, decide_eq_true_eq] at hk
    refine tracked_rollback hs hms (fun m hm => (mem_undoneFiles hm).1) fun m hm m' hm' hv => ?_
    obtain ⟨hm, hmv⟩ := mem_undoneFiles hm
    exact eq_of_length_filter (hk _ hmv) hm rfl hm' hv

theorem tracked_run {h : List (Taken State Action)} (hr : Run (sys collation) h s)
    (hC : Along (fun s a => keepsFiles collation s a = true) h) : Tracked s :=
  hr.invariant_of (fun _ => tracked_init) (fun _ _ _ hs hk h => tracked_step hs hk h) hC

end Tracking

section PerFile

/-- What a run says about its files: a `migrate` without target that resolves leaves every file
migrated, none is migrated twice over, and a `rollback` that resolves takes back every file after
its target. -/
structure PerFile (collation : Collation) (h : List (Taken State Action)) (s : State) : Prop where
  complete : ∀ t ∈ h, ∀ target faults, t.act = .migrate target faults → target.getD "" = "" →
    (t.act.call collation t.pre).1.isOk = true →
    ∀ m, IsMigration t.post.files m → Up t.post.tables.executed m
  once : Alternating s.tables.executed
  undone : ∀ t ∈ h, ∀ target faults, t.act = .rollback target faults →
    (t.act.call collation t.pre).1.isOk = true →
    ∀ m, IsMigration t.pre.files m → Up t.pre.tables.executed m →
      collation.lt target m.version = true →
      ∃ new, t.post.tables.executed = new ++ t.pre.tables.executed ∧ .down m ∈ new

variable {collation : Collation} {s s' : State} {faults : Faults}

theorem migrate_complete {target : Option String} (hs' : Tracked s')
    (h : step collation s (.migrate target faults) = some s') (htarget : target.getD "" = "")
    (hok : ((Action.migrate target faults).call collation s).1.isOk = true)
    {m : MigrationDefinition} (hm : IsMigration s'.files m) : Up s'.tables.executed m := by
  refine (hs'.applied m hm).2 ?_
  simp only [step, Option.some.injEq] at h
  subst h
  rcases call_migrate collation s target faults with ⟨e, he⟩ |
    ⟨ms, hread, hms⟩
  · rw [he] at hok
    cases hok
  obtain ⟨r, hcall, hdone⟩ := call_migrate_of collation s target hread hms
  rw [hcall] at hok ⊢
  have hall : newlyApplied s target faults ms = toApply s target ms := done_eq_self (hdone.1 hok)
  have hwithin : within target m.version = true := by
    unfold within
    cases target with
    | none => rfl
    | some target => simp [show target = "" from htarget]
  simp only [hall, active_foldl_applied]
  by_cases hactive : Active s.tables m.version
  · exact .inr hactive
  · exact .inl ⟨m, mem_toApply.2 ⟨(mem_loadMigrations hms).2 hm, hactive, hwithin⟩, rfl⟩

theorem rollback_undoes {target : String} (hs : Tracked s)
    (hk : keepsFiles collation s (.rollback target faults) = true)
    (h : step collation s (.rollback target faults) = some s')
    (hok : ((Action.rollback target faults).call collation s).1.isOk = true)
    {m : MigrationDefinition} (hm : IsMigration s.files m) (hup : Up s.tables.executed m)
    (hlt : collation.lt target m.version = true) :
    ∃ new, s'.tables.executed = new ++ s.tables.executed ∧ .down m ∈ new := by
  simp only [step, Option.some.injEq] at h
  subst h
  rcases call_rollback collation s target faults with ⟨e, he⟩ |
    ⟨ms, hread, hms⟩
  · rw [he] at hok
    cases hok
  obtain ⟨r, hcall, hdone⟩ := call_rollback_of collation s target hread hms
  rw [hcall] at hok ⊢
  have hfault := hdone.1 hok
  have hall : newlyUndone collation s target faults ms = s.tables.versionsAfter collation target :=
    done_eq_self hfault
  refine ⟨_, executed_foldl_undone _ _, ?_⟩
  have hmem : m.version ∈ s.tables.versionsAfter collation target :=
    mem_versionsAfter.2 ⟨(hs.applied m hm).1 hup, hlt⟩
  have hm := (mem_loadMigrations hms).2 hm
  obtain ⟨m', hget⟩ : ∃ m', (byVersion ms).get m.version = some m' := by
    have hv := hfault _ hmem
    unfold versionFault at hv
    split at hv
    · cases hv
    · exact ⟨_, ‹_›⟩
  obtain ⟨hm', hv'⟩ := mem_of_get_byVersion hget
  simp only [keepsFiles, hms, hread, Bool.false_or, List.all_eq_true, decide_eq_true_eq] at hk
  obtain rfl : m' = m := eq_of_length_filter (hk _ (hall ▸ hmem)) hm rfl hm' hv'
  rw [List.mem_reverse, List.mem_map]
  exact ⟨m', List.mem_filterMap.2 ⟨_, hall ▸ hmem, hget⟩, rfl⟩

/-- Migrations are tracked per file along the runs that keep the files of a version together. -/
theorem migrations_tracked_per_file {h : List (Taken State Action)}
    (hr : Run (sys collation) h s)
    (hC : Along (fun s a => keepsFiles collation s a = true) h) : PerFile collation h s := by
  have hpre : ∀ t ∈ h, Tracked t.pre ∧ keepsFiles collation t.pre t.act = true
      ∧ step collation t.pre t.act = some t.post := by
    intro t ht
    obtain ⟨e, hre, hCe, hCt, hstep⟩ := hr.taken_along hC ht
    exact ⟨tracked_run hre hCe, hCt, hstep⟩
  refine ⟨fun t ht target faults ha htarget hok m hm => ?_, (tracked_run hr hC).alternating,
    fun t ht target faults ha hok m hm hup hlt => ?_⟩
  · obtain ⟨hs, hk, hstep⟩ := hpre t ht
    have hs' := tracked_step hs hk hstep
    rw [ha] at hstep hok
    exact migrate_complete hs' hstep htarget hok hm
  · obtain ⟨hs, hk, hstep⟩ := hpre t ht
    rw [ha] at hstep hok hk
    exact rollback_undoes hs hk hstep hok hm hup hlt

/-- A database that compares texts as its strings are compared here. -/
def codePoints : Collation where
  lt a b := a < b
  irrefl a := by simp
  trans a b c h h' := by
    simp only [decide_eq_true_eq] at h h' ⊢
    exact String.lt_trans h h'
  total a b h := by
    simp only [decide_eq_true_eq]
    grind

/-- Two files of one version. -/
def sharing : Directory := ((∅ : Directory).set "011_a.sql" "A").set "011_b.sql" "B"

/-- The work on one migration fails in its section. -/
def failing (name : String) : Faults where
  during name' := if name' = name then some .body else none

theorem migrations_tracked_per_file_sharing : ∃ h s, Run (sys codePoints) h s
    ∧ s.tables.executed.length = 4 ∧ PerFile codePoints h s := by
  obtain ⟨h, s, hr, ht⟩ := Sys.exists_run (S := sys codePoints) (s := ⟨sharing, {}⟩) rfl
    [.addFile "012_c.sql" "-- @up\nC\n-- @down\nD\n", .migrate none (failing "012_c"),
      .migrate none {}, .rollback "011" {}]
    (p := fun x => decide (x.2.tables.executed.length = 4
      ∧ ∀ t ∈ x.1, keepsFiles codePoints t.pre t.act = true)) (by decide +kernel)
  obtain ⟨hlen, hC⟩ := of_decide_eq_true ht
  exact ⟨h, s, hr, hlen, migrations_tracked_per_file hr hC⟩

instance (executed : List Section) (m : MigrationDefinition) : Decidable (Up executed m) :=
  inferInstanceAs (Decidable (_ = _))

/-- When the second file of a version fails, the next call takes it for applied. -/
theorem second_file_left_out : ∃ h s, Run (sys codePoints) h s ∧
    ∃ t ∈ h, ∃ faults, t.act = .migrate none faults ∧ (t.act.call codePoints t.pre).1.isOk = true
      ∧ ∃ m, IsMigration t.post.files m ∧ ¬ Up t.post.tables.executed m := by
  obtain ⟨h, s, hr, ht⟩ := Sys.exists_run (S := sys codePoints) (s := ⟨sharing, {}⟩) rfl
    [.migrate none (failing "011_b")]
    (p := fun x =>
      let r := (Action.migrate none {}).call codePoints x.2
      r.1.isOk && (loadMigrations x.2.files).toOption.any fun ms =>
        ms.any fun m => decide (IsMigration x.2.files m ∧ ¬ Up r.2.executed m))
    (by decide +kernel)
  obtain ⟨hok, hout⟩ := Bool.and_eq_true_iff.1 ht
  obtain ⟨ms, -, hout⟩ := (Option.any_eq_true _ _).1 hout
  obtain ⟨m, -, hout⟩ := List.any_eq_true.1 hout
  obtain ⟨hm, hup⟩ := of_decide_eq_true hout
  have hnext : (sys codePoints).step s (.migrate none {})
      = some { s with tables := ((Action.migrate none {}).call codePoints s).2 } := rfl
  exact ⟨_, _, hr.next hnext, _, List.mem_cons_self, {}, rfl, hok, m, hm, hup⟩

end PerFile

end Database

end VeriNode
