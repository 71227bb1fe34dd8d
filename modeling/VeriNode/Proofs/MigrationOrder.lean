import VeriNode.Proofs.Migrations

/-!
# The order of migrations

Files are loaded in the order of their names, compared with a target as texts, and rolled back in
the order of the database's texts. Over files of distinct numbers and calls in which nothing fails,
migrations are applied in the order of their numbers, and rolled back in the opposite one, exactly
while the three agree with the numbers on the files that a call deals with.
-/

namespace VeriNode

namespace Database

open JsString

section Numbers

/-- The number a text of digits stands for. -/
def number (version : String) : ℕ := Nat.ofDigitChars 10 version.toList 0

def MigrationDefinition.number (m : MigrationDefinition) : ℕ := Database.number m.version

/-- A target: a text of digits. -/
structure Version where
  text : String
  nonempty : text ≠ ""
  digits : text.toList.all Char.isDigit = true

def Version.number (v : Version) : ℕ := Database.number v.text

/-- A call in which nothing fails. -/
inductive Call
  | migrate (target : Option Version)
  | rollback (target : Version)

def Call.action : Call → Action
  | migrate target => .migrate (target.map Version.text) {}
  | rollback target => .rollback target.text {}

/-- Calls one after another, over a directory that stays as it is. -/
def calls (collation : Collation) (files : Directory) : Sys Tables Call where
  init t := t = {}
  step t c := some (c.action.call collation ⟨files, t⟩).2

end Numbers

section Standing

/-- The migrations whose up section is the last executed, the one executed last first. -/
def standing : List Section → List MigrationDefinition
  | [] => []
  | .up m :: executed => m :: (standing executed).filter (· ≠ m)
  | .down m :: executed => (standing executed).filter (· ≠ m)

variable {m : MigrationDefinition} {ms : List MigrationDefinition}

theorem mem_standing : ∀ {executed : List Section}, m ∈ standing executed ↔ Up executed m
  | [] => by simp [standing, Up]
  | .up m' :: executed => by
    simp only [standing, List.mem_cons, List.mem_filter, decide_eq_true_eq, up_up, mem_standing]
    grind
  | .down m' :: executed => by
    simp only [standing, List.mem_filter, decide_eq_true_eq, up_down, mem_standing]
    grind

theorem nodup_standing : ∀ executed : List Section, (standing executed).Nodup
  | [] => List.nodup_nil
  | .up m :: executed => List.nodup_cons.2 ⟨by simp, (nodup_standing executed).filter _⟩
  | .down m :: executed => (nodup_standing executed).filter _

theorem standing_downs : ∀ (ms : List MigrationDefinition) (executed : List Section),
    standing ((ms.map Section.down).reverse ++ executed) = (standing executed).filter (· ∉ ms)
  | [], executed => by simp
  | m :: ms, executed => by
    rw [List.map_cons, List.reverse_cons, List.append_assoc, List.singleton_append,
      standing_downs ms, standing, List.filter_filter]
    refine List.filter_congr fun x _ => ?_
    simp [Bool.and_comm]

theorem standing_ups : ∀ (ms : List MigrationDefinition) (executed : List Section),
    ms.Nodup → (∀ m ∈ ms, ¬ Up executed m) →
    standing ((ms.map Section.up).reverse ++ executed) = ms.reverse ++ standing executed
  | [], _, _, _ => rfl
  | m :: ms, executed, hn, hup => by
    obtain ⟨hm, hn⟩ := List.nodup_cons.1 hn
    obtain ⟨hupm, hup⟩ := List.forall_mem_cons.1 hup
    have hrest : ∀ m' ∈ ms, ¬ Up (.up m :: executed) m' := fun m' hm' => by
      rw [up_up, not_or]
      exact ⟨fun he => hm (he ▸ hm'), hup m' hm'⟩
    have hfilter : (standing executed).filter (· ≠ m) = standing executed :=
      List.filter_eq_self.2 fun x hx => by
        simp only [decide_eq_true_eq]
        rintro rfl
        exact hupm (mem_standing.1 hx)
    rw [List.map_cons, List.reverse_cons, List.append_assoc, List.singleton_append,
      standing_ups ms _ hn hrest, standing, hfilter, List.reverse_cons, List.append_assoc,
      List.singleton_append]

end Standing

section Order

variable {α : Type*} {R S : α → α → Prop} {l : List α}

theorem pairwise_iff (hS : ∀ a b, S a b → ¬ S b a) (hR : ∀ a b, R a b → ¬ R b a) (hl : l.Pairwise S)
    (htotal : ∀ a ∈ l, ∀ b ∈ l, a ≠ b → R a b ∨ R b a) :
    l.Pairwise R ↔ ∀ a ∈ l, ∀ b ∈ l, R a b → S a b := by
  induction l with
  | nil => simp
  | cons x l ih =>
    obtain ⟨hx, hl⟩ := List.pairwise_cons.1 hl
    have ih := ih hl fun a ha b hb => htotal a (List.mem_cons_of_mem _ ha) b (List.mem_cons_of_mem _ hb)
    rw [List.pairwise_cons]
    constructor
    · rintro ⟨hRx, hp⟩ a (_ | ⟨_, ha⟩) b (_ | ⟨_, hb⟩) hab
      · exact absurd hab (hR _ _ hab)
      · exact hx b hb
      · exact absurd (hRx a ha) (hR _ _ hab)
      · exact ih.1 hp a ha b hb hab
    · intro h
      refine ⟨fun b hb => ?_, ih.2 fun a ha b hb =>
        h a (List.mem_cons_of_mem _ ha) b (List.mem_cons_of_mem _ hb)⟩
      have hne : x ≠ b := fun he => hS _ _ (hx b hb) (he ▸ hx b hb)
      refine (htotal x List.mem_cons_self b (List.mem_cons_of_mem _ hb) hne).resolve_right fun hbx => ?_
      exact hS _ _ (hx b hb) (h b (List.mem_cons_of_mem _ hb) x List.mem_cons_self hbx)

end Order

section Loaded

variable {files : Directory} {ms : List MigrationDefinition} {m m' : MigrationDefinition}

/-- The file's name comes first. -/
def MigrationDefinition.before (m m' : MigrationDefinition) : Bool := utf16 m.file < utf16 m'.file

theorem before_asymm (h : m.before m' = true) : ¬ m'.before m = true := by
  simp only [MigrationDefinition.before, decide_eq_true_eq] at h ⊢
  exact not_lt.2 (le_of_lt h)

theorem pairwise_before (h : loadMigrations files = .ok ms) :
    ms.Pairwise fun m m' => m.before m' = true := by
  have hsorted : (ms.map MigrationDefinition.file).Pairwise fun a b => utf16 a ≤ utf16 b := by
    rw [(loadMigrations_eq h).1]
    exact pairwise_sort _
  have hnodup : ms.Nodup := nodup_loadMigrations h
  refine (List.pairwise_map.1 hsorted).and hnodup |>.imp_of_mem ?_
  rintro m m' hm hm' ⟨hle, hne⟩
  simp only [MigrationDefinition.before, decide_eq_true_eq]
  by_contra hlt
  have hfile : m.file = m'.file := eq_of_utf16_le hle (not_lt.1 hlt)
  exact hne (((loadMigrations_eq h).2 m hm).eq_of_file ((loadMigrations_eq h).2 m' hm') hfile)

theorem get_byVersion_of_mem (hn : (ms.map MigrationDefinition.number).Nodup) (hm : m ∈ ms) :
    (byVersion ms).get m.version = some m := by
  have hsome : ∀ (ms : List MigrationDefinition) (map : OrdMap String MigrationDefinition),
      (m ∈ ms ∨ map.has m.version = true) →
      (ms.foldl (fun map m => map.set m.version m) map).has m.version = true := by
    intro ms
    induction ms with
    | nil => exact fun map h => h.resolve_left List.not_mem_nil
    | cons m' ms ih =>
      intro map h
      refine ih _ ?_
      by_cases hv : m.version = m'.version
      · exact .inr (by simp [OrdMap.has, hv])
      · rcases h with h | h
        · rcases List.mem_cons.1 h with rfl | h
          · exact absurd rfl hv
          · exact .inl h
        · exact .inr (by rwa [OrdMap.has, OrdMap.get_set_of_ne _ _ hv])
  obtain ⟨m', hget⟩ := OrdMap.has_iff.1 (hsome ms ∅ (.inl hm))
  obtain ⟨hm', hv⟩ := mem_of_get_byVersion hget
  have heq : m' = m := List.inj_on_of_nodup_map hn hm' hm
    (by rw [MigrationDefinition.number, MigrationDefinition.number, hv])
  rw [byVersion, hget, heq]

end Loaded

section Calls

/-- A migration's number is at most the target's. -/
def MigrationDefinition.upTo (m : MigrationDefinition) : Option Version → Bool
  | none => true
  | some target => m.number ≤ target.number

/-- A migration's number is greater than the target's. -/
def MigrationDefinition.after (m : MigrationDefinition) (target : Version) : Bool :=
  target.number < m.number

/-- What a call is to do: `migrate` executes the up sections of the pending migrations up to its
target, in the order of their numbers, and `rollback` the down sections of the applied ones after
its target, the one applied last first. -/
def InOrder (collation : Collation) (files : Directory) (ms : List MigrationDefinition) (t : Tables) :
    Call → Tables → Prop
  | .migrate target, t' =>
    ((Call.migrate target).action.call collation ⟨files, t⟩).1.isOk = true
      ∧ ∃ todo : List MigrationDefinition, t'.executed = (todo.map Section.up).reverse ++ t.executed
        ∧ (∀ m, m ∈ todo ↔ m ∈ ms ∧ ¬ Up t.executed m ∧ m.upTo target = true)
        ∧ todo.Pairwise fun m m' => m.number < m'.number
  | .rollback target, t' =>
    ((Call.rollback target).action.call collation ⟨files, t⟩).1.isOk = true
      ∧ t'.executed = (((standing t.executed).filter (·.after target)).map Section.down).reverse
        ++ t.executed

/-- The texts agree with the numbers on the migrations that a call deals with: those it may apply or
roll back, and of these those that are up to its target, or after it. -/
def agrees (collation : Collation) (ms : List MigrationDefinition) (t : Tables) : Call → Bool
  | .migrate target =>
    let pending := candidates t.appliedVersions ms
    let todo := pending.filter (·.upTo target)
    (pending.all fun m => within (target.map Version.text) m.version = m.upTo target)
      && todo.all fun m => todo.all fun m' => m'.number ≤ m.number || m.before m'
  | .rollback target =>
    let applied := ms.filter fun m => m.version ∈ t.appliedVersions
    let todo := applied.filter (·.after target)
    (applied.all fun m => collation.lt target.text m.version = m.after target)
      && todo.all fun m => todo.all fun m' => m'.number ≤ m.number || collation.lt m.version m'.version

/-- The migrations that stand were applied in the order of their numbers, and none before them is
left. -/
structure Stacked (ms : List MigrationDefinition) (t : Tables) : Prop where
  sorted : (standing t.executed).Pairwise fun m m' => m'.number < m.number
  closed : ∀ m ∈ ms, ∀ m', Up t.executed m' → m.number < m'.number → Up t.executed m

variable {collation : Collation} {files : Directory} {ms : List MigrationDefinition} {t t' : Tables}
  {m m' : MigrationDefinition} {c : Call}

theorem eq_of_number (hn : (ms.map MigrationDefinition.number).Nodup) (hm : m ∈ ms) (hm' : m' ∈ ms)
    (h : m.number = m'.number) : m = m' :=
  List.inj_on_of_nodup_map hn hm hm' h

theorem lt_or_lt_of_ne (hn : (ms.map MigrationDefinition.number).Nodup) (hm : m ∈ ms)
    (hm' : m' ∈ ms) (h : m ≠ m') : m.number < m'.number ∨ m'.number < m.number :=
  lt_or_gt_of_ne fun he => h (eq_of_number hn hm hm' he)

theorem number_of_version (h : m.version = m'.version) : m.number = m'.number := by
  rw [MigrationDefinition.number, MigrationDefinition.number, h]

theorem call_migrate_calls (collation : Collation) (t : Tables)
    (hms : loadMigrations files = .ok ms) (target : Option Version) :
    ((Call.migrate target).action.call collation ⟨files, t⟩).1.isOk = true
    ∧ ((Call.migrate target).action.call collation ⟨files, t⟩).2
      = (toApply ⟨files, t⟩ (target.map Version.text) ms).foldl Tables.applied t := by
  obtain ⟨r, hcall, hok⟩ := call_migrate_of collation ⟨files, t⟩ (target.map Version.text)
    (show (({} : Faults).reading) = false from rfl) hms
  rw [Call.action, hcall]
  exact ⟨hok.2 fun _ _ => rfl, congrArg (List.foldl _ t) (done_eq_self fun _ _ => rfl)⟩

/-- What a call of `rollback` takes back, and in which order. -/
def toUndo (collation : Collation) (ms : List MigrationDefinition) (t : Tables) (target : Version) :
    List MigrationDefinition :=
  (t.versionsAfter collation target.text).filterMap (byVersion ms).get

theorem get_byVersion_active (hn : (ms.map MigrationDefinition.number).Nodup)
    (hms : loadMigrations files = .ok ms) (ht : Tracked ⟨files, t⟩) {v : String} (hv : Active t v) :
    ∃ m ∈ ms, m.version = v ∧ (byVersion ms).get v = some m := by
  obtain ⟨m, hm, rfl⟩ := ht.filed v hv
  have hm := (mem_loadMigrations hms).2 hm
  exact ⟨m, hm, rfl, get_byVersion_of_mem hn hm⟩

theorem call_rollback_calls (collation : Collation) (hn : (ms.map MigrationDefinition.number).Nodup)
    (hms : loadMigrations files = .ok ms) (ht : Tracked ⟨files, t⟩) (target : Version) :
    ((Call.rollback target).action.call collation ⟨files, t⟩).1.isOk = true
    ∧ ((Call.rollback target).action.call collation ⟨files, t⟩).2
      = (toUndo collation ms t target).foldl Tables.undone t := by
  obtain ⟨r, hcall, hok⟩ := call_rollback_of collation ⟨files, t⟩ target.text
    (show (({} : Faults).reading) = false from rfl) hms
  have hfault : ∀ v ∈ t.versionsAfter collation target.text,
      versionFault (byVersion ms) {} v = none := fun v hv => by
    obtain ⟨m, -, -, hget⟩ :=
      get_byVersion_active hn hms ht (mem_versionsAfter.1 hv).1
    rw [versionFault, hget]
  rw [Call.action, hcall]
  refine ⟨hok.2 hfault, ?_⟩
  have hall : newlyUndone collation ⟨files, t⟩ target.text {} ms
      = t.versionsAfter collation target.text := done_eq_self hfault
  rw [undoneFiles, hall]
  rfl

theorem toApply_eq (target : Option Version) : toApply ⟨files, t⟩ (target.map Version.text) ms
    = (candidates t.appliedVersions ms).filter fun m => within (target.map Version.text) m.version := by
  unfold toApply selected within
  cases target with
  | none => simp
  | some target => simp [target.nonempty]

theorem mem_candidates : m ∈ candidates t.appliedVersions ms ↔ m ∈ ms ∧ ¬ Active t m.version := by
  simp [candidates, Active]

theorem map_version_toUndo (hn : (ms.map MigrationDefinition.number).Nodup)
    (hms : loadMigrations files = .ok ms) (ht : Tracked ⟨files, t⟩) (target : Version) :
    (toUndo collation ms t target).map MigrationDefinition.version
      = t.versionsAfter collation target.text := by
  have hmap : ∀ l : List String, (∀ v ∈ l, Active t v) →
      (l.filterMap (byVersion ms).get).map MigrationDefinition.version = l := by
    intro l
    induction l with
    | nil => exact fun _ => rfl
    | cons v l ih =>
      intro hl
      obtain ⟨hv, hl⟩ := List.forall_mem_cons.1 hl
      obtain ⟨m, -, hmv, hget⟩ := get_byVersion_active hn hms ht hv
      rw [List.filterMap_cons_some hget, List.map_cons, ih hl, hmv]
  exact hmap _ fun v hv => (mem_versionsAfter.1 hv).1

theorem mem_toUndo (hn : (ms.map MigrationDefinition.number).Nodup)
    (hms : loadMigrations files = .ok ms) (ht : Tracked ⟨files, t⟩) {target : Version} :
    m ∈ toUndo collation ms t target ↔
      m ∈ ms ∧ Up t.executed m ∧ collation.lt target.text m.version = true := by
  constructor
  · intro hm
    obtain ⟨v, hv, hget⟩ := List.mem_filterMap.1 hm
    obtain ⟨hmem, rfl⟩ := mem_of_get_byVersion hget
    obtain ⟨hactive, hlt⟩ := mem_versionsAfter.1 hv
    exact ⟨hmem, (ht.applied m ((mem_loadMigrations hms).1 hmem)).2 hactive, hlt⟩
  · rintro ⟨hmem, hup, hlt⟩
    have hactive := (ht.applied m ((mem_loadMigrations hms).1 hmem)).1 hup
    exact List.mem_filterMap.2
      ⟨m.version, mem_versionsAfter.2 ⟨hactive, hlt⟩, get_byVersion_of_mem hn hmem⟩

theorem pairwise_toUndo (hn : (ms.map MigrationDefinition.number).Nodup)
    (hms : loadMigrations files = .ok ms) (ht : Tracked ⟨files, t⟩) (target : Version) :
    (toUndo collation ms t target).Pairwise fun m m' => collation.lt m'.version m.version = true := by
  have htrans : ∀ a b c, collation.lt a b = false → collation.lt b c = false →
      collation.lt a c = false := by
    intro a b c hab hbc
    by_contra hac
    by_cases he : a = b
    · exact hac (he ▸ hbc)
    · have hba := (collation.total a b he).resolve_left (by simp [hab])
      have := collation.trans b a c hba (Bool.eq_true_of_not_eq_false hac)
      exact Bool.false_ne_true (hbc.symm.trans this)
  have htotal : ∀ a b, collation.lt a b = false ∨ collation.lt b a = false := by
    intro a b
    by_contra h
    rw [not_or, Bool.not_eq_false, Bool.not_eq_false] at h
    exact Bool.false_ne_true ((collation.irrefl a).symm.trans (collation.trans a b a h.1 h.2))
  have hsorted : (t.versionsAfter collation target.text).Pairwise
      fun a b => collation.lt a b = false := by
    have : Std.Total fun a b => collation.lt a b = false := ⟨htotal⟩
    have : IsTrans String fun a b => collation.lt a b = false := ⟨htrans⟩
    exact List.pairwise_insertionSort _ _
  have hnodup : (t.versionsAfter collation target.text).Nodup := by
    refine (List.perm_insertionSort _ _).nodup_iff.2 (List.Nodup.filter _ ?_)
    exact t.schemaMigrations.nodup.sublist (List.Sublist.map _ List.filter_sublist)
  rw [← List.pairwise_map (f := MigrationDefinition.version)
    (R := fun v v' => collation.lt v' v = true), map_version_toUndo hn hms ht]
  refine (hsorted.and hnodup).imp fun ⟨hle, hne⟩ => ?_
  exact (collation.total _ _ hne).resolve_left (by simp [hle])

theorem collation_asymm {a b : String} (h : collation.lt a b = true) : ¬ collation.lt b a = true :=
  fun h' => Bool.false_ne_true ((collation.irrefl a).symm.trans (collation.trans a b a h h'))

/-- Of the migrations to apply, in the order of their files. -/
theorem migrate_inOrder_iff (hn : (ms.map MigrationDefinition.number).Nodup)
    (hms : loadMigrations files = .ok ms) (ht : Tracked ⟨files, t⟩) (target : Option Version)
    (h : (calls collation files).step t (.migrate target) = some t') :
    InOrder collation files ms t (.migrate target) t'
      ↔ agrees collation ms t (.migrate target) = true := by
  obtain ⟨hok, hcall⟩ := call_migrate_calls collation t hms target
  obtain rfl : _ = t' := Option.some.inj h
  rw [toApply_eq] at hcall
  generalize hpending : candidates t.appliedVersions ms = pending at hcall
  have hmem : ∀ m, m ∈ pending ↔ m ∈ ms ∧ ¬ Up t.executed m := fun m => by
    rw [← hpending, mem_candidates]
    refine and_congr_right fun hm => not_congr (ht.applied m ((mem_loadMigrations hms).1 hm)).symm
  have hsub : pending.Sublist ms := hpending ▸ List.filter_sublist
  have hnumber : pending.filter (·.upTo target) = pending.filter (within (target.map Version.text) ·.version) →
      ((pending.filter (within (target.map Version.text) ·.version)).Pairwise
        (fun m m' => m.number < m'.number)
      ↔ ((pending.filter (·.upTo target)).all fun m => (pending.filter (·.upTo target)).all
        fun m' => decide (m'.number ≤ m.number) || m.before m') = true) := by
    intro heq
    have hfiles := (pairwise_before hms).sublist
      ((List.filter_sublist (p := (·.upTo target))).trans hsub)
    rw [← heq, pairwise_iff (fun _ _ => before_asymm) (fun _ _ => Nat.lt_asymm) hfiles
      fun a ha b hb => lt_or_lt_of_ne hn (hsub.subset (List.mem_filter.1 ha).1)
        (hsub.subset (List.mem_filter.1 hb).1)]
    simp only [List.all_eq_true, Bool.or_eq_true, decide_eq_true_eq, ← not_lt, or_iff_not_imp_left,
      not_not]
  have hagrees : agrees collation ms t (.migrate target) = true
      ↔ (∀ m ∈ pending, within (target.map Version.text) m.version = m.upTo target)
        ∧ ((pending.filter (·.upTo target)).all fun m => (pending.filter (·.upTo target)).all
          fun m' => decide (m'.number ≤ m.number) || m.before m') = true := by
    simp only [agrees, hpending, Bool.and_eq_true, List.all_eq_true, decide_eq_true_eq]
  rw [hagrees]
  constructor
  · rintro ⟨-, todo, hexecuted, hiff, hsorted⟩
    rw [hcall, executed_foldl_applied, List.append_left_inj, List.reverse_inj] at hexecuted
    obtain rfl := List.map_injective_iff.2 (fun _ _ he => Section.up.inj he) hexecuted
    have hsame : ∀ m ∈ pending, within (target.map Version.text) m.version = m.upTo target := by
      intro m hm
      have hm' := hiff m
      rw [List.mem_filter, hmem] at hm'
      have hup := (hmem m).1 hm
      rw [Bool.eq_iff_iff]
      exact ⟨fun hw => (hm'.1 ⟨hup, hw⟩).2.2, fun hu => (hm'.2 ⟨hup.1, hup.2, hu⟩).2⟩
    exact ⟨hsame, (hnumber (List.filter_congr fun m hm => (hsame m hm).symm)).1 hsorted⟩
  · rintro ⟨hsame, hall⟩
    refine ⟨hok, _, by rw [hcall, executed_foldl_applied], fun m => ?_,
      (hnumber (List.filter_congr fun m hm => (hsame m hm).symm)).2 hall⟩
    rw [List.mem_filter, hmem, and_assoc]
    refine and_congr_right fun hm => and_congr_right fun hup => ?_
    rw [hsame m ((hmem m).2 ⟨hm, hup⟩)]

/-- Of the migrations to roll back, in the order of the database. -/
theorem rollback_inOrder_iff (hn : (ms.map MigrationDefinition.number).Nodup)
    (hms : loadMigrations files = .ok ms) (ht : Tracked ⟨files, t⟩) (hst : Stacked ms t)
    (target : Version) (h : (calls collation files).step t (.rollback target) = some t') :
    InOrder collation files ms t (.rollback target) t'
      ↔ agrees collation ms t (.rollback target) = true := by
  obtain ⟨hok, hcall⟩ := call_rollback_calls collation hn hms ht target
  obtain rfl : _ = t' := Option.some.inj h
  generalize happlied : ms.filter (fun m => decide (m.version ∈ t.appliedVersions)) = applied
  have hmem : ∀ m, m ∈ applied ↔ m ∈ ms ∧ Up t.executed m := fun m => by
    rw [← happlied, List.mem_filter, decide_eq_true_eq]
    exact and_congr_right fun hm => (ht.applied m ((mem_loadMigrations hms).1 hm)).symm
  have hstanding : ∀ m, m ∈ (standing t.executed).filter (·.after target)
      ↔ m ∈ ms ∧ Up t.executed m ∧ m.after target = true := fun m => by
    rw [List.mem_filter, mem_standing]
    refine ⟨fun ⟨hup, hafter⟩ => ⟨(mem_loadMigrations hms).2 (ht.known _ hup.mem), hup, hafter⟩,
      fun h => h.2⟩
  have hdecreasing := hst.sorted.sublist (List.filter_sublist (p := (·.after target)))
  have horder : (toUndo collation ms t target).Pairwise (fun m m' => m'.number < m.number)
      ↔ ∀ a ∈ toUndo collation ms t target, ∀ b ∈ toUndo collation ms t target,
        b.number < a.number → collation.lt b.version a.version = true :=
    pairwise_iff (fun _ _ => collation_asymm) (fun _ _ => Nat.lt_asymm)
      (pairwise_toUndo hn hms ht target) fun a ha b hb hne =>
        (lt_or_lt_of_ne hn ((mem_toUndo hn hms ht).1 ha).1 ((mem_toUndo hn hms ht).1 hb).1 hne).symm
  have hagrees : agrees collation ms t (.rollback target) = true
      ↔ (∀ m ∈ applied, collation.lt target.text m.version = m.after target)
        ∧ ∀ m ∈ applied.filter (·.after target), ∀ m' ∈ applied.filter (·.after target),
          m.number < m'.number → collation.lt m.version m'.version = true := by
    simp only [agrees, happlied, Bool.and_eq_true, List.all_eq_true, decide_eq_true_eq,
      Bool.or_eq_true, ← not_lt, or_iff_not_imp_left, not_not]
  have hsame : (∀ m ∈ applied, collation.lt target.text m.version = m.after target)
      ↔ ∀ m, m ∈ toUndo collation ms t target ↔ m ∈ (standing t.executed).filter (·.after target) := by
    simp only [mem_toUndo hn hms ht, hstanding, hmem]
    refine ⟨fun h m => and_congr_right fun hm => and_congr_right fun hup => by rw [h m ⟨hm, hup⟩],
      fun h m hm => Bool.eq_iff_iff.2 ⟨fun hlt => ((h m).1 ⟨hm.1, hm.2, hlt⟩).2.2,
        fun hafter => ((h m).2 ⟨hm.1, hm.2, hafter⟩).2.2⟩⟩
  have htodo : ∀ m, m ∈ applied.filter (·.after target)
      ↔ m ∈ (standing t.executed).filter (·.after target) := fun m => by
    rw [List.mem_filter, hmem, hstanding, and_assoc]
  rw [hagrees]
  constructor
  · rintro ⟨-, hexecuted⟩
    rw [hcall, executed_foldl_undone, List.append_left_inj, List.reverse_inj] at hexecuted
    have heq := List.map_injective_iff.2 (fun _ _ he => Section.down.inj he) hexecuted
    have hmem' : ∀ m, m ∈ toUndo collation ms t target
        ↔ m ∈ (standing t.executed).filter (·.after target) := fun m => by rw [heq]
    refine ⟨hsame.2 hmem', fun m hm m' hm' hlt => ?_⟩
    exact horder.1 (heq ▸ hdecreasing) m' ((hmem' m').2 ((htodo m').1 hm')) m
      ((hmem' m).2 ((htodo m).1 hm)) hlt
  · rintro ⟨hlt, hall⟩
    have hmem' := hsame.1 hlt
    have hsorted : (toUndo collation ms t target).Pairwise fun m m' => m'.number < m.number :=
      horder.2 fun a ha b hb hba => hall b ((htodo b).2 ((hmem' b).1 hb)) a
        ((htodo a).2 ((hmem' a).1 ha)) hba
    have hnodup : (toUndo collation ms t target).Nodup := by
      refine hsorted.imp fun {a b} hlt => ?_
      rintro rfl
      exact Nat.lt_irrefl _ hlt
    have hperm := (List.perm_ext_iff_of_nodup hnodup ((nodup_standing _).filter _)).2 hmem'
    refine ⟨hok, ?_⟩
    rw [hcall, executed_foldl_undone, hperm.eq_of_pairwise
      (fun a b _ _ hab hba => absurd hab (Nat.lt_asymm hba)) hsorted hdecreasing]

theorem inOrder_iff (hn : (ms.map MigrationDefinition.number).Nodup)
    (hms : loadMigrations files = .ok ms) (ht : Tracked ⟨files, t⟩) (hst : Stacked ms t)
    (h : (calls collation files).step t c = some t') :
    InOrder collation files ms t c t' ↔ agrees collation ms t c = true := by
  cases c with
  | migrate target => exact migrate_inOrder_iff hn hms ht target h
  | rollback target => exact rollback_inOrder_iff hn hms ht hst target h

end Calls

section Runs

variable {collation : Collation} {files : Directory} {ms : List MigrationDefinition} {t t' : Tables}
  {m : MigrationDefinition} {c : Call} {h : List (Taken Tables Call)}

theorem tracked_calls (hn : (ms.map MigrationDefinition.number).Nodup)
    (hms : loadMigrations files = .ok ms) (hr : Run (calls collation files) h t) :
    Tracked ⟨files, t⟩ := by
  refine hr.invariant (P := fun t => Tracked ⟨files, t⟩) (fun _ hi => tracked_init hi)
    fun t c t' ht h => ?_
  have honly : ∀ m ∈ ms, ∀ m' ∈ ms, m'.version = m.version → m' = m := fun m hm m' hm' hv =>
    eq_of_number hn hm' hm (number_of_version hv)
  obtain rfl : _ = t' := Option.some.inj h
  cases c with
  | migrate target =>
    rw [(call_migrate_calls collation t hms target).2]
    have hmem : ∀ m ∈ toApply ⟨files, t⟩ (target.map Version.text) ms,
        m ∈ ms ∧ ¬ Active t m.version := fun m hm =>
      ⟨(mem_toApply.1 hm).1, (mem_toApply.1 hm).2.1⟩
    refine tracked_migrate ht hms ?_ hmem fun m hm m' hm' hv => ?_
    · rw [toApply_eq]
      exact ((nodup_loadMigrations hms).filter _).filter _
    · exact honly m (hmem m hm).1 m' hm' hv ▸ hm
  | rollback target =>
    rw [(call_rollback_calls collation hn hms ht target).2]
    have hmem : ∀ m ∈ toUndo collation ms t target, m ∈ ms := fun m hm =>
      ((mem_toUndo hn hms ht).1 hm).1
    exact tracked_rollback ht hms hmem fun m hm => honly m (hmem m hm)

theorem stacked_step (hn : (ms.map MigrationDefinition.number).Nodup)
    (hms : loadMigrations files = .ok ms) (ht : Tracked ⟨files, t⟩) (hst : Stacked ms t)
    (h : InOrder collation files ms t c t') : Stacked ms t' := by
  have hloaded : ∀ {m}, Up t.executed m → m ∈ ms := fun hup =>
    (mem_loadMigrations hms).2 (ht.known _ hup.mem)
  cases c with
  | migrate target =>
    obtain ⟨-, todo, hexecuted, hmem, hsorted⟩ := h
    have hnodup : todo.Nodup := by
      refine hsorted.imp fun {a b} hlt => ?_
      rintro rfl
      exact Nat.lt_irrefl _ hlt
    have hup : ∀ m, Up t'.executed m ↔ m ∈ todo ∨ Up t.executed m := fun m => by
      rw [hexecuted, up_ups]
    refine ⟨?_, fun m hm m' hm' hlt => ?_⟩
    · rw [hexecuted, standing_ups _ _ hnodup fun m hm => ((hmem m).1 hm).2.1]
      refine List.pairwise_append.2 ⟨List.pairwise_reverse.2 hsorted, hst.sorted, fun a ha b hb => ?_⟩
      obtain ⟨ha, hnot, -⟩ := (hmem a).1 (List.mem_reverse.1 ha)
      have hb := mem_standing.1 hb
      have hne : a ≠ b := fun he => hnot (he ▸ hb)
      exact (lt_or_lt_of_ne hn ha (hloaded hb) hne).resolve_left fun hab =>
        hnot (hst.closed a ha b hb hab)
    · rw [hup] at hm' ⊢
      by_cases hold : Up t.executed m
      · exact .inr hold
      rcases hm' with hm' | hm'
      · refine .inl ((hmem m).2 ⟨hm, hold, ?_⟩)
        have hto := ((hmem m').1 hm').2.2
        cases target with
        | none => rfl
        | some target =>
          simp only [MigrationDefinition.upTo, decide_eq_true_eq] at hto ⊢
          omega
      · exact .inr (hst.closed m hm m' hm' hlt)
  | rollback target =>
    obtain ⟨-, hexecuted⟩ := h
    have hup : ∀ m, Up t'.executed m
        ↔ m ∉ (standing t.executed).filter (·.after target) ∧ Up t.executed m := fun m => by
      rw [hexecuted, up_downs]
    refine ⟨?_, fun m hm m' hm' hlt => ?_⟩
    · rw [hexecuted, standing_downs]
      exact hst.sorted.sublist List.filter_sublist
    · rw [hup] at hm' ⊢
      refine ⟨fun hmem => hm'.1 (List.mem_filter.2 ⟨mem_standing.2 hm'.2, ?_⟩),
        hst.closed m hm m' hm'.2 hlt⟩
      have hafter := (List.mem_filter.1 hmem).2
      simp only [MigrationDefinition.after, decide_eq_true_eq] at hafter ⊢
      omega

theorem stacked_run (hn : (ms.map MigrationDefinition.number).Nodup)
    (hms : loadMigrations files = .ok ms) (hr : Run (calls collation files) h t)
    (hall : ∀ u ∈ h, InOrder collation files ms u.pre u.act u.post) : Stacked ms t := by
  induction hr with
  | start hi =>
    obtain rfl : _ = ({} : Tables) := hi
    exact ⟨List.Pairwise.nil, fun m _ m' hup => by simp [Up] at hup⟩
  | next hr hs ih =>
    obtain ⟨hhead, htail⟩ := List.forall_mem_cons.1 hall
    exact stacked_step hn hms (tracked_calls hn hms hr) (ih htail) hhead

/-- What a run is to be: every call does what it is to do, and a `migrate` without target and a
`rollback` after it leave exactly the migrations up to the target. -/
structure InNumberOrder (collation : Collation) (files : Directory) (ms : List MigrationDefinition)
    (h : List (Taken Tables Call)) : Prop where
  calls : ∀ u ∈ h, InOrder collation files ms u.pre u.act u.post
  upTo : ∀ l u' u e target, h = l ++ u' :: u :: e → u.act = .migrate none →
    u'.act = .rollback target → ∀ m, Up u'.post.executed m ↔ m ∈ ms ∧ m.upTo (some target) = true

theorem inOrder_run_iff (hn : (ms.map MigrationDefinition.number).Nodup)
    (hms : loadMigrations files = .ok ms) (hr : Run (calls collation files) h t) :
    (∀ u ∈ h, InOrder collation files ms u.pre u.act u.post)
      ↔ Along (fun t c => agrees collation ms t c = true) h := by
  induction hr with
  | start _ => simp [Along]
  | next hr hs ih =>
    unfold Along at ih ⊢
    rw [List.forall_mem_cons, List.forall_mem_cons, and_comm, and_comm (b := ∀ _ ∈ _, _), ← ih]
    refine and_congr_right fun htail => ?_
    exact inOrder_iff hn hms (tracked_calls hn hms hr) (stacked_run hn hms hr htail) hs

theorem upTo_of_inOrder {target : Version} {t'' : Tables}
    (hms : loadMigrations files = .ok ms) (ht : Tracked ⟨files, t⟩)
    (h : InOrder collation files ms t (.migrate none) t')
    (h' : InOrder collation files ms t' (.rollback target) t'') :
    Up t''.executed m ↔ m ∈ ms ∧ m.upTo (some target) = true := by
  obtain ⟨-, todo, hexecuted, hmem, -⟩ := h
  have hup : ∀ m, Up t'.executed m ↔ m ∈ ms := fun m => by
    rw [hexecuted, up_ups, hmem]
    refine ⟨fun hm => hm.elim And.left fun hup => (mem_loadMigrations hms).2 (ht.known _ hup.mem),
      fun hm => ?_⟩
    by_cases hold : Up t.executed m
    · exact .inr hold
    · exact .inl ⟨hm, hold, rfl⟩
  rw [h'.2, up_downs, List.mem_filter, mem_standing, hup]
  simp only [MigrationDefinition.after, MigrationDefinition.upTo, decide_eq_true_eq]
  rw [and_comm, not_and, not_lt]
  exact and_congr_right fun hm => ⟨fun h => h hm, fun h _ => h⟩

/-- Over files of distinct numbers, migrations go up and down in the order of their numbers exactly
along the runs on whose files the orders of texts agree with the numbers. -/
theorem migrations_in_order_iff (collation : Collation) (files : Directory)
    (ms : List MigrationDefinition) (hms : loadMigrations files = .ok ms)
    (hn : (ms.map MigrationDefinition.number).Nodup) (hr : Run (calls collation files) h t) :
    InNumberOrder collation files ms h ↔ Along (fun t c => agrees collation ms t c = true) h := by
  refine ⟨fun hi => (inOrder_run_iff hn hms hr).1 hi.calls, fun hC => ?_⟩
  have hcalls := (inOrder_run_iff hn hms hr).2 hC
  refine ⟨hcalls, fun l u' u e target hh hmigrate hrollback m => ?_⟩
  subst hh
  have hu' : u' ∈ l ++ u' :: u :: e := List.mem_append_right _ List.mem_cons_self
  have hu : u ∈ l ++ u' :: u :: e :=
    List.mem_append_right _ (List.mem_cons_of_mem _ List.mem_cons_self)
  have hr' := (hr.split rfl).1
  obtain ⟨hre, -⟩ := hr'.split (l := []) rfl
  have hpost : u.post = u'.pre := by
    cases hr'
    rfl
  have h := hcalls u hu
  have h' := hcalls u' hu'
  rw [hmigrate] at h
  rw [hrollback, ← hpost] at h'
  exact upTo_of_inOrder hms (tracked_calls hn hms hre) h h'

/-- A run whose calls the texts agree with the numbers on. -/
def agreeable (collation : Collation) (files : Directory) (h : List (Taken Tables Call)) : Bool :=
  (loadMigrations files).toOption.any fun ms => decide ((ms.map MigrationDefinition.number).Nodup
    ∧ ∀ u ∈ h, agrees collation ms u.pre u.act = true)

/-- Versions of one width. -/
def narrow : Directory := ((∅ : Directory).set "009_a.sql" "A").set "010_b.sql" "B"

/-- Versions of two widths. -/
def wide : Directory := ((∅ : Directory).set "9_a.sql" "A").set "10_b.sql" "B"

def nine : Version := ⟨"009", by decide, by decide⟩

theorem migrations_in_order_narrow : ∃ ms h t, loadMigrations narrow = .ok ms
    ∧ Run (calls codePoints narrow) h t ∧ t.executed.length = 3
    ∧ InNumberOrder codePoints narrow ms h := by
  obtain ⟨h, t, hr, htest⟩ := Sys.exists_run (S := calls codePoints narrow) rfl
    [.migrate none, .rollback nine]
    (p := fun x => decide (x.2.executed.length = 3) && agreeable codePoints narrow x.1)
    (by decide +kernel)
  obtain ⟨hlen, htest⟩ := Bool.and_eq_true_iff.1 htest
  unfold agreeable at htest
  cases hms : loadMigrations narrow with
  | error e =>
    rw [hms] at htest
    cases htest
  | ok ms =>
    rw [hms] at htest
    obtain ⟨hn, hC⟩ := of_decide_eq_true htest
    exact ⟨ms, h, t, rfl, hr, of_decide_eq_true hlen,
      (migrations_in_order_iff codePoints narrow ms hms hn hr).2 hC⟩

/-- Version 10 is applied before version 9. -/
theorem ten_before_nine : ∃ ms, loadMigrations wide = .ok ms
    ∧ (ms.map MigrationDefinition.number).Nodup
    ∧ ∃ h t, Run (calls codePoints wide) h t ∧ ¬ InNumberOrder codePoints wide ms h := by
  have htest : ((loadMigrations wide).toOption.any fun ms =>
      decide ((ms.map MigrationDefinition.number).Nodup
        ∧ ¬ agrees codePoints ms {} (.migrate none) = true)) = true := by decide +kernel
  cases hms : loadMigrations wide with
  | error e =>
    rw [hms] at htest
    cases htest
  | ok ms =>
    rw [hms] at htest
    obtain ⟨hn, hnot⟩ := of_decide_eq_true htest
    have hstep : (calls codePoints wide).step {} (.migrate none)
        = some ((Call.migrate none).action.call codePoints ⟨wide, {}⟩).2 := rfl
    refine ⟨ms, rfl, hn, _, _, (Run.start rfl).next hstep, fun hi => hnot ?_⟩
    exact (migrate_inOrder_iff hn hms (tracked_init rfl) none hstep).1
      (hi.calls _ List.mem_cons_self)

end Runs

end Database

end VeriNode
