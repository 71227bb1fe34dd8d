import VeriNode.Lib.Separated
import VeriNode.Performance.Baseline

/-!
# The names of stored baselines

A name that has one `_` is of one pair, and is split where it was joined (`key_inj`, `pair_key`);
any other is of two pairs or more (`exists_alias`), and a baseline that is saved there is loaded for
a pair that it is not of. So a store is a map while every baseline that is saved is of a plain pair,
and no longer (`baselines_kept_iff`).
-/

namespace VeriNode

namespace BaselineStore

/-- All characters are safe, and none is the one that joins. -/
def Plain (s : String) : Prop := ∀ c ∈ s.toList, isSafe c = true ∧ c ≠ '_'

theorem plain_of_all {s : String} (h : s.toList.all (fun c => isSafe c && c != '_') = true) :
    Plain s := by
  intro c hc
  have hall := List.all_eq_true.1 h c hc
  rw [Bool.and_eq_true, bne_iff_ne] at hall
  exact hall

section Keys

theorem replaceChar_of_safe {c : Char} (h : isSafe c = true) : replaceChar c = [c] := if_pos h

theorem mem_replaceChar {c d : Char} (h : d ∈ replaceChar c) :
    isSafe c = true ∧ d = c ∨ isSafe c = false ∧ d = '_' := by
  rw [replaceChar] at h
  split_ifs at h with hc
  · exact .inl ⟨hc, List.mem_singleton.1 h⟩
  · obtain ⟨u, -, rfl⟩ := List.mem_map.1 h
    exact .inr ⟨Bool.eq_false_iff.2 hc, rfl⟩

theorem underscore_mem {c : Char} (h : isSafe c = false) : '_' ∈ replaceChar c := by
  rw [replaceChar, if_neg (by simp [h])]
  have hne : JsString.codeUnits c ≠ [] := by
    rw [JsString.codeUnits]
    split_ifs <;> simp
  obtain ⟨u, l, hl⟩ := List.exists_cons_of_ne_nil hne
  simp [hl]

theorem toList_replace (s : String) : (replace s).toList = s.toList.flatMap replaceChar := by
  simp [replace]

theorem safe_of_mem_replace {s : String} {d : Char} (h : d ∈ (replace s).toList) :
    isSafe d = true := by
  rw [toList_replace] at h
  obtain ⟨c, -, hd⟩ := List.mem_flatMap.1 h
  rcases mem_replaceChar hd with ⟨hc, rfl⟩ | ⟨-, rfl⟩
  · exact hc
  · rfl

theorem replace_of_safe {s : String} (h : ∀ c ∈ s.toList, isSafe c = true) : replace s = s := by
  have hl : ∀ l : List Char, (∀ c ∈ l, isSafe c = true) → l.flatMap replaceChar = l := by
    intro l hl
    induction l with
    | nil => rfl
    | cons c l ih =>
      rw [List.flatMap_cons, replaceChar_of_safe (hl c List.mem_cons_self),
        ih fun d hd => hl d (List.mem_cons_of_mem _ hd), List.singleton_append]
  rw [← String.toList_inj, toList_replace, hl s.toList h]

theorem replace_replace (s : String) : replace (replace s) = replace s :=
  replace_of_safe fun _ h => safe_of_mem_replace h

theorem plain_of_replace {s : String} (h : '_' ∉ (replace s).toList) : Plain s := by
  intro c hc
  rw [toList_replace, List.mem_flatMap, not_exists] at h
  have hn : '_' ∉ replaceChar c := fun hm => h c ⟨hc, hm⟩
  have hsafe : isSafe c = true := by
    by_contra hu
    exact hn (underscore_mem (Bool.eq_false_iff.2 hu))
  refine ⟨hsafe, ?_⟩
  rintro rfl
  exact hn (by rw [replaceChar_of_safe hsafe]; exact List.mem_singleton_self _)

theorem Plain.replace {s : String} (h : Plain s) : replace s = s :=
  replace_of_safe fun c hc => (h c hc).1

theorem Plain.not_mem {s : String} (h : Plain s) : '_' ∉ s.toList := fun hc => (h _ hc).2 rfl

theorem toList_key (branch scenario : String) : (key branch scenario).toList =
    ((replace branch).toList ++ '_' :: (replace scenario).toList) ++ ".json".toList := by
  simp [key, toString]

variable {branch scenario branch' scenario' : String}

theorem key_inj (hb : Plain branch) (hs : Plain scenario)
    (h : key branch' scenario' = key branch scenario) :
    branch' = branch ∧ scenario' = scenario := by
  rw [← String.toList_inj, toList_key, toList_key, hb.replace, hs.replace] at h
  have h := List.append_cancel_right h
  -- there is one `_` on both sides
  have hcount := congrArg (List.count '_') h
  rw [List.count_append, List.count_cons_self, List.count_append, List.count_cons_self,
    List.count_eq_zero.2 hb.not_mem, List.count_eq_zero.2 hs.not_mem] at hcount
  have hb' : '_' ∉ (replace branch').toList := List.count_eq_zero.1 (by omega)
  have hs' : '_' ∉ (replace scenario').toList := List.count_eq_zero.1 (by omega)
  rw [(plain_of_replace hb').replace] at h hb'
  rw [(plain_of_replace hs').replace] at h
  obtain ⟨hbranch, hscenario⟩ := Separated.append_cons_inj hb' hb.not_mem h
  exact ⟨String.toList_inj.1 hbranch, String.toList_inj.1 hscenario⟩

theorem key_append (u v w : String) : key (u ++ "_" ++ v) w = key u (v ++ "_" ++ w) := by
  have hu : replaceChar '_' = ['_'] := replaceChar_of_safe rfl
  rw [← String.toList_inj, toList_key, toList_key]
  simp [toList_replace, hu]

theorem exists_append {s : String} (h : '_' ∈ s.toList) : ∃ u v, s = u ++ "_" ++ v := by
  obtain ⟨u, v, hs⟩ := List.append_of_mem h
  refine ⟨String.ofList u, String.ofList v, ?_⟩
  rw [← String.toList_inj, hs]
  simp

theorem ne_append (u v : String) : u ≠ u ++ "_" ++ v := by
  intro h
  have := congrArg (fun s => s.toList.length) h
  simp at this

theorem exists_alias (h : ¬ (Plain branch ∧ Plain scenario)) :
    ∃ branch' scenario', (branch', scenario') ≠ (branch, scenario) ∧
      key branch' scenario' = key branch scenario := by
  by_cases hr : replace branch = branch ∧ replace scenario = scenario
  · by_cases hb : '_' ∈ branch.toList
    · obtain ⟨u, v, rfl⟩ := exists_append hb
      exact ⟨u, v ++ "_" ++ scenario, fun he => ne_append u v (Prod.mk.inj he).1,
        (key_append u v scenario).symm⟩
    · have hs : '_' ∈ scenario.toList := by
        by_contra hs
        exact h ⟨plain_of_replace (hr.1.symm ▸ hb), plain_of_replace (hr.2.symm ▸ hs)⟩
      obtain ⟨u, v, rfl⟩ := exists_append hs
      exact ⟨branch ++ "_" ++ u, v, fun he => ne_append branch u (Prod.mk.inj he).1.symm,
        key_append branch u v⟩
  · refine ⟨replace branch, replace scenario, fun he => hr (Prod.mk.inj he), ?_⟩
    rw [← String.toList_inj, toList_key, toList_key, replace_replace, replace_replace]

theorem pair_key (hb : Plain branch) (hs : Plain scenario) :
    pair (key branch scenario) = some (branch, scenario) := by
  have hname : (key branch scenario).toList.take ((key branch scenario).toList.length - 5) =
      branch.toList ++ '_' :: scenario.toList := by
    rw [toList_key, hb.replace, hs.replace, List.length_append]
    exact List.take_left
  have hsep : (branch.toList ++ '_' :: scenario.toList).idxOf '_' = branch.toList.length := by
    rw [List.idxOf_append_of_notMem hb.not_mem, List.idxOf_cons_self, Nat.add_zero]
  have hne : branch.toList.length ≠ (branch.toList ++ '_' :: scenario.toList).length := by
    simp
  rw [pair]
  simp only [hname, hsep, if_neg hne]
  simp

theorem endsWith_key (branch scenario : String) :
    ".json".toList.isSuffixOf (key branch scenario).toList = true := by
  rw [toList_key, List.isSuffixOf_iff_suffix]
  exact List.suffix_append _ _

end Keys

section Runs

variable {μ : Type*} {dir : OrdMap String (PerformanceBaseline μ)} {a : Action μ}
variable {h : List (Taken (OrdMap String (PerformanceBaseline μ)) (Action μ))}
variable {branch scenario : String}

/-- The last baseline that was saved for the pair and has not been deleted since. -/
def kept (branch scenario : String) :
    List (Taken (OrdMap String (PerformanceBaseline μ)) (Action μ)) → Option (PerformanceBaseline μ)
  | [] => none
  | ⟨_, .save baseline, _⟩ :: h =>
    if baseline.branch = branch ∧ baseline.scenario = scenario then some baseline
    else kept branch scenario h
  | ⟨_, .delete branch' scenario', _⟩ :: h =>
    if branch' = branch ∧ scenario' = scenario then none else kept branch scenario h

/-- What is asked of a store. -/
structure Kept (h : List (Taken (OrdMap String (PerformanceBaseline μ)) (Action μ)))
    (dir : OrdMap String (PerformanceBaseline μ)) : Prop where
  load : ∀ branch scenario, load dir branch scenario = kept branch scenario h
  list : ∀ branch scenario,
    (branch, scenario) ∈ list dir ↔ BaselineStore.load dir branch scenario ≠ none

/-- A baseline that is saved is of a plain pair. -/
def PlainSave (_ : OrdMap String (PerformanceBaseline μ)) : Action μ → Prop
  | .save baseline => Plain baseline.branch ∧ Plain baseline.scenario
  | .delete _ _ => True

/-- Every file is of a plain pair, and under its name. -/
def Filed (dir : OrdMap String (PerformanceBaseline μ)) : Prop :=
  ∀ entry baseline, dir.get entry = some baseline → Plain baseline.branch ∧
    Plain baseline.scenario ∧ entry = key baseline.branch baseline.scenario

theorem kept_pair {baseline : PerformanceBaseline μ} (hk : kept branch scenario h = some baseline) :
    baseline.branch = branch ∧ baseline.scenario = scenario := by
  induction h with
  | nil => cases hk
  | cons t h ih =>
    obtain ⟨pre, a | ⟨branch', scenario'⟩, post⟩ := t
    · rw [kept] at hk
      split_ifs at hk with hpair
      · exact Option.some.inj hk ▸ hpair
      · exact ih hk
    · rw [kept] at hk
      split_ifs at hk
      exact ih hk

theorem Filed.load_eq (hf : Filed dir) {baseline : PerformanceBaseline μ}
    (hl : load dir branch scenario = some baseline) :
    Plain branch ∧ Plain scenario ∧ baseline.branch = branch ∧ baseline.scenario = scenario := by
  obtain ⟨hb, hs, hkey⟩ := hf _ baseline hl
  obtain ⟨rfl, rfl⟩ := key_inj hb hs hkey
  exact ⟨hb, hs, rfl, rfl⟩

theorem Filed.mem_list (hf : Filed dir) :
    (branch, scenario) ∈ list dir ↔ load dir branch scenario ≠ none := by
  rw [list, List.mem_filterMap]
  constructor
  · rintro ⟨entry, hentry, hpair⟩
    obtain ⟨baseline, hget⟩ := Option.ne_none_iff_exists'.1
      (mt OrdMap.get_eq_none_iff.1 (not_not.2 (List.mem_of_mem_filter hentry)))
    obtain ⟨hb, hs, rfl⟩ := hf entry baseline hget
    rw [pair_key hb hs, Option.some.injEq, Prod.mk.injEq] at hpair
    obtain ⟨rfl, rfl⟩ := hpair
    rw [load, hget]
    exact Option.some_ne_none baseline
  · intro hl
    obtain ⟨baseline, hl⟩ := Option.ne_none_iff_exists'.1 hl
    obtain ⟨hb, hs, -, -⟩ := hf.load_eq hl
    refine ⟨key branch scenario, List.mem_filter.2 ⟨?_, endsWith_key branch scenario⟩,
      pair_key hb hs⟩
    by_contra hn
    rw [load, OrdMap.get_eq_none_iff.2 hn] at hl
    cases hl

theorem Filed.step (hf : Filed dir) (ha : PlainSave dir a) : Filed (step dir a) := by
  intro entry baseline hget
  cases a with
  | save baseline' =>
    rcases OrdMap.of_get_set hget with ⟨rfl, rfl⟩ | hget
    · exact ⟨ha.1, ha.2, rfl⟩
    · exact hf entry baseline hget.2
  | delete branch scenario => exact hf entry baseline (OrdMap.of_get_delete hget).2

theorem load_step (hf : Filed dir) (ha : PlainSave dir a)
    (hl : load dir branch scenario = kept branch scenario h) :
    load (step dir a) branch scenario = kept branch scenario (⟨dir, a, step dir a⟩ :: h) := by
  cases a with
  | save baseline =>
    rw [load, BaselineStore.step, save, OrdMap.get_set, kept]
    by_cases hkey : key branch scenario = key baseline.branch baseline.scenario
    · obtain ⟨rfl, rfl⟩ := key_inj ha.1 ha.2 hkey
      rw [if_pos rfl, if_pos ⟨rfl, rfl⟩]
    · rw [if_neg hkey, if_neg (by rintro ⟨rfl, rfl⟩; exact hkey rfl)]
      exact hl
  | delete branch' scenario' =>
    rw [load, BaselineStore.step, delete, OrdMap.get_delete, kept]
    by_cases hkey : key branch scenario = key branch' scenario'
    · rw [if_pos hkey]
      split_ifs with hpair
      · rfl
      · -- nothing is kept for the pair, which would be plain, and so the one that is deleted
        rw [← hl]
        by_contra hne
        obtain ⟨baseline, hl⟩ := Option.ne_none_iff_exists'.1 (Ne.symm hne)
        obtain ⟨hb, hs, -, -⟩ := hf.load_eq hl
        exact hpair (key_inj hb hs hkey.symm)
    · rw [if_neg hkey, if_neg (by rintro ⟨rfl, rfl⟩; exact hkey rfl)]
      exact hl

theorem not_kept_save (ha : ¬ PlainSave dir a) :
    ¬ Kept (⟨dir, a, step dir a⟩ :: h) (step dir a) := by
  cases a with
  | save baseline =>
    intro hk
    obtain ⟨branch', scenario', hne, hkey⟩ := exists_alias ha
    have hload := hk.load branch' scenario'
    have hself : load (step dir (.save baseline)) branch' scenario' = some baseline := by
      rw [load, hkey]
      exact OrdMap.get_set_self dir _ baseline
    obtain ⟨rfl, rfl⟩ := kept_pair (hload.symm.trans hself)
    exact hne rfl
  | delete branch scenario => exact absurd trivial ha

theorem filed_of_run (hr : Run (system μ) h dir) (hC : Along PlainSave h) :
    Filed dir ∧ ∀ branch scenario, load dir branch scenario = kept branch scenario h := by
  induction hr with
  | start hi =>
    obtain rfl := hi
    exact ⟨fun entry baseline hget => absurd hget (Option.some_ne_none baseline).symm,
      fun branch scenario => rfl⟩
  | next hr hs ih =>
    obtain ⟨hf, hl⟩ := ih hC.tail
    obtain rfl := Option.some.inj hs
    exact ⟨hf.step hC.head, fun branch scenario => load_step hf hC.head (hl branch scenario)⟩

/-- A store keeps to its baselines after every step just when every baseline that was saved is of a
plain pair. -/
theorem baselines_kept_iff (hr : Run (system μ) h dir) :
    Throughout (fun t h => Kept (t :: h) t.post) h ↔ Along PlainSave h := by
  refine hr.throughout_iff_along fun h dir a dir' hr hC hs => ?_
  obtain ⟨hf, hl⟩ := filed_of_run hr hC
  obtain rfl := Option.some.inj hs
  constructor
  · intro hk
    by_contra ha
    exact not_kept_save ha hk
  · intro ha
    exact ⟨fun branch scenario => load_step hf ha (hl branch scenario),
      fun branch scenario => (hf.step ha).mem_list⟩

theorem baselines_kept_iff_main : ∃ dir,
    Run (system ℕ) [⟨∅, .save ⟨"main", "load", 0, []⟩, dir⟩] dir ∧
    Throughout (fun t h => Kept (t :: h) t.post) [⟨∅, .save ⟨"main", "load", 0, []⟩, dir⟩] := by
  have hr : Run (system ℕ) [⟨∅, .save ⟨"main", "load", 0, []⟩, _⟩] _ := .next (.start rfl) rfl
  refine ⟨_, hr, (baselines_kept_iff hr).2 (along_cons.2 ⟨⟨?_, ?_⟩, fun _ ht => by cases ht⟩)⟩
  · exact plain_of_all (by decide +kernel)
  · exact plain_of_all (by decide +kernel)

/-- A baseline of `a/b` is loaded for `a_b`. -/
theorem baseline_of_other : ∃ dir, Run (system ℕ) [⟨∅, .save ⟨"a/b", "s", 0, []⟩, dir⟩] dir ∧
    ¬ Kept [⟨∅, .save ⟨"a/b", "s", 0, []⟩, dir⟩] dir := by
  refine ⟨_, .next (.start rfl) rfl, fun hk => ?_⟩
  have hload := hk.load "a_b" "s"
  have hkey : key "a_b" "s" = key "a/b" "s" := by decide +kernel
  rw [load, hkey] at hload
  have hself := OrdMap.get_set_self ∅ (key "a/b" "s") (⟨"a/b", "s", 0, []⟩ : PerformanceBaseline ℕ)
  have hkept := hload.symm.trans hself
  rw [kept, if_neg (by decide)] at hkept
  cases hkept

end Runs

end BaselineStore

end VeriNode
