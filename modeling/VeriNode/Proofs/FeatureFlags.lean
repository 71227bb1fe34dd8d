import VeriNode.Ingress.FeatureFlags

/-!
# The statuses of the flags

What each call makes of the statuses of the flags that are registered (`Becomes`): reading one
changes none, an override is the status of one flag, and after a change of the configuration all
have their configured status.
-/

namespace VeriNode

namespace Ingress

open JsVal Config

variable {config : Tree} {f f' f'' : Flags} {k : String} {flag : FeatureFlag}

section Values

variable {v : Value} {st : FeatureFlagStatus}

theorem FeatureFlagStatus.truthy_value (st : FeatureFlagStatus) : truthy st.value = true := by
  cases st <;> decide

theorem eq_of_strictNe {w : Value} (h : strictNe v w = false) : v = w := by
  unfold strictNe at h
  split at h
  · rfl
  · simpa using h
  · rfl
  · simpa using h
  · rw [Bool.not_eq_false'] at h
    unfold JsNumber.strictEq at h
    split at h
    · cases h
    · rw [of_decide_eq_true h]
  · simpa using h
  · cases h

/-- What the cache has of a flag, or else this. -/
def asCached (configured : Value) (cached : Option Value) : Value :=
  (cached.filter truthy).getD configured

theorem asCached_of_truthy (h : truthy v = true) (configured : Value) :
    asCached configured (some v) = v := by
  rw [asCached, Option.filter_some_pos h]
  rfl

theorem asCached_value (configured : Value) (st : FeatureFlagStatus) :
    asCached configured (some st.value) = st.value :=
  asCached_of_truthy st.truthy_value configured

theorem asCached_eq_iff : asCached st.value (some v) = v ↔ truthy v = true := by
  cases hv : truthy v with
  | true => exact iff_of_true (asCached_of_truthy hv _) rfl
  | false =>
    refine iff_of_false (fun h => ?_) Bool.false_ne_true
    rw [asCached, Option.filter_some_neg (by simp [hv])] at h
    have htrue := st.truthy_value
    rw [show st.value = v from h, hv] at htrue
    cases htrue

end Values

/-- The status of a flag that is registered, before it is cached. -/
def status (config : Tree) (f : Flags) (k : String) (flag : FeatureFlag) : Value :=
  asCached (configuredStatus config k flag).value (f.cache.get k)

theorem getStatus_fst (h : f.registry.get k = some flag) :
    (getStatus config k f).1 = status config f k flag := by
  unfold getStatus status asCached
  cases hc : (f.cache.get k).filter truthy with
  | some cached => rfl
  | none =>
    simp only [h]
    rfl

def CachesRegistered (f : Flags) : Prop :=
  ∀ k v, f.cache.get k = some v → ∃ flag, f.registry.get k = some flag

/-- The flags are the same, and no other flag is cached. -/
structure Keeps (f f' : Flags) : Prop where
  registry : f'.registry = f.registry
  initialized : f'.initialized = f.initialized
  cached : CachesRegistered f → CachesRegistered f'

theorem Keeps.refl (f : Flags) : Keeps f f := ⟨rfl, rfl, fun h => h⟩

theorem Keeps.trans (h : Keeps f f') (h' : Keeps f' f'') : Keeps f f'' where
  registry := h'.registry.trans h.registry
  initialized := h'.initialized.trans h.initialized
  cached hf := h'.cached (h.cached hf)

theorem keeps_set (h : f.registry.get k = some flag) (v : Value) :
    Keeps f { f with cache := f.cache.set k v } where
  registry := rfl
  initialized := rfl
  cached hf k' v' hv' := by
    obtain ⟨rfl, -⟩ | ⟨-, hv'⟩ := OrdMap.of_get_set hv'
    · exact ⟨flag, h⟩
    · exact hf k' v' hv'

theorem keeps_foldl {α : Type} {op : Flags → α → Flags} : ∀ {l : List α} {f : Flags},
    (∀ f' : Flags, f'.registry = f.registry → ∀ a ∈ l, Keeps f' (op f' a)) → Keeps f (l.foldl op f)
  | [], f, _ => .refl f
  | a :: l, f, h => by
    have hfirst := h f rfl a List.mem_cons_self
    exact hfirst.trans (keeps_foldl fun f' hf' a' ha' =>
      h f' (hf'.trans hfirst.registry) a' (List.mem_cons_of_mem _ ha'))

/-- The flags are the same, and the statuses of those that are registered are these. -/
structure Becomes (config : Tree) (f f' : Flags) (g : String → FeatureFlag → Value) : Prop
    extends Keeps f f' where
  statuses : ∀ k flag, f.registry.get k = some flag → status config f' k flag = g k flag

theorem Becomes.refl (config : Tree) (f : Flags) : Becomes config f f (status config f) :=
  ⟨.refl f, fun _ _ _ => rfl⟩

theorem Becomes.trans {g g' : String → FeatureFlag → Value}
    (h : Becomes config f f' g) (h' : Becomes config f' f'' g') : Becomes config f f'' g' :=
  ⟨h.toKeeps.trans h'.toKeeps, fun k flag hk => h'.statuses k flag (by rwa [h.registry])⟩

theorem Becomes.congr {g g' : String → FeatureFlag → Value}
    (h : Becomes config f f' g) (hg : ∀ k flag, f.registry.get k = some flag → g k flag = g' k flag) :
    Becomes config f f' g' :=
  ⟨h.toKeeps, fun k flag hk => (h.statuses k flag hk).trans (hg k flag hk)⟩

theorem becomes_set (config : Tree) (h : f.registry.get k = some flag) (v : Value) :
    Becomes config f { f with cache := f.cache.set k v } fun k' flag' =>
      if k' = k then asCached (configuredStatus config k' flag').value (some v)
      else status config f k' flag' where
  toKeeps := keeps_set h v
  statuses k' flag' _ := by
    rw [status, OrdMap.get_set]
    split_ifs
    · rfl
    · rfl

theorem becomes_delete (config : Tree) (f : Flags) (k : String) :
    Becomes config f { f with cache := f.cache.delete k }
      fun k' flag' => if k' = k then (configuredStatus config k' flag').value
        else status config f k' flag' where
  registry := rfl
  initialized := rfl
  cached hf k' v' hv' := hf k' v' (OrdMap.of_get_delete hv').2
  statuses k' flag' _ := by
    rw [status, OrdMap.get_delete]
    split_ifs
    · rfl
    · rfl

theorem becomes_getStatus (config : Tree) (k : String) (f : Flags) :
    Becomes config f (getStatus config k f).2 (status config f) := by
  unfold getStatus
  cases hc : (f.cache.get k).filter truthy with
  | some cached => exact .refl config f
  | none =>
    cases hr : f.registry.get k with
    | none => exact .refl config f
    | some flag =>
      refine (becomes_set config hr (configuredStatus config k flag).value).congr
        fun k' flag' hk' => ?_
      split_ifs with hk
      · subst hk
        obtain rfl := Option.some.inj (hr.symm.trans hk')
        rw [asCached_value, status, asCached, hc]
        rfl
      · rfl

theorem becomes_setOverride (config : Tree) (k : String) (v : Value) (f : Flags) :
    Becomes config f (setOverride config k v f).2 fun k' flag' =>
      if k' = k then asCached (configuredStatus config k' flag').value (some v)
      else status config f k' flag' := by
  unfold setOverride
  cases hr : f.registry.get k with
  | none =>
    refine (Becomes.refl config f).congr fun k' flag' hk' => ?_
    rw [if_neg]
    rintro rfl
    rw [hr] at hk'
    cases hk'
  | some flag =>
    have hread := becomes_getStatus config k f
    refine (hread.trans (becomes_set config (hread.registry ▸ hr) v)).congr fun k' flag' hk' => ?_
    split_ifs
    · rfl
    · exact hread.statuses k' flag' hk'

theorem becomes_resetOverride (config : Tree) (k : String) (f : Flags) :
    Becomes config f (resetOverride config k f).2
      fun k' flag' => if k' = k then (configuredStatus config k' flag').value
        else status config f k' flag' := by
  unfold resetOverride
  cases hr : f.registry.get k with
  | none =>
    refine (Becomes.refl config f).congr fun k' flag' hk' => ?_
    rw [if_neg]
    rintro rfl
    rw [hr] at hk'
    cases hk'
  | some flag =>
    have hread := becomes_getStatus config k f
    have hdelete := hread.trans (becomes_delete config (getStatus config k f).2 k)
    refine (hdelete.trans (becomes_getStatus config k _)).congr fun k' flag' hk' => ?_
    rw [hdelete.statuses k' flag' hk']
    split_ifs
    · rfl
    · exact hread.statuses k' flag' hk'

theorem becomes_foldl {β : Type} {op : Flags → String × β → Flags}
    {v : String × β → FeatureFlag → Value} : ∀ {l : List (String × β)} {f : Flags},
    (l.map Prod.fst).Nodup →
    (∀ f' : Flags, f'.registry = f.registry → ∀ e ∈ l, Becomes config f' (op f' e)
      fun k flag => if k = e.1 then v e flag else status config f' k flag) →
    Becomes config f (l.foldl op f) fun k flag =>
      match l.find? (·.1 = k) with
      | some e => v e flag
      | none => status config f k flag
  | [], f, _, _ => .refl config f
  | e :: l, f, hn, hop => by
    rw [List.map_cons, List.nodup_cons] at hn
    have hfirst := hop f rfl e List.mem_cons_self
    have hrest := becomes_foldl (f := op f e) hn.2 fun f' hf' e' he' =>
      hop f' (hf'.trans hfirst.registry) e' (List.mem_cons_of_mem _ he')
    refine (hfirst.trans hrest).congr fun k flag hk => ?_
    by_cases he : e.1 = k
    · have hnone : l.find? (·.1 = k) = none := OrdMap.find?_eq_none_of_not_mem (he ▸ hn.1)
      rw [hnone, List.find?_cons_of_pos (by simpa using he)]
      simp only
      rw [hfirst.statuses k flag hk, if_pos he.symm]
    · rw [List.find?_cons_of_neg (by simpa using he)]
      cases l.find? (·.1 = k) with
      | some e' => rfl
      | none =>
        simp only
        rw [hfirst.statuses k flag hk, if_neg fun h => he h.symm]

theorem becomes_refresh (config : Tree) (f : Flags) :
    Becomes config f (refresh config f) fun k flag => (configuredStatus config k flag).value := by
  have hentry : ∀ e ∈ f.registry.entries, f.registry.get e.1 = some e.2 := fun e he =>
    OrdMap.mem_entries_iff.1 he
  have hstep : ∀ f' : Flags, f'.registry = f.registry → ∀ e ∈ f.registry.entries,
      Becomes config f'
        (let read := getStatus config e.1 f'
          let newStatus := (configuredStatus config e.1 e.2).value
          if strictNe read.1 newStatus then
            { read.2 with cache := read.2.cache.set e.1 newStatus }
          else read.2)
        fun k flag => if k = e.1 then (configuredStatus config e.1 e.2).value
          else status config f' k flag := by
    intro f' hf' e he
    have hk : f'.registry.get e.1 = some e.2 := by rw [hf', hentry e he]
    have hread := becomes_getStatus config e.1 f'
    simp only
    split_ifs with hne
    · refine (hread.trans (becomes_set config (hread.registry ▸ hk) _)).congr fun k flag hkf => ?_
      split_ifs
      · exact asCached_value _ _
      · exact hread.statuses k flag hkf
    · refine hread.congr fun k flag hkf => ?_
      split_ifs with he
      · subst he
        obtain rfl := Option.some.inj (hk.symm.trans hkf)
        rw [← getStatus_fst hk]
        exact eq_of_strictNe (Bool.eq_false_of_not_eq_true hne)
      · rfl
  refine (becomes_foldl (v := fun e _ => (configuredStatus config e.1 e.2).value) f.registry.nodup
    hstep).congr fun k flag hk => ?_
  have hmem := OrdMap.mem_entries_iff.2 hk
  rw [OrdMap.find?_of_mem_nodup f.registry.nodup hmem]

section Init

/-- The override that is read for a flag when the flags are initialised: one under its own key. -/
def ownOverride (config : Tree) (k : String) : Option FeatureFlagStatus :=
  if k ∈ (flagOverrides config).map Prod.fst then getFlagFromConfig config k else none

theorem keeps_cacheOverride (config : Tree) (f : Flags) (key : String) :
    Keeps f (cacheOverride config f key) := by
  unfold cacheOverride
  split
  · exact keeps_set ‹_› _
  · exact .refl f

theorem get_cacheOverride (config : Tree) (h : f.registry.get k = some flag) (key : String) :
    (cacheOverride config f key).cache.get k
      = ((if k = key then getFlagFromConfig config k else none).map FeatureFlagStatus.value).or
        (f.cache.get k) := by
  by_cases hkey : k = key
  · subst hkey
    rw [cacheOverride, h, if_pos rfl]
    cases getFlagFromConfig config k with
    | none => rfl
    | some st => exact OrdMap.get_set_self _ _ _
  · rw [if_neg hkey, cacheOverride]
    split
    · exact OrdMap.get_set_of_ne _ _ hkey
    · rfl

theorem get_cacheOverrides (config : Tree) : ∀ (keys : List String) {f : Flags},
    f.registry.get k = some flag → (keys.foldl (cacheOverride config) f).cache.get k
      = ((if k ∈ keys then getFlagFromConfig config k else none).map FeatureFlagStatus.value).or
        (f.cache.get k)
  | [], f, _ => by
    rw [if_neg List.not_mem_nil]
    rfl
  | key :: keys, f, h => by
    have hreg := (keeps_cacheOverride config f key).registry
    rw [List.foldl_cons, get_cacheOverrides config keys (hreg ▸ h), get_cacheOverride config h]
    by_cases hkey : k = key
    · subst hkey
      rw [if_pos rfl, if_pos List.mem_cons_self]
      split_ifs
      · cases getFlagFromConfig config k <;> rfl
      · rfl
    · simp [hkey]

theorem keeps_cacheDefault {e : String × FeatureFlag} (h : f.registry.get e.1 = some e.2) :
    Keeps f (cacheDefault f e) := by
  unfold cacheDefault
  split_ifs
  · exact .refl f
  · exact keeps_set h _

theorem get_cacheDefault_of_ne {e : String × FeatureFlag} (h : k ≠ e.1) :
    (cacheDefault f e).cache.get k = f.cache.get k := by
  unfold cacheDefault
  split_ifs
  · rfl
  · exact OrdMap.get_set_of_ne _ _ h

theorem get_cacheDefault (f : Flags) (k : String) (flag : FeatureFlag) :
    (cacheDefault f (k, flag)).cache.get k
      = some ((f.cache.get k).getD flag.defaultStatus.value) := by
  unfold cacheDefault
  split_ifs with hhas
  · obtain ⟨v, hv⟩ := OrdMap.has_iff.1 hhas
    rw [hv]
    rfl
  · rw [OrdMap.get_set_self, OrdMap.has_eq_false_iff.1 (Bool.eq_false_of_not_eq_true hhas)]
    rfl

theorem get_cacheDefaults_of_not_mem : ∀ {entries : List (String × FeatureFlag)} {f : Flags},
    k ∉ entries.map Prod.fst → (entries.foldl cacheDefault f).cache.get k = f.cache.get k
  | [], _, _ => rfl
  | e :: entries, f, h => by
    rw [List.map_cons, List.mem_cons, not_or] at h
    rw [List.foldl_cons, get_cacheDefaults_of_not_mem h.2, get_cacheDefault_of_ne h.1]

theorem get_cacheDefaults : ∀ {entries : List (String × FeatureFlag)} {f : Flags},
    (entries.map Prod.fst).Nodup → (k, flag) ∈ entries →
    (entries.foldl cacheDefault f).cache.get k
      = some ((f.cache.get k).getD flag.defaultStatus.value)
  | e :: entries, f, hn, hmem => by
    rw [List.map_cons, List.nodup_cons] at hn
    rw [List.foldl_cons]
    rcases List.mem_cons.1 hmem with rfl | hmem
    · rw [get_cacheDefaults_of_not_mem hn.1, get_cacheDefault]
    · have hne : k ≠ e.1 := by
        rintro rfl
        exact hn.1 (List.mem_map.2 ⟨_, hmem, rfl⟩)
      rw [get_cacheDefaults hn.2 hmem, get_cacheDefault_of_ne hne]

/-- What a flag has after the flags are initialised: its override, or what it had, or its
default. -/
def initialStatus (config : Tree) (f : Flags) (k : String) (flag : FeatureFlag) : Value :=
  match ownOverride config k, f.cache.get k with
  | some st, _ => st.value
  | none, none => flag.defaultStatus.value
  | none, some _ => status config f k flag

theorem becomes_initFeatureFlags (config : Tree) {f : Flags} (h : f.initialized = false) :
    (initFeatureFlags config f).2 = true ∧ (initFeatureFlags config f).1.initialized = true
      ∧ Becomes config f { (initFeatureFlags config f).1 with initialized := f.initialized }
        (initialStatus config f) := by
  let read := ((flagOverrides config).map Prod.fst).foldl (cacheOverride config) f
  have hread : Keeps f read := keeps_foldl fun f' _ key _ => keeps_cacheOverride config f' key
  have hfilled : Keeps read (read.registry.entries.foldl cacheDefault read) :=
    keeps_foldl fun f' hf' e he => keeps_cacheDefault (hf' ▸ OrdMap.mem_entries_iff.1 he)
  have hkeeps := hread.trans hfilled
  have hcache : ∀ k flag, f.registry.get k = some flag →
      (read.registry.entries.foldl cacheDefault read).cache.get k
        = some ((((ownOverride config k).map FeatureFlagStatus.value).or (f.cache.get k)).getD
          flag.defaultStatus.value) := fun k flag hk => by
    have hmem : (k, flag) ∈ read.registry.entries :=
      OrdMap.mem_entries_iff.2 (hread.registry ▸ hk)
    rw [get_cacheDefaults read.registry.nodup hmem, get_cacheOverrides config _ hk]
    rfl
  unfold initFeatureFlags
  rw [h, if_neg Bool.false_ne_true]
  refine ⟨rfl, rfl, ⟨hkeeps.registry, h.symm, hkeeps.cached⟩, fun k flag hk => ?_⟩
  change asCached _ ((read.registry.entries.foldl cacheDefault read).cache.get k) = _
  rw [hcache k flag hk, initialStatus, status]
  cases ownOverride config k with
  | some st => exact asCached_value _ st
  | none =>
    cases f.cache.get k with
    | none => exact asCached_value _ _
    | some v => rfl

end Init

end Ingress

end VeriNode
