import VeriNode.Config.Loader

/-!
# The deep merge

`deepMerge` is what its text says, whatever the depth (`deepMerge_eq`). Whatever is merged, the result
has no property of its own called `__proto__` unless its prototype is another (`regular_deepMerge`).
Objects without such a key are merged key by key (`overlay_obj`).
-/

namespace VeriNode

namespace ConfigLoader

open ProtoVal

variable {ν : Type*}

section Depth

variable {n m : ℕ} {r v : ProtoVal ν} {fs : List (String × ProtoVal ν)} {sources : List (ProtoVal ν)}
  {deep deep' : ProtoVal ν → ProtoVal ν → ProtoVal ν}

/-- On values of at most the depth, an object as the second of them, both functions have the same
value, which is no deeper. -/
def AgreeWithin (n : ℕ) (deep deep' : ProtoVal ν → ProtoVal ν → ProtoVal ν) : Prop :=
  ∀ d s, depth d ≤ n → depth s ≤ n → s.isObject = true → deep d s = deep' d s ∧ depth (deep d s) ≤ n

theorem assignFrom_agree (h : AgreeWithin n deep deep') (hr : depth r ≤ n + 1)
    {f : String × ProtoVal ν} (hf : depth f.2 ≤ n) :
    assignFrom deep r f = assignFrom deep' r f ∧ depth (assignFrom deep r f) ≤ n + 1 := by
  unfold assignFrom
  rcases hd : r.read? f.1 with _ | d
  · exact ⟨rfl, depth_write hr hf⟩
  · by_cases hs : f.2.isObject = true
    · have hn : max 1 n = n := max_eq_right ((one_le_depth hs).trans hf)
      obtain ⟨he, hdepth⟩ := h d f.2 (hn ▸ depth_read? hd hr) hf hs
      simp only [hs, if_true]
      exact ⟨by rw [he], depth_write hr hdepth⟩
    · simp only [hs]
      exact ⟨rfl, depth_write hr hf⟩

theorem foldl_assignFrom_agree (h : AgreeWithin n deep deep') (hr : depth r ≤ n + 1)
    (hfs : ∀ f ∈ fs, depth f.2 ≤ n) : fs.foldl (assignFrom deep) r = fs.foldl (assignFrom deep') r
      ∧ depth (fs.foldl (assignFrom deep) r) ≤ n + 1 := by
  induction fs generalizing r with
  | nil => exact ⟨rfl, hr⟩
  | cons f fs ih =>
    obtain ⟨he, hdepth⟩ := assignFrom_agree h hr (hfs f List.mem_cons_self)
    rw [List.foldl_cons, List.foldl_cons, ← he]
    exact ih hdepth fun g hg => hfs g (List.mem_cons_of_mem _ hg)

/-- All properties of the sources, one after the other. -/
def assignAll (deep : ProtoVal ν → ProtoVal ν → ProtoVal ν) (sources : List (ProtoVal ν))
    (r : ProtoVal ν) : ProtoVal ν :=
  sources.foldl (fun result source => source.entries.foldl (assignFrom deep) result) r

theorem assignAll_agree (h : AgreeWithin n deep deep') (hr : depth r ≤ n + 1)
    (hs : ∀ s ∈ sources, depth s ≤ n + 1) : assignAll deep sources r = assignAll deep' sources r
      ∧ depth (assignAll deep sources r) ≤ n + 1 := by
  induction sources generalizing r with
  | nil => exact ⟨rfl, hr⟩
  | cons s sources ih =>
    have hentries : ∀ f ∈ s.entries, depth f.2 ≤ n := fun f hf =>
      (depth_entries hf).trans (Nat.sub_le_of_le_add (hs s List.mem_cons_self))
    obtain ⟨he, hdepth⟩ := foldl_assignFrom_agree h hr hentries
    unfold assignAll at ih ⊢
    rw [List.foldl_cons, List.foldl_cons, ← he]
    exact ih hdepth fun t ht => hs t (List.mem_cons_of_mem _ ht)

theorem mergeWithin_succ : mergeWithin (n + 1) sources
    = assignAll (fun d s => mergeWithin n [d, s]) sources .empty := rfl

theorem entries_of_depth (h : depth v ≤ 0) : v.entries = [] := by
  refine List.eq_nil_iff_forall_not_mem.2 fun f hf => ?_
  cases v with
  | obj proto fields =>
    have := one_le_depth (v := .obj proto fields) rfl
    omega
  | json j =>
    cases j with
    | arr items => simp [depth, jsonDepth] at h
    | _ => cases hf
  | _ => cases hf

theorem assignAll_of_depth (h : ∀ s ∈ sources, depth s ≤ 0) : assignAll deep sources r = r := by
  induction sources with
  | nil => rfl
  | cons s sources ih =>
    unfold assignAll at ih ⊢
    rw [List.foldl_cons, entries_of_depth (h s List.mem_cons_self)]
    exact ih fun t ht => h t (List.mem_cons_of_mem _ ht)

theorem mergeWithin_agree (h : ∀ s ∈ sources, depth s ≤ n) :
    mergeWithin (n + 1) sources = mergeWithin n sources
      ∧ (1 ≤ n → depth (mergeWithin n sources) ≤ n) := by
  induction n generalizing sources with
  | zero => exact ⟨assignAll_of_depth h, fun h => by omega⟩
  | succ n ih =>
    have hagree : AgreeWithin n (fun d s : ProtoVal ν => mergeWithin n [d, s])
        fun d s => mergeWithin (n + 1) [d, s] := by
      intro d s hd hs hobj
      have hpair : ∀ t ∈ [d, s], depth t ≤ n := by simp [hd, hs]
      obtain ⟨he, hdepth⟩ := ih hpair
      exact ⟨he.symm, hdepth ((one_le_depth hobj).trans hs)⟩
    obtain ⟨he, hdepth⟩ := assignAll_agree hagree (r := .empty) (Nat.succ_le_succ (Nat.zero_le n)) h
    exact ⟨he.symm, fun _ => hdepth⟩

theorem le_maxDepth {s : ProtoVal ν} (h : s ∈ sources) :
    depth s ≤ (sources.map depth).foldr max 0 := by
  induction sources with
  | nil => cases h
  | cons t sources ih =>
    rw [List.map_cons, List.foldr_cons]
    rcases List.mem_cons.1 h with rfl | h
    · exact le_max_left _ _
    · exact le_max_of_le_right (ih h)

theorem maxDepth_le (h : ∀ s ∈ sources, depth s ≤ n) : (sources.map depth).foldr max 0 ≤ n := by
  induction sources with
  | nil => exact Nat.zero_le n
  | cons s sources ih =>
    exact max_le (h s List.mem_cons_self) (ih fun t ht => h t (List.mem_cons_of_mem _ ht))

theorem mergeWithin_eq (h : ∀ s ∈ sources, depth s ≤ n) :
    mergeWithin n sources = deepMerge sources := by
  induction n, maxDepth_le h using Nat.le_induction with
  | base => rfl
  | succ n hn ih =>
    have hle : ∀ s ∈ sources, depth s ≤ n := fun s hs => (le_maxDepth hs).trans hn
    rw [(mergeWithin_agree hle).1, ih hle]

theorem deepMerge_eq (sources : List (ProtoVal ν)) :
    deepMerge sources = assignAll (fun d s => deepMerge [d, s]) sources .empty := by
  have hle : ∀ s ∈ sources, depth s ≤ (sources.map depth).foldr max 0 + 1 :=
    fun s hs => (le_maxDepth hs).trans (Nat.le_succ _)
  rw [← mergeWithin_eq hle, mergeWithin_succ]
  refine (assignAll_agree (fun d s hd hs hobj => ?_) (Nat.succ_le_succ (Nat.zero_le _)) hle).1
  have hpair : ∀ t ∈ [d, s], depth t ≤ (sources.map depth).foldr max 0 := by simp [hd, hs]
  exact ⟨mergeWithin_eq hpair, (mergeWithin_agree hpair).2 ((one_le_depth hobj).trans hs)⟩

end Depth

section Levels

variable {k : String} {v r : ProtoVal ν} {fs gs : List (String × ProtoVal ν)}
  {deep : ProtoVal ν → ProtoVal ν → ProtoVal ν} {sources : List (ProtoVal ν)}

/-- An object that has no key of its own called `__proto__`, if it is a plain one. -/
def Regular (r : ProtoVal ν) : Prop :=
  ∃ proto fs, r = .obj proto fs ∧ (proto = .objectPrototype → fs.lookup "__proto__" = none)

theorem regular_write (h : Regular r) (key : String) (v : ProtoVal ν) : Regular (r.write key v) := by
  obtain ⟨proto, fs, rfl, hproto⟩ := h
  rw [write]
  by_cases hkey : key = "__proto__"
  · by_cases haccessor : (ProtoVal.obj proto fs).hasAccessor = true
    · have hnone : fs.lookup "__proto__" = none := by
        rw [hasAccessor, Bool.and_eq_true] at haccessor
        exact Option.isNone_iff_eq_none.1 haccessor.1
      simp only [hkey, haccessor, decide_true, Bool.and_self, if_true]
      split_ifs
      · exact ⟨v, fs, rfl, fun _ => hnone⟩
      · exact ⟨proto, fs, rfl, hproto⟩
    · refine ⟨proto, assignKey key v fs, by simp [haccessor], fun hp => ?_⟩
      -- a plain object without such a key has the accessor
      rw [hp, hasAccessor, hproto hp] at haccessor
      exact absurd rfl haccessor
  · refine ⟨proto, assignKey key v fs, by simp [hkey], fun hp => ?_⟩
    rw [lookup_assignKey, if_neg (Ne.symm hkey), hproto hp]

theorem regular_assignAll (h : Regular r) : Regular (assignAll deep sources r) := by
  have hfields (fs : List (String × ProtoVal ν)) : ∀ {r : ProtoVal ν}, Regular r →
      Regular (fs.foldl (assignFrom deep) r) := by
    induction fs with
    | nil => exact fun h => h
    | cons f fs ih => exact fun h => ih (regular_write h _ _)
  induction sources generalizing r with
  | nil => exact h
  | cons s sources ih => exact ih (hfields s.entries h)

theorem regular_deepMerge (sources : List (ProtoVal ν)) : Regular (deepMerge sources) := by
  rw [deepMerge_eq]
  exact regular_assignAll ⟨.objectPrototype, [], rfl, fun _ => rfl⟩

theorem Regular.isObject (h : Regular r) : r.isObject = true := by
  obtain ⟨proto, fs, rfl, -⟩ := h
  rfl

/-- A plain object with these properties, no key twice and none called `__proto__`. -/
structure Simple (fs : List (String × ProtoVal ν)) : Prop where
  nodup : (fs.map Prod.fst).Nodup
  noProto : fs.lookup "__proto__" = none

theorem simple_nil : Simple ([] : List (String × ProtoVal ν)) := ⟨List.nodup_nil, rfl⟩

theorem map_fst_assignKey (k : String) (v : ProtoVal ν) (fs : List (String × ProtoVal ν)) :
    (assignKey k v fs).map Prod.fst
      = if k ∈ fs.map Prod.fst then fs.map Prod.fst else fs.map Prod.fst ++ [k] := by
  induction fs with
  | nil => rfl
  | cons f fs ih =>
    rw [assignKey]
    by_cases hk : f.1 = k
    · simp [hk]
    · have hk' : k ≠ f.1 := Ne.symm hk
      simp only [if_neg hk, List.map_cons, ih, List.mem_cons, hk', false_or]
      split_ifs <;> rfl

theorem Simple.assignKey (h : Simple fs) (hk : k ≠ "__proto__") (v : ProtoVal ν) :
    Simple (assignKey k v fs) := by
  refine ⟨?_, ?_⟩
  · rw [map_fst_assignKey]
    split_ifs with hmem
    · exact h.nodup
    · exact List.nodup_append_comm.1 (List.nodup_cons.2 ⟨hmem, h.nodup⟩)
  · rw [lookup_assignKey, if_neg (Ne.symm hk), h.noProto]

theorem write_simple (hk : k ≠ "__proto__") (v : ProtoVal ν) :
    (ProtoVal.obj .objectPrototype fs).write k v = .obj .objectPrototype (assignKey k v fs) := by
  simp [write, hk]

theorem read?_simple (hk : k ≠ "__proto__") :
    (ProtoVal.obj .objectPrototype fs).read? k = (fs.lookup k).bind object? := by
  rw [read?, readFrom]
  cases fs.lookup k with
  | none => simp [readFrom, inherited, hk]
  | some v => rfl

/-- What a value makes of what is there. -/
def mergeInto (there : Option (ProtoVal ν)) (v : ProtoVal ν) : ProtoVal ν :=
  match there.bind object? with
  | some d => if v.isObject then deepMerge [d, v] else v
  | none => v

theorem assignFrom_simple (hk : k ≠ "__proto__") (v : ProtoVal ν) :
    assignFrom (fun d s => deepMerge [d, s]) (.obj .objectPrototype gs) (k, v)
      = .obj .objectPrototype (assignKey k (mergeInto (gs.lookup k) v) gs) := by
  rw [assignFrom, read?_simple hk, write_simple hk]
  rfl

theorem foldl_assignFrom_simple (hfs : Simple fs) (hgs : Simple gs) :
    ∃ rs, fs.foldl (assignFrom fun d s => deepMerge [d, s]) (.obj .objectPrototype gs)
        = .obj .objectPrototype rs ∧ Simple rs
      ∧ ∀ k, rs.lookup k = match fs.lookup k with
          | some v => some (mergeInto (gs.lookup k) v)
          | none => gs.lookup k := by
  induction fs generalizing gs with
  | nil => exact ⟨gs, rfl, hgs, fun k => rfl⟩
  | cons f fs ih =>
    obtain ⟨l, v⟩ := f
    obtain ⟨hnotin, hnodup⟩ := List.nodup_cons.1 hfs.nodup
    have hproto := hfs.noProto
    rw [Fields.lookup_cons] at hproto
    have hl : l ≠ "__proto__" := by
      rintro rfl
      simp at hproto
    have hrest : Simple fs := by
      rw [if_neg (Ne.symm hl)] at hproto
      exact ⟨hnodup, hproto⟩
    rw [List.foldl_cons, assignFrom_simple hl]
    obtain ⟨rs, he, hrs, hlookup⟩ := ih hrest (hgs.assignKey hl (mergeInto (gs.lookup l) v))
    refine ⟨rs, he, hrs, fun k => ?_⟩
    rw [hlookup, Fields.lookup_cons, lookup_assignKey]
    by_cases hk : k = l
    · have hnone : fs.lookup k = none := Fields.lookup_eq_none_iff_not_mem.2 (hk ▸ hnotin)
      rw [hnone, if_pos hk, if_pos hk, hk]
    · rw [if_neg hk, if_neg hk]

theorem deepMerge_simple (hfs : Simple fs) (hgs : Simple gs) :
    ∃ rs, deepMerge [.obj .objectPrototype gs, .obj .objectPrototype fs] = .obj .objectPrototype rs
      ∧ Simple rs
      ∧ ∀ k, rs.lookup k = match fs.lookup k with
          | some v => some (mergeInto (gs.lookup k) v)
          | none => gs.lookup k := by
  obtain ⟨gs', hg, hgs', hlookup⟩ := foldl_assignFrom_simple hgs simple_nil
  obtain ⟨rs, hr, hrs, hlookup'⟩ := foldl_assignFrom_simple hfs hgs'
  refine ⟨rs, ?_, hrs, fun k => ?_⟩
  · rw [deepMerge_eq, ← hr, ← hg]
    rfl
  · have hcopied : gs'.lookup k = gs.lookup k := by
      rw [hlookup]
      cases gs.lookup k <;> rfl
    rw [hlookup', hcopied]

end Levels

section Overlays

variable {k : String} {q : List String} {v r : ProtoVal ν} {vs : List (ProtoVal ν)}

/-- Objects merged, that which overrides the others coming first. One alone is itself. -/
def overlay : List (ProtoVal ν) → ProtoVal ν
  | [] => .empty
  | [v] => v
  | v :: w :: vs => deepMerge [overlay (w :: vs), v]

theorem mergeConfigs_reverse (configs : List (ProtoVal ν)) :
    mergeConfigs configs.reverse = overlay (configs ++ [.empty]) := by
  rw [mergeConfigs, List.foldl_reverse]
  induction configs with
  | nil => rfl
  | cons c configs ih =>
    rw [List.foldr_cons, ih, List.cons_append]
    rcases configs with _ | ⟨d, configs⟩ <;> rfl

theorem regular_overlay (h : 2 ≤ vs.length) : Regular (overlay vs) := by
  match vs, h with
  | v :: w :: vs, _ => exact regular_deepMerge _

theorem isObject_overlay (hne : vs ≠ []) (h : ∀ v ∈ vs, v.isObject = true) :
    (overlay vs).isObject = true := by
  match vs, hne with
  | [v], _ => exact h v List.mem_cons_self
  | v :: w :: vs, _ => exact (regular_deepMerge _).isObject

theorem owns_cons (k : String) (v : ProtoVal ν) (vs : List (ProtoVal ν)) :
    (v :: vs).filterMap (·.own k) = (v.own k).toList ++ vs.filterMap (·.own k) := by
  rw [List.filterMap_cons]
  cases v.own k <;> rfl

/-- The values at a key that are merged there: objects, down to the first value that is none. -/
def objectsAt (k : String) (vs : List (ProtoVal ν)) : List (ProtoVal ν) :=
  (vs.filterMap (·.own k)).takeWhile (·.isObject)

/-- What the first of the values at a key and those after it come to. -/
def overlayAt (values : List (ProtoVal ν)) : Option (ProtoVal ν) :=
  match values with
  | [] => none
  | v :: _ => some (if v.isObject then overlay (values.takeWhile (·.isObject)) else v)

theorem overlayAt_cons (v : ProtoVal ν) (values : List (ProtoVal ν)) :
    overlayAt (v :: values) = some (mergeInto (overlayAt values) v) := by
  rw [overlayAt]
  by_cases hv : v.isObject = true
  · rw [if_pos hv, List.takeWhile_cons_of_pos hv]
    rcases values with _ | ⟨w, values⟩
    · rfl
    · by_cases hw : w.isObject = true
      · rw [List.takeWhile_cons_of_pos hw]
        have hobj : (overlay (w :: values.takeWhile (·.isObject))).isObject = true := by
          refine isObject_overlay (List.cons_ne_nil _ _) fun u hu => ?_
          rcases List.mem_cons.1 hu with rfl | hu
          · exact hw
          · exact List.all_eq_true.1 List.all_takeWhile u hu
        simp [overlayAt, hw, mergeInto, object?, hobj, hv, overlay]
      · rw [List.takeWhile_cons_of_neg hw]
        simp [overlayAt, hw, mergeInto, object?, overlay]
  · rw [if_neg hv, mergeInto]
    cases (overlayAt values).bind object? with
    | none => rfl
    | some d => simp [hv]

theorem overlay_simple (hne : vs ≠ [])
    (h : ∀ v ∈ vs, ∃ fs, v = .obj .objectPrototype fs ∧ Simple fs) :
    ∃ rs, overlay vs = .obj .objectPrototype rs ∧ Simple rs
      ∧ ∀ k, rs.lookup k = overlayAt (vs.filterMap (·.own k)) := by
  induction vs with
  | nil => exact absurd rfl hne
  | cons v vs ih =>
    obtain ⟨fs, rfl, hfs⟩ := h v List.mem_cons_self
    rcases vs with _ | ⟨w, vs⟩
    · refine ⟨fs, rfl, hfs, fun k => ?_⟩
      rw [List.filterMap_cons, List.filterMap_nil, own]
      rcases hk : fs.lookup k with _ | u
      · rfl
      · rw [overlayAt_cons]
        rfl
    · obtain ⟨gs, hg, hgs, hlookup⟩ := ih (List.cons_ne_nil _ _)
        fun u hu => h u (List.mem_cons_of_mem _ hu)
      obtain ⟨rs, hr, hrs, hlookup'⟩ := deepMerge_simple hfs hgs
      refine ⟨rs, ?_, hrs, fun k => ?_⟩
      · rw [overlay, hg, hr]
      · rw [hlookup', hlookup]
        rcases hk : fs.lookup k with _ | u
        · have hown : (ProtoVal.obj .objectPrototype fs).own k = none := hk
          rw [owns_cons k (.obj .objectPrototype fs), hown, Option.toList_none, List.nil_append]
        · have hown : (ProtoVal.obj .objectPrototype fs).own k = some u := hk
          rw [owns_cons k (.obj .objectPrototype fs), hown, Option.toList_some,
            List.singleton_append, overlayAt_cons]

end Overlays

end ConfigLoader

end VeriNode
