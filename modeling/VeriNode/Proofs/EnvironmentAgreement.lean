import VeriNode.Proofs.Environment
import Mathlib.Data.Finset.Card

/-!
# Which configurations come back from their variables

What a run leaves is set by its variables (`sound_load`). If it is the configuration, every leaf is set
by the variable of one, so the variables permute the leaves; two that read the same are set at one
place, and each leads back to its own (`found_of_permuted`). No array comes back from its text
(`splitItems_stringifyItems_ne`).
-/

namespace VeriNode

namespace Config

open JsVal

variable {ν : Type*} {cases : CaseMapping} {numbers : Numbers ν}

section Assigned

variable {p : List String} {v w : JsVal ν} {fs : List (String × JsVal ν)}

/-- What may stand at a place of the result: what variables are read as at the places these lead to,
and objects above them, by no name that is inherited. -/
structure Fits (D : List String → Prop) (q : List String) (w : JsVal ν) : Prop where
  proto : "__proto__" ∉ q
  solid : w ≠ .undefined ∧ w ≠ .json .null
  above : (∃ hs, w = .obj hs) → ∀ k ∈ q, k ∉ inherited
  leaf : (∀ hs, w ≠ .obj hs) → D q

/-- It is so at every place of an object. -/
def Sound (D : List String → Prop) (fs : List (String × JsVal ν)) : Prop :=
  ∀ q w, follow q (.obj fs) = some w → Fits D q w

variable {D : List String → Prop}

theorem Fits.root (fs : List (String × JsVal ν)) : Fits D [] (.obj fs) where
  proto := List.not_mem_nil
  solid := by simp
  above _ k hk := absurd hk List.not_mem_nil
  leaf h := absurd rfl (h fs)

theorem Sound.nil : Sound D ([] : List (String × JsVal ν)) := by
  rintro (_ | ⟨k, q⟩) w hw
  · rw [← Option.some.inj hw]
    exact .root []
  · cases hw

theorem Sound.mono {D' : List String → Prop} (h : Sound D fs) (hD : ∀ q, D q → D' q) :
    Sound D' fs := fun q w hw =>
  { proto := (h q w hw).proto
    solid := (h q w hw).solid
    above := (h q w hw).above
    leaf := fun hleaf => hD q ((h q w hw).leaf hleaf) }

theorem Sound.assign {k : String} (h : Sound D fs)
    (hv : ∀ q w, follow q v = some w → Fits D (k :: q) w) : Sound D (assign k v fs) := by
  rintro (_ | ⟨k', q⟩) w hw
  · rw [← Option.some.inj hw]
    exact .root _
  · rw [follow_obj] at hw
    by_cases hk : k' = k
    · subst hk
      rw [own_assign_self] at hw
      exact hv q w hw
    · rw [own_assign_ne hk] at hw
      exact h (k' :: q) w hw

theorem setPath_arr {items : List (Json ν)} (hp : p ≠ [])
    (h : setPath p v (.json (.arr items)) = some w) : ∃ items', w = .json (.arr items') := by
  have hbind : ∀ (o : Option (JsVal ν)) (k : String),
      (o.bind fun inner => assignAt k inner (.json (.arr items))) = some w →
      ∃ items', w = .json (.arr items') := by
    intro o k ho
    obtain ⟨inner, -, hassign⟩ := Option.bind_eq_some_iff.1 ho
    exact ⟨_, (Option.some.inj hassign).symm⟩
  rcases p with _ | ⟨k, _ | ⟨k', p⟩⟩
  · exact absurd rfl hp
  · exact ⟨_, (Option.some.inj h).symm⟩
  · unfold setPath at h
    split at h
    · exact hbind _ _ h
    · exact hbind _ _ h
    · exact ⟨items, (Option.some.inj h).symm⟩
    · exact hbind _ _ h

theorem setPath_primitive {j : Json ν} (hp : p ≠ []) (hj : ∀ items, j ≠ .arr items) :
    setPath p v (.json j) = none := by
  have hassign : ∀ k inner, assignAt k inner (.json j) = none := by
    intro k inner
    cases j with
    | arr items => exact absurd rfl (hj items)
    | _ => rfl
  have hchild : ∀ k, child k (.json j) = .undefined := by
    intro k
    cases j with
    | arr items => exact absurd rfl (hj items)
    | _ => rfl
  rcases p with _ | ⟨k, _ | ⟨k', p⟩⟩
  · exact absurd rfl hp
  · exact hassign k v
  · rw [setPath, hchild]
    · cases setPath (k' :: p) v (.obj []) with
      | none => rfl
      | some inner => exact hassign k inner
    · simp

/-- An assignment of a value that is no object keeps a result sound. -/
theorem Sound.setPath {new : JsVal ν} (h : Sound D fs) (hp : p ≠ []) (hD : D p)
    (hv : v ≠ .undefined ∧ v ≠ .json .null) (hleaf : ∀ hs, v ≠ .obj hs)
    (hset : VeriNode.Config.setPath p v (.obj fs) = some new) :
    ∃ gs, new = .obj gs ∧ Sound D gs := by
  induction p generalizing D fs new with
  | nil => exact absurd rfl hp
  | cons k p ih =>
    rcases p with _ | ⟨k', p⟩
    · by_cases hproto : k = "__proto__"
      · refine ⟨fs, ?_, h⟩
        rw [VeriNode.Config.setPath, assignAt, if_pos hproto] at hset
        exact (Option.some.inj hset).symm
      · rw [VeriNode.Config.setPath, assignAt_obj fs hproto] at hset
        refine ⟨_, (Option.some.inj hset).symm, h.assign fun q w hw => ?_⟩
        rcases q with _ | ⟨l, q⟩
        · rw [← Option.some.inj hw]
          refine ⟨?_, hv, ?_, fun _ => hD⟩
          · simpa using Ne.symm hproto
          · rintro ⟨hs, rfl⟩
            exact absurd rfl (hleaf hs)
        · rw [follow_of_ne_obj hleaf] at hw
          cases hw
    · -- an object within, that is there or new, is assigned back
      have hback : ∀ inner, Sound (fun q => D (k :: q)) inner → k ≠ "__proto__" → k ∉ inherited →
          ((VeriNode.Config.setPath (k' :: p) v (.obj inner)).bind fun inner =>
            assignAt k inner (.obj fs)) = some new → ∃ gs, new = .obj gs ∧ Sound D gs := by
        intro inner hinner hproto hinh hbind
        obtain ⟨i, hi, hassign⟩ := Option.bind_eq_some_iff.1 hbind
        obtain ⟨gs, rfl, hgs⟩ := ih hinner (List.cons_ne_nil _ _) hD hi
        rw [assignAt_obj fs hproto] at hassign
        refine ⟨_, (Option.some.inj hassign).symm, h.assign fun q w hw => ?_⟩
        have hfit := hgs q w hw
        refine ⟨?_, hfit.solid, fun hobj => ?_, hfit.leaf⟩
        · simpa using ⟨Ne.symm hproto, hfit.proto⟩
        · rw [List.forall_mem_cons]
          exact ⟨hinh, hfit.above hobj⟩
      rw [VeriNode.Config.setPath, child] at hset
      · rcases hk : own k fs with _ | w
        · rw [hk] at hset
          dsimp only at hset
          split_ifs at hset with hinh
          · exact ⟨fs, (Option.some.inj hset).symm, h⟩
          · rw [List.mem_cons, not_or] at hinh
            exact hback [] .nil hinh.1 hinh.2 hset
        · rw [hk] at hset
          have hat : follow [k] (.obj fs) = some w := by
            rw [follow_obj, hk]
            rfl
          have hfit := h [k] w hat
          cases w with
          | undefined => exact absurd rfl hfit.solid.1
          | func name => exact ⟨fs, (Option.some.inj hset).symm, h⟩
          | obj inner =>
            refine hback inner (fun q w hw => ?_) (by simpa [eq_comm] using hfit.proto)
              (hfit.above ⟨inner, rfl⟩ k (List.mem_singleton_self _)) hset
            have hin := h (k :: q) w (by rw [follow_obj, hk, Option.bind_some, hw])
            exact ⟨fun hq => hin.proto (List.mem_cons_of_mem _ hq), hin.solid,
              fun hobj l hl => hin.above hobj l (List.mem_cons_of_mem _ hl), hin.leaf⟩
          | json j =>
            cases j with
            | null => exact absurd rfl hfit.solid.2
            | arr items =>
              obtain ⟨i, hi, hassign⟩ := Option.bind_eq_some_iff.1 hset
              obtain ⟨items', rfl⟩ := setPath_arr (List.cons_ne_nil _ _) hi
              rw [assignAt_obj fs (by simpa [eq_comm] using hfit.proto)] at hassign
              refine ⟨_, (Option.some.inj hassign).symm, h.assign fun q w hw => ?_⟩
              rcases q with _ | ⟨l, q⟩
              · rw [← Option.some.inj hw]
                exact ⟨hfit.proto, by simp, by simp, fun _ => hfit.leaf (by simp)⟩
              · cases hw
            | _ =>
              obtain ⟨i, hi, -⟩ := Option.bind_eq_some_iff.1 hset
              rw [setPath_primitive (List.cons_ne_nil _ _) (by simp)] at hi
              cases hi
      · simp

end Assigned

section Converse

open Assignment

variable {schema : EnvSchema} {config : List (String × Assignment ν)} {env : Env}
  {fs : List (String × JsVal ν)} {p : List String}

variable (cases schema) in
/-- The place that a leaf's variable sets; no keys are the key `undefined`. -/
def dest (p : List String) : List String :=
  let path := actualPath cases schema (configKey cases p)
  if path = [] then ["undefined"] else path

theorem setPath_nil (v current : JsVal ν) :
    setPath [] v current = setPath ["undefined"] v current := rfl

theorem parsedValue_solid (key value : String) :
    parsedValue cases numbers schema key value ≠ .undefined
      ∧ parsedValue cases numbers schema key value ≠ .json .null := by
  unfold parsedValue
  dsimp only
  split
  · rename_i type _
    cases type <;> simp [parseEnvValue, stringArray]
  · unfold inferEnvValue
    split_ifs <;> simp

theorem sound_load (env : Env)
    (henv : ∀ var ∈ env, ∃ e ∈ leaves (.object config), var = entry cases numbers e)
    {result : JsVal ν} (h : loadEnvironment cases numbers schema env = some result) :
    ∃ fs, result = .obj fs
      ∧ Sound (fun q => ∃ e ∈ leaves (.object config), q = dest cases schema e.1) fs := by
  induction env using List.reverseRecOn generalizing result with
  | nil => exact ⟨[], (Option.some.inj h).symm, .nil⟩
  | append_singleton env var ih =>
    rw [loadEnvironment_append] at h
    obtain ⟨old, hold, hvar⟩ := Option.bind_eq_some_iff.1 h
    obtain ⟨fs, rfl, hfs⟩ := ih (fun var hvar => henv var (List.mem_append_left _ hvar)) hold
    obtain ⟨e, he, rfl⟩ := henv var (List.mem_append_right _ (List.mem_singleton_self _))
    rw [loadVariable_entry (ne_nil_of_mem he)] at hvar
    have hdest : setPath (dest cases schema e.1) (loadedValue cases numbers schema e) (.obj fs)
        = some result := by
      rw [dest]
      split_ifs with hnil
      · rw [hnil, setPath_nil] at hvar
        exact hvar
      · exact hvar
    refine hfs.setPath ?_ ⟨e, he, rfl⟩ (parsedValue_solid _ _) (loadedValue_ne_obj e) hdest
    rw [dest]
    split_ifs with hnil
    · exact List.cons_ne_nil _ _
    · exact hnil

theorem follow_of_same (ha : Assigns numbers schema (.object config))
    (h : Same (.obj fs) (.obj (toVals config))) {e : List String × Leaf ν}
    (he : e ∈ leaves (.object config)) : follow e.1 (.obj fs) = some e.2.toVal := by
  have hq := h e.1
  have hconfig : follow e.1 (.obj (toVals config)) = some e.2.toVal := by
    have hat := follow_toVal e.1 (.object config)
    rw [(mem_leaves_iff ha).1 he] at hat
    exact hat
  have hnode : ∀ w : JsVal ν, node w = node e.2.toVal → w = e.2.toVal := by
    intro w hw
    have hv : node e.2.toVal = e.2.toVal := by cases e.2 <;> rfl
    rw [hv] at hw
    cases w with
    | obj hs => exact absurd hw.symm (toVal_leaf_ne e.2 [])
    | _ => exact hw
  rw [shape, shape, hconfig, Option.map_some] at hq
  obtain ⟨w, hw, hwv⟩ := Option.map_eq_some_iff.1 hq
  rw [hw, hnode w hwv]

theorem injOn_of_subset_image {α : Type*} [DecidableEq α] {L : Finset α} {f : α → α} (h : L ⊆ L.image f) :
    Set.InjOn f L ∧ ∀ x ∈ L, f x ∈ L := by
  have heq : L = L.image f := Finset.eq_of_subset_of_card_le h Finset.card_image_le
  refine ⟨Finset.injOn_of_card_image_eq (congrArg Finset.card heq).symm, fun x hx => ?_⟩
  rw [heq]
  exact Finset.mem_image_of_mem f hx

theorem flatten_splitOn (c : Char) (cs : List Char) :
    (cs.splitOn c).flatten = cs.filter (· ≠ c) := by
  induction cs with
  | nil => simp
  | cons d cs ih =>
    rw [List.splitOn_cons_eq_if_modifyHead, List.filter_cons]
    obtain ⟨x, xs, hx⟩ := List.exists_cons_of_ne_nil (List.splitOn_ne_nil c cs)
    rw [hx] at ih ⊢
    by_cases hd : d = c
    · rw [if_pos (beq_iff_eq.2 hd), if_neg (by simpa using hd), ← ih]
      rfl
    · rw [if_neg (by simpa using hd), if_pos (decide_eq_true hd), ← ih]
      rfl

theorem lower_concat_splitPath (hp : p ≠ []) :
    cases.lower ("".intercalate (splitPath (configKey cases p))) = target cases p := by
  have hflat : ∀ l : List (List Char),
      (l.map String.ofList).flatMap String.toList = l.flatten := by
    intro l
    induction l with
    | nil => rfl
    | cons cs l ih => rw [List.map_cons, List.flatMap_cons, ih, String.toList_ofList, List.flatten_cons]
  have hkeys : ("".intercalate (splitPath (configKey cases p))).toList
      = (stripSeparators (configKey cases p)).toList := by
    rw [toList_concat, splitPath, hflat, flatten_splitOn, stripSeparators, String.toList_ofList]
    refine List.filter_congr fun c hc => ?_
    have hne : c ≠ '_' := fun h => not_mem_configKey p (h ▸ hc)
    simp [hne]
  rw [← target_eq hp, String.toList_injective hkeys]

theorem stripSeparators_intercalate (h : ∀ k ∈ p, ∀ c ∈ ['.', '_'], c ∉ k.toList) :
    stripSeparators ("_".intercalate p) = "".intercalate p := by
  rw [← String.toList_inj, toList_concat, stripSeparators, String.toList_ofList]
  have hkeep : ∀ k ∈ p, k.toList.filter (fun c => c ≠ '.' && c ≠ '_') = k.toList := by
    intro k hk
    rw [List.filter_eq_self]
    intro c hc
    have hdot : c ≠ '.' := fun he => h k hk '.' (by simp) (he ▸ hc)
    have hunder : c ≠ '_' := fun he => h k hk '_' (by simp) (he ▸ hc)
    simp [hdot, hunder]
  clear h
  induction p with
  | nil => rfl
  | cons k p ih =>
    rw [List.forall_mem_cons] at hkeep
    rcases p with _ | ⟨k', p⟩
    · rw [String.intercalate_singleton, hkeep.1, List.flatMap_cons, List.flatMap_nil, List.append_nil]
    · have hunder : ("_".toList).filter (fun c => c ≠ '.' && c ≠ '_') = [] := rfl
      rw [String.intercalate_cons_cons, String.toList_append, String.toList_append,
        List.filter_append, List.filter_append, hkeep.1, hunder, ih hkeep.2, List.append_nil,
        ← List.flatMap_cons]

variable (cases) in
/-- Upper case is undone by lower case, as far as the keys of the path go. -/
def CaseReturns (p : List String) : Prop :=
  target cases p = cases.lower (stripSeparators ("_".intercalate p))

theorem dest_of_search (hp : p ≠ []) {r : List String}
    (h : search cases (target cases p) schema [] = some r) :
    dest cases schema p = if r = [] then ["undefined"] else r := by
  have hpath : actualPath cases schema (configKey cases p) = r := by
    rw [actualPath, findActualPath_configKey schema hp, h]
    rfl
  rw [dest, hpath]

theorem exists_search (hp : p ≠ []) {s : EnvSchema} (hat : schema.at (dest cases schema p) = some s) :
    ∃ r, search cases (target cases p) schema [] = some r := by
  rw [← Option.isSome_iff_exists]
  rcases h : search cases (target cases p) schema [] with _ | r
  · have hpath : actualPath cases schema (configKey cases p) = splitPath (configKey cases p) := by
      rw [actualPath, findActualPath_configKey schema hp, h]
      rfl
    have hdest : dest cases schema p = splitPath (configKey cases p) := by
      rw [dest, hpath]
      exact if_neg (splitPath_ne_nil _)
    rw [hdest] at hat
    have ht : cases.lower ("".intercalate ([] ++ splitPath (configKey cases p))) = target cases p := by
      rw [List.nil_append]
      exact lower_concat_splitPath hp
    rw [← h]
    exact search_isSome hat ht
  · rfl

theorem separators_dest (hp : p ≠ []) {r : List String}
    (h : search cases (target cases p) schema [] = some r) :
    ∀ k ∈ dest cases schema p, ∀ c ∈ ['.', '_'], c ∉ k.toList := by
  rw [dest_of_search hp h]
  split_ifs
  · simp
  · exact fun k hk c hc => separators_of_found h hc hk

/-- Where the variables permute the leaves, each leads back to its own. -/
theorem found_of_permuted (ha : Assigns numbers schema (.object config))
    (hcase : ∀ e ∈ leaves (.object config), CaseReturns cases e.1)
    (hset : ∀ e ∈ leaves (.object config),
      ∃ e' ∈ leaves (.object config), e.1 = dest cases schema e'.1)
    (hmaps : ∀ e ∈ leaves (.object config),
      ∃ e' ∈ leaves (.object config), e'.1 = dest cases schema e.1)
    (hinj : ∀ e ∈ leaves (.object config), ∀ e' ∈ leaves (.object config),
      dest cases schema e.1 = dest cases schema e'.1 → e.1 = e'.1)
    {e : List String × Leaf ν} (he : e ∈ leaves (.object config)) :
    search cases (target cases e.1) schema [] = some e.1 := by
  have hfound : ∀ e ∈ leaves (.object config),
      ∃ r, search cases (target cases e.1) schema [] = some r := by
    intro e he
    obtain ⟨e', he', hdest⟩ := hmaps e he
    obtain ⟨type, hat, -⟩ := exists_at ha he'
    exact exists_search (ne_nil_of_mem he) (hdest ▸ hat)
  -- so no leaf has a separator in its keys, and reads as it is written
  have htarget : ∀ e ∈ leaves (.object config),
      target cases e.1 = cases.lower ("".intercalate e.1) := by
    intro e he
    obtain ⟨e', he', hdest⟩ := hset e he
    obtain ⟨r, hr⟩ := hfound e' he'
    rw [hcase e he, stripSeparators_intercalate]
    rw [hdest]
    exact separators_dest (ne_nil_of_mem he') hr
  -- leaves that read the same are set at the same place
  have hsame : ∀ e ∈ leaves (.object config), ∀ e' ∈ leaves (.object config),
      target cases e.1 = target cases e'.1 → e.1 = e'.1 := by
    intro e he e' he' ht
    obtain ⟨r, hr⟩ := hfound e he
    refine hinj e he e' he' ?_
    rw [dest_of_search (ne_nil_of_mem he) hr, dest_of_search (ne_nil_of_mem he') (ht ▸ hr)]
  have hself : ∀ e ∈ leaves (.object config), ∀ r, r ≠ [] →
      search cases (target cases e.1) schema [] = some r → r = e.1 := by
    intro e he r hnil hr
    obtain ⟨e', he', hdest⟩ := hmaps e he
    rw [dest_of_search (ne_nil_of_mem he) hr, if_neg hnil] at hdest
    rw [← hdest]
    refine hsame e' he' e he ?_
    rw [htarget e' he', hdest, lower_of_search schema hr]
  obtain ⟨r, hr⟩ := hfound e he
  rcases eq_or_ne r [] with rfl | hnil
  · -- what reads as nothing is set at `undefined`, which is a leaf that reads otherwise
    exfalso
    obtain ⟨e', he', hdest⟩ := hmaps e he
    rw [dest_of_search (ne_nil_of_mem he) hr, if_pos rfl] at hdest
    have hundefined : target cases e'.1 = "undefined" := by
      rw [htarget e' he', hdest]
      exact cases.lower_letters "undefined" (by simp)
    have hempty : cases.lower "" = "" := cases.lower_letters "" (by simp)
    obtain ⟨r', hr'⟩ := hfound e' he'
    have hr'nil : r' ≠ [] := by
      rintro rfl
      have hlow := lower_of_search schema hr'
      rw [hundefined] at hlow
      exact absurd (hempty.symm.trans hlow) (by decide)
    have hboth : dest cases schema e'.1 = dest cases schema e.1 := by
      rw [dest_of_search (ne_nil_of_mem he') hr', if_neg hr'nil, hself e' he' r' hr'nil hr', hdest,
        dest_of_search (ne_nil_of_mem he) hr, if_pos rfl]
    have heq := hinj e' he' e he hboth
    have hlow := lower_of_search schema hr
    rw [← heq, hundefined] at hlow
    exact absurd (hempty.symm.trans hlow) (by decide)
  · rw [hr, hself e he r hnil hr]

/-- A configuration that is read back is one whose variables lead back to its leaves. -/
theorem reached_of_roundTrip (ha : Assigns numbers schema (.object config))
    (hcase : ∀ e ∈ leaves (.object config), CaseReturns cases e.1)
    (h : RoundTrip cases numbers schema config) : Reached cases schema config := by
  obtain ⟨result, hload, hsame⟩ := h _ (List.Perm.refl _)
  obtain ⟨fs, rfl, hfs⟩ := sound_load _ (fun _ => exists_of_mem_flattenToEnv) hload
  have hfit : ∀ e ∈ leaves (.object config), Fits _ e.1 e.2.toVal := fun e he =>
    hfs e.1 _ (follow_of_same ha hsame he)
  have hset : ∀ e ∈ leaves (.object config),
      ∃ e' ∈ leaves (.object config), e.1 = dest cases schema e'.1 := fun e he =>
    (hfit e he).leaf (toVal_leaf_ne e.2)
  have hmem : ∀ p, p ∈ ((leaves (.object config)).map Prod.fst).toFinset
      ↔ ∃ e ∈ leaves (.object config), e.1 = p := by
    intro p
    rw [List.mem_toFinset, List.mem_map]
  obtain ⟨hinj, hmaps⟩ : Set.InjOn (dest cases schema)
        ((leaves (.object config)).map Prod.fst).toFinset
      ∧ ∀ p ∈ ((leaves (.object config)).map Prod.fst).toFinset,
        dest cases schema p ∈ ((leaves (.object config)).map Prod.fst).toFinset := by
    refine injOn_of_subset_image fun p hp => ?_
    obtain ⟨e, he, rfl⟩ := (hmem p).1 hp
    obtain ⟨e', he', hdest⟩ := hset e he
    rw [hdest]
    exact Finset.mem_image_of_mem _ ((hmem _).2 ⟨e', he', rfl⟩)
  constructor
  · intro e he
    rw [findActualPath_configKey schema (ne_nil_of_mem he)]
    refine found_of_permuted ha hcase hset (fun e he => ?_) (fun e he e' he' hdest => ?_) he
    · exact (hmem _).1 (hmaps e.1 ((hmem _).2 ⟨e, he, rfl⟩))
    · exact hinj ((hmem _).2 ⟨e, he, rfl⟩) ((hmem _).2 ⟨e', he', rfl⟩) hdest
  · intro e he
    refine ⟨(hfit e he).proto, ?_⟩
    have hleaf := follow_of_same ha hsame he
    rw [← List.dropLast_append_getLast (ne_nil_of_mem he), follow_append] at hleaf
    obtain ⟨w, hw, hlast⟩ := Option.bind_eq_some_iff.1 hleaf
    cases w with
    | obj hs => exact (hfs _ _ hw).above ⟨hs, rfl⟩
    | _ => cases hlast

end Converse

section Arrays

open JsString

theorem le_length_dropWhile {b : Char} (hb : isWhitespace b = false) (t r : List Char) :
    (b :: r).length ≤ ((t ++ b :: r).dropWhile isWhitespace).length := by
  induction t with
  | nil => rw [List.nil_append, List.dropWhile_cons_of_neg (by simp [hb])]
  | cons c t ih =>
    rw [List.cons_append, List.dropWhile_cons]
    split_ifs
    · exact ih
    · simp only [List.length_cons, List.length_append]
      omega

theorem le_length_trim {a b : Char} (ha : isWhitespace a = false) (hb : isWhitespace b = false)
    (m t : List Char) : m.length + 2 ≤ (trim (a :: (m ++ b :: t))).length := by
  rw [trim, List.dropWhile_cons_of_neg (by simp [ha]), List.length_reverse, List.reverse_cons,
    List.reverse_append, List.reverse_cons, List.append_assoc, List.append_assoc,
    List.singleton_append]
  refine le_trans ?_ (le_length_dropWhile hb t.reverse (m.reverse ++ [a]))
  simp

theorem mem_of_mem_trim {c : Char} {cs : List Char} (h : c ∈ trim cs) : c ∈ cs := by
  rw [trim, List.mem_reverse] at h
  have h' := List.mem_reverse.1 ((List.dropWhile_suffix _).mem h)
  exact (List.dropWhile_suffix _).mem h'

theorem splitOn_head (c : Char) (cs : List Char) : ∃ head tail, cs.splitOn c = head :: tail
    ∧ c ∉ head ∧ ∀ pre, c ∉ pre → pre <+: cs → pre <+: head := by
  by_cases hc : c ∈ cs
  · obtain ⟨head, rest, rfl, hhead⟩ := List.eq_append_cons_of_mem hc
    refine ⟨head, rest.splitOn c, List.splitOn_append_cons_self_of_not_mem hhead _, hhead, ?_⟩
    intro pre hpre hle
    rcases List.prefix_or_prefix_of_prefix hle (List.prefix_append head (c :: rest)) with h | h
    · exact h
    · obtain ⟨r, rfl⟩ := h
      rcases r with _ | ⟨d, r⟩
      · rw [List.append_nil]
      · rw [List.prefix_append_right_inj, List.cons_prefix_cons] at hle
        obtain ⟨rfl, -⟩ := hle
        exact absurd (List.mem_append_right _ List.mem_cons_self) hpre
  · exact ⟨cs, [], List.splitOn_eq_singleton hc, hc, fun pre _ h => h⟩

theorem comma_not_mem_escape {c : Char} (hc : c ≠ ',') : ',' ∉ escape c := by
  have hof : Char.ofNat c.toNat = c := Char.ofNat_toNat c
  by_cases hlow : c.toNat < 0x20
  · rw [← hof]
    generalize c.toNat = n at hlow
    interval_cases n <;> decide
  · by_cases hq : c.toNat = 0x22
    · rw [← hof, hq]
      decide
    · by_cases hb : c.toNat = 0x5C
      · rw [← hof, hb]
        decide
      · rw [escape_of_plain hlow hq hb, List.mem_singleton]
        exact Ne.symm hc

theorem length_le_flatMap_escape (cs : List Char) : cs.length ≤ (cs.flatMap escape).length := by
  induction cs with
  | nil => exact Nat.le_refl _
  | cons c cs ih =>
    have hc : 0 < (escape c).length := by
      rw [List.length_pos_iff]
      intro hnil
      have hread := unescape_escape c []
      rw [hnil] at hread
      cases hread
    rw [List.flatMap_cons, List.length_append, List.length_cons]
    omega

theorem prefix_stringifyItems (x : String) (items : List String) :
    '[' :: ('"' :: x.toList.flatMap escape ++ ['"']) <+: (stringifyItems (x :: items)).toList := by
  have hrest : ∃ rest, ",".intercalate ((x :: items).map quote) = quote x ++ rest := by
    rcases items with _ | ⟨y, items⟩
    · exact ⟨"", (String.append_empty).symm⟩
    · exact ⟨"," ++ ",".intercalate ((y :: items).map quote), by
        rw [List.map_cons, List.map_cons, String.intercalate_cons_cons, String.append_assoc]⟩
  obtain ⟨rest, hrest⟩ := hrest
  refine ⟨rest.toList ++ ['"', ']'].tail, ?_⟩
  rw [stringifyItems, hrest, String.toList_append, String.toList_append, String.toList_append,
    toList_quote]
  simp

/-- No array comes back from its text: the first item would have to be longer than it is. -/
theorem splitItems_stringifyItems_ne (items : List String) :
    splitItems (stringifyItems items) ≠ items := by
  rcases items with _ | ⟨x, items⟩
  · decide
  · intro h
    obtain ⟨head, tail, hsplit, hhead, hpre⟩ := splitOn_head ',' (stringifyItems (x :: items)).toList
    have hbracket : isWhitespace '[' = false := rfl
    have hquote : isWhitespace '"' = false := rfl
    obtain ⟨t, rfl⟩ : ['['] <+: head :=
      hpre ['['] (by decide) ((List.prefix_append _ _).trans (prefix_stringifyItems x items))
    have hne : trim (['['] ++ t) ≠ [] := by
      rw [← List.length_pos_iff]
      rw [List.singleton_append, trim, List.dropWhile_cons_of_neg (by simp [hbracket]),
        List.length_reverse, List.reverse_cons]
      exact le_length_dropWhile hbracket t.reverse []
    have hx : String.ofList (trim (['['] ++ t)) = x := by
      rw [splitItems, hsplit, List.map_cons, List.filter_cons, if_pos (by simpa using hne),
        List.map_cons] at h
      exact (List.cons.inj h).1
    have hcomma : ',' ∉ x.toList := by
      rw [← hx, String.toList_ofList]
      exact fun hm => hhead (mem_of_mem_trim hm)
    have hplain : ',' ∉ x.toList.flatMap escape := by
      rw [List.mem_flatMap]
      rintro ⟨c, hc, hm⟩
      exact comma_not_mem_escape (fun he => hcomma (he ▸ hc)) hm
    -- the quotes, and what is between them, are part of it
    obtain ⟨u, hu⟩ := hpre _ (by simpa using hplain) (prefix_stringifyItems x items)
    have hlong := le_length_trim hbracket hquote ('"' :: x.toList.flatMap escape) u
    have hsame : '[' :: ('"' :: x.toList.flatMap escape ++ '"' :: u) = ['['] ++ t := by
      rw [← hu]
      simp
    have hlen : (trim (['['] ++ t)).length = x.toList.length := by
      rw [← hx, String.toList_ofList]
    rw [hsame, hlen, List.length_cons] at hlong
    have hescape := length_le_flatMap_escape x.toList
    omega

end Arrays

section Agreement

open Assignment

variable {schema : EnvSchema} {config : List (String × Assignment ν)}

theorem stringArray_injective : Function.Injective (stringArray (ν := ν)) := by
  intro items items' h
  have hmap := Json.arr.inj (JsVal.json.inj h)
  exact List.map_injective_iff.2 (fun s t hst => Json.str.inj hst) hmap

theorem restorable_of_roundTrip (ha : Assigns numbers schema (.object config))
    (hcase : ∀ e ∈ leaves (.object config), CaseReturns cases e.1)
    (h : RoundTrip cases numbers schema config) : Restorable cases schema config := by
  have hr := reached_of_roundTrip ha hcase h
  obtain ⟨fs, hload, hpl⟩ := load_places ha hr (flattenToEnv cases numbers config)
    fun var => exists_of_mem_flattenToEnv
  obtain ⟨result, hload', hsame⟩ := h _ (List.Perm.refl _)
  obtain rfl : JsVal.obj fs = result := Option.some.inj (hload.symm.trans hload')
  refine { toReached := hr, noArray := ?_, filled := ?_ }
  · intro e he items hitems
    obtain ⟨type, hat, hv⟩ := exists_at ha he
    have htype : type = .stringArray := by
      rw [hitems] at hv
      cases type <;> first | rfl | exact absurd hv id
    have hplaced := hpl.placed e he (entry_mem_flattenToEnv ha hr he)
    rw [follow_of_same ha hsame he, loadedValue,
      parsedValue_of_found (ne_nil_of_mem he) _ (hr.search he) hat, htype, hitems] at hplaced
    exact splitItems_stringifyItems_ne items (stringArray_injective (Option.some.inj hplaced)).symm
  · intro q hq hempty
    have hshape := hsame q
    have hconfig : follow q (.obj (toVals config)) = some (.obj []) := by
      have hat := follow_toVal q (.object config)
      rw [hempty] at hat
      exact hat
    rw [shape, shape, hconfig] at hshape
    have hsome : (follow q (.obj fs)).isSome := by
      rw [← Option.isSome_map (f := node), hshape]
      rfl
    rcases hpl.only q hsome with hnil | ⟨e, he, -, r, hr⟩
    · exact hq hnil
    · have hat := (mem_leaves_iff ha).1 he
      rw [← hr, at?_append, hempty, Option.bind_some] at hat
      cases r <;> cases hat

/-- What is written to variables comes back where each variable leads to its leaf and there are no
arrays, and where the case of the keys does, nowhere else. -/
theorem load_flatten (ha : Assigns numbers schema (.object config)) :
    (Restorable cases schema config → RoundTrip cases numbers schema config)
      ∧ ((∀ e ∈ leaves (.object config), CaseReturns cases e.1) →
        RoundTrip cases numbers schema config → Restorable cases schema config) :=
  ⟨roundTrip_of_restorable ha, restorable_of_roundTrip ha⟩

/-- The text of a whole number, or of what is no number. -/
def wholeText (n : Option ℕ) : String :=
  (n.map fun n => String.ofList (Nat.toDigits 10 n)).getD "NaN"

/-- What digits stand for. -/
def wholeNumber (s : String) : Option ℕ :=
  if s.toList ≠ [] ∧ s.toList.all Char.isDigit = true then some (Nat.ofDigitChars 10 s.toList 0)
  else none

theorem wholeNumber_wholeText (n : Option ℕ) (h : n.isSome = true) : wholeNumber (wholeText n) = n := by
  obtain ⟨m, rfl⟩ := Option.isSome_iff_exists.1 h
  have hdigits : (Nat.toDigits 10 m).all Char.isDigit = true := by
    rw [List.all_eq_true]
    exact fun c hc => Nat.isDigit_of_mem_toDigits (by decide) (by decide) hc
  rw [wholeNumber, wholeText, Option.map_some, Option.getD_some, String.toList_ofList,
    if_pos ⟨JsonNumber.text_ne_nil m, hdigits⟩, Nat.ofDigitChars_ten_toDigits]

/-- The whole numbers from zero on, and a double that is no number. -/
def wholeNumbers : Numbers (Option ℕ) where
  text := wholeText
  number := wholeNumber
  isFinite := Option.isSome
  isInteger := Option.isSome
  number_text := wholeNumber_wholeText

theorem assigns_single {k : String} {s : EnvSchema} {a : Assignment ν} (h : Assigns numbers s a) :
    Assigns numbers (.object [(k, s)]) (.object [(k, a)]) := by
  refine .object (List.nodup_singleton k) (by simp) ?_
  simp only [List.forall_mem_singleton, List.lookup_cons_self, Option.some_inj]
  rintro s rfl
  exact h

/-- Part of an `app`. -/
def appLeaves : EnvSchema :=
  .object [("app", .object [("port", .leaf .integer), ("logLevel", .leaf .string)])]

theorem load_flatten_app : RoundTrip .ascii wholeNumbers appLeaves
    [("app", .object [("port", .leaf (.num (some 3001))), ("logLevel", .leaf (.str "debug"))])] := by
  refine (load_flatten (assigns_single ?_)).1 ⟨⟨by decide, by decide⟩, ?_, ?_⟩
  · refine .object (by decide) (by simp) ?_
    simp only [List.forall_mem_cons]
    refine ⟨fun s hs => ?_, fun s hs => ?_, fun _ h => absurd h List.not_mem_nil⟩
    · obtain rfl := Option.some.inj hs
      exact .leaf ⟨rfl, rfl⟩
    · obtain rfl := Option.some.inj hs
      exact .leaf trivial
  · simp [leaves, leavesAll]
  · exact fun q _ => at?_ne_of_full rfl

/-- `capacity_shedding` of `src/config/schema.ts`, of which a flag is set. -/
theorem load_flatten_loses : ¬ ∀ (schema : EnvSchema) (config : List (String × Assignment (Option ℕ))),
    Assigns wholeNumbers schema (.object config) →
      RoundTrip .ascii wholeNumbers schema config := by
  intro h
  obtain ⟨result, hload, hsame⟩ := h (.object [("capacity_shedding", .object [("enabled", .leaf .boolean)])])
    [("capacity_shedding", .object [("enabled", .leaf (.bool true))])]
    (assigns_single (assigns_single (.leaf trivial))) _ (List.Perm.refl _)
  have hresult : loadEnvironment .ascii wholeNumbers
      (.object [("capacity_shedding", .object [("enabled", .leaf .boolean)])])
      (flattenToEnv .ascii wholeNumbers
        [("capacity_shedding", .object [("enabled", .leaf (.bool true))])])
      = some (.obj [("capacity", .obj [("shedding", .obj [("enabled", .json (.bool true))])])]) := rfl
  rw [hresult] at hload
  obtain rfl := Option.some.inj hload
  have hplace := hsame ["capacity_shedding"]
  cases hplace

end Agreement

end Config

end VeriNode
