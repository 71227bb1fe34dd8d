import VeriNode.Proofs.Assignments
import VeriNode.Proofs.HotUpdate

/-!
# The configuration, written to variables and read back

The path that a variable reads as (`target_eq`) is looked for in the schema, and where it is the
path of its leaf the leaf is read as it was, unless it is an array (`parseEnvValue_text`). If it is so
for every leaf, the configuration comes back in whatever order the variables are read
(`roundTrip_of_restorable`).
-/

namespace VeriNode

namespace Config

open JsVal

variable {ν : Type*} {cases : CaseMapping} {numbers : Numbers ν}

section Names

variable (cases) in
/-- The key a leaf's variable is read by. -/
def configKey (p : List String) : String := normalizeEnvKey cases (envName cases "VERINODE" p)

variable (cases) in
/-- What a leaf's path reads as, when its variable is read. -/
def target (p : List String) : String :=
  cases.lower (stripSeparators (cases.lower (cases.upper ("_".intercalate p))))

theorem envName_eq {p : List String} (hp : p ≠ []) :
    envName cases "VERINODE" p = "VERINODE_" ++ cases.upper ("_".intercalate p) := by
  obtain ⟨k, ks, rfl⟩ := List.exists_cons_of_ne_nil hp
  have hjoin : "_".intercalate ("VERINODE" :: k :: ks) = "VERINODE_" ++ "_".intercalate (k :: ks) :=
    String.intercalate_cons_cons
  rw [envName, hjoin, cases.upper_append, cases.upper_capitals "VERINODE_" (by simp)]

theorem prefix_envName {p : List String} (hp : p ≠ []) :
    ("VERINODE" ++ "_").toList <+: (envName cases "VERINODE" p).toList := by
  have hpre : "VERINODE" ++ "_" = "VERINODE_" := rfl
  rw [envName_eq hp, hpre, String.toList_append]
  exact List.prefix_append _ _

theorem dropPrefix_envName {p : List String} (hp : p ≠ []) :
    dropPrefix "VERINODE" (envName cases "VERINODE" p) = cases.upper ("_".intercalate p) := by
  rw [dropPrefix, if_pos (prefix_envName hp), envName_eq hp, String.toList_append]
  have hlen : ("VERINODE" ++ "_").length = "VERINODE_".toList.length := rfl
  rw [hlen, List.drop_left, String.ofList_toList]

theorem filter_replaceDouble (cs : List Char) :
    ((replaceDouble cs).map fun c => if c = '_' then '.' else c).filter
      (fun c => c ≠ '.' && c ≠ '_') = cs.filter fun c => c ≠ '.' && c ≠ '_' := by
  induction cs using replaceDouble.induct with
  | case1 cs ih => 
    rw [replaceDouble]
    simpa using ih
  | case2 c cs hne ih => 
    rw [replaceDouble]
    · rw [List.map_cons, List.filter_cons, List.filter_cons, ih]
      split_ifs <;> simp_all
    · exact hne
  | case3 => rfl

theorem target_eq {p : List String} (hp : p ≠ []) :
    cases.lower (stripSeparators (configKey cases p)) = target cases p := by
  rw [configKey, normalizeEnvKey, dropPrefix_envName hp, target, stripSeparators, stripSeparators,
    String.toList_ofList, filter_replaceDouble]

theorem findActualPath_configKey (schema : EnvSchema) {p : List String} (hp : p ≠ []) :
    findActualPath cases schema (configKey cases p) = search cases (target cases p) schema [] := by
  rw [findActualPath, target_eq hp]

theorem not_mem_configKey (p : List String) : '_' ∉ (configKey cases p).toList := by
  rw [configKey, normalizeEnvKey, String.toList_ofList, List.mem_map]
  rintro ⟨c, -, hc⟩
  split_ifs at hc with h
  · cases hc
  · exact h hc

mutual

theorem lower_of_search : ∀ (s : EnvSchema) {t : String} {path q : List String},
    search cases t s path = some q → cases.lower ("".intercalate q) = t
  | .leaf type, t, path, q, h => by
    rw [search, Option.ite_none_right_eq_some] at h
    rw [← Option.some.inj h.2]
    exact h.1
  | .object properties, t, path, q, h => by
    rw [search] at h
    split_ifs at h with ht
    · rw [← Option.some.inj h]
      exact ht
    · exact lower_of_searchProperties properties h

theorem lower_of_searchProperties : ∀ (properties : List (String × EnvSchema)) {t : String}
    {path q : List String}, searchProperties cases t properties path = some q →
    cases.lower ("".intercalate q) = t
  | [], t, path, q, h => by cases h
  | (k, s) :: rest, t, path, q, h => by
    rw [searchProperties, Option.or_eq_some_iff] at h
    rcases h with h | ⟨-, h⟩
    · exact lower_of_search s h
    · exact lower_of_searchProperties rest h

end

theorem search_isSome {t : String} {r path : List String} {s s' : EnvSchema} (hat : s.at r = some s')
    (ht : cases.lower ("".intercalate (path ++ r)) = t) : (search cases t s path).isSome := by
  induction r generalizing s path with
  | nil =>
    rw [List.append_nil] at ht
    cases s <;> rw [search, if_pos ht] <;> rfl
  | cons k r ih =>
    cases s with
    | leaf type => cases hat
    | object properties =>
      rw [EnvSchema.at, Option.bind_eq_some_iff] at hat
      obtain ⟨s, hs, hat⟩ := hat
      rw [search]
      split_ifs
      · rfl
      · have hin : (search cases t s (path ++ [k])).isSome := ih hat (by
          rw [List.append_assoc]
          exact ht)
        clear ih
        induction properties with
        | nil => cases hs
        | cons f properties ih =>
          rw [searchProperties, Option.isSome_or]
          rw [Fields.lookup_cons] at hs
          split_ifs at hs with hk
          · subst hk
            obtain rfl := Option.some.inj hs
            rw [hin]
            rfl
          · rw [ih hs, Bool.or_true]

/-- A leaf is found if it reads as its variable does, and is the first of the schema that does. -/
theorem findActualPath_iff (schema : EnvSchema) {p : List String} (hp : p ≠ []) :
    findActualPath cases schema (configKey cases p) = some p
      ↔ target cases p = cases.lower ("".intercalate p)
        ∧ search cases (cases.lower ("".intercalate p)) schema [] = some p := by
  rw [findActualPath_configKey schema hp]
  constructor
  · intro h
    have ht := lower_of_search schema h
    rw [ht]
    exact ⟨rfl, h⟩
  · rintro ⟨ht, h⟩
    rw [ht]
    exact h

end Names

section Found

variable {schema : EnvSchema} {p : List String}

theorem toList_concat (p : List String) : ("".intercalate p).toList = p.flatMap String.toList := by
  induction p with
  | nil => rfl
  | cons k p ih =>
    rcases p with _ | ⟨k', p⟩
    · rw [String.intercalate_singleton, List.flatMap_cons, List.flatMap_nil, List.append_nil]
    · rw [String.intercalate_cons_cons, String.append_empty, String.toList_append, ih,
        ← List.flatMap_cons]

theorem separators_of_found {q : List String}
    (h : search cases (target cases p) schema [] = some q) {c : Char} (hc : c ∈ ['.', '_'])
    {k : String} (hk : k ∈ q) : c ∉ k.toList := by
  intro hck
  have hjoin : c ∈ ("".intercalate q).toList := by
    rw [toList_concat, List.mem_flatMap]
    exact ⟨k, hk, hck⟩
  have hlow := (cases.mem_lower _ c hc).2 hjoin
  rw [lower_of_search schema h, target, cases.mem_lower _ c hc, stripSeparators,
    String.toList_ofList, List.mem_filter] at hlow
  have hno := hlow.2
  simp only [List.mem_cons, List.not_mem_nil, or_false] at hc
  rcases hc with rfl | rfl <;> simp at hno

theorem splitPath_intercalate (hp : p ≠ []) (hdot : ∀ k ∈ p, '.' ∉ k.toList) :
    splitPath (".".intercalate p) = p := by
  induction p with
  | nil => exact absurd rfl hp
  | cons k p ih =>
    rw [List.forall_mem_cons] at hdot
    rcases p with _ | ⟨k', p⟩
    · rw [String.intercalate_singleton]
      exact splitPath_of_not_mem hdot.1
    · rw [String.intercalate_cons_cons, splitPath_dotted, splitPath_of_not_mem hdot.1,
        ih (List.cons_ne_nil _ _) hdot.2]
      rfl

theorem parsedValue_ne_obj (key value : String) (fs : List (String × JsVal ν)) :
    parsedValue cases numbers schema key value ≠ .obj fs := by
  unfold parsedValue
  dsimp only
  split
  · rename_i type _
    cases type <;> simp [parseEnvValue, stringArray]
  · unfold inferEnvValue
    split_ifs <;> simp

/-- What a leaf's variable is read as. -/
def LeafType.target : LeafType → TargetType
  | .string => .string
  | .number => .number
  | .integer => .number
  | .boolean => .boolean
  | .stringArray => .array

theorem parsedValue_of_found {type : LeafType} (hp : p ≠ []) (value : String)
    (h : search cases (target cases p) schema [] = some p) (hat : schema.at p = some (.leaf type)) :
    parsedValue cases numbers schema (configKey cases p) value
      = parseEnvValue cases numbers value type.target := by
  have hsplit : splitPath (".".intercalate p) = p :=
    splitPath_intercalate hp fun k hk => separators_of_found h (by simp) hk
  unfold parsedValue
  rw [findActualPath_configKey schema hp, h]
  simp only [Option.map_some, Option.getD_some, getSchemaTypeForPath, hsplit, hat]
  cases type <;> rfl

theorem parseEnvValue_text {type : LeafType} {value : Leaf ν} (hv : value.ofType numbers type)
    (harr : ∀ items, value ≠ .strs items) :
    parseEnvValue cases numbers (value.text numbers) type.target = value.toVal := by
  cases value with
  | str s => cases type <;> first | exact absurd hv id | rfl
  | num n =>
    cases type <;> try exact absurd hv id
    · simp only [LeafType.target, parseEnvValue, Leaf.text, Leaf.toVal, numbers.number_text n hv]
    · simp only [LeafType.target, parseEnvValue, Leaf.text, Leaf.toVal, numbers.number_text n hv.1]
  | bool b =>
    cases type <;> try exact absurd hv id
    cases b
    · simp [LeafType.target, parseEnvValue, Leaf.text, Leaf.toVal,
        cases.lower_letters "false" (by simp)]
    · simp [LeafType.target, parseEnvValue, Leaf.text, Leaf.toVal,
        cases.lower_letters "true" (by simp)]
  | strs items => exact absurd rfl (harr items)

end Found

section Loading

variable {schema : EnvSchema} {p : List String} {fs gs : List (String × JsVal ν)} {v : JsVal ν}

/-- `setIn` goes through where there are objects, or nothing, and no name is inherited. -/
theorem setIn_succeeds (hp : p ≠ []) (hproto : "__proto__" ∉ p)
    (hown : ∀ k ∈ p.dropLast, k ∉ inherited)
    (hobj : ∀ q w, q <+: p → q ≠ p → follow q (.obj fs) = some w → ∃ hs, w = .obj hs) :
    ∃ gs, setIn p v fs = some gs := by
  induction p generalizing fs with
  | nil => exact absurd rfl hp
  | cons k p ih =>
    rw [List.mem_cons, not_or] at hproto
    rcases p with _ | ⟨k', p⟩
    · exact ⟨_, by rw [setIn, if_neg (Ne.symm hproto.1)]⟩
    · rw [List.dropLast_cons_cons, List.forall_mem_cons] at hown
      have hin : ∀ inner, (∀ q w, q ≠ [] → follow q (.obj inner) = some w →
          follow (k :: q) (.obj fs) = some w) → ∃ i, setIn (k' :: p) v inner = some i := by
        intro inner hinner
        refine ih (List.cons_ne_nil _ _) hproto.2 hown.2 fun q w hq hne hw => ?_
        rcases eq_or_ne q [] with rfl | hnil
        · exact ⟨inner, (Option.some.inj hw).symm⟩
        · exact hobj (k :: q) w (List.cons_prefix_cons.2 ⟨rfl, hq⟩)
            (fun h => hne (List.cons.inj h).2) (hinner q w hnil hw)
      have hempty : ∀ q (w : JsVal ν), q ≠ [] → follow q (.obj []) = some w →
          follow (k :: q) (.obj fs) = some w := by
        rintro (_ | ⟨l, q⟩) w hq hw
        · exact absurd rfl hq
        · cases hw
      rw [setIn, if_neg (Ne.symm hproto.1)]
      · rcases hk : own k fs with _ | w
        · obtain ⟨i, hi⟩ := hin [] hempty
          refine ⟨assign k (.obj i) fs, ?_⟩
          simp only [if_neg hown.1, hi, Option.map_some]
        · have hat : follow [k] (.obj fs) = some w := by
            rw [follow_obj, hk]
            rfl
          obtain ⟨inner, rfl⟩ := hobj [k] w (List.cons_prefix_cons.2 ⟨rfl, List.nil_prefix⟩)
            (by simp) hat
          obtain ⟨i, hi⟩ := hin inner fun q w _ hw => by rw [follow_obj, hk, Option.bind_some, hw]
          refine ⟨assign k (.obj i) fs, ?_⟩
          simp only [hi, Option.map_some]
      · simp

variable (cases numbers schema) in
/-- What a leaf's variable is read as. -/
def loadedValue (e : List String × Leaf ν) : JsVal ν :=
  parsedValue cases numbers schema (configKey cases e.1) (e.2.text numbers)

theorem loadedValue_ne_obj (e : List String × Leaf ν) (fs : List (String × JsVal ν)) :
    loadedValue cases numbers schema e ≠ .obj fs := parsedValue_ne_obj _ _ fs

theorem loadVariable_entry {e : List String × Leaf ν} (hp : e.1 ≠ []) (result : JsVal ν) :
    loadVariable cases numbers schema "VERINODE" result (entry cases numbers e)
      = setPath (actualPath cases schema (configKey cases e.1)) (loadedValue cases numbers schema e)
        result := by
  have hpre : ("VERINODE" ++ "_").toList <+: (entry cases numbers e).1.toList := prefix_envName hp
  rw [loadVariable, if_pos hpre]
  rfl

theorem loadEnvironment_append (env : Env) (var : String × String) :
    loadEnvironment cases numbers schema (env ++ [var])
      = (loadEnvironment cases numbers schema env).bind
        (loadVariable cases numbers schema "VERINODE" · var) := by
  rw [loadEnvironment, loadEnvironment, List.foldlM_append]
  congr 1
  funext result
  exact bind_pure _

theorem follow_of_ne_obj (hv : ∀ fs, v ≠ .obj fs) {k : String} {q : List String} :
    follow (k :: q) v = none := by
  cases v with
  | obj fs => exact absurd rfl (hv fs)
  | _ => rfl

theorem actualPath_of_found (hp : p ≠ [])
    (h : search cases (target cases p) schema [] = some p) :
    actualPath cases schema (configKey cases p) = p := by
  rw [actualPath, findActualPath_configKey schema hp, h]
  rfl

end Loading

section RoundTrip

open Assignment

variable {schema : EnvSchema} {config : List (String × Assignment ν)} {env : Env}
  {fs : List (String × JsVal ν)}

/-- Each variable leads back to its leaf, through no name that an object inherits. -/
structure Reached (cases : CaseMapping) (schema : EnvSchema) (config : List (String × Assignment ν)) :
    Prop where
  found : ∀ e ∈ leaves (.object config),
    findActualPath cases schema (configKey cases e.1) = some e.1
  own : ∀ e ∈ leaves (.object config),
    "__proto__" ∉ e.1 ∧ ∀ k ∈ e.1.dropLast, k ∉ inherited

/-- And nothing that is assigned is an array, or an object in which nothing is. -/
structure Restorable (cases : CaseMapping) (schema : EnvSchema)
    (config : List (String × Assignment ν)) : Prop extends Reached cases schema config where
  noArray : ∀ e ∈ leaves (.object config), ∀ items, e.2 ≠ .strs items
  filled : ∀ q, q ≠ [] → at? q (.object config) ≠ some (.object [])

variable (cases numbers schema config) in
/-- Whatever order the variables come in, what is read from them is the configuration. -/
def RoundTrip : Prop :=
  ∀ env, env.Perm (flattenToEnv cases numbers config) →
    ∃ result, loadEnvironment cases numbers schema env = some result
      ∧ Same result (.obj (toVals config))

variable (cases numbers schema config) in
/-- What the variables of an environment have set. -/
structure Placed (env : Env) (fs : List (String × JsVal ν)) : Prop where
  placed : ∀ e ∈ leaves (.object config), entry cases numbers e ∈ env →
    follow e.1 (.obj fs) = some (loadedValue cases numbers schema e)
  only : ∀ q, (follow q (.obj fs)).isSome →
    q = [] ∨ ∃ e ∈ leaves (.object config), entry cases numbers e ∈ env ∧ q <+: e.1

theorem Reached.search (hr : Reached cases schema config) {e : List String × Leaf ν}
    (he : e ∈ leaves (.object config)) :
    VeriNode.Config.search cases (target cases e.1) schema [] = some e.1 := by
  rw [← findActualPath_configKey schema (ne_nil_of_mem he)]
  exact hr.found e he

theorem Reached.name_injective (hr : Reached cases schema config)
    (ha : Assigns numbers schema (.object config)) {e e' : List String × Leaf ν}
    (he : e ∈ leaves (.object config)) (he' : e' ∈ leaves (.object config))
    (h : envName cases "VERINODE" e.1 = envName cases "VERINODE" e'.1) : e = e' := by
  have hp : e.1 = e'.1 := by
    have hfound := hr.found e he
    rw [configKey, h, ← configKey, hr.found e' he'] at hfound
    exact (Option.some.inj hfound).symm
  exact eq_of_isPrefix ha he he' (hp ▸ List.prefix_refl _)

theorem Placed.above (hpl : Placed cases numbers schema config env fs)
    (ha : Assigns numbers schema (.object config)) {e : List String × Leaf ν}
    (he : e ∈ leaves (.object config)) {q : List String} {w : JsVal ν} (hq : q <+: e.1)
    (hne : q ≠ e.1) (hw : follow q (.obj fs) = some w) : ∃ hs, w = .obj hs := by
  rcases hpl.only q (by rw [hw]; rfl) with rfl | ⟨e', he', hset, hq'⟩
  · exact ⟨fs, (Option.some.inj hw).symm⟩
  · obtain ⟨r, hr⟩ := hq'
    rcases r with _ | ⟨k, r⟩
    · rw [List.append_nil] at hr
      have heq := eq_of_isPrefix ha he' he (hr ▸ hq)
      exact absurd (hr.trans (congrArg Prod.fst heq)) hne
    · have hleaf := hpl.placed e' he' hset
      rw [← hr, follow_append, hw, Option.bind_some] at hleaf
      cases w with
      | obj hs => exact ⟨hs, rfl⟩
      | _ => cases hleaf

theorem load_places (ha : Assigns numbers schema (.object config))
    (hr : Reached cases schema config) (env : Env)
    (henv : ∀ var ∈ env, ∃ e ∈ leaves (.object config), var = entry cases numbers e) :
    ∃ fs, loadEnvironment cases numbers schema env = some (.obj fs)
      ∧ Placed cases numbers schema config env fs := by
  induction env using List.reverseRecOn with
  | nil =>
    refine ⟨[], rfl, fun e he h => absurd h List.not_mem_nil, fun q hq => .inl ?_⟩
    cases q with
    | nil => rfl
    | cons k q => cases hq
  | append_singleton env var ih =>
    obtain ⟨fs, hload, hpl⟩ := ih fun var hvar => henv var (List.mem_append_left _ hvar)
    obtain ⟨e, he, rfl⟩ := henv var (List.mem_append_right _ (List.mem_singleton_self _))
    have hp := ne_nil_of_mem he
    obtain ⟨gs, hset⟩ := setIn_succeeds (v := loadedValue cases numbers schema e) hp (hr.own e he).1
      (hr.own e he).2 fun q w => hpl.above ha he
    refine ⟨gs, ?_, ?_, ?_⟩
    · rw [loadEnvironment_append, hload, Option.bind_some, loadVariable_entry hp,
        actualPath_of_found hp (hr.search he)]
      exact setPath_of_setIn hset
    · intro e' he' hvar
      by_cases heq : e' = e
      · rw [heq]
        have hself := follow_setIn_below hset []
        rwa [List.append_nil] at hself
      · have hold : entry cases numbers e' ∈ env := by
          refine (List.mem_append.1 hvar).resolve_right fun h => heq ?_
          exact hr.name_injective ha he' he (congrArg Prod.fst (List.mem_singleton.1 h))
        rw [follow_setIn_apart hset (fun h => heq (eq_of_isPrefix ha he he' h).symm)
          (fun h => heq (eq_of_isPrefix ha he' he h))]
        exact hpl.placed e' he' hold
    · intro q hq
      by_cases hbelow : e.1 <+: q
      · obtain ⟨r, rfl⟩ := hbelow
        rw [follow_setIn_below hset r] at hq
        rcases r with _ | ⟨k, r⟩
        · refine .inr ⟨e, he, List.mem_append_right _ (List.mem_singleton_self _), ?_⟩
          rw [List.append_nil]
        · rw [follow_of_ne_obj (loadedValue_ne_obj e)] at hq
          cases hq
      · by_cases habove : q <+: e.1
        · exact .inr ⟨e, he, List.mem_append_right _ (List.mem_singleton_self _), habove⟩
        · rw [follow_setIn_apart hset hbelow habove] at hq
          rcases hpl.only q hq with rfl | ⟨e', he', hvar, hq'⟩
          · exact .inl rfl
          · exact .inr ⟨e', he', List.mem_append_left _ hvar, hq'⟩

theorem exists_of_mem_flattenToEnv {var : String × String}
    (h : var ∈ flattenToEnv cases numbers config) :
    ∃ e ∈ leaves (.object config), var = entry cases numbers e := by
  rw [flattenToEnv_eq] at h
  obtain ⟨e, he, rfl⟩ := List.mem_map.1 ((mem_of_mem_setVars h).resolve_right List.not_mem_nil)
  exact ⟨e, he, rfl⟩

theorem entry_mem_flattenToEnv (ha : Assigns numbers schema (.object config))
    (hr : Reached cases schema config) {e : List String × Leaf ν}
    (he : e ∈ leaves (.object config)) :
    entry cases numbers e ∈ flattenToEnv cases numbers config := by
  rw [flattenToEnv_eq]
  refine mem_setVars (fun var hvar hname => ?_) (.inl (List.mem_map_of_mem he))
  obtain ⟨e', he', rfl⟩ := List.mem_map.1 hvar
  rw [hr.name_injective ha he' he hname]

/-- What is at the places of a configuration is at those of a result, if the leaves are. -/
theorem Placed.same (ha : Assigns numbers schema (.object config))
    (hpl : Placed cases numbers schema config env fs)
    (henv : ∀ e ∈ leaves (.object config), entry cases numbers e ∈ env)
    (hval : ∀ e ∈ leaves (.object config), loadedValue cases numbers schema e = e.2.toVal)
    (hfilled : ∀ q, q ≠ [] → at? q (.object config) ≠ some (.object [])) :
    Same (.obj fs) (.obj (toVals config)) := by
  intro q
  have hconfig : follow q (.obj (toVals config)) = (at? q (.object config)).map toVal :=
    follow_toVal q (.object config)
  rw [shape, shape, hconfig]
  rcases hq : at? q (.object config) with _ | (v | fields)
  · have hnone : follow q (.obj fs) = none := by
      rw [← Option.not_isSome_iff_eq_none]
      intro hsome
      rcases hpl.only q hsome with rfl | ⟨e, he, -, r, hr⟩
      · cases hq
      · have hat := (mem_leaves_iff ha).1 he
        rw [← hr, at?_append, hq] at hat
        cases hat
    rw [hnone]
    rfl
  · have hleaf := (mem_leaves_iff ha).2 hq
    rw [hpl.placed _ hleaf (henv _ hleaf), hval _ hleaf]
    rfl
  · rcases eq_or_ne q [] with rfl | hne
    · rfl
    · obtain ⟨e, he⟩ := exists_leaf (.object fields) fun r hr => hfilled (q ++ r) (by simp [hne]) (by
        rw [at?_append, hq]
        exact hr)
      have hleaf := mem_leaves_append ha hq he
      have hplaced := hpl.placed _ hleaf (henv _ hleaf)
      have hsome : (follow q (.obj fs)).isSome := follow_isSome_of_append (by rw [hplaced]; rfl)
      obtain ⟨w, hw⟩ := Option.isSome_iff_exists.1 hsome
      obtain ⟨hs, rfl⟩ := hpl.above ha hleaf (List.prefix_append q e.1)
        (by simpa using (ne_nil_of_mem he).symm) hw
      rw [hw]
      rfl

theorem roundTrip_of_restorable (ha : Assigns numbers schema (.object config))
    (hr : Restorable cases schema config) : RoundTrip cases numbers schema config := by
  intro env henv
  obtain ⟨fs, hload, hpl⟩ := load_places ha hr.toReached env fun var hvar =>
    exists_of_mem_flattenToEnv (henv.mem_iff.1 hvar)
  refine ⟨_, hload, hpl.same ha (fun e he => ?_) (fun e he => ?_) hr.filled⟩
  · exact henv.mem_iff.2 (entry_mem_flattenToEnv ha hr.toReached he)
  · obtain ⟨type, hat, hv⟩ := exists_at ha he
    rw [loadedValue, parsedValue_of_found (ne_nil_of_mem he) _ (hr.toReached.search he) hat]
    exact parseEnvValue_text hv (hr.noArray e he)

end RoundTrip

end Config

end VeriNode
