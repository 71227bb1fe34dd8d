import VeriNode.Config.Environment

/-!
# What a configuration assigns

A configuration as its leaves and their paths: no leaf is within another (`eq_of_isPrefix`), and the
variables `flattenToEnv` writes are those of the leaves, the last one of a name (`flattenToEnv_eq`).
-/

namespace VeriNode

namespace Config

open JsVal

variable {ν : Type*} {cases : CaseMapping} {numbers : Numbers ν}

section Trees

namespace Assignment

/-- What is assigned at a place. -/
def at? : List String → Assignment ν → Option (Assignment ν)
  | [], a => some a
  | _ :: _, .leaf _ => none
  | k :: ks, .object fields => (fields.lookup k).bind (at? ks)

theorem own_toVals (k : String) (fields : List (String × Assignment ν)) :
    own k (toVals fields) = (fields.lookup k).map toVal := by
  induction fields with
  | nil => rfl
  | cons f fields ih =>
    rw [toVals, own_cons, ih, Fields.lookup_cons]
    split_ifs <;> rfl

theorem toVal_leaf_ne (value : Leaf ν) (fs : List (String × JsVal ν)) : value.toVal ≠ .obj fs := by
  cases value <;> simp [Leaf.toVal, stringArray]

theorem follow_leaf (value : Leaf ν) (k : String) (q : List String) :
    follow (k :: q) value.toVal = none := by
  cases value <;> rfl

theorem follow_toVal (q : List String) (a : Assignment ν) :
    follow q a.toVal = (at? q a).map toVal := by
  induction q generalizing a with
  | nil => rfl
  | cons k q ih =>
    cases a with
    | leaf value =>
      rw [toVal, follow_leaf]
      rfl
    | object fields =>
      rw [toVal, follow_obj, own_toVals, at?, Option.bind_map, Option.map_bind]
      congr 1
      funext a
      exact ih a

mutual

/-- The leaves that are assigned, with their paths. -/
def leaves : Assignment ν → List (List String × Leaf ν)
  | .leaf value => [([], value)]
  | .object fields => leavesAll fields
termination_by structural a => a

def leavesAll : List (String × Assignment ν) → List (List String × Leaf ν)
  | [] => []
  | (k, a) :: fields => (leaves a).map (fun e => (k :: e.1, e.2)) ++ leavesAll fields
termination_by structural fields => fields

end

theorem mem_leavesAll {fields : List (String × Assignment ν)} {p : List String} {value : Leaf ν} :
    (p, value) ∈ leavesAll fields
      ↔ ∃ k q a, p = k :: q ∧ (k, a) ∈ fields ∧ (q, value) ∈ leaves a := by
  induction fields with
  | nil => simp [leavesAll]
  | cons f fields ih =>
    obtain ⟨l, b⟩ := f
    rw [leavesAll, List.mem_append, List.mem_map, ih]
    constructor
    · rintro (⟨⟨q, v⟩, hm, heq⟩ | ⟨k, q, a, hp, hm, hv⟩)
      · obtain ⟨rfl, rfl⟩ := Prod.mk.inj heq
        exact ⟨l, q, b, rfl, List.mem_cons_self, hm⟩
      · exact ⟨k, q, a, hp, List.mem_cons_of_mem _ hm, hv⟩
    · rintro ⟨k, q, a, rfl, hm, hv⟩
      rcases List.mem_cons.1 hm with heq | hm
      · obtain ⟨rfl, rfl⟩ := Prod.mk.inj heq
        exact .inl ⟨(q, value), hv, rfl⟩
      · exact .inr ⟨k, q, a, rfl, hm, hv⟩

theorem ne_nil_of_mem {fields : List (String × Assignment ν)} {p : List String} {value : Leaf ν}
    (h : (p, value) ∈ leaves (.object fields)) : p ≠ [] := by
  obtain ⟨k, q, a, rfl, -⟩ := mem_leavesAll.1 h
  exact List.cons_ne_nil _ _

theorem mem_leaves_iff {s : EnvSchema} {a : Assignment ν} (h : Assigns numbers s a)
    {p : List String} {value : Leaf ν} :
    (p, value) ∈ leaves a ↔ at? p a = some (.leaf value) := by
  induction h generalizing p with
  | leaf =>
    rename_i v hv
    rw [leaves, List.mem_singleton]
    cases p with
    | nil => simp [at?, eq_comm]
    | cons k q => simp [at?]
  | @object properties fields hnodup hdom hin ih =>
    rw [leaves, mem_leavesAll]
    cases p with
    | nil => simp [at?]
    | cons k q =>
      rw [at?, Option.bind_eq_some_iff]
      have hlookup : ∀ a, (k, a) ∈ fields ↔ fields.lookup k = some a :=
        fun a => (Fields.lookup_eq_some_iff_mem hnodup).symm
      constructor
      · rintro ⟨k', q', a, heq, hm, hv⟩
        obtain ⟨rfl, rfl⟩ := List.cons.inj heq
        obtain ⟨s, hs⟩ := Option.isSome_iff_exists.1 (hdom _ hm)
        exact ⟨a, (hlookup a).1 hm, (ih _ hm s hs).1 hv⟩
      · rintro ⟨a, ha, hv⟩
        have hm := (hlookup a).2 ha
        obtain ⟨s, hs⟩ := Option.isSome_iff_exists.1 (hdom _ hm)
        exact ⟨k, q, a, rfl, hm, (ih _ hm s hs).2 hv⟩

theorem exists_at {s : EnvSchema} {a : Assignment ν} (h : Assigns numbers s a) {p : List String}
    {value : Leaf ν} (hp : (p, value) ∈ leaves a) :
    ∃ type, s.at p = some (.leaf type) ∧ value.ofType numbers type := by
  induction h generalizing p with
  | @leaf type v hv =>
    obtain ⟨rfl, rfl⟩ := Prod.mk.inj (List.mem_singleton.1 hp)
    exact ⟨type, rfl, hv⟩
  | @object properties fields hnodup hdom hin ih =>
    obtain ⟨k, q, a, rfl, hm, hv⟩ := mem_leavesAll.1 hp
    obtain ⟨s, hs⟩ := Option.isSome_iff_exists.1 (hdom _ hm)
    rw [EnvSchema.at, hs]
    exact ih _ hm s hs hv

mutual

/-- No object within is empty. -/
def full : Assignment ν → Bool
  | .leaf _ => true
  | .object fields => !fields.isEmpty && fullAll fields
termination_by structural a => a

def fullAll : List (String × Assignment ν) → Bool
  | [] => true
  | (_, a) :: fields => full a && fullAll fields
termination_by structural fields => fields

end

theorem full_of_lookup {k : String} {a : Assignment ν} : ∀ {fields : List (String × Assignment ν)},
    fullAll fields = true → fields.lookup k = some a → full a = true
  | [], _, h => by cases h
  | (l, b) :: fields, hfull, h => by
    rw [fullAll, Bool.and_eq_true] at hfull
    rw [Fields.lookup_cons] at h
    split_ifs at h with hk
    · rw [← Option.some.inj h]
      exact hfull.1
    · exact full_of_lookup hfull.2 h

theorem at?_ne_of_full {q : List String} {a : Assignment ν} (h : full a = true) :
    at? q a ≠ some (.object []) := by
  induction q generalizing a with
  | nil =>
    rintro hq
    obtain rfl := Option.some.inj hq
    cases h
  | cons k q ih =>
    cases a with
    | leaf value =>
      intro hq
      cases hq
    | object fields =>
      intro hq
      rw [at?, Option.bind_eq_some_iff] at hq
      obtain ⟨b, hb, hq⟩ := hq
      rw [full, Bool.and_eq_true] at h
      exact ih (full_of_lookup h.2 hb) hq

theorem exists_leaf : ∀ (a : Assignment ν), (∀ q, at? q a ≠ some (.object [])) →
    ∃ e, e ∈ leaves a
  | .leaf value, h => ⟨_, List.mem_singleton_self _⟩
  | .object [], h => absurd rfl (h [])
  | .object ((k, a) :: fields), h => by
    obtain ⟨e, he⟩ := exists_leaf a fun q hq => h (k :: q) (by
      rw [at?, List.lookup_cons_self]
      exact hq)
    exact ⟨(k :: e.1, e.2), List.mem_append_left _ (List.mem_map.2 ⟨e, he, rfl⟩)⟩

theorem at?_append (p q : List String) (a : Assignment ν) :
    at? (p ++ q) a = (at? p a).bind (at? q) := by
  induction p generalizing a with
  | nil => rfl
  | cons k p ih =>
    cases a with
    | leaf value => rfl
    | object fields =>
      rw [List.cons_append, at?, at?, Option.bind_assoc]
      congr 1
      funext a
      exact ih a

theorem eq_of_isPrefix {s : EnvSchema} {a : Assignment ν} (h : Assigns numbers s a)
    {e e' : List String × Leaf ν} (he : e ∈ leaves a) (he' : e' ∈ leaves a) (hpre : e.1 <+: e'.1) :
    e = e' := by
  obtain ⟨p, v⟩ := e
  obtain ⟨p', v'⟩ := e'
  obtain ⟨r, rfl⟩ := hpre
  rw [mem_leaves_iff h] at he he'
  rw [at?_append, he, Option.bind_some] at he'
  rcases r with _ | ⟨k, r⟩
  · rw [List.append_nil]
    have hv : Assignment.leaf v = Assignment.leaf v' := Option.some.inj he'
    rw [Assignment.leaf.inj hv]
  · cases he'

theorem exists_assigns {s : EnvSchema} {a b : Assignment ν} (h : Assigns numbers s a)
    {q : List String} (hq : at? q a = some b) : ∃ s', Assigns numbers s' b := by
  induction h generalizing q with
  | @leaf type v hv =>
    cases q with
    | nil => exact ⟨_, Option.some.inj hq ▸ Assigns.leaf hv⟩
    | cons k q => cases hq
  | @object properties fields hnodup hdom hin ih =>
    cases q with
    | nil => exact ⟨_, Option.some.inj hq ▸ Assigns.object hnodup hdom hin⟩
    | cons k q =>
      rw [at?, Option.bind_eq_some_iff] at hq
      obtain ⟨c, hc, hq⟩ := hq
      have hm := Fields.mem_of_lookup hc
      obtain ⟨s, hs⟩ := Option.isSome_iff_exists.1 (hdom _ hm)
      exact ih _ hm s hs hq

theorem mem_leaves_append {s : EnvSchema} {a b : Assignment ν} (h : Assigns numbers s a)
    {q : List String} (hq : at? q a = some b) {e : List String × Leaf ν} (he : e ∈ leaves b) :
    (q ++ e.1, e.2) ∈ leaves a := by
  obtain ⟨s', hb⟩ := exists_assigns h hq
  rw [mem_leaves_iff h, at?_append, hq, Option.bind_some]
  exact (mem_leaves_iff hb).1 he

end Assignment

end Trees

section Flatten

theorem mem_setVar_self (name text : String) (env : Env) : (name, text) ∈ setVar name text env := by
  induction env with
  | nil => exact List.mem_singleton_self _
  | cons e env ih =>
    rw [setVar]
    split_ifs
    · exact List.mem_cons_self
    · exact List.mem_cons_of_mem _ ih

theorem mem_setVar_of_ne {name text : String} {env : Env} {e : String × String} (he : e ∈ env)
    (hne : e.1 ≠ name) : e ∈ setVar name text env := by
  induction env with
  | nil => cases he
  | cons e' env ih =>
    rw [setVar]
    rcases List.mem_cons.1 he with rfl | he
    · rw [if_neg hne]
      exact List.mem_cons_self
    · split_ifs
      · exact List.mem_cons_of_mem _ he
      · exact List.mem_cons_of_mem _ (ih he)

theorem eq_or_mem_of_mem_setVar {name text : String} {env : Env} {e : String × String}
    (he : e ∈ setVar name text env) : e = (name, text) ∨ e ∈ env := by
  induction env with
  | nil => exact .inl (List.mem_singleton.1 he)
  | cons e' env ih =>
    rw [setVar] at he
    split_ifs at he
    · rcases List.mem_cons.1 he with h | h
      · exact .inl h
      · exact .inr (List.mem_cons_of_mem _ h)
    · rcases List.mem_cons.1 he with rfl | h
      · exact .inr List.mem_cons_self
      · exact (ih h).imp_right (List.mem_cons_of_mem _)

variable (cases numbers) in
/-- The variable of a leaf. -/
def entry (e : List String × Leaf ν) : String × String :=
  (envName cases "VERINODE" e.1, e.2.text numbers)

/-- Sets the variables of leaves, one after another. -/
def setVars (vars : List (String × String)) (env : Env) : Env :=
  vars.foldl (fun env var => setVar var.1 var.2 env) env

mutual

theorem walkValue_eq : ∀ (a : Assignment ν) (next : List String) (env : Env),
    walkValue cases numbers "VERINODE" a next env
      = setVars (a.leaves.map fun e => entry cases numbers (next ++ e.1, e.2)) env
  | .leaf value, next, env => by
    rw [walkValue, Assignment.leaves, List.map_singleton, List.append_nil]
    rfl
  | .object fields, next, env => walk_eq fields next env

theorem walk_eq : ∀ (fields : List (String × Assignment ν)) (parts : List String) (env : Env),
    walk cases numbers "VERINODE" fields parts env
      = setVars ((Assignment.leavesAll fields).map fun e => entry cases numbers (parts ++ e.1, e.2))
        env
  | [], parts, env => rfl
  | (k, a) :: fields, parts, env => by
    rw [walk, walkValue_eq a, walk_eq fields, Assignment.leavesAll, List.map_append, List.map_map,
      setVars, setVars, setVars, List.foldl_append]
    congr 2
    refine List.map_congr_left fun e he => ?_
    rw [Function.comp_apply, List.append_assoc]
    rfl

end

theorem flattenToEnv_eq (config : List (String × Assignment ν)) :
    flattenToEnv cases numbers config
      = setVars ((Assignment.leavesAll config).map (entry cases numbers)) [] := walk_eq config [] []

theorem mem_of_mem_setVars {vars : List (String × String)} {env : Env} {e : String × String}
    (he : e ∈ setVars vars env) : e ∈ vars ∨ e ∈ env := by
  induction vars generalizing env with
  | nil => exact .inr he
  | cons var vars ih =>
    rcases ih he with h | h
    · exact .inl (List.mem_cons_of_mem _ h)
    · rcases eq_or_mem_of_mem_setVar h with rfl | h
      · exact .inl List.mem_cons_self
      · exact .inr h

theorem mem_setVars {vars : List (String × String)} {env : Env} {e : String × String}
    (hvars : ∀ var ∈ vars, var.1 = e.1 → var.2 = e.2) (he : e ∈ vars ∨ e ∈ env) :
    e ∈ setVars vars env := by
  induction vars generalizing env with
  | nil => exact he.resolve_left (by simp)
  | cons var vars ih =>
    rw [List.forall_mem_cons] at hvars
    have hset : e.1 = var.1 → e ∈ setVar var.1 var.2 env := by
      intro h
      have heq : e = (var.1, var.2) := Prod.ext h (hvars.1 h.symm).symm
      rw [heq]
      exact mem_setVar_self _ _ _
    refine ih hvars.2 ?_
    by_cases hname : e.1 = var.1
    · exact .inr (hset hname)
    · rcases he with he | he
      · rcases List.mem_cons.1 he with rfl | he
        · exact absurd rfl hname
        · exact .inl he
      · exact .inr (mem_setVar_of_ne he hname)

end Flatten

end Config

end VeriNode
