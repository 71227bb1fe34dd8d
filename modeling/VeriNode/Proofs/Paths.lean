import VeriNode.Config.HotUpdate

/-!
# Places in a tree of maps

Along a path whose proper prefixes are objects, null or absent, `getIn`, `setIn` and `deleteIn` go
down one object at a time (`Changes`), so what they do is settled at the object that the last key is
of, and a path that parts from it meets another key on the way
(`path_laws`). Along keys that no object inherits they are the functions on the objects of the
language (`getIn_eq`, `setPath_eq`, `deletePath_eq`).
-/

namespace VeriNode

namespace Config

namespace Maps

open JsVal

variable {ν : Type*} {k key : String} {p q keys : List String} {v w u : JsVal ν}
variable {fs gs : List (String × JsVal ν)} {toNumber : String → Option ℕ}

section Objects

/-- An object stands at the place, null, or nothing. -/
def Passable : Option (JsVal ν) → Prop
  | none | some .undefined | some (.json .null) | some (.obj _) => True
  | _ => False

/-- The object that a path goes on in: the one at the key, or a new one. -/
def inner (key : String) (fs : List (String × JsVal ν)) : List (String × JsVal ν) :=
  match own key fs with
  | some (.obj fields) => fields
  | _ => []

theorem getIn_undefined (keys : List String) : getIn keys (.undefined : JsVal ν) = .undefined := by
  induction keys with
  | nil => rfl
  | cons key keys ih => exact ih

theorem getIn_null (hne : keys ≠ []) : getIn keys (.json .null : JsVal ν) = .undefined := by
  obtain ⟨key, keys, rfl⟩ := List.exists_cons_of_ne_nil hne
  exact getIn_undefined keys

theorem getIn_nil (hne : keys ≠ []) : getIn keys (.obj [] : JsVal ν) = .undefined := by
  obtain ⟨key, keys, rfl⟩ := List.exists_cons_of_ne_nil hne
  exact getIn_undefined keys

theorem getIn_obj (key : String) (keys : List String) (fs : List (String × JsVal ν)) :
    getIn (key :: keys) (.obj fs) = getIn keys ((own key fs).getD .undefined) := rfl

theorem getIn_cons (hpass : Passable (own key fs)) (hne : keys ≠ []) :
    getIn (key :: keys) (.obj fs) = getIn keys (.obj (inner key fs)) := by
  rw [getIn_obj, inner]
  rcases hown : own key fs with _ | ⟨_ | f | j | fields⟩
  · exact (getIn_undefined keys).trans (getIn_nil hne).symm
  · exact (getIn_undefined keys).trans (getIn_nil hne).symm
  · rw [hown] at hpass
    exact hpass.elim
  · rw [hown] at hpass
    cases j with
    | null => exact (getIn_null hne).trans (getIn_nil hne).symm
    | _ => exact hpass.elim
  · rfl

theorem setIn_cons (hpass : Passable (own key fs)) (hne : keys ≠ []) :
    setIn (key :: keys) v (.obj fs) =
      (setIn keys v (.obj (inner key fs))).map fun i => .obj (assign key i fs) := by
  obtain ⟨key', keys, rfl⟩ := List.exists_cons_of_ne_nil hne
  have hbind (o : Option (JsVal ν)) :
      (o.bind fun i => assignAt key i (.obj fs)) = o.map fun i => .obj (assign key i fs) :=
    Option.map_eq_bind.symm
  rw [setIn, child, inner]
  · rcases hown : own key fs with _ | ⟨_ | f | j | fields⟩
    · exact hbind _
    · exact hbind _
    · rw [hown] at hpass
      exact hpass.elim
    · rw [hown] at hpass
      cases j with
      | null => exact hbind _
      | _ => exact hpass.elim
    · exact hbind _
  · exact List.cons_ne_nil _ _

theorem follow_cons (hne : q ≠ []) (key : String) (fs : List (String × JsVal ν)) :
    follow (key :: q) (.obj fs) = follow q (.obj (inner key fs)) := by
  obtain ⟨key', q, rfl⟩ := List.exists_cons_of_ne_nil hne
  rw [follow_obj, inner]
  rcases hown : own key fs with _ | ⟨_ | f | j | fields⟩ <;> rfl

theorem own_of_follow (hpass : Passable (own key fs)) (hne : q ≠ [])
    (h : follow (key :: q) (.obj fs) ≠ none) : own key fs = some (.obj (inner key fs)) := by
  obtain ⟨k, q, rfl⟩ := List.exists_cons_of_ne_nil hne
  rw [follow_obj] at h
  rw [inner]
  rcases hown : own key fs with _ | ⟨_ | f | j | fields⟩
  · rw [hown] at h
    exact absurd rfl h
  · rw [hown] at h
    exact absurd rfl h
  · rw [hown] at hpass
    exact hpass.elim
  · rw [hown] at h
    exact absurd rfl h
  · rfl

theorem assign_own (h : own k fs = some v) : assign k v fs = fs := by
  induction fs with
  | nil => cases h
  | cons f fs ih =>
    rw [own_cons] at h
    rw [assign]
    split_ifs at h with hk
    · rw [if_pos hk.symm, ← Option.some.inj h, hk]
    · rw [if_neg fun hf => hk hf.symm, ih h]

theorem assign_assign (k : String) (v w : JsVal ν) (fs : List (String × JsVal ν)) :
    assign k w (assign k v fs) = assign k w fs := by
  induction fs with
  | nil => exact if_pos rfl
  | cons f fs ih =>
    rw [assign]
    split_ifs with hf
    · rw [assign, if_pos rfl, assign, if_pos hf]
    · rw [assign, if_neg hf, ih, assign, if_neg hf]

theorem own_filter_self (k : String) (fs : List (String × JsVal ν)) :
    own k (fs.filter (·.1 ≠ k)) = none := by
  rw [← Option.not_isSome_iff_eq_none, own_isSome_iff, List.mem_map]
  rintro ⟨f, hf, rfl⟩
  simpa using (List.mem_filter.1 hf).2

end Objects

section Laws

/-- The proper prefixes of the path are objects, null or absent. -/
def Open (p : List String) (fs : List (String × JsVal ν)) : Prop :=
  ∀ q, q <+: p → q ≠ p → Passable (follow q (.obj fs))

theorem Open.head (ho : Open (key :: keys) fs) (hne : keys ≠ []) : Passable (own key fs) := by
  have h := ho [key] (List.prefix_append [key] keys) fun heq => hne (List.cons.inj heq).2.symm
  rw [follow_obj] at h
  rcases hown : own key fs with _ | v <;> rw [hown] at h <;> exact h

theorem Open.tail (ho : Open (key :: keys) fs) : Open keys (inner key fs) := by
  intro q hq hne
  rcases q with _ | ⟨k, q⟩
  · trivial
  · rw [← follow_cons (List.cons_ne_nil k q)]
    exact ho (key :: k :: q) (List.prefix_cons_inj key |>.2 hq) fun heq => hne (List.cons.inj heq).2

theorem inner_assign (key : String) (gs fs : List (String × JsVal ν)) :
    inner key (assign key (.obj gs) fs) = gs := by
  rw [inner, own_assign_self]

theorem passable_assign (key : String) (gs fs : List (String × JsVal ν)) :
    Passable (own key (assign key (.obj gs) fs)) := by
  rw [own_assign_self]
  trivial

/-- The fields after a change of those that the last key is of. -/
inductive Changes (f : String → List (String × JsVal ν) → List (String × JsVal ν)) :
    List String → List (String × JsVal ν) → List (String × JsVal ν) → Prop
  | last (key : String) (fs : List (String × JsVal ν)) : Changes f [key] fs (f key fs)
  | cons {key : String} {keys : List String} {fs gs : List (String × JsVal ν)} :
      keys ≠ [] → Passable (own key fs) → Changes f keys (inner key fs) gs →
        Changes f (key :: keys) fs (assign key (.obj gs) fs)

variable {f : String → List (String × JsVal ν) → List (String × JsVal ν)}

theorem Changes.getIn {o : Option (JsVal ν)} (h : Changes f p fs gs)
    (hf : ∀ key fs, own key (f key fs) = o) : getIn p (.obj gs) = o.getD .undefined := by
  induction h with
  | last key fs => rw [getIn_obj, hf, Maps.getIn]
  | cons _ _ _ ih => rw [getIn_obj, own_assign_self, Option.getD_some, ih]

theorem Changes.apart (h : Changes f p fs gs)
    (hf : ∀ {k key} fs, k ≠ key → own k (f key fs) = own k fs) (hqp : ¬ q <+: p)
    (hpq : ¬ p <+: q) : Maps.getIn q (.obj gs) = Maps.getIn q (.obj fs) := by
  induction h generalizing q with
  | last key fs =>
    rcases q with _ | ⟨k, q⟩
    · exact absurd List.nil_prefix hqp
    · have hk : k ≠ key := fun hk => hpq (hk ▸ List.prefix_append [k] q)
      rw [getIn_obj, getIn_obj, hf fs hk]
  | @cons key keys fs gs hne hpass _ ih =>
    rcases q with _ | ⟨k, q⟩
    · exact absurd List.nil_prefix hqp
    by_cases hk : k = key
    · subst hk
      have hq : q ≠ [] := by
        rintro rfl
        exact hqp (List.prefix_append [k] keys)
      rw [getIn_cons (passable_assign _ _ _) hq, getIn_cons hpass hq, inner_assign]
      exact ih (fun h => hqp (List.cons_prefix_cons.2 ⟨rfl, h⟩))
        fun h => hpq (List.cons_prefix_cons.2 ⟨rfl, h⟩)
    · rw [getIn_obj, getIn_obj, own_assign_ne hk]

theorem exists_sets (hne : p ≠ []) (ho : Open p fs) (v : JsVal ν) :
    ∃ gs, Changes (assign · v) p fs gs := by
  induction p generalizing fs with
  | nil => exact absurd rfl hne
  | cons key keys ih =>
    by_cases hkeys : keys = []
    · rw [hkeys]
      exact ⟨_, .last key fs⟩
    · obtain ⟨gs, hgs⟩ := ih hkeys ho.tail
      exact ⟨_, .cons hkeys (ho.head hkeys) hgs⟩

theorem setIn_of_changes (h : Changes (assign · v) p fs gs) :
    setIn p v (.obj fs) = some (.obj gs) := by
  induction h with
  | last key fs => rfl
  | cons hne hpass _ ih => rw [setIn_cons hpass hne, ih, Option.map_some]

theorem setIn_again (h : Changes (assign · v) p fs gs) (w : JsVal ν) :
    setIn p w (.obj gs) = setIn p w (.obj fs) := by
  induction h with
  | last key fs =>
    show some (JsVal.obj _) = some (JsVal.obj _)
    rw [assign_assign]
  | cons hne hpass _ ih =>
    rw [setIn_cons (passable_assign _ _ _) hne, setIn_cons hpass hne, inner_assign, ih]
    simp only [assign_assign]

theorem setIn_getIn (hne : p ≠ []) (ho : Open p fs) (hp : follow p (.obj fs) ≠ none) :
    setIn p (getIn p (.obj fs)) (.obj fs) = some (.obj fs) := by
  induction p generalizing fs with
  | nil => exact absurd rfl hne
  | cons key keys ih =>
    by_cases hkeys : keys = []
    · rw [hkeys, follow_obj] at hp
      rcases hown : own key fs with _ | u
      · rw [hown] at hp
        exact absurd rfl hp
      · rw [hkeys, getIn_obj, hown]
        show some (JsVal.obj _) = _
        rw [Option.getD_some, getIn, assign_own hown]
    · have hpass := ho.head hkeys
      have hown := own_of_follow hpass hkeys hp
      rw [follow_cons hkeys] at hp
      rw [getIn_cons hpass hkeys, setIn_cons hpass hkeys, ih hkeys ho.tail hp, Option.map_some,
        assign_own hown]

theorem deleteAlong_leaf (hu : u = .undefined ∨ u = .json .null) (keys : List String)
    (lastKey : String) : deleteAlong toNumber keys lastKey u = none := by
  induction keys generalizing u with
  | nil => rcases hu with rfl | rfl <;> rfl
  | cons key keys ih =>
    have hchild : child key u = .undefined := by rcases hu with rfl | rfl <;> rfl
    rw [deleteAlong, hchild, ih (.inl rfl), Option.bind_none]

theorem changes_of_deleteAlong (ho : Open (keys ++ [key]) fs)
    (h : deleteAlong toNumber keys key (.obj fs) = some u) :
    ∃ gs, u = .obj gs ∧ Changes (fun k fs => fs.filter (·.1 ≠ k)) (keys ++ [key]) fs gs := by
  induction keys generalizing fs u with
  | nil => exact ⟨_, (Option.some.inj h).symm, .last key fs⟩
  | cons k keys ih =>
    have hne : keys ++ [key] ≠ [] := List.append_ne_nil_of_right_ne_nil _ (List.cons_ne_nil _ _)
    have hpass := ho.head hne
    obtain ⟨i, hi, hu⟩ := Option.bind_eq_some_iff.1 h
    have hin : deleteAlong toNumber keys key (.obj (inner k fs)) = some i := by
      rw [child] at hi
      rw [inner]
      rcases hown : own k fs with _ | ⟨_ | f | j | fields⟩ <;> rw [hown] at hi hpass
      · rw [Option.getD_none, deleteAlong_leaf (.inl rfl)] at hi
        cases hi
      · rw [Option.getD_some, deleteAlong_leaf (.inl rfl)] at hi
        cases hi
      · exact hpass.elim
      · cases j with
        | null =>
          rw [Option.getD_some, deleteAlong_leaf (.inr rfl)] at hi
          cases hi
        | _ => exact hpass.elim
      · exact hi
    obtain ⟨gs, rfl, hgs⟩ := ih ho.tail hin
    exact ⟨_, (Option.some.inj hu).symm, .cons hne hpass hgs⟩

theorem changes_of_deleteIn (ho : Open p fs) (h : deleteIn toNumber p (.obj fs) = some u) :
    ∃ gs, u = .obj gs ∧ Changes (fun k fs => fs.filter (·.1 ≠ k)) p fs gs := by
  unfold deleteIn at h
  rcases hlast : p.getLast? with _ | lastKey <;> rw [hlast] at h
  · cases h
  · have hp : p.dropLast ++ [lastKey] = p := List.dropLast_append_getLast? _ hlast
    have hdel : (if lastKey = "" then none else
      deleteAlong toNumber p.dropLast lastKey (.obj fs)) = some u := h
    split_ifs at hdel
    have hchange := changes_of_deleteAlong (hp.symm ▸ ho) hdel
    rw [hp] at hchange
    exact hchange

/-- The laws of a place in a tree of maps: what is set is read, the last of two settings stands,
what is read and set changes nothing, what is deleted is not read, and a path that parts from it
reads the same. -/
theorem path_laws (toNumber : String → Option ℕ) (o : List (String × JsVal ν)) (p : String)
    (ho : Open (splitPath p) o) (v w : JsVal ν) :
    ∃ o', setIn (splitPath p) v (.obj o) = some o' ∧ getIn (splitPath p) o' = v ∧
      setIn (splitPath p) w o' = setIn (splitPath p) w (.obj o) ∧
      (follow (splitPath p) (.obj o) ≠ none →
        setIn (splitPath p) (getIn (splitPath p) (.obj o)) (.obj o) = some (.obj o)) ∧
      (∀ q, ¬ splitPath q <+: splitPath p → ¬ splitPath p <+: splitPath q →
        getIn (splitPath q) o' = getIn (splitPath q) (.obj o)) ∧
      ∀ o'', deleteIn toNumber (splitPath p) (.obj o) = some o'' →
        getIn (splitPath p) o'' = .undefined ∧
          ∀ q, ¬ splitPath q <+: splitPath p → ¬ splitPath p <+: splitPath q →
            getIn (splitPath q) o'' = getIn (splitPath q) (.obj o) := by
  obtain ⟨gs, hgs⟩ := exists_sets (splitPath_ne_nil p) ho v
  refine ⟨.obj gs, setIn_of_changes hgs, ?_, setIn_again hgs w,
    setIn_getIn (splitPath_ne_nil p) ho, fun q hqp hpq => ?_, fun o'' hdel => ?_⟩
  · exact hgs.getIn fun key fs => own_assign_self key v fs
  · exact hgs.apart (fun fs hk => own_assign_ne hk v fs) hqp hpq
  · obtain ⟨hs, rfl, hhs⟩ := changes_of_deleteIn ho hdel
    exact ⟨hhs.getIn own_filter_self, fun q hqp hpq =>
      hhs.apart (fun fs hk => own_filter_ne hk fs) hqp hpq⟩

/-- A port of a database that is configured. -/
def ported : List (String × JsVal ℕ) := [("database", .obj [("port", .json (.num 5432))])]

theorem path_laws_ported : ∃ o', setIn (splitPath "database.port") (.json (.num 5433))
    (.obj ported) = some o' ∧ getIn (splitPath "database.port") o' = .json (.num 5433) := by
  have hkeys : splitPath "database.port" = ["database", "port"] := by decide +kernel
  have ho : Open (splitPath "database.port") ported := by
    rw [hkeys]
    intro q hq hne
    rcases q with _ | ⟨k, _ | ⟨k', q⟩⟩
    · trivial
    · obtain ⟨rfl, -⟩ := List.cons_prefix_cons.1 hq
      trivial
    · obtain ⟨hk, hq⟩ := List.cons_prefix_cons.1 hq
      obtain ⟨hk', hq⟩ := List.cons_prefix_cons.1 hq
      exact absurd (by rw [hk, hk', List.prefix_nil.1 hq]) hne
  obtain ⟨o', hset, hget, -⟩ := path_laws (fun _ => none) ported "database.port" ho
    (.json (.num 5433)) .undefined
  exact ⟨o', hset, hget⟩

end Laws

section Inherited

/-- No object inherits the keys. -/
def Uninherited (keys : List String) : Prop := ∀ key ∈ keys, key ∉ "__proto__" :: inherited

theorem child_eq (hkey : key ∉ "__proto__" :: inherited) (u : JsVal ν) :
    Config.child key u = child key u := by
  cases u with
  | obj fields =>
    rw [Config.child, child]
    rcases own key fields with _ | v
    · exact if_neg hkey
    · rfl
  | _ => rfl

theorem getIn_eq (hkeys : Uninherited keys) (u : JsVal ν) : Config.getIn keys u = getIn keys u := by
  induction keys generalizing u with
  | nil => cases u <;> rfl
  | cons key keys ih =>
    obtain ⟨hkey, hkeys⟩ := List.forall_mem_cons.1 hkeys
    have hnone : key ∉ inherited := fun h => hkey (List.mem_cons_of_mem _ h)
    have hundef : getIn keys (.undefined : JsVal ν) = .undefined := getIn_undefined keys
    cases u with
    | obj fields =>
      rw [Config.getIn, ih hkeys, getIn, child, JsVal.read]
      rcases own key fields with _ | v
      · rw [if_neg hnone, Option.getD_none]
      · rfl
    | json j =>
      cases j with
      | arr items =>
        rw [Config.getIn, ih hkeys]
        rfl
      | _ => exact hundef.symm
    | _ => exact hundef.symm

theorem assignAt_eq (hkey : key ∉ "__proto__" :: inherited) (v u : JsVal ν) :
    Config.assignAt key v u = assignAt key v u := by
  cases u with
  | obj fields =>
    rw [Config.assignAt, if_neg fun h : key = "__proto__" => hkey (h ▸ List.mem_cons_self)]
    rfl
  | _ => rfl

theorem setPath_eq (hkeys : Uninherited keys) (hne : keys ≠ []) (v u : JsVal ν) :
    setPath keys v u = setIn keys v u := by
  induction keys generalizing u with
  | nil => exact absurd rfl hne
  | cons key keys ih =>
    obtain ⟨hkey, hkeys⟩ := List.forall_mem_cons.1 hkeys
    rcases keys with _ | ⟨key', keys⟩
    · exact assignAt_eq hkey v u
    · rw [setPath, setIn, child_eq hkey]
      · simp only [ih hkeys (List.cons_ne_nil _ _), assignAt_eq hkey]
      · exact List.cons_ne_nil _ _
      · exact List.cons_ne_nil _ _

theorem deleteAlong_leaf_eq (hu : u = .undefined ∨ u = .json .null) (keys : List String)
    (lastKey : String) : Config.deleteAlong toNumber keys lastKey u = none := by
  induction keys generalizing u with
  | nil => rcases hu with rfl | rfl <;> rfl
  | cons key keys ih =>
    have hchild : Config.child key u = .undefined := by rcases hu with rfl | rfl <;> rfl
    rw [Config.deleteAlong, hchild]
    show (Config.deleteAlong toNumber keys lastKey .undefined).bind _ = none
    rw [ih (.inl rfl), Option.bind_none]

theorem deleteAlong_eq (hkeys : Uninherited keys) (ho : Open (keys ++ [k]) fs) :
    Config.deleteAlong toNumber keys k (.obj fs) = deleteAlong toNumber keys k (.obj fs) := by
  induction keys generalizing fs with
  | nil => rfl
  | cons key keys ih =>
    obtain ⟨hkey, hkeys⟩ := List.forall_mem_cons.1 hkeys
    have hpass := ho.head (List.append_ne_nil_of_right_ne_nil _ (List.cons_ne_nil _ _))
    have ih := ih hkeys ho.tail
    rw [Config.deleteAlong, deleteAlong, child_eq hkey, child]
    rw [inner] at ih
    rcases hown : own key fs with _ | ⟨_ | f | j | fields⟩ <;> rw [hown] at hpass ih
    · rw [Option.getD_none, deleteAlong_leaf (.inl rfl)]
      show (Config.deleteAlong toNumber keys k .undefined).bind _ = _
      rw [deleteAlong_leaf_eq (.inl rfl), Option.bind_none, Option.bind_none]
    · rw [Option.getD_some, deleteAlong_leaf (.inl rfl)]
      show (Config.deleteAlong toNumber keys k .undefined).bind _ = _
      rw [deleteAlong_leaf_eq (.inl rfl), Option.bind_none, Option.bind_none]
    · exact hpass.elim
    · cases j with
      | null =>
        rw [Option.getD_some, deleteAlong_leaf (.inr rfl)]
        show (Config.deleteAlong toNumber keys k (.json .null)).bind _ = _
        rw [deleteAlong_leaf_eq (.inr rfl), Option.bind_none, Option.bind_none]
      | _ => exact hpass.elim
    · show (Config.deleteAlong toNumber keys k (.obj fields)).bind _ = _
      simp only [Option.getD_some, ih, assignAt_eq hkey]

theorem deletePath_eq (hkeys : Uninherited p) (ho : Open p fs) :
    deletePath toNumber p (.obj fs) = deleteIn toNumber p (.obj fs) := by
  unfold deletePath deleteIn
  rcases hlast : p.getLast? with _ | lastKey
  · rfl
  · have hp : p.dropLast ++ [lastKey] = p := List.dropLast_append_getLast? _ hlast
    have hdrop : Uninherited p.dropLast := fun key hkey => hkeys key (List.mem_of_mem_dropLast hkey)
    show (if lastKey = "" then none else _) = if lastKey = "" then none else _
    rw [deleteAlong_eq hdrop (hp.symm ▸ ho)]

end Inherited

end Maps

end Config

end VeriNode
