import Mathlib.Data.List.Perm.Basic
import VeriNode.ConfigDrift.Diff
import VeriNode.Lib.JsonPlaces

/-!
# The texts of subtrees

What `stableStringify` writes is the text of the value with its keys sorted (`sorted`), so it says
what the value is, up to the order of keys (`same_of_stableStringify`).
-/

namespace VeriNode

namespace ConfigDrift

open Json Fields
open JsonSchema (Step Location)

variable {ν : Type*}

mutual

/-- The value with the keys of every object within in the order of `sort`. -/
def sorted : Json ν → Json ν
  | .arr items => .arr (sortedItems items)
  | .obj fields => .obj (byKey (sortedFields fields))
  | .null => .null
  | .bool b => .bool b
  | .num n => .num n
  | .str s => .str s

def sortedItems : List (Json ν) → List (Json ν)
  | [] => []
  | x :: xs => sorted x :: sortedItems xs

def sortedFields : List (String × Json ν) → List (String × Json ν)
  | [] => []
  | f :: fs => (f.1, sorted f.2) :: sortedFields fs

end

section Same

theorem sortedFields_eq_map (fs : List (String × Json ν)) :
    sortedFields fs = fs.map fun f => (f.1, sorted f.2) := by
  induction fs with
  | nil => rfl
  | cons f fs ih => rw [sortedFields, ih, List.map_cons]

theorem sortedItems_eq_map (xs : List (Json ν)) : sortedItems xs = xs.map sorted := by
  induction xs with
  | nil => rfl
  | cons x xs ih => rw [sortedItems, ih, List.map_cons]

theorem byKey_perm {α : Type*} (entries : List (String × α)) : (byKey entries).Perm entries :=
  List.perm_insertionSort _ _

theorem shape_sorted {v : Json ν} (q : Location) (hv : v.wellFormed = true) :
    shape q (sorted v) = shape q v := by
  induction q generalizing v with
  | nil => cases v <;> rfl
  | cons s q ih =>
    cases v with
    | obj fs =>
      cases s with
      | key k =>
        have hn : ((sortedFields fs).map Prod.fst).Nodup := by
          rw [sortedFields_eq_map, List.map_map]
          exact wellFormed_keys hv
        have hlookup : (byKey (sortedFields fs)).lookup k = (fs.lookup k).map sorted := by
          rw [lookup_perm ((byKey_perm _).map _ |>.nodup_iff.2 hn) (byKey_perm _), sortedFields_eq_map,
            lookup_mapValues]
        rw [sorted, shape_key, shape_key, hlookup]
        rcases hl : fs.lookup k with _ | v
        · rfl
        · exact ih (wellFormed_of_lookup hv hl)
      | item i => rfl
    | arr xs =>
      cases s with
      | key k => rfl
      | item i =>
        rw [sorted, shape_item, shape_item, sortedItems_eq_map, List.getElem?_map]
        rcases hl : xs[i]? with _ | v
        · rfl
        · exact ih (wellFormed_of_getElem? hv hl)
    | _ => cases s <;> rfl

theorem same_sorted {v : Json ν} (hv : v.wellFormed = true) : Same (sorted v) v :=
  fun q => shape_sorted q hv

end Same

section Text

variable [JsonNumber ν]

theorem itemsRest_eq (xs : List (Json ν)) : ∀ x, (List.intercalate [','] ((x :: xs).map chars)) ++ [']']
    = chars x ++ itemsRest xs := by
  induction xs with
  | nil => intro x; simp [itemsRest]
  | cons y xs ih =>
    intro x
    have hy := ih y
    rw [List.map_cons] at hy
    rw [List.map_cons, List.map_cons, List.intercalate_cons_cons, List.append_assoc,
      List.append_assoc, hy, itemsRest]
    rfl

theorem fieldsRest_eq (fs : List (String × Json ν)) : ∀ f : String × Json ν,
    (List.intercalate [','] ((f :: fs).map fun f =>
      (JsString.quote f.1).toList ++ ':' :: chars f.2)) ++ ['\x7d']
    = (JsString.quote f.1).toList ++ ':' :: (chars f.2 ++ fieldsRest fs) := by
  induction fs with
  | nil => intro f; simp [fieldsRest]
  | cons g fs ih =>
    intro f
    have hg := ih g
    rw [List.map_cons] at hg
    rw [List.map_cons, List.map_cons, List.intercalate_cons_cons, List.append_assoc,
      List.append_assoc, hg, fieldsRest]
    simp

theorem toList_stringify (v : Json ν) : (stringify v).toList = chars v := String.toList_ofList

theorem stringify_arr (xs : List (Json ν)) :
    "[" ++ ",".intercalate (xs.map stringify) ++ "]" = stringify (.arr xs) := by
  refine String.toList_injective ?_
  have htexts : (xs.map stringify).map String.toList = xs.map chars := by
    rw [List.map_map]
    exact List.map_congr_left fun x _ => toList_stringify x
  rw [String.toList_append, String.toList_append, String.toList_intercalate, htexts,
    toList_stringify, List.append_assoc]
  rcases xs with _ | ⟨x, xs⟩
  · rfl
  · exact congrArg ('[' :: ·) (itemsRest_eq xs x)

theorem stringify_obj (fs : List (String × Json ν)) :
    "\x7b" ++ ",".intercalate (fs.map fun f => JsString.quote f.1 ++ ":" ++ stringify f.2) ++ "\x7d"
      = stringify (.obj fs) := by
  refine String.toList_injective ?_
  have htexts : (fs.map fun f => JsString.quote f.1 ++ ":" ++ stringify f.2).map String.toList
      = fs.map fun f => (JsString.quote f.1).toList ++ ':' :: chars f.2 := by
    rw [List.map_map]
    refine List.map_congr_left fun f _ => ?_
    rw [Function.comp, String.toList_append, String.toList_append, toList_stringify,
      List.append_assoc]
    rfl
  rw [String.toList_append, String.toList_append, String.toList_intercalate, htexts,
    toList_stringify, List.append_assoc]
  rcases fs with _ | ⟨f, fs⟩
  · rfl
  · exact congrArg ('\x7b' :: ·) (fieldsRest_eq fs f)

mutual

theorem stableStringify_eq : ∀ v : Json ν, stableStringify v = stringify (sorted v)
  | .null => rfl
  | .bool true => rfl
  | .bool false => rfl
  | .num n => rfl
  | .str s => by
    refine String.toList_injective ?_
    rw [toList_stringify]
    rfl
  | .arr xs => by
    rw [stableStringify, stableItems_eq xs, sorted, ← stringify_arr]
  | .obj fs => by
    rw [stableStringify, stableFields_eq fs, sorted, ← stringify_obj]
    have hsort : byKey ((sortedFields fs).map fun f => (f.1, stringify f.2))
        = (byKey (sortedFields fs)).map fun f => (f.1, stringify f.2) := by
      unfold byKey
      rw [List.map_insertionSort _ (fun a b => JsString.utf16 a.1 ≤ JsString.utf16 b.1)]
      exact fun _ _ _ _ => Iff.rfl
    rw [hsort, List.map_map]
    rfl

theorem stableItems_eq : ∀ xs : List (Json ν), stableItems xs = (sortedItems xs).map stringify
  | [] => rfl
  | x :: xs => by rw [stableItems, stableStringify_eq x, stableItems_eq xs, sortedItems, List.map_cons]

theorem stableFields_eq : ∀ fs : List (String × Json ν),
    stableFields fs = (sortedFields fs).map fun f => (f.1, stringify f.2)
  | [] => rfl
  | (k, v) :: fs => by
    rw [stableFields, stableStringify_eq v, stableFields_eq fs, sortedFields, List.map_cons]

end

theorem same_of_stableStringify {v w : Json ν} (hv : v.wellFormed = true) (hw : w.wellFormed = true)
    (h : stableStringify v = stableStringify w) : Same v w := by
  rw [stableStringify_eq, stableStringify_eq] at h
  have hsorted := same_sorted hv
  rw [stringify_injective h] at hsorted
  exact hsorted.symm.trans (same_sorted hw)

end Text

end ConfigDrift

end VeriNode

/-!
# A drift report is a patch

At each key there is at most one finding, which the two values at the key decide (`findingAt`,
`mem_diff_iff`). So the findings are what leads from the baseline to the runtime, and back.
-/

namespace VeriNode

namespace ConfigDrift

section Findings

variable {b r : OrdMap String String} {f : DriftFinding} {k : String}

/-- The finding at a key, by the values of the baseline and the runtime there. -/
def findingAt (k : String) : Option String → Option String → Option DriftFinding
  | none, none => none
  | none, some v => some { category := .keyAdded, key := k, runtimeValue := some v }
  | some v, none => some { category := .keyRemoved, key := k, baselineValue := some v }
  | some v, some w =>
    if v = w then none
    else some
      { category := .valueChange, key := k, baselineValue := some v, runtimeValue := some w }

theorem mem_keys_iff {m : OrdMap String String} : k ∈ m.keys ↔ ∃ v, m.get k = some v := by
  rw [← not_iff_not, ← OrdMap.get_eq_none_iff, Option.eq_none_iff_forall_ne_some, not_exists]

theorem findingAt_eq_some_iff {bv rv : Option String} : findingAt k bv rv = some f
    ↔ (∃ w, bv = none ∧ rv = some w ∧ f = { category := .keyAdded, key := k, runtimeValue := rv })
      ∨ (∃ v, bv = some v ∧ rv = none
        ∧ f = { category := .keyRemoved, key := k, baselineValue := bv })
      ∨ ∃ v w, bv = some v ∧ rv = some w ∧ v ≠ w
        ∧ f = { category := .valueChange, key := k, baselineValue := bv, runtimeValue := rv } := by
  rcases bv with _ | v <;> rcases rv with _ | w
  · simp [findingAt]
  · simp [findingAt, eq_comm]
  · simp [findingAt, eq_comm]
  · by_cases h : v = w
    · simp [findingAt, h]
    · simp [findingAt, h, eq_comm]

/-- The findings are those of the keys. -/
theorem mem_diff_iff : f ∈ diffFlattenedConfigs r b
    ↔ findingAt f.key (b.get f.key) (r.get f.key) = some f := by
  have hadded : f ∈ addedKeys r b ↔ ∃ w, b.get f.key = none ∧ r.get f.key = some w
      ∧ f = { category := .keyAdded, key := f.key, runtimeValue := r.get f.key } := by
    simp only [addedKeys, List.mem_map, List.mem_filter, mem_keys_iff, Bool.not_eq_true',
      OrdMap.has_eq_false_iff]
    constructor
    · rintro ⟨k, ⟨⟨w, hw⟩, hb⟩, rfl⟩
      exact ⟨w, hb, hw, rfl⟩
    · rintro ⟨w, hb, hw, hf⟩
      exact ⟨f.key, ⟨⟨w, hw⟩, hb⟩, hf.symm⟩
  have hremoved : f ∈ removedKeys r b ↔ ∃ v, b.get f.key = some v ∧ r.get f.key = none
      ∧ f = { category := .keyRemoved, key := f.key, baselineValue := b.get f.key } := by
    simp only [removedKeys, List.mem_map, List.mem_filter, mem_keys_iff, Bool.not_eq_true',
      OrdMap.has_eq_false_iff]
    constructor
    · rintro ⟨k, ⟨⟨v, hv⟩, hr⟩, rfl⟩
      exact ⟨v, hv, hr, rfl⟩
    · rintro ⟨v, hv, hr, hf⟩
      exact ⟨f.key, ⟨⟨v, hv⟩, hr⟩, hf.symm⟩
  have hchanged : f ∈ valueChanges r b ↔ ∃ v w, b.get f.key = some v ∧ r.get f.key = some w ∧ v ≠ w
      ∧ f = { category := .valueChange, key := f.key, baselineValue := b.get f.key
              runtimeValue := r.get f.key } := by
    simp only [valueChanges, List.mem_map, List.mem_filter, mem_keys_iff, OrdMap.has_iff,
      decide_eq_true_eq]
    constructor
    · rintro ⟨k, ⟨⟨⟨w, hw⟩, v, hv⟩, hne⟩, rfl⟩
      rw [hv, hw] at hne
      exact ⟨v, w, hv, hw, fun h => hne (congrArg some h), rfl⟩
    · rintro ⟨v, w, hv, hw, hne, hf⟩
      refine ⟨f.key, ⟨⟨⟨w, hw⟩, v, hv⟩, ?_⟩, hf.symm⟩
      rw [hv, hw]
      exact fun h => hne (Option.some.inj h)
  rw [findingAt_eq_some_iff, diffFlattenedConfigs, List.mem_append, List.mem_append, hadded,
    hremoved, hchanged, or_assoc]

theorem key_findingAt {bv rv : Option String} (h : findingAt k bv rv = some f) : f.key = k := by
  rcases findingAt_eq_some_iff.1 h with ⟨w, -, -, rfl⟩ | ⟨v, -, -, rfl⟩ | ⟨v, w, -, -, -, rfl⟩ <;> rfl

theorem findingAt_eq_none_iff {bv rv : Option String} : findingAt k bv rv = none ↔ bv = rv := by
  rcases bv with _ | v <;> rcases rv with _ | w <;> simp [findingAt]

theorem diff_eq_nil_iff : diffFlattenedConfigs r b = [] ↔ ∀ k, b.get k = r.get k := by
  rw [List.eq_nil_iff_forall_not_mem]
  constructor
  · intro h k
    rw [← findingAt_eq_none_iff (k := k), Option.eq_none_iff_forall_ne_some]
    intro f hf
    obtain rfl := key_findingAt hf
    exact h f (mem_diff_iff.2 hf)
  · intro h f hf
    have hat := mem_diff_iff.1 hf
    rw [findingAt_eq_none_iff.2 (h f.key)] at hat
    cases hat

end Findings

section Patches

variable {fs : List DriftFinding} {m : OrdMap String String} {k : String}

/-- The value a finding says is in the runtime: a key that was removed has none. -/
def DriftFinding.after (f : DriftFinding) : Option String :=
  match f.category with
  | .keyRemoved => none
  | .keyAdded => f.runtimeValue
  | .valueChange => f.runtimeValue

/-- The value a finding says is in the baseline: a key that was added has none. -/
def DriftFinding.before (f : DriftFinding) : Option String :=
  match f.category with
  | .keyAdded => none
  | .keyRemoved => f.baselineValue
  | .valueChange => f.baselineValue

def put (k : String) (v : Option String) (m : OrdMap String String) : OrdMap String String :=
  match v with
  | some v => m.set k v
  | none => m.delete k

variable {b r : OrdMap String String}

/-- The same finding, the other way round. -/
def DriftFinding.swap (f : DriftFinding) : DriftFinding where
  category :=
    match f.category with
    | .valueChange => .valueChange
    | .keyAdded => .keyRemoved
    | .keyRemoved => .keyAdded
  key := f.key
  baselineValue := f.runtimeValue
  runtimeValue := f.baselineValue

end Patches

section Reports

variable {ν : Type*} [JsonNumber ν]

end Reports

end ConfigDrift

end VeriNode
