import VeriNode.Proofs.DriftReport
import VeriNode.Proofs.Drift

/-!
# What a flattened configuration says of it

`flattenConfig` assigns a text to the path of every leaf (`mem_visit_iff`). Where no key could be
taken for several and no text for another value's (`Plain`), the paths spell the leaves' places and
the texts are the leaves, so no findings means no difference (`same_of_no_findings`). Elsewhere
differences are missed.
-/

namespace VeriNode

namespace ConfigDrift

open Json Fields
open Drift (joinKeys Spelled segments)

variable {ν : Type*}

section Children

/-- Nothing is within. -/
def IsLeaf : Json ν → Prop
  | .arr items => items = []
  | .obj fields => fields = []
  | _ => True

instance : DecidablePred (IsLeaf (ν := ν)) := fun v => by
  cases v <;> unfold IsLeaf <;> infer_instance

/-- What is within, by its key. -/
def children : Json ν → List (String × Json ν)
  | .arr items => indexed items
  | .obj fields => fields
  | _ => []

theorem indexText_injective : Function.Injective indexText := by
  intro i j h
  have htexts : JsonNumber.text i = JsonNumber.text j := String.ofList_injective h
  exact JsonNumber.text_injective htexts

theorem mem_indexed_iff {k : String} {x : Json ν} {xs : List (Json ν)} :
    (k, x) ∈ indexed xs ↔ ∃ i : ℕ, xs[i]? = some x ∧ indexText i = k := by
  simp only [indexed, List.mem_map, Prod.mk.injEq, Prod.exists, List.mem_zipIdx_iff_getElem?]
  constructor
  · rintro ⟨y, i, hi, hk, rfl⟩
    exact ⟨i, hi, hk⟩
  · rintro ⟨i, hi, hk⟩
    exact ⟨x, i, hi, hk, rfl⟩

theorem map_fst_indexed (xs : List (Json ν)) :
    (indexed xs).map Prod.fst = (List.range xs.length).map indexText := by
  rw [List.range_eq_range', ← List.zipIdx_map_snd, List.map_map, indexed, List.map_map]
  rfl

theorem nodup_children {v : Json ν} (hv : v.wellFormed = true) :
    ((children v).map Prod.fst).Nodup := by
  cases v with
  | arr xs =>
    rw [children, map_fst_indexed]
    exact List.nodup_range.map indexText_injective
  | obj fs => exact wellFormed_keys hv
  | _ => exact List.nodup_nil

theorem wellFormed_child {v w : Json ν} {k : String} (hv : v.wellFormed = true)
    (hw : (children v).lookup k = some w) : w.wellFormed = true := by
  cases v with
  | arr xs =>
    obtain ⟨i, hi, -⟩ := mem_indexed_iff.1 (mem_of_lookup hw)
    exact wellFormed_of_getElem? hv hi
  | obj fs => exact wellFormed_of_lookup hv hw
  | _ => cases hw

theorem children_eq_nil {v : Json ν} (hv : IsLeaf v) : children v = [] := by
  cases v with
  | arr xs =>
    obtain rfl : xs = [] := hv
    rfl
  | obj fs => exact hv
  | _ => rfl

end Children

section Texts

variable [JsonNumber ν] (maxDepth : ℕ)

/-- The text of the leaf at a place; what lies too deep is a leaf. -/
def textAt : ℕ → List String → Json ν → Option String
  | depth, [], v => if maxDepth < depth ∨ IsLeaf v then some (normalizeValue v) else none
  | depth, k :: q, v =>
    if maxDepth < depth then none else ((children v).lookup k).bind (textAt (depth + 1) q)

variable {maxDepth} {depth : ℕ} {v : Json ν} {q : List String} {k pre p t : String}

theorem textAt_nil : textAt maxDepth depth [] v = some t
    ↔ (maxDepth < depth ∨ IsLeaf v) ∧ normalizeValue v = t := by
  rw [textAt]
  split_ifs with h
  · simp [h]
  · simp [h]

theorem textAt_cons : textAt maxDepth depth (k :: q) v = some t ↔ depth ≤ maxDepth
    ∧ ∃ w, (children v).lookup k = some w ∧ textAt maxDepth (depth + 1) q w = some t := by
  rw [textAt]
  split_ifs with h
  · simp [h]
  · rw [Option.bind_eq_some_iff]
    exact ⟨fun hw => ⟨not_lt.1 h, hw⟩, fun hw => hw.2⟩

/-- Something is assigned at a path below a prefix. -/
def TextBelow (maxDepth depth : ℕ) (v : Json ν) (pre p t : String) : Prop :=
  ∃ q, textAt maxDepth depth q v = some t ∧ p = joinKeys pre q

theorem nil_of_textAt (h : maxDepth < depth ∨ IsLeaf v) (ht : textAt maxDepth depth q v = some t) :
    q = [] := by
  rcases q with _ | ⟨k, q⟩
  · rfl
  · obtain ⟨hdepth, w, hw, -⟩ := textAt_cons.1 ht
    rcases h with h | h
    · exact absurd hdepth (not_le.2 h)
    · rw [children_eq_nil h] at hw
      cases hw

theorem textBelow_of_leaf (h : maxDepth < depth ∨ IsLeaf v) :
    TextBelow maxDepth depth v pre p t ↔ p = pre ∧ t = normalizeValue v := by
  constructor
  · rintro ⟨q, ht, rfl⟩
    obtain rfl := nil_of_textAt h ht
    exact ⟨rfl, (textAt_nil.1 ht).2.symm⟩
  · rintro ⟨rfl, rfl⟩
    exact ⟨[], textAt_nil.2 ⟨h, rfl⟩, rfl⟩

theorem mem_leaf_iff (h : maxDepth < depth ∨ IsLeaf v) :
    (p, t) ∈ [(pre, normalizeValue v)] ↔ TextBelow maxDepth depth v pre p t := by
  rw [textBelow_of_leaf h, List.mem_singleton, Prod.mk.injEq]

theorem textBelow_iff (hv : v.wellFormed = true) (hdepth : depth ≤ maxDepth) (hleaf : ¬ IsLeaf v) :
    TextBelow maxDepth depth v pre p t ↔ ∃ f ∈ children v,
      TextBelow maxDepth (depth + 1) f.2 (nextPrefix pre f.1) p t := by
  constructor
  · rintro ⟨_ | ⟨k, q⟩, ht, rfl⟩
    · rcases (textAt_nil.1 ht).1 with h | h
      · exact absurd hdepth (not_le.2 h)
      · exact absurd h hleaf
    · obtain ⟨-, w, hw, ht⟩ := textAt_cons.1 ht
      exact ⟨(k, w), mem_of_lookup hw, q, ht, rfl⟩
  · rintro ⟨⟨k, w⟩, hf, q, ht, rfl⟩
    exact ⟨k :: q, textAt_cons.2 ⟨hdepth, w, (lookup_eq_some_iff_mem (nodup_children hv)).2 hf, ht⟩, rfl⟩

theorem mem_flatMap_byKey {entries : List (String × List (String × String))} {e : String × String} :
    e ∈ (byKey entries).flatMap Prod.snd ↔ ∃ f ∈ entries, e ∈ f.2 := by
  simp only [List.mem_flatMap, (byKey_perm entries).mem_iff]

mutual

theorem mem_visit_iff : ∀ (v : Json ν) (pre : String) (depth : ℕ), v.wellFormed = true →
    ((p, t) ∈ visit maxDepth v pre depth ↔ TextBelow maxDepth depth v pre p t)
  | .null, pre, depth, _ => mem_leaf_iff (.inr trivial)
  | .bool _, pre, depth, _ => mem_leaf_iff (.inr trivial)
  | .num _, pre, depth, _ => mem_leaf_iff (.inr trivial)
  | .str _, pre, depth, _ => mem_leaf_iff (.inr trivial)
  | .arr xs, pre, depth, hv => by
    rw [visit]
    split_ifs with hdepth hempty
    · exact mem_leaf_iff (.inl hdepth)
    · obtain rfl := List.isEmpty_iff.1 hempty
      exact mem_leaf_iff (v := .arr []) (.inr (Eq.refl []))
    · have hleaf : ¬ IsLeaf (.arr xs) := fun h => hempty (List.isEmpty_iff.2 h)
      rw [textBelow_iff hv (not_lt.1 hdepth) hleaf, mem_visitItems_iff xs 0 pre (depth + 1) hv]
      simp only [children, Prod.exists, mem_indexed_iff, Nat.zero_add]
      constructor
      · rintro ⟨i, x, hi, ht⟩
        exact ⟨_, x, ⟨i, hi, rfl⟩, ht⟩
      · rintro ⟨_, x, ⟨i, hi, rfl⟩, ht⟩
        exact ⟨i, x, hi, ht⟩
  | .obj fs, pre, depth, hv => by
    rw [visit]
    split_ifs with hdepth hempty
    · exact mem_leaf_iff (.inl hdepth)
    · obtain rfl := List.isEmpty_iff.1 hempty
      exact mem_leaf_iff (v := .obj []) (.inr (Eq.refl []))
    · have hleaf : ¬ IsLeaf (.obj fs) := fun h => hempty (List.isEmpty_iff.2 h)
      have hfields := hv
      rw [Json.wellFormed, everyObj, Bool.and_eq_true] at hfields
      rw [textBelow_iff hv (not_lt.1 hdepth) hleaf, mem_flatMap_byKey,
        exists_mem_visitFields_iff fs pre (depth + 1) hfields.2]
      rfl

theorem mem_visitItems_iff : ∀ (xs : List (Json ν)) (i : ℕ) (pre : String) (depth : ℕ),
    everyItem (fun keys => keys.Pairwise (precedes · ·)) xs = true →
    ((p, t) ∈ visitItems maxDepth xs i pre depth ↔ ∃ (j : ℕ) (x : Json ν), xs[j]? = some x
      ∧ TextBelow maxDepth depth x (nextPrefix pre (indexText (i + j))) p t)
  | [], i, pre, depth, _ => by simp [visitItems]
  | x :: xs, i, pre, depth, h => by
    rw [everyItem, Bool.and_eq_true] at h
    rw [visitItems, List.mem_append, mem_visit_iff x _ depth h.1,
      mem_visitItems_iff xs (i + 1) pre depth h.2]
    constructor
    · rintro (ht | ⟨j, y, hy, ht⟩)
      · exact ⟨0, x, rfl, ht⟩
      · refine ⟨j + 1, y, hy, ?_⟩
        rwa [← Nat.add_assoc, Nat.add_right_comm]
    · rintro ⟨_ | j, y, hy, ht⟩
      · obtain rfl := Option.some.inj hy
        exact .inl ht
      · refine .inr ⟨j, y, hy, ?_⟩
        rwa [Nat.add_right_comm]

theorem exists_mem_visitFields_iff : ∀ (fs : List (String × Json ν)) (pre : String) (depth : ℕ),
    everyField (fun keys => keys.Pairwise (precedes · ·)) fs = true →
    ((∃ f ∈ visitFields maxDepth fs pre depth, (p, t) ∈ f.2) ↔ ∃ f ∈ fs,
      TextBelow maxDepth depth f.2 (nextPrefix pre f.1) p t)
  | [], pre, depth, _ => by simp [visitFields]
  | (k, v) :: fs, pre, depth, h => by
    rw [everyField, Bool.and_eq_true] at h
    rw [visitFields, List.exists_mem_cons_iff, List.exists_mem_cons_iff,
      mem_visit_iff v _ depth h.1, exists_mem_visitFields_iff fs pre depth h.2]

end

end Texts

section Flattened

variable {l : List (String × String)} {out : OrdMap String String} {k p t : String}

theorem get_foldl_assignOut (hp : p ≠ "__proto__") (h : ∀ t', (p, t') ∈ l → t' = t)
    (hmem : (p, t) ∈ l ∨ out.get p = some t) : (l.foldl assignOut out).get p = some t := by
  induction l generalizing out with
  | nil => simpa using hmem
  | cons e l ih =>
    refine ih (fun t' ht' => h t' (List.mem_cons_of_mem _ ht')) ?_
    rcases hmem with hmem | hout
    · rcases List.mem_cons.1 hmem with rfl | hmem
      · refine .inr ?_
        rw [assignOut, if_neg hp, OrdMap.get_set_self]
      · exact .inl hmem
    · refine .inr ?_
      obtain ⟨k, u⟩ := e
      rw [assignOut]
      split_ifs with hk
      · exact hout
      · rw [OrdMap.get_set]
        split_ifs with he
        · obtain rfl : p = k := he
          rw [h u List.mem_cons_self]
        · exact hout

theorem mem_of_get_foldl_assignOut (h : (l.foldl assignOut out).get p = some t) :
    (p, t) ∈ l ∧ p ≠ "__proto__" ∨ out.get p = some t := by
  induction l generalizing out with
  | nil => exact .inr h
  | cons e l ih =>
    rcases ih h with ⟨hmem, hp⟩ | hout
    · exact .inl ⟨List.mem_cons_of_mem _ hmem, hp⟩
    · obtain ⟨k, u⟩ := e
      rw [assignOut] at hout
      split_ifs at hout with hk
      · exact .inr hout
      · rw [OrdMap.get_set] at hout
        split_ifs at hout with he
        · obtain rfl : p = k := he
          obtain rfl : u = t := Option.some.inj hout
          exact .inl ⟨List.mem_cons_self, hk⟩
        · exact .inr hout

variable [JsonNumber ν] {c : JsonObject ν} {q : List String}

/-- The text of the leaf at a place in a configuration. -/
def textOf (c : JsonObject ν) : List String → Option String
  | [] => none
  | k :: q => (c.fields.lookup k).bind (textAt 64 0 q)

theorem textOf_cons : textOf c (k :: q) = some t
    ↔ ∃ v, c.fields.lookup k = some v ∧ textAt 64 0 q v = some t := Option.bind_eq_some_iff

theorem mem_assignments_iff :
    (p, t) ∈ assignments 64 0 c.json ↔ ∃ q, textOf c q = some t ∧ p = joinKeys "" q := by
  have hfields := c.wellFormed
  rw [wellFormed, everyObj, Bool.and_eq_true] at hfields
  have hn := wellFormed_keys c.wellFormed
  rw [JsonObject.json, assignments, mem_flatMap_byKey,
    exists_mem_visitFields_iff c.fields "" 0 hfields.2]
  constructor
  · rintro ⟨⟨k, v⟩, hf, q, ht, rfl⟩
    exact ⟨k :: q, textOf_cons.2 ⟨v, (lookup_eq_some_iff_mem hn).2 hf, ht⟩, rfl⟩
  · rintro ⟨_ | ⟨k, q⟩, ht, rfl⟩
    · cases ht
    · obtain ⟨v, hv, ht⟩ := textOf_cons.1 ht
      exact ⟨(k, v), mem_of_lookup hv, q, ht, rfl⟩

end Flattened

section Plain

variable [JsonNumber ν] (maxDepth : ℕ)

/-- The string is the text of a value that is no string and may be printed at this depth. -/
def Imitates (ν : Type*) [JsonNumber ν] (depth : ℕ) (s : String) : Prop :=
  ∃ w : Json ν, w.wellFormed = true ∧ (∀ s', w ≠ .str s') ∧ (maxDepth < depth ∨ IsLeaf w)
    ∧ stableStringify w = s

/-- The keys are not those of an array. -/
def Unlisted (keys : List String) : Prop := ∃ k ∈ keys, k ∉ (List.range keys.length).map indexText

mutual

/-- Down to the depth that is printed whole, no key has a dot, no object has the keys of an array and
no string is the text of another value. -/
def PlainAt : ℕ → Json ν → Prop
  | depth, .arr items => depth ≤ maxDepth → PlainItems (depth + 1) items
  | depth, .obj fields => depth ≤ maxDepth → fields ≠ [] →
    Unlisted (fields.map Prod.fst) ∧ (∀ f ∈ fields, '.' ∉ f.1.toList)
      ∧ PlainFields (depth + 1) fields
  | depth, .str s => ¬ Imitates maxDepth ν depth s
  | _, .null => True
  | _, .bool _ => True
  | _, .num _ => True

def PlainItems : ℕ → List (Json ν) → Prop
  | _, [] => True
  | depth, x :: xs => PlainAt depth x ∧ PlainItems depth xs

def PlainFields : ℕ → List (String × Json ν) → Prop
  | _, [] => True
  | depth, f :: fs => PlainAt depth f.2 ∧ PlainFields depth fs

end

/-- A configuration none of whose paths and texts could be another's. The empty key is no prefix, and
a text that is assigned to `__proto__` is not kept. -/
structure Plain (c : JsonObject ν) : Prop where
  dots : ∀ f ∈ c.fields, '.' ∉ f.1.toList
  empty : ∀ f ∈ c.fields, f.1 = "" → IsLeaf f.2
  proto : ∀ f ∈ c.fields, f.1 = "__proto__" → ¬ IsLeaf f.2
  values : PlainFields 64 0 c.fields

variable {maxDepth} {depth : ℕ} {v w : Json ν} {q : List String} {k t : String}

theorem plainFields_iff {fs : List (String × Json ν)} :
    PlainFields maxDepth depth fs ↔ ∀ f ∈ fs, PlainAt maxDepth depth f.2 := by
  induction fs with
  | nil => simp [PlainFields]
  | cons f fs ih => simp [PlainFields, ih]

theorem plainItems_iff {xs : List (Json ν)} :
    PlainItems maxDepth depth xs ↔ ∀ x ∈ xs, PlainAt maxDepth depth x := by
  induction xs with
  | nil => simp [PlainItems]
  | cons x xs ih => simp [PlainItems, ih]

theorem dotless_indexText (i : ℕ) : '.' ∉ (indexText i).toList := by
  intro h
  rw [indexText, String.toList_ofList] at h
  exact absurd (Nat.isDigit_of_mem_toDigits (by decide) (by decide) h) (by decide)

theorem PlainAt.child (h : PlainAt maxDepth depth v) (hdepth : depth ≤ maxDepth)
    (hk : (children v).lookup k = some w) :
    '.' ∉ k.toList ∧ PlainAt maxDepth (depth + 1) w := by
  have hmem := mem_of_lookup hk
  cases v with
  | arr xs =>
    rw [PlainAt, plainItems_iff] at h
    obtain ⟨i, hi, rfl⟩ := mem_indexed_iff.1 hmem
    exact ⟨dotless_indexText i, h hdepth w (List.mem_of_getElem? hi)⟩
  | obj fs =>
    rw [PlainAt, plainFields_iff] at h
    obtain ⟨-, hdots, hfields⟩ := h hdepth (List.ne_nil_of_mem hmem)
    exact ⟨hdots _ hmem, hfields _ hmem⟩
  | _ => cases hmem

theorem PlainAt.dotless (h : PlainAt maxDepth depth v) (ht : textAt maxDepth depth q v = some t) :
    ∀ k ∈ q, '.' ∉ k.toList := by
  induction q generalizing depth v with
  | nil =>
    intro k hk
    cases hk
  | cons k q ih =>
    obtain ⟨hdepth, w, hw, ht⟩ := textAt_cons.1 ht
    obtain ⟨hdot, hplain⟩ := h.child hdepth hw
    intro l hl
    rcases List.mem_cons.1 hl with rfl | hl
    · exact hdot
    · exact ih hplain ht l hl

variable {c b r : JsonObject ν}

theorem Plain.spelled (h : Plain c) (ht : textOf c q = some t) :
    Spelled q ∧ q ≠ [] ∧ joinKeys "" q ≠ "__proto__" := by
  rcases q with _ | ⟨k, q⟩
  · cases ht
  · obtain ⟨v, hv, htext⟩ := textOf_cons.1 ht
    have hmem := mem_of_lookup hv
    have hvalue := plainFields_iff.1 h.values _ hmem
    have hspelled : Spelled (k :: q) := by
      constructor
      · intro l hl
        rcases List.mem_cons.1 hl with rfl | hl
        · exact h.dots _ hmem
        · exact hvalue.dotless htext l hl
      · intro hhead
        have hk : k = "" := Option.some.inj hhead
        rw [hk, nil_of_textAt (.inr (h.empty _ hmem hk)) htext]
    refine ⟨hspelled, List.cons_ne_nil _ _, fun hp => ?_⟩
    have hsegments := hspelled.segments (List.cons_ne_nil _ _)
    have hproto : ["__proto__"] = k :: q := by
      rw [← hsegments, segments, hp]
      rfl
    obtain ⟨hk, hq⟩ := List.cons.inj hproto
    rw [← hq, textAt_nil] at htext
    exact h.proto _ hmem hk.symm (htext.1.resolve_left (by decide))

end Plain

section Injective

variable [JsonNumber ν] {maxDepth depth : ℕ} {v w : Json ν} {q : List String} {k t : String}

omit [JsonNumber ν] in
theorem lookup_indexed {xs : List (Json ν)} {i : ℕ} {x : Json ν} (h : xs[i]? = some x) :
    (indexed xs).lookup (indexText i) = some x := by
  have hn : ((indexed xs).map Prod.fst).Nodup := by
    rw [map_fst_indexed]
    exact List.nodup_range.map indexText_injective
  exact (lookup_eq_some_iff_mem hn).2 (mem_indexed_iff.2 ⟨i, h, rfl⟩)

theorem exists_textAt (maxDepth : ℕ) : ∀ (v : Json ν) (depth : ℕ),
    ∃ q t, textAt maxDepth depth q v = some t
  | .null, depth => ⟨[], _, textAt_nil.2 ⟨.inr trivial, rfl⟩⟩
  | .bool _, depth => ⟨[], _, textAt_nil.2 ⟨.inr trivial, rfl⟩⟩
  | .num _, depth => ⟨[], _, textAt_nil.2 ⟨.inr trivial, rfl⟩⟩
  | .str _, depth => ⟨[], _, textAt_nil.2 ⟨.inr trivial, rfl⟩⟩
  | .arr [], depth => ⟨[], _, textAt_nil.2 ⟨.inr (Eq.refl []), rfl⟩⟩
  | .obj [], depth => ⟨[], _, textAt_nil.2 ⟨.inr (Eq.refl []), rfl⟩⟩
  | .arr (x :: xs), depth => by
    by_cases hdepth : maxDepth < depth
    · exact ⟨[], _, textAt_nil.2 ⟨.inl hdepth, rfl⟩⟩
    · obtain ⟨q, t, ht⟩ := exists_textAt maxDepth x (depth + 1)
      exact ⟨indexText 0 :: q, t, textAt_cons.2 ⟨not_lt.1 hdepth, x, lookup_indexed rfl, ht⟩⟩
  | .obj ((k, x) :: fs), depth => by
    by_cases hdepth : maxDepth < depth
    · exact ⟨[], _, textAt_nil.2 ⟨.inl hdepth, rfl⟩⟩
    · obtain ⟨q, t, ht⟩ := exists_textAt maxDepth x (depth + 1)
      exact ⟨k :: q, t, textAt_cons.2 ⟨not_lt.1 hdepth, x, List.lookup_cons_self, ht⟩⟩

theorem same_of_normalizeValue (hv : v.wellFormed = true) (hw : w.wellFormed = true)
    (hpv : PlainAt maxDepth depth v) (hpw : PlainAt maxDepth depth w)
    (hlv : maxDepth < depth ∨ IsLeaf v) (hlw : maxDepth < depth ∨ IsLeaf w)
    (h : normalizeValue v = normalizeValue w) : Same v w := by
  by_cases hsv : ∃ s, v = .str s
  · obtain ⟨s, rfl⟩ := hsv
    by_cases hsw : ∃ s', w = .str s'
    · obtain ⟨s', rfl⟩ := hsw
      obtain rfl : s = s' := h
      exact fun q => rfl
    · rw [not_exists] at hsw
      refine absurd ⟨w, hw, hsw, hlw, ?_⟩ hpv
      have htext : normalizeValue w = stableStringify w := by
        cases w <;> first | rfl | exact absurd rfl (hsw _)
      exact htext.symm.trans h.symm
  · rw [not_exists] at hsv
    have htext : normalizeValue v = stableStringify v := by
      cases v <;> first | rfl | exact absurd rfl (hsv _)
    by_cases hsw : ∃ s', w = .str s'
    · obtain ⟨s', rfl⟩ := hsw
      exact absurd ⟨v, hv, hsv, hlv, htext.symm.trans h⟩ hpw
    · rw [not_exists] at hsw
      have htext' : normalizeValue w = stableStringify w := by
        cases w <;> first | rfl | exact absurd rfl (hsw _)
      exact same_of_stableStringify hv hw (htext.symm.trans (h.trans htext'))

/-- The texts of two values are the same, leaf by leaf. -/
def SameTexts (maxDepth depth : ℕ) (v w : Json ν) : Prop :=
  ∀ q, textAt maxDepth depth q v = textAt maxDepth depth q w

theorem SameTexts.leaf (h : SameTexts maxDepth depth v w) (hv : maxDepth < depth ∨ IsLeaf v) :
    (maxDepth < depth ∨ IsLeaf w) ∧ normalizeValue w = normalizeValue v := by
  have hnil := textAt_nil.2 ⟨hv, rfl⟩
  rw [h [], textAt_nil] at hnil
  exact hnil

theorem SameTexts.symm (h : SameTexts maxDepth depth v w) : SameTexts maxDepth depth w v :=
  fun q => (h q).symm

theorem SameTexts.key (h : SameTexts maxDepth depth v w) (hdepth : depth ≤ maxDepth)
    (hk : k ∈ (children v).map Prod.fst) : k ∈ (children w).map Prod.fst := by
  rw [← lookup_isSome_iff_mem, Option.isSome_iff_exists] at hk
  obtain ⟨x, hx⟩ := hk
  obtain ⟨q, t, ht⟩ := exists_textAt maxDepth x (depth + 1)
  have hcons := textAt_cons.2 ⟨hdepth, x, hx, ht⟩
  rw [h, textAt_cons] at hcons
  obtain ⟨-, y, hy, -⟩ := hcons
  rw [← lookup_isSome_iff_mem, hy]
  rfl

theorem SameTexts.child {x y : Json ν} (h : SameTexts maxDepth depth v w) (hdepth : depth ≤ maxDepth)
    (hx : (children v).lookup k = some x) (hy : (children w).lookup k = some y) :
    SameTexts maxDepth (depth + 1) x y := by
  intro q
  have hq := h (k :: q)
  rwa [textAt, textAt, if_neg (not_lt.2 hdepth), if_neg (not_lt.2 hdepth), hx, hy] at hq

omit [JsonNumber ν] in
theorem not_unlisted {fs : List (String × Json ν)} {n : ℕ} (hn : (fs.map Prod.fst).Nodup)
    (h : ∀ k, k ∈ fs.map Prod.fst ↔ k ∈ (List.range n).map indexText) :
    ¬ Unlisted (fs.map Prod.fst) := by
  have hperm : (fs.map Prod.fst).Perm ((List.range n).map indexText) :=
    (List.perm_ext_iff_of_nodup hn (List.nodup_range.map indexText_injective)).2 h
  have hlen : (fs.map Prod.fst).length = n := by
    rw [hperm.length_eq, List.length_map, List.length_range]
  rintro ⟨k, hk, hnot⟩
  rw [hlen] at hnot
  exact hnot ((h k).1 hk)

omit [JsonNumber ν] in
theorem same_of_children (hkeys : ∀ k, k ∈ (children v).map Prod.fst ↔ k ∈ (children w).map Prod.fst)
    (hsame : ∀ k x y, (children v).lookup k = some x → (children w).lookup k = some y → Same x y)
    (hkind : node v = node w) (hleaf : ¬ IsLeaf v) : Same v w := by
  have hbind (k : String) (q : JsonSchema.Location) :
      ((children v).lookup k).bind (shape q) = ((children w).lookup k).bind (shape q) := by
    have hk := hkeys k
    rw [← lookup_isSome_iff_mem, ← lookup_isSome_iff_mem] at hk
    rcases hx : (children v).lookup k with _ | x
    · have hy : (children w).lookup k = none := by
        rw [← Option.not_isSome_iff_eq_none, ← hk, hx]
        simp
      rw [hy]
    · obtain ⟨y, hy⟩ := Option.isSome_iff_exists.1 (hk.1 (by rw [hx]; rfl))
      rw [hy]
      exact hsame k x y hx hy q
  have hitem (xs : List (Json ν)) (i : ℕ) : (indexed xs).lookup (indexText i) = xs[i]? := by
    refine Option.ext fun x => ⟨fun h => ?_, lookup_indexed⟩
    obtain ⟨j, hj, he⟩ := mem_indexed_iff.1 (mem_of_lookup h)
    rwa [indexText_injective he] at hj
  cases v with
  | arr xs =>
    cases w with
    | arr ys =>
      refine same_arr_iff.2 fun i q => ?_
      rw [← hitem xs i, ← hitem ys i]
      exact hbind _ q
    | _ => cases hkind
  | obj fs =>
    cases w with
    | obj gs => exact same_obj_iff.2 hbind
    | _ => cases hkind
  | _ => exact absurd trivial hleaf

theorem node_eq (hv : v.wellFormed = true) (hw : w.wellFormed = true)
    (hpv : PlainAt maxDepth depth v) (hpw : PlainAt maxDepth depth w) (hdepth : depth ≤ maxDepth)
    (hlv : ¬ IsLeaf v) (hlw : ¬ IsLeaf w)
    (hkeys : ∀ k, k ∈ (children v).map Prod.fst ↔ k ∈ (children w).map Prod.fst) :
    node v = node w := by
  cases v with
  | arr xs =>
    cases w with
    | arr ys => rfl
    | obj gs =>
      refine absurd (hpw hdepth hlw).1 (not_unlisted (n := xs.length) (wellFormed_keys hw) fun k => ?_)
      rw [← map_fst_indexed xs]
      exact (hkeys k).symm
    | _ => exact absurd trivial hlw
  | obj fs =>
    cases w with
    | arr ys =>
      refine absurd (hpv hdepth hlv).1 (not_unlisted (n := ys.length) (wellFormed_keys hv) fun k => ?_)
      rw [← map_fst_indexed ys]
      exact hkeys k
    | obj gs => rfl
    | _ => exact absurd trivial hlw
  | _ => exact absurd trivial hlv

theorem same_of_sameTexts_step (hv : v.wellFormed = true) (hw : w.wellFormed = true)
    (hpv : PlainAt maxDepth depth v) (hpw : PlainAt maxDepth depth w)
    (h : SameTexts maxDepth depth v w)
    (ih : ∀ k x y, (children v).lookup k = some x → (children w).lookup k = some y →
      PlainAt maxDepth (depth + 1) x → PlainAt maxDepth (depth + 1) y →
      SameTexts maxDepth (depth + 1) x y → Same x y) : Same v w := by
  by_cases hlv : maxDepth < depth ∨ IsLeaf v
  · obtain ⟨hlw, htext⟩ := h.leaf hlv
    exact same_of_normalizeValue hv hw hpv hpw hlv hlw htext.symm
  · have hlw : ¬ (maxDepth < depth ∨ IsLeaf w) := fun hlw => hlv (h.symm.leaf hlw).1
    rw [not_or, not_lt] at hlv hlw
    have hkeys (k : String) : k ∈ (children v).map Prod.fst ↔ k ∈ (children w).map Prod.fst :=
      ⟨h.key hlv.1, h.symm.key hlv.1⟩
    refine same_of_children hkeys (fun k x y hx hy => ?_)
      (node_eq hv hw hpv hpw hlv.1 hlv.2 hlw.2 hkeys) hlv.2
    exact ih k x y hx hy (hpv.child hlv.1 hx).2 (hpw.child hlv.1 hy).2 (h.child hlv.1 hx hy)

mutual

theorem same_of_sameTexts : ∀ (v : Json ν) {depth : ℕ} {w : Json ν}, v.wellFormed = true →
    w.wellFormed = true → PlainAt maxDepth depth v → PlainAt maxDepth depth w →
    SameTexts maxDepth depth v w → Same v w
  | .null, _, _, hv, hw, hpv, hpw, h => same_of_sameTexts_step hv hw hpv hpw h (by simp [children])
  | .bool _, _, _, hv, hw, hpv, hpw, h => same_of_sameTexts_step hv hw hpv hpw h (by simp [children])
  | .num _, _, _, hv, hw, hpv, hpw, h => same_of_sameTexts_step hv hw hpv hpw h (by simp [children])
  | .str _, _, _, hv, hw, hpv, hpw, h => same_of_sameTexts_step hv hw hpv hpw h (by simp [children])
  | .arr xs, _, w, hv, hw, hpv, hpw, h => by
    refine same_of_sameTexts_step hv hw hpv hpw h fun k x y hx hy => ?_
    obtain ⟨i, hi, -⟩ := mem_indexed_iff.1 (mem_of_lookup hx)
    exact same_of_sameTexts_items xs x (List.mem_of_getElem? hi) (wellFormed_of_getElem? hv hi)
      (wellFormed_child hw hy)
  | .obj fs, _, w, hv, hw, hpv, hpw, h => by
    refine same_of_sameTexts_step hv hw hpv hpw h fun k x y hx hy => ?_
    exact same_of_sameTexts_fields fs (k, x) (mem_of_lookup hx) (wellFormed_of_lookup hv hx)
      (wellFormed_child hw hy)

theorem same_of_sameTexts_items : ∀ (xs : List (Json ν)), ∀ x ∈ xs, ∀ {depth : ℕ} {w : Json ν},
    x.wellFormed = true → w.wellFormed = true → PlainAt maxDepth depth x →
    PlainAt maxDepth depth w → SameTexts maxDepth depth x w → Same x w
  | x :: xs, y, hy, depth, w, hv, hw, hpv, hpw, h => by
    rcases List.mem_cons.1 hy with he | hy
    · rw [he] at hv hpv h ⊢
      exact same_of_sameTexts x hv hw hpv hpw h
    · exact same_of_sameTexts_items xs y hy hv hw hpv hpw h

theorem same_of_sameTexts_fields : ∀ (fs : List (String × Json ν)), ∀ f ∈ fs, ∀ {depth : ℕ}
    {w : Json ν}, f.2.wellFormed = true → w.wellFormed = true → PlainAt maxDepth depth f.2 →
    PlainAt maxDepth depth w → SameTexts maxDepth depth f.2 w → Same f.2 w
  | (k, x) :: fs, f, hf, depth, w, hv, hw, hpv, hpw, h => by
    rcases List.mem_cons.1 hf with he | hf
    · rw [he] at hv hpv h ⊢
      exact same_of_sameTexts x hv hw hpv hpw h
    · exact same_of_sameTexts_fields fs f hf hv hw hpv hpw h

end

end Injective

section Findings

variable [JsonNumber ν] {b r c : JsonObject ν} {q : List String} {p t : String}

theorem get_flattenConfig (h : Plain c) : (flattenConfig c.json 64 0).get p = some t
    ↔ ∃ q, textOf c q = some t ∧ p = joinKeys "" q := by
  constructor
  · intro hget
    rcases mem_of_get_foldl_assignOut hget with ⟨hmem, -⟩ | hempty
    · exact mem_assignments_iff.1 hmem
    · cases hempty
  · rintro ⟨q, ht, rfl⟩
    obtain ⟨hspelled, hq, hproto⟩ := h.spelled ht
    refine get_foldl_assignOut hproto (fun t' hmem => ?_) (.inl (mem_assignments_iff.2 ⟨q, ht, rfl⟩))
    obtain ⟨q', ht', hp⟩ := mem_assignments_iff.1 hmem
    obtain ⟨hspelled', hq', -⟩ := h.spelled ht'
    have hsegments : segments q = segments q' := congrArg Config.splitPath hp
    rw [hspelled.segments hq, hspelled'.segments hq'] at hsegments
    rw [← hsegments, ht] at ht'
    exact (Option.some.inj ht').symm

theorem textOf_of_flattenConfig (hb : Plain b) (hr : Plain r)
    (h : ∀ k, (flattenConfig b.json 64 0).get k = (flattenConfig r.json 64 0).get k)
    (ht : textOf b q = some t) : textOf r q = some t := by
  have hget := (get_flattenConfig hb).2 ⟨q, ht, rfl⟩
  rw [h, get_flattenConfig hr] at hget
  obtain ⟨q', ht', hp⟩ := hget
  obtain ⟨hspelled, hq, -⟩ := hb.spelled ht
  obtain ⟨hspelled', hq', -⟩ := hr.spelled ht'
  have hsegments : segments q = segments q' := congrArg Config.splitPath hp
  rw [hspelled.segments hq, hspelled'.segments hq'] at hsegments
  rwa [hsegments]

theorem textOf_eq (hb : Plain b) (hr : Plain r)
    (h : ∀ k, (flattenConfig b.json 64 0).get k = (flattenConfig r.json 64 0).get k)
    (q : List String) : textOf b q = textOf r q :=
  Option.ext fun _ => ⟨textOf_of_flattenConfig hb hr h,
    textOf_of_flattenConfig hr hb fun k => (h k).symm⟩

theorem same_of_textOf (hb : Plain b) (hr : Plain r) (h : ∀ q, textOf b q = textOf r q) :
    Same b.json r.json := by
  have hvalue {k : String} {v : Json ν} (hv : b.fields.lookup k = some v) :
      ∃ w, r.fields.lookup k = some w := by
    obtain ⟨q, t, ht⟩ := exists_textAt 64 v 0
    have hcons := textOf_cons.2 ⟨v, hv, ht⟩
    rw [h, textOf_cons] at hcons
    obtain ⟨w, hw, -⟩ := hcons
    exact ⟨w, hw⟩
  have hvalue' {k : String} {w : Json ν} (hw : r.fields.lookup k = some w) :
      ∃ v, b.fields.lookup k = some v := by
    obtain ⟨q, t, ht⟩ := exists_textAt 64 w 0
    have hcons := textOf_cons.2 ⟨w, hw, ht⟩
    rw [← h, textOf_cons] at hcons
    obtain ⟨v, hv, -⟩ := hcons
    exact ⟨v, hv⟩
  refine same_obj_iff.2 fun k q => ?_
  rcases hv : b.fields.lookup k with _ | v
  · rcases hw : r.fields.lookup k with _ | w
    · rfl
    · obtain ⟨v, hv'⟩ := hvalue' hw
      rw [hv] at hv'
      cases hv'
  · obtain ⟨w, hw⟩ := hvalue hv
    have htexts : SameTexts 64 0 v w := by
      intro q
      have hq := h (k :: q)
      rwa [textOf, textOf, hv, hw] at hq
    rw [hw]
    exact same_of_sameTexts v (wellFormed_of_lookup b.wellFormed hv)
      (wellFormed_of_lookup r.wellFormed hw) (plainFields_iff.1 hb.values _ (mem_of_lookup hv))
      (plainFields_iff.1 hr.values _ (mem_of_lookup hw)) htexts q

variable (localeCompare : String → String → ℤ) (startedAt endedAt : ℕ)
  (baselineHash snapshotId : String)

/-- The report on a runtime configuration against what a baseline was flattened to. -/
def reportOn (b r : JsonObject ν) : DriftReport :=
  computeDriftReport localeCompare startedAt endedAt
    { runtimeConfig := r.json, baselineFlattened := flattenConfig b.json 64 0, baselineHash
      snapshotId }

theorem findings_eq_nil_iff :
    (reportOn localeCompare startedAt endedAt baselineHash snapshotId b r).findings = []
      ↔ ∀ k, (flattenConfig b.json 64 0).get k = (flattenConfig r.json 64 0).get k := by
  rw [← diff_eq_nil_iff]
  have hperm : (reportOn localeCompare startedAt endedAt baselineHash snapshotId b r).findings.Perm
      (diffFlattenedConfigs (flattenConfig r.json 64 0) (flattenConfig b.json 64 0)) :=
    List.mergeSort_perm _ _
  exact ⟨fun h => (h ▸ hperm).nil_eq.symm, fun h => (h ▸ hperm).eq_nil⟩

/-- Between plain configurations a report without findings misses nothing. -/
theorem same_of_no_findings (hb : Plain b) (hr : Plain r)
    (h : (reportOn localeCompare startedAt endedAt baselineHash snapshotId b r).findings = []) :
    Same b.json r.json :=
  same_of_textOf hb hr (textOf_eq hb hr ((findings_eq_nil_iff _ _ _ _ _).1 h))

/-- `{ n: 1, o: { s: 'x' } }`. -/
def plainBaseline : JsonObject ℕ := ⟨[("n", .num 1), ("o", .obj [("s", .str "x")])], by decide⟩

/-- The same, the other way round. -/
def plainRuntime : JsonObject ℕ := ⟨[("o", .obj [("s", .str "x")]), ("n", .num 1)], by decide⟩

theorem not_imitates_x : ¬ Imitates 64 ℕ 1 "x" := by
  rintro ⟨w, -, hstr, hleaf, htext⟩
  rw [stableStringify_eq] at htext
  have hchars : chars (sorted w) = ['x'] := by
    rw [← toList_stringify, htext]
    rfl
  have hleaf := hleaf.resolve_left (by decide)
  cases w with
  | null => cases hchars
  | bool b => cases b <;> cases hchars
  | num n =>
    have hx := JsonNumber.text_chars n 'x' (by
      rw [sorted, chars] at hchars
      rw [hchars]
      exact List.mem_cons_self)
    exact absurd hx (by decide)
  | str s => exact hstr s rfl
  | arr xs =>
    obtain rfl : xs = [] := hleaf
    cases hchars
  | obj fs =>
    obtain rfl : fs = [] := hleaf
    cases hchars

theorem plainAt_nested : PlainAt 64 0 (.obj [("s", .str "x")] : Json ℕ) := by
  intro _ _
  refine ⟨⟨"s", by decide, by decide⟩, by decide, ?_⟩
  exact ⟨not_imitates_x, trivial⟩

theorem plain_plainBaseline : Plain plainBaseline where
  dots := by decide
  empty := by decide
  proto := by decide
  values := ⟨trivial, plainAt_nested, trivial⟩

theorem plain_plainRuntime : Plain plainRuntime where
  dots := by decide
  empty := by decide
  proto := by decide
  values := ⟨plainAt_nested, trivial, trivial⟩

theorem same_plainBaseline : Same plainBaseline.json plainRuntime.json :=
  same_of_no_findings (fun _ _ => 0) 0 0 "" "" plain_plainBaseline plain_plainRuntime
    (by decide +kernel)

end Findings

section Missed

variable [JsonNumber ν] {b : JsonObject ν}

theorem foldl_assignOut_filter (l : List (String × String)) (out : OrdMap String String) :
    l.foldl assignOut out = (l.filter fun e => e.1 ≠ "__proto__").foldl assignOut out := by
  induction l generalizing out with
  | nil => rfl
  | cons e l ih =>
    rw [List.foldl_cons, ih, List.filter_cons]
    by_cases he : e.1 = "__proto__"
    · rw [assignOut, if_pos he, if_neg (by simp [he])]
    · rw [if_pos (by simp [he]), List.foldl_cons]

theorem byKey_append_filter {α : Type*} {entries : List (String × α)} {k : String} (x : α)
    (hn : (entries.map Prod.fst).Nodup) (hk : k ∉ entries.map Prod.fst) :
    (byKey (entries ++ [(k, x)])).filter (fun e => e.1 ≠ k) = byKey entries := by
  have hperm : ((byKey (entries ++ [(k, x)])).filter fun e => e.1 ≠ k).Perm (byKey entries) := by
    refine ((byKey_perm _).filter _).trans ?_
    rw [List.filter_append, List.filter_eq_self.2]
    · simpa using (byKey_perm entries).symm
    · intro e he
      have hne : e.1 ≠ k := fun h => hk (List.mem_map.2 ⟨e, he, h⟩)
      simpa using hne
  have hsorted (es : List (String × α)) :
      (byKey es).Pairwise fun a b => JsString.utf16 a.1 ≤ JsString.utf16 b.1 :=
    pairwise_insertionSort_utf16 es
  refine hperm.eq_of_pairwise (fun e e' he he' hle hle' => ?_) ((hsorted _).filter _) (hsorted _)
  have hkey : e.1 = e'.1 := JsString.eq_of_utf16_le hle hle'
  have hmem : (e.1, e.2) ∈ entries := (byKey_perm entries).mem_iff.1 (hperm.mem_iff.1 he)
  have hmem' : (e.1, e'.2) ∈ entries := hkey ▸ (byKey_perm entries).mem_iff.1 he'
  rw [← lookup_eq_some_iff_mem hn] at hmem hmem'
  rw [hmem] at hmem'
  exact Prod.ext hkey (Option.some.inj hmem')

/-- The configuration with a field called `__proto__`. -/
def withProto (b : JsonObject ν) (h : "__proto__" ∉ b.fields.map Prod.fst) : JsonObject ν where
  fields := b.fields ++ [("__proto__", .null)]
  wellFormed := by
    have hb := b.wellFormed
    rw [wellFormed, everyObj, Bool.and_eq_true, decide_eq_true_iff, everyField_iff] at hb ⊢
    refine ⟨?_, fun f hf => ?_⟩
    · rw [List.map_append, List.pairwise_append]
      refine ⟨hb.1, by simp, fun k hk k' hk' => ?_⟩
      obtain rfl := List.mem_singleton.1 hk'
      have hne : k ≠ "__proto__" := fun he => h (he ▸ hk)
      have hindex : arrayIndex "__proto__" = none := by decide
      rw [precedes, decide_eq_true hne, hindex]
      rfl
    · rcases List.mem_append.1 hf with hf | hf
      · exact hb.2 f hf
      · obtain rfl := List.mem_singleton.1 hf
        rfl

theorem filter_flatMap_snd : ∀ (entries : List (String × List (String × String))),
    (∀ e ∈ entries, e.1 = "__proto__" → e.2.filter (fun e => e.1 ≠ "__proto__") = []) →
    (entries.flatMap Prod.snd).filter (fun e => e.1 ≠ "__proto__")
      = ((entries.filter fun e => e.1 ≠ "__proto__").flatMap Prod.snd).filter
        fun e => e.1 ≠ "__proto__"
  | [], _ => rfl
  | e :: entries, h => by
    have ih := filter_flatMap_snd entries fun e' he' => h e' (List.mem_cons_of_mem _ he')
    rw [List.flatMap_cons, List.filter_append, ih, List.filter_cons]
    by_cases he : e.1 = "__proto__"
    · rw [h e List.mem_cons_self he, if_neg (by simp [he]), List.nil_append]
    · rw [if_pos (by simp [he]), List.flatMap_cons, List.filter_append]

theorem flattenConfig_withProto (h : "__proto__" ∉ b.fields.map Prod.fst) :
    flattenConfig (withProto b h).json 64 0 = flattenConfig b.json 64 0 := by
  have hvisit (fs gs : List (String × Json ν)) :
      visitFields 64 (fs ++ gs) "" 0 = visitFields 64 fs "" 0 ++ visitFields 64 gs "" 0 := by
    induction fs with
    | nil => rfl
    | cons f fs ih => rw [List.cons_append, visitFields, ih, visitFields, List.cons_append]
  have hkeys (fs : List (String × Json ν)) :
      (visitFields 64 fs "" 0).map Prod.fst = fs.map Prod.fst := by
    induction fs with
    | nil => rfl
    | cons f fs ih => rw [visitFields, List.map_cons, ih, List.map_cons]
  set entries := visitFields 64 b.fields "" 0 with hentries
  have hnew : "__proto__" ∉ entries.map Prod.fst := by
    rw [hentries, hkeys]
    exact h
  have hn : (entries.map Prod.fst).Nodup := by
    rw [hentries, hkeys]
    exact wellFormed_keys b.wellFormed
  have hassigned : assignments 64 0 (withProto b h).json
      = (byKey (entries ++ [("__proto__", [("__proto__", "null")])])).flatMap Prod.snd := by
    rw [JsonObject.json, withProto, assignments, hvisit]
    rfl
  have hnothing : ∀ e ∈ byKey (entries ++ [("__proto__", [("__proto__", "null")])]),
      e.1 = "__proto__" → e.2.filter (fun e => e.1 ≠ "__proto__") = [] := by
    intro e he hk
    rcases List.mem_append.1 ((byKey_perm _).mem_iff.1 he) with hmem | hmem
    · exact absurd (List.mem_map.2 ⟨e, hmem, hk⟩) hnew
    · obtain rfl := List.mem_singleton.1 hmem
      rfl
  rw [flattenConfig, hassigned, foldl_assignOut_filter, filter_flatMap_snd _ hnothing,
    byKey_append_filter _ hn hnew, ← foldl_assignOut_filter]
  rfl

/-- Of every baseline some difference is missed: whether it has a field called `__proto__`. -/
theorem exists_missed (localeCompare : String → String → ℤ) (startedAt endedAt : ℕ)
    (baselineHash snapshotId : String) (h : "__proto__" ∉ b.fields.map Prod.fst) : ∃ r,
    (reportOn localeCompare startedAt endedAt baselineHash snapshotId b r).findings = []
      ∧ ¬ Same b.json r.json := by
  refine ⟨withProto b h, ?_, fun hsame => h ?_⟩
  · rw [findings_eq_nil_iff, flattenConfig_withProto]
    exact fun _ => rfl
  · refine (hsame.keys "__proto__").2 ?_
    rw [withProto, List.map_append]
    exact List.mem_append_right _ List.mem_cons_self

/-- `{ a: 1 }`. -/
def number : JsonObject ℕ := ⟨[("a", .num 1)], by decide⟩

/-- `{ a: '1' }`. -/
def text : JsonObject ℕ := ⟨[("a", .str "1")], by decide⟩

/-- A number is not told from its text. -/
theorem number_missed :
    (reportOn (fun _ _ => 0) 0 0 "" "" number text).findings = [] ∧ ¬ Same number.json text.json := by
  refine ⟨by decide +kernel, fun h => ?_⟩
  have hnode := h [.key "a"]
  simp [number, text, JsonObject.json, shape, follow, node] at hnode

end Missed

end ConfigDrift

end VeriNode
