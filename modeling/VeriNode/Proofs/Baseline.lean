import VeriNode.Audit.DeepDiff
import Mathlib.Data.List.Sort

/-!
# What the text of a baseline says of the configuration

`sortedKeys` gives every object within its keys in one order (`rank`), so its results are equal where
they are the same, and what stands in them is what stood in the value, except within `__proto__`
(`shape_sortedKeys`). So the text of a baseline says what the configuration is up to the order of
keys, where nothing is called `__proto__` (`canonical_iff`).
-/

namespace VeriNode

namespace Baseline

open Json Fields
open JsonSchema (Step Location)

variable {ν : Type*}

section Order

/-- The place of a key in an object whose keys were assigned in the order of `sort`. -/
def rank (k : String) : List ℕ :=
  match arrayIndex k with
  | some n => [0, n]
  | none => 1 :: JsString.utf16 k

theorem rank_injective : Function.Injective rank := by
  intro k k' h
  unfold rank at h
  rcases hk : arrayIndex k with _ | n <;> rcases hk' : arrayIndex k' with _ | m <;>
    rw [hk, hk'] at h
  · exact JsString.utf16_injective (List.cons.inj h).2
  · cases h
  · cases h
  · cases h
    exact arrayIndex_injective hk hk'

theorem precedes_eq_of_index {k k' : String} {n : ℕ} (hk' : arrayIndex k' = some n) (hne : k ≠ k') :
    precedes k k' = decide (rank k < rank k') := by
  have hrank' : rank k' = [0, n] := by simp only [rank, hk']
  rw [precedes, decide_eq_true hne, Bool.true_and, hk', hrank']
  rcases hk : arrayIndex k with _ | m
  · have hrank : rank k = 1 :: JsString.utf16 k := by simp only [rank, hk]
    have hlt : [0, n] < 1 :: JsString.utf16 k := List.Lex.rel (by decide)
    rw [hrank]
    exact (decide_eq_false (not_lt.2 hlt.le)).symm
  · have hrank : rank k = [0, m] := by simp only [rank, hk]
    rw [hrank]
    simp [List.cons_lt_cons_iff]

theorem precedes_of_rank {k k' : String} (h : rank k < rank k') : precedes k k' = true := by
  have hne : k ≠ k' := by
    rintro rfl
    exact lt_irrefl _ h
  rcases hk' : arrayIndex k' with _ | n
  · rw [precedes, decide_eq_true hne, hk']
    rfl
  · rw [precedes_eq_of_index hk' hne]
    exact decide_eq_true h

theorem precedes_eq_rank {k k' : String} (hle : JsString.utf16 k ≤ JsString.utf16 k') (hne : k ≠ k') :
    precedes k k' = decide (rank k < rank k') := by
  rcases hk' : arrayIndex k' with _ | n
  · have hrank' : rank k' = 1 :: JsString.utf16 k' := by simp only [rank, hk']
    have hlt : rank k < rank k' := by
      rw [hrank']
      rcases hk : arrayIndex k with _ | m
      · have hrank : rank k = 1 :: JsString.utf16 k := by simp only [rank, hk]
        rw [hrank]
        exact List.Lex.cons (lt_of_le_of_ne hle fun h => hne (JsString.utf16_injective h))
      · have hrank : rank k = [0, m] := by simp only [rank, hk]
        rw [hrank]
        exact List.Lex.rel (by decide)
    rw [precedes_of_rank hlt, decide_eq_true hlt]
  · exact precedes_eq_of_index hk' hne

/-- The fields by the ranks of their keys. -/
def before (f g : String × Json ν) : Prop := rank f.1 ≤ rank g.1

instance : DecidableRel (before (ν := ν)) :=
  fun f g => inferInstanceAs (Decidable (rank f.1 ≤ rank g.1))

instance : Std.Total (before (ν := ν)) := ⟨fun f g => le_total (rank f.1) (rank g.1)⟩

instance : IsTrans (String × Json ν) before := ⟨fun _ _ _ => le_trans⟩

theorem insert_eq {f : String × Json ν} : ∀ {acc : List (String × Json ν)},
    (∀ g ∈ acc, precedes g.1 f.1 = decide (rank g.1 < rank f.1)) →
    acc.takeWhile (fun g => precedes g.1 f.1) ++ f :: acc.dropWhile (fun g => precedes g.1 f.1)
      = acc.orderedInsert before f
  | [], _ => rfl
  | g :: acc, h => by
    have hg := h g List.mem_cons_self
    rw [List.orderedInsert_cons]
    by_cases hlt : rank g.1 < rank f.1
    · rw [decide_eq_true hlt] at hg
      have hbefore : ¬ before f g := not_le.2 hlt
      rw [List.takeWhile_cons, List.dropWhile_cons, hg, if_pos rfl, if_pos rfl, if_neg hbefore,
        List.cons_append, insert_eq fun g' hg' => h g' (List.mem_cons_of_mem _ hg')]
    · rw [decide_eq_false hlt] at hg
      have hbefore : before f g := not_lt.1 hlt
      rw [List.takeWhile_cons, List.dropWhile_cons, hg, if_neg (by decide), if_neg (by decide),
        if_pos hbefore, List.nil_append]

/-- What is assigned in the order of `sort` stands by rank, and what is assigned to `__proto__` does
not. -/
theorem foldl_assignKey : ∀ (l acc : List (String × Json ν)), ((acc ++ l).map Prod.fst).Nodup →
    (∀ g ∈ acc, ∀ f ∈ l, JsString.utf16 g.1 ≤ JsString.utf16 f.1) →
    l.Pairwise (fun f g => JsString.utf16 f.1 ≤ JsString.utf16 g.1) → acc.Pairwise before →
    (l.foldl assignKey acc).Perm (acc ++ l.filter fun f => f.1 ≠ "__proto__")
      ∧ (l.foldl assignKey acc).Pairwise before
  | [], acc, _, _, _, hacc => by simp [hacc]
  | f :: l, acc, hn, hle, hl, hacc => by
    rw [List.pairwise_cons] at hl
    rw [List.foldl_cons, assignKey, List.filter_cons]
    by_cases hf : f.1 = "__proto__"
    · rw [if_pos hf, if_neg (by simp [hf])]
      refine foldl_assignKey l acc ?_ (fun g hg f' hf' => hle g hg f' (.tail _ hf')) hl.2 hacc
      exact hn.sublist ((List.Sublist.append_left (List.sublist_cons_self f l) acc).map _)
    · have hnew : f.1 ∉ acc.map Prod.fst := by
        rw [List.map_append, List.nodup_append] at hn
        exact fun hm => hn.2.2 _ hm f.1 List.mem_cons_self rfl
      have hput : put acc f = acc.orderedInsert before f := by
        rw [put, if_neg hnew]
        refine insert_eq fun g hg => precedes_eq_rank (hle g hg f List.mem_cons_self) ?_
        intro he
        exact hnew (List.mem_map.2 ⟨g, hg, he⟩)
      have hperm : (acc.orderedInsert before f).Perm (f :: acc) := List.perm_orderedInsert before f acc
      rw [if_neg hf, if_pos (by simp [hf]), hput]
      have hnodup : ((acc.orderedInsert before f ++ l).map Prod.fst).Nodup := by
        refine (List.Perm.nodup_iff ?_).1 hn
        exact (List.perm_middle.trans (hperm.symm.append_right l)).map _
      have hle' : ∀ g ∈ acc.orderedInsert before f, ∀ f' ∈ l,
          JsString.utf16 g.1 ≤ JsString.utf16 f'.1 := by
        intro g hg f' hf'
        rcases List.mem_cons.1 (hperm.mem_iff.1 hg) with rfl | hg
        · exact hl.1 f' hf'
        · exact hle g hg f' (.tail _ hf')
      have ih := foldl_assignKey l (acc.orderedInsert before f) hnodup hle' hl.2
        (List.Pairwise.orderedInsert f acc hacc)
      refine ⟨ih.1.trans ?_, ih.2⟩
      exact (hperm.append_right _).trans List.perm_middle.symm

end Order

section Sorted

/-- The fields of an object as `sortedKeys` leaves them. -/
def assigned (fs : List (String × Json ν)) : List (String × Json ν) :=
  ((sortedFields fs).insertionSort fun f g =>
    JsString.utf16 f.1 ≤ JsString.utf16 g.1).foldl assignKey []

theorem sortedKeys_obj (fs : List (String × Json ν)) : sortedKeys (.obj fs) = .obj (assigned fs) :=
  rfl

theorem sortedFields_eq_map (fs : List (String × Json ν)) :
    sortedFields fs = fs.map fun f => (f.1, sortedKeys f.2) := by
  induction fs with
  | nil => rfl
  | cons f fs ih => rw [sortedFields, ih, List.map_cons]

theorem sortedItems_eq_map (xs : List (Json ν)) : sortedItems xs = xs.map sortedKeys := by
  induction xs with
  | nil => rfl
  | cons x xs ih => rw [sortedItems, ih, List.map_cons]

theorem map_fst_sortedFields (fs : List (String × Json ν)) :
    (sortedFields fs).map Prod.fst = fs.map Prod.fst := by
  rw [sortedFields_eq_map, List.map_map]
  rfl

theorem lookup_sortedFields (k : String) (fs : List (String × Json ν)) :
    (sortedFields fs).lookup k = (fs.lookup k).map sortedKeys := by
  rw [sortedFields_eq_map, lookup_mapValues]

variable {fs : List (String × Json ν)}

theorem assigned_perm (hn : (fs.map Prod.fst).Nodup) :
    (assigned fs).Perm ((sortedFields fs).filter fun f => f.1 ≠ "__proto__")
      ∧ (assigned fs).Pairwise before := by
  set l := (sortedFields fs).insertionSort fun f g => JsString.utf16 f.1 ≤ JsString.utf16 g.1
    with hl
  have hperm : l.Perm (sortedFields fs) := List.perm_insertionSort _ _
  have hnodup : (([] ++ l).map Prod.fst).Nodup := by
    rw [List.nil_append, (hperm.map Prod.fst).nodup_iff, map_fst_sortedFields]
    exact hn
  obtain ⟨hassigned, hsorted⟩ := foldl_assignKey l [] hnodup (fun g hg => by cases hg)
    (pairwise_insertionSort_utf16 _) .nil
  exact ⟨hassigned.trans (hperm.filter _), hsorted⟩

theorem nodup_assigned (hn : (fs.map Prod.fst).Nodup) : ((assigned fs).map Prod.fst).Nodup := by
  rw [((assigned_perm hn).1.map Prod.fst).nodup_iff]
  refine List.Nodup.sublist (List.filter_sublist.map _) ?_
  rw [map_fst_sortedFields]
  exact hn

theorem pairwise_assigned (hn : (fs.map Prod.fst).Nodup) :
    ((assigned fs).map Prod.fst).Pairwise (rank · < rank ·) := by
  have hle : ((assigned fs).map Prod.fst).Pairwise (rank · ≤ rank ·) :=
    List.pairwise_map.2 (assigned_perm hn).2
  refine (hle.and (nodup_assigned hn)).imp ?_
  rintro k k' ⟨hk, hne⟩
  exact lt_of_le_of_ne hk fun h => hne (rank_injective h)

theorem lookup_assigned (hn : (fs.map Prod.fst).Nodup) (k : String) :
    (assigned fs).lookup k = if k = "__proto__" then none else (fs.lookup k).map sortedKeys := by
  rw [lookup_perm (nodup_assigned hn) (assigned_perm hn).1, ← lookup_sortedFields]
  have hfilter : ((sortedFields fs).filter fun f => f.1 ≠ "__proto__").lookup k
      = if decide (k ≠ "__proto__") = true then (sortedFields fs).lookup k else none :=
    lookup_filter (p := fun l => l ≠ "__proto__")
  rw [hfilter]
  by_cases hk : k = "__proto__" <;> simp [hk]

end Sorted

section Canonical

variable {v w : Json ν} {q : Location}

/-- No object within has a field called `__proto__`. -/
def noProto (v : Json ν) : Bool := v.everyObj fun keys => "__proto__" ∉ keys

/-- The location lies in a field called `__proto__`. -/
def UnderProto (q : Location) : Prop := Step.key "__proto__" ∈ q

instance : DecidablePred UnderProto := fun q => inferInstanceAs (Decidable (Step.key "__proto__" ∈ q))

theorem shape_sortedKeys (q : Location) (hv : v.wellFormed = true) :
    shape q (sortedKeys v) = if UnderProto q then none else shape q v := by
  induction q generalizing v with
  | nil =>
    rw [if_neg (by simp [UnderProto]), shape_nil, shape_nil]
    cases v <;> rfl
  | cons s q ih =>
    cases v with
    | obj fs =>
      cases s with
      | key k =>
        rw [sortedKeys_obj, shape_key, shape_key, lookup_assigned (wellFormed_keys hv)]
        by_cases hk : k = "__proto__"
        · rw [if_pos hk, if_pos (by simp [UnderProto, hk])]
          rfl
        · have hunder : UnderProto (.key k :: q) ↔ UnderProto q := by simp [UnderProto, Ne.symm hk]
          rw [if_neg hk]
          simp only [hunder]
          rcases hl : fs.lookup k with _ | v
          · simp
          · exact ih (wellFormed_of_lookup hv hl)
      | item i => simp [sortedKeys_obj, shape_item_obj]
    | arr xs =>
      cases s with
      | key k => simp [sortedKeys, shape_key_arr]
      | item i =>
        have hunder : UnderProto (.item i :: q) ↔ UnderProto q := by simp [UnderProto]
        rw [sortedKeys, shape_item, shape_item, sortedItems_eq_map, List.getElem?_map]
        simp only [hunder]
        rcases hl : xs[i]? with _ | v
        · simp
        · exact ih (wellFormed_of_getElem? hv hl)
    | _ => simp [sortedKeys, shape_leaf]

mutual

theorem everyObj_sortedKeys : ∀ {v : Json ν}, v.wellFormed = true →
    everyObj (fun keys => keys.Pairwise (rank · < rank ·)) (sortedKeys v) = true
  | .null, _ => rfl
  | .bool _, _ => rfl
  | .num _, _ => rfl
  | .str _, _ => rfl
  | .arr xs, hv => everyItem_sortedItems hv
  | .obj fs, hv => by
    have hn := wellFormed_keys hv
    rw [wellFormed, everyObj, Bool.and_eq_true] at hv
    rw [sortedKeys_obj, everyObj, Bool.and_eq_true, decide_eq_true_iff, everyField_iff]
    refine ⟨pairwise_assigned hn, fun f hf => ?_⟩
    have hmem := List.mem_of_mem_filter ((assigned_perm hn).1.mem_iff.1 hf)
    exact everyField_iff.1 (everyField_sortedFields hv.2) f hmem

theorem everyItem_sortedItems : ∀ {xs : List (Json ν)},
    everyItem (fun keys => keys.Pairwise (precedes · ·)) xs = true →
    everyItem (fun keys => keys.Pairwise (rank · < rank ·)) (sortedItems xs) = true
  | [], _ => rfl
  | x :: xs, h => by
    rw [everyItem, Bool.and_eq_true] at h
    rw [sortedItems, everyItem, Bool.and_eq_true]
    exact ⟨everyObj_sortedKeys h.1, everyItem_sortedItems h.2⟩

theorem everyField_sortedFields : ∀ {fs : List (String × Json ν)},
    everyField (fun keys => keys.Pairwise (precedes · ·)) fs = true →
    everyField (fun keys => keys.Pairwise (rank · < rank ·)) (sortedFields fs) = true
  | [], _ => rfl
  | (k, v) :: fs, h => by
    rw [everyField, Bool.and_eq_true] at h
    rw [sortedFields, everyField, Bool.and_eq_true]
    exact ⟨everyObj_sortedKeys h.1, everyField_sortedFields h.2⟩

end

theorem sortedKeys_eq_of_same (hv : v.wellFormed = true) (hw : w.wellFormed = true)
    (h : Same (sortedKeys v) (sortedKeys w)) : sortedKeys v = sortedKeys w :=
  eq_of_same (fun _ _ hlt hlt' => lt_asymm hlt hlt') (everyObj_sortedKeys hv) (everyObj_sortedKeys hw) h

/-- The same stands at every location that is not within `__proto__`. -/
def SameApart (v w : Json ν) : Prop := ∀ q, ¬ UnderProto q → shape q v = shape q w

theorem sortedKeys_eq_iff (hv : v.wellFormed = true) (hw : w.wellFormed = true) :
    sortedKeys v = sortedKeys w ↔ SameApart v w := by
  constructor
  · intro h q hq
    have hshape := congrArg (shape q) h
    rwa [shape_sortedKeys q hv, shape_sortedKeys q hw, if_neg hq, if_neg hq] at hshape
  · intro h
    refine sortedKeys_eq_of_same hv hw fun q => ?_
    rw [shape_sortedKeys q hv, shape_sortedKeys q hw]
    split_ifs with hq
    · rfl
    · exact h q hq

theorem wellFormed_sortedKeys (hv : v.wellFormed = true) : (sortedKeys v).wellFormed = true :=
  everyObj_mono (fun keys h => by
    rw [decide_eq_true_iff] at h ⊢
    exact h.imp fun hlt => precedes_of_rank hlt) (everyObj_sortedKeys hv)

theorem noProto_iff (hv : v.wellFormed = true) :
    noProto v = true ↔ ∀ q, UnderProto q → shape q v = none := by
  constructor
  · intro h q hq
    obtain ⟨r, r', rfl⟩ := List.append_of_mem hq
    rw [shape_append]
    rcases hr : follow r v with _ | w
    · rfl
    · cases w with
      | obj fs =>
        have hkeys := everyObj_follow h hr
        rw [decide_eq_true_iff, ← lookup_isSome_iff_mem, Option.not_isSome_iff_eq_none] at hkeys
        rw [Option.bind_some, shape_key, hkeys]
        rfl
      | _ => rfl
  · intro h
    refine everyObj_of_follow hv fun q fs hq => ?_
    have hnone := h (q ++ [.key "__proto__"]) (by simp [UnderProto])
    rw [shape_append, hq, Option.bind_some, shape_key] at hnone
    rw [decide_eq_true_iff, ← lookup_isSome_iff_mem]
    rcases hk : fs.lookup "__proto__" with _ | w
    · simp
    · rw [hk] at hnone
      cases hnone

theorem same_iff_sameApart (hv : noProto v = true) (hw : noProto w = true) (hwv : v.wellFormed = true)
    (hww : w.wellFormed = true) : Same v w ↔ SameApart v w := by
  constructor
  · intro h q _
    exact h q
  · intro h q
    by_cases hq : UnderProto q
    · rw [(noProto_iff hwv).1 hv q hq, (noProto_iff hww).1 hw q hq]
    · exact h q hq

theorem noProto_of_same (hv : noProto v = true) (hwv : v.wellFormed = true)
    (hww : w.wellFormed = true) (h : Same v w) : noProto w = true :=
  (noProto_iff hww).2 fun q hq => (h q).symm.trans ((noProto_iff hwv).1 hv q hq)

/-- A value is what `sortedKeys` makes of it, up to the order of keys, if it has no field called
`__proto__`. -/
theorem same_sortedKeys_iff (hv : v.wellFormed = true) :
    Same (sortedKeys v) v ↔ noProto v = true := by
  rw [noProto_iff hv]
  constructor
  · intro h q hq
    rw [← h q, shape_sortedKeys q hv, if_pos hq]
  · intro h q
    rw [shape_sortedKeys q hv]
    split_ifs with hq
    · exact (h q hq).symm
    · rfl

theorem sortedKeys_sortedKeys (hv : v.wellFormed = true) :
    sortedKeys (sortedKeys v) = sortedKeys v := by
  refine (sortedKeys_eq_iff (wellFormed_sortedKeys hv) hv).2 fun q hq => ?_
  rw [shape_sortedKeys q hv, if_neg hq]

end Canonical

section Text

variable [ReadableNumber ν] (parseMessage : String → String) (a b : JsonObject ν)

theorem serializeBaseline_json : serializeBaseline a.json = .ok (sortedKeys a.json).stringify := rfl

theorem serializeBaseline_eq_iff :
    serializeBaseline a.json = serializeBaseline b.json ↔ SameApart a.json b.json := by
  rw [← sortedKeys_eq_iff a.wellFormed_json b.wellFormed_json, serializeBaseline_json, serializeBaseline_json,
    Except.ok.injEq]
  exact ⟨stringify_injective, congrArg stringify⟩

theorem deserializeBaseline_serialized :
    deserializeBaseline parseMessage (.str (sortedKeys a.json).stringify) = .ok (sortedKeys a.json) := by
  rw [deserializeBaseline, parse_stringify (wellFormed_sortedKeys a.wellFormed_json)]

/-- The text of a baseline tells the configuration from another one, and gives it back. -/
structure Canonical : Prop where
  text_eq_iff : serializeBaseline a.json = serializeBaseline b.json ↔ Same a.json b.json
  reads_back : ∃ text r, serializeBaseline a.json = .ok text
    ∧ deserializeBaseline parseMessage (.str text) = .ok r
    ∧ Same r a.json ∧ serializeBaseline r = .ok text

/-- It does if the configuration has no field called `__proto__`, and is not the other one without
its fields of that name. -/
theorem canonical_iff : Canonical parseMessage a b
    ↔ noProto a.json = true ∧ (SameApart a.json b.json → noProto b.json = true) := by
  constructor
  · intro h
    obtain ⟨text, r, htext, hr, hsame, -⟩ := h.reads_back
    rw [serializeBaseline_json, Except.ok.injEq] at htext
    rw [← htext, deserializeBaseline_serialized, Except.ok.injEq] at hr
    rw [← hr, same_sortedKeys_iff a.wellFormed_json] at hsame
    refine ⟨hsame, fun hapart => noProto_of_same hsame a.wellFormed_json b.wellFormed_json ?_⟩
    exact h.text_eq_iff.1 ((serializeBaseline_eq_iff a b).2 hapart)
  · rintro ⟨ha, hb⟩
    refine ⟨?_, (sortedKeys a.json).stringify, sortedKeys a.json, serializeBaseline_json a,
      deserializeBaseline_serialized parseMessage a, (same_sortedKeys_iff a.wellFormed_json).2 ha, ?_⟩
    · rw [serializeBaseline_eq_iff]
      constructor
      · intro hapart
        exact (same_iff_sameApart ha (hb hapart) a.wellFormed_json b.wellFormed_json).2 hapart
      · intro h q _
        exact h q
    · have hidem : sortedKeys (sortedKeys a.json) = sortedKeys a.json :=
        sortedKeys_sortedKeys a.wellFormed_json
      rw [JsonObject.json, sortedKeys_obj] at hidem ⊢
      rw [serializeBaseline, hidem]

/-- `JSON.parse('{"__proto__":1}')`. -/
def protoField : JsonObject ℕ := ⟨[("__proto__", .num 1)], by decide⟩

def emptyObject : JsonObject ℕ := ⟨[], by decide⟩

/-- Its text is that of the object with no fields. -/
theorem not_canonical_proto : ¬ Canonical (fun _ => "") protoField emptyObject := by
  intro h
  have htext : serializeBaseline protoField.json = serializeBaseline emptyObject.json := by
    decide +kernel
  have hkeys := (h.text_eq_iff.1 htext).keys "__proto__"
  simp [protoField, emptyObject] at hkeys

end Text

end Baseline

end VeriNode
