import VeriNode.Lib.JsonSchema
import Mathlib.Data.List.Sort

/-!
# What stands where in JSON

The value at a location within, and what of it stands there: a leaf, or that there is an array or an
object. Two values are the same up to the order of keys if the same stands at every location
(`Same`). Where every object has its keys in one strict order, the same values are equal
(`eq_of_same`).
-/

namespace Json

open Fields
open JsonSchema (Step Location)

variable {ν : Type*}

theorem pairwise_insertionSort_utf16 {α : Type*} (fs : List (String × α)) :
    (fs.insertionSort fun f g => JsString.utf16 f.1 ≤ JsString.utf16 g.1).Pairwise
      fun f g => JsString.utf16 f.1 ≤ JsString.utf16 g.1 :=
  have : Std.Total fun f g : String × α => JsString.utf16 f.1 ≤ JsString.utf16 g.1 :=
    ⟨fun f g => le_total (JsString.utf16 f.1) (JsString.utf16 g.1)⟩
  have : IsTrans (String × α) fun f g => JsString.utf16 f.1 ≤ JsString.utf16 g.1 :=
    ⟨fun _ _ _ => le_trans⟩
  List.pairwise_insertionSort _ _

section Places

/-- The value at a location within. -/
def follow : Location → Json ν → Option (Json ν)
  | [], j => some j
  | .key k :: q, .obj fields => (fields.lookup k).bind (follow q)
  | .item i :: q, .arr items => items[i]?.bind (follow q)
  | _ :: _, _ => none

/-- What stands there: a leaf, or that there is an array or an object. -/
def node : Json ν → Json ν
  | .arr _ => .arr []
  | .obj _ => .obj []
  | j => j

/-- What stands at a location within, if there is anything. -/
def shape (q : Location) (j : Json ν) : Option (Json ν) := (follow q j).map node

/-- Deep equality up to the order of keys: the same stands at every location. -/
def Same (v w : Json ν) : Prop := ∀ q, shape q v = shape q w

variable {v w : Json ν} {q : Location}

@[simp] theorem shape_nil (v : Json ν) : shape [] v = some (node v) := rfl

theorem shape_key (k : String) (q : Location) (fs : List (String × Json ν)) :
    shape (.key k :: q) (.obj fs) = (fs.lookup k).bind (shape q) := by
  rw [shape, follow]
  cases fs.lookup k <;> rfl

theorem shape_item (i : ℕ) (q : Location) (xs : List (Json ν)) :
    shape (.item i :: q) (.arr xs) = xs[i]?.bind (shape q) := by
  rw [shape, follow]
  cases xs[i]? <;> rfl

theorem shape_item_obj (i : ℕ) (q : Location) (fs : List (String × Json ν)) :
    shape (.item i :: q) (.obj fs) = none := rfl

theorem shape_key_arr (k : String) (q : Location) (xs : List (Json ν)) :
    shape (.key k :: q) (.arr xs) = none := rfl

theorem shape_leaf (hobj : ∀ fs, v ≠ .obj fs) (harr : ∀ xs, v ≠ .arr xs) (s : Step) (q : Location) :
    shape (s :: q) v = none := by
  cases v with
  | obj fs => exact absurd rfl (hobj fs)
  | arr xs => exact absurd rfl (harr xs)
  | _ => cases s <;> rfl

theorem Same.symm (h : Same v w) : Same w v := fun q => (h q).symm

theorem Same.trans {u : Json ν} (h : Same u v) (h' : Same v w) : Same u w :=
  fun q => (h q).trans (h' q)

theorem Same.node (h : Same v w) : node v = node w := Option.some.inj (h [])

theorem same_obj_iff {fs gs : List (String × Json ν)} : Same (.obj fs) (.obj gs)
    ↔ ∀ k q, (fs.lookup k).bind (shape q) = (gs.lookup k).bind (shape q) := by
  constructor
  · intro h k q
    rw [← shape_key, ← shape_key]
    exact h _
  · intro h q
    rcases q with _ | ⟨k | i, q⟩
    · rfl
    · rw [shape_key, shape_key]
      exact h k q
    · rfl

theorem same_arr_iff {xs ys : List (Json ν)} : Same (.arr xs) (.arr ys)
    ↔ ∀ (i : ℕ) q, xs[i]?.bind (shape q) = ys[i]?.bind (shape q) := by
  constructor
  · intro h i q
    rw [← shape_item, ← shape_item]
    exact h _
  · intro h q
    rcases q with _ | ⟨k | i, q⟩
    · rfl
    · rfl
    · rw [shape_item, shape_item]
      exact h i q

theorem bind_shape_nil (o : Option (Json ν)) : o.bind (shape []) = o.map node := by
  cases o <;> rfl

theorem isSome_of_bind_shape {o o' : Option (Json ν)}
    (h : ∀ q, o.bind (shape q) = o'.bind (shape q)) : o.isSome = o'.isSome := by
  have h' := congrArg Option.isSome (h [])
  rwa [bind_shape_nil, bind_shape_nil, Option.isSome_map, Option.isSome_map] at h'

theorem Same.keys {fs gs : List (String × Json ν)} (h : Same (.obj fs) (.obj gs)) (k : String) :
    k ∈ fs.map Prod.fst ↔ k ∈ gs.map Prod.fst := by
  rw [← lookup_isSome_iff_mem, ← lookup_isSome_iff_mem,
    isSome_of_bind_shape (same_obj_iff.1 h k)]

theorem Same.length {xs ys : List (Json ν)} (h : Same (.arr xs) (.arr ys)) :
    xs.length = ys.length := by
  have hlt (i : ℕ) : i < xs.length ↔ i < ys.length := by
    rw [← not_iff_not, not_lt, not_lt, ← List.getElem?_eq_none_iff, ← List.getElem?_eq_none_iff,
      ← Option.not_isSome_iff_eq_none, ← Option.not_isSome_iff_eq_none,
      isSome_of_bind_shape (same_arr_iff.1 h i)]
  exact le_antisymm (not_lt.1 fun hl => lt_irrefl _ ((hlt _).1 hl))
    (not_lt.1 fun hl => lt_irrefl _ ((hlt _).2 hl))

theorem Same.get {fs gs : List (String × Json ν)} (h : Same (.obj fs) (.obj gs)) {k : String}
    (hv : fs.lookup k = some v) (hw : gs.lookup k = some w) : Same v w := by
  intro q
  have hq := same_obj_iff.1 h k q
  rwa [hv, hw] at hq

theorem Same.item {xs ys : List (Json ν)} (h : Same (.arr xs) (.arr ys)) {i : ℕ}
    (hv : xs[i]? = some v) (hw : ys[i]? = some w) : Same v w := by
  intro q
  have hq := same_arr_iff.1 h i q
  rwa [hv, hw] at hq

theorem follow_append (q r : Location) (v : Json ν) :
    follow (q ++ r) v = (follow q v).bind (follow r) := by
  induction q generalizing v with
  | nil => rfl
  | cons s q ih =>
    rw [List.cons_append]
    rcases s with k | i <;> cases v <;> simp only [follow, Option.bind_none, Option.bind_assoc]
    · congr 1
      exact funext ih
    · congr 1
      exact funext ih

theorem shape_append (q r : Location) (v : Json ν) :
    shape (q ++ r) v = (follow q v).bind (shape r) := by
  rw [shape, follow_append]
  cases follow q v <;> rfl

end Places

section Objects

variable {p p' : List String → Bool}

mutual

theorem everyObj_mono (h : ∀ keys, p keys = true → p' keys = true) : ∀ {v : Json ν},
    everyObj p v = true → everyObj p' v = true
  | .null, _ => rfl
  | .bool _, _ => rfl
  | .num _, _ => rfl
  | .str _, _ => rfl
  | .arr xs, hv => everyItem_mono h hv
  | .obj fs, hv => by
    rw [everyObj, Bool.and_eq_true] at hv ⊢
    exact ⟨h _ hv.1, everyField_mono h hv.2⟩

theorem everyItem_mono (h : ∀ keys, p keys = true → p' keys = true) : ∀ {xs : List (Json ν)},
    everyItem p xs = true → everyItem p' xs = true
  | [], _ => rfl
  | x :: xs, hxs => by
    rw [everyItem, Bool.and_eq_true] at hxs ⊢
    exact ⟨everyObj_mono h hxs.1, everyItem_mono h hxs.2⟩

theorem everyField_mono (h : ∀ keys, p keys = true → p' keys = true) :
    ∀ {fs : List (String × Json ν)}, everyField p fs = true → everyField p' fs = true
  | [], _ => rfl
  | (k, v) :: fs, hfs => by
    rw [everyField, Bool.and_eq_true] at hfs ⊢
    exact ⟨everyObj_mono h hfs.1, everyField_mono h hfs.2⟩

end

theorem everyObj_follow {v : Json ν} (hv : everyObj p v = true) {q : Location}
    {fs : List (String × Json ν)} (h : follow q v = some (.obj fs)) : p (fs.map Prod.fst) = true := by
  induction q generalizing v with
  | nil =>
    obtain rfl : v = .obj fs := Option.some.inj h
    rw [everyObj, Bool.and_eq_true] at hv
    exact hv.1
  | cons s q ih =>
    cases v with
    | obj gs =>
      cases s with
      | key k =>
        obtain ⟨w, hw, hq⟩ := Option.bind_eq_some_iff.1 h
        rw [everyObj, Bool.and_eq_true] at hv
        exact ih (everyField_iff.1 hv.2 _ (mem_of_lookup hw)) hq
      | item i => cases h
    | arr xs =>
      cases s with
      | key k => cases h
      | item i =>
        obtain ⟨w, hw, hq⟩ := Option.bind_eq_some_iff.1 h
        exact ih (everyItem_iff.1 hv _ (List.mem_of_getElem? hw)) hq
    | _ => cases s <;> cases h

theorem wellFormed_keys {fs : List (String × Json ν)} (h : (Json.obj fs).wellFormed = true) :
    (fs.map Prod.fst).Nodup := by
  rw [wellFormed, everyObj, Bool.and_eq_true, decide_eq_true_iff] at h
  refine h.1.imp ?_
  rintro k k' hp rfl
  simp [precedes] at hp

theorem wellFormed_of_lookup {fs : List (String × Json ν)} (h : (Json.obj fs).wellFormed = true)
    {k : String} {v : Json ν} (hk : fs.lookup k = some v) : v.wellFormed = true := by
  rw [wellFormed, everyObj, Bool.and_eq_true] at h
  exact everyField_iff.1 h.2 _ (mem_of_lookup hk)

theorem wellFormed_of_getElem? {xs : List (Json ν)} (h : (Json.arr xs).wellFormed = true) {i : ℕ}
    {v : Json ν} (hi : xs[i]? = some v) : v.wellFormed = true :=
  everyItem_iff.1 h _ (List.mem_of_getElem? hi)

mutual

theorem everyObj_of_follow : ∀ {v : Json ν}, v.wellFormed = true →
    (∀ q fs, follow q v = some (.obj fs) → p (fs.map Prod.fst) = true) → everyObj p v = true
  | .null, _, _ => rfl
  | .bool _, _, _ => rfl
  | .num _, _, _ => rfl
  | .str _, _, _ => rfl
  | .arr xs, hv, h => by
    refine everyItem_of_follow hv fun x hx q fs hq => ?_
    obtain ⟨i, hi⟩ := List.mem_iff_getElem?.1 hx
    refine h (.item i :: q) fs ?_
    rw [follow, hi]
    exact hq
  | .obj fs, hv, h => by
    have hn := wellFormed_keys hv
    rw [wellFormed, everyObj, Bool.and_eq_true] at hv
    rw [everyObj, Bool.and_eq_true]
    refine ⟨h [] fs rfl, everyField_of_follow hv.2 fun f hf q gs hq => h (.key f.1 :: q) gs ?_⟩
    rw [follow, (lookup_eq_some_iff_mem hn).2 hf]
    exact hq

theorem everyItem_of_follow : ∀ {xs : List (Json ν)},
    everyItem (fun keys => keys.Pairwise (precedes · ·)) xs = true →
    (∀ x ∈ xs, ∀ q fs, follow q x = some (.obj fs) → p (fs.map Prod.fst) = true) →
    everyItem p xs = true
  | [], _, _ => rfl
  | x :: xs, hxs, h => by
    rw [everyItem, Bool.and_eq_true] at hxs ⊢
    exact ⟨everyObj_of_follow hxs.1 (h x List.mem_cons_self),
      everyItem_of_follow hxs.2 fun y hy => h y (List.mem_cons_of_mem _ hy)⟩

theorem everyField_of_follow : ∀ {fs : List (String × Json ν)},
    everyField (fun keys => keys.Pairwise (precedes · ·)) fs = true →
    (∀ f ∈ fs, ∀ q gs, follow q f.2 = some (.obj gs) → p (gs.map Prod.fst) = true) →
    everyField p fs = true
  | [], _, _ => rfl
  | (k, v) :: fs, hfs, h => by
    rw [everyField, Bool.and_eq_true] at hfs ⊢
    exact ⟨everyObj_of_follow hfs.1 (h (k, v) List.mem_cons_self),
      everyField_of_follow hfs.2 fun f hf => h f (List.mem_cons_of_mem _ hf)⟩

end

end Objects

section Order

variable {r : String → String → Prop}

theorem nodup_of_pairwise (hr : ∀ k k', r k k' → ¬ r k' k) {keys : List String}
    (h : keys.Pairwise r) : keys.Nodup := by
  refine h.imp ?_
  rintro k k' hk rfl
  exact hr k k hk hk

variable [DecidableRel r]

mutual

/-- Values with all their keys in one strict order are equal if they are the same. -/
theorem eq_of_same (hr : ∀ k k', r k k' → ¬ r k' k) : ∀ {v w : Json ν},
    everyObj (fun keys => keys.Pairwise r) v = true →
    everyObj (fun keys => keys.Pairwise r) w = true → Same v w → v = w
  | .null, w, _, _, h => by
    cases w with
    | null => rfl
    | _ => cases h.node
  | .bool b, w, _, _, h => by
    cases w with
    | bool b' => exact h.node
    | _ => cases h.node
  | .num n, w, _, _, h => by
    cases w with
    | num n' => exact h.node
    | _ => cases h.node
  | .str s, w, _, _, h => by
    cases w with
    | str s' => exact h.node
    | _ => cases h.node
  | .arr xs, w, hv, hw, h => by
    cases w with
    | arr ys =>
      have hlen := h.length
      refine congrArg _ (List.ext_getElem hlen fun i hi hi' => ?_)
      exact eq_of_same_item hr hv (List.getElem_mem hi)
        (everyItem_iff.1 hw _ (List.getElem_mem hi'))
        (h.item (List.getElem?_eq_getElem hi) (List.getElem?_eq_getElem hi'))
    | _ => cases h.node
  | .obj fs, w, hv, hw, h => by
    cases w with
    | obj gs =>
      simp only [everyObj, Bool.and_eq_true, decide_eq_true_eq] at hv hw
      have hn := nodup_of_pairwise hr hv.1
      have hn' := nodup_of_pairwise hr hw.1
      have hperm : (fs.map Prod.fst).Perm (gs.map Prod.fst) :=
        (List.perm_ext_iff_of_nodup hn hn').2 h.keys
      have hkeys : fs.map Prod.fst = gs.map Prod.fst :=
        hperm.eq_of_pairwise (fun a b _ _ hab hba => absurd hba (hr a b hab)) hv.1 hw.1
      refine congrArg _ (eq_of_lookup hkeys hn fun k => ?_)
      rcases hk : fs.lookup k with _ | v
      · have hnone : k ∉ gs.map Prod.fst := by
          rw [← h.keys, ← lookup_isSome_iff_mem, hk]
          simp
        rw [← lookup_isSome_iff_mem, Option.not_isSome_iff_eq_none] at hnone
        exact hnone.symm
      · obtain ⟨w, hw'⟩ : ∃ w, gs.lookup k = some w := by
          rw [← Option.isSome_iff_exists, lookup_isSome_iff_mem, ← h.keys, ← lookup_isSome_iff_mem, hk]
          rfl
        rw [hw']
        exact congrArg some (eq_of_same_field hr hv.2 (mem_of_lookup hk)
          (everyField_iff.1 hw.2 _ (mem_of_lookup hw')) (h.get hk hw'))
    | _ => cases h.node

theorem eq_of_same_item (hr : ∀ k k', r k k' → ¬ r k' k) : ∀ {xs : List (Json ν)} {v w : Json ν},
    everyItem (fun keys => keys.Pairwise r) xs = true → v ∈ xs →
    everyObj (fun keys => keys.Pairwise r) w = true → Same v w → v = w
  | x :: xs, v, w, hxs, hv, hw, h => by
    rw [everyItem, Bool.and_eq_true] at hxs
    rcases List.mem_cons.1 hv with he | hv
    · rw [he] at h ⊢
      exact eq_of_same hr hxs.1 hw h
    · exact eq_of_same_item hr hxs.2 hv hw h

theorem eq_of_same_field (hr : ∀ k k', r k k' → ¬ r k' k) :
    ∀ {fs : List (String × Json ν)} {k : String} {v w : Json ν},
    everyField (fun keys => keys.Pairwise r) fs = true → (k, v) ∈ fs →
    everyObj (fun keys => keys.Pairwise r) w = true → Same v w → v = w
  | (l, x) :: fs, k, v, w, hfs, hv, hw, h => by
    rw [everyField, Bool.and_eq_true] at hfs
    rcases List.mem_cons.1 hv with he | hv
    · rw [(Prod.mk.inj he).2] at h ⊢
      exact eq_of_same hr hfs.1 hw h
    · exact eq_of_same_field hr hfs.2 hv hw h

end

end Order

end Json

/-- An object of JSON. -/
structure JsonObject (ν : Type*) where
  fields : List (String × Json ν)
  wellFormed : (Json.obj fields).wellFormed = true

namespace JsonObject

variable {ν : Type*}

def json (o : JsonObject ν) : Json ν := .obj o.fields

theorem wellFormed_json (o : JsonObject ν) : o.json.wellFormed = true := o.wellFormed

end JsonObject
