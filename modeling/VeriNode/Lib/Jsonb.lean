import VeriNode.Lib.Json
import Mathlib.Algebra.BigOperators.Group.List.Lemmas

/-!
# Columns of JSON

A `JSONB` column keeps the keys of an object by their length and then by their bytes, and the value
read from it has the array indices first. A value comes back with its keys in that order
(`Json.norm`): the same text if and only if they were in it to begin with (`norm_eq_iff`), and a text
of the same length in any case (`length_chars_norm`).
-/

namespace Json

variable {ν : Type*}

/-- The place of a key. -/
def slot (k : String) : List ℕ :=
  match arrayIndex k with
  | some n => [0, n]
  | none => 1 :: k.utf8ByteSize :: (k.toList.flatMap String.utf8EncodeChar).map UInt8.toNat

/-- The fields by their keys' places. -/
def sortFields (fs : List (String × Json ν)) : List (String × Json ν) :=
  fs.insertionSort fun f g => slot f.1 ≤ slot g.1

mutual

/-- The value that is read from the column a value was written to. -/
def norm : Json ν → Json ν
  | .arr items => .arr (normItems items)
  | .obj fields => .obj (sortFields (normFields fields))
  | .null => .null
  | .bool b => .bool b
  | .num n => .num n
  | .str s => .str s

def normItems : List (Json ν) → List (Json ν)
  | [] => []
  | x :: xs => norm x :: normItems xs

def normFields : List (String × Json ν) → List (String × Json ν)
  | [] => []
  | f :: fs => (f.1, norm f.2) :: normFields fs

end

example : norm (.obj [("bb", .null), ("a", .num 1), ("c", .obj [("é", .null), ("z", .null)])]
    : Json ℕ)
    = .obj [("a", .num 1), ("c", .obj [("z", .null), ("é", .null)]), ("bb", .null)] := by
  decide

/-- The keys are in the order of the column, in every object within. -/
def ordered (j : Json ν) : Bool := everyObj (fun keys => keys.Pairwise (slot · ≤ slot ·)) j

theorem map_fst_normFields (fs : List (String × Json ν)) :
    (normFields fs).map Prod.fst = fs.map Prod.fst := by
  induction fs with
  | nil => rfl
  | cons f fs ih => simp [normFields, ih]

theorem pairwise_sortFields (fs : List (String × Json ν)) :
    (sortFields fs).Pairwise fun f g => slot f.1 ≤ slot g.1 :=
  have : Std.Total fun f g : String × Json ν => slot f.1 ≤ slot g.1 :=
    ⟨fun f g => le_total (slot f.1) (slot g.1)⟩
  have : IsTrans (String × Json ν) fun f g => slot f.1 ≤ slot g.1 := ⟨fun _ _ _ => le_trans⟩
  List.pairwise_insertionSort _ _

theorem sortFields_perm (fs : List (String × Json ν)) : (sortFields fs).Perm fs :=
  List.perm_insertionSort _ _

theorem sortFields_eq_iff {fs : List (String × Json ν)} :
    sortFields fs = fs ↔ (fs.map Prod.fst).Pairwise (slot · ≤ slot ·) := by
  rw [List.pairwise_map]
  constructor
  · intro h
    rw [← h]
    exact pairwise_sortFields fs
  · exact List.Pairwise.insertionSort_eq

mutual

theorem norm_eq_iff : ∀ j : Json ν, norm j = j ↔ ordered j = true
  | .null => by simp [norm, ordered, everyObj]
  | .bool _ => by simp [norm, ordered, everyObj]
  | .num _ => by simp [norm, ordered, everyObj]
  | .str _ => by simp [norm, ordered, everyObj]
  | .arr items => by
    rw [norm, ordered, everyObj, arr.injEq]
    exact normItems_eq_iff items
  | .obj fields => by
    have hfields := normFields_eq_iff fields
    have hkeys : sortFields (normFields fields) = normFields fields
        ↔ (fields.map Prod.fst).Pairwise (slot · ≤ slot ·) := by
      rw [sortFields_eq_iff, map_fst_normFields]
    rw [norm, ordered, everyObj, obj.injEq, Bool.and_eq_true, decide_eq_true_iff]
    constructor
    · intro h
      -- the keys stand as they are sorted, so nothing but the values had to change
      have hsorted : (fields.map Prod.fst).Pairwise (slot · ≤ slot ·) := by
        rw [← h, List.pairwise_map]
        exact pairwise_sortFields _
      rw [hkeys.2 hsorted] at h
      exact ⟨hsorted, hfields.1 h⟩
    · rintro ⟨hsorted, h⟩
      rw [hkeys.2 hsorted, hfields.2 h]

theorem normItems_eq_iff : ∀ xs : List (Json ν), normItems xs = xs
    ↔ everyItem (fun keys => keys.Pairwise (slot · ≤ slot ·)) xs = true
  | [] => by simp [normItems, everyItem]
  | x :: xs => by
    rw [normItems, everyItem, List.cons.injEq, Bool.and_eq_true]
    exact and_congr (norm_eq_iff x) (normItems_eq_iff xs)

theorem normFields_eq_iff : ∀ fs : List (String × Json ν), normFields fs = fs
    ↔ everyField (fun keys => keys.Pairwise (slot · ≤ slot ·)) fs = true
  | [] => by simp [normFields, everyField]
  | (k, v) :: fs => by
    rw [normFields, everyField, List.cons.injEq, Bool.and_eq_true, Prod.mk.injEq]
    simp only [true_and]
    exact and_congr (norm_eq_iff v) (normFields_eq_iff fs)

end

theorem slot_injective : Function.Injective slot := by
  intro k k' h
  unfold slot at h
  rcases hk : arrayIndex k with _ | n <;> rcases hk' : arrayIndex k' with _ | m
  · rw [hk, hk'] at h
    simp only [List.cons.injEq, true_and] at h
    have hbytes := List.map_injective_iff.2 (fun _ _ => UInt8.toNat_inj.1) h.2
    have hutf8 : k.toList.utf8Encode = k'.toList.utf8Encode := congrArg List.toByteArray hbytes
    rw [String.utf8Encode_toList, String.utf8Encode_toList] at hutf8
    exact String.toByteArray_inj.1 hutf8
  · rw [hk, hk'] at h
    cases h
  · rw [hk, hk'] at h
    cases h
  · rw [hk, hk'] at h
    cases h
    exact arrayIndex_injective hk hk'

theorem precedes_of_slot {k k' : String} (hle : slot k ≤ slot k') (hne : k ≠ k') :
    precedes k k' = true := by
  have hne' : slot k ≠ slot k' := fun h => hne (slot_injective h)
  unfold precedes
  rw [decide_eq_true hne, Bool.true_and]
  rcases hk' : arrayIndex k' with _ | n
  · rfl
  · have hslot' : slot k' = [0, n] := by simp only [slot, hk']
    rw [hslot'] at hle hne'
    rcases hk : arrayIndex k with _ | m
    · have hslot : slot k = 1 :: k.utf8ByteSize
          :: (k.toList.flatMap String.utf8EncodeChar).map UInt8.toNat := by simp only [slot, hk]
      rw [hslot] at hle
      exact absurd hle (not_le.2 (List.Lex.rel (by decide)))
    · have hslot : slot k = [0, m] := by simp only [slot, hk]
      rw [hslot] at hle hne'
      refine decide_eq_true (lt_of_le_of_ne (not_lt.1 fun hlt => ?_) fun he => hne' (he ▸ rfl))
      exact absurd hle (not_le.2 (List.Lex.cons (List.Lex.rel hlt)))

mutual

theorem wellFormed_norm : ∀ {j : Json ν}, wellFormed j = true → wellFormed (norm j) = true
  | .null, h => h
  | .bool _, h => h
  | .num _, h => h
  | .str _, h => h
  | .arr items, h => by
    rw [norm, wellFormed, everyObj]
    exact wellFormed_normItems h
  | .obj fields, h => by
    rw [wellFormed, everyObj, Bool.and_eq_true, decide_eq_true_iff] at h
    rw [norm, wellFormed, everyObj, Bool.and_eq_true, decide_eq_true_iff]
    have hnodup : (fields.map Prod.fst).Pairwise (· ≠ ·) := by
      refine h.1.imp ?_
      intro k k' hp
      simp only [precedes, Bool.and_eq_true, decide_eq_true_eq] at hp
      exact hp.1
    have hperm := (sortFields_perm (normFields fields)).map Prod.fst
    rw [map_fst_normFields] at hperm
    have hsorted : ((sortFields (normFields fields)).map Prod.fst).Pairwise (slot · ≤ slot ·) :=
      List.pairwise_map.2 (pairwise_sortFields (normFields fields))
    refine ⟨?_, ?_⟩
    · refine (hsorted.and (hperm.symm.nodup hnodup)).imp ?_
      rintro k k' ⟨hle, hne⟩
      exact precedes_of_slot hle hne
    · rw [everyField_iff]
      intro f hf
      exact everyField_iff.1 (wellFormed_normFields h.2) f ((sortFields_perm _).mem_iff.1 hf)

theorem wellFormed_normItems : ∀ {xs : List (Json ν)},
    everyItem (fun keys => keys.Pairwise (precedes · ·)) xs = true →
    everyItem (fun keys => keys.Pairwise (precedes · ·)) (normItems xs) = true
  | [], _ => rfl
  | x :: xs, h => by
    rw [everyItem, Bool.and_eq_true] at h
    rw [normItems, everyItem, Bool.and_eq_true]
    exact ⟨wellFormed_norm h.1, wellFormed_normItems h.2⟩

theorem wellFormed_normFields : ∀ {fs : List (String × Json ν)},
    everyField (fun keys => keys.Pairwise (precedes · ·)) fs = true →
    everyField (fun keys => keys.Pairwise (precedes · ·)) (normFields fs) = true
  | [], _ => rfl
  | (k, v) :: fs, h => by
    rw [everyField, Bool.and_eq_true] at h
    rw [normFields, everyField, Bool.and_eq_true]
    exact ⟨wellFormed_norm h.1, wellFormed_normFields h.2⟩

end

section Length

variable [JsonNumber ν]

/-- The length a field takes, with the character after it. -/
def fieldLength (f : String × Json ν) : ℕ :=
  (JsString.quote f.1).toList.length + (chars f.2).length + 2

theorem length_fieldsRest (fs : List (String × Json ν)) :
    (fieldsRest fs).length = (fs.map fieldLength).sum + 1 := by
  induction fs with
  | nil => rfl
  | cons f fs ih =>
    simp only [fieldsRest, List.length_cons, List.length_append, ih, List.map_cons, List.sum_cons,
      fieldLength]
    omega

theorem length_obj (fs : List (String × Json ν)) :
    (chars (.obj fs)).length = (fs.map fieldLength).sum + if fs = [] then 2 else 1 := by
  rcases fs with _ | ⟨f, fs⟩
  · rfl
  · simp only [chars, List.length_cons, List.length_append, length_fieldsRest, List.map_cons,
      List.sum_cons, fieldLength, reduceCtorEq, if_false]
    omega

theorem length_obj_perm {fs gs : List (String × Json ν)} (h : fs.Perm gs) :
    (chars (.obj fs)).length = (chars (.obj gs)).length := by
  have hnil : fs = [] ↔ gs = [] := ⟨fun he => by rw [he] at h; exact h.nil_eq.symm,
    fun he => by rw [he] at h; exact h.eq_nil⟩
  rw [length_obj, length_obj, (h.map fieldLength).sum_eq]
  simp only [hnil]

mutual

theorem length_chars_norm : ∀ j : Json ν, (chars (norm j)).length = (chars j).length
  | .null => rfl
  | .bool _ => rfl
  | .num _ => rfl
  | .str _ => rfl
  | .arr [] => rfl
  | .arr (x :: xs) => by
    simp only [norm, normItems, chars, List.length_cons, List.length_append, length_chars_norm x,
      length_itemsRest_norm xs]
  | .obj fields => by
    rw [norm, length_obj_perm (sortFields_perm _), length_obj, length_obj, sum_normFields fields]
    rcases fields with _ | ⟨f, fs⟩
    · rfl
    · simp [normFields]

theorem length_itemsRest_norm : ∀ xs : List (Json ν),
    (itemsRest (normItems xs)).length = (itemsRest xs).length
  | [] => rfl
  | x :: xs => by
    simp only [normItems, itemsRest, List.length_cons, List.length_append, length_chars_norm x,
      length_itemsRest_norm xs]

theorem sum_normFields : ∀ fs : List (String × Json ν),
    ((normFields fs).map fieldLength).sum = (fs.map fieldLength).sum
  | [] => rfl
  | (k, v) :: fs => by
    simp only [normFields, List.map_cons, List.sum_cons, fieldLength, length_chars_norm v]
    rw [sum_normFields fs]

end

end Length

end Json

namespace JsValue

variable {ν : Type*}

/-- The value that is read from the column a value was written to. -/
def norm (v : JsValue ν) : JsValue ν := ⟨v.json.norm, Json.wellFormed_norm v.wellFormed⟩

end JsValue
