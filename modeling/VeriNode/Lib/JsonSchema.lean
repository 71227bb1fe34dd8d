import VeriNode.Lib.JsObject

/-!
# Schemas of JSON

A schema gives a value its type and says what else is asked of it, and each part of a value that
breaks one of its words is found at a location (`Violates`): a missing field at the field. A value
is completed with the defaults of the fields it has not got, and so are the objects within that the
schema gives properties to (`complete`).
-/

/-- The types a schema can ask for. -/
inductive SchemaType
  | object
  | array
  | string
  | integer
  | number
  | boolean
deriving DecidableEq

/-- A value that is neither an array nor an object. -/
inductive Scalar (ν : Type*) where
  | null
  | bool (b : Bool)
  | num (n : ν)
  | str (s : String)

namespace Scalar

variable {ν : Type*}

def toJson : Scalar ν → Json ν
  | .null => .null
  | .bool b => .bool b
  | .num n => .num n
  | .str s => .str s

end Scalar

/-- The words of a schema that hold no schema. -/
structure Keywords (ν : Type*) where
  type : SchemaType
  enum : Option (List (Scalar ν)) := none
  minimum : Option ν := none
  maximum : Option ν := none
  pattern : Option String := none
  format : Option String := none
  required : List String := []
  default : Option (Json ν) := none

/-- `additionalProperties`. -/
inductive Additional (σ : Type*) where
  | absent
  | forbidden
  | schema (s : σ)

inductive JsonSchema (ν : Type*) where
  | mk (words : Keywords ν) (items : Option (JsonSchema ν))
      (properties : Option (List (String × JsonSchema ν))) (additional : Additional (JsonSchema ν))

namespace JsonSchema

variable {ν : Type*}

def words : JsonSchema ν → Keywords ν
  | .mk words _ _ _ => words

def items : JsonSchema ν → Option (JsonSchema ν)
  | .mk _ items _ _ => items

def properties : JsonSchema ν → Option (List (String × JsonSchema ν))
  | .mk _ _ properties _ => properties

def additional : JsonSchema ν → Additional (JsonSchema ν)
  | .mk _ _ _ additional => additional

/-- The names of its properties. -/
def names (s : JsonSchema ν) : List String := (s.properties.getD []).map Prod.fst

/-- A step into a value. -/
inductive Step
  | key (k : String)
  | item (i : ℕ)
deriving DecidableEq

/-- Where in a value something stands. -/
abbrev Location := List Step

section Semantics

variable [LT ν] (isInteger : ν → Bool) (asserts : Option String → Option String → String → Bool)

/-- The value is of the type. -/
def ofType : SchemaType → Json ν → Bool
  | .object, .obj _ => true
  | .array, .arr _ => true
  | .string, .str _ => true
  | .integer, .num n => isInteger n
  | .number, .num _ => true
  | .boolean, .bool _ => true
  | _, _ => false

/-- The value itself, whatever is in it, breaks one of these words. -/
inductive Misfits (words : Keywords ν) : Json ν → Prop
  | type {j : Json ν} : ofType isInteger words.type j = false → Misfits words j
  | minimum {n m : ν} : words.minimum = some m → n < m → Misfits words (.num n)
  | maximum {n m : ν} : words.maximum = some m → m < n → Misfits words (.num n)
  | text {s : String} : asserts words.pattern words.format s = false → Misfits words (.str s)

/-- The value is not among those that are listed. -/
def Unlisted (words : Keywords ν) (j : Json ν) : Prop :=
  ∃ values, words.enum = some values ∧ ∀ v ∈ values, j ≠ v.toJson

/-- What stands at a location in a value breaks a word of the schema for it. A key that is neither a
property nor has a schema is allowed. -/
inductive Violates : JsonSchema ν → Json ν → Location → Prop
  | misfit {s : JsonSchema ν} {j : Json ν} : Misfits isInteger asserts s.words j → Violates s j []
  | enum {s : JsonSchema ν} {j : Json ν} : Unlisted s.words j → Violates s j []
  | required {s : JsonSchema ν} {fields : List (String × Json ν)} {k : String} :
      k ∈ s.words.required → k ∉ fields.map Prod.fst → Violates s (.obj fields) [.key k]
  | item {s t : JsonSchema ν} {xs : List (Json ν)} {i : ℕ} {x : Json ν} {l : Location} :
      s.items = some t → xs[i]? = some x → Violates t x l → Violates s (.arr xs) (.item i :: l)
  | property {s t : JsonSchema ν} {ps : List (String × JsonSchema ν)}
      {fields : List (String × Json ν)} {k : String} {v : Json ν} {l : Location} :
      s.properties = some ps → (k, t) ∈ ps → fields.lookup k = some v → Violates t v l →
      Violates s (.obj fields) (.key k :: l)
  | additional {s t : JsonSchema ν} {fields : List (String × Json ν)} {k : String} {v : Json ν}
      {l : Location} : s.additional = .schema t → (k, v) ∈ fields → k ∉ s.names →
      Violates t v l → Violates s (.obj fields) (.key k :: l)

/-- The value satisfies the schema: no word is broken anywhere in it. -/
def Satisfies (s : JsonSchema ν) (j : Json ν) : Prop := ∀ l, ¬ Violates isInteger asserts s j l

/-- A required field is missing. -/
def Missing (required : List String) (fields : List (String × Json ν)) (l : Location) : Prop :=
  ∃ k ∈ required, k ∉ fields.map Prod.fst ∧ l = [.key k]

/-- A violation within an item. -/
def InItem (items : Option (JsonSchema ν)) (xs : List (Json ν)) (l : Location) : Prop :=
  ∃ t i x l', items = some t ∧ xs[i]? = some x ∧ l = .item i :: l' ∧ Violates isInteger asserts t x l'

/-- A violation within the field of a property. -/
def InProperty (ps : List (String × JsonSchema ν)) (fields : List (String × Json ν)) (l : Location) :
    Prop :=
  ∃ k t v l', (k, t) ∈ ps ∧ fields.lookup k = some v ∧ l = .key k :: l'
    ∧ Violates isInteger asserts t v l'

/-- A violation within a field that is none of these. -/
def InUnknown (allowed : List String) (t : JsonSchema ν) (fields : List (String × Json ν))
    (l : Location) : Prop :=
  ∃ k v l', (k, v) ∈ fields ∧ k ∉ allowed ∧ l = .key k :: l' ∧ Violates isInteger asserts t v l'

variable {isInteger asserts} {s : JsonSchema ν} {l : Location}

theorem violates_obj_iff {fields : List (String × Json ν)} :
    Violates isInteger asserts s (.obj fields) l
      ↔ (l = [] ∧ (Misfits isInteger asserts s.words (.obj fields) ∨ Unlisted s.words (.obj fields)))
        ∨ InProperty isInteger asserts (s.properties.getD []) fields l
        ∨ Missing s.words.required fields l
        ∨ ∃ t, s.additional = .schema t ∧ InUnknown isInteger asserts s.names t fields l := by
  constructor
  · intro h
    cases h with
    | misfit h => exact .inl ⟨rfl, .inl h⟩
    | enum h => exact .inl ⟨rfl, .inr h⟩
    | required hk hn => exact .inr (.inr (.inl ⟨_, hk, hn, rfl⟩))
    | property hps hk hv h =>
      refine .inr (.inl ⟨_, _, _, _, ?_, hv, rfl, h⟩)
      rw [hps]
      exact hk
    | additional hs hk hn h => exact .inr (.inr (.inr ⟨_, hs, _, _, _, hk, hn, rfl, h⟩))
  · rintro (⟨rfl, h | h⟩ | ⟨k, t, v, l', hk, hv, rfl, h⟩ | ⟨k, hk, hn, rfl⟩
      | ⟨t, hs, k, v, l', hk, hn, rfl, h⟩)
    · exact .misfit h
    · exact .enum h
    · rcases hps : s.properties with _ | ps
      · rw [hps] at hk
        cases hk
      · rw [hps] at hk
        exact .property hps hk hv h
    · exact .required hk hn
    · exact .additional hs hk hn h

theorem violates_arr_iff {xs : List (Json ν)} :
    Violates isInteger asserts s (.arr xs) l
      ↔ (l = [] ∧ (Misfits isInteger asserts s.words (.arr xs) ∨ Unlisted s.words (.arr xs)))
        ∨ InItem isInteger asserts s.items xs l := by
  constructor
  · intro h
    cases h with
    | misfit h => exact .inl ⟨rfl, .inl h⟩
    | enum h => exact .inl ⟨rfl, .inr h⟩
    | item hs hx h => exact .inr ⟨_, _, _, _, hs, hx, rfl, h⟩
  · rintro (⟨rfl, h | h⟩ | ⟨t, i, x, l', hs, hx, rfl, h⟩)
    · exact .misfit h
    · exact .enum h
    · exact .item hs hx h

theorem violates_leaf_iff {j : Json ν} (hobj : ∀ fields, j ≠ .obj fields) (harr : ∀ xs, j ≠ .arr xs) :
    Violates isInteger asserts s j l
      ↔ l = [] ∧ (Misfits isInteger asserts s.words j ∨ Unlisted s.words j) := by
  constructor
  · intro h
    cases h with
    | misfit h => exact ⟨rfl, .inl h⟩
    | enum h => exact ⟨rfl, .inr h⟩
    | item => exact absurd rfl (harr _)
    | _ => exact absurd rfl (hobj _)
  · rintro ⟨rfl, h | h⟩
    · exact .misfit h
    · exact .enum h

end Semantics

section Completion

/-- The fields, with this one put in: in the place of its key, or last. -/
def put (k : String) (v : Json ν) : List (String × Json ν) → List (String × Json ν)
  | [] => [(k, v)]
  | f :: fs => if f.1 = k then (k, v) :: fs else f :: put k v fs

theorem lookup_put_self (k : String) (v : Json ν) (fs : List (String × Json ν)) :
    (put k v fs).lookup k = some v := by
  induction fs with
  | nil => simp [put]
  | cons f fs ih =>
    rw [put]
    split_ifs with hf
    · simp
    · rw [Fields.lookup_cons, if_neg (Ne.symm hf), ih]

theorem put_put (k : String) (v w : Json ν) (fs : List (String × Json ν)) :
    put k w (put k v fs) = put k w fs := by
  induction fs with
  | nil => simp [put]
  | cons f fs ih =>
    rw [put, put]
    split_ifs with hf
    · rw [put, if_pos rfl]
    · rw [put, if_neg hf, ih]

theorem put_of_lookup {k : String} {v : Json ν} {fs : List (String × Json ν)}
    (h : fs.lookup k = some v) : put k v fs = fs := by
  induction fs with
  | nil => cases h
  | cons f fs ih =>
    rw [Fields.lookup_cons] at h
    rw [put]
    split_ifs at h with hk
    · rw [if_pos hk.symm, ← Option.some.inj h, hk]
    · rw [if_neg (Ne.symm hk), ih h]

theorem ofFields_put (k : String) (v : Json ν) (fs : List (String × Json ν)) :
    JsVal.ofFields (put k v fs) = JsVal.assign k (.ofJson v) (JsVal.ofFields fs) := by
  induction fs with
  | nil => rfl
  | cons f fs ih =>
    rw [put, JsVal.ofFields, JsVal.assign]
    split_ifs with hf
    · rfl
    · rw [JsVal.ofFields, ih]

mutual

/-- The value with the defaults of its properties and of those of the objects within. -/
def complete : JsonSchema ν → Json ν → Json ν
  | .mk _ _ (some properties) _, .obj fields => .obj (completeFields properties fields)
  | .mk _ _ _ _, j => j
termination_by structural s => s

def completeFields :
    List (String × JsonSchema ν) → List (String × Json ν) → List (String × Json ν)
  | [], fields => fields
  | (k, s) :: rest, fields =>
    completeFields rest
      (match (fields.lookup k).or s.words.default with
        | some v => put k (if s.words.type = .object then complete s v else v) fields
        | none => fields)
termination_by structural ps => ps

end

example : complete (.mk { type := .object } none
      (some [("a", .mk { type := .object, default := some (.obj []) } none
        (some [("b", .mk { type := .number, default := some (.num 1) } none none .absent)]) .absent)])
      .absent) (.obj [("c", .null)])
    = (.obj [("c", .null), ("a", .obj [("b", .num 1)])] : Json ℕ) := by rfl

end Completion

end JsonSchema
