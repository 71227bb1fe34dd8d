import VeriNode.Lib.Fields
import VeriNode.Lib.Jsonb

/-!
# Objects of the language

Values that plain objects are made of: JSON, `undefined`, and the functions every object inherits.
A property is read by its name, in the object or where it is inherited, and assigned in the object.
A text that stands for a place in nested objects is not part of this: a place is its list of keys.
-/

/-- A value: `undefined`, an inherited function, JSON that is no object, or a plain object. -/
inductive JsVal (ν : Type*) where
  | undefined
  | func (name : String)
  | json (j : Json ν)
  | obj (fields : List (String × JsVal ν))

namespace JsVal

variable {ν : Type*}

mutual

/-- JSON, as `JSON.parse` gives it. -/
def ofJson : Json ν → JsVal ν
  | .obj fields => .obj (ofFields fields)
  | .null => .json .null
  | .bool b => .json (.bool b)
  | .num n => .json (.num n)
  | .str s => .json (.str s)
  | .arr items => .json (.arr items)

def ofFields : List (String × Json ν) → List (String × JsVal ν)
  | [] => []
  | f :: fs => (f.1, ofJson f.2) :: ofFields fs

end

mutual

/-- What of a value is JSON; fields that have no text are left out. -/
def toJson : JsVal ν → Option (Json ν)
  | .undefined => none
  | .func _ => none
  | .json j => some j
  | .obj fields => some (.obj (toFields fields))

def toFields : List (String × JsVal ν) → List (String × Json ν)
  | [] => []
  | f :: fs =>
    match toJson f.2 with
    | some j => (f.1, j) :: toFields fs
    | none => toFields fs

end

/-- `JSON.stringify`. -/
def stringify [JsonNumber ν] (v : JsVal ν) : Option String := (toJson v).map Json.stringify

/-- The functions that every object inherits. -/
def inherited : List String :=
  ["constructor", "__defineGetter__", "__defineSetter__", "hasOwnProperty", "__lookupGetter__",
    "__lookupSetter__", "isPrototypeOf", "propertyIsEnumerable", "toString", "valueOf",
    "toLocaleString"]

variable {k k' : String} {v w : JsVal ν} {fs gs : List (String × JsVal ν)}

/-- The object's own property. -/
def own (k : String) (fs : List (String × JsVal ν)) : Option (JsVal ν) := fs.lookup k

/-- `key in object`. -/
def has (k : String) (fs : List (String × JsVal ν)) : Bool := (own k fs).isSome || k ∈ inherited

/-- `object[key]`. -/
def read (k : String) (fs : List (String × JsVal ν)) : JsVal ν :=
  match own k fs with
  | some v => v
  | none => if k ∈ inherited then .func k else .undefined

/-- `object[key] = value`; where a new key comes in the order of the keys is not kept. -/
def assign (k : String) (v : JsVal ν) : List (String × JsVal ν) → List (String × JsVal ν)
  | [] => [(k, v)]
  | f :: fs => if f.1 = k then (k, v) :: fs else f :: assign k v fs

/-- The value at a place within. -/
def follow : List String → JsVal ν → Option (JsVal ν)
  | [], v => some v
  | k :: ks, .obj fs => (own k fs).bind (follow ks)
  | _ :: _, _ => none

theorem own_nil : own k ([] : List (String × JsVal ν)) = none := rfl

theorem own_cons (f : String × JsVal ν) (fs : List (String × JsVal ν)) :
    own k (f :: fs) = if k = f.1 then some f.2 else own k fs := Fields.lookup_cons k f fs

theorem own_assign_self (k : String) (v : JsVal ν) (fs : List (String × JsVal ν)) :
    own k (assign k v fs) = some v := by
  induction fs with
  | nil => simp [assign, own]
  | cons f fs ih =>
    rw [assign]
    split_ifs with h
    · rw [own_cons, if_pos rfl]
    · rw [own_cons, if_neg (Ne.symm h), ih]

theorem own_assign_ne (h : k' ≠ k) (v : JsVal ν) (fs : List (String × JsVal ν)) :
    own k' (assign k v fs) = own k' fs := by
  induction fs with
  | nil => rw [assign, own_cons, if_neg h]
  | cons f fs ih =>
    rw [assign]
    split_ifs with hf
    · rw [own_cons, own_cons, if_neg h, if_neg (hf ▸ h)]
    · rw [own_cons, own_cons, ih]

theorem own_filter_ne (h : k' ≠ k) (fs : List (String × JsVal ν)) :
    own k' (fs.filter (·.1 ≠ k)) = own k' fs := by
  induction fs with
  | nil => rfl
  | cons f fs ih =>
    rw [List.filter_cons]
    split_ifs with hf
    · rw [own_cons, own_cons, ih]
    · rw [own_cons, ih, if_neg]
      rintro rfl
      exact hf (decide_eq_true h)

theorem own_isSome_iff : (own k fs).isSome ↔ k ∈ fs.map Prod.fst := Fields.lookup_isSome_iff_mem

theorem mem_of_own (h : own k fs = some v) : (k, v) ∈ fs := Fields.mem_of_lookup h

theorem own_of_mem (hn : (fs.map Prod.fst).Nodup) (h : (k, v) ∈ fs) : own k fs = some v :=
  (Fields.lookup_eq_some_iff_mem hn).2 h

theorem map_fst_ofFields (fs : List (String × Json ν)) :
    (ofFields fs).map Prod.fst = fs.map Prod.fst := by
  induction fs with
  | nil => rfl
  | cons f fs ih => simp [ofFields, ih]

theorem mem_ofFields {fs : List (String × Json ν)} :
    (k, v) ∈ ofFields fs ↔ ∃ j, (k, j) ∈ fs ∧ ofJson j = v := by
  induction fs with
  | nil => simp [ofFields]
  | cons f fs ih =>
    simp only [ofFields, List.mem_cons, ih, Prod.ext_iff]
    constructor
    · rintro (⟨rfl, rfl⟩ | ⟨j, hj, rfl⟩)
      · exact ⟨f.2, .inl ⟨rfl, rfl⟩, rfl⟩
      · exact ⟨j, .inr hj, rfl⟩
    · rintro ⟨j, ⟨rfl, rfl⟩ | hj, rfl⟩
      · exact .inl ⟨rfl, rfl⟩
      · exact .inr ⟨j, hj, rfl⟩

theorem own_ofFields (k : String) (fs : List (String × Json ν)) :
    own k (ofFields fs) = (fs.lookup k).map ofJson := by
  induction fs with
  | nil => rfl
  | cons f fs ih =>
    rw [ofFields, own_cons, ih, Fields.lookup_cons]
    split_ifs <;> rfl

theorem read_ofFields (k : String) (fs : List (String × Json ν)) :
    read k (ofFields fs)
      = match fs.lookup k with
        | some j => ofJson j
        | none => if k ∈ inherited then .func k else .undefined := by
  unfold read
  rw [own_ofFields]
  cases fs.lookup k <;> rfl

mutual

theorem toJson_ofJson : ∀ j : Json ν, toJson (ofJson j) = some j
  | .null => rfl
  | .bool _ => rfl
  | .num _ => rfl
  | .str _ => rfl
  | .arr _ => rfl
  | .obj fields => by rw [ofJson, toJson, toFields_ofFields fields]

theorem toFields_ofFields : ∀ fs : List (String × Json ν), toFields (ofFields fs) = fs
  | [] => rfl
  | (k, j) :: fs => by rw [ofFields, toFields, toJson_ofJson j, toFields_ofFields fs]

end

section Places

variable {q r : List String}

/-- What stands at a place: a leaf, or that there is an object. -/
def node : JsVal ν → JsVal ν
  | .obj _ => .obj []
  | v => v

/-- What stands at a place within, if there is anything. -/
def shape (q : List String) (v : JsVal ν) : Option (JsVal ν) := (follow q v).map node

/-- Deep equality up to the order of keys: the same stands at every place. -/
def Same (v w : JsVal ν) : Prop := ∀ q, shape q v = shape q w

theorem follow_obj (k : String) (q : List String) (fs : List (String × JsVal ν)) :
    follow (k :: q) (.obj fs) = (own k fs).bind (follow q) := rfl

theorem follow_append (q r : List String) (v : JsVal ν) :
    follow (q ++ r) v = (follow q v).bind (follow r) := by
  induction q generalizing v with
  | nil => rfl
  | cons k q ih =>
    cases v with
    | obj fs =>
      rw [List.cons_append, follow_obj, follow_obj, Option.bind_assoc]
      congr 1
      funext w
      exact ih w
    | _ => rfl

theorem shape_append (q r : List String) (v : JsVal ν) :
    shape (q ++ r) v = (follow q v).bind (shape r) := by
  rw [shape, follow_append, Option.map_bind]
  rfl

theorem shape_obj (k : String) (q : List String) (fs : List (String × JsVal ν)) :
    shape (k :: q) (.obj fs) = (own k fs).bind (shape q) := shape_append [k] q (.obj fs) |>.trans (by
  rw [follow_obj]
  cases own k fs <;> rfl)

theorem follow_isSome_of_append (h : (follow (q ++ r) v).isSome) : (follow q v).isSome := by
  rw [follow_append] at h
  rcases hq : follow q v with _ | w
  · rw [hq] at h
    exact h
  · rfl

mutual

theorem exists_height : ∀ v : JsVal ν, ∃ n, ∀ q, (follow q v).isSome → q.length ≤ n
  | .undefined => ⟨0, fun q h => by cases q <;> simp_all [follow]⟩
  | .func _ => ⟨0, fun q h => by cases q <;> simp_all [follow]⟩
  | .json _ => ⟨0, fun q h => by cases q <;> simp_all [follow]⟩
  | .obj fs => by
    obtain ⟨n, hn⟩ := exists_height_fields fs
    refine ⟨n + 1, fun q h => ?_⟩
    rcases q with _ | ⟨k, q⟩
    · exact Nat.zero_le _
    · rw [follow_obj] at h
      rcases hk : own k fs with _ | v
      · rw [hk] at h
        cases h
      · rw [hk] at h
        exact Nat.succ_le_succ (hn (k, v) (mem_of_own hk) q h)

theorem exists_height_fields : ∀ fs : List (String × JsVal ν),
    ∃ n, ∀ f ∈ fs, ∀ q, (follow q f.2).isSome → q.length ≤ n
  | [] => ⟨0, fun f hf => by cases hf⟩
  | (k, v) :: fs => by
    obtain ⟨n, hn⟩ := exists_height v
    obtain ⟨m, hm⟩ := exists_height_fields fs
    refine ⟨max n m, fun f hf q h => ?_⟩
    rcases List.mem_cons.1 hf with rfl | hf
    · exact le_max_of_le_left (hn q h)
    · exact le_max_of_le_right (hm f hf q h)

end

theorem follow_ofJson {j : Json ν} (h : follow q (ofJson j) = some v) : ∃ j', v = ofJson j' := by
  induction q generalizing j with
  | nil => exact ⟨j, (Option.some.inj h).symm⟩
  | cons k q ih =>
    cases j with
    | obj fields =>
      rw [ofJson, follow_obj] at h
      obtain ⟨w, hw, hv⟩ := Option.bind_eq_some_iff.1 h
      obtain ⟨j', -, rfl⟩ := mem_ofFields.1 (mem_of_own hw)
      exact ih hv
    | _ => cases h

end Places

end JsVal

/-- A plain object of JSON. No key is `__proto__`, which names no property of an object's own. -/
structure PlainObject (ν : Type*) where
  fields : List (String × Json ν)
  wellFormed : (Json.obj fields).wellFormed = true
  noProto : (Json.obj fields).everyObj (fun keys => "__proto__" ∉ keys) = true

namespace PlainObject

variable {ν : Type*}

/-- Its fields, as values of the language. -/
def value (b : PlainObject ν) : List (String × JsVal ν) := JsVal.ofFields b.fields

theorem obj_value (b : PlainObject ν) : JsVal.obj b.value = JsVal.ofJson (.obj b.fields) := rfl

end PlainObject
