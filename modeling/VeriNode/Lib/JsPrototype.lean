import VeriNode.Lib.JsonPlaces

/-!
# Objects and their prototypes

A plain object inherits from `Object.prototype`, where `__proto__` is an accessor: to assign it is to
give an object another prototype, and then a property that is not its own is read in that one. Only a
key of its own called `__proto__`, which `JSON.parse` makes, is a property like others.
-/

/-- `undefined`, JSON that is no object, `Object.prototype`, or an object by its prototype and its own
properties. -/
inductive ProtoVal (ν : Type*) where
  | undefined
  | json (j : Json ν)
  | objectPrototype
  | obj (proto : ProtoVal ν) (fields : List (String × ProtoVal ν))

namespace ProtoVal

variable {ν : Type*}

/-- The fields with the value at the key, which comes last if it is new. -/
def assignKey {α : Type*} (k : String) (v : α) : List (String × α) → List (String × α)
  | [] => [(k, v)]
  | f :: fs => if f.1 = k then (k, v) :: fs else f :: assignKey k v fs

/-- `{}`. -/
def empty : ProtoVal ν := .obj .objectPrototype []

mutual

def ofJson : Json ν → ProtoVal ν
  | .obj fields => .obj .objectPrototype (ofFields fields)
  | .null => .json .null
  | .bool b => .json (.bool b)
  | .num n => .json (.num n)
  | .str s => .json (.str s)
  | .arr items => .json (.arr items)

def ofFields : List (String × Json ν) → List (String × ProtoVal ν)
  | [] => []
  | f :: fs => (f.1, ofJson f.2) :: ofFields fs

end

/-- An object that is no array. -/
def isObject : ProtoVal ν → Bool
  | .objectPrototype => true
  | .obj _ _ => true
  | _ => false

/-- The value if it is an object. -/
def object? (v : ProtoVal ν) : Option (ProtoVal ν) := if v.isObject then some v else none

/-- `Object.entries(value)`. -/
def entries : ProtoVal ν → List (String × ProtoVal ν)
  | .obj _ fields => fields
  | .json (.arr items) => items.zipIdx.map fun x => (toString x.2, ofJson x.1)
  | _ => []

def prototype : ProtoVal ν → ProtoVal ν
  | .obj proto _ => proto
  | _ => .json .null

/-- What is read in `Object.prototype`, if it is an object. -/
def inherited (key : String) (this : ProtoVal ν) : Option (ProtoVal ν) :=
  if key = "__proto__" then this.prototype.object? else none

/-- What is read of `this`, from a value on along its prototypes, if it is an object. -/
def readFrom (key : String) (this : ProtoVal ν) : ProtoVal ν → Option (ProtoVal ν)
  | .obj proto fields =>
    match fields.lookup key with
    | some v => v.object?
    | none => readFrom key this proto
  | .json (.arr items) =>
    match (Json.arrayIndex key).bind (items[·]?) with
    | some item => (ofJson item).object?
    | none => inherited key this
  | .objectPrototype => inherited key this
  | _ => none

/-- `value[key]`, if it is an object. -/
def read? (v : ProtoVal ν) (key : String) : Option (ProtoVal ν) := readFrom key v v

/-- `__proto__` is the accessor: no object before `Object.prototype` has a property of that name. -/
def hasAccessor : ProtoVal ν → Bool
  | .obj proto fields => (fields.lookup "__proto__").isNone && hasAccessor proto
  | .json (.arr _) => true
  | .objectPrototype => true
  | _ => false

/-- An object can inherit from it: it is null, or not a primitive value. -/
def canInherit : ProtoVal ν → Bool
  | .json .null => true
  | .json (.arr _) => true
  | v => v.isObject

/-- `object[key] = value`. -/
def write (object : ProtoVal ν) (key : String) (value : ProtoVal ν) : ProtoVal ν :=
  match object with
  | .obj proto fields =>
    if key = "__proto__" && object.hasAccessor then
      if value.canInherit then .obj value fields else object
    else .obj proto (assignKey key value fields)
  | _ => object

mutual

/-- Every object within is a plain one and has no key twice. -/
def plain : ProtoVal ν → Bool
  | .undefined => true
  | .json (.obj _) => false
  | .json _ => true
  | .objectPrototype => false
  | .obj .objectPrototype fields => decide (fields.map Prod.fst).Nodup && plainFields fields
  | .obj _ _ => false

def plainFields : List (String × ProtoVal ν) → Bool
  | [] => true
  | f :: fs => plain f.2 && plainFields fs

end

section Fields

variable {α : Type*} {k k' : String} {fs : List (String × α)}

theorem lookup_assignKey (k : String) (v : α) (fs : List (String × α)) (k' : String) :
    (assignKey k v fs).lookup k' = if k' = k then some v else fs.lookup k' := by
  induction fs with
  | nil => rw [assignKey, Fields.lookup_cons]
  | cons f fs ih =>
    rw [assignKey]
    by_cases hl : f.1 = k
    · rw [if_pos hl, Fields.lookup_cons, Fields.lookup_cons, hl]
      split_ifs <;> rfl
    · rw [if_neg hl, Fields.lookup_cons, Fields.lookup_cons, ih]
      by_cases h : k' = f.1
      · have hk : k' ≠ k := h ▸ hl
        rw [if_pos h, if_neg hk, if_pos h]
      · rw [if_neg h, if_neg h]

end Fields

section Depth

mutual

/-- How deep the objects of a value are within each other, arrays being such too. -/
def jsonDepth : Json ν → ℕ
  | .arr items => itemsDepth items + 1
  | .obj fields => jsonFieldsDepth fields + 1
  | _ => 0

def itemsDepth : List (Json ν) → ℕ
  | [] => 0
  | x :: xs => max (jsonDepth x) (itemsDepth xs)

def jsonFieldsDepth : List (String × Json ν) → ℕ
  | [] => 0
  | f :: fs => max (jsonDepth f.2) (jsonFieldsDepth fs)

end

mutual

/-- The same, where a prototype other than `Object.prototype` is within what inherits from it. -/
def depth : ProtoVal ν → ℕ
  | .undefined => 0
  | .json j => jsonDepth j
  | .objectPrototype => 1
  | .obj .objectPrototype fields => fieldsDepth fields + 1
  | .obj proto fields => max (depth proto) (fieldsDepth fields) + 1

def fieldsDepth : List (String × ProtoVal ν) → ℕ
  | [] => 0
  | f :: fs => max (depth f.2) (fieldsDepth fs)

end

variable {v w this : ProtoVal ν} {key : String} {n : ℕ}

mutual

theorem depth_ofJson : ∀ j : Json ν, depth (ofJson j) = jsonDepth j
  | .null => rfl
  | .bool _ => rfl
  | .num _ => rfl
  | .str _ => rfl
  | .arr _ => rfl
  | .obj fields => by
    rw [ofJson, depth, jsonDepth, fieldsDepth_ofFields fields]

theorem fieldsDepth_ofFields : ∀ fs : List (String × Json ν),
    fieldsDepth (ofFields fs) = jsonFieldsDepth fs
  | [] => rfl
  | (k, j) :: fs => by
    rw [ofFields, fieldsDepth, jsonFieldsDepth, depth_ofJson j, fieldsDepth_ofFields fs]

end

theorem jsonDepth_le_of_mem {x : Json ν} : ∀ {xs : List (Json ν)}, x ∈ xs →
    jsonDepth x ≤ itemsDepth xs
  | y :: ys, h => by
    rw [itemsDepth]
    rcases List.mem_cons.1 h with rfl | h
    · exact le_max_left _ _
    · exact le_max_of_le_right (jsonDepth_le_of_mem h)

theorem depth_le_of_mem {f : String × ProtoVal ν} : ∀ {fs : List (String × ProtoVal ν)}, f ∈ fs →
    depth f.2 ≤ fieldsDepth fs
  | g :: gs, h => by
    rw [fieldsDepth]
    rcases List.mem_cons.1 h with rfl | h
    · exact le_max_left _ _
    · exact le_max_of_le_right (depth_le_of_mem h)

theorem fieldsDepth_le_iff : ∀ {fs : List (String × ProtoVal ν)},
    fieldsDepth fs ≤ n ↔ ∀ f ∈ fs, depth f.2 ≤ n
  | [] => by simp [fieldsDepth]
  | f :: fs => by rw [fieldsDepth, max_le_iff, fieldsDepth_le_iff, List.forall_mem_cons]

theorem depth_obj_le_iff {proto : ProtoVal ν} {fields : List (String × ProtoVal ν)} :
    depth (.obj proto fields) ≤ n + 1
      ↔ (proto = .objectPrototype ∨ depth proto ≤ n) ∧ fieldsDepth fields ≤ n := by
  cases proto <;> simp [depth]

theorem one_le_depth (h : v.isObject = true) : 1 ≤ depth v := by
  cases v with
  | objectPrototype => exact le_rfl
  | obj proto fields => cases proto <;> exact Nat.succ_le_succ (Nat.zero_le _)
  | _ => cases h

theorem eq_of_object? (h : v.object? = some w) : v = w := by
  rw [object?] at h
  split_ifs at h
  exact Option.some.inj h

theorem depth_entries {f : String × ProtoVal ν} (h : f ∈ entries v) : depth f.2 ≤ depth v - 1 := by
  cases v with
  | obj proto fields =>
    rcases hn : depth (.obj proto fields) with _ | n
    · exact absurd (one_le_depth (v := .obj proto fields) rfl) (by simp [hn])
    · exact (depth_le_of_mem h).trans (depth_obj_le_iff.1 hn.le).2
  | json j =>
    cases j with
    | arr items =>
      obtain ⟨⟨x, i⟩, hx, rfl⟩ := List.mem_map.1 h
      rw [depth_ofJson]
      exact jsonDepth_le_of_mem (List.fst_mem_of_mem_zipIdx hx)
    | _ => cases h
  | _ => cases h

theorem depth_prototype : depth this.prototype ≤ max 1 (depth this - 1) := by
  cases this with
  | obj proto fields =>
    rcases hn : depth (.obj proto fields) with _ | n
    · exact absurd (one_le_depth (v := .obj proto fields) rfl) (by simp [hn])
    · rcases (depth_obj_le_iff.1 hn.le).1 with rfl | hp
      · exact le_max_left _ _
      · exact le_max_of_le_right hp
  | _ => exact Nat.zero_le _

theorem depth_inherited (h : inherited key this = some w) : depth w ≤ max 1 (depth this - 1) := by
  rw [inherited] at h
  split_ifs at h
  exact eq_of_object? h ▸ depth_prototype

theorem depth_readFrom (h : readFrom key this v = some w) (hthis : depth this ≤ n + 1)
    (hv : depth v ≤ n + 1) : depth w ≤ max 1 n := by
  have hinherited (h : inherited key this = some w) : depth w ≤ max 1 n :=
    (depth_inherited h).trans (max_le_max le_rfl (Nat.sub_le_of_le_add hthis))
  induction v using readFrom.induct key with
  | case1 proto fields x hx =>
    rw [readFrom, hx] at h
    rw [← eq_of_object? h]
    exact le_max_of_le_right
      ((depth_le_of_mem (Fields.mem_of_lookup hx)).trans (depth_obj_le_iff.1 hv).2)
  | case2 proto fields hx ih =>
    rw [readFrom, hx] at h
    refine ih h ?_
    rcases (depth_obj_le_iff.1 hv).1 with rfl | hp
    · exact Nat.succ_le_succ (Nat.zero_le _)
    · exact hp.trans (Nat.le_succ n)
  | case3 items x hx =>
    rw [readFrom, hx] at h
    obtain ⟨i, -, hi⟩ := Option.bind_eq_some_iff.1 hx
    rw [← eq_of_object? h, depth_ofJson]
    exact le_max_of_le_right
      ((jsonDepth_le_of_mem (List.mem_of_getElem? hi)).trans (Nat.le_of_succ_le_succ hv))
  | case4 items hx =>
    rw [readFrom, hx] at h
    exact hinherited h
  | case5 => exact hinherited h
  | case6 v hobj harr hproto =>
    rw [readFrom] at h
    · cases h
    · exact hobj
    · exact harr
    · exact hproto

theorem depth_read? (h : v.read? key = some w) (hv : depth v ≤ n + 1) : depth w ≤ max 1 n :=
  depth_readFrom h hv hv

theorem fieldsDepth_assignKey {fs : List (String × ProtoVal ν)} (hfs : fieldsDepth fs ≤ n)
    (hv : depth v ≤ n) : fieldsDepth (assignKey key v fs) ≤ n := by
  induction fs with
  | nil => simpa [assignKey, fieldsDepth] using hv
  | cons f fs ih =>
    rw [fieldsDepth, max_le_iff] at hfs
    rw [assignKey]
    split_ifs
    · exact max_le hv hfs.2
    · exact max_le hfs.1 (ih hfs.2)

theorem depth_write (hw : depth w ≤ n + 1) (hv : depth v ≤ n) : depth (w.write key v) ≤ n + 1 := by
  cases w with
  | obj proto fields =>
    have hfields := depth_obj_le_iff.1 hw
    rw [write]
    split_ifs
    · exact depth_obj_le_iff.2 ⟨.inr hv, hfields.2⟩
    · exact hw
    · exact depth_obj_le_iff.2 ⟨hfields.1, fieldsDepth_assignKey hfields.2 hv⟩
  | _ => exact hw

end Depth

section Places

/-- The value's own property. -/
def own (v : ProtoVal ν) (key : String) : Option (ProtoVal ν) :=
  match v with
  | .obj _ fields => fields.lookup key
  | _ => none

/-- The value at a place within. -/
def follow : List String → ProtoVal ν → Option (ProtoVal ν)
  | [], v => some v
  | k :: q, v => (v.own k).bind (follow q)

/-- What stands there: a leaf, or that there is an object, and what it inherits from. -/
def node : ProtoVal ν → ProtoVal ν
  | .obj proto _ => .obj proto []
  | v => v

/-- What stands at a place within, if there is anything. -/
def shape (q : List String) (v : ProtoVal ν) : Option (ProtoVal ν) := (follow q v).map node

/-- Deep equality up to the order of keys: the same stands at every place. -/
def Same (v w : ProtoVal ν) : Prop := ∀ q, shape q v = shape q w

variable {v w : ProtoVal ν} {k : String} {q : List String} {fs : List (String × ProtoVal ν)}

@[simp] theorem shape_nil (v : ProtoVal ν) : shape [] v = some (node v) := rfl

@[simp] theorem shape_cons (k : String) (q : List String) (v : ProtoVal ν) :
    shape (k :: q) v = (v.own k).bind (shape q) := by
  rw [shape, follow]
  cases v.own k <;> rfl

theorem own_of_not_isObject (h : v.isObject = false) (k : String) : v.own k = none := by
  cases v with
  | obj proto fields => cases h
  | _ => rfl

theorem shape_eq_leaf_iff (hw : w.isObject = false) : shape q v = some w ↔ follow q v = some w := by
  rw [shape, Option.map_eq_some_iff]
  constructor
  · rintro ⟨u, hu, hnode⟩
    cases u with
    | obj proto fields =>
      rw [← hnode] at hw
      cases hw
    | _ => exact hnode ▸ hu
  · intro h
    refine ⟨w, h, ?_⟩
    cases w with
    | obj proto fields => cases hw
    | _ => rfl

theorem plainFields_iff : plainFields fs = true ↔ ∀ f ∈ fs, plain f.2 = true := by
  induction fs with
  | nil => simp [plainFields]
  | cons f fs ih => rw [plainFields, Bool.and_eq_true, ih, List.forall_mem_cons]

theorem plain_isObject (hv : v.plain = true) (hobj : v.isObject = true) :
    ∃ fs, v = .obj .objectPrototype fs ∧ (fs.map Prod.fst).Nodup ∧ ∀ f ∈ fs, plain f.2 = true := by
  cases v with
  | obj proto fields =>
    cases proto with
    | objectPrototype =>
      rw [plain, Bool.and_eq_true, decide_eq_true_iff] at hv
      exact ⟨fields, rfl, hv.1, plainFields_iff.1 hv.2⟩
    | _ => cases hv
  | objectPrototype => cases hv
  | _ => cases hobj

theorem plain_own (hv : v.plain = true) (h : v.own k = some w) : w.plain = true := by
  by_cases hobj : v.isObject = true
  · obtain ⟨fs, rfl, -, hfs⟩ := plain_isObject hv hobj
    exact hfs (k, w) (Fields.mem_of_lookup h)
  · rw [own_of_not_isObject (eq_false_of_ne_true hobj)] at h
    cases h

end Places

end ProtoVal
