import VeriNode.Audit.DeepDiff
import VeriNode.Proofs.Drift
import VeriNode.Audit.AlertDispatcher
import VeriNode.Lib.JsonPlaces

/-!
# Differences by their places

`deepDiff` reports each difference under the path of its place, the keys that lead to it
(`deepDiff_eq`).
-/

namespace VeriNode

namespace DeepDiff

open JsVal Drift

variable {ν : Type*}

/-- Two values that differ at a place. -/
structure Difference (ν : Type*) where
  place : List String
  baselineValue : JsVal ν
  liveValue : JsVal ν

namespace Difference

/-- Below a key. -/
def below (k : String) (d : Difference ν) : Difference ν := { d with place := k :: d.place }

/-- The same, found from the other side. -/
def swap (d : Difference ν) : Difference ν := ⟨d.place, d.liveValue, d.baselineValue⟩

def path (d : Difference ν) : String := joinKeys "" d.place

def report (pre : String) (d : Difference ν) : RawDiff ν :=
  ⟨joinKeys pre d.place, d.baselineValue, d.liveValue⟩

end Difference

open Difference

section Lists

variable [JsonNumber ν]

def textDifferences (bVal lVal : JsVal ν) : List (Difference ν) :=
  if stringify bVal ≠ stringify lVal then [⟨[], bVal, lVal⟩] else []

def prototypeDifferences : Json ν → List (Difference ν)
  | .obj fields => fields.flatMap fun f =>
    (match prototypeValue f.1 with
      | some v => textDifferences (ofJson f.2) v
      | none => [⟨[], ofJson f.2, .undefined⟩]).map (below f.1)
  | value => textDifferences (ofJson value) (.obj [])

def inheritedDifferences (key : String) (value : Json ν) : List (Difference ν) :=
  if key = "__proto__" then prototypeDifferences value
  else if key ∈ inherited then textDifferences (ofJson value) (.func key)
  else [⟨[], ofJson value, .undefined⟩]

def liveDifferences (baseline live : List (String × Json ν)) : List (Difference ν) :=
  live.flatMap fun f =>
    if (baseline.lookup f.1).isSome then []
    else (inheritedDifferences f.1 f.2).map fun d => (d.below f.1).swap

mutual

/-- The differences of two values, in the order in which they are reported. -/
def differences : Json ν → Json ν → List (Difference ν)
  | .obj baseline, .obj live => keyDifferences baseline live ++ liveDifferences baseline live
  | .obj baseline, lVal => textDifferences (ofJson (.obj baseline)) (ofJson lVal)
  | .null, lVal => textDifferences (ofJson .null) (ofJson lVal)
  | .bool b, lVal => textDifferences (ofJson (.bool b)) (ofJson lVal)
  | .num n, lVal => textDifferences (ofJson (.num n)) (ofJson lVal)
  | .str s, lVal => textDifferences (ofJson (.str s)) (ofJson lVal)
  | .arr items, lVal => textDifferences (ofJson (.arr items)) (ofJson lVal)

/-- Those of the keys of the baseline. -/
def keyDifferences : List (String × Json ν) → List (String × Json ν) → List (Difference ν)
  | [], _ => []
  | f :: rest, live =>
    (match live.lookup f.1 with
      | some lVal => differences f.2 lVal
      | none => inheritedDifferences f.1 f.2).map (below f.1) ++ keyDifferences rest live

end

variable {pre : String}

theorem textDiff_eq (bVal lVal : JsVal ν) :
    textDiff pre bVal lVal = (textDifferences bVal lVal).map (report pre) := by
  unfold textDiff textDifferences
  split_ifs <;> rfl

theorem prototypeDiff_eq (value : Json ν) :
    prototypeDiff pre value = (prototypeDifferences value).map (report pre) := by
  cases value with
  | obj fields =>
    rw [prototypeDiff, prototypeDifferences, List.map_flatMap]
    refine List.flatMap_congr fun f _ => ?_
    rw [List.map_map]
    cases prototypeValue (ν := ν) f.1 with
    | none => rfl
    | some v => exact textDiff_eq _ _
  | _ => exact textDiff_eq _ _

theorem inheritedDiff_eq (key : String) (value : Json ν) :
    inheritedDiff pre key value = (inheritedDifferences key value).map (report pre) := by
  unfold inheritedDiff inheritedDifferences
  split_ifs
  · exact prototypeDiff_eq value
  · exact textDiff_eq _ _
  · rfl

theorem liveDiff_eq (baseline live : List (String × Json ν)) :
    liveDiff pre baseline live = (liveDifferences baseline live).map (report pre) := by
  unfold liveDiff liveDifferences
  rw [List.map_flatMap]
  refine List.flatMap_congr fun f _ => ?_
  split_ifs
  · rfl
  · rw [inheritedDiff_eq, List.map_map, List.map_map]
    rfl

mutual

theorem valueDiff_eq : ∀ (b l : Json ν) (pre : String),
    valueDiff pre b l = (differences b l).map (report pre)
  | .obj bs, .obj ls, pre => by
    rw [valueDiff, differences, List.map_append, keysDiff_eq bs ls pre, liveDiff_eq]
  | .obj _, .null, _ => textDiff_eq _ _
  | .obj _, .bool _, _ => textDiff_eq _ _
  | .obj _, .num _, _ => textDiff_eq _ _
  | .obj _, .str _, _ => textDiff_eq _ _
  | .obj _, .arr _, _ => textDiff_eq _ _
  | .null, _, _ => textDiff_eq _ _
  | .bool _, _, _ => textDiff_eq _ _
  | .num _, _, _ => textDiff_eq _ _
  | .str _, _, _ => textDiff_eq _ _
  | .arr _, _, _ => textDiff_eq _ _

theorem keysDiff_eq : ∀ (bs ls : List (String × Json ν)) (pre : String),
    keysDiff pre bs ls = (keyDifferences bs ls).map (report pre)
  | [], _, _ => rfl
  | (k, b) :: bs, ls, pre => by
    rw [keysDiff, keyDifferences, List.map_append, List.map_map, keysDiff_eq bs ls pre]
    congr 1
    cases ls.lookup k with
    | none => exact inheritedDiff_eq k b
    | some l => exact valueDiff_eq b l _

end

theorem deepDiff_eq (bs ls : List (String × Json ν)) (pre : String) :
    deepDiff bs ls pre = (differences (.obj bs) (.obj ls)).map (report pre) :=
  valueDiff_eq (.obj bs) (.obj ls) pre

end Lists

end DeepDiff

end VeriNode

/-!
# Redaction

The value of a difference is redacted exactly if one of the keys that lead to it is sensitive
(`isRedacted_path`).
-/

namespace VeriNode

namespace AlertDispatcher

open Config Drift DeepDiff

variable {ν : Type*}

section Words

theorem infix_dotted {w x y : List Char} (hne : w ≠ []) (hdot : '.' ∉ w) :
    w <:+: x ++ '.' :: y ↔ w <:+: x ∨ w <:+: y := by
  have hlast {l : List Char} (hl : l ≠ []) (hsuf : l <:+ x ++ ['.']) : '.' ∈ l := by
    rw [List.suffix_concat_iff] at hsuf
    obtain rfl | ⟨t, rfl, -⟩ := hsuf
    · exact absurd rfl hl
    · exact List.mem_append_right _ List.mem_cons_self
  rw [← List.singleton_append, ← List.append_assoc, List.infix_append_iff_ne_nil,
    List.infix_concat_iff]
  constructor
  · rintro ((hsuf | hx) | hy | ⟨l, r, hl, -, rfl, hsuf, -⟩)
    · exact absurd (hlast hne hsuf) hdot
    · exact .inl hx
    · exact .inr hy
    · exact absurd (List.mem_append_left _ (hlast hl hsuf)) hdot
  · rintro (hx | hy)
    · exact .inl (.inr hx)
    · exact .inr (.inl hy)

theorem isSensitive_dotted (s t : String) :
    isSensitive (s ++ "." ++ t) = (isSensitive s || isSensitive t) := by
  rw [Bool.eq_iff_iff, Bool.or_eq_true]
  simp only [isSensitive, List.any_eq_true, decide_eq_true_eq, String.toList_append,
    List.map_append, List.append_assoc]
  rw [← exists_or]
  refine exists_congr fun word => ?_
  rw [← and_or_left]
  refine and_congr_right fun hword => ?_
  have hshape : word.toList ≠ [] ∧ '.' ∉ word.toList := by
    simp only [List.mem_cons, List.not_mem_nil, or_false] at hword
    rcases hword with rfl | rfl | rfl | rfl <;> decide
  exact infix_dotted hshape.1 hshape.2

theorem isRedacted_eq (s : String) : isRedacted s = isSensitive s := by
  induction hn : s.toList.length using Nat.strong_induction_on generalizing s with
  | _ n ih =>
    by_cases hdot : '.' ∈ s.toList
    · obtain ⟨x, y, hxy⟩ := List.append_of_mem hdot
      obtain rfl : s = String.ofList x ++ "." ++ String.ofList y := by
        rw [← String.toList_inj, hxy]
        simp
      have hlen : n = x.length + (y.length + 1) := by
        rw [← hn, hxy, List.length_append, List.length_cons]
      rw [isRedacted, splitPath_dotted, List.any_append, isSensitive_dotted]
      have hx := ih x.length (by omega) (String.ofList x) (by rw [String.toList_ofList])
      have hy := ih y.length (by omega) (String.ofList y) (by rw [String.toList_ofList])
      exact congrArg₂ _ hx hy
    · rw [isRedacted, splitPath_of_not_mem hdot, List.any_cons, List.any_nil, Bool.or_false]

theorem isSensitive_fullPath (path k : String) :
    isSensitive (fullPath path k) = (isSensitive path || isSensitive k) := by
  unfold fullPath
  split_ifs with h
  · subst h
    rfl
  · exact isSensitive_dotted path k

theorem isSensitive_joinKeys (path : String) (q : List String) :
    isSensitive (joinKeys path q) = (isSensitive path || q.any isSensitive) := by
  induction q generalizing path with
  | nil => rw [joinKeys, List.any_nil, Bool.or_false]
  | cons k q ih => rw [joinKeys, ih, isSensitive_fullPath, List.any_cons, Bool.or_assoc]

theorem isRedacted_path (d : Difference ν) : isRedacted d.path = d.place.any isSensitive := by
  rw [isRedacted_eq, Difference.path, isSensitive_joinKeys]
  rfl

end Words

end AlertDispatcher

end VeriNode

/-!
# What alerts reveal

The current values of an alert are those of the last differences of their paths (`own_currentValues`).
-/

namespace VeriNode

namespace AlertDispatcher

open JsVal Config Drift DeepDiff

variable {ν : Type*}

section Assignments

variable {o : Assigned ν} {k : String} {v : JsVal ν} {D : List (Difference ν)} {d e : Difference ν}

theorem own_of_hasAccessor (h : o.hasAccessor = true) : own "__proto__" o.fields = none := by
  rw [Assigned.hasAccessor, Bool.and_eq_true, Option.isNone_iff_eq_none] at h
  exact h.1

theorem hasAccessor_write (o : Assigned ν) (k : String) (v : JsVal ν) : (o.write k v).hasAccessor
    = (o.hasAccessor && (k ≠ "__proto__" || passesAccessor v)) := by
  by_cases hk : k = "__proto__"
  · subst hk
    cases ha : o.hasAccessor with
    | false =>
      rw [Assigned.write, ha]
      simp [Assigned.hasAccessor, own_assign_self]
    | true =>
      have hown := own_of_hasAccessor ha
      rw [Assigned.write, ha]
      simp only [decide_true, Bool.and_self, if_true, ne_eq, not_true_eq_false, decide_false,
        Bool.false_or, Bool.true_and]
      by_cases hv : canInherit v = true
      · simp [hv, Assigned.hasAccessor, hown]
      · have hpass : passesAccessor v = true := by
          cases v with
          | json j => cases j <;> first | rfl | exact absurd rfl hv
          | obj fields => exact absurd rfl hv
          | _ => rfl
        rw [if_neg hv, ha, hpass]
  · simp [Assigned.write, hk, Assigned.hasAccessor, own_assign_ne (Ne.symm hk)]

theorem own_write (o : Assigned ν) (k' : String) (w : JsVal ν) : own k (o.write k' w).fields
    = if k = k' then if k' = "__proto__" ∧ o.hasAccessor = true then none else some w
      else own k o.fields := by
  unfold Assigned.write
  by_cases hk : k = k'
  · subst hk
    rw [if_pos rfl]
    by_cases ha : k = "__proto__" ∧ o.hasAccessor = true
    · obtain ⟨rfl, ha⟩ := ha
      have hown := own_of_hasAccessor ha
      simp only [ha, decide_true, Bool.and_self, if_true, true_and]
      split_ifs <;> exact hown
    · rw [if_neg ha, if_neg (by simpa using ha), own_assign_self]
  · rw [if_neg hk]
    split_ifs
    · rfl
    · rfl
    · exact own_assign_ne hk _ _

/-- The object that the current values are assigned in. -/
def stored (D : List (Difference ν)) : Assigned ν :=
  D.foldl (fun o d => o.write d.path (redact d.path d.liveValue)) {}

theorem stored_concat (D : List (Difference ν)) (e : Difference ν) :
    stored (D ++ [e]) = (stored D).write e.path (redact e.path e.liveValue) := by
  simp [stored]

/-- It is assigned to `__proto__`, and takes the accessor away. -/
def Breaks (d : Difference ν) : Prop :=
  d.path = "__proto__" ∧ passesAccessor d.liveValue = false

/-- The last of the differences of its path; of those whose path is `__proto__`, if there is no
accessor any more. -/
def LastIn (D : List (Difference ν)) (d : Difference ν) : Prop :=
  ∃ l r, D = l ++ d :: r ∧ (∀ e ∈ r, e.path ≠ d.path)
    ∧ (d.path = "__proto__" → ∃ e ∈ l, Breaks e)

theorem lastIn_concat : LastIn (D ++ [e]) d
    ↔ (d = e ∧ (e.path = "__proto__" → ∃ a ∈ D, Breaks a))
      ∨ (LastIn D d ∧ e.path ≠ d.path) := by
  constructor
  · rintro ⟨l, r, h, hr, hl⟩
    rcases List.eq_nil_or_concat r with rfl | ⟨r, a, rfl⟩
    · obtain ⟨rfl, he⟩ := List.append_inj' h rfl
      obtain rfl := (List.cons.inj he).1
      exact .inl ⟨rfl, hl⟩
    · rw [List.concat_eq_append] at h hr
      rw [← List.cons_append, ← List.append_assoc] at h
      obtain ⟨rfl, he⟩ := List.append_inj' h rfl
      obtain rfl := (List.cons.inj he).1
      exact .inr ⟨⟨l, r, rfl, fun b hb => hr b (List.mem_append_left _ hb), hl⟩,
        hr e List.mem_concat_self⟩
  · rintro (⟨rfl, hl⟩ | ⟨⟨l, r, rfl, hr, hl⟩, he⟩)
    · exact ⟨D, [], rfl, fun _ h => (List.not_mem_nil h).elim, hl⟩
    · refine ⟨l, r ++ [e], by simp, fun b hb => ?_, hl⟩
      rcases List.mem_append.1 hb with hb | hb
      · exact hr b hb
      · rwa [List.mem_singleton.1 hb]

theorem redact_proto (v : JsVal ν) : redact "__proto__" v = v := by
  rw [redact, if_neg (by decide)]

theorem hasAccessor_stored (D : List (Difference ν)) :
    (stored D).hasAccessor = true ↔ ∀ d ∈ D, ¬ Breaks d := by
  induction D using List.reverseRecOn with
  | nil => exact iff_of_true rfl fun d hd => by cases hd
  | append_singleton D e ih =>
    rw [stored_concat, hasAccessor_write, Bool.and_eq_true, ih]
    simp only [List.mem_append, List.mem_singleton, or_imp, forall_and, forall_eq]
    refine and_congr_right fun _ => ?_
    by_cases he : e.path = "__proto__"
    · simp [Breaks, he, redact_proto]
    · simp [Breaks, he]

/-- What the object has under a path comes of the last difference of it. -/
theorem own_stored : own k (stored D).fields = some v
    ↔ ∃ d, LastIn D d ∧ d.path = k ∧ redact k d.liveValue = v := by
  induction D using List.reverseRecOn with
  | nil =>
    constructor
    · intro h
      cases h
    · rintro ⟨d, ⟨l, r, h, -⟩, -⟩
      simp at h
  | append_singleton D e ih =>
    rw [stored_concat, own_write]
    simp only [lastIn_concat]
    split_ifs with hk ha
    · subst hk
      constructor
      · intro h
        cases h
      · rintro ⟨d, ⟨rfl, hl⟩ | ⟨-, hne⟩, hd, -⟩
        · obtain ⟨a, hmem, hbreaks⟩ := hl ha.1
          exact absurd hbreaks ((hasAccessor_stored D).1 ha.2 a hmem)
        · exact absurd hd.symm hne
    · subst hk
      constructor
      · intro h
        refine ⟨e, .inl ⟨rfl, fun he => ?_⟩, rfl, Option.some.inj h⟩
        have hlost := mt (hasAccessor_stored D).2 fun h => ha ⟨he, h⟩
        push Not at hlost
        exact hlost
      · rintro ⟨d, ⟨rfl, -⟩ | ⟨-, hne⟩, hd, rfl⟩
        · rfl
        · exact absurd hd.symm hne
    · rw [ih]
      refine exists_congr fun d => ?_
      constructor
      · rintro ⟨hd, rfl, hv⟩
        exact ⟨.inr ⟨hd, Ne.symm hk⟩, rfl, hv⟩
      · rintro ⟨⟨rfl, -⟩ | ⟨hd, -⟩, rfl, hv⟩
        · exact absurd rfl hk
        · exact ⟨hd, rfl, hv⟩

end Assignments

section Secrets

mutual

/-- A field within has a sensitive name. -/
def holdsSecret : Json ν → Bool
  | .arr items => itemsHoldSecret items
  | .obj fields => fieldsHoldSecret fields
  | _ => false

def itemsHoldSecret : List (Json ν) → Bool
  | [] => false
  | x :: xs => holdsSecret x || itemsHoldSecret xs

def fieldsHoldSecret : List (String × Json ν) → Bool
  | [] => false
  | f :: fs => isSensitive f.1 || holdsSecret f.2 || fieldsHoldSecret fs

end

/-- A field of what is sent of a value has a sensitive name. -/
def reveals (v : JsVal ν) : Bool := (toJson v).any holdsSecret

/-- No value of a sensitive path is in an alert, nor one that a field with a sensitive name has within
another. -/
def Conceals (p : AlertPayload ν) : Prop := ∀ path v, own path p.currentValues = some v →
  if isRedacted path = true then v = redacted else reveals v = false

variable [JsonNumber ν] {b c c' : JsonObject ν} {alertId baselineId : String} {detectedAt : JsDate}

/-- The differences that an alert shows the values of reveal nothing. -/
def Covered (baseline live : JsonObject ν) : Prop :=
  ∀ d, LastIn (differences baseline.json live.json) d → d.place.any isSensitive = false →
    reveals d.liveValue = false

theorem currentValues_alert : (alert alertId baselineId detectedAt b c).currentValues
    = (stored (differences b.json c.json)).fields := by
  have hdiff := deepDiff_eq b.fields c.fields ""
  simp only [alert, buildPayload, driftReport, currentValues, Option.map_some, Option.getD_some,
    hdiff, List.foldl_map]
  rfl

theorem own_currentValues {k : String} {v : JsVal ν} :
    own k (alert alertId baselineId detectedAt b c).currentValues = some v
      ↔ ∃ d, LastIn (differences b.json c.json) d ∧ d.path = k ∧ redact k d.liveValue = v := by
  rw [currentValues_alert, own_stored]

theorem conceals_iff : Conceals (alert alertId baselineId detectedAt b c) ↔ Covered b c := by
  constructor
  · intro h d hd hplain
    have hopen : ¬ isRedacted d.path = true := by
      rw [isRedacted_path, hplain]
      exact Bool.false_ne_true
    have hv := h d.path d.liveValue (own_currentValues.2 ⟨d, hd, rfl, if_neg hopen⟩)
    rwa [if_neg hopen] at hv
  · intro h path v hv
    obtain ⟨d, hd, rfl, rfl⟩ := own_currentValues.1 hv
    split_ifs with hred
    · exact if_pos hred
    · rw [redact, if_neg hred]
      rw [isRedacted_path, Bool.not_eq_true] at hred
      exact h d hd hred

end Secrets

end AlertDispatcher

end VeriNode
