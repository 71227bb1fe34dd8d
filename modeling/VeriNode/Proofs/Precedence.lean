import VeriNode.Proofs.DeepMerge

/-!
# Which object a value comes from

Objects that are merged come to what the first of them has that decides it, at each place, exactly if
no key called `__proto__` is met where two of them or more are merged (`precise_iff`). To repeat one
of them after itself changes nothing.
-/

namespace VeriNode

namespace ConfigLoader

open ProtoVal

variable {ν : Type*}

section Parts

variable {k : String} {q : List String} {v w : ProtoVal ν} {vs : List (ProtoVal ν)}

/-- The value decides what stands at the place: it has something there, or something that is no object
at a place above. -/
def decides : List String → ProtoVal ν → Bool
  | [], _ => true
  | k :: q, v => !v.isObject || (v.own k).any (decides q)

theorem decides_iff : ∀ {q : List String} {v : ProtoVal ν}, decides q v = true
    ↔ (follow q v).isSome ∨ ∃ r, r <+: q ∧ ∃ w, follow r v = some w ∧ w.isObject = false
  | [], v => by simp [decides, follow]
  | k :: q, v => by
    rw [decides, Bool.or_eq_true, Bool.not_eq_true']
    constructor
    · rintro (hv | hany)
      · exact .inr ⟨[], List.nil_prefix, v, rfl, hv⟩
      · obtain ⟨w, hw, hd⟩ := (Option.any_eq_true _ _).1 hany
        rcases decides_iff.1 hd with hsome | ⟨r, hr, u, hu, hleaf⟩
        · exact .inl (by rw [follow, hw]; exact hsome)
        · refine .inr ⟨k :: r, (List.prefix_cons_inj k).2 hr, u, ?_, hleaf⟩
          rw [follow, hw]
          exact hu
    · rintro (hsome | ⟨r, hr, u, hu, hleaf⟩)
      · obtain ⟨u, hu⟩ := Option.isSome_iff_exists.1 hsome
        obtain ⟨w, hw, hq⟩ := Option.bind_eq_some_iff.1 hu
        exact .inr ((Option.any_eq_true _ _).2 ⟨w, hw, decides_iff.2 (.inl (by rw [hq]; rfl))⟩)
      · rcases r with _ | ⟨l, r⟩
        · obtain rfl : v = u := Option.some.inj hu
          exact .inl hleaf
        · obtain ⟨rfl, hpre⟩ := List.cons_prefix_cons.1 hr
          obtain ⟨w, hw, hq⟩ := Option.bind_eq_some_iff.1 hu
          exact .inr ((Option.any_eq_true _ _).2
            ⟨w, hw, decides_iff.2 (.inr ⟨r, hpre, u, hq, hleaf⟩)⟩)

theorem decides_of_not_isObject (h : v.isObject = false) (q : List String) : decides q v = true := by
  cases q with
  | nil => rfl
  | cons k q => rw [decides, h]; rfl

theorem shape_of_not_decides (h : decides q v = false) : shape q v = none := by
  rcases hs : follow q v with _ | w
  · rw [shape, hs]
    rfl
  · have := decides_iff.2 (.inl (by rw [hs]; rfl) : (follow q v).isSome ∨ _)
    rw [h] at this
    cases this

/-- What the first of the values that decides the place has there. -/
def decided (q : List String) (vs : List (ProtoVal ν)) : Option (ProtoVal ν) :=
  (vs.find? (decides q)).bind (shape q)

theorem decided_cons_key (hvs : ∀ v ∈ vs, v.isObject = true) :
    decided (k :: q) vs = decided q (vs.filterMap (·.own k)) := by
  induction vs with
  | nil => rfl
  | cons v vs ih =>
    have hobj := hvs v List.mem_cons_self
    have ih := ih fun u hu => hvs u (List.mem_cons_of_mem _ hu)
    unfold decided at ih ⊢
    rw [owns_cons, List.find?_cons, decides, hobj]
    rcases hk : v.own k with _ | w
    · exact ih
    · rw [Option.toList_some, List.singleton_append, List.find?_cons]
      simp only [Bool.not_true, Bool.false_or, Option.any_some]
      cases hd : decides q w with
      | true => simp [hk]
      | false => exact ih

theorem decided_takeWhile (h : vs.takeWhile (·.isObject) ≠ []) :
    decided q (vs.takeWhile (·.isObject)) = decided q vs := by
  cases q with
  | nil =>
    rcases vs with _ | ⟨v, vs⟩
    · rfl
    · rw [List.takeWhile_cons] at h ⊢
      split_ifs at h ⊢
      · rfl
      · exact absurd rfl h
  | cons k q =>
    clear h
    induction vs with
    | nil => rfl
    | cons v vs ih =>
      unfold decided at ih ⊢
      by_cases hv : v.isObject = true
      · rw [List.takeWhile_cons_of_pos hv, List.find?_cons, List.find?_cons]
        cases decides (k :: q) v with
        | true => rfl
        | false => exact ih
      · have hv' := eq_false_of_ne_true hv
        rw [List.takeWhile_cons_of_neg hv, List.find?_cons, decides_of_not_isObject hv']
        simp [own_of_not_isObject hv']

/-- The objects that are merged at a place. -/
def partsAt : List String → List (ProtoVal ν) → List (ProtoVal ν)
  | [], vs => vs
  | k :: q, vs => partsAt q (objectsAt k vs)

/-- Where two objects or more are merged, none has a key called `__proto__`. -/
def Lossless (vs : List (ProtoVal ν)) : Prop :=
  ∀ q, 2 ≤ (partsAt q vs).length → ∀ v ∈ partsAt q vs, v.own "__proto__" = none

/-- At each place there is what the first of the values has that decides it. -/
def Precise (vs : List (ProtoVal ν)) : Prop := ∀ q, shape q (overlay vs) = decided q vs

def Plain (vs : List (ProtoVal ν)) : Prop := ∀ v ∈ vs, v.plain = true ∧ v.isObject = true

theorem Plain.objectsAt (h : Plain vs) (k : String) : Plain (objectsAt k vs) := by
  intro w hw
  have hmem : w ∈ vs.filterMap (·.own k) := List.takeWhile_subset _ hw
  obtain ⟨v, hv, hown⟩ := List.mem_filterMap.1 hmem
  exact ⟨plain_own (h v hv).1 hown, List.all_eq_true.1 List.all_takeWhile w hw⟩

theorem Plain.simple (h : Plain vs) (hproto : ∀ v ∈ vs, v.own "__proto__" = none) (hv : v ∈ vs) :
    ∃ fs, v = .obj .objectPrototype fs ∧ Simple fs := by
  obtain ⟨fs, rfl, hn, -⟩ := plain_isObject (h v hv).1 (h v hv).2
  exact ⟨fs, rfl, hn, hproto _ hv⟩

theorem node_of_plain (hv : v.plain = true) (hobj : v.isObject = true) : node v = .empty := by
  obtain ⟨fs, rfl, -, -⟩ := plain_isObject hv hobj
  rfl

theorem decided_nil (hne : vs ≠ []) (h : Plain vs) : decided [] vs = some .empty := by
  rcases vs with _ | ⟨v, vs⟩
  · exact absurd rfl hne
  · have hv := h v List.mem_cons_self
    exact congrArg some (node_of_plain hv.1 hv.2)

theorem decided_singleton (q : List String) (v : ProtoVal ν) : decided q [v] = shape q v := by
  unfold decided
  rw [List.find?_singleton]
  cases hd : decides q v with
  | true => rfl
  | false => exact (shape_of_not_decides hd).symm

theorem shape_overlay_key (hlen : 2 ≤ vs.length) (h : Plain vs)
    (hproto : ∀ v ∈ vs, v.own "__proto__" = none) :
    shape (k :: q) (overlay vs) = (overlayAt (vs.filterMap (·.own k))).bind (shape q) := by
  have hne : vs ≠ [] := List.ne_nil_of_length_pos (by omega)
  obtain ⟨rs, hr, -, hlookup⟩ := overlay_simple hne fun v hv => h.simple hproto hv
  rw [shape_cons, hr, own, hlookup]

theorem precise_of_lossless : ∀ (q : List String) {vs : List (ProtoVal ν)}, vs ≠ [] → Plain vs →
    Lossless vs → shape q (overlay vs) = decided q vs
  | q, [v], _, _, _ => (decided_singleton q v).symm
  | [], v :: w :: vs, hne, h, hloss => by
    have hproto := hloss [] (Nat.le_add_left 2 _)
    obtain ⟨rs, hr, -, -⟩ := overlay_simple hne fun u hu => h.simple hproto hu
    rw [decided_nil hne h, hr]
    rfl
  | k :: q, v :: w :: vs, hne, h, hloss => by
    rw [shape_overlay_key (Nat.le_add_left 2 _) h (hloss [] (Nat.le_add_left 2 _)),
      decided_cons_key fun u hu => (h u hu).2]
    rcases hvalues : (v :: w :: vs).filterMap (·.own k) with _ | ⟨u, us⟩
    · rw [hvalues]
      rfl
    · rw [hvalues]
      by_cases hu : u.isObject = true
      · have hparts : objectsAt k (v :: w :: vs) = (u :: us).takeWhile (·.isObject) := by
          rw [objectsAt, hvalues]
        have hsome : (u :: us).takeWhile (·.isObject) ≠ [] := by
          rw [List.takeWhile_cons_of_pos hu]
          exact List.cons_ne_nil _ _
        rw [overlayAt, if_pos hu, Option.bind_some, ← decided_takeWhile hsome]
        exact precise_of_lossless q hsome (hparts ▸ h.objectsAt k)
          (hparts ▸ fun r => hloss (k :: r))
      · have hu' := eq_false_of_ne_true hu
        rw [overlayAt, if_neg hu, Option.bind_some, decided, List.find?_cons,
          decides_of_not_isObject hu']
        rfl

theorem length_objectsAt_le (k : String) (vs : List (ProtoVal ν)) :
    (objectsAt k vs).length ≤ vs.length :=
  (List.takeWhile_sublist _).length_le.trans (List.length_filterMap_le _ _)

theorem length_partsAt_le : ∀ (q : List String) (vs : List (ProtoVal ν)),
    (partsAt q vs).length ≤ vs.length
  | [], _ => le_rfl
  | k :: q, vs => (length_partsAt_le q _).trans (length_objectsAt_le k vs)

theorem noProto_of_precise (hlen : 2 ≤ vs.length) (h : Plain vs) (hp : Precise vs) :
    ∀ v ∈ vs, v.own "__proto__" = none := by
  have hne : vs ≠ [] := List.ne_nil_of_length_pos (by omega)
  obtain ⟨proto, rs, hr, hproto⟩ := regular_overlay hlen
  have hnode := hp []
  rw [decided_nil hne h, hr] at hnode
  have hplain : proto = .objectPrototype := by
    have := Option.some.inj hnode
    rw [node, empty] at this
    injection this
  have hnone := hp ["__proto__"]
  rw [shape_cons, hr, own, hproto hplain, Option.bind_none,
    decided_cons_key fun u hu => (h u hu).2] at hnone
  intro v hv
  rcases hv' : v.own "__proto__" with _ | w
  · rfl
  · rcases hvalues : vs.filterMap (·.own "__proto__") with _ | ⟨u, us⟩
    · have hmem : w ∈ vs.filterMap (·.own "__proto__") := List.mem_filterMap.2 ⟨v, hv, hv'⟩
      rw [hvalues] at hmem
      cases hmem
    · rw [hvalues] at hnone
      cases hnone

theorem lossless_of_precise : ∀ (q : List String) {vs : List (ProtoVal ν)}, Plain vs → Precise vs →
    2 ≤ (partsAt q vs).length → ∀ v ∈ partsAt q vs, v.own "__proto__" = none
  | [], _, h, hp, hlen => noProto_of_precise hlen h hp
  | k :: q, vs, h, hp, hlen => by
    have hat : 2 ≤ (objectsAt k vs).length := hlen.trans (length_partsAt_le q _)
    have htop : 2 ≤ vs.length := hat.trans (length_objectsAt_le k vs)
    refine lossless_of_precise q (h.objectsAt k) (fun r => ?_) hlen
    have hne : (vs.filterMap (·.own k)).takeWhile (·.isObject) ≠ [] :=
      List.ne_nil_of_length_pos (by rw [objectsAt] at hat; omega)
    have hr := hp (k :: r)
    rw [shape_overlay_key htop h (noProto_of_precise htop h hp),
      decided_cons_key fun u hu => (h u hu).2, ← decided_takeWhile hne] at hr
    rw [objectsAt, ← hr]
    rcases hvalues : vs.filterMap (·.own k) with _ | ⟨u, us⟩
    · rw [hvalues] at hne
      exact absurd rfl hne
    · have hu : u.isObject = true := by
        by_contra hu
        rw [hvalues, List.takeWhile_cons_of_neg hu] at hne
        exact hne rfl
      rw [hvalues, overlayAt, if_pos hu, Option.bind_some]

theorem precise_iff (hne : vs ≠ []) (h : Plain vs) : Precise vs ↔ Lossless vs :=
  ⟨fun hp q => lossless_of_precise q h hp, fun hl q => precise_of_lossless q hne h hl⟩

end Parts

section Again

variable {v : ProtoVal ν} {vs vs' : List (ProtoVal ν)}

/-- One of the values is repeated after it, or they are the same. -/
def Repeats (vs vs' : List (ProtoVal ν)) : Prop :=
  vs' = vs ∨ ∃ a b v, v ∈ a ∧ vs = a ++ b ∧ vs' = a ++ v :: b

theorem Repeats.objectsAt (h : Repeats vs vs') (k : String) :
    Repeats (objectsAt k vs) (objectsAt k vs') := by
  rcases h with rfl | ⟨a, b, v, hv, rfl, rfl⟩
  · exact .inl rfl
  · unfold ConfigLoader.objectsAt
    rw [List.filterMap_append, List.filterMap_append, owns_cons]
    rcases hk : v.own k with _ | w
    · exact .inl rfl
    · have hw : w ∈ a.filterMap (·.own k) := List.mem_filterMap.2 ⟨v, hv, hk⟩
      rw [Option.toList_some, List.singleton_append]
      by_cases hall : ∀ u ∈ a.filterMap (·.own k), u.isObject = true
      · rw [List.takeWhile_append_of_pos hall, List.takeWhile_append_of_pos hall,
          List.takeWhile_cons_of_pos (hall w hw)]
        exact .inr ⟨_, _, w, hw, rfl, rfl⟩
      · have hlt : ((a.filterMap (·.own k)).takeWhile (·.isObject)).length
            ≠ (a.filterMap (·.own k)).length := by
          intro hlen
          have he := (List.takeWhile_prefix fun u : ProtoVal ν => u.isObject).eq_of_length hlen
          exact hall fun u hu => List.all_eq_true.1 List.all_takeWhile u (he ▸ hu)
        rw [List.takeWhile_append, List.takeWhile_append, if_neg hlt, if_neg hlt]
        exact .inl rfl

theorem Repeats.partsAt (q : List String) (h : Repeats vs vs') :
    Repeats (partsAt q vs) (partsAt q vs') := by
  induction q generalizing vs vs' with
  | nil => exact h
  | cons k q ih => exact ih (h.objectsAt k)

theorem Repeats.subset (h : Repeats vs vs') (hv : v ∈ vs') : v ∈ vs := by
  rcases h with rfl | ⟨a, b, w, hw, rfl, rfl⟩
  · exact hv
  · rcases List.mem_append.1 hv with hv | hv
    · exact List.mem_append_left _ hv
    · rcases List.mem_cons.1 hv with rfl | hv
      · exact List.mem_append_left _ hw
      · exact List.mem_append_right _ hv

theorem Repeats.decided (h : Repeats vs vs') (q : List String) : decided q vs' = decided q vs := by
  rcases h with rfl | ⟨a, b, v, hv, rfl, rfl⟩
  · rfl
  · unfold ConfigLoader.decided
    rw [List.find?_append, List.find?_append]
    rcases hfind : a.find? (decides q) with _ | u
    · have hno := List.find?_eq_none.1 hfind v hv
      rw [List.find?_cons_of_neg hno]
    · rfl

end Again

end ConfigLoader

end VeriNode
