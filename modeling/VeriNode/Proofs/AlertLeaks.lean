import VeriNode.Proofs.AlertSecrets

/-!
# Alerts that tell secrets apart

Where an alert reveals a value, another configuration with another secret in its place differs from
the baseline at the same paths, and has another alert (`exists_variant`). Alerts conceal the secrets
exactly as long as what they show has none within (`alerts_conceal_iff`).
-/

namespace VeriNode

namespace AlertDispatcher

open JsVal Drift DeepDiff
open Json (everyObj everyItem everyField everyItem_iff everyField_iff)

variable {ν : Type*}

section Masks

mutual

/-- The value with this in the place of its secrets. -/
def mask (s : String) : Json ν → Json ν
  | .arr items => .arr (maskItems s items)
  | .obj fields => .obj (maskFields s fields)
  | .null => .null
  | .bool b => .bool b
  | .num n => .num n
  | .str t => .str t

def maskItems (s : String) : List (Json ν) → List (Json ν)
  | [] => []
  | x :: xs => mask s x :: maskItems s xs

def maskFields (s : String) : List (String × Json ν) → List (String × Json ν)
  | [] => []
  | f :: fs => (f.1, if isSensitive f.1 then .str s else mask s f.2) :: maskFields s fs

end

variable {s t : String} {p : List String → Bool}

mutual

theorem alike_mask (s : String) : ∀ v : Json ν, Alike v (mask s v)
  | .obj fs => ⟨_, rfl, alikeFields_mask s fs⟩
  | .arr xs => ⟨_, rfl, alikeItems_mask s xs⟩
  | .null => rfl
  | .bool _ => rfl
  | .num _ => rfl
  | .str _ => rfl

theorem alikeItems_mask (s : String) : ∀ xs : List (Json ν), AlikeItems xs (maskItems s xs)
  | [] => rfl
  | x :: xs => ⟨_, _, rfl, alike_mask s x, alikeItems_mask s xs⟩

theorem alikeFields_mask (s : String) : ∀ fs : List (String × Json ν),
    AlikeFields fs (maskFields s fs)
  | [] => rfl
  | f :: fs => by
    refine ⟨_, _, rfl, ?_, alikeFields_mask s fs⟩
    cases hf : isSensitive f.1 with
    | true => exact .inl rfl
    | false => exact .inr (alike_mask s f.2)

end

mutual

theorem everyObj_mask : ∀ {v : Json ν}, everyObj p v = true → everyObj p (mask s v) = true
  | .obj fs, h => by
    rw [everyObj, Bool.and_eq_true] at h
    rw [mask, everyObj, (alikeFields_mask s fs).keys, h.1, everyField_mask h.2]
    rfl
  | .arr _, h => everyItem_mask h
  | .null, h => h
  | .bool _, h => h
  | .num _, h => h
  | .str _, h => h

theorem everyItem_mask : ∀ {xs : List (Json ν)}, everyItem p xs = true →
    everyItem p (maskItems s xs) = true
  | [], h => h
  | x :: xs, h => by
    rw [everyItem, Bool.and_eq_true] at h
    rw [maskItems, everyItem, everyObj_mask h.1, everyItem_mask h.2]
    rfl

theorem everyField_mask : ∀ {fs : List (String × Json ν)}, everyField p fs = true →
    everyField p (maskFields s fs) = true
  | [], h => h
  | f :: fs, h => by
    rw [everyField, Bool.and_eq_true] at h
    rw [maskFields, everyField, everyField_mask h.2, Bool.and_true]
    split_ifs
    · rfl
    · exact everyObj_mask h.1

end

mutual

theorem mask_injective : ∀ {v : Json ν}, holdsSecret v = true → mask s v = mask t v → s = t
  | .obj _, hv, h => maskFields_injective hv (Json.obj.inj h)
  | .arr _, hv, h => maskItems_injective hv (Json.arr.inj h)

theorem maskItems_injective : ∀ {xs : List (Json ν)}, itemsHoldSecret xs = true →
    maskItems s xs = maskItems t xs → s = t
  | x :: xs, hx, h => by
    rw [itemsHoldSecret, Bool.or_eq_true] at hx
    obtain ⟨hhead, htail⟩ := List.cons.inj h
    rcases hx with hx | hx
    · exact mask_injective hx hhead
    · exact maskItems_injective hx htail

theorem maskFields_injective : ∀ {fs : List (String × Json ν)}, fieldsHoldSecret fs = true →
    maskFields s fs = maskFields t fs → s = t
  | f :: fs, hf, h => by
    rw [fieldsHoldSecret, Bool.or_eq_true, Bool.or_eq_true] at hf
    obtain ⟨hhead, htail⟩ := List.cons.inj h
    have hvalue := (Prod.mk.inj hhead).2
    by_cases hk : isSensitive f.1 = true
    · rw [if_pos hk, if_pos hk] at hvalue
      exact Json.str.inj hvalue
    · rw [if_neg hk, if_neg hk] at hvalue
      rcases hf with (hf | hf) | hf
      · exact absurd hf hk
      · exact mask_injective hf hvalue
      · exact maskFields_injective hf htail

end

variable [JsonNumber ν]

theorem exists_mask {x : Json ν} (hx : holdsSecret x = true) (text : Option String) :
    ∃ s, mask s x ≠ x ∧ stringify (ofJson (mask s x)) ≠ text := by
  by_contra hno
  push Not at hno
  have htext {s t : String} (hs : stringify (ofJson (mask s x)) = text)
      (ht : stringify (ofJson (mask t x)) = text) : s = t := by
    rw [← ht, stringify_ofJson, stringify_ofJson, Option.some.injEq] at hs
    exact mask_injective hx (Json.stringify_injective hs)
  have hsame {s t : String} (hs : mask s x = x) (ht : mask t x = x) : s = t :=
    mask_injective hx (hs.trans ht.symm)
  have hcases (s : String) : mask s x = x ∨ stringify (ofJson (mask s x)) = text :=
    or_iff_not_imp_left.2 (hno s)
  rcases hcases "a" with ha | ha <;> rcases hcases "b" with hb | hb <;>
    rcases hcases "c" with hc | hc
  · exact absurd (hsame ha hb) (by decide)
  · exact absurd (hsame ha hb) (by decide)
  · exact absurd (hsame ha hc) (by decide)
  · exact absurd (htext hb hc) (by decide)
  · exact absurd (hsame hb hc) (by decide)
  · exact absurd (htext ha hc) (by decide)
  · exact absurd (htext ha hb) (by decide)
  · exact absurd (htext ha hb) (by decide)

end Masks

section Leaks

variable {α β : Type*} {g : α → List β}

theorem exists_of_flatMap : ∀ {xs : List α} {l r : List β} {d : β}, xs.flatMap g = l ++ d :: r →
    ∃ xs₁ x xs₂ l₁ r₁, xs = xs₁ ++ x :: xs₂ ∧ g x = l₁ ++ d :: r₁ ∧ l = xs₁.flatMap g ++ l₁
      ∧ r = r₁ ++ xs₂.flatMap g
  | [], l, r, d, h => by simp at h
  | x :: xs, l, r, d, h => by
    rw [List.flatMap_cons] at h
    rcases List.append_eq_append_iff.1 h with ⟨m, rfl, hm⟩ | ⟨m, hm, hr⟩
    · obtain ⟨xs₁, y, xs₂, l₁, r₁, rfl, hy, rfl, rfl⟩ := exists_of_flatMap hm
      exact ⟨x :: xs₁, y, xs₂, l₁, r₁, rfl, hy, by rw [List.flatMap_cons, List.append_assoc], rfl⟩
    · cases m with
      | nil =>
        obtain ⟨xs₁, y, xs₂, l₁, r₁, rfl, hy, hl, rfl⟩ :=
          exists_of_flatMap (l := []) (show xs.flatMap g = [] ++ d :: r from hr.symm)
        refine ⟨x :: xs₁, y, xs₂, l₁, r₁, rfl, hy, ?_, rfl⟩
        rw [List.flatMap_cons, List.append_assoc, ← hl, hm, List.append_nil, List.append_nil]
      | cons e m =>
        obtain ⟨rfl, rfl⟩ := List.cons.inj hr
        exact ⟨[], x, xs, l, m, rfl, hm, rfl, rfl⟩

variable {F G : Json ν → List (Difference ν)} {x : Json ν} {k : String}
  {d : Difference ν} {l r : List (Difference ν)}

/-- With another secret within, a difference that reveals one has another value, and no other
difference changes. -/
def Leaks (F : Json ν → List (Difference ν)) (x : Json ν) : Prop :=
  ∀ l d r, F x = l ++ d :: r → d.place.any isSensitive = false → reveals d.liveValue = true →
    ∃ y d', Alike x y ∧ y.wellFormed = true ∧ F y = l ++ d' :: r ∧ d'.place = d.place
      ∧ d'.liveValue ≠ d.liveValue

theorem Leaks.congr (h : ∀ y, Alike x y → F y = G y) (hG : Leaks G x) : Leaks F x := by
  intro l d r hF hplain hrev
  rw [h x (.refl x)] at hF
  obtain ⟨y, d', hxy, hy, hGy, hd'⟩ := hG l d r hF hplain hrev
  exact ⟨y, d', hxy, hy, (h y hxy).trans hGy, hd'⟩

theorem Leaks.below (k : String) (h : Leaks F x) : Leaks (fun x => (F x).map (Difference.below k)) x := by
  intro l d r hF hplain hrev
  obtain ⟨l₀, m, hFx, rfl, hm⟩ := List.map_eq_append_iff.1 hF
  obtain ⟨d₀, r₀, rfl, rfl, rfl⟩ := List.map_eq_cons_iff.1 hm
  have hplain₀ : d₀.place.any isSensitive = false := by
    rw [Difference.below, List.any_cons, Bool.or_eq_false_iff] at hplain
    exact hplain.2
  obtain ⟨y, d', hxy, hy, hFy, hplace, hvalue⟩ := h l₀ d₀ r₀ hFx hplain₀ hrev
  refine ⟨y, d'.below k, hxy, hy, ?_, congrArg (k :: ·) hplace, hvalue⟩
  simp only [hFy, List.map_append, List.map_cons]

theorem eq_of_single {α : Type*} {a d : α} {l r : List α} (h : [a] = l ++ d :: r) :
    l = [] ∧ d = a ∧ r = [] := by
  cases l with
  | nil =>
    obtain ⟨rfl, rfl⟩ := List.cons.inj h
    exact ⟨rfl, rfl, rfl⟩
  | cons b l => simp at h

theorem leaks_fields {g : String × Json ν → List (Difference ν)} {fs : List (String × Json ν)}
    (hfs : ∀ f ∈ fs, Leaks (fun x => g (f.1, x)) f.2) (h : fs.flatMap g = l ++ d :: r)
    (hplain : d.place.any isSensitive = false) (hrev : reveals d.liveValue = true) :
    ∃ fs₁ k x fs₂ y d', fs = fs₁ ++ (k, x) :: fs₂ ∧ g (k, x) ≠ [] ∧ Alike x y ∧ y.wellFormed = true
      ∧ (fs₁ ++ (k, y) :: fs₂).flatMap g = l ++ d' :: r ∧ d'.place = d.place
      ∧ d'.liveValue ≠ d.liveValue := by
  obtain ⟨fs₁, ⟨k, x⟩, fs₂, l₁, r₁, rfl, hg, rfl, rfl⟩ := exists_of_flatMap h
  obtain ⟨y, d', hxy, hy, hgy, hd'⟩ :=
    hfs (k, x) (List.mem_append_right _ List.mem_cons_self) l₁ d r₁ hg hplain hrev
  refine ⟨fs₁, k, x, fs₂, y, d', rfl, by simp [hg], hxy, hy, ?_, hd'⟩
  simp only at hgy
  rw [List.flatMap_append, List.flatMap_cons, hgy]
  simp

theorem wellFormed_replaced {fs₁ fs₂ : List (String × Json ν)} {y : Json ν}
    (h : (Json.obj (fs₁ ++ (k, x) :: fs₂)).wellFormed = true) (hy : y.wellFormed = true) :
    (Json.obj (fs₁ ++ (k, y) :: fs₂)).wellFormed = true := by
  rw [Json.wellFormed, everyObj, Bool.and_eq_true, everyField_iff] at h ⊢
  refine ⟨by simpa using h.1, fun f hf => ?_⟩
  rcases List.mem_append.1 hf with hf | hf
  · exact h.2 f (List.mem_append_left _ hf)
  · rcases List.mem_cons.1 hf with rfl | hf
    · exact hy
    · exact h.2 f (List.mem_append_right _ (List.mem_cons_of_mem _ hf))

theorem lookup_replaced {k' : String} (hk : k' ≠ k) (fs₁ : List (String × Json ν)) (x y : Json ν)
    (fs₂ : List (String × Json ν)) :
    (fs₁ ++ (k, y) :: fs₂).lookup k' = (fs₁ ++ (k, x) :: fs₂).lookup k' := by
  induction fs₁ with
  | nil => rw [List.nil_append, List.nil_append, Fields.lookup_cons, Fields.lookup_cons, if_neg hk,
      if_neg hk]
  | cons f fs₁ ih => rw [List.cons_append, List.cons_append, Fields.lookup_cons, Fields.lookup_cons, ih]

variable [JsonNumber ν]

theorem leaks_single (hx : x.wellFormed = true) (a : JsVal ν) :
    Leaks (fun x => [⟨[], a, ofJson x⟩]) x := by
  intro l d r h _ hrev
  obtain ⟨rfl, rfl, rfl⟩ := eq_of_single h
  have hsecret : holdsSecret x = true := by
    rw [reveals, toJson_ofJson] at hrev
    exact hrev
  obtain ⟨s, hs, -⟩ := exists_mask hsecret none
  refine ⟨mask s x, _, alike_mask s x, everyObj_mask hx, rfl, rfl, fun he => hs ?_⟩
  have hjson := congrArg toJson he
  rw [toJson_ofJson, toJson_ofJson] at hjson
  exact Option.some.inj hjson

theorem leaks_text (hx : x.wellFormed = true) (a : JsVal ν) :
    Leaks (fun x => textDifferences a (ofJson x)) x := by
  intro l d r h _ hrev
  simp only [textDifferences] at h
  split_ifs at h with hne
  · obtain ⟨rfl, rfl, rfl⟩ := eq_of_single h
    have hsecret : holdsSecret x = true := by
      rw [reveals, toJson_ofJson] at hrev
      exact hrev
    obtain ⟨s, hs, htext⟩ := exists_mask hsecret (stringify a)
    refine ⟨mask s x, _, alike_mask s x, everyObj_mask hx, if_pos (Ne.symm htext), rfl,
      fun he => hs ?_⟩
    have hjson := congrArg toJson he
    rw [toJson_ofJson, toJson_ofJson] at hjson
    exact Option.some.inj hjson
  · simp at h

/-- What a field differs in from the one of `Object.prototype`. -/
def prototypeField (key : String) (value : Json ν) : List (Difference ν) :=
  match prototypeValue key with
  | some v => textDifferences (ofJson value) v
  | none => [⟨[], ofJson value, .undefined⟩]

theorem prototypeDifferences_obj (fs : List (String × Json ν)) : prototypeDifferences (.obj fs)
    = fs.flatMap fun f => (prototypeField f.1 f.2).map (Difference.below f.1) := rfl

theorem leaks_prototypeDifferences (hx : x.wellFormed = true) :
    Leaks (fun x => (prototypeDifferences x).map Difference.swap) x := by
  cases x with
  | obj fs =>
    intro l d r h hplain hrev
    simp only [prototypeDifferences_obj, List.map_flatMap, List.map_map] at h
    have hf {f : String × Json ν} (hf : f ∈ fs) : f.2.wellFormed = true := by
      rw [Json.wellFormed, everyObj, Bool.and_eq_true, everyField_iff] at hx
      exact hx.2 f hf
    have hleaks : ∀ f ∈ fs, Leaks (fun v =>
        (prototypeField f.1 v).map (Difference.swap ∘ Difference.below f.1)) f.2 := by
      intro f hfs
      unfold prototypeField
      cases hv : prototypeValue (ν := ν) f.1 with
      | none => exact (leaks_single (hf hfs) .undefined).below f.1
      | some a =>
        refine .congr (fun y _ => ?_) ((leaks_text (hf hfs) a).below f.1)
        simp only
        rw [← map_swap_textDifferences, List.map_map]
        rfl
    obtain ⟨fs₁, k, v, fs₂, w, d', rfl, -, hvw, hw, hflat, hd'⟩ := leaks_fields hleaks h hplain hrev
    refine ⟨.obj (fs₁ ++ (k, w) :: fs₂), d', ⟨_, rfl, alikeFields_append fs₁ hvw fs₂⟩,
      wellFormed_replaced hx hw, ?_, hd'⟩
    simp only [prototypeDifferences_obj, List.map_flatMap, List.map_map]
    exact hflat
  | arr xs =>
    refine .congr (fun y hy => ?_) (leaks_text hx (.obj []))
    obtain ⟨ys, rfl, -⟩ := hy
    exact map_swap_textDifferences _ _
  | _ =>
    refine .congr (fun y hy => ?_) (leaks_text hx (.obj []))
    obtain rfl := hy
    exact map_swap_textDifferences _ _

theorem leaks_inheritedDifferences (k : String) (hx : x.wellFormed = true) :
    Leaks (fun x => (inheritedDifferences k x).map Difference.swap) x := by
  unfold inheritedDifferences
  split_ifs
  · exact leaks_prototypeDifferences hx
  · exact .congr (fun y _ => map_swap_textDifferences _ _) (leaks_text hx (.func k))
  · exact leaks_single hx .undefined

/-- What `Object.prototype` has reveals nothing. -/
theorem reveals_inheritedDifferences {v : Json ν} (hd : d ∈ inheritedDifferences k v) :
    reveals d.liveValue = false := by
  have htext {e : Difference ν} {a b : JsVal ν} (he : e ∈ textDifferences a b) :
      e.liveValue = b := by
    unfold textDifferences at he
    split_ifs at he
    · rw [List.mem_singleton.1 he]
    · cases he
  unfold inheritedDifferences at hd
  split_ifs at hd
  · cases v with
    | obj fs =>
      obtain ⟨f, -, hd⟩ := List.mem_flatMap.1 hd
      obtain ⟨e, he, rfl⟩ := List.mem_map.1 hd
      cases hv : prototypeValue (ν := ν) f.1 with
      | none =>
        simp only [hv, List.mem_singleton] at he
        rw [he]
        rfl
      | some a =>
        simp only [hv] at he
        have ha : reveals a = false := by
          unfold prototypeValue at hv
          split_ifs at hv
          · rw [← Option.some.inj hv]
            rfl
          · rw [← Option.some.inj hv]
            rfl
        exact (congrArg reveals (htext he)).trans ha
    | _ =>
      rw [htext hd]
      rfl
  · rw [htext hd]
    rfl
  · rw [List.mem_singleton.1 hd]
    rfl

theorem keyDifferences_congr : ∀ {bs fs gs : List (String × Json ν)},
    (∀ k ∈ bs.map Prod.fst, fs.lookup k = gs.lookup k) → keyDifferences bs fs = keyDifferences bs gs
  | [], _, _, _ => rfl
  | f :: bs, fs, gs, h => by
    rw [List.map_cons, List.forall_mem_cons] at h
    rw [keyDifferences, keyDifferences, h.1, keyDifferences_congr h.2]

theorem leaks_liveDifferences {bs fs : List (String × Json ν)}
    (hwf : (Json.obj fs).wellFormed = true) (h : liveDifferences bs fs = l ++ d :: r)
    (hplain : d.place.any isSensitive = false) (hrev : reveals d.liveValue = true) :
    ∃ fs₁ k x fs₂ y d', fs = fs₁ ++ (k, x) :: fs₂ ∧ bs.lookup k = none ∧ Alike x y
      ∧ y.wellFormed = true ∧ liveDifferences bs (fs₁ ++ (k, y) :: fs₂) = l ++ d' :: r
      ∧ d'.place = d.place ∧ d'.liveValue ≠ d.liveValue := by
  rw [Json.wellFormed, everyObj, Bool.and_eq_true, everyField_iff] at hwf
  have hleaks : ∀ f ∈ fs, Leaks (fun v => if (bs.lookup f.1).isSome then []
      else (inheritedDifferences f.1 v).map fun d => (d.below f.1).swap) f.2 := by
    intro f hf
    by_cases hk : (bs.lookup f.1).isSome = true
    · intro l d r hl
      simp [hk] at hl
    · refine .congr (fun y _ => ?_) ((leaks_inheritedDifferences f.1 (hwf.2 f hf)).below f.1)
      rw [if_neg hk, List.map_map]
      rfl
  obtain ⟨fs₁, k, x, fs₂, y, d', rfl, hg, hxy, hy, hflat, hd'⟩ := leaks_fields hleaks h hplain hrev
  refine ⟨fs₁, k, x, fs₂, y, d', rfl, ?_, hxy, hy, hflat, hd'⟩
  by_contra hk
  exact hg (if_pos (Option.isSome_iff_ne_none.2 hk))

mutual

theorem leaks_differences : ∀ (b : Json ν), b.wellFormed = true → ∀ {x : Json ν},
    x.wellFormed = true → Leaks (differences b) x
  | .obj bs, hb, .obj fs, hx => by
    intro l d r h hplain hrev
    rw [differences] at h
    have hlive {m : List (Difference ν)} (hm : liveDifferences bs fs = m ++ d :: r)
        (hl : l = keyDifferences bs fs ++ m) : ∃ y d', Alike (.obj fs) y ∧ y.wellFormed = true
          ∧ differences (.obj bs) y = l ++ d' :: r ∧ d'.place = d.place
          ∧ d'.liveValue ≠ d.liveValue := by
      obtain ⟨fs₁, k, x, fs₂, y, d', rfl, hk, hxy, hy, hflat, hd'⟩ :=
        leaks_liveDifferences hx hm hplain hrev
      refine ⟨.obj (fs₁ ++ (k, y) :: fs₂), d', ⟨_, rfl, alikeFields_append fs₁ hxy fs₂⟩,
        wellFormed_replaced hx hy, ?_, hd'⟩
      have hkeys : keyDifferences bs (fs₁ ++ (k, y) :: fs₂)
          = keyDifferences bs (fs₁ ++ (k, x) :: fs₂) :=
        keyDifferences_congr fun k' hk' => lookup_replaced
          (fun he => Fields.lookup_eq_none_iff_not_mem.1 hk (by rwa [he] at hk')) fs₁ x y fs₂
      rw [differences, hflat, hkeys, hl, List.append_assoc]
    rcases List.append_eq_append_iff.1 h with ⟨m, hl, hm⟩ | ⟨m, hm, hr⟩
    · exact hlive hm hl
    · cases m with
      | nil => exact hlive (m := []) hr.symm (by rw [hm, List.append_nil, List.append_nil])
      | cons e m =>
        obtain ⟨rfl, rfl⟩ := List.cons.inj hr
        obtain ⟨fs₁, k, x, fs₂, y, d', rfl, hk, hxy, hy, hflat, hd'⟩ :=
          leaks_keyDifferences bs hb hx hm hplain hrev
        refine ⟨.obj (fs₁ ++ (k, y) :: fs₂), d', ⟨_, rfl, alikeFields_append fs₁ hxy fs₂⟩,
          wellFormed_replaced hx hy, ?_, hd'⟩
        have hskip : liveDifferences bs (fs₁ ++ (k, y) :: fs₂)
            = liveDifferences bs (fs₁ ++ (k, x) :: fs₂) := by
          have hsome := Fields.lookup_isSome_iff_mem.2 hk
          simp only [liveDifferences, List.flatMap_append, List.flatMap_cons, hsome, if_true]
        rw [differences, hflat, hskip, List.append_assoc, List.cons_append]
        rfl
  | .obj bs, _, .arr xs, hx => by
    refine .congr (fun y hy => ?_) (leaks_text hx (ofJson (.obj bs)))
    obtain ⟨ys, rfl, -⟩ := hy
    rfl
  | .obj bs, _, .null, hx => by
    refine .congr (fun y hy => ?_) (leaks_text hx (ofJson (.obj bs)))
    obtain rfl := hy
    rfl
  | .obj bs, _, .bool _, hx => by
    refine .congr (fun y hy => ?_) (leaks_text hx (ofJson (.obj bs)))
    obtain rfl := hy
    rfl
  | .obj bs, _, .num _, hx => by
    refine .congr (fun y hy => ?_) (leaks_text hx (ofJson (.obj bs)))
    obtain rfl := hy
    rfl
  | .obj bs, _, .str _, hx => by
    refine .congr (fun y hy => ?_) (leaks_text hx (ofJson (.obj bs)))
    obtain rfl := hy
    rfl
  | .null, _, _, hx => leaks_text hx _
  | .bool _, _, _, hx => leaks_text hx _
  | .num _, _, _, hx => leaks_text hx _
  | .str _, _, _, hx => leaks_text hx _
  | .arr _, _, _, hx => leaks_text hx _

theorem leaks_keyDifferences : ∀ (bs : List (String × Json ν)), (Json.obj bs).wellFormed = true →
    ∀ {fs : List (String × Json ν)} {l r : List (Difference ν)} {d : Difference ν},
    (Json.obj fs).wellFormed = true → keyDifferences bs fs = l ++ d :: r →
    d.place.any isSensitive = false → reveals d.liveValue = true →
    ∃ fs₁ k x fs₂ y d', fs = fs₁ ++ (k, x) :: fs₂ ∧ k ∈ bs.map Prod.fst ∧ Alike x y
      ∧ y.wellFormed = true ∧ keyDifferences bs (fs₁ ++ (k, y) :: fs₂) = l ++ d' :: r
      ∧ d'.place = d.place ∧ d'.liveValue ≠ d.liveValue
  | [], _, _, _, _, _, _, h, _, _ => by simp [keyDifferences] at h
  | (k, b) :: bs, hb, fs, l, r, d, hx, h, hplain, hrev => by
    have hwf := hb
    rw [Json.wellFormed, everyObj, Bool.and_eq_true, everyField_iff, List.forall_mem_cons] at hwf
    have hbs : (Json.obj bs).wellFormed = true := by
      rw [Json.wellFormed, everyObj, Bool.and_eq_true, everyField_iff, decide_eq_true_iff]
      refine ⟨?_, hwf.2.2⟩
      have hkeys := hwf.1
      rw [decide_eq_true_iff, List.map_cons, List.pairwise_cons] at hkeys
      exact hkeys.2
    have hnot : k ∉ bs.map Prod.fst := (List.nodup_cons.1 (Json.wellFormed_keys hb)).1
    rw [keyDifferences] at h
    have htail {m : List (Difference ν)} (hm : keyDifferences bs fs = m ++ d :: r)
        (hl : l = (match fs.lookup k with
          | some lVal => differences b lVal
          | none => inheritedDifferences k b).map (Difference.below k) ++ m) :
        ∃ fs₁ k' x fs₂ y d', fs = fs₁ ++ (k', x) :: fs₂ ∧ k' ∈ ((k, b) :: bs).map Prod.fst
          ∧ Alike x y ∧ y.wellFormed = true
          ∧ keyDifferences ((k, b) :: bs) (fs₁ ++ (k', y) :: fs₂) = l ++ d' :: r
          ∧ d'.place = d.place ∧ d'.liveValue ≠ d.liveValue := by
      obtain ⟨fs₁, k', x, fs₂, y, d', rfl, hk, hxy, hy, hflat, hd'⟩ :=
        leaks_keyDifferences bs hbs hx hm hplain hrev
      refine ⟨fs₁, k', x, fs₂, y, d', rfl, List.mem_cons_of_mem _ hk, hxy, hy, ?_, hd'⟩
      have hne : k ≠ k' := by
        rintro rfl
        exact hnot hk
      have hlookup := lookup_replaced hne fs₁ x y fs₂
      rw [hl, List.append_assoc, ← hflat, ← hlookup]
      rfl
    rcases List.append_eq_append_iff.1 h with ⟨m, hl, hm⟩ | ⟨m, hm, hr⟩
    · exact htail hm hl
    · cases m with
      | nil => exact htail (m := []) hr.symm (by
        rw [List.append_nil]
        exact (hm.trans (List.append_nil l)).symm)
      | cons e m =>
        obtain ⟨rfl, rfl⟩ := List.cons.inj hr
        rcases hlook : fs.lookup k with _ | x
        · rw [hlook] at hm
          obtain ⟨e, he, rfl⟩ := List.mem_map.1
            (hm ▸ List.mem_append_right l (List.mem_cons_self (a := d) (l := m)))
          have hfalse : reveals e.liveValue = false := reveals_inheritedDifferences he
          exact absurd (hfalse.symm.trans hrev) Bool.false_ne_true
        · rw [hlook] at hm
          have hxwf := Json.wellFormed_of_lookup hx hlook
          obtain ⟨y, d', hxy, hy, hFy, hd'⟩ :=
            (leaks_differences b hwf.2.1 hxwf).below k l d m hm hplain hrev
          obtain ⟨fs₁, fs₂, rfl, hfs₁⟩ := List.lookup_eq_some_iff.1 hlook
          refine ⟨fs₁, k, x, fs₂, y, d', rfl, List.mem_cons_self, hxy, hy, ?_, hd'⟩
          have hlook' : (fs₁ ++ (k, y) :: fs₂).lookup k = some y :=
            List.lookup_eq_some_iff.2 ⟨fs₁, fs₂, rfl, hfs₁⟩
          have hrest : keyDifferences bs (fs₁ ++ (k, y) :: fs₂)
              = keyDifferences bs (fs₁ ++ (k, x) :: fs₂) :=
            keyDifferences_congr fun k' hk' =>
              lookup_replaced (fun he => hnot (by rwa [he] at hk')) fs₁ x y fs₂
          simp only at hFy
          rw [keyDifferences, hlook', hrest]
          simp only [hFy, List.append_assoc, List.cons_append]
          rfl

end

theorem exists_variant {b c : JsonObject ν} (hd : LastIn (differences b.json c.json) d)
    (hplain : d.place.any isSensitive = false) (hrev : reveals d.liveValue = true)
    (alertId baselineId : String) (detectedAt : JsDate) : ∃ c', Variant b c c'
      ∧ ¬ (alert alertId baselineId detectedAt b c).Same (alert alertId baselineId detectedAt b c') := by
  have hshown := hd
  obtain ⟨l, r, hsplit, hr, hl⟩ := hd
  obtain ⟨y, d', ⟨gs, rfl, hgs⟩, hy, hsplit', hplace, hvalue⟩ :=
    leaks_differences b.json b.wellFormed c.wellFormed l d r hsplit hplain hrev
  have hpath : d'.path = d.path := congrArg (joinKeys "") hplace
  have hshown' : LastIn (differences b.json (JsonObject.mk gs hy).json) d' :=
    ⟨l, r, hsplit', hpath ▸ hr, hpath ▸ hl⟩
  refine ⟨⟨gs, hy⟩, ⟨⟨gs, rfl, hgs⟩, ?_⟩, fun hsame => hvalue ?_⟩
  · rw [paths_differences, paths_differences, hsplit]
    refine Eq.trans ?_ (congrArg _ hsplit').symm
    rw [List.map_append, List.map_append, List.map_cons, List.map_cons, hpath]
  · have hopen : isRedacted d.path = false := by rw [isRedacted_path, hplain]
    have hshow (e : Difference ν) : redact d.path e.liveValue = e.liveValue := by
      rw [redact, hopen]
      rfl
    have hown : own d.path (alert alertId baselineId detectedAt b c).currentValues
        = some d.liveValue := own_currentValues.2 ⟨d, hshown, rfl, hshow d⟩
    have hown' : own d.path (alert alertId baselineId detectedAt b ⟨gs, hy⟩).currentValues
        = some d'.liveValue := own_currentValues.2 ⟨d', hshown', hpath, hshow d'⟩
    rw [hsame.currentValues, hown'] at hown
    exact Option.some.inj hown

/-- Alerts tell the secrets of a configuration and its variants apart exactly if one of them reveals
some; and an alert reveals none exactly if the last difference of each path has none within. -/
theorem alerts_conceal_iff (alertId baselineId : String) (detectedAt : JsDate)
    (b c : JsonObject ν) :
    ((∀ c₁ c₂, Variant b c c₁ → Variant b c c₂ →
        (alert alertId baselineId detectedAt b c₁).Same (alert alertId baselineId detectedAt b c₂))
      ↔ ∀ c₁, Variant b c c₁ → Covered b c₁)
    ∧ (Conceals (alert alertId baselineId detectedAt b c) ↔ Covered b c) := by
  refine ⟨⟨fun hsame c₁ h₁ d hd hplain => ?_, fun hcovered c₁ c₂ h₁ h₂ => ?_⟩, conceals_iff⟩
  · by_contra hrev
    rw [Bool.not_eq_false] at hrev
    obtain ⟨c₂, h₂, hother⟩ := exists_variant hd hplain hrev alertId baselineId detectedAt
    exact hother (hsame c₁ c₂ h₁ (h₁.trans h₂))
  · exact same_of_covered (h₁.symm.trans h₂) (hcovered c₁ h₁) (hcovered c₂ h₂)

/-- A section that the baseline has not got. -/
def pooled (password : String) : JsonObject ℕ :=
  ⟨[("db", .obj [("pool", .obj [("password", .str password)])])],
    by simp [Json.wellFormed, everyObj, everyField]⟩

def unpooled : JsonObject ℕ := ⟨[("db", .obj [])], by decide⟩

theorem differences_pooled (password : String) : differences unpooled.json (pooled password).json
    = [⟨["db", "pool"], .undefined, ofJson (.obj [("password", .str password)])⟩] := by
  simp [pooled, unpooled, JsonObject.json, differences, keyDifferences, liveDifferences,
    inheritedDifferences, inherited, Difference.below, Difference.swap]

theorem own_pooled (alertId baselineId : String) (detectedAt : JsDate) (password : String) :
    own "db.pool" (alert alertId baselineId detectedAt unpooled (pooled password)).currentValues
      = some (ofJson (.obj [("password", .str password)])) := by
  rw [own_currentValues, differences_pooled]
  have hpath : joinKeys "" ["db", "pool"] = "db.pool" := by decide
  refine ⟨_, ⟨[], [], rfl, fun _ h => (List.not_mem_nil h).elim, fun hproto => ?_⟩, hpath, ?_⟩
  · exact absurd (hpath.symm.trans hproto) (by decide)
  · exact if_neg (by decide)

theorem alert_tells_passwords : ¬ ∀ (alertId baselineId : String) (detectedAt : JsDate)
    (b c₁ c₂ : JsonObject ℕ), Variant b c₁ c₂ →
      (alert alertId baselineId detectedAt b c₁).Same (alert alertId baselineId detectedAt b c₂) := by
  intro h
  have hvariant : Variant unpooled (pooled "one") (pooled "two") := by
    refine ⟨⟨_, rfl, _, _, rfl, .inr ⟨_, rfl, _, _, rfl, .inr ⟨_, rfl, _, _, rfl, .inl ?_, rfl⟩,
      rfl⟩, rfl⟩, ?_⟩
    · decide
    · rw [paths_differences, paths_differences, differences_pooled, differences_pooled]
      rfl
  have hsame := h "alert" "baseline" ⟨0, by decide⟩ _ _ _ hvariant
  have hvalues := hsame.currentValues "db.pool"
  rw [own_pooled, own_pooled] at hvalues
  simp [ofJson, ofFields] at hvalues

end Leaks

end AlertDispatcher

end VeriNode
