import VeriNode.Proofs.Redaction

/-!
# Alerts of alike configurations

Two configurations that are the same but for what stands under sensitive names have the same
differences from a baseline, where those are shown that reveal nothing (`differences_matches`).
-/

namespace VeriNode

namespace AlertDispatcher

open JsVal Drift DeepDiff

variable {ν : Type*}

section Variants

mutual

/-- The same but for what stands under sensitive names. -/
def Alike : Json ν → Json ν → Prop
  | .obj fs, w => ∃ gs, w = .obj gs ∧ AlikeFields fs gs
  | .arr xs, w => ∃ ys, w = .arr ys ∧ AlikeItems xs ys
  | .null, w => w = .null
  | .bool b, w => w = .bool b
  | .num n, w => w = .num n
  | .str s, w => w = .str s

def AlikeItems : List (Json ν) → List (Json ν) → Prop
  | [], ys => ys = []
  | x :: xs, ys => ∃ y zs, ys = y :: zs ∧ Alike x y ∧ AlikeItems xs zs

def AlikeFields : List (String × Json ν) → List (String × Json ν) → Prop
  | [], gs => gs = []
  | f :: fs, gs => ∃ w hs, gs = (f.1, w) :: hs ∧ (isSensitive f.1 = true ∨ Alike f.2 w)
    ∧ AlikeFields fs hs

end

mutual

theorem Alike.symm : ∀ {v w : Json ν}, Alike v w → Alike w v
  | .obj fs, _, h => by
    obtain ⟨gs, rfl, h⟩ := h
    exact ⟨fs, rfl, AlikeFields.symm h⟩
  | .arr xs, _, h => by
    obtain ⟨ys, rfl, h⟩ := h
    exact ⟨xs, rfl, AlikeItems.symm h⟩
  | .null, _, h => by
    obtain rfl := h
    rfl
  | .bool _, _, h => by
    obtain rfl := h
    rfl
  | .num _, _, h => by
    obtain rfl := h
    rfl
  | .str _, _, h => by
    obtain rfl := h
    rfl

theorem AlikeItems.symm : ∀ {xs ys : List (Json ν)}, AlikeItems xs ys → AlikeItems ys xs
  | [], _, h => by
    obtain rfl := h
    rfl
  | x :: xs, _, h => by
    obtain ⟨y, ys, rfl, hy, h⟩ := h
    exact ⟨x, xs, rfl, hy.symm, AlikeItems.symm h⟩

theorem AlikeFields.symm : ∀ {fs gs : List (String × Json ν)}, AlikeFields fs gs → AlikeFields gs fs
  | [], _, h => by
    obtain rfl := h
    rfl
  | (k, v) :: fs, _, h => by
    obtain ⟨w, gs, rfl, hw, h⟩ := h
    exact ⟨v, fs, rfl, hw.imp_right Alike.symm, AlikeFields.symm h⟩

end

mutual

theorem Alike.refl : ∀ v : Json ν, Alike v v
  | .obj fs => ⟨fs, rfl, AlikeFields.refl fs⟩
  | .arr xs => ⟨xs, rfl, AlikeItems.refl xs⟩
  | .null => rfl
  | .bool _ => rfl
  | .num _ => rfl
  | .str _ => rfl

theorem AlikeItems.refl : ∀ xs : List (Json ν), AlikeItems xs xs
  | [] => rfl
  | x :: xs => ⟨x, xs, rfl, Alike.refl x, AlikeItems.refl xs⟩

theorem AlikeFields.refl : ∀ fs : List (String × Json ν), AlikeFields fs fs
  | [] => rfl
  | f :: fs => ⟨f.2, fs, rfl, .inr (Alike.refl f.2), AlikeFields.refl fs⟩

end

mutual

theorem Alike.trans : ∀ {u v w : Json ν}, Alike u v → Alike v w → Alike u w
  | .obj _, _, _, h, h' => by
    obtain ⟨gs, rfl, h⟩ := h
    obtain ⟨hs, rfl, h'⟩ := h'
    exact ⟨hs, rfl, AlikeFields.trans h h'⟩
  | .arr _, _, _, h, h' => by
    obtain ⟨ys, rfl, h⟩ := h
    obtain ⟨zs, rfl, h'⟩ := h'
    exact ⟨zs, rfl, AlikeItems.trans h h'⟩
  | .null, _, _, h, h' => by
    obtain rfl := h
    exact h'
  | .bool _, _, _, h, h' => by
    obtain rfl := h
    exact h'
  | .num _, _, _, h, h' => by
    obtain rfl := h
    exact h'
  | .str _, _, _, h, h' => by
    obtain rfl := h
    exact h'

theorem AlikeItems.trans : ∀ {xs ys zs : List (Json ν)}, AlikeItems xs ys → AlikeItems ys zs →
    AlikeItems xs zs
  | [], _, _, h, h' => by
    obtain rfl := h
    exact h'
  | _ :: _, _, _, h, h' => by
    obtain ⟨y, ys, rfl, hy, h⟩ := h
    obtain ⟨z, zs, rfl, hz, h'⟩ := h'
    exact ⟨z, zs, rfl, hy.trans hz, AlikeItems.trans h h'⟩

theorem AlikeFields.trans : ∀ {fs gs hs : List (String × Json ν)}, AlikeFields fs gs →
    AlikeFields gs hs → AlikeFields fs hs
  | [], _, _, h, h' => by
    obtain rfl := h
    exact h'
  | (_, _) :: _, _, _, h, h' => by
    obtain ⟨v, gs, rfl, hv, h⟩ := h
    obtain ⟨w, hs, rfl, hw, h'⟩ := h'
    refine ⟨w, hs, rfl, ?_, AlikeFields.trans h h'⟩
    rcases hv with hk | hv
    · exact .inl hk
    · exact hw.imp_right hv.trans

end

mutual

theorem Alike.eq : ∀ {v w : Json ν}, Alike v w → holdsSecret v = false → w = v
  | .obj _, _, h, hv => by
    obtain ⟨gs, rfl, h⟩ := h
    rw [AlikeFields.eq h hv]
  | .arr _, _, h, hv => by
    obtain ⟨ys, rfl, h⟩ := h
    rw [AlikeItems.eq h hv]
  | .null, _, h, _ => h
  | .bool _, _, h, _ => h
  | .num _, _, h, _ => h
  | .str _, _, h, _ => h

theorem AlikeItems.eq : ∀ {xs ys : List (Json ν)}, AlikeItems xs ys → itemsHoldSecret xs = false →
    ys = xs
  | [], _, h, _ => h
  | x :: xs, _, h, hx => by
    obtain ⟨y, ys, rfl, hy, h⟩ := h
    rw [itemsHoldSecret, Bool.or_eq_false_iff] at hx
    rw [hy.eq hx.1, AlikeItems.eq h hx.2]

theorem AlikeFields.eq : ∀ {fs gs : List (String × Json ν)}, AlikeFields fs gs →
    fieldsHoldSecret fs = false → gs = fs
  | [], _, h, _ => h
  | (k, v) :: fs, _, h, hf => by
    obtain ⟨w, gs, rfl, hw, h⟩ := h
    rw [fieldsHoldSecret, Bool.or_eq_false_iff, Bool.or_eq_false_iff] at hf
    have hw := hw.resolve_left (by rw [hf.1.1]; exact Bool.false_ne_true)
    rw [hw.eq hf.1.2, AlikeFields.eq h hf.2]

end

theorem Alike.holdsSecret_eq {v w : Json ν} (h : Alike v w) : holdsSecret w = holdsSecret v := by
  cases hv : holdsSecret v with
  | false => rw [h.eq hv, hv]
  | true =>
    by_contra hw
    rw [Bool.not_eq_true] at hw
    rw [h.symm.eq hw, hw] at hv
    cases hv

theorem AlikeFields.keys : ∀ {fs gs : List (String × Json ν)}, AlikeFields fs gs →
    gs.map Prod.fst = fs.map Prod.fst
  | [], _, h => by rw [show _ = [] from h]
  | f :: fs, _, h => by
    obtain ⟨w, gs, rfl, -, h⟩ := h
    rw [List.map_cons, List.map_cons, h.keys]

theorem alikeFields_append (l : List (String × Json ν)) {k : String} {x y : Json ν} (h : Alike x y)
    (r : List (String × Json ν)) : AlikeFields (l ++ (k, x) :: r) (l ++ (k, y) :: r) := by
  induction l with
  | nil => exact ⟨y, r, rfl, .inr h, .refl r⟩
  | cons f l ih => exact ⟨f.2, _, rfl, .inr (.refl f.2), ih⟩

theorem AlikeFields.lookup (k : String) : ∀ {fs gs : List (String × Json ν)}, AlikeFields fs gs →
    (fs.lookup k = none ∧ gs.lookup k = none)
      ∨ ∃ x y, fs.lookup k = some x ∧ gs.lookup k = some y ∧ (isSensitive k = true ∨ Alike x y)
  | [], _, h => by
    obtain rfl := h
    exact .inl ⟨rfl, rfl⟩
  | f :: fs, _, h => by
    obtain ⟨w, gs, rfl, hw, h⟩ := h
    rw [Fields.lookup_cons, Fields.lookup_cons]
    by_cases hk : k = f.1
    · subst hk
      exact .inr ⟨f.2, w, if_pos rfl, if_pos rfl, hw⟩
    · rw [if_neg hk, if_neg hk]
      exact h.lookup k

end Variants

section Matches

/-- Differences at one place, whose live values are alike. -/
structure Like (d e : Difference ν) : Prop where
  place : d.place = e.place
  value : d.liveValue = e.liveValue
    ∨ ∃ x y, Alike x y ∧ d.liveValue = ofJson x ∧ e.liveValue = ofJson y

variable {d e : Difference ν} {D E D' E' : List (Difference ν)} {k : String} {x y : Json ν}

theorem Like.refl (d : Difference ν) : Like d d := ⟨rfl, .inl rfl⟩

theorem Like.symm (h : Like d e) : Like e d :=
  ⟨h.place.symm, h.value.imp Eq.symm fun ⟨x, y, hxy, hx, hy⟩ => ⟨y, x, hxy.symm, hy, hx⟩⟩

theorem Like.path (h : Like d e) : d.path = e.path := congrArg (joinKeys "") h.place

theorem Like.reveals_eq (h : Like d e) : reveals d.liveValue = reveals e.liveValue := by
  rcases h.value with he | ⟨x, y, hxy, hx, hy⟩
  · rw [he]
  · rw [hx, hy, reveals, reveals, toJson_ofJson, toJson_ofJson]
    exact hxy.holdsSecret_eq.symm

theorem Like.eq (h : Like d e) (hd : reveals d.liveValue = false) : d.liveValue = e.liveValue := by
  rcases h.value with he | ⟨x, y, hxy, hx, hy⟩
  · exact he
  · rw [hx, reveals, toJson_ofJson] at hd
    rw [hx, hy, hxy.eq hd]

theorem Like.passesAccessor_eq (h : Like d e) :
    passesAccessor d.liveValue = passesAccessor e.liveValue := by
  rcases h.value with he | ⟨x, y, hxy, hx, hy⟩
  · rw [he]
  · rw [hx, hy]
    cases x with
    | obj fs =>
      obtain ⟨gs, rfl, hfields⟩ := hxy
      rw [ofJson, ofJson, passesAccessor, passesAccessor, ← Option.not_isSome, ← Option.not_isSome,
        Bool.not_inj_iff, Bool.eq_iff_iff, own_isSome_iff, own_isSome_iff, map_fst_ofFields,
        map_fst_ofFields, hfields.keys]
    | arr xs =>
      obtain ⟨ys, rfl, -⟩ := hxy
      rfl
    | _ => rw [show y = _ from hxy]

/-- What is shown of a difference reveals nothing, or takes the accessor `__proto__` away. -/
def visible (d : Difference ν) : Bool :=
  !d.place.any isSensitive && (!reveals d.liveValue || !passesAccessor d.liveValue)

theorem Like.visible_eq (h : Like d e) : visible d = visible e := by
  rw [visible, visible, h.place, h.reveals_eq, h.passesAccessor_eq]

/-- The visible differences are alike, one by one. -/
def Matches (D E : List (Difference ν)) : Prop :=
  List.Forall₂ Like (D.filter visible) (E.filter visible)

theorem Matches.refl (D : List (Difference ν)) : Matches D D :=
  List.forall₂_same.2 fun d _ => Like.refl d

theorem Matches.symm (h : Matches D E) : Matches E D :=
  List.Forall₂.flip (h.imp fun _ _ => Like.symm)

theorem Matches.append (h : Matches D E) (h' : Matches D' E') : Matches (D ++ D') (E ++ E') := by
  unfold Matches at *
  rw [List.filter_append, List.filter_append]
  exact List.rel_append h h'

theorem Matches.of_forall₂ (h : List.Forall₂ Like D E) : Matches D E := by
  unfold Matches
  induction h with
  | nil => exact .nil
  | @cons d e D E hde _ ih =>
    rw [List.filter_cons, List.filter_cons, ← hde.visible_eq]
    split_ifs
    · exact .cons hde ih
    · exact ih

theorem Matches.single {a : JsVal ν} (h : Alike x y) :
    Matches [⟨[], a, ofJson x⟩] [⟨[], a, ofJson y⟩] :=
  .of_forall₂ (.cons ⟨rfl, .inr ⟨x, y, h, rfl, rfl⟩⟩ .nil)

theorem visible_below (k : String) (d : Difference ν) :
    visible (d.below k) = (!isSensitive k && visible d) := by
  simp only [visible, Difference.below, List.any_cons, Bool.not_or, Bool.and_assoc]

theorem Matches.below (h : isSensitive k = true ∨ Matches D E) :
    Matches (D.map (Difference.below k)) (E.map (Difference.below k)) := by
  unfold Matches at *
  rw [List.filter_map, List.filter_map]
  have hvis : visible (ν := ν) ∘ Difference.below k = fun d => !isSensitive k && visible d :=
    funext (visible_below k)
  rw [hvis]
  cases hk : isSensitive k with
  | true => simp
  | false =>
    have hm := h.resolve_left (by rw [hk]; exact Bool.false_ne_true)
    simp only [Bool.not_false, Bool.true_and]
    rw [List.forall₂_map_left_iff, List.forall₂_map_right_iff]
    exact hm.imp fun d e hde => ⟨congrArg (k :: ·) hde.place, hde.value⟩

variable [JsonNumber ν]

theorem map_swap_textDifferences (a b : JsVal ν) :
    (textDifferences a b).map Difference.swap = textDifferences b a := by
  unfold textDifferences
  by_cases h : stringify a = stringify b
  · simp [h]
  · rw [if_pos h, if_pos (Ne.symm h)]
    rfl

/-- Where no object is compared with another, it makes no difference what the secrets are, but for
values that are not visible. -/
theorem Matches.text {a : JsVal ν} (h : Alike x y)
    (hobj : (∀ fs, toJson a ≠ some (.obj fs)) ∨ ∀ fs, x ≠ .obj fs) :
    Matches (textDifferences a (ofJson x)) (textDifferences a (ofJson y)) := by
  cases hx : holdsSecret x with
  | false =>
    rw [h.eq hx]
    exact .refl _
  | true =>
    cases x with
    | obj fs =>
      obtain ⟨gs, rfl, hfields⟩ := h
      have hne (fs : List (String × Json ν)) : stringify a ≠ stringify (ofJson (.obj fs)) := by
        intro htext
        rw [stringify_ofJson, stringify, Option.map_eq_some_iff] at htext
        obtain ⟨j, hj, he⟩ := htext
        rw [Json.stringify_injective he] at hj
        exact hobj.elim (fun h => h fs hj) fun h => h _ rfl
      rw [textDifferences, textDifferences, if_pos (hne fs), if_pos (hne gs)]
      exact .single ⟨gs, rfl, hfields⟩
    | arr xs =>
      have hhidden (z : Json ν) (hz : holdsSecret z = true) (hp : passesAccessor (ofJson z) = true) :
          (textDifferences a (ofJson z)).filter visible = [] := by
        have hvis : visible ⟨[], a, ofJson z⟩ = false := by
          simp [visible, reveals, toJson_ofJson, hz, hp]
        unfold textDifferences
        split_ifs
        · rw [List.filter_cons, hvis]
          rfl
        · rfl
      have hy : holdsSecret y = true := h.holdsSecret_eq.trans hx
      obtain ⟨ys, rfl, -⟩ := h
      rw [Matches, hhidden (.arr xs) hx rfl, hhidden (.arr ys) hy rfl]
      exact .nil
    | _ => cases hx

omit [JsonNumber ν] in
theorem prototypeValue_ne_obj {v : JsVal ν} (h : prototypeValue k = some v)
    (fs : List (String × Json ν)) : toJson v ≠ some (.obj fs) := by
  unfold prototypeValue at h
  split_ifs at h
  · obtain rfl := Option.some.inj h
    intro he
    cases he
  · obtain rfl := Option.some.inj h
    intro he
    cases he

theorem prototypeFields_matches : ∀ {fs gs : List (String × Json ν)}, AlikeFields fs gs →
    Matches ((prototypeDifferences (.obj fs)).map Difference.swap)
      ((prototypeDifferences (.obj gs)).map Difference.swap)
  | [], _, h => by
    obtain rfl := h
    exact .refl _
  | (k, v) :: fs, _, h => by
    obtain ⟨w, gs, rfl, hw, h⟩ := h
    have ih := prototypeFields_matches h
    simp only [prototypeDifferences, List.flatMap_cons, List.map_append] at ih ⊢
    refine .append ?_ ih
    have hcomm : Difference.swap ∘ Difference.below k
        = Difference.below (ν := ν) k ∘ Difference.swap := rfl
    rw [List.map_map, List.map_map, hcomm, ← List.map_map, ← List.map_map]
    refine .below (hw.imp_right fun hvw => ?_)
    cases hv : prototypeValue (ν := ν) k with
    | none => exact .single hvw
    | some a =>
      simp only [map_swap_textDifferences]
      exact .text hvw (.inl (prototypeValue_ne_obj hv))

theorem prototypeDifferences_matches (h : Alike x y) :
    Matches ((prototypeDifferences x).map Difference.swap)
      ((prototypeDifferences y).map Difference.swap) := by
  cases x with
  | obj fs =>
    obtain ⟨gs, rfl, hfields⟩ := h
    exact prototypeFields_matches hfields
  | arr xs =>
    have hx : Alike (.arr xs) y := h
    obtain ⟨ys, rfl, -⟩ := h
    simp only [prototypeDifferences, map_swap_textDifferences]
    exact .text hx (.inr fun fs he => by cases he)
  | _ =>
    obtain rfl := h
    exact .refl _

theorem inheritedDifferences_matches (k : String) (h : Alike x y) :
    Matches ((inheritedDifferences k x).map Difference.swap)
      ((inheritedDifferences k y).map Difference.swap) := by
  unfold inheritedDifferences
  split_ifs
  · exact prototypeDifferences_matches h
  · rw [map_swap_textDifferences, map_swap_textDifferences]
    exact .text h (.inl fun fs he => by cases he)
  · exact .single h

theorem liveDifferences_matches (bs : List (String × Json ν)) : ∀ {fs gs : List (String × Json ν)},
    AlikeFields fs gs → Matches (liveDifferences bs fs) (liveDifferences bs gs)
  | [], _, h => by
    obtain rfl := h
    exact .refl _
  | (k, v) :: fs, _, h => by
    obtain ⟨w, gs, rfl, hw, h⟩ := h
    have ih := liveDifferences_matches bs h
    simp only [liveDifferences, List.flatMap_cons] at ih ⊢
    refine .append ?_ ih
    split_ifs
    · exact .refl _
    · have hcomm : (fun d : Difference ν => (d.below k).swap)
          = Difference.below k ∘ Difference.swap := rfl
      rw [hcomm, ← List.map_map, ← List.map_map]
      exact .below (hw.imp_right (inheritedDifferences_matches k))

mutual

theorem differences_matches : ∀ (b : Json ν) {v w : Json ν}, Alike v w →
    Matches (differences b v) (differences b w)
  | .obj bs, .obj fs, _, h => by
    obtain ⟨gs, rfl, h⟩ := h
    rw [differences, differences]
    exact (keyDifferences_matches bs h).append (liveDifferences_matches bs h)
  | .obj bs, .arr xs, w, h => by
    have hx : Alike (.arr xs) w := h
    obtain ⟨ys, rfl, -⟩ := h
    exact .text hx (.inr fun fs he => by cases he)
  | .obj bs, .null, _, h => by
    obtain rfl := h
    exact .refl _
  | .obj bs, .bool _, _, h => by
    obtain rfl := h
    exact .refl _
  | .obj bs, .num _, _, h => by
    obtain rfl := h
    exact .refl _
  | .obj bs, .str _, _, h => by
    obtain rfl := h
    exact .refl _
  | .null, _, _, h => .text h (.inl fun fs he => by cases he)
  | .bool _, _, _, h => .text h (.inl fun fs he => by cases he)
  | .num _, _, _, h => .text h (.inl fun fs he => by cases he)
  | .str _, _, _, h => .text h (.inl fun fs he => by cases he)
  | .arr _, _, _, h => .text h (.inl fun fs he => by cases he)

theorem keyDifferences_matches : ∀ (bs : List (String × Json ν)) {fs gs : List (String × Json ν)},
    AlikeFields fs gs → Matches (keyDifferences bs fs) (keyDifferences bs gs)
  | [], _, _, _ => .refl _
  | (k, b) :: bs, fs, gs, h => by
    rw [keyDifferences, keyDifferences]
    refine .append ?_ (keyDifferences_matches bs h)
    rcases h.lookup k with ⟨hf, hg⟩ | ⟨x, y, hf, hg, hxy⟩
    · rw [hf, hg]
      exact .refl _
    · rw [hf, hg]
      exact .below (hxy.imp_right (differences_matches b))

end

end Matches

section Payloads

variable {D D' A A' B B' L : List (Difference ν)} {d e : Difference ν} {k : String} {v : JsVal ν}

theorem exists_like (h : List.Forall₂ Like A B) (hd : d ∈ A) : ∃ e ∈ B, Like d e := by
  induction h with
  | nil => cases hd
  | @cons a b A B hab _ ih =>
    rcases List.mem_cons.1 hd with rfl | hd
    · exact ⟨b, List.mem_cons_self, hab⟩
    · obtain ⟨e, he, hde⟩ := ih hd
      exact ⟨e, List.mem_cons_of_mem _ he, hde⟩

theorem like_of_last (h : List.Forall₂ Like (A ++ d :: B) (A' ++ e :: B')) (hpath : d.path = e.path)
    (hB : ∀ a ∈ B, a.path ≠ d.path) (hB' : ∀ a ∈ B', a.path ≠ d.path) : Like d e := by
  induction A generalizing A' with
  | nil =>
    rw [List.nil_append] at h
    cases A' with
    | nil => exact (List.forall₂_cons.1 h).1
    | cons a' A' =>
      obtain ⟨a, ha, hlike⟩ := exists_like
        ((List.forall₂_cons.1 h).2.flip.imp fun _ _ => Like.symm)
        (List.mem_append_right A' (List.mem_cons_self (a := e) (l := B')))
      exact absurd (hlike.path.symm.trans hpath.symm) (hB a ha)
  | cons a A ih =>
    cases A' with
    | nil =>
      rw [List.cons_append, List.nil_append] at h
      obtain ⟨a', ha', hlike⟩ := exists_like (List.forall₂_cons.1 h).2
        (List.mem_append_right A (List.mem_cons_self (a := d) (l := B)))
      exact absurd hlike.path.symm (hB' a' ha')
    | cons a' A' =>
      rw [List.cons_append, List.cons_append] at h
      exact ih (List.forall₂_cons.1 h).2

theorem exists_last (h : k ∈ D.map Difference.path) :
    ∃ l d r, D = l ++ d :: r ∧ d.path = k ∧ ∀ a ∈ r, a.path ≠ k := by
  induction D using List.reverseRecOn with
  | nil => cases h
  | append_singleton D e ih =>
    by_cases he : e.path = k
    · exact ⟨D, e, [], rfl, he, fun _ h => (List.not_mem_nil h).elim⟩
    · rw [List.map_append, List.mem_append, List.map_singleton, List.mem_singleton] at h
      obtain ⟨l, d, r, rfl, hd, hr⟩ := ih (h.resolve_right (Ne.symm he))
      refine ⟨l, d, r ++ [e], by simp, hd, fun a ha => ?_⟩
      rcases List.mem_append.1 ha with ha | ha
      · exact hr a ha
      · rwa [List.mem_singleton.1 ha]

theorem exists_split (h : List.Forall₂ Like (A ++ d :: B) L) :
    ∃ A' e B', L = A' ++ e :: B' ∧ List.Forall₂ Like A A' ∧ Like d e := by
  induction A generalizing L with
  | nil =>
    obtain ⟨e, B', hde, -, rfl⟩ := List.forall₂_cons_left_iff.1 h
    exact ⟨[], e, B', rfl, .nil, hde⟩
  | cons a A ih =>
    obtain ⟨a', L, haa', hrest, rfl⟩ := List.forall₂_cons_left_iff.1 h
    obtain ⟨A', e, B', rfl, hA, hde⟩ := ih hrest
    exact ⟨a' :: A', e, B', rfl, .cons haa' hA, hde⟩

theorem exists_breaks {l l' r r' : List (Difference ν)} (hm : Matches (l ++ d :: r) (l' ++ e :: r'))
    (hd : visible d = true) (hr' : ∀ a ∈ r', a.path ≠ d.path) {a : Difference ν} (ha : a ∈ l)
    (hbreaks : Breaks a) : ∃ a' ∈ l', Breaks a' := by
  have hva : visible a = true := by
    have hplain : a.place.any isSensitive = false := by
      rw [← isRedacted_path, hbreaks.1]
      rfl
    simp [visible, hplain, hbreaks.2]
  rw [Matches, List.filter_append, List.filter_cons, if_pos hd] at hm
  obtain ⟨A', d', B', hsplit, hA, hdd'⟩ := exists_split hm
  obtain ⟨a', ha', haa'⟩ := exists_like hA (List.mem_filter.2 ⟨ha, hva⟩)
  obtain ⟨x, y, hxy, rfl, hy⟩ := List.filter_eq_append_iff.1 hsplit
  have hd' : d' ∈ y := List.mem_of_mem_filter (hy ▸ List.mem_cons_self)
  refine ⟨a', ?_, haa'.path.symm.trans hbreaks.1, haa'.passesAccessor_eq.symm.trans hbreaks.2⟩
  rcases List.append_eq_append_iff.1 hxy with ⟨z, rfl, hz⟩ | ⟨z, rfl, -⟩
  · cases z with
    | nil =>
      rw [List.append_nil] at ha'
      exact List.mem_of_mem_filter ha'
    | cons c z =>
      rw [List.cons_append] at hz
      obtain ⟨-, rfl⟩ := List.cons.inj hz
      exact absurd hdd'.path.symm (hr' d' (List.mem_append_right _ hd'))
  · exact List.mem_append_left _ (List.mem_of_mem_filter ha')

theorem visible_of_plain (hplain : d.place.any isSensitive = false)
    (hd : reveals d.liveValue = false) : visible d = true := by
  rw [visible, hplain, hd]
  rfl

/-- What is stored of the one is stored of the other, where nothing is revealed. -/
theorem own_stored_of_matches (hm : Matches D D')
    (hpaths : D.map Difference.path = D'.map Difference.path)
    (hD : ∀ d, LastIn D d → d.place.any isSensitive = false → reveals d.liveValue = false)
    (hD' : ∀ d, LastIn D' d → d.place.any isSensitive = false → reveals d.liveValue = false)
    (hv : own k (stored D).fields = some v) : own k (stored D').fields = some v := by
  obtain ⟨d, hlast, rfl, rfl⟩ := own_stored.1 hv
  have hlast' := hlast
  obtain ⟨l, r, rfl, hr, hl⟩ := hlast'
  have hk : d.path ∈ D'.map Difference.path := by
    rw [← hpaths]
    exact List.mem_map_of_mem (List.mem_append_right l List.mem_cons_self)
  obtain ⟨l', e, r', rfl, he, hr'⟩ := exists_last hk
  rw [own_stored]
  cases hred : isRedacted d.path with
  | true =>
    refine ⟨e, ⟨l', r', rfl, he ▸ hr', fun hproto => ?_⟩, he, ?_⟩
    · rw [← he, hproto] at hred
      cases hred
    · rw [redact, redact, if_pos hred, if_pos hred]
  | false =>
    have hplain : d.place.any isSensitive = false := by rw [← isRedacted_path, hred]
    have hplain' : e.place.any isSensitive = false := by rw [← isRedacted_path, he, hred]
    have hvis := visible_of_plain hplain (hD d hlast hplain)
    have helast : LastIn (l' ++ e :: r') e := by
      refine ⟨l', r', rfl, he ▸ hr', fun hproto => ?_⟩
      obtain ⟨a, ha, hbreaks⟩ := hl (he ▸ hproto)
      exact exists_breaks hm hvis hr' ha hbreaks
    have hvis' := visible_of_plain hplain' (hD' e helast hplain')
    rw [Matches, List.filter_append, List.filter_append, List.filter_cons, List.filter_cons,
      if_pos hvis, if_pos hvis'] at hm
    have hlike : Like d e := like_of_last hm he.symm
      (fun a ha => hr a (List.mem_of_mem_filter ha))
      (fun a ha => hr' a (List.mem_of_mem_filter ha))
    refine ⟨e, helast, he, ?_⟩
    rw [hlike.eq (hD d hlast hplain)]

variable [JsonNumber ν] {b c c' : JsonObject ν} {alertId baselineId : String} {detectedAt : JsDate}

/-- The alerts are the same, whatever the order of the values. -/
structure AlertPayload.Same (p q : AlertPayload ν) : Prop where
  alertId : p.alertId = q.alertId
  severity : p.severity = q.severity
  driftedKeys : p.driftedKeys = q.driftedKeys
  baselineId : p.baselineId = q.baselineId
  detectedAt : p.detectedAt = q.detectedAt
  currentValues : ∀ path, own path p.currentValues = own path q.currentValues

/-- The two configurations differ in what stands under sensitive names alone, and differ from the
baseline at the same paths. -/
structure Variant (b c c' : JsonObject ν) : Prop where
  alike : Alike c.json c'.json
  paths : (DeepDiff.deepDiff b.fields c.fields "").map (·.path)
    = (DeepDiff.deepDiff b.fields c'.fields "").map (·.path)

theorem Variant.symm (h : Variant b c c') : Variant b c' c := ⟨h.alike.symm, h.paths.symm⟩

theorem Variant.trans {c'' : JsonObject ν} (h : Variant b c c') (h' : Variant b c' c'') :
    Variant b c c'' := ⟨h.alike.trans h'.alike, h.paths.trans h'.paths⟩

theorem paths_differences (b c : JsonObject ν) :
    (DeepDiff.deepDiff b.fields c.fields "").map (·.path)
      = (differences b.json c.json).map Difference.path := by
  rw [DeepDiff.deepDiff_eq, List.map_map]
  rfl

theorem driftedKeys_alert : (alert alertId baselineId detectedAt b c).driftedKeys
    = (DeepDiff.deepDiff b.fields c.fields "").map (·.path) := by
  simp [alert, buildPayload, driftReport, Function.comp_def]

theorem severity_alert : (alert alertId baselineId detectedAt b c).severity
    = if ((DeepDiff.deepDiff b.fields c.fields "").map (·.path)).any (classify · = .critical)
      then .critical else .nonCritical := by
  simp [alert, buildPayload, driftReport, List.any_map, Function.comp_def]

theorem same_of_covered (h : Variant b c c') (hc : Covered b c) (hc' : Covered b c') :
    (alert alertId baselineId detectedAt b c).Same (alert alertId baselineId detectedAt b c') := by
  have hm : Matches (differences b.json c.json) (differences b.json c'.json) :=
    differences_matches b.json h.alike
  have hpaths := h.paths
  rw [paths_differences, paths_differences] at hpaths
  refine ⟨rfl, ?_, ?_, rfl, rfl, fun path => Option.ext fun v => ?_⟩
  · rw [severity_alert, severity_alert, h.paths]
  · rw [driftedKeys_alert, driftedKeys_alert, h.paths]
  · rw [currentValues_alert, currentValues_alert]
    exact ⟨own_stored_of_matches hm hpaths hc hc',
      own_stored_of_matches hm.symm hpaths.symm hc' hc⟩

end Payloads

end AlertDispatcher

end VeriNode
