import VeriNode.Audit.Drift
import VeriNode.Lib.Separated
import VeriNode.Proofs.Config

/-!
# What is reported

`deepDiff` reports the places where the two configurations differ (`places`), each by its path, and
the values that are read there (`deepDiff_eq`). Two configurations that are the same up to the order
of keys differ nowhere (`deepDiff_same`).
-/

namespace VeriNode

namespace Drift

open JsVal Config

variable {ν : Type*}

/-- The path of a place, below another path. -/
def joinKeys (path : String) : List String → String
  | [] => path
  | k :: q => joinKeys (fullPath path k) q

/-- What is read at a place. -/
def lookAt : List String → JsVal ν → JsVal ν
  | [], v => v
  | k :: q, .obj fs => lookAt q (read k fs)
  | _ :: _, _ => .undefined

/-- No object has a key twice. -/
def Distinct (v : JsVal ν) : Prop :=
  ∀ q fs, follow q v = some (.obj fs) → (fs.map Prod.fst).Nodup

variable {b l : JsVal ν} {bs ls : List (String × JsVal ν)} {k : String} {q : List String}

theorem read_of_own {v : JsVal ν} (h : own k bs = some v) : read k bs = v := by
  unfold JsVal.read
  rw [h]

theorem read_of_not_has (h : has k bs = false) : read k bs = .undefined := by
  rw [has, Bool.or_eq_false_iff, Option.isSome_eq_false_iff, Option.isNone_iff_eq_none] at h
  unfold JsVal.read
  rw [h.1, if_neg (by simpa using h.2)]

theorem Distinct.own (h : Distinct (.obj bs)) {v : JsVal ν} (hk : own k bs = some v) :
    Distinct v := by
  intro q fs hq
  refine h (k :: q) fs ?_
  rw [follow_obj, hk]
  exact hq

theorem Distinct.read (h : Distinct (.obj bs)) : Distinct (read k bs) := by
  rcases hk : JsVal.own k bs with _ | v
  · intro q fs hq
    unfold JsVal.read at hq
    rw [hk] at hq
    split_ifs at hq <;> cases q <;> cases hq
  · rw [read_of_own hk]
    exact h.own hk

/-- What is reported of a place. -/
def reported (path : String) (b l : JsVal ν) (q : List String) : RawDiff ν :=
  ⟨joinKeys path q, lookAt q b, lookAt q l⟩

theorem reported_one (path k : String) (bs ls : List (String × JsVal ν)) :
    reported path (.obj bs) (.obj ls) [k] = ⟨fullPath path k, read k bs, read k ls⟩ := rfl

theorem reported_cons (path k : String) (bs ls : List (String × JsVal ν)) (q : List String) :
    reported path (.obj bs) (.obj ls) (k :: q)
      = reported (fullPath path k) (read k bs) (read k ls) q := rfl

theorem distinct_ofJson {j : Json ν} (h : j.wellFormed = true) : Distinct (ofJson j) := by
  intro q fs hq
  induction q generalizing j with
  | nil =>
    cases j with
    | obj fields =>
      obtain rfl : ofFields fields = fs := by
        rw [ofJson, follow, Option.some.injEq, JsVal.obj.injEq] at hq
        exact hq
      rw [Json.wellFormed, Json.everyObj, Bool.and_eq_true, decide_eq_true_eq] at h
      rw [map_fst_ofFields]
      refine h.1.imp fun hlt he => ?_
      rw [he, Json.precedes] at hlt
      simp at hlt
    | _ => cases hq
  | cons k q ih =>
    cases j with
    | obj fields =>
      rw [ofJson, follow_obj] at hq
      obtain ⟨v, hv, hq⟩ := Option.bind_eq_some_iff.1 hq
      obtain ⟨i, hi, rfl⟩ := mem_ofFields.1 (mem_of_own hv)
      rw [Json.wellFormed, Json.everyObj, Bool.and_eq_true, Json.everyField_iff] at h
      exact ih (h.2 _ hi) hq
    | _ => cases hq

variable [JsonNumber ν]

section Places

def textPlaces (bVal lVal : JsVal ν) : List (List String) :=
  if stringify bVal ≠ stringify lVal then [[]] else []

def livePlaces (baseline live : List (String × JsVal ν)) : List (List String) :=
  live.flatMap fun f =>
    if (own f.1 baseline).isSome then []
    else if has f.1 baseline then (textPlaces (read f.1 baseline) f.2).map (f.1 :: ·)
    else [[f.1]]

mutual

/-- The places where two values differ. -/
def places : JsVal ν → JsVal ν → List (List String)
  | .obj baseline, .obj live => keyPlaces baseline live ++ livePlaces baseline live
  | .obj baseline, .undefined => textPlaces (.obj baseline) .undefined
  | .obj baseline, .func f => textPlaces (.obj baseline) (.func f)
  | .obj baseline, .json j => textPlaces (.obj baseline) (.json j)
  | .undefined, lVal => textPlaces .undefined lVal
  | .func f, lVal => textPlaces (.func f) lVal
  | .json j, lVal => textPlaces (.json j) lVal

def keyPlaces : List (String × JsVal ν) → List (String × JsVal ν) → List (List String)
  | [], _ => []
  | f :: rest, live =>
    (if has f.1 live then places f.2 (read f.1 live) else [[]]).map (f.1 :: ·)
      ++ keyPlaces rest live

end

theorem textDiff_eq (path : String) (b l : JsVal ν) :
    textDiff path b l = (textPlaces b l).map (reported path b l) := by
  unfold textDiff textPlaces
  split_ifs <;> rfl

theorem textDiff_self (path : String) (v : JsVal ν) : textDiff path v v = [] :=
  if_neg (not_not.2 rfl)

theorem liveDiff_eq (path : String) (h : (ls.map Prod.fst).Nodup) :
    liveDiff path bs ls = (livePlaces bs ls).map (reported path (.obj bs) (.obj ls)) := by
  unfold liveDiff livePlaces
  rw [List.map_flatMap]
  refine List.flatMap_congr fun f hf => ?_
  have hread : read f.1 ls = f.2 := read_of_own (own_of_mem h hf)
  split_ifs with hown hhas
  · rfl
  · rw [textDiff_eq, List.map_map]
    refine List.map_congr_left fun q _ => ?_
    rw [Function.comp, reported_cons, hread]
  · rw [List.map_singleton, reported_one, hread, read_of_not_has (by simpa using hhas)]

mutual

theorem valueDiff_eq : ∀ (b l : JsVal ν) (path : String), Distinct b → Distinct l →
    valueDiff path b l = (places b l).map (reported path b l)
  | .obj bs, .obj ls, path, hb, hl => by
    have hnodup := hb [] bs rfl
    rw [valueDiff, places, List.map_append, liveDiff_eq path (hl [] ls rfl),
      keysDiff_eq bs bs ls path hb hl fun f hf => own_of_mem hnodup hf]
  | .obj bs, .undefined, path, _, _ => textDiff_eq path _ _
  | .obj bs, .func _, path, _, _ => textDiff_eq path _ _
  | .obj bs, .json _, path, _, _ => textDiff_eq path _ _
  | .undefined, l, path, _, _ => textDiff_eq path _ _
  | .func _, l, path, _, _ => textDiff_eq path _ _
  | .json _, l, path, _, _ => textDiff_eq path _ _

theorem keysDiff_eq : ∀ (rest bs ls : List (String × JsVal ν)) (path : String),
    Distinct (.obj bs) → Distinct (.obj ls) → (∀ f ∈ rest, own f.1 bs = some f.2) →
    keysDiff path rest ls = (keyPlaces rest ls).map (reported path (.obj bs) (.obj ls))
  | [], _, _, _, _, _, _ => rfl
  | (k, v) :: rest, bs, ls, path, hb, hl, hrest => by
    have hk : own k bs = some v := hrest (k, v) List.mem_cons_self
    have hread : read k bs = v := read_of_own hk
    rw [keysDiff, keyPlaces, List.map_append, List.map_map,
      keysDiff_eq rest bs ls path hb hl fun f hf => hrest f (List.mem_cons_of_mem _ hf)]
    congr 1
    split_ifs with hhas
    · rw [valueDiff_eq v (read k ls) (fullPath path k) (hb.own hk) hl.read]
      refine List.map_congr_left fun q _ => ?_
      rw [Function.comp, reported_cons, hread]
    · rw [List.map_singleton, Function.comp, reported_one, hread,
        read_of_not_has (by simpa using hhas)]

end

theorem deepDiff_eq (hb : Distinct (.obj bs)) (hl : Distinct (.obj ls)) (path : String) :
    deepDiff bs ls path = (places (.obj bs) (.obj ls)).map (reported path (.obj bs) (.obj ls)) :=
  valueDiff_eq (.obj bs) (.obj ls) path hb hl

theorem mem_textPlaces : q ∈ textPlaces b l ↔ q = [] ∧ stringify b ≠ stringify l := by
  unfold textPlaces
  split_ifs with h
  · simp [h]
  · simp only [List.not_mem_nil, false_iff, not_and]
    exact fun _ => h

theorem mem_places_text (h : ∀ bs ls, b = .obj bs → l ≠ .obj ls) :
    q ∈ places b l ↔ q = [] ∧ stringify b ≠ stringify l := by
  rw [← mem_textPlaces]
  cases b with
  | obj bs =>
    cases l with
    | obj ls => exact absurd rfl (h bs ls rfl)
    | _ => rfl
  | _ => cases l <;> rfl

theorem mem_keyPlaces {rest : List (String × JsVal ν)} : q ∈ keyPlaces rest ls ↔ ∃ f ∈ rest,
    ∃ q', q = f.1 :: q' ∧ if has f.1 ls then q' ∈ places f.2 (read f.1 ls) else q' = [] := by
  induction rest with
  | nil => simp [keyPlaces]
  | cons f rest ih =>
    rw [keyPlaces, List.mem_append, List.mem_map, ih]
    simp only [List.mem_cons, exists_eq_or_imp]
    refine or_congr ?_ Iff.rfl
    split_ifs with hhas
    · exact ⟨fun ⟨q', hm, he⟩ => ⟨q', he.symm, hm⟩, fun ⟨q', he, hm⟩ => ⟨q', hm, he.symm⟩⟩
    · simp only [List.mem_singleton]
      exact ⟨fun ⟨q', hm, he⟩ => ⟨q', he.symm, hm⟩, fun ⟨q', he, hm⟩ => ⟨q', hm, he.symm⟩⟩

theorem mem_livePlaces : q ∈ livePlaces bs ls ↔ ∃ f ∈ ls, own f.1 bs = none ∧
    ∃ q', q = f.1 :: q' ∧ if has f.1 bs then q' ∈ textPlaces (read f.1 bs) f.2 else q' = [] := by
  unfold livePlaces
  rw [List.mem_flatMap]
  refine exists_congr fun f => and_congr_right fun _ => ?_
  rcases hown : own f.1 bs with _ | v
  · rw [Option.isSome_none, if_neg (by decide)]
    split_ifs with hhas
    · rw [List.mem_map]
      exact ⟨fun ⟨q', hm, he⟩ => ⟨rfl, q', he.symm, hm⟩, fun ⟨_, q', he, hm⟩ => ⟨q', hm, he.symm⟩⟩
    · simp
  · rw [Option.isSome_some, if_pos rfl]
    simp

theorem mem_places_obj (hb : (bs.map Prod.fst).Nodup) (hl : (ls.map Prod.fst).Nodup) :
    q ∈ places (.obj bs) (.obj ls) ↔ ∃ k q', q = k :: q' ∧
      ((∃ v, own k bs = some v ∧ if has k ls then q' ∈ places v (read k ls) else q' = [])
      ∨ (own k bs = none ∧ (own k ls).isSome
        ∧ if has k bs then q' ∈ textPlaces (read k bs) (read k ls) else q' = [])) := by
  rw [places, List.mem_append, mem_keyPlaces, mem_livePlaces]
  constructor
  · rintro (⟨f, hf, q', rfl, hq⟩ | ⟨f, hf, hown, q', rfl, hq⟩)
    · exact ⟨f.1, q', rfl, .inl ⟨f.2, own_of_mem hb hf, hq⟩⟩
    · have hls := own_of_mem hl hf
      rw [← read_of_own hls] at hq
      exact ⟨f.1, q', rfl, .inr ⟨hown, Option.isSome_iff_exists.2 ⟨_, hls⟩, hq⟩⟩
  · rintro ⟨k, q', rfl, ⟨v, hown, hq⟩ | ⟨hown, hls, hq⟩⟩
    · exact .inl ⟨(k, v), mem_of_own hown, q', rfl, hq⟩
    · obtain ⟨w, hw⟩ := Option.isSome_iff_exists.1 hls
      rw [read_of_own hw] at hq
      exact .inr ⟨(k, w), mem_of_own hw, hown, q', rfl, hq⟩

/-- At a reported place the two configurations differ. -/
theorem shape_ne_of_mem_places (hb : Distinct b) (hl : Distinct l) (h : q ∈ places b l) :
    shape q b ≠ shape q l := by
  induction q generalizing b l with
  | nil =>
    have htext : ∀ bs ls, b = .obj bs → l ≠ .obj ls := by
      rintro bs ls rfl rfl
      obtain ⟨k, q', he, -⟩ := (mem_places_obj (hb [] bs rfl) (hl [] ls rfl)).1 h
      cases he
    have hne := ((mem_places_text htext).1 h).2
    intro hshape
    have hnode : node b = node l := Option.some.inj hshape
    cases b with
    | obj bs =>
      cases l with
      | obj ls => exact absurd rfl (htext bs ls rfl)
      | _ => cases hnode
    | _ =>
      cases l with
      | obj ls => cases hnode
      | _ => exact hne (congrArg stringify hnode)
  | cons k q ih =>
    by_cases hobj : ∃ bs ls, b = .obj bs ∧ l = .obj ls
    · obtain ⟨bs, ls, rfl, rfl⟩ := hobj
      obtain ⟨k', q', he, hcase⟩ := (mem_places_obj (hb [] bs rfl) (hl [] ls rfl)).1 h
      obtain ⟨rfl, rfl⟩ := List.cons.inj he
      rw [shape_obj, shape_obj]
      rcases hcase with ⟨v, hv, hq⟩ | ⟨hown, hls, hq⟩
      · rw [hv]
        rcases hls : own k ls with _ | w
        · intro hshape
          have hnil : q = [] := by
            split_ifs at hq
            · rw [mem_places_text] at hq
              · exact hq.1
              · rintro _ ls' - hfunc
                unfold JsVal.read at hfunc
                rw [hls] at hfunc
                split_ifs at hfunc
            · exact hq
          subst hnil
          cases hshape
        · rw [if_pos (by simp [has, hls]), read_of_own hls] at hq
          exact ih (hb.own hv) (hl.own hls) hq
      · rw [hown]
        obtain ⟨w, hw⟩ := Option.isSome_iff_exists.1 hls
        have hnil : q = [] := by
          split_ifs at hq
          · exact (mem_textPlaces.1 hq).1
          · exact hq
        subst hnil
        rw [hw]
        intro hshape
        cases hshape
    · rw [mem_places_text fun bs ls h1 h2 => hobj ⟨bs, ls, h1, h2⟩] at h
      exact absurd h.1 (List.cons_ne_nil _ _)

theorem eq_of_isPrefix_of_mem_places {q' : List String} (hb : Distinct b) (hl : Distinct l)
    (h : q ∈ places b l) (h' : q' ∈ places b l) (hpre : q <+: q') : q = q' := by
  induction q generalizing b l q' with
  | nil =>
    have htext : ∀ bs ls, b = .obj bs → l ≠ .obj ls := by
      rintro bs ls rfl rfl
      obtain ⟨k, q', he, -⟩ := (mem_places_obj (hb [] bs rfl) (hl [] ls rfl)).1 h
      cases he
    exact ((mem_places_text htext).1 h').1.symm
  | cons k q ih =>
    obtain ⟨r, rfl⟩ := hpre
    by_cases hobj : ∃ bs ls, b = .obj bs ∧ l = .obj ls
    · obtain ⟨bs, ls, rfl, rfl⟩ := hobj
      obtain ⟨k1, q1, he, hcase⟩ := (mem_places_obj (hb [] bs rfl) (hl [] ls rfl)).1 h
      obtain ⟨rfl, rfl⟩ := List.cons.inj he
      obtain ⟨k1, q1, he', hcase'⟩ := (mem_places_obj (hb [] bs rfl) (hl [] ls rfl)).1 h'
      obtain ⟨rfl, rfl⟩ := List.cons.inj he'
      congr 1
      rcases hcase with ⟨v, hv, hq⟩ | ⟨hown, -, hq⟩ <;>
        rcases hcase' with ⟨v', hv', hq'⟩ | ⟨hown', -, hq'⟩
      · obtain rfl : v = v' := Option.some.inj (hv.symm.trans hv')
        split_ifs at hq hq' with hhas
        · exact ih (hb.own hv) hl.read hq hq' ⟨r, rfl⟩
        · exact hq.trans hq'.symm
      · rw [hv] at hown'
        cases hown'
      · rw [hown] at hv'
        cases hv'
      · split_ifs at hq hq' with hhas
        · exact (mem_textPlaces.1 hq).1.trans (mem_textPlaces.1 hq').1.symm
        · exact hq.trans hq'.symm
    · rw [mem_places_text fun bs ls h1 h2 => hobj ⟨bs, ls, h1, h2⟩] at h
      exact absurd h.1 (List.cons_ne_nil _ _)

theorem stringify_ofJson (j : Json ν) : stringify (ofJson j) = some j.stringify := by
  rw [stringify, toJson_ofJson]
  rfl

omit [JsonNumber ν] in
theorem read_of_own_none {v : JsVal ν} (h : own k bs = none) (hhas : has k bs = true)
    (hv : read k bs = v) : v = .func k := by
  rw [has, h, Option.isSome_none, Bool.false_or, decide_eq_true_eq] at hhas
  unfold JsVal.read at hv
  rw [h, if_pos hhas] at hv
  exact hv.symm

theorem eq_of_not_mem_places {j j' : Json ν}
    (hobj : ¬ ∃ bs ls, ofJson j = .obj bs ∧ ofJson j' = .obj ls)
    (h : [] ∉ places (ofJson j) (ofJson j')) : j = j' := by
  rw [mem_places_text fun bs ls h1 h2 => hobj ⟨bs, ls, h1, h2⟩, stringify_ofJson,
    stringify_ofJson] at h
  simp only [true_and, not_not, ne_eq, Option.some.injEq] at h
  exact Json.stringify_injective h

/-- Two configurations agree wherever nothing is reported. -/
theorem shape_eq_of_apart {j j' : Json ν} (hb : Distinct (ofJson j)) (hl : Distinct (ofJson j'))
    (h : ∀ d ∈ places (ofJson j) (ofJson j'), ¬ d <+: q) :
    shape q (ofJson j) = shape q (ofJson j') := by
  induction q generalizing j j' with
  | nil =>
    by_cases hobj : ∃ bs ls, ofJson j = .obj bs ∧ ofJson j' = .obj ls
    · obtain ⟨bs, ls, hbs, hls⟩ := hobj
      rw [hbs, hls]
      rfl
    · rw [eq_of_not_mem_places hobj fun hm => h [] hm List.nil_prefix]
  | cons k q ih =>
    by_cases hobj : ∃ bs ls, ofJson j = .obj bs ∧ ofJson j' = .obj ls
    · obtain ⟨bs, ls, hbs, hls⟩ := hobj
      have hown : ∀ {i : Json ν} {fs : List (String × JsVal ν)} {v : JsVal ν}, ofJson i = .obj fs →
          own k fs = some v → ∃ i', v = ofJson i' := by
        intro i fs v hi hv
        refine follow_ofJson (q := [k]) (j := i) ?_
        rw [hi, follow_obj, hv]
        rfl
      rw [hbs, hls] at h ⊢
      rw [hbs] at hb
      rw [hls] at hl
      have hmem := fun q' => @mem_places_obj ν bs ls q' _ (hb [] bs rfl) (hl [] ls rfl)
      -- a key that only one of them has is reported
      have hone : ¬ [k] ∈ places (.obj bs) (.obj ls) := fun hm => h [k] hm ⟨q, rfl⟩
      rw [hmem] at hone
      rw [shape_obj, shape_obj]
      rcases hkb : own k bs with _ | v <;> rcases hkl : own k ls with _ | w
      · rfl
      · obtain ⟨i, rfl⟩ := hown hls hkl
        refine absurd ⟨k, [], rfl, .inr ⟨hkb, by rw [hkl]; rfl, ?_⟩⟩ hone
        split_ifs with hhas
        · rw [read_of_own_none hkb hhas rfl, read_of_own hkl, mem_textPlaces, stringify_ofJson]
          exact ⟨rfl, fun he => by cases he⟩
        · rfl
      · obtain ⟨i, rfl⟩ := hown hbs hkb
        refine absurd ⟨k, [], rfl, .inl ⟨_, hkb, ?_⟩⟩ hone
        split_ifs with hhas
        · have htext : ∀ bs ls', ofJson i = .obj bs → JsVal.func (ν := ν) k ≠ .obj ls' := by
            rintro _ _ - hfunc
            cases hfunc
          rw [read_of_own_none hkl hhas rfl, mem_places_text htext, stringify_ofJson]
          exact ⟨rfl, fun he => absurd he (Option.some_ne_none _)⟩
        · rfl
      · obtain ⟨i, rfl⟩ := hown hbs hkb
        obtain ⟨i', rfl⟩ := hown hls hkl
        refine ih (hb.own hkb) (hl.own hkl) fun d hd hpre => ?_
        refine h (k :: d) ((hmem _).2 ⟨k, d, rfl, .inl ⟨_, hkb, ?_⟩⟩)
          (List.cons_prefix_cons.2 ⟨rfl, hpre⟩)
        rw [if_pos (by simp [has, hkl]), read_of_own hkl]
        exact hd
    · rw [eq_of_not_mem_places hobj fun hm => h [] hm List.nil_prefix]

mutual

/-- Of configurations that are the same nothing is reported. -/
theorem valueDiff_same : ∀ (b l : JsVal ν) (path : String), Distinct b → Same b l →
    valueDiff path b l = []
  | .obj bs, l, path, hb, hsame => by
    have hnil := hsame []
    cases l with
    | obj ls =>
      rw [valueDiff, keysDiff_same bs bs ls path hb (fun f hf => own_of_mem (hb [] bs rfl) hf) hsame,
        List.nil_append, liveDiff, List.flatMap_eq_nil_iff]
      intro f hf
      rw [if_pos]
      have hls : (own f.1 ls).isSome := own_isSome_iff.2 (List.mem_map.2 ⟨f, hf, rfl⟩)
      have hone := hsame [f.1]
      rw [shape_obj, shape_obj] at hone
      rcases hbs : own f.1 bs with _ | v
      · obtain ⟨w, hw⟩ := Option.isSome_iff_exists.1 hls
        rw [hbs, hw] at hone
        cases hone
      · rfl
    | _ => cases hnil
  | .undefined, l, path, _, hsame => by
    have hnil := hsame []
    cases l with
    | undefined => exact textDiff_self path _
    | _ => cases hnil
  | .func f, l, path, _, hsame => by
    have hnil := hsame []
    cases l with
    | func g =>
      cases hnil
      exact textDiff_self path _
    | _ => cases hnil
  | .json j, l, path, _, hsame => by
    have hnil := hsame []
    cases l with
    | json i =>
      cases hnil
      exact textDiff_self path _
    | _ => cases hnil

theorem keysDiff_same : ∀ (rest bs ls : List (String × JsVal ν)) (path : String),
    Distinct (.obj bs) → (∀ f ∈ rest, own f.1 bs = some f.2) → Same (.obj bs) (.obj ls) →
    keysDiff path rest ls = []
  | [], _, _, _, _, _, _ => rfl
  | (k, v) :: rest, bs, ls, path, hb, hrest, hsame => by
    have hk : own k bs = some v := hrest (k, v) List.mem_cons_self
    have hat : ∀ q, shape q v = (own k ls).bind (shape q) := by
      intro q
      have hq := hsame (k :: q)
      rw [shape_obj, shape_obj, hk] at hq
      exact hq
    rw [keysDiff,
      keysDiff_same rest bs ls path hb (fun f hf => hrest f (List.mem_cons_of_mem _ hf)) hsame]
    rcases hls : own k ls with _ | w
    · have hnil := hat []
      rw [hls] at hnil
      cases hnil
    · rw [if_pos (by simp [has, hls]), read_of_own hls,
        valueDiff_same v w (fullPath path k) (hb.own hk) fun q => by rw [hat q, hls]; rfl]
      rfl

end

end Places

section Segments

/-- The keys a path is split into again. -/
def segments (q : List String) : List String := splitPath (joinKeys "" q)

theorem fullPath_ne_empty {path : String} (h : path ≠ "") (k : String) : fullPath path k ≠ "" := by
  rw [fullPath, if_neg h]
  intro he
  have hlen := congrArg String.length he
  simp at hlen

theorem splitPath_joinKeys {path : String} (h : path ≠ "") (q : List String) :
    splitPath (joinKeys path q) = splitPath path ++ q.flatMap splitPath := by
  induction q generalizing path with
  | nil => simp [joinKeys]
  | cons k q ih =>
    rw [joinKeys, ih (fullPath_ne_empty h k), fullPath, if_neg h, splitPath_dotted,
      List.flatMap_cons, List.append_assoc]

theorem segments_cons {k : String} (hk : k ≠ "") (q : List String) :
    segments (k :: q) = (k :: q).flatMap splitPath := by
  rw [segments, joinKeys, fullPath, if_pos rfl, splitPath_joinKeys hk, List.flatMap_cons]

theorem segments_empty_cons (q : List String) : segments ("" :: q) = segments q := by
  rw [segments, joinKeys, fullPath, if_pos rfl]
  rfl

/-- A place that its path spells: no key has a dot, and the empty key is not the first of several. -/
structure Spelled (q : List String) : Prop where
  dots : ∀ k ∈ q, '.' ∉ k.toList
  first : q.head? = some "" → q = [""]

theorem Spelled.segments {q : List String} (h : Spelled q) (hq : q ≠ []) : segments q = q := by
  obtain ⟨k, r, rfl⟩ := List.exists_cons_of_ne_nil hq
  by_cases hk : k = ""
  · subst hk
    rw [h.first rfl]
    rfl
  · rw [segments_cons hk]
    have hsplit : ∀ l : List String, (∀ x ∈ l, '.' ∉ x.toList) → l.flatMap splitPath = l := by
      intro l hl
      induction l with
      | nil => rfl
      | cons x l ih =>
        rw [List.flatMap_cons, splitPath_of_not_mem (hl x List.mem_cons_self),
          ih fun y hy => hl y (List.mem_cons_of_mem _ hy)]
        rfl
    exact hsplit _ h.dots

/-- A key with a dot is on the way. -/
def Dotted (q : List String) : Prop := ∃ k ∈ q, '.' ∈ k.toList

theorem not_dotted_splitPath (s : String) : ¬ Dotted (splitPath s) := by
  rintro ⟨k, hk, hdot⟩
  obtain ⟨part, hpart, rfl⟩ := List.mem_map.1 hk
  rw [String.toList_ofList] at hdot
  exact Separated.not_mem_of_mem_splitOn _ part hpart hdot

theorem one_lt_length_splitPath {s : String} (h : '.' ∈ s.toList) : 1 < (splitPath s).length := by
  obtain ⟨x, y, hxy⟩ := List.append_of_mem h
  unfold splitPath
  rw [hxy, List.splitOn_append_cons_self, List.length_map, List.length_append]
  have hx := List.length_pos_of_ne_nil (List.splitOn_ne_nil '.' x)
  have hy := List.length_pos_of_ne_nil (List.splitOn_ne_nil '.' y)
  omega

theorem length_lt_of_dotted {q : List String} (h : Dotted q) :
    q.length < (q.flatMap splitPath).length := by
  have hle : ∀ l : List String, l.length ≤ (l.flatMap splitPath).length := by
    intro l
    induction l with
    | nil => exact Nat.le_refl _
    | cons k l ih =>
      have hk := List.length_pos_of_ne_nil (splitPath_ne_nil k)
      rw [List.flatMap_cons, List.length_append, List.length_cons]
      omega
  obtain ⟨k, hk, hdot⟩ := h
  obtain ⟨x, y, rfl⟩ := List.append_of_mem hk
  have h1 := one_lt_length_splitPath hdot
  have hx := hle x
  have hy := hle y
  rw [List.flatMap_append, List.flatMap_cons, List.length_append, List.length_append,
    List.length_append, List.length_cons]
  omega

/-- A path that begins with an empty key: of a first key with a dot, or of empty keys alone, once
the first empty keys are left out. -/
theorem head_segments {q : List String} (h : (segments q).head? = some "") :
    (∀ k ∈ q, k = "") ∨ Dotted q := by
  induction q with
  | nil => exact .inl fun k hk => by cases hk
  | cons k q ih =>
    by_cases hk : k = ""
    · subst hk
      rw [segments_empty_cons] at h
      rcases ih h with hall | ⟨x, hx, hdot⟩
      · exact .inl fun x hx => (List.mem_cons.1 hx).elim id (hall x)
      · exact .inr ⟨x, List.mem_cons_of_mem _ hx, hdot⟩
    · refine .inr ⟨k, List.mem_cons_self, ?_⟩
      by_contra hdot
      rw [segments_cons hk, List.flatMap_cons, splitPath_of_not_mem hdot] at h
      exact hk (Option.some.inj h)

theorem head_key {k : String} {q : List String} (h : (segments (k :: q)).head? = some "") :
    k = "" ∨ '.' ∈ k.toList := by
  by_contra hno
  rw [not_or] at hno
  rw [segments_cons hno.1, List.flatMap_cons, splitPath_of_not_mem hno.2] at h
  exact hno.1 (Option.some.inj h)

theorem segments_of_all_empty {q : List String} (h : ∀ k ∈ q, k = "") : segments q = [""] := by
  induction q with
  | nil => rfl
  | cons k q ih =>
    obtain rfl := h k List.mem_cons_self
    rw [segments_empty_cons]
    exact ih fun x hx => h x (List.mem_cons_of_mem _ hx)

theorem dotted_of_not_spelled {q : List String} (h : ¬ Spelled q) :
    Dotted q ∨ ∃ r, q = "" :: r ∧ r ≠ [] := by
  by_contra hno
  rw [not_or] at hno
  refine h ⟨fun k hk hdot => hno.1 ⟨k, hk, hdot⟩, fun hhead => ?_⟩
  rcases q with _ | ⟨k, r⟩
  · cases hhead
  · obtain rfl : k = "" := Option.some.inj hhead
    by_contra hr
    exact hno.2 ⟨r, rfl, fun he => hr (by rw [he])⟩

end Segments

end Drift

end VeriNode
