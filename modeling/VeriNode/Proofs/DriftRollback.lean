import VeriNode.Proofs.Drift

/-!
# What a rollback of drift restores

A rollback assigns the baseline's value at each reported path. Where the paths spell the places and
the baseline has something at each of them, every assignment makes one more place agree and the
defaults of the schema add nothing (`Updates.agrees`). Conversely, what was restored could be undone
(`Restores.undoable`).
-/

namespace VeriNode

namespace Drift

open JsVal Config

variable {ν : Type*} [JsonNumber ν]

section Runs

variable (schema : Schema ν) (valid : List (String × JsVal ν) → Bool)

/-- Updates of reported keys, each of which succeeds. -/
inductive Updates : List (RawDiff ν) → List (String × JsVal ν) → List (String × JsVal ν) → Prop
  | nil (live : List (String × JsVal ν)) : Updates [] live live
  | cons {d : RawDiff ν} {ds : List (RawDiff ν)} {live set live' : List (String × JsVal ν)} :
    setIn (splitPath d.path) d.baselineValue live = some set →
    Updates ds (applyDefaults schema set) live' → Updates (d :: ds) live live'

variable {schema valid}

omit [JsonNumber ν] in
theorem updates_of_not_skipped (ds : List (DriftedKey ν)) {p : Progress ν}
    (h : (ds.foldl (rollbackKey schema valid) p).skipped = []) : p.skipped = []
      ∧ Updates schema (ds.map (·.toRawDiff)) p.live
        (ds.foldl (rollbackKey schema valid) p).live := by
  induction ds generalizing p with
  | nil => exact ⟨h, .nil p.live⟩
  | cons d ds ih =>
    rw [List.foldl_cons] at h ⊢
    obtain ⟨hskip, hrun⟩ := ih h
    rcases hu : update schema valid d.path d.baselineValue p.live with _ | live
    · unfold rollbackKey at hskip
      rw [hu] at hskip
      exact absurd hskip (by simp)
    · have hkey : rollbackKey schema valid p d =
          { p with
            live
            restored := p.restored ++ [d.path]
            audited := p.audited ++ [(d.path, .rollback)] } := by
        unfold rollbackKey
        rw [hu]
      rw [hkey] at hskip hrun ⊢
      refine ⟨hskip, ?_⟩
      unfold update at hu
      obtain ⟨set, hset, hvalid⟩ := Option.bind_eq_some_iff.1 hu
      have hlive : applyDefaults schema set = live := by
        simp only [Option.ite_none_right_eq_some, Option.some.injEq] at hvalid
        exact hvalid.2
      refine .cons hset ?_
      rw [hlive]
      exact hrun

end Runs

variable {schema : Schema ν} {bs ls set live live' : List (String × JsVal ν)} {q : List String}
  {v : JsVal ν} {D : List String → Prop} {ds : List (RawDiff ν)}

section Forth

omit [JsonNumber ν] in
theorem lookAt_of_follow {b : JsVal ν} (h : follow q b = some v) : lookAt q b = v := by
  induction q generalizing b with
  | nil => exact Option.some.inj h
  | cons k q ih =>
    cases b with
    | obj fs =>
      rw [follow_obj] at h
      obtain ⟨w, hw, hv⟩ := Option.bind_eq_some_iff.1 h
      rw [lookAt, read_of_own hw]
      exact ih hv
    | _ => cases h

omit [JsonNumber ν] in
theorem follow_isObj {k : String} {r : List String} {b : JsVal ν}
    (h : (follow (q ++ k :: r) b).isSome) : ∃ fs, follow q b = some (.obj fs) := by
  rw [follow_append] at h
  rcases hq : follow q b with _ | w
  · rw [hq] at h
    cases h
  · rw [hq] at h
    cases w with
    | obj fs => exact ⟨fs, rfl⟩
    | _ => cases h

omit [JsonNumber ν] in
theorem Agrees.setIn (h : Agrees D bs live) (hv : follow q (.obj bs) = some v)
    (hset : setIn q v live = some set) : Agrees (fun d => D d ∧ d ≠ q) bs set := by
  intro r hr
  by_cases hqr : q <+: r
  · obtain ⟨t, rfl⟩ := hqr
    rw [shape_append, hv, shape, follow_setIn_below hset]
    rfl
  · by_cases hrq : r <+: q
    · obtain ⟨hs, hobj⟩ := follow_setIn_above hset hrq fun he => hqr (he ▸ List.prefix_refl _)
      obtain ⟨t, rfl⟩ := hrq
      rcases t with _ | ⟨k, t⟩
      · rw [List.append_nil] at hqr
        exact absurd (List.prefix_refl r) hqr
      · obtain ⟨fs, hfs⟩ := follow_isObj (b := .obj bs) (Option.isSome_iff_exists.2 ⟨v, hv⟩)
        rw [shape, shape, hobj, hfs]
        rfl
    · rw [shape, shape, follow_setIn_apart hset hqr hrq]
      refine h r fun d hd hpre => ?_
      by_cases hdq : d = q
      · exact hqr (hdq ▸ hpre)
      · exact hr d ⟨hd, hdq⟩ hpre

/-- No key was added, the paths spell the places, and no default is missing in the baseline. -/
structure Undoable (schema : Schema ν) (bs ls : List (String × JsVal ν)) : Prop where
  present : ∀ q ∈ places (.obj bs) (.obj ls), (follow q (.obj bs)).isSome
  spelled : ∀ q ∈ places (.obj bs) (.obj ls), Spelled q
  complete : Complete schema bs

theorem not_mem_places_nil (hb : Distinct (.obj bs)) (hl : Distinct (.obj ls)) :
    [] ∉ places (.obj bs) (.obj ls) := by
  intro h
  obtain ⟨k, q', he, -⟩ := (mem_places_obj (hb [] bs rfl) (hl [] ls rfl)).1 h
  cases he

theorem Updates.agrees (hb : Distinct (.obj bs)) (hl : Distinct (.obj ls))
    (hu : Undoable schema bs ls) (hrun : Updates schema ds live live')
    (hds : ∀ d ∈ ds, ∃ q ∈ places (.obj bs) (.obj ls), d = reported "" (.obj bs) (.obj ls) q)
    (h : Agrees (fun q => q ∈ places (.obj bs) (.obj ls)
      ∧ reported "" (.obj bs) (.obj ls) q ∈ ds) bs live) :
    Agrees (fun _ => False) bs live' := by
  induction hrun with
  | nil live =>
    intro r hr
    exact h r fun d hd => absurd hd.2 List.not_mem_nil
  | cons hset hrun ih =>
    rename_i d ds live set live'
    obtain ⟨q, hq, rfl⟩ := hds _ List.mem_cons_self
    have hne : ∀ r ∈ places (.obj bs) (.obj ls), r ≠ [] := fun r hr he =>
      not_mem_places_nil hb hl (he ▸ hr)
    have hspelled : ∀ r ∈ places (.obj bs) (.obj ls), segments r = r := fun r hr =>
      (hu.spelled r hr).segments (hne r hr)
    obtain ⟨v, hv⟩ := Option.isSome_iff_exists.1 (hu.present q hq)
    have hset' : Config.setIn q v live = some set := by
      rw [reported, lookAt_of_follow hv] at hset
      rw [← hset]
      exact congrArg (Config.setIn · v live) (hspelled q hq).symm
    refine ih (fun d hd => hds d (List.mem_cons_of_mem _ hd)) ?_
    refine Agrees.applyDefaults schema hu.complete (fun hnil => hne [] hnil.1 rfl) ?_
    intro r hr
    refine Agrees.setIn h hv hset' r fun d hd => ?_
    obtain ⟨⟨hmem, hin⟩, hdq⟩ := hd
    refine hr d ⟨hmem, (List.mem_cons.1 hin).resolve_left fun he => hdq ?_⟩
    -- two places with one path are one place
    have hpath : joinKeys "" d = joinKeys "" q := congrArg RawDiff.path he
    rw [← hspelled d hmem, ← hspelled q hq, segments, segments, hpath]

end Forth

section Back

omit [JsonNumber ν]

theorem dotless_of_dotted (h : Dotted q) : dotless q = false := by
  obtain ⟨k, hk, hdot⟩ := h
  rw [dotless, List.all_eq_false]
  exact ⟨k, hk, by simp [hdot]⟩

theorem dotless_empty (q : List String) : dotless ("" :: q) = false := rfl

theorem Dotted.of_append {p r : List String} (h : Dotted (p ++ r)) (hp : ¬ Dotted p) : Dotted r := by
  obtain ⟨k, hk, hdot⟩ := h
  exact (List.mem_append.1 hk).elim (fun hm => absurd ⟨k, hm, hdot⟩ hp) fun hm => ⟨k, hm, hdot⟩

theorem Updates.trace (hnamed : schema.named = true) (hrun : Updates schema ds live live')
    (hq : Dotted q) :
    (∃ d ∈ ds, ∃ t, q = splitPath d.path ++ t
      ∧ follow q (.obj live') = follow t d.baselineValue)
    ∨ ((∀ d ∈ ds, ¬ splitPath d.path <+: q) ∧ follow q (.obj live') = follow q (.obj live)) := by
  induction hrun with
  | nil live => exact .inr ⟨fun d hd => absurd hd List.not_mem_nil, rfl⟩
  | cons hset hrun ih =>
    rename_i d ds live set live'
    rcases ih with ⟨e, he, hlater⟩ | ⟨hnone, hkept⟩
    · exact .inl ⟨e, List.mem_cons_of_mem _ he, hlater⟩
    · rw [applyDefaults_kept schema hnamed (dotless_of_dotted hq)] at hkept
      by_cases hpre : splitPath d.path <+: q
      · obtain ⟨t, rfl⟩ := hpre
        exact .inl ⟨d, List.mem_cons_self, t, rfl, hkept.trans (follow_setIn_below hset t)⟩
      · refine .inr ⟨fun e he => ?_, hkept.trans (follow_setIn_apart hset hpre fun habove => ?_)⟩
        · rcases List.mem_cons.1 he with rfl | he
          · exact hpre
          · exact hnone e he
        · obtain ⟨k, hk, hdot⟩ := hq
          exact not_dotted_splitPath d.path ⟨k, habove.subset hk, hdot⟩

theorem Updates.empty_kept (hnamed : schema.named = true) (hrun : Updates schema ds live live')
    (hds : ∀ d ∈ ds, (splitPath d.path).head? ≠ some "") (q : List String) :
    follow ("" :: q) (.obj live') = follow ("" :: q) (.obj live) := by
  induction hrun with
  | nil live => rfl
  | cons hset hrun ih =>
    rename_i d ds live set live'
    have hhead := hds d List.mem_cons_self
    rw [ih fun e he => hds e (List.mem_cons_of_mem _ he),
      applyDefaults_kept schema hnamed (dotless_empty q)]
    obtain ⟨k, p, hp⟩ := List.exists_cons_of_ne_nil (splitPath_ne_nil d.path)
    rw [hp] at hset hhead
    refine follow_setIn_apart hset (fun hpre => ?_) fun hpre => ?_
    · exact hhead (congrArg some (List.cons_prefix_cons.1 hpre).1)
    · exact hhead (congrArg some (List.cons_prefix_cons.1 hpre).1.symm)

theorem Updates.complete (hnamed : schema.named = true) (hrun : Updates schema ds live live')
    (hds : ds ≠ []) : Complete schema live' := by
  induction hrun with
  | nil live => exact absurd rfl hds
  | cons hset hrun ih =>
    rename_i d ds live set live'
    rcases ds with _ | ⟨e, ds⟩
    · cases hrun
      exact complete_applyDefaults schema (schema.distinct_of_named hnamed) set
    · exact ih (List.cons_ne_nil _ _)

theorem Updates.isSome (hrun : Updates schema ds live live')
    (hds : ∀ d ∈ ds, splitPath d.path <+: q → splitPath d.path = q)
    (hq : (follow q (.obj live)).isSome) : (follow q (.obj live')).isSome := by
  induction hrun with
  | nil live => exact hq
  | cons hset hrun ih =>
    rename_i d ds live set live'
    exact ih (fun e he => hds e (List.mem_cons_of_mem _ he))
      (isSome_applyDefaults schema (isSome_setIn hset (hds d List.mem_cons_self) hq))

theorem Updates.last_empty (hrun : Updates schema ds live live')
    (hds : ∃ d ∈ ds, (splitPath d.path).head? = some "") :
    ∃ d ∈ ds, ∃ ds2 before set, (splitPath d.path).head? = some ""
      ∧ (∀ e ∈ ds2, (splitPath e.path).head? ≠ some "")
      ∧ setIn (splitPath d.path) d.baselineValue before = some set
      ∧ Updates schema ds2 (applyDefaults schema set) live' := by
  induction hrun with
  | nil live =>
    obtain ⟨d, hd, -⟩ := hds
    cases hd
  | cons hset hrun ih =>
    rename_i d ds live set live'
    by_cases hlater : ∃ e ∈ ds, (splitPath e.path).head? = some ""
    · obtain ⟨e, he, hlast⟩ := ih hlater
      exact ⟨e, List.mem_cons_of_mem _ he, hlast⟩
    · obtain ⟨e, he, hhead⟩ := hds
      have hed : e = d := (List.mem_cons.1 he).resolve_right fun hm => hlater ⟨e, hm, hhead⟩
      subst hed
      exact ⟨e, List.mem_cons_self, ds, live, set, hhead, fun x hx hxh => hlater ⟨x, hx, hxh⟩,
        hset, hrun⟩

end Back

section Restores

omit [JsonNumber ν] in
theorem lookAt_of_none {b : JsVal ν} (h : follow q b = none) :
    lookAt q b = .undefined ∨ ∃ f, lookAt q b = .func f := by
  induction q generalizing b with
  | nil => cases h
  | cons k q ih =>
    cases b with
    | obj fs =>
      rw [lookAt]
      rcases hk : own k fs with _ | v
      · unfold JsVal.read
        rw [hk]
        split_ifs
        · rcases q with _ | ⟨a, q⟩
          · exact .inr ⟨k, rfl⟩
          · exact .inl rfl
        · rcases q with _ | ⟨a, q⟩
          · exact .inl rfl
          · exact .inl rfl
      · rw [read_of_own hk]
        rw [follow_obj, hk] at h
        exact ih h
    | _ => exact .inl rfl

/-- A rollback that made every update and restored the baseline. -/
structure Restores (schema : Schema ν) (bs ls live : List (String × JsVal ν)) : Prop where
  json : ∃ fields, ofFields fields = bs
  distinct : Distinct (.obj bs)
  distinct' : Distinct (.obj ls)
  named : schema.named = true
  run : Updates schema ((places (.obj bs) (.obj ls)).map (reported "" (.obj bs) (.obj ls))) ls live
  same : Same (.obj bs) (.obj live)

namespace Restores

variable {k : String} {e p t : List String}

theorem moved (h : Restores schema bs ls live) (hq : q ∈ places (.obj bs) (.obj ls)) :
    follow q (.obj live) ≠ follow q (.obj ls) := by
  intro he
  refine shape_ne_of_mem_places h.distinct h.distinct' hq ?_
  rw [h.same q, shape, shape, he]

theorem present_iff (h : Restores schema bs ls live) :
    (follow q (.obj live)).isSome ↔ (follow q (.obj bs)).isSome := by
  have hshape := h.same q
  rw [shape, shape] at hshape
  rw [← Option.isSome_map (f := node), ← hshape, Option.isSome_map]

theorem node_ne (h : Restores schema bs ls live) (hv : shape q (.obj bs) = some (node v)) :
    v ≠ .undefined ∧ ∀ f, v ≠ .func f := by
  obtain ⟨fields, rfl⟩ := h.json
  obtain ⟨w, hw, hnode⟩ := Option.map_eq_some_iff.1 hv
  obtain ⟨j, rfl⟩ := follow_ofJson (j := .obj fields) hw
  constructor
  · rintro rfl
    cases j <;> cases hnode
  · rintro f rfl
    cases j <;> cases hnode

theorem fixed (h : Restores schema bs ls live) (hq : q ∈ places (.obj bs) (.obj ls))
    (hdot : Dotted q) : ∃ e ∈ places (.obj bs) (.obj ls), segments e <+: q := by
  rcases h.run.trace h.named hdot with ⟨d, hd, t, hqt, -⟩ | ⟨-, hkept⟩
  · obtain ⟨e, he, rfl⟩ := List.mem_map.1 hd
    exact ⟨e, he, t, hqt.symm⟩
  · exact absurd hkept (h.moved hq)

theorem first_key (h : Restores schema bs ls live) (hq : k :: q ∈ places (.obj bs) (.obj ls)) :
    '.' ∉ k.toList := by
  intro hdot
  obtain ⟨e, -, hpre⟩ := h.fixed hq ⟨k, List.mem_cons_self, hdot⟩
  obtain ⟨a, p, hp⟩ := List.exists_cons_of_ne_nil (splitPath_ne_nil (joinKeys "" e))
  rw [segments, hp] at hpre
  obtain ⟨rfl, -⟩ := List.cons_prefix_cons.1 hpre
  exact not_dotted_splitPath (joinKeys "" e) ⟨a, hp ▸ List.mem_cons_self, hdot⟩

theorem head (h : Restores schema bs ls live) (he : e ∈ places (.obj bs) (.obj ls))
    (hhead : (segments e).head? = some "") : ∃ r, e = "" :: r := by
  rcases e with _ | ⟨k, r⟩
  · exact absurd he (not_mem_places_nil h.distinct h.distinct')
  · rcases head_key hhead with rfl | hdot
    · exact ⟨r, rfl⟩
    · exact absurd hdot (h.first_key he)

/-- An update above a place with a dot that the baseline has brought what stands in the baseline
at the update's own place. -/
theorem source (h : Restores schema bs ls live) (hdot : Dotted q)
    (hq : (follow q (.obj bs)).isSome)
    (habove : ∃ e ∈ places (.obj bs) (.obj ls), segments e <+: q) :
    ∃ e ∈ places (.obj bs) (.obj ls), ∃ s, q = segments e ++ s ∧ Dotted s
      ∧ ∀ t, (follow (q ++ t) (.obj bs)).isSome → (follow (e ++ s ++ t) (.obj bs)).isSome := by
  rcases h.run.trace h.named hdot with ⟨d, hd, s, hqs, hfollow⟩ | ⟨hnone, -⟩
  · obtain ⟨e, he, rfl⟩ := List.mem_map.1 hd
    have hs : Dotted s := (hqs ▸ hdot : Dotted (_ ++ s)).of_append (not_dotted_splitPath _)
    refine ⟨e, he, s, hqs, hs, fun t ht => ?_⟩
    obtain ⟨a, s', rfl⟩ : ∃ a s', s = a :: s' := by
      obtain ⟨k, hk, -⟩ := hs
      rcases s with _ | ⟨a, s'⟩
      · cases hk
      · exact ⟨a, s', rfl⟩
    rcases hv : follow e (.obj bs) with _ | w
    · -- what is not there cannot have brought anything
      rw [← h.present_iff, hfollow] at hq
      rcases lookAt_of_none hv with hu | ⟨f, hf⟩
      · rw [reported, hu] at hq
        cases hq
      · rw [reported, hf] at hq
        cases hq
    · rw [← h.present_iff, follow_append, hfollow, reported, lookAt_of_follow hv] at ht
      rw [follow_append, follow_append, hv]
      exact ht
  · obtain ⟨e, he, hpre⟩ := habove
    exact absurd hpre (hnone _ (List.mem_map.2 ⟨e, he, rfl⟩))

/-- Nothing below the empty key can have come from a place with a dot: that place would have come
from one that has more below it, or lies deeper. -/
theorem no_deep (h : Restores schema bs ls live) (hempty : [""] ∉ places (.obj bs) (.obj ls))
    (hdot : Dotted q) (hhead : q.head? = some "") (hq : (follow (q ++ t) (.obj bs)).isSome)
    (habove : ∃ e ∈ places (.obj bs) (.obj ls), segments e <+: q) : False := by
  obtain ⟨n, hn⟩ := exists_height (.obj bs)
  induction hm : (n + 1) * (n - t.length) + (n - q.length) using Nat.strong_induction_on
    generalizing q t with
  | _ m ih =>
    subst hm
    have hlen := hn _ hq
    rw [List.length_append] at hlen
    obtain ⟨e, he, s, rfl, hs, hbelow⟩ := h.source hdot (follow_isSome_of_append hq) habove
    have hrt := hbelow t hq
    have hlen' := hn _ hrt
    rw [List.length_append, List.length_append] at hlen'
    have hs0 : 0 < s.length := by
      obtain ⟨k, hk, -⟩ := hs
      exact List.length_pos_of_mem hk
    have hehead : (segments e).head? = some "" := by
      obtain ⟨a, p, hp⟩ := List.exists_cons_of_ne_nil (splitPath_ne_nil (joinKeys "" e))
      rw [segments, hp] at hhead ⊢
      exact hhead
    obtain ⟨r, rfl⟩ := h.head he hehead
    by_cases hedot : Dotted ("" :: r)
    · refine ih _ ?_ (q := "" :: r) (t := s ++ t) hedot rfl ?_ (h.fixed he hedot) rfl
      · have hmul : (n + 1) * (n - (s ++ t).length + 1) ≤ (n + 1) * (n - t.length) := by
          refine Nat.mul_le_mul_left _ ?_
          rw [List.length_append]
          omega
        rw [Nat.mul_add] at hmul
        omega
      · rw [← List.append_assoc]
        exact hrt
    · -- empty keys alone: the same again, further down
      have hall := (head_segments hehead).resolve_right hedot
      have hseg := segments_of_all_empty hall
      rw [hseg] at hlen hdot ih
      rcases r with _ | ⟨a, r⟩
      · exact hempty he
      · refine ih _ ?_ (q := ("" :: a :: r) ++ s) (t := t) ?_ rfl hrt ⟨_, he, ?_⟩ rfl
        · simp only [List.length_append, List.length_cons, List.length_nil] at hlen hlen' ⊢
          omega
        · obtain ⟨k, hk, hkd⟩ := hs
          exact ⟨k, List.mem_append_right _ hk, hkd⟩
        · rw [hseg]
          exact ⟨a :: r ++ s, rfl⟩

/-- No path begins with an empty key, unless it is the empty key itself. -/
theorem no_empty (h : Restores schema bs ls live) (hempty : [""] ∉ places (.obj bs) (.obj ls))
    (he : e ∈ places (.obj bs) (.obj ls)) : (segments e).head? ≠ some "" := by
  intro hhead
  obtain ⟨d, hd, ds2, before, set, hhead, hlater, hset, hrun⟩ :=
    h.run.last_empty ⟨_, List.mem_map.2 ⟨e, he, rfl⟩, hhead⟩
  obtain ⟨e, he, rfl⟩ := List.mem_map.1 hd
  obtain ⟨r, rfl⟩ := h.head he hhead
  obtain ⟨a, p, hp⟩ := List.exists_cons_of_ne_nil (splitPath_ne_nil (joinKeys "" ("" :: r)))
  obtain rfl : a = "" := by
    rw [reported, hp] at hhead
    exact Option.some.inj hhead
  -- what the last of them brought stands there in the end
  have hlast : ∀ t, follow (("" :: p) ++ t) (.obj live)
      = follow t (lookAt ("" :: r) (.obj bs)) := by
    intro t
    rw [List.cons_append, hrun.empty_kept h.named hlater,
      applyDefaults_kept schema h.named (dotless_empty _), ← List.cons_append, ← hp]
    exact follow_setIn_below hset t
  have hnode : shape ("" :: p) (.obj bs) = some (node (lookAt ("" :: r) (.obj bs))) := by
    have hnil := hlast []
    rw [List.append_nil] at hnil
    rw [h.same, shape, hnil]
    rfl
  rcases hv : follow ("" :: r) (.obj bs) with _ | v
  · obtain ⟨hu, hf⟩ := h.node_ne hnode
    rcases lookAt_of_none hv with hundef | ⟨f, hfunc⟩
    · exact hu hundef
    · exact hf f hfunc
  · by_cases hdot : Dotted ("" :: r)
    · refine h.no_deep (t := []) hempty hdot rfl ?_ (h.fixed he hdot)
      rw [List.append_nil, hv]
      rfl
    · -- the baseline would contain itself
      have hseg := segments_of_all_empty ((head_segments hhead).resolve_right hdot)
      obtain rfl : p = [] := by
        rw [segments, hp] at hseg
        exact (List.cons.inj hseg).2
      have hdeep : ∀ n, ∃ t, n ≤ t.length ∧ (follow ("" :: t) (.obj bs)).isSome := by
        intro n
        induction n with
        | zero => exact ⟨r, Nat.zero_le _, by rw [hv]; rfl⟩
        | succ n ih =>
          obtain ⟨t, ht, hsome⟩ := ih
          refine ⟨r ++ t, ?_, ?_⟩
          · rcases r with _ | ⟨b, r⟩
            · exact absurd he hempty
            · rw [List.length_append, List.length_cons]
              omega
          · have hlive := hlast t
            rw [lookAt_of_follow hv] at hlive
            rw [← h.present_iff, show "" :: t = [""] ++ t from rfl, hlive] at hsome
            rw [← List.cons_append, follow_append, hv]
            exact hsome
      obtain ⟨n, hn⟩ := exists_height (.obj bs)
      obtain ⟨t, ht, hsome⟩ := hdeep n
      have hlen := hn _ hsome
      rw [List.length_cons] at hlen
      omega

theorem not_below_empty (h : Restores schema bs ls live)
    (hq : "" :: q ∈ places (.obj bs) (.obj ls)) : q = [] := by
  by_contra hne
  have hempty : [""] ∉ places (.obj bs) (.obj ls) := by
    intro hm
    have he := eq_of_isPrefix_of_mem_places h.distinct h.distinct' hm hq ⟨q, rfl⟩
    exact hne (List.cons.inj he).2.symm
  refine h.moved hq (h.run.empty_kept h.named (fun d hd => ?_) q)
  obtain ⟨e, he, rfl⟩ := List.mem_map.1 hd
  exact h.no_empty hempty he

theorem not_dotted (h : Restores schema bs ls live) (hq : q ∈ places (.obj bs) (.obj ls)) :
    ¬ Dotted q := by
  intro hdot
  induction hm : q.length using Nat.strong_induction_on generalizing q with
  | _ m ih =>
    subst hm
    obtain ⟨e, he, hpre⟩ := h.fixed hq hdot
    have hne : e ≠ [] := fun hnil => not_mem_places_nil h.distinct h.distinct' (hnil ▸ he)
    by_cases hspelled : Spelled e
    · rw [hspelled.segments hne] at hpre
      obtain rfl := eq_of_isPrefix_of_mem_places h.distinct h.distinct' he hq hpre
      obtain ⟨k, hk, hkd⟩ := hdot
      exact hspelled.dots k hk hkd
    · rcases dotted_of_not_spelled hspelled with hedot | ⟨r, rfl, hr⟩
      · refine ih e.length ?_ he hedot rfl
        obtain ⟨k, r, rfl⟩ := List.exists_cons_of_ne_nil hne
        have hk : k ≠ "" := by
          rintro rfl
          obtain rfl := h.not_below_empty he
          obtain ⟨x, hx, hxd⟩ := hedot
          rw [List.mem_singleton.1 hx] at hxd
          cases hxd
        have hlt := length_lt_of_dotted hedot
        rw [segments_cons hk] at hpre
        exact Nat.lt_of_lt_of_le hlt hpre.length_le
      · exact hr (h.not_below_empty he)

theorem spelled (h : Restores schema bs ls live) (hq : q ∈ places (.obj bs) (.obj ls)) :
    Spelled q := by
  by_contra hno
  rcases dotted_of_not_spelled hno with hdot | ⟨r, rfl, hr⟩
  · exact h.not_dotted hq hdot
  · exact hr (h.not_below_empty hq)

theorem present (h : Restores schema bs ls live) (hq : q ∈ places (.obj bs) (.obj ls)) :
    (follow q (.obj bs)).isSome := by
  rw [← h.present_iff]
  rcases hls : follow q (.obj ls) with _ | w
  · rw [← Option.ne_none_iff_isSome, ← hls]
    exact h.moved hq
  · refine h.run.isSome (fun d hd hpre => ?_) (by rw [hls]; rfl)
    obtain ⟨e, he, rfl⟩ := List.mem_map.1 hd
    have hseg : splitPath (joinKeys "" e) = e := (h.spelled he).segments fun hnil =>
      not_mem_places_nil h.distinct h.distinct' (hnil ▸ he)
    rw [reported, hseg] at hpre ⊢
    exact eq_of_isPrefix_of_mem_places h.distinct h.distinct' he hq hpre

theorem undoable (h : Restores schema bs ls live) (hne : places (.obj bs) (.obj ls) ≠ []) :
    Undoable schema bs ls where
  present _ hq := h.present hq
  spelled _ hq := h.spelled hq
  complete := by
    refine Complete.congr schema (h.run.complete h.named ?_) fun q => (h.same q).symm
    rw [ne_eq, List.map_eq_nil_iff]
    exact hne

end Restores

end Restores

section Restored

/-- The baseline stands again, and no drift is reported. -/
def Restored (baseline live : List (String × JsVal ν)) : Prop :=
  Same (.obj baseline) (.obj live) ∧ deepDiff baseline live "" = []

variable {valid : List (String × JsVal ν) → Bool} {baselineId : String} {detectedAt : JsDate}
  {permissions : List AuditPermission} {result : RollbackResult}

omit [JsonNumber ν] in
theorem distinct_value (b : PlainObject ν) : Distinct (.obj b.value) :=
  distinct_ofJson b.wellFormed

theorem updates_of_rollback {b c : PlainObject ν} (hrun : rollback schema valid
      (report baselineId detectedAt b.value c.value) permissions false c.value
        = .ok (result, live))
    (hskip : result.skipped = []) :
    Updates schema ((places (.obj b.value) (.obj c.value)).map
      (reported "" (.obj b.value) (.obj c.value))) c.value live := by
  unfold rollback at hrun
  rw [if_neg Bool.false_ne_true] at hrun
  split_ifs at hrun with hperm
  obtain ⟨rfl, rfl⟩ := Prod.mk.inj (Except.ok.inj hrun)
  have hupdates := (updates_of_not_skipped _ hskip).2
  rw [← deepDiff_eq (distinct_value b) (distinct_value c)]
  rw [report, List.map_map] at hupdates
  rwa [show DriftedKey.toRawDiff ∘ _ = id from rfl, List.map_id] at hupdates

/-- A rollback restores the baseline exactly when nothing had drifted, or what had drifted can be
undone. -/
theorem rollback_restores_iff (schema : Schema ν) (hnamed : schema.named = true)
    (valid : List (String × JsVal ν) → Bool) (b c : PlainObject ν) (baselineId : String)
    (detectedAt : JsDate) (permissions : List AuditPermission) {result : RollbackResult}
    {live : List (String × JsVal ν)}
    (hrun : rollback schema valid (report baselineId detectedAt b.value c.value) permissions false
      c.value = .ok (result, live))
    (hskip : result.skipped = []) :
    Restored b.value live ↔
      deepDiff b.value c.value "" = [] ∨ Undoable schema b.value c.value := by
  have hb := distinct_value b
  have hc := distinct_value c
  have hupdates := updates_of_rollback hrun hskip
  have hrestored : Agrees (fun _ => False) b.value live → Restored b.value live := by
    intro h
    have hsame : Same (.obj b.value) (.obj live) := fun q => h q fun d hd => hd.elim
    exact ⟨hsame, valueDiff_same _ _ "" hb hsame⟩
  have hapart : Agrees (fun q => q ∈ places (.obj b.value) (.obj c.value)) b.value c.value := by
    intro q hq
    rw [b.obj_value, c.obj_value] at hq ⊢
    rw [b.obj_value] at hb
    rw [c.obj_value] at hc
    exact shape_eq_of_apart hb hc hq
  rw [deepDiff_eq hb hc, List.map_eq_nil_iff]
  constructor
  · rintro ⟨hsame, -⟩
    have h : Restores schema b.value c.value live :=
      ⟨⟨b.fields, rfl⟩, hb, hc, hnamed, hupdates, hsame⟩
    exact Classical.or_iff_not_imp_left.2 h.undoable
  · rintro (hnil | hu)
    · refine hrestored ?_
      rw [hnil] at hupdates hapart
      cases hupdates
      exact fun q hq => hapart q fun d hd => absurd hd List.not_mem_nil
    · refine hrestored (hupdates.agrees hb hc hu (fun d hd => ?_) fun q hq => ?_)
      · obtain ⟨q, hq, rfl⟩ := List.mem_map.1 hd
        exact ⟨q, hq, rfl⟩
      · exact hapart q fun d hd => hq d ⟨hd, List.mem_map.2 ⟨d, hd, rfl⟩⟩

def appOnly : Schema ℕ := section_ [("app", appSchema)]

/-- A configuration of the application, with settings that no schema names. -/
def appSettings (port : ℕ) (more : List (String × Json ℕ)) : Json ℕ :=
  .obj ([("port", .num port), ("environment", .str "production"), ("logLevel", .str "info")] ++ more)

def appBaseline : PlainObject ℕ := ⟨[("app", appSettings 3000 [])], by decide, by decide⟩

def appMoved : PlainObject ℕ := ⟨[("app", appSettings 8080 [])], by decide, by decide⟩

def appAdded : PlainObject ℕ :=
  ⟨[("app", appSettings 3000 [("debug", .bool true)])], by decide, by decide⟩

def appRollback (c : PlainObject ℕ) :
    Except ForbiddenError (RollbackResult × List (String × JsVal ℕ)) :=
  rollback appOnly (fun _ => true) (report "b1" ⟨0, by decide⟩ appBaseline.value c.value)
    [.configRollbackWrite] false c.value

/-- A port that was moved is moved back. -/
theorem rollback_restores_port : ∃ result live, appRollback appMoved = .ok (result, live)
    ∧ result.restored = ["app.port"] ∧ result.skipped = []
    ∧ (Restored appBaseline.value live ↔ deepDiff appBaseline.value appMoved.value "" = []
      ∨ Undoable appOnly appBaseline.value appMoved.value) := by
  have hpaths : (appRollback appMoved).toOption.map (fun r => (r.1.restored, r.1.skipped))
      = some (["app.port"], []) := by decide +kernel
  rcases hrun : appRollback appMoved with e | ⟨result, live⟩
  · rw [hrun] at hpaths
    cases hpaths
  · rw [hrun] at hpaths
    obtain ⟨hrestored, hskip⟩ := Prod.mk.inj (Option.some.inj hpaths)
    exact ⟨result, live, rfl, hrestored, hskip, rollback_restores_iff appOnly (by decide)
      (fun _ => true) appBaseline appMoved "b1" ⟨0, by decide⟩ [.configRollbackWrite] hrun hskip⟩

/-- A setting that was added stays, as `undefined`. -/
theorem rollback_leaves_added : ∃ result live, appRollback appAdded = .ok (result, live)
    ∧ result.skipped = [] ∧ ¬ Restored appBaseline.value live := by
  have hleft : (appRollback appAdded).toOption.map
      (fun r => (r.1.skipped, (follow ["app", "debug"] (.obj r.2)).isSome))
      = some ([], true) := by decide +kernel
  rcases hrun : appRollback appAdded with e | ⟨result, live⟩
  · rw [hrun] at hleft
    cases hleft
  · rw [hrun] at hleft
    obtain ⟨hskip, hdebug⟩ := Prod.mk.inj (Option.some.inj hleft)
    refine ⟨result, live, rfl, hskip, fun hrestored => ?_⟩
    have hsame := hrestored.1 ["app", "debug"]
    obtain ⟨v, hv⟩ := Option.isSome_iff_exists.1 hdebug
    rw [shape, shape, hv] at hsame
    cases hsame

end Restored

end Drift

end VeriNode
