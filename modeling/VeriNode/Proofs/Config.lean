import VeriNode.Config.Schema

/-!
# Updates, place by place

What `setIn` leaves at each place (`follow_setIn_below`, `_above`, `_apart`), and what the defaults
do: nothing to a configuration that is complete, and nothing at the places no schema names.
-/

namespace VeriNode

namespace Config

open JsVal

variable {ν : Type*}

section SetIn

variable {k : String} {p q r : List String} {v w : JsVal ν}
variable {fs gs inner : List (String × JsVal ν)}

/-- One step down a path: into an object that is there, or into a new one. -/
theorem setIn_cons (hp : p ≠ []) (h : setIn (k :: p) v fs = some gs) :
    ∃ inner i, setIn p v inner = some i ∧ gs = assign k (.obj i) fs
      ∧ ∀ q, q ≠ [] → follow (k :: q) (.obj fs) = follow q (.obj inner) := by
  obtain ⟨a, p, rfl⟩ := List.exists_cons_of_ne_nil hp
  have hproto : k ≠ "__proto__" := by
    rintro rfl
    simp [setIn] at h
  have hnew : own k fs = none ∨ (∃ w, own k fs = some w ∧ ∀ q, q ≠ [] → follow q w = none) →
      ∀ q, q ≠ [] → follow (k :: q) (.obj fs) = follow q (.obj ([] : List (String × JsVal ν))) := by
    rintro hk q hq
    obtain ⟨b, q, rfl⟩ := List.exists_cons_of_ne_nil hq
    rw [follow_obj, follow_obj, own_nil]
    rcases hk with hk | ⟨w, hk, hw⟩
    · rw [hk]
      rfl
    · rw [hk, Option.bind_some, hw _ (List.cons_ne_nil _ _)]
      rfl
  rw [setIn, if_neg hproto] at h
  · rcases hk : own k fs with _ | w
    · rw [hk] at h
      simp only at h
      rw [Option.ite_none_left_eq_some] at h
      obtain ⟨i, hi, rfl⟩ := Option.map_eq_some_iff.1 h.2
      exact ⟨[], i, hi, rfl, hnew (.inl hk)⟩
    · rw [hk] at h
      have hleaf : (∀ q, q ≠ [] → follow q w = none) →
          (setIn (a :: p) v []).map (fun i => assign k (.obj i) fs) = some gs →
          ∃ inner i, setIn (a :: p) v inner = some i ∧ gs = assign k (.obj i) fs
            ∧ ∀ q, q ≠ [] → follow (k :: q) (.obj fs) = follow q (.obj inner) := by
        intro hw hmap
        obtain ⟨i, hi, rfl⟩ := Option.map_eq_some_iff.1 hmap
        exact ⟨[], i, hi, rfl, hnew (.inr ⟨w, hk, hw⟩)⟩
      cases w with
      | obj inner =>
        obtain ⟨i, hi, rfl⟩ := Option.map_eq_some_iff.1 h
        refine ⟨inner, i, hi, rfl, fun q _ => ?_⟩
        rw [follow_obj, hk, Option.bind_some]
      | undefined => exact hleaf (fun q hq => by cases q <;> simp_all [follow]) h
      | func f => cases h
      | json j =>
        cases j with
        | null => exact hleaf (fun q hq => by cases q <;> simp_all [follow]) h
        | _ => cases h
  · exact fun he => absurd he (List.cons_ne_nil _ _)

theorem setIn_singleton (h : setIn [k] v fs = some gs) : gs = assign k v fs := by
  rw [setIn, Option.ite_none_left_eq_some] at h
  exact (Option.some.inj h.2).symm

theorem follow_setIn_below (h : setIn p v fs = some gs) (r : List String) :
    follow (p ++ r) (.obj gs) = follow r v := by
  induction p generalizing fs gs with
  | nil => cases h
  | cons k p ih =>
    rcases eq_or_ne p [] with rfl | hp
    · rw [setIn_singleton h, List.cons_append, List.nil_append, follow_obj, own_assign_self]
      rfl
    · obtain ⟨inner, i, hi, rfl, -⟩ := setIn_cons hp h
      rw [List.cons_append, follow_obj, own_assign_self]
      exact ih hi

theorem follow_setIn_above (h : setIn p v fs = some gs) (hq : q <+: p) (hne : q ≠ p) :
    ∃ hs, follow q (.obj gs) = some (.obj hs) := by
  induction p generalizing fs gs q with
  | nil => cases h
  | cons k p ih =>
    rcases q with _ | ⟨k', q⟩
    · exact ⟨gs, rfl⟩
    · obtain ⟨rfl, hpre⟩ := List.cons_prefix_cons.1 hq
      have hne' : q ≠ p := fun he => hne (he ▸ rfl)
      have hp : p ≠ [] := by
        rintro rfl
        exact hne' (List.prefix_nil.1 hpre)
      obtain ⟨inner, i, hi, rfl, -⟩ := setIn_cons hp h
      rw [follow_obj, own_assign_self]
      exact ih hi hpre hne'

theorem follow_setIn_apart (h : setIn p v fs = some gs) (hpq : ¬ p <+: q) (hqp : ¬ q <+: p) :
    follow q (.obj gs) = follow q (.obj fs) := by
  induction p generalizing fs gs q with
  | nil => cases h
  | cons k p ih =>
    rcases q with _ | ⟨k', q⟩
    · exact absurd List.nil_prefix hqp
    · by_cases hk : k' = k
      · subst hk
        rw [List.cons_prefix_cons] at hpq hqp
        have hp : p ≠ [] := by
          rintro rfl
          exact hpq ⟨rfl, List.nil_prefix⟩
        have hq : q ≠ [] := by
          rintro rfl
          exact hqp ⟨rfl, List.nil_prefix⟩
        obtain ⟨inner, i, hi, rfl, hfollow⟩ := setIn_cons hp h
        rw [hfollow q hq, follow_obj, own_assign_self]
        exact ih hi (fun hpre => hpq ⟨rfl, hpre⟩) (fun hpre => hqp ⟨rfl, hpre⟩)
      · have hother : ∀ w, own k' (assign k w fs) = own k' fs := fun w => own_assign_ne hk w fs
        rcases eq_or_ne p [] with rfl | hp
        · rw [setIn_singleton h, follow_obj, follow_obj, hother]
        · obtain ⟨inner, i, hi, rfl, -⟩ := setIn_cons hp h
          rw [follow_obj, follow_obj, hother]

theorem isSome_setIn (h : setIn p v fs = some gs) (hpq : p <+: q → p = q)
    (hq : (follow q (.obj fs)).isSome) : (follow q (.obj gs)).isSome := by
  by_cases hpre : p <+: q
  · obtain rfl := hpq hpre
    have hself := follow_setIn_below h []
    rw [List.append_nil] at hself
    rw [hself]
    rfl
  · by_cases hqp : q <+: p
    · obtain ⟨hs, hfollow⟩ := follow_setIn_above h hqp (fun he => hpre (he ▸ List.prefix_refl _))
      rw [hfollow]
      rfl
    · rw [follow_setIn_apart h hpre hqp]
      exact hq

end SetIn

section Defaults

variable {k : String} {q : List String} {fs gs : List (String × JsVal ν)} {s : Schema ν}

mutual

/-- Every default of the schema is there. -/
def Complete : Schema ν → List (String × JsVal ν) → Prop
  | .mk _ _ properties, fs => CompleteFor properties fs

def CompleteFor : List (String × Schema ν) → List (String × JsVal ν) → Prop
  | [], _ => True
  | (key, propSchema) :: rest, fs =>
    (propSchema.default.isSome → read key fs ≠ .undefined)
      ∧ (propSchema.isObject = true → ∀ inner, own key fs = some (.obj inner) →
        Complete propSchema inner)
      ∧ CompleteFor rest fs

end

/-- No key has a dot. -/
def dotless (keys : List String) : Bool := keys.all fun k => k ≠ "" && !k.toList.contains '.'

mutual

/-- The names of a schema, and of its defaults, are names a path can spell. -/
def Schema.named : Schema ν → Bool
  | .mk _ default properties =>
    default.all (·.everyObj dotless) && (properties.map Prod.fst).Nodup
      && dotless (properties.map Prod.fst) && namedAll properties

def namedAll : List (String × Schema ν) → Bool
  | [] => true
  | p :: rest => p.2.named && namedAll rest

end

theorem mainSchema_named : mainSchema.named = true := by decide +kernel

mutual

/-- The properties of a schema have different names. -/
def Schema.distinct : Schema ν → Bool
  | .mk _ _ properties => (properties.map Prod.fst).Nodup && distinctAll properties

def distinctAll : List (String × Schema ν) → Bool
  | [] => true
  | p :: rest => p.2.distinct && distinctAll rest

end

mutual

theorem Schema.distinct_of_named : ∀ (s : Schema ν), s.named = true → s.distinct = true
  | .mk _ _ properties, hs => by
    simp only [Schema.named, Bool.and_eq_true] at hs
    rw [Schema.distinct, Bool.and_eq_true]
    exact ⟨hs.1.1.2, distinctAll_of_named properties hs.2⟩

theorem distinctAll_of_named : ∀ (ps : List (String × Schema ν)), namedAll ps = true →
    distinctAll ps = true
  | [], _ => rfl
  | p :: rest, hs => by
    rw [namedAll, Bool.and_eq_true] at hs
    rw [distinctAll, Schema.distinct_of_named p.2 hs.1, distinctAll_of_named rest hs.2]
    rfl

end

theorem dotless_of_mem {ks : List String} (h : dotless ks = true) (hk : k ∈ ks) :
    dotless [k] = true := by
  rw [dotless, List.all_cons, List.all_eq_true.1 h k hk]
  rfl

theorem dotless_tail (hk : dotless [k] = true) (hq : dotless (k :: q) = false) :
    dotless q = false := by
  rw [dotless, List.all_cons, List.all_nil, Bool.and_true] at hk
  rw [dotless, List.all_cons, hk, Bool.true_and] at hq
  exact hq

theorem fillDefault_cases (k : String) (d : Option (Json ν)) (fs : List (String × JsVal ν)) :
    fillDefault k d fs = fs ∧ (d.isSome → read k fs ≠ .undefined)
    ∨ ∃ j, d = some j ∧ read k fs = .undefined ∧ fillDefault k d fs = assign k (.ofJson j) fs := by
  unfold fillDefault
  split
  · rename_i j hread
    exact .inr ⟨j, rfl, hread, rfl⟩
  · rename_i hne
    refine .inl ⟨rfl, fun hd hread => ?_⟩
    obtain ⟨j, rfl⟩ := Option.isSome_iff_exists.1 hd
    exact hne j hread rfl

theorem descend_cases (f : List (String × JsVal ν) → List (String × JsVal ν)) (k : String)
    (fs : List (String × JsVal ν)) :
    descend f k fs = fs ∧ (∀ inner, own k fs ≠ some (.obj inner))
    ∨ ∃ inner, own k fs = some (.obj inner) ∧ descend f k fs = assign k (.obj (f inner)) fs := by
  unfold descend
  split
  · rename_i inner hk
    exact .inr ⟨inner, hk, rfl⟩
  · rename_i hne
    exact .inl ⟨rfl, hne⟩

theorem follow_assign (k : String) (v : JsVal ν) (fs : List (String × JsVal ν)) (k' : String)
    (q : List String) : follow (k' :: q) (.obj (assign k v fs))
      = if k' = k then follow q v else follow (k' :: q) (.obj fs) := by
  by_cases hk : k' = k
  · subst hk
    rw [if_pos rfl, follow_obj, own_assign_self]
    rfl
  · rw [if_neg hk, follow_obj, follow_obj, own_assign_ne hk]

section Kept

theorem follow_dotless {j : Json ν} (hj : j.everyObj dotless = true) (hq : dotless q = false) :
    follow q (ofJson j) = none := by
  induction q generalizing j with
  | nil => cases hq
  | cons k q ih =>
    cases j with
    | obj fields =>
      rw [ofJson, follow_obj]
      rw [Json.everyObj, Bool.and_eq_true] at hj
      rcases hk : own k (ofFields fields) with _ | v
      · rfl
      · obtain ⟨j', hmem, rfl⟩ := mem_ofFields.1 (mem_of_own hk)
        have hkey := dotless_of_mem hj.1 (List.mem_map.2 ⟨_, hmem, rfl⟩)
        exact ih (Json.everyField_iff.1 hj.2 _ hmem) (dotless_tail hkey hq)
    | _ => rfl

theorem descend_kept {f : List (String × JsVal ν) → List (String × JsVal ν)}
    (hk : dotless [k] = true)
    (hf : ∀ inner q, dotless q = false → follow q (.obj (f inner)) = follow q (.obj inner))
    (hq : dotless q = false) : follow q (.obj (descend f k fs)) = follow q (.obj fs) := by
  rcases descend_cases f k fs with ⟨h, -⟩ | ⟨inner, hown, h⟩
  · rw [h]
  · rw [h]
    rcases q with _ | ⟨k', q⟩
    · cases hq
    · rw [follow_assign]
      split_ifs with he
      · subst he
        rw [follow_obj, hown, Option.bind_some]
        exact hf inner q (dotless_tail hk hq)
      · rfl

theorem fillDefault_kept {d : Option (Json ν)} (hd : ∀ j, d = some j → j.everyObj dotless = true)
    (hk : dotless [k] = true) (hq : dotless q = false) :
    follow q (.obj (fillDefault k d fs)) = follow q (.obj fs) := by
  rcases fillDefault_cases k d fs with ⟨h, -⟩ | ⟨j, rfl, hread, h⟩
  · rw [h]
  · rw [h]
    rcases q with _ | ⟨k', q⟩
    · cases hq
    · rw [follow_assign]
      split_ifs with he
      · subst he
        have hq' := dotless_tail hk hq
        rw [follow_dotless (hd j rfl) hq', follow_obj]
        rcases hown : own k' fs with _ | v
        · rfl
        · unfold JsVal.read at hread
          rw [hown] at hread
          obtain rfl : v = .undefined := hread
          rcases q with _ | ⟨a, q⟩
          · cases hq'
          · rfl
      · rfl

mutual

theorem applyDefaults_kept : ∀ (s : Schema ν), s.named = true → ∀ {fs : List (String × JsVal ν)}
    {q : List String}, dotless q = false →
    follow q (.obj (applyDefaults s fs)) = follow q (.obj fs)
  | .mk _ _ properties, hs, fs, q, hq => by
    simp only [Schema.named, Bool.and_eq_true] at hs
    exact applyProperties_kept properties hs.2 hs.1.2 hq

theorem applyProperties_kept : ∀ (ps : List (String × Schema ν)), namedAll ps = true →
    dotless (ps.map Prod.fst) = true → ∀ {fs : List (String × JsVal ν)}
    {q : List String}, dotless q = false →
    follow q (.obj (applyProperties ps fs)) = follow q (.obj fs)
  | [], _, _, _, _, _ => rfl
  | (k, s) :: rest, hs, hnames, fs, q, hq => by
    rw [namedAll, Bool.and_eq_true] at hs
    have hk := dotless_of_mem hnames List.mem_cons_self
    rw [List.map_cons, dotless, List.all_cons, Bool.and_eq_true] at hnames
    have hd : ∀ j, s.default = some j → j.everyObj dotless = true := by
      intro j hj
      rcases s with ⟨o, d, properties⟩
      obtain rfl : d = some j := hj
      have hn := hs.1
      simp only [Schema.named, Bool.and_eq_true] at hn
      exact hn.1.1.1
    rw [applyProperties, applyProperties_kept rest hs.2 hnames.2 hq]
    split_ifs
    · rw [descend_kept hk (fun _ _ h => applyDefaults_kept s hs.1 h) hq, fillDefault_kept hd hk hq]
    · exact fillDefault_kept hd hk hq

end

end Kept

section Present

theorem isSome_assign {v : JsVal ν} (hv : ∀ q, (follow (k :: q) (.obj fs)).isSome →
    (follow q v).isSome) (hq : (follow q (.obj fs)).isSome) :
    (follow q (.obj (assign k v fs))).isSome := by
  rcases q with _ | ⟨k', q⟩
  · rfl
  · rw [follow_assign]
    split_ifs with he
    · subst he
      exact hv q hq
    · exact hq

theorem isSome_fillDefault {d : Option (Json ν)} (hq : (follow q (.obj fs)).isSome) :
    (follow q (.obj (fillDefault k d fs))).isSome := by
  rcases fillDefault_cases k d fs with ⟨h, -⟩ | ⟨j, rfl, hread, h⟩
  · rw [h]
    exact hq
  · rw [h]
    refine isSome_assign (fun r hr => ?_) hq
    unfold JsVal.read at hread
    rw [follow_obj] at hr
    rcases hown : own k fs with _ | v
    · rw [hown] at hr
      cases hr
    · rw [hown] at hr hread
      obtain rfl : v = .undefined := hread
      rcases r with _ | ⟨a, r⟩
      · rfl
      · cases hr

theorem isSome_descend {f : List (String × JsVal ν) → List (String × JsVal ν)}
    (hf : ∀ inner q, (follow q (.obj inner)).isSome → (follow q (.obj (f inner))).isSome)
    (hq : (follow q (.obj fs)).isSome) : (follow q (.obj (descend f k fs))).isSome := by
  rcases descend_cases f k fs with ⟨h, -⟩ | ⟨inner, hown, h⟩
  · rw [h]
    exact hq
  · rw [h]
    refine isSome_assign (fun r hr => hf inner r ?_) hq
    rw [follow_obj, hown] at hr
    exact hr

mutual

theorem isSome_applyDefaults : ∀ (s : Schema ν) {fs : List (String × JsVal ν)} {q : List String},
    (follow q (.obj fs)).isSome → (follow q (.obj (applyDefaults s fs))).isSome
  | .mk _ _ properties, _, _, hq => isSome_applyProperties properties hq

theorem isSome_applyProperties : ∀ (ps : List (String × Schema ν)) {fs : List (String × JsVal ν)}
    {q : List String}, (follow q (.obj fs)).isSome →
    (follow q (.obj (applyProperties ps fs))).isSome
  | [], _, _, hq => hq
  | (k, s) :: rest, fs, q, hq => by
    rw [applyProperties]
    refine isSome_applyProperties rest ?_
    split_ifs
    · exact isSome_descend (fun _ _ h => isSome_applyDefaults s h) (isSome_fillDefault hq)
    · exact isSome_fillDefault hq

end

end Present

section Agree

variable {D : List String → Prop} {bs : List (String × JsVal ν)}

/-- The same stands at every place that is not at or below one of those listed. -/
def Agrees (D : List String → Prop) (bs fs : List (String × JsVal ν)) : Prop :=
  ∀ q, (∀ d, D d → ¬ d <+: q) → shape q (.obj bs) = shape q (.obj fs)

theorem Agrees.assign {v : JsVal ν} (h : Agrees D bs fs) (hk : D [k]) :
    Agrees D bs (JsVal.assign k v fs) := by
  intro q hq
  rw [h q hq]
  rcases q with _ | ⟨k', q⟩
  · rfl
  · rw [shape, shape, follow_assign, if_neg]
    rintro rfl
    exact hq [k'] hk ⟨q, rfl⟩

theorem Agrees.fillDefault {d : Option (Json ν)} (h : Agrees D bs fs) (hnil : ¬ D [])
    (hd : d.isSome → read k bs ≠ .undefined) : Agrees D bs (fillDefault k d fs) := by
  rcases fillDefault_cases k d fs with ⟨hf, -⟩ | ⟨j, rfl, hread, hf⟩
  · rw [hf]
    exact h
  · rw [hf]
    refine h.assign ?_
    by_contra hk
    have hshape : shape [k] (.obj bs) = shape [k] (.obj fs) := by
      refine h [k] fun d hd hpre => ?_
      rcases List.prefix_cons_iff.1 hpre with rfl | ⟨t, rfl, ht⟩
      · exact hnil hd
      · rw [List.prefix_nil.1 ht] at hd
        exact hk hd
    have hb := hd rfl
    rw [shape_obj, shape_obj] at hshape
    unfold JsVal.read at hread hb
    rcases hfs : own k fs with _ | v <;> rcases hbs : own k bs with _ | w
    · rw [hfs] at hread
      rw [hbs] at hb
      exact hb hread
    · rw [hfs, hbs] at hshape
      cases hshape
    · rw [hfs, hbs] at hshape
      cases hshape
    · rw [hfs] at hread hshape
      rw [hbs] at hb hshape
      obtain rfl : v = .undefined := hread
      cases w with
      | undefined => exact hb rfl
      | _ => cases hshape

theorem Agrees.descend {f : List (String × JsVal ν) → List (String × JsVal ν)} (h : Agrees D bs fs)
    (hnil : ¬ D []) (hf : ∀ (D' : List String → Prop) bs' inner, ¬ D' [] →
      own k bs = some (.obj bs') → Agrees D' bs' inner → Agrees D' bs' (f inner)) :
    Agrees D bs (descend f k fs) := by
  rcases descend_cases f k fs with ⟨hf', -⟩ | ⟨inner, hown, hf'⟩
  · rw [hf']
    exact h
  · rw [hf']
    by_cases hk : D [k]
    · exact h.assign hk
    · -- the object stands in the baseline too, and the places below it go on there
      have hbelow : ∀ q, (∀ d, D (k :: d) → ¬ d <+: q) → ∀ d, D d → ¬ d <+: k :: q := by
        intro q hq d hd hpre
        rcases List.prefix_cons_iff.1 hpre with rfl | ⟨t, rfl, ht⟩
        · exact hnil hd
        · exact hq t hd ht
      have hagree : ∀ q, (∀ d, D (k :: d) → ¬ d <+: q) →
          (own k bs).bind (shape q) = shape q (.obj inner) := by
        intro q hq
        have hshape := h (k :: q) (hbelow q hq)
        rw [shape_obj, shape_obj, hown] at hshape
        exact hshape
      have hobj := hagree [] fun d hd hpre => hk (List.prefix_nil.1 hpre ▸ hd)
      rcases hbs : own k bs with _ | w
      · rw [hbs] at hobj
        cases hobj
      · rw [hbs] at hobj hagree
        cases w with
        | obj bs' =>
          have hinner := hf (fun d => D (k :: d)) bs' inner hk hbs hagree
          intro q hq
          rcases q with _ | ⟨k', q⟩
          · rfl
          · rw [shape, shape, follow_assign]
            split_ifs with he
            · subst he
              rw [follow_obj, hbs]
              exact hinner q fun d hd hpre => hq _ hd (List.cons_prefix_cons.2 ⟨rfl, hpre⟩)
            · exact h _ hq
        | _ => cases hobj

mutual

theorem Agrees.applyDefaults : ∀ (s : Schema ν) {D : List String → Prop}
    {bs fs : List (String × JsVal ν)}, Complete s bs → ¬ D [] → Agrees D bs fs →
    Agrees D bs (applyDefaults s fs)
  | .mk _ _ properties, _, _, _, hc, hnil, h => Agrees.applyProperties properties hc hnil h

theorem Agrees.applyProperties : ∀ (ps : List (String × Schema ν)) {D : List String → Prop}
    {bs fs : List (String × JsVal ν)}, CompleteFor ps bs → ¬ D [] → Agrees D bs fs →
    Agrees D bs (applyProperties ps fs)
  | [], _, _, _, _, _, h => h
  | (k, s) :: rest, D, bs, fs, hc, hnil, h => by
    obtain ⟨hdefault, hinside, hrest⟩ := hc
    rw [Config.applyProperties]
    refine Agrees.applyProperties rest hrest hnil ?_
    split_ifs with hobj
    · exact (h.fillDefault hnil hdefault).descend hnil fun D' bs' inner hnil' hbs hagree =>
        Agrees.applyDefaults s (hinside hobj bs' hbs) hnil' hagree
    · exact h.fillDefault hnil hdefault

end

end Agree

section Complete

theorem own_fillDefault_ne {k' : String} {d : Option (Json ν)} (h : k' ≠ k) :
    own k' (fillDefault k d fs) = own k' fs := by
  rcases fillDefault_cases k d fs with ⟨hf, -⟩ | ⟨j, rfl, -, hf⟩
  · rw [hf]
  · rw [hf, own_assign_ne h]

theorem own_descend_ne {k' : String} {f : List (String × JsVal ν) → List (String × JsVal ν)}
    (h : k' ≠ k) : own k' (descend f k fs) = own k' fs := by
  rcases descend_cases f k fs with ⟨hf, -⟩ | ⟨inner, -, hf⟩
  · rw [hf]
  · rw [hf, own_assign_ne h]

theorem own_applyProperties_of_not_mem : ∀ (ps : List (String × Schema ν))
    {fs : List (String × JsVal ν)}, k ∉ ps.map Prod.fst → own k (applyProperties ps fs) = own k fs
  | [], _, _ => rfl
  | (k', s) :: rest, fs, h => by
    rw [List.map_cons, List.mem_cons, not_or] at h
    rw [applyProperties, own_applyProperties_of_not_mem rest h.2]
    split_ifs
    · rw [own_descend_ne h.1, own_fillDefault_ne h.1]
    · exact own_fillDefault_ne h.1

theorem read_fillDefault {d : Option (Json ν)} (hd : d.isSome) :
    read k (fillDefault k d fs) ≠ .undefined := by
  rcases fillDefault_cases k d fs with ⟨hf, hread⟩ | ⟨j, rfl, -, hf⟩
  · rw [hf]
    exact hread hd
  · rw [hf]
    unfold JsVal.read
    rw [own_assign_self]
    cases j <;> exact fun h => by cases h

theorem read_descend {f : List (String × JsVal ν) → List (String × JsVal ν)}
    (h : read k fs ≠ .undefined) : read k (descend f k fs) ≠ .undefined := by
  rcases descend_cases f k fs with ⟨hf, -⟩ | ⟨inner, -, hf⟩
  · rw [hf]
    exact h
  · rw [hf]
    unfold JsVal.read
    rw [own_assign_self]
    exact fun h => by cases h

mutual

theorem complete_applyDefaults : ∀ (s : Schema ν), s.distinct = true →
    ∀ fs : List (String × JsVal ν), Complete s (applyDefaults s fs)
  | .mk _ _ properties, hs, fs => by
    simp only [Schema.distinct, Bool.and_eq_true, decide_eq_true_eq] at hs
    exact complete_applyProperties properties hs.2 hs.1 fs

theorem complete_applyProperties : ∀ (ps : List (String × Schema ν)), distinctAll ps = true →
    (ps.map Prod.fst).Nodup → ∀ fs : List (String × JsVal ν),
    CompleteFor ps (applyProperties ps fs)
  | [], _, _, _ => trivial
  | (k, s) :: rest, hs, hn, fs => by
    rw [distinctAll, Bool.and_eq_true] at hs
    rw [List.map_cons, List.nodup_cons] at hn
    rw [applyProperties]
    generalize hdata : (if s.isObject then descend (applyDefaults s) k (fillDefault k s.default fs)
      else fillDefault k s.default fs) = data
    have hkept : own k (applyProperties rest data) = own k data :=
      own_applyProperties_of_not_mem rest hn.1
    refine ⟨fun hd => ?_, fun hobj inner hown => ?_, complete_applyProperties rest hs.2 hn.2 data⟩
    · have hread : read k (applyProperties rest data) = read k data := by
        unfold JsVal.read
        rw [hkept]
      rw [hread, ← hdata]
      split_ifs
      · exact read_descend (read_fillDefault hd)
      · exact read_fillDefault hd
    · rw [hkept, ← hdata, if_pos hobj] at hown
      rcases descend_cases (applyDefaults s) k (fillDefault k s.default fs) with
        ⟨hf, hne⟩ | ⟨inner', -, hf⟩
      · rw [hf] at hown
        exact absurd hown (hne inner)
      · rw [hf, own_assign_self] at hown
        obtain rfl : applyDefaults s inner' = inner := by
          cases hown
          rfl
        exact complete_applyDefaults s hs.1 inner'

end

theorem assign_of_own {v : JsVal ν} (h : own k fs = some v) : assign k v fs = fs := by
  induction fs with
  | nil => cases h
  | cons f fs ih =>
    rw [own_cons] at h
    rw [assign]
    split_ifs at h with hk
    · obtain rfl := Option.some.inj h
      rw [if_pos hk.symm, hk]
    · rw [if_neg (Ne.symm hk), ih h]

mutual

theorem applyDefaults_of_complete : ∀ (s : Schema ν) {fs : List (String × JsVal ν)},
    Complete s fs → applyDefaults s fs = fs
  | .mk _ _ properties, _, h => applyProperties_of_complete properties h

theorem applyProperties_of_complete : ∀ (ps : List (String × Schema ν))
    {fs : List (String × JsVal ν)}, CompleteFor ps fs → applyProperties ps fs = fs
  | [], _, _ => rfl
  | (k, s) :: rest, fs, h => by
    obtain ⟨hdefault, hinside, hrest⟩ := h
    have hfill : fillDefault k s.default fs = fs := by
      rcases fillDefault_cases k s.default fs with ⟨hf, -⟩ | ⟨j, hj, hread, -⟩
      · exact hf
      · exact absurd hread (hdefault (by rw [hj]; rfl))
    rw [applyProperties, hfill]
    split_ifs with hobj
    · rcases descend_cases (applyDefaults s) k fs with ⟨hf, -⟩ | ⟨inner, hown, hf⟩
      · rw [hf]
        exact applyProperties_of_complete rest hrest
      · rw [hf, applyDefaults_of_complete s (hinside hobj inner hown), assign_of_own hown]
        exact applyProperties_of_complete rest hrest
    · exact applyProperties_of_complete rest hrest

end

mutual

theorem Complete.congr : ∀ (s : Schema ν) {fs gs : List (String × JsVal ν)}, Complete s fs →
    Same (.obj fs) (.obj gs) → Complete s gs
  | .mk _ _ properties, _, _, h, hsame => CompleteFor.congr properties h hsame

theorem CompleteFor.congr : ∀ (ps : List (String × Schema ν)) {fs gs : List (String × JsVal ν)},
    CompleteFor ps fs → Same (.obj fs) (.obj gs) → CompleteFor ps gs
  | [], _, _, _, _ => trivial
  | (k, s) :: rest, fs, gs, h, hsame => by
    obtain ⟨hdefault, hinside, hrest⟩ := h
    have hat : ∀ q, (own k fs).bind (shape q) = (own k gs).bind (shape q) := by
      intro q
      rw [← shape_obj, ← shape_obj]
      exact hsame (k :: q)
    refine ⟨fun hd => ?_, fun hobj inner hown => ?_, CompleteFor.congr rest hrest hsame⟩
    · have hread := hdefault hd
      have hnil := hat []
      unfold JsVal.read at hread ⊢
      rcases hfs : own k fs with _ | v <;> rcases hgs : own k gs with _ | w
      · rw [hfs] at hread
        exact hread
      · rw [hfs, hgs] at hnil
        cases hnil
      · rw [hfs, hgs] at hnil
        cases hnil
      · rw [hfs] at hread hnil
        rw [hgs] at hnil
        rintro rfl
        cases v with
        | undefined => exact hread rfl
        | _ => cases hnil
    · have hnil := hat []
      rcases hfs : own k fs with _ | v
      · rw [hfs, hown] at hnil
        cases hnil
      · rw [hfs, hown] at hnil
        cases v with
        | obj inner' =>
          refine Complete.congr s (hinside hobj inner' hfs) fun q => ?_
          have hq := hat q
          rw [hfs, hown] at hq
          exact hq
        | _ => cases hnil

end

end Complete

end Defaults

end Config

end VeriNode
