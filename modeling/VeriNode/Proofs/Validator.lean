import VeriNode.Config.Validator

/-!
# What the validation of the configuration means

The data are completed with the defaults (`applyDefaults_ofFields`), and what `validateValue` reports
is what the schema finds (`validateValue_reports`).
-/

namespace VeriNode

namespace Config

open JsVal JsonSchema

variable {ν : Type*}

/-- An object has this name without a field of it: the functions it inherits, and its prototype. -/
def inherits (k : String) : Bool := k = "__proto__" || k ∈ inherited

section Completion

mutual

/-- Where a default is due, its name stands for nothing inherited, and no key of it is `__proto__`. -/
def Fillable : JsonSchema ν → Json ν → Prop
  | .mk _ _ (some properties) _, .obj fields => FillableFields properties fields
  | .mk _ _ _ _, _ => True
termination_by structural s => s

def FillableFields : List (String × JsonSchema ν) → List (String × Json ν) → Prop
  | [], _ => True
  | (k, s) :: rest, fields =>
    (∀ d, fields.lookup k = none → s.words.default = some d →
        inherits k = false ∧ d.everyObj (fun keys => "__proto__" ∉ keys) = true)
      ∧ match (fields.lookup k).or s.words.default with
        | some v =>
          (s.words.type = .object → Fillable s v)
            ∧ FillableFields rest
              (put k (if s.words.type = .object then complete s v else v) fields)
        | none => FillableFields rest fields
termination_by structural ps => ps

end

theorem not_mem_inherited {k : String} (h : inherits k = false) : k ∉ inherited := by
  intro hk
  simp [inherits, hk] at h

theorem default_defaultsOf (s : JsonSchema ν) : (defaultsOf s).default = s.words.default := by
  obtain ⟨words, items, _ | ps, additional⟩ := s <;> rfl

theorem isObject_defaultsOf (s : JsonSchema ν) :
    (defaultsOf s).isObject = decide (s.words.type = .object) := by
  obtain ⟨words, items, _ | ps, additional⟩ := s <;> rfl

variable {k : String} {fields : List (String × Json ν)} {v : Json ν} {default : Option (Json ν)}

theorem fillDefault_ofFields
    (h : ∀ d, fields.lookup k = none → default = some d → inherits k = false) :
    fillDefault k default (ofFields fields)
      = match (fields.lookup k).or default with
        | some v => ofFields (put k v fields)
        | none => ofFields fields := by
  unfold fillDefault
  rw [read_ofFields]
  rcases hl : fields.lookup k with _ | w
  · rw [Option.none_or]
    rcases default with _ | d
    · split_ifs <;> rfl
    · simp only [if_neg (not_mem_inherited (h d hl rfl)), ofFields_put]
  · simp only [Option.some_or, put_of_lookup hl]
    cases w <;> rfl

theorem descend_ofFields {f : List (String × JsVal ν) → List (String × JsVal ν)} {w : Json ν}
    (hobj : ∀ fs, v = .obj fs → .obj (f (ofFields fs)) = ofJson w)
    (hleaf : (∀ fs, v ≠ .obj fs) → w = v) :
    descend f k (ofFields (put k v fields)) = ofFields (put k w fields) := by
  rw [descend, own_ofFields, lookup_put_self, Option.map_some]
  cases v with
  | obj fs => 
    simp only [ofJson]
    rw [hobj fs rfl, ← ofFields_put, put_put]
  | _ => rw [hleaf (by simp)]; rfl

mutual

theorem applyDefaults_ofFields : ∀ (s : JsonSchema ν) {fs : List (String × Json ν)},
    Fillable s (.obj fs) →
    JsVal.obj (applyDefaults (defaultsOf s) (ofFields fs)) = ofJson (complete s (.obj fs))
  | .mk words items (some properties) additional, fs, h => by
    rw [Fillable] at h
    rw [defaultsOf, applyDefaults, complete, ofJson, applyProperties_ofFields properties h]
  | .mk words items none additional, fs, h => rfl

theorem applyProperties_ofFields : ∀ (ps : List (String × JsonSchema ν))
    {fs : List (String × Json ν)}, FillableFields ps fs →
    applyProperties (defaultsOfAll ps) (ofFields fs) = ofFields (completeFields ps fs)
  | [], fs, h => rfl
  | (k, s) :: rest, fs, h => by
    rw [FillableFields] at h
    obtain ⟨hname, hrest⟩ := h
    rw [defaultsOfAll, applyProperties, completeFields, isObject_defaultsOf, default_defaultsOf,
      fillDefault_ofFields fun d hl hd => (hname d hl hd).1]
    rcases hv : (fs.lookup k).or s.words.default with _ | v
    · rw [hv] at hrest
      have hstay : descend (applyDefaults (defaultsOf s)) k (ofFields fs) = ofFields fs := by
        rw [descend, own_ofFields, (Option.or_eq_none_iff.1 hv).1]
        rfl
      simp only [hstay, ite_self]
      exact applyProperties_ofFields rest hrest
    · rw [hv] at hrest
      obtain ⟨hin, hrest⟩ := hrest
      simp only [decide_eq_true_eq]
      by_cases ht : s.words.type = .object
      · rw [if_pos ht] at hrest ⊢
        rw [if_pos ht, descend_ofFields (fun fs' hv' => ?_) (fun hv' => ?_)]
        · exact applyProperties_ofFields rest hrest
        · subst hv'
          exact applyDefaults_ofFields s (hin ht)
        · obtain ⟨words, items, _ | ps, additional⟩ := s
          · rfl
          · cases v with
            | obj fs' => exact absurd rfl (hv' fs')
            | _ => rfl
      · rw [if_neg ht] at hrest ⊢
        rw [if_neg ht]
        exact applyProperties_ofFields rest hrest

end

theorem read_ofFields_of_not_mem (hk : k ∉ fields.map Prod.fst)
    (hi : inherits k = false) : JsVal.read k (ofFields fields) = .undefined := by
  rw [read_ofFields, Fields.lookup_eq_none_iff_not_mem.2 hk]
  exact if_neg (not_mem_inherited hi)

end Completion

section Locations

/-- A location, as the paths of errors name it. -/
def formatLocation : String → Location → String
  | path, [] => path
  | path, .key k :: l => formatLocation (keyPath path k) l
  | path, .item i :: l => formatLocation (itemPath path i) l

/-- The errors that have come are of violations, and each violation has an error at its location or
above it. -/
structure Reports (V : Location → Prop) (path : String) (before after : Found ν) : Prop where
  kept : before.errors ⊆ after.errors
  sound : ∀ e ∈ after.errors, e ∈ before.errors ∨ ∃ l, V l ∧ e.path = formatLocation path l
  covers : ∀ l, V l → ∃ e ∈ after.errors, ∃ l', l' <+: l ∧ e.path = formatLocation path l'

namespace Reports

variable {V W : Location → Prop} {path : String} {f g h : Found ν}

theorem nothing (hV : ∀ l, ¬ V l) : Reports V path f f where
  kept := List.Subset.refl _
  sound _ he := .inl he
  covers l hl := absurd hl (hV l)

theorem congr (r : Reports V path f g) (hVW : ∀ l, V l ↔ W l) : Reports W path f g where
  kept := r.kept
  sound e he := (r.sound e he).imp_right fun hl => by simpa only [hVW] using hl
  covers l hl := r.covers l ((hVW l).2 hl)

theorem trans (r : Reports V path f g) (r' : Reports W path g h) :
    Reports (fun l => V l ∨ W l) path f h where
  kept := List.Subset.trans r.kept r'.kept
  sound e he := by
    rcases r'.sound e he with hg | ⟨l, hl, hp⟩
    · rcases r.sound e hg with hf | ⟨l, hl, hp⟩
      · exact .inl hf
      · exact .inr ⟨l, .inl hl, hp⟩
    · exact .inr ⟨l, .inr hl, hp⟩
  covers l hl := by
    rcases hl with hl | hl
    · obtain ⟨e, he, hp⟩ := r.covers l hl
      exact ⟨e, r'.kept he, hp⟩
    · exact r'.covers l hl

theorem within {path' : String} (r : Reports V path' f g) (step : Step)
    (hpath : ∀ l, formatLocation path (step :: l) = formatLocation path' l) :
    Reports (fun l => ∃ l', l = step :: l' ∧ V l') path f g where
  kept := r.kept
  sound e he := by
    rcases r.sound e he with hf | ⟨l, hl, hp⟩
    · exact .inl hf
    · exact .inr ⟨step :: l, ⟨l, rfl, hl⟩, by rw [hpath, hp]⟩
  covers := by
    rintro _ ⟨l, rfl, hl⟩
    obtain ⟨e, he, l', hl', hp⟩ := r.covers l hl
    exact ⟨e, he, step :: l', List.cons_prefix_cons.2 ⟨rfl, hl'⟩, by rw [hpath, hp]⟩

theorem above (r : Reports V path f g) (hat : g.someAt path = true) (hVW : ∀ l, V l → W l) :
    Reports W path f g where
  kept := r.kept
  sound e he := by
    rcases r.sound e he with hf | ⟨l, hl, hp⟩
    · exact .inl hf
    · exact .inr ⟨l, hVW l hl, hp⟩
  covers l _ := by
    obtain ⟨e, he, hp⟩ := List.any_eq_true.1 hat
    exact ⟨e, he, [], List.nil_prefix, of_decide_eq_true hp⟩

theorem of_errors (r : Reports V path f g) (f' g' : Found ν) (hf : f'.errors = f.errors)
    (hg : g'.errors = g.errors) : Reports V path f' g' where
  kept := by
    rw [hf, hg]
    exact r.kept
  sound := by
    rw [hf, hg]
    exact r.sound
  covers := by
    rw [hg]
    exact r.covers

theorem push (l₀ : Location) {e : ConfigValidationError ν} (hp : e.path = formatLocation path l₀)
    (hV : ∀ l, V l ↔ l = l₀) : Reports V path f (f.push e) where
  kept := List.subset_append_left _ _
  sound e' he := by
    rcases List.mem_append.1 he with he | he
    · exact .inl he
    · rw [List.mem_singleton.1 he]
      exact .inr ⟨l₀, (hV l₀).2 rfl, hp⟩
  covers l hl := by
    rw [(hV l).1 hl]
    exact ⟨e, List.mem_append_right _ List.mem_cons_self, l₀, List.prefix_rfl, hp⟩

end Reports

end Locations

section Validation

variable [LinearOrder ν] [JsonNumber ν] {isInteger : ν → Bool} {tests : TextTests}

/-- `pattern` and `format` as the validator reads them. -/
def TextTests.asserts (tests : TextTests) (pattern format : Option String) (value : String) : Bool :=
  (textError tests pattern format value).isNone

/-- What `validateValue` looks at: in an object only what is listed by `properties`, or is next to
them. -/
inductive Examined : JsonSchema ν → Json ν → JsonSchema ν → Json ν → Prop
  | here {s : JsonSchema ν} {j : Json ν} : Examined s j s j
  | item {s t s' : JsonSchema ν} {xs : List (Json ν)} {x j' : Json ν} : s.words.type = .array →
      s.items = some t → x ∈ xs → Examined t x s' j' → Examined s (.arr xs) s' j'
  | property {s t s' : JsonSchema ν} {ps : List (String × JsonSchema ν)}
      {fields : List (String × Json ν)} {k : String} {v j' : Json ν} : s.words.type = .object →
      s.properties = some ps → (k, t) ∈ ps → fields.lookup k = some v → Examined t v s' j' →
      Examined s (.obj fields) s' j'
  | additional {s t s' : JsonSchema ν} {ps : List (String × JsonSchema ν)}
      {fields : List (String × Json ν)} {k : String} {v j' : Json ν} : s.words.type = .object →
      s.properties = some ps → s.additional = .schema t → (k, v) ∈ fields → k ∉ s.names →
      Examined t v s' j' → Examined s (.obj fields) s' j'

/-- What the validator does not look at is in order: of an object without `properties` the required
fields and the others, of one with them those that it inherits. And the message about a value that
is not listed can be written. -/
structure Regular (isInteger : ν → Bool) (tests : TextTests) (s : JsonSchema ν) (j : Json ν) :
    Prop where
  required : ∀ fields, j = .obj fields → s.words.type = .object → s.properties = none →
    ∀ k ∈ s.words.required, k ∈ fields.map Prod.fst
  additional : ∀ fields t, j = .obj fields → s.words.type = .object → s.properties = none →
    s.additional = .schema t → ∀ f ∈ fields, Satisfies isInteger tests.asserts t f.2
  own : ∀ fields ps, j = .obj fields → s.words.type = .object → s.properties = some ps →
    ∀ k ∈ s.names ++ s.words.required, inherits k = true → k ∈ fields.map Prod.fst
  text : s.words.enum.isSome → ofType isInteger s.words.type j = true → (jsonText j).isSome

/-- Everything that is looked at is so. -/
def Clean (isInteger : ν → Bool) (tests : TextTests) (s : JsonSchema ν) (j : Json ν) : Prop :=
  ∀ s' j', Examined s j s' j' → Regular isInteger tests s' j'

omit [LinearOrder ν] in
theorem valueText_ofJson (j : Json ν) : valueText (ofJson j) = jsonText j := by
  cases j with
  | obj fields => rw [ofJson, valueText, jsonText, map_fst_ofFields]
  | _ => rfl

omit [JsonNumber ν] in
theorem isScalar_ofJson (v : Scalar ν) (j : Json ν) : isScalar v (ofJson j) = true ↔ j = v.toJson := by
  cases v <;> cases j <;> simp [isScalar, ofJson, Scalar.toJson, eq_comm]

theorem numberError_isSome_iff (words : Keywords ν) (n : ν) :
    (numberError words n).isSome
      ↔ (∃ m, words.minimum = some m ∧ n < m) ∨ ∃ m, words.maximum = some m ∧ m < n := by
  have hmin : (words.minimum.any fun m => decide (n < m)) = true
      ↔ ∃ m, words.minimum = some m ∧ n < m := by
    cases words.minimum <;> simp
  have hmax : (words.maximum.any fun m => decide (m < n)) = true
      ↔ ∃ m, words.maximum = some m ∧ m < n := by
    cases words.maximum <;> simp
  rw [← hmin, ← hmax, numberError]
  split_ifs with h h'
  · simp [h]
  · simp [h']
  · simp [h, h']

theorem typeError_of_ofType {words : Keywords ν} {j : Json ν}
    (h : ofType isInteger words.type j = false) :
    (typeError isInteger tests words (ofJson j)).isSome := by
  unfold typeError
  generalize words.type = type at h
  cases type <;> cases j <;> first | rfl | exact absurd h.symm Bool.false_ne_true | skip
  rename_i n
  have hn : isInteger n = false := h
  simp [ofJson, hn]

theorem typeError_isSome_of_ofType {words : Keywords ν} {j : Json ν}
    (h : ofType isInteger words.type j = true) :
    (typeError isInteger tests words (ofJson j)).isSome
      ↔ (∃ n, j = .num n ∧ (numberError words n).isSome)
        ∨ ∃ s, j = .str s ∧ tests.asserts words.pattern words.format s = false := by
  unfold typeError TextTests.asserts
  generalize words.type = type at h
  cases type <;> cases j <;> first | exact absurd h Bool.false_ne_true | simp [ofJson]
  rename_i n
  have hn : isInteger n = true := h
  simp [hn]

theorem typeError_isSome_iff (words : Keywords ν) (j : Json ν) :
    (typeError isInteger tests words (ofJson j)).isSome ↔ Misfits isInteger tests.asserts words j := by
  rcases ht : ofType isInteger words.type j with _ | _
  · exact iff_of_true (typeError_of_ofType ht) (.type ht)
  · rw [typeError_isSome_of_ofType ht]
    constructor
    · rintro (⟨n, rfl, hn⟩ | ⟨s, rfl, hs⟩)
      · rcases (numberError_isSome_iff words n).1 hn with ⟨m, hm, hlt⟩ | ⟨m, hm, hlt⟩
        · exact .minimum hm hlt
        · exact .maximum hm hlt
      · exact .text hs
    · rintro (h | ⟨hm, hlt⟩ | ⟨hm, hlt⟩ | hs)
      · rw [ht] at h
        cases h
      · exact .inl ⟨_, rfl, (numberError_isSome_iff words _).2 (.inl ⟨_, hm, hlt⟩)⟩
      · exact .inl ⟨_, rfl, (numberError_isSome_iff words _).2 (.inr ⟨_, hm, hlt⟩)⟩
      · exact .inr ⟨_, rfl, hs⟩

section Loops

variable {path : String} {validate : JsVal ν → String → Found ν → Option (Found ν)}
  {t : JsonSchema ν} {fields : List (String × Json ν)}

/-- A value is validated without a throw, and what is reported is what the schema finds. -/
def Validates (isInteger : ν → Bool) (tests : TextTests)
    (validate : JsVal ν → String → Found ν → Option (Found ν)) (t : JsonSchema ν) (j : Json ν) :
    Prop :=
  ∀ path f, ∃ g, validate (ofJson j) path f = some g
    ∧ Reports (Violates isInteger tests.asserts t j) path f g

omit [JsonNumber ν] in
theorem validateItems_reports {xs : List (Json ν)} (path : String) (n : ℕ) (f : Found ν)
    (h : ∀ x ∈ xs, Validates isInteger tests validate t x) :
    ∃ g, validateItems validate path n xs f = some g
      ∧ Reports (fun l => ∃ i x l', xs[i]? = some x ∧ l = .item (n + i) :: l'
        ∧ Violates isInteger tests.asserts t x l') path f g := by
  induction xs generalizing n f with
  | nil => exact ⟨f, rfl, .nothing (by simp)⟩
  | cons x xs ih =>
    rw [List.forall_mem_cons] at h
    obtain ⟨g, hg, hr⟩ := h.1 (itemPath path n) { f with warnings := [] }
    obtain ⟨g', hg', hr'⟩ := ih (n + 1) { g with warnings := f.warnings } h.2
    refine ⟨g', by rw [validateItems, hg, Option.bind_some, hg'], ?_⟩
    have hhead : Reports _ path f { g with warnings := f.warnings } :=
      (hr.within (.item n) fun l => rfl).of_errors _ _ rfl rfl
    refine (hhead.trans hr').congr fun l => ?_
    constructor
    · rintro (⟨l', rfl, hl⟩ | ⟨i, y, l', hy, rfl, hl⟩)
      · exact ⟨0, x, l', rfl, rfl, hl⟩
      · exact ⟨i + 1, y, l', hy, by rw [Nat.add_right_comm, Nat.add_assoc], hl⟩
    · rintro ⟨i, y, l', hy, rfl, hl⟩
      rcases i with _ | i
      · obtain rfl : x = y := Option.some.inj hy
        exact .inl ⟨l', rfl, hl⟩
      · exact .inr ⟨i, y, l', hy, by rw [Nat.add_right_comm, Nat.add_assoc], hl⟩

omit [JsonNumber ν] in
theorem validateUnknown_reports {allowed : List String} (f : Found ν)
    (h : ∀ p ∈ fields, p.1 ∉ allowed → Validates isInteger tests validate t p.2) :
    ∃ g, validateUnknown validate allowed path (ofFields fields) f = some g
      ∧ Reports (InUnknown isInteger tests.asserts allowed t fields) path f g := by
  induction fields generalizing f with
  | nil => exact ⟨f, rfl, .nothing (by simp [InUnknown])⟩
  | cons p fields ih =>
    obtain ⟨k, v⟩ := p
    rw [List.forall_mem_cons] at h
    rw [ofFields, validateUnknown]
    by_cases hk : k ∈ allowed
    · obtain ⟨g, hg, hr⟩ := ih f h.2
      refine ⟨g, by rw [if_pos hk, Option.bind_some, hg], hr.congr fun l => ?_⟩
      constructor
      · rintro ⟨k', v', l', hm, hn, hl⟩
        exact ⟨k', v', l', List.mem_cons_of_mem _ hm, hn, hl⟩
      · rintro ⟨k', v', l', hm, hn, hl⟩
        rcases List.mem_cons.1 hm with heq | hm
        · obtain ⟨rfl, rfl⟩ := Prod.mk.inj heq
          exact absurd hk hn
        · exact ⟨k', v', l', hm, hn, hl⟩
    · obtain ⟨g, hg, hr⟩ := h.1 hk (keyPath path k) f
      obtain ⟨g', hg', hr'⟩ := ih g h.2
      refine ⟨g', by rw [if_neg hk, hg, Option.bind_some, hg'], ?_⟩
      have hhead : Reports _ path f g := hr.within (.key k) fun l => rfl
      refine (hhead.trans hr').congr fun l => ?_
      constructor
      · rintro (⟨l', rfl, hl⟩ | ⟨k', v', l', hm, hn, hl⟩)
        · exact ⟨k, v, l', List.mem_cons_self, hk, rfl, hl⟩
        · exact ⟨k', v', l', List.mem_cons_of_mem _ hm, hn, hl⟩
      · rintro ⟨k', v', l', hm, hn, rfl, hl⟩
        rcases List.mem_cons.1 hm with heq | hm
        · obtain ⟨rfl, rfl⟩ := Prod.mk.inj heq
          exact .inl ⟨l', rfl, hl⟩
        · exact .inr ⟨k', v', l', hm, hn, rfl, hl⟩

omit [LinearOrder ν] [JsonNumber ν] in
theorem validateRequired_reports {required : List String} (f : Found ν)
    (h : ∀ k ∈ required, inherits k = true → k ∈ fields.map Prod.fst) :
    Reports (Missing required fields) path f
      (validateRequired path (ofFields fields) required f) := by
  induction required generalizing f with
  | nil => exact .nothing (by simp [Missing])
  | cons k required ih =>
    rw [List.forall_mem_cons] at h
    rw [validateRequired]
    by_cases hk : k ∈ fields.map Prod.fst
    · obtain ⟨v, hv⟩ := Fields.exists_lookup_of_mem hk
      have hread : JsVal.read k (ofFields fields) = ofJson v := by rw [read_ofFields, hv]
      rw [hread]
      have hstay : Reports (Missing (k :: required) fields) path f
          (validateRequired path (ofFields fields) required f) := by
        refine (ih f h.2).congr fun l => ?_
        simp only [Missing, List.exists_mem_cons_iff, hk, not_true_eq_false, false_and, false_or]
      cases v <;> exact hstay
    · have hi : inherits k = false := by
        rw [← Bool.not_eq_true]
        exact mt h.1 hk
      rw [read_ofFields_of_not_mem hk hi]
      refine ((Reports.push [.key k] rfl fun l => Iff.rfl).trans (ih _ h.2)).congr fun l => ?_
      simp only [Missing, List.exists_mem_cons_iff, hk, not_false_eq_true, true_and]

omit [LinearOrder ν] [JsonNumber ν] in
theorem errors_warnUnknown {allowed : List String} (fs : List (String × JsVal ν)) (f : Found ν) :
    (warnUnknown allowed path fs f).errors = f.errors := by
  induction fs generalizing f with
  | nil => rfl
  | cons p fs ih =>
    rw [warnUnknown, ih]
    split_ifs <;> rfl

end Loops

section Values

variable {s : JsonSchema ν} {j : Json ν} {path : String}

theorem Clean.item {t : JsonSchema ν} {xs : List (Json ν)} {x : Json ν}
    (hc : Clean isInteger tests s (.arr xs)) (ht : s.words.type = .array) (hs : s.items = some t)
    (hx : x ∈ xs) : Clean isInteger tests t x := fun s' j' h => hc s' j' (.item ht hs hx h)

theorem Clean.property {t : JsonSchema ν} {ps : List (String × JsonSchema ν)}
    {fields : List (String × Json ν)} {k : String} {v : Json ν}
    (hc : Clean isInteger tests s (.obj fields)) (ht : s.words.type = .object)
    (hps : s.properties = some ps) (hk : (k, t) ∈ ps) (hv : fields.lookup k = some v) :
    Clean isInteger tests t v := fun s' j' h => hc s' j' (.property ht hps hk hv h)

theorem Clean.additional {t : JsonSchema ν} {ps : List (String × JsonSchema ν)}
    {fields : List (String × Json ν)} {k : String} {v : Json ν}
    (hc : Clean isInteger tests s (.obj fields)) (ht : s.words.type = .object)
    (hps : s.properties = some ps) (hs : s.additional = .schema t) (hk : (k, v) ∈ fields)
    (hn : k ∉ s.names) : Clean isInteger tests t v :=
  fun s' j' h => hc s' j' (.additional ht hps hs hk hn h)

omit [LinearOrder ν] [JsonNumber ν] in
theorem type_of_arr {type : SchemaType} {xs : List (Json ν)}
    (h : ofType isInteger type (.arr xs) = true) : type = .array := by
  cases type <;> first | rfl | cases h

omit [LinearOrder ν] [JsonNumber ν] in
theorem type_of_obj {type : SchemaType} {fields : List (String × Json ν)}
    (h : ofType isInteger type (.obj fields) = true) : type = .object := by
  cases type <;> first | rfl | cases h

/-- The check of the type reports what is wrong with the value itself, and within its items. -/
theorem validateType_reports (s : JsonSchema ν) (items : List (Json ν) → Found ν → Option (Found ν))
    (path : String) (f : Found ν)
    (hitems : ∀ xs, j = .arr xs → s.words.type = .array →
      ∃ g, items xs f = some g ∧ Reports (InItem isInteger tests.asserts s.items xs) path f g) :
    ∃ g, validateType isInteger tests s items (ofJson j) path f = some g
      ∧ Reports (fun l => (l = [] ∧ Misfits isInteger tests.asserts s.words j)
        ∨ ∃ xs, j = .arr xs ∧ InItem isInteger tests.asserts s.items xs l) path f g := by
  have hiff : (typeError isInteger tests s.words (ofJson j)).isSome
      ↔ Misfits isInteger tests.asserts s.words j := typeError_isSome_iff s.words j
  unfold validateType
  rcases hte : typeError isInteger tests s.words (ofJson j) with _ | message
  · have hfit : ¬ Misfits isInteger tests.asserts s.words j := by
      rw [← hiff, hte]
      exact Bool.false_ne_true
    have htype : ofType isInteger s.words.type j = true := by
      rw [← Bool.not_eq_false]
      exact mt Misfits.type hfit
    have hstay : (∀ xs, j ≠ .arr xs) → Reports
        (fun l => (l = [] ∧ Misfits isInteger tests.asserts s.words j)
          ∨ ∃ xs, j = .arr xs ∧ InItem isInteger tests.asserts s.items xs l) path f f := by
      intro harr
      refine .nothing fun l => ?_
      rintro (⟨-, h⟩ | ⟨xs, h, -⟩)
      · exact hfit h
      · exact harr xs h
    cases j with
    | arr xs =>
      have ht := type_of_arr htype
      obtain ⟨g, hg, hr⟩ := hitems xs rfl ht
      refine ⟨g, by rw [ht]; exact hg, hr.congr fun l => ?_⟩
      simp only [hfit, and_false, false_or, Json.arr.injEq, exists_eq_left']
    | _ =>
      refine ⟨f, ?_, hstay (by simp)⟩
      cases s.words.type <;> rfl
  · have hmis : Misfits isInteger tests.asserts s.words j := by
      rw [← hiff, hte]
      rfl
    refine ⟨_, rfl, Reports.above (.push [] rfl fun l => Iff.rfl) ?_ ?_⟩
    · simp [Found.someAt, Found.push]
    · rintro l rfl
      exact .inl ⟨rfl, hmis⟩

theorem validateEnum_reports (path : String) (f : Found ν)
    (htext : s.words.enum.isSome → (jsonText j).isSome) :
    ∃ g, validateEnum s (ofJson j) path f = some g
      ∧ Reports (fun l => l = [] ∧ Unlisted s.words j) path f g := by
  unfold validateEnum
  rcases hv : s.words.enum with _ | values
  · exact ⟨f, rfl, .nothing (by simp [Unlisted, hv])⟩
  · have hin : values.any (isScalar · (ofJson j)) = true ↔ ¬ Unlisted s.words j := by
      rw [List.any_eq_true]
      simp [Unlisted, hv, isScalar_ofJson]
    dsimp only
    split_ifs with hu
    · rw [hin] at hu
      exact ⟨f, rfl, .nothing (by simp [hu])⟩
    · rw [hin, not_not] at hu
      obtain ⟨text, ht⟩ := Option.isSome_iff_exists.1 (htext (by rw [hv]; rfl))
      rw [valueText_ofJson, ht]
      exact ⟨_, rfl, .push [] rfl (by simp [hu])⟩

/-- The fields of an object that has `properties`, once these are validated: what is missing, and
what is in the others. -/
theorem validateFields_reports (additional : Additional (JsonSchema ν)) {allowed required : List String}
    {fields : List (String × Json ν)} {g p : Found ν} {V : Location → Prop}
    (hp : Reports V path g p)
    (hrequired : ∀ k ∈ required, inherits k = true → k ∈ fields.map Prod.fst)
    (hothers : ∀ t, additional = .schema t → ∀ f ∈ fields, f.1 ∉ allowed →
      Validates isInteger tests (validateValue isInteger tests t) t f.2) :
    ∃ h, (match additional with
        | .forbidden => some (warnUnknown allowed path (ofFields fields)
            (validateRequired path (ofFields fields) required p))
        | .schema s =>
          validateUnknown (validateValue isInteger tests s) allowed path (ofFields fields)
            (validateRequired path (ofFields fields) required p)
        | .absent => some (validateRequired path (ofFields fields) required p)) = some h
      ∧ Reports (fun l => V l ∨ Missing required fields l
        ∨ ∃ t, additional = .schema t ∧ InUnknown isInteger tests.asserts allowed t fields l)
        path g h := by
  have hall := hp.trans (validateRequired_reports p hrequired)
  cases additional with
  | absent => exact ⟨_, rfl, hall.congr (by simp)⟩
  | forbidden =>
    refine ⟨_, rfl, (hall.congr (by simp)).of_errors _ _ rfl ?_⟩
    exact errors_warnUnknown _ _
  | schema t =>
    obtain ⟨h, hh, hr⟩ := validateUnknown_reports
      (validateRequired path (ofFields fields) required p) (hothers t rfl)
    refine ⟨h, hh, (hall.trans hr).congr fun l => ?_⟩
    simp [or_assoc]

mutual

/-- What is reported of a value is what the schema finds, where everything looked at is in order. -/
theorem validateValue_reports : ∀ (s : JsonSchema ν) {j : Json ν}, Clean isInteger tests s j →
    Validates isInteger tests (validateValue isInteger tests s) s j
  | .mk words items properties additional, j, hc, path, f => by
    have hhere := hc _ _ .here
    -- what is validated once the type is in order
    have hrest : ∀ g, Reports (fun l => (l = [] ∧ Misfits isInteger tests.asserts words j)
          ∨ ∃ xs, j = .arr xs ∧ InItem isInteger tests.asserts items xs l) path f g →
        ∃ h, (if g.someAt path then some g
          else
            (validateEnum (.mk words items properties additional) (ofJson j) path g).bind fun found =>
            match words.type, properties, ofJson j with
            | .object, some props, .obj fields =>
              ((validateProperties isInteger tests props fields path found).map
                (validateRequired path fields words.required)).bind fun found =>
              match additional with
              | .forbidden => some (warnUnknown (props.map Prod.fst) path fields found)
              | .schema s =>
                validateUnknown (validateValue isInteger tests s) (props.map Prod.fst) path fields
                  found
              | .absent => some found
            | _, _, _ => some found) = some h
          ∧ Reports (Violates isInteger tests.asserts (.mk words items properties additional) j) path
            f h := by
      intro g hr
      by_cases hat : g.someAt path = true
      · rw [if_pos hat]
        refine ⟨g, rfl, hr.above hat ?_⟩
        rintro l (⟨rfl, h⟩ | ⟨xs, rfl, h⟩)
        · exact .misfit h
        · exact violates_arr_iff.2 (.inr h)
      · rw [if_neg hat]
        have hfit : ¬ Misfits isInteger tests.asserts words j := by
          intro h
          obtain ⟨e, he, l', hl', hp⟩ := hr.covers [] (.inl ⟨rfl, h⟩)
          rw [List.prefix_nil.1 hl'] at hp
          exact hat (List.any_eq_true.2 ⟨e, he, decide_eq_true hp⟩)
        have htype : ofType isInteger words.type j = true := by
          rw [← Bool.not_eq_false]
          exact mt Misfits.type hfit
        obtain ⟨g', hg', hr'⟩ := validateEnum_reports path g fun he => hhere.text he htype
        rw [hg', Option.bind_some]
        have hsofar := hr.trans hr'
        cases j with
        | obj fields =>
          have ht : words.type = .object := type_of_obj htype
          cases properties with
          | none =>
            refine ⟨g', by rw [ht], hsofar.congr fun l => ?_⟩
            rw [violates_obj_iff]
            have hprop : ¬ InProperty isInteger tests.asserts [] fields l := by simp [InProperty]
            have hmissing : ¬ Missing words.required fields l := by
              rintro ⟨k, hk, hn, -⟩
              exact hn (hhere.required fields rfl ht rfl k hk)
            have hunknown : ¬ ∃ t, additional = .schema t
                ∧ InUnknown isInteger tests.asserts [] t fields l := by
              rintro ⟨t, hs, k, v, l', hf, -, -, h⟩
              exact hhere.additional fields t rfl ht rfl hs (k, v) hf l' h
            simp [and_or_left, hprop, hmissing, hunknown, JsonSchema.words, JsonSchema.properties,
              JsonSchema.additional, JsonSchema.names]
          | some ps =>
            obtain ⟨p, hp, hrp⟩ := validateProperties_reports ps path g'
              (fun k t v hk hv => hc.property ht rfl hk hv)
              (fun k hk => hhere.own fields ps rfl ht rfl k (List.mem_append_left _ hk))
            obtain ⟨h, hh, hrh⟩ := validateFields_reports additional hrp
              (fun k hk => hhere.own fields ps rfl ht rfl k (List.mem_append_right _ hk))
              (fun t hs f hf hn => validateValue_reports t (hc.additional ht rfl hs hf hn))
            refine ⟨h, ?_, (hsofar.trans hrh).congr fun l => ?_⟩
            · rw [ht]
              simp only [ofJson, hp, Option.map_some, Option.bind_some]
              exact hh
            · rw [violates_obj_iff]
              simp [and_or_left, or_assoc, JsonSchema.words, JsonSchema.properties,
                JsonSchema.additional, JsonSchema.names]
        | arr xs =>
          refine ⟨g', by cases words.type <;> cases properties <;> rfl, hsofar.congr fun l => ?_⟩
          rw [violates_arr_iff]
          simp [and_or_left, or_right_comm, JsonSchema.words, JsonSchema.items]
        | _ =>
          refine ⟨g', by cases words.type <;> cases properties <;> rfl, hsofar.congr fun l => ?_⟩
          rw [violates_leaf_iff (by simp) (by simp)]
          simp [and_or_left, JsonSchema.words]
    cases items with
    | none =>
      have hitems : ∀ xs, j = .arr xs → words.type = .array →
          ∃ g, (fun _ found => some found : List (Json ν) → Found ν → Option (Found ν)) xs f = some g
            ∧ Reports (InItem isInteger tests.asserts none xs) path f g :=
        fun xs _ _ => ⟨f, rfl, .nothing (by simp [InItem])⟩
      obtain ⟨g, hg, hr⟩ := validateType_reports (.mk words none properties additional) _ path f hitems
      rw [validateValue, hg, Option.bind_some]
      exact hrest g hr
    | some t =>
      have hitems : ∀ xs, j = .arr xs → words.type = .array →
          ∃ g, validateItems (validateValue isInteger tests t) path 0 xs f = some g
            ∧ Reports (InItem isInteger tests.asserts (some t) xs) path f g := by
        rintro xs rfl ht
        obtain ⟨g, hg, hr⟩ := validateItems_reports path 0 f fun x hx =>
          validateValue_reports t (hc.item ht rfl hx)
        refine ⟨g, hg, hr.congr fun l => ?_⟩
        simp [InItem]
      obtain ⟨g, hg, hr⟩ :=
        validateType_reports (.mk words (some t) properties additional) _ path f hitems
      rw [validateValue, hg, Option.bind_some]
      exact hrest g hr

theorem validateProperties_reports : ∀ (ps : List (String × JsonSchema ν))
    {fields : List (String × Json ν)} (path : String) (f : Found ν),
    (∀ k t v, (k, t) ∈ ps → fields.lookup k = some v → Clean isInteger tests t v) →
    (∀ k ∈ ps.map Prod.fst, inherits k = true → k ∈ fields.map Prod.fst) →
    ∃ g, validateProperties isInteger tests ps (ofFields fields) path f = some g
      ∧ Reports (InProperty isInteger tests.asserts ps fields) path f g
  | [], fields, path, f, hc, hown => ⟨f, rfl, .nothing (by simp [InProperty])⟩
  | (k, t) :: ps, fields, path, f, hc, hown => by
    have hcs : ∀ k t v, (k, t) ∈ ps → fields.lookup k = some v → Clean isInteger tests t v :=
      fun k t v hk => hc k t v (List.mem_cons_of_mem _ hk)
    rw [List.map_cons, List.forall_mem_cons] at hown
    by_cases hk : k ∈ fields.map Prod.fst
    · obtain ⟨v, hv⟩ := Fields.exists_lookup_of_mem hk
      obtain ⟨g, hg, hr⟩ := validateValue_reports t (hc k t v List.mem_cons_self hv) (keyPath path k) f
      obtain ⟨g', hg', hr'⟩ := validateProperties_reports ps path g hcs hown.2
      refine ⟨g', ?_, ?_⟩
      · have hread : JsVal.read k (ofFields fields) = ofJson v := by rw [read_ofFields, hv]
        rw [validateProperties, hread]
        have hbind : (validateValue isInteger tests t (ofJson v) (keyPath path k) f).bind
            (validateProperties isInteger tests ps (ofFields fields) path) = some g' := by
          rw [hg, Option.bind_some, hg']
        cases v <;> exact hbind
      · have hhead : Reports _ path f g := hr.within (.key k) fun l => rfl
        refine (hhead.trans hr').congr fun l => ?_
        constructor
        · rintro (⟨l', rfl, hl⟩ | ⟨k', t', v', l', hm, hl⟩)
          · exact ⟨k, t, v, l', List.mem_cons_self, hv, rfl, hl⟩
          · exact ⟨k', t', v', l', List.mem_cons_of_mem _ hm, hl⟩
        · rintro ⟨k', t', v', l', hm, hv', rfl, hl⟩
          rcases List.mem_cons.1 hm with heq | hm
          · obtain ⟨rfl, rfl⟩ := Prod.mk.inj heq
            obtain rfl := Option.some.inj (hv.symm.trans hv')
            exact .inl ⟨l', rfl, hl⟩
          · exact .inr ⟨k', t', v', l', hm, hv', rfl, hl⟩
    · have hi : inherits k = false := by
        rw [← Bool.not_eq_true]
        exact mt hown.1 hk
      obtain ⟨g, hg, hr⟩ := validateProperties_reports ps path f hcs hown.2
      refine ⟨g, ?_, hr.congr fun l => ?_⟩
      · rw [validateProperties, read_ofFields_of_not_mem hk hi]
        exact hg
      · constructor
        · rintro ⟨k', t', v', l', hm, hl⟩
          exact ⟨k', t', v', l', List.mem_cons_of_mem _ hm, hl⟩
        · rintro ⟨k', t', v', l', hm, hv', hl⟩
          rcases List.mem_cons.1 hm with heq | hm
          · obtain ⟨rfl, rfl⟩ := Prod.mk.inj heq
            rw [Fields.lookup_eq_none_iff_not_mem.2 hk] at hv'
            cases hv'
          · exact ⟨k', t', v', l', hm, hv', hl⟩

end

end Values

section Meaning

end Meaning

end Validation

end Config

end VeriNode
