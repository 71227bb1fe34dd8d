import VeriNode.Security.EndpointPatterns

/-!
# What an endpoint pattern matches

The replacements of `normalizePattern` undo each other's work in two places. An asterisk is not
escaped, and what is to become `.*` is an escaped one; and what stands for a parameter may stand in
the pattern as well, or come about where a parameter follows. So a pattern matches the paths that its
syntax says exactly if it has no asterisk, and the placeholder is not in it
(`asDocumented_iff`).
-/

namespace VeriNode

namespace RateLimiter

open RegExp

section Lexemes

theorem lex_escape (c : CodeUnit) (l : Text) :
    lex (unit '\\' :: c :: l) = (lex l).map (.atom (.char c) :: ·) := by
  rw [lex, if_pos rfl]

theorem lex_class (l : Text) :
    lex (unit '[' :: unit '^' :: unit '/' :: unit ']' :: l)
      = (lex l).map (.atom .notSlash :: ·) := by
  rw [lex.eq_def]
  dsimp only
  rw [if_neg (by decide), if_pos rfl, if_pos (by decide)]

theorem lex_single {a : CodeUnit} (hescape : a ≠ unit '\\') (hclass : a ≠ unit '[') (l : Text) :
    lex (a :: l) =
      if a = unit '*' then (lex l).map (.quantifier .star :: ·)
      else if a = unit '+' then (lex l).map (.quantifier .plus :: ·)
      else if a = unit '.' then (lex l).map (.atom .dot :: ·)
      else (lex l).map (.atom (.char a) :: ·) := by
  rw [lex.eq_def]
  dsimp only
  rw [if_neg hescape, if_neg hclass]

theorem lex_star (l : Text) : lex (unit '*' :: l) = (lex l).map (.quantifier .star :: ·) :=
  lex_single (by decide) (by decide) l

theorem lex_plus (l : Text) : lex (unit '+' :: l) = (lex l).map (.quantifier .plus :: ·) :=
  lex_single (by decide) (by decide) l

theorem lex_segment (l : Text) :
    lex (units ['[', '^', '/', ']', '+'] ++ l)
      = (lex l).map (.atom .notSlash :: .quantifier .plus :: ·) := by
  change lex (unit '[' :: unit '^' :: unit '/' :: unit ']' :: unit '+' :: l) = _
  rw [lex_class, lex_plus, Option.map_map]
  rfl

theorem lex_plain {c : CodeUnit} (hc : c ∉ metacharacters) (hstar : c ≠ unit '*') (l : Text) :
    lex (c :: l) = (lex l).map (.atom (.char c) :: ·) := by
  have hne : ∀ m ∈ metacharacters, c ≠ m := fun m hm h => hc (h ▸ hm)
  rw [lex_single (hne _ (by decide)) (hne _ (by decide)), if_neg hstar,
    if_neg (hne _ (by decide)), if_neg (hne _ (by decide))]

end Lexemes

section Documented

/-- A character, a parameter, or a wildcard. -/
inductive Part
  | unit (c : CodeUnit)
  | param
  | wildcard

def parts (pattern : Text) : List Part :=
  (params pattern).map fun
    | none => .param
    | some c => if c = unit '*' then .wildcard else .unit c

/-- What a part is replaced by. -/
def Part.language : Part → Language CodeUnit
  | .unit c => {w | w = [c]}
  | .param => {w | w ≠ [] ∧ ∀ a ∈ w, a ≠ RateLimiter.unit '/'}
  | .wildcard => {_w | True}

/-- The paths that the syntax of a pattern says it matches. -/
def documented (pattern : Text) : Language CodeUnit := ((parts pattern).map Part.language).prod

def AsDocumented (pattern : Text) : Prop :=
  ∃ matcher, normalizePattern pattern = some matcher ∧
    ∀ path, test Atom.holds matcher path = true ↔ path ∈ documented pattern

open scoped Classical in
/-- The tier of an exact entry, else of the first pattern that matches, else the default. -/
noncomputable def documentedTier (path : Text) (endpointTiers : OrdMap Text RateLimitTier)
    (defaultTier : RateLimitTier) : RateLimitTier :=
  (endpointTiers.get path).getD
    (((endpointTiers.entries.find? fun e => path ∈ documented e.1).map Prod.snd).getD defaultTier)

end Documented

section Pipeline

variable {items : List (Option CodeUnit)}

/-- The text of the expression, from the pattern's characters and its placeholders. -/
def render (items : List (Option CodeUnit)) : Text :=
  items.flatMap fun
    | none => units ['[', '^', '/', ']', '+']
    | some c => escape c

theorem escape_of_metacharacter {c : CodeUnit} (h : c ∈ metacharacters) :
    escape c = [unit '\\', c] := if_pos h

theorem escape_of_plain {c : CodeUnit} (h : c ∉ metacharacters) : escape c = [c] := if_neg h

theorem prefix_escape_iff {q l : Text} (hq : ∀ a ∈ q, a ∉ metacharacters) :
    q <+: l.flatMap escape ↔ q <+: l := by
  induction q generalizing l with
  | nil => simp
  | cons a q ih =>
    rw [List.forall_mem_cons] at hq
    cases l with
    | nil => rfl
    | cons c l =>
      rw [List.flatMap_cons]
      by_cases hc : c ∈ metacharacters
      · rw [escape_of_metacharacter hc, List.cons_append, List.cons_prefix_cons,
          List.cons_prefix_cons]
        refine iff_of_false (fun h => hq.1 ?_) (fun h => hq.1 ?_)
        · rw [h.1]
          decide
        · rwa [h.1]
      · rw [escape_of_plain hc, List.cons_append, List.nil_append, List.cons_prefix_cons,
          List.cons_prefix_cons, ih hq.2]

theorem placeholder_plain : ∀ a ∈ placeholder, a ∉ metacharacters := by
  have hall : (placeholder.all fun a => decide (a ∉ metacharacters)) = true := by decide
  exact fun a ha => of_decide_eq_true (List.all_eq_true.1 hall a ha)

theorem placeholder_ne_nil : placeholder ≠ [] := by decide

theorem escape_placeholder : placeholder.flatMap escape = placeholder := by decide

theorem not_begin_of_metacharacter {c : CodeUnit} (hc : c ∈ metacharacters) (l : Text) :
    ¬ placeholder <+: c :: l := by
  intro h
  have hhead : unit '_' = c := (List.cons_prefix_cons.1 h).1
  exact placeholder_plain (unit '_') List.mem_cons_self (hhead ▸ hc)

/-- The placeholders in the escaped text are those in the text. -/
theorem fill_occurrences_escape (l : Text) :
    fill (units ['[', '^', '/', ']', '+']) (occurrences placeholder (l.flatMap escape))
      = render (occurrences placeholder l) := by
  induction hn : l.length using Nat.strong_induction_on generalizing l with
  | _ n ih =>
    by_cases hp : placeholder <+: l
    · obtain ⟨l, rfl⟩ := hp
      have hlt : l.length < n := by
        rw [← hn, List.length_append]
        exact Nat.lt_add_of_pos_left (by decide)
      rw [List.flatMap_append, escape_placeholder, occurrences_append placeholder_ne_nil,
        occurrences_append placeholder_ne_nil, fill_none, ih _ hlt l rfl]
      rfl
    · cases l with
      | nil => rfl
      | cons c l =>
        have hlt : l.length < n := by
          rw [← hn]
          exact Nat.lt_succ_self _
        have hrest := ih _ hlt l rfl
        rw [occurrences_cons hp, List.flatMap_cons]
        by_cases hc : c ∈ metacharacters
        · rw [escape_of_metacharacter hc, List.cons_append, List.cons_append, List.nil_append,
            occurrences_cons (not_begin_of_metacharacter (by decide) _),
            occurrences_cons (not_begin_of_metacharacter hc _), fill_some, fill_some, hrest]
          change _ = escape c ++ _
          rw [escape_of_metacharacter hc]
          rfl
        · have hp' : ¬ placeholder <+: c :: l.flatMap escape := by
            have := (prefix_escape_iff (l := c :: l) placeholder_plain).not.2 hp
            rwa [List.flatMap_cons, escape_of_plain hc] at this
          rw [escape_of_plain hc, List.cons_append, List.nil_append, occurrences_cons hp', fill_some,
            hrest]
          change _ = escape c ++ _
          rw [escape_of_plain hc]
          rfl

/-- The replacement of escaped asterisks. -/
def starred (l : Text) : Text := replaceAll (units ['\\', '*']) (units ['.', '*']) l

theorem starred_cons {a : CodeUnit} (h : a ≠ unit '\\') (l : Text) :
    starred (a :: l) = a :: starred l :=
  replaceAll_cons (fun hp => h (List.cons_prefix_cons.1 hp).1.symm) _

theorem starred_escape {b : CodeUnit} (h : b ≠ unit '*') (l : Text) :
    starred (unit '\\' :: b :: l) = unit '\\' :: starred (b :: l) :=
  replaceAll_cons
    (fun hp => h (List.cons_prefix_cons.1 (List.cons_prefix_cons.1 hp).2).1.symm) _

theorem starred_star (l : Text) :
    starred (unit '\\' :: unit '*' :: l) = unit '.' :: unit '*' :: starred l := by
  have hne : units ['\\', '*'] ≠ [] := by decide
  exact replaceAll_append hne _ l

/-- The lexemes of the expression. Of a backslash before an asterisk it makes a full stop. -/
def lexemes : List (Option CodeUnit) → List Lexeme
  | [] => []
  | none :: items => .atom .notSlash :: .quantifier .plus :: lexemes items
  | some c :: items =>
    (if c = unit '*' then .quantifier .star
      else if c = unit '\\' ∧ items.head? = some (some (unit '*')) then .atom (.char (unit '.'))
      else .atom (.char c)) :: lexemes items

theorem render_none (items : List (Option CodeUnit)) :
    render (none :: items) = units ['[', '^', '/', ']', '+'] ++ render items := rfl

theorem render_some (c : CodeUnit) (items : List (Option CodeUnit)) :
    render (some c :: items) = escape c ++ render items := rfl

theorem head_of_render {l : Text} (h : render items = unit '*' :: l) :
    items.head? = some (some (unit '*')) := by
  cases items with
  | nil => cases h
  | cons item items =>
    cases item with
    | none => exact absurd (List.cons.inj h).1 (by decide)
    | some c =>
      rw [render_some] at h
      by_cases hc : c ∈ metacharacters
      · rw [escape_of_metacharacter hc] at h
        exact absurd (List.cons.inj h).1 (by decide)
      · rw [escape_of_plain hc] at h
        rw [(List.cons.inj h).1]
        rfl

theorem starred_backslash (h : items.head? ≠ some (some (unit '*'))) :
    starred (unit '\\' :: render items) = unit '\\' :: starred (render items) := by
  cases hr : render items with
  | nil => rfl
  | cons b l =>
    refine starred_escape (fun hb => h ?_) l
    exact head_of_render (hr.trans (by rw [hb]))

theorem lex_starred_render (items : List (Option CodeUnit)) :
    lex (starred (render items)) = some (lexemes items) := by
  induction items with
  | nil => rfl
  | cons item items ih =>
    cases item with
    | none =>
      have hsegment : starred (units ['[', '^', '/', ']', '+'] ++ render items)
          = units ['[', '^', '/', ']', '+'] ++ starred (render items) := by
        change starred (unit '[' :: unit '^' :: unit '/' :: unit ']' :: unit '+' :: _) = _
        rw [starred_cons (by decide), starred_cons (by decide), starred_cons (by decide),
          starred_cons (by decide), starred_cons (by decide)]
        rfl
      rw [render_none, hsegment, lex_segment, ih]
      rfl
    | some c =>
      rw [render_some, lexemes]
      by_cases hstar : c = unit '*'
      · subst hstar
        rw [escape_of_plain (by decide), List.cons_append, List.nil_append,
          starred_cons (by decide), lex_star, ih, if_pos rfl]
        rfl
      rw [if_neg hstar]
      by_cases hback : c = unit '\\'
      · subst hback
        rw [escape_of_metacharacter (by decide), List.cons_append, List.cons_append,
          List.nil_append, starred_escape (by decide)]
        by_cases hnext : items.head? = some (some (unit '*'))
        · -- the second backslash is taken for the asterisk's
          obtain ⟨rest, rfl⟩ := List.head?_eq_some_iff.1 hnext
          rw [if_pos ⟨rfl, hnext⟩]
          rw [render_some, escape_of_plain (by decide), List.cons_append, List.nil_append,
            starred_cons (by decide)] at ih
          rw [render_some, escape_of_plain (by decide), List.cons_append, List.nil_append,
            starred_star, lex_escape, ih]
          rfl
        · rw [if_neg (fun h => hnext h.2), starred_backslash hnext, lex_escape, ih]
          rfl
      · rw [if_neg (fun h => hback h.1)]
        by_cases hc : c ∈ metacharacters
        · rw [escape_of_metacharacter hc, List.cons_append, List.cons_append, List.nil_append,
            starred_escape hstar, starred_cons hback, lex_escape, ih]
          rfl
        · rw [escape_of_plain hc, List.cons_append, List.nil_append, starred_cons hback,
            lex_plain hc hstar, ih]
          rfl

/-- The pattern's characters, and what is taken for a parameter. -/
def found (pattern : Text) : List (Option CodeUnit) :=
  occurrences placeholder (fill placeholder (params pattern))

theorem normalizePattern_eq (pattern : Text) :
    normalizePattern pattern = group (lexemes (found pattern)) := by
  have hsegments : replaceAll placeholder (units ['[', '^', '/', ']', '+'])
      ((fill placeholder (params pattern)).flatMap escape) = render (found pattern) :=
    fill_occurrences_escape _
  have hlex := lex_starred_render (found pattern)
  unfold starred at hlex
  unfold normalizePattern
  dsimp only
  rw [hsegments, hlex, Option.bind_some]

end Pipeline

section Plain

variable {items items' : List (Option CodeUnit)} {pattern : Text}

/-- The terms of an expression without asterisks. -/
def plainTerms (items : List (Option CodeUnit)) : List (Term Atom) :=
  items.map fun
    | none => ⟨.notSlash, .plus⟩
    | some c => ⟨.char c, .once⟩

theorem plainTerms_no_star : ∀ t ∈ plainTerms items, t.quantifier ≠ .star := by
  intro t ht
  obtain ⟨item, -, rfl⟩ := List.mem_map.1 ht
  cases item <;> exact fun h => nomatch h

theorem group_atom {a : Atom} {l : List Lexeme} (h : ∀ q l', l ≠ .quantifier q :: l') :
    group (.atom a :: l) = (group l).map (⟨a, .once⟩ :: ·) := by
  cases l with
  | nil => rfl
  | cons lexeme l =>
    cases lexeme with
    | atom b => rfl
    | quantifier q => exact absurd rfl (h q l)

theorem lexemes_head (h : some (unit '*') ∉ items) (q : Quantifier) (l : List Lexeme) :
    lexemes items ≠ .quantifier q :: l := by
  intro hl
  cases items with
  | nil => cases hl
  | cons item items =>
    cases item with
    | none => cases hl
    | some c =>
      rw [lexemes, if_neg (fun hc : c = unit '*' => h (hc ▸ List.mem_cons_self))] at hl
      split_ifs at hl <;> cases hl

theorem group_lexemes (h : some (unit '*') ∉ items) :
    group (lexemes items) = some (plainTerms items) := by
  induction items with
  | nil => rfl
  | cons item items ih =>
    have hrest : some (unit '*') ∉ items := fun hmem => h (List.mem_cons_of_mem _ hmem)
    cases item with
    | none =>
      change (group (lexemes items)).map _ = _
      rw [ih hrest]
      rfl
    | some c =>
      have hnext : items.head? ≠ some (some (unit '*')) :=
        fun hhead => hrest (List.mem_of_mem_head? hhead)
      have hc : c ≠ unit '*' := fun hc => h (hc ▸ List.mem_cons_self)
      rw [lexemes, if_neg hc, if_neg (fun hc => hnext hc.2), group_atom (lexemes_head hrest), ih hrest]
      rfl

theorem documented_eq (h : some (unit '*') ∉ params pattern) :
    documented pattern = language Atom.holds (plainTerms (params pattern)) := by
  unfold documented language parts plainTerms
  rw [List.map_map, List.map_map]
  congr 1
  refine List.map_congr_left fun item hitem => ?_
  cases item with
  | none =>
    ext w
    change (w ≠ [] ∧ ∀ a ∈ w, a ≠ unit '/') ↔ w ≠ [] ∧ ∀ a ∈ w, decide (a ≠ unit '/') = true
    simp only [decide_eq_true_eq]
  | some c =>
    have hc : c ≠ unit '*' := fun hc => h (hc ▸ hitem)
    ext w
    rw [Function.comp_apply, Function.comp_apply]
    dsimp only
    rw [if_neg hc]
    change w = [c] ↔ ∃ a, decide (a = c) = true ∧ w = [a]
    simp

/-- A path for a letter in the place of every parameter. -/
def wordWith (z : CodeUnit) (items : List (Option CodeUnit)) : Text := items.map (·.getD z)

theorem wordWith_mem {z : CodeUnit} (hz : z ≠ unit '/') (items : List (Option CodeUnit)) :
    wordWith z items ∈ language Atom.holds (plainTerms items) := by
  rw [mem_iff_forall₂ plainTerms_no_star (by simp [wordWith, plainTerms])]
  unfold plainTerms wordWith
  rw [List.forall₂_map_left_iff, List.forall₂_map_right_iff, List.forall₂_same]
  intro item _
  cases item with
  | none => exact decide_eq_true hz
  | some c => exact decide_eq_true rfl

/-- Where every letter in the parameters' places is matched, they stand in the same places. -/
theorem eq_of_matched
    (h : ∀ z, z ≠ unit '/' → List.Forall₂ (fun t a => t.atom.holds a = true) (plainTerms items)
      (wordWith z items'))
    (h' : ∀ z, z ≠ unit '/' → List.Forall₂ (fun t a => t.atom.holds a = true) (plainTerms items')
      (wordWith z items)) : items = items' := by
  have hboth : ∀ {c : CodeUnit}, ¬ ∀ z, z ≠ unit '/' → (Atom.char c).holds z = true := by
    intro c hc
    have ha : unit 'a' = c := of_decide_eq_true (hc (unit 'a') (by decide))
    have hb : unit 'b' = c := of_decide_eq_true (hc (unit 'b') (by decide))
    exact absurd (ha.trans hb.symm) (by decide)
  induction items generalizing items' with
  | nil =>
    cases items' with
    | nil => rfl
    | cons item' items' => exact nomatch h (unit 'a') (by decide)
  | cons item items ih =>
    cases items' with
    | nil => exact nomatch h (unit 'a') (by decide)
    | cons item' items' =>
      have hhead := fun z hz => (List.forall₂_cons.1 (h z hz)).1
      have hhead' := fun z hz => (List.forall₂_cons.1 (h' z hz)).1
      rw [ih (fun z hz => (List.forall₂_cons.1 (h z hz)).2)
        (fun z hz => (List.forall₂_cons.1 (h' z hz)).2)]
      cases item with
      | none =>
        cases item' with
        | none => rfl
        | some c => exact absurd hhead' hboth
      | some c =>
        cases item' with
        | none => exact absurd hhead hboth
        | some d =>
          have hd : d = c := of_decide_eq_true (hhead (unit 'a') (by decide))
          rw [hd]

theorem plainTerms_injective
    (h : language Atom.holds (plainTerms items) = language Atom.holds (plainTerms items')) :
    items = items' := by
  have hle : ∀ {a b : List (Option CodeUnit)},
      language Atom.holds (plainTerms a) = language Atom.holds (plainTerms b) →
      b.length ≤ a.length := by
    intro a b hab
    have := length_le_of_mem plainTerms_no_star
      (hab ▸ wordWith_mem (z := unit 'a') (by decide) a)
    simpa [plainTerms, wordWith] using this
  have hlen : items.length = items'.length := le_antisymm (hle h.symm) (hle h)
  refine eq_of_matched (fun z hz => ?_) (fun z hz => ?_)
  · rw [← mem_iff_forall₂ plainTerms_no_star (by simp [plainTerms, wordWith, hlen]), h]
    exact wordWith_mem hz items'
  · rw [← mem_iff_forall₂ plainTerms_no_star (by simp [plainTerms, wordWith, hlen]), ← h]
    exact wordWith_mem hz items

theorem star_mem_found_iff : some (unit '*') ∈ found pattern ↔ some (unit '*') ∈ params pattern := by
  have hstar : unit '*' ∉ placeholder := by decide
  rw [← mem_fill_iff hstar, ← mem_fill_iff hstar, found, fill_occurrences placeholder_ne_nil]

theorem asDocumented_iff_found (h : some (unit '*') ∉ params pattern) :
    AsDocumented pattern ↔ found pattern = params pattern := by
  unfold AsDocumented
  rw [normalizePattern_eq, group_lexemes (star_mem_found_iff.not.2 h), documented_eq h]
  constructor
  · rintro ⟨matcher, hmatcher, hpath⟩
    obtain rfl := Option.some.inj hmatcher
    exact plainTerms_injective (Set.ext fun path => test_iff.symm.trans (hpath path))
  · intro hfound
    exact ⟨_, rfl, fun path => by rw [test_iff, hfound]⟩

end Plain

section Wildcards

variable {items : List (Option CodeUnit)} {pattern : Text} {ts : List (Term Atom)}

/-- How often a letter stands before a slash. -/
def segmentEnds : Text → ℕ
  | a :: b :: w => (if a = unit 'a' ∧ b = unit '/' then 1 else 0) + segmentEnds (b :: w)
  | _ => 0

theorem segmentEnds_cons_le (a : CodeUnit) (w : Text) : segmentEnds w ≤ segmentEnds (a :: w) := by
  cases w with
  | nil => exact le_rfl
  | cons b w => exact Nat.le_add_left _ _

theorem segmentEnds_append_le (u v : Text) :
    segmentEnds (u ++ v) ≤ segmentEnds u + segmentEnds v + 1 := by
  induction u with
  | nil => exact Nat.le_succ_of_le (Nat.le_add_left _ _)
  | cons a u ih =>
    cases u with
    | nil =>
      cases v with
      | nil => exact Nat.zero_le _
      | cons b v =>
        change (if a = unit 'a' ∧ b = unit '/' then 1 else 0) + segmentEnds (b :: v) ≤ _
        split_ifs <;> omega
    | cons b u =>
      change (if a = unit 'a' ∧ b = unit '/' then 1 else 0) + segmentEnds (b :: u ++ v)
        ≤ (if a = unit 'a' ∧ b = unit '/' then 1 else 0) + segmentEnds (b :: u) + _ + 1
      omega

theorem le_segmentEnds_append (u v : Text) : segmentEnds v ≤ segmentEnds (u ++ v) := by
  induction u with
  | nil => exact le_rfl
  | cons a u ih => exact ih.trans (segmentEnds_cons_le a _)

theorem le_segmentEnds_append_left (u v : Text) : segmentEnds u ≤ segmentEnds (u ++ v) := by
  induction u with
  | nil => exact Nat.zero_le _
  | cons a u ih =>
    cases u with
    | nil => exact Nat.zero_le _
    | cons b u => exact Nat.add_le_add_left ih _

theorem segmentEnds_eq_zero {w : Text} (h : (∀ a ∈ w, a ≠ unit '/') ∨ ∃ c, ∀ a ∈ w, a = c) :
    segmentEnds w = 0 := by
  induction w with
  | nil => rfl
  | cons a w ih =>
    cases w with
    | nil => rfl
    | cons b w =>
      rw [segmentEnds, if_neg, zero_add]
      · refine ih (h.imp (fun h d hd => h d (List.mem_cons_of_mem _ hd)) ?_)
        rintro ⟨c, hc⟩
        exact ⟨c, fun d hd => hc d (List.mem_cons_of_mem _ hd)⟩
      · rintro ⟨rfl, rfl⟩
        rcases h with h | ⟨c, hc⟩
        · exact h _ (List.mem_cons_of_mem _ List.mem_cons_self) rfl
        · exact absurd ((hc _ List.mem_cons_self).trans
            (hc _ (List.mem_cons_of_mem _ List.mem_cons_self)).symm) (by decide)

theorem segmentEnds_of_mem_term {t : Term Atom} (ht : t.atom ≠ .dot) {w : Text}
    (hw : w ∈ t.language Atom.holds) : segmentEnds w = 0 := by
  have hall : ∀ a ∈ w, t.atom.holds a = true := by
    obtain ⟨atom, quantifier⟩ := t
    cases quantifier with
    | once =>
      obtain ⟨a, ha, rfl⟩ := hw
      exact List.forall_mem_singleton.2 ha
    | star => exact hw
    | plus => exact hw.2
  obtain ⟨atom, quantifier⟩ := t
  cases atom with
  | char c => exact segmentEnds_eq_zero (.inr ⟨c, fun a ha => of_decide_eq_true (hall a ha)⟩)
  | notSlash => exact segmentEnds_eq_zero (.inl fun a ha => of_decide_eq_true (hall a ha))
  | dot => exact absurd rfl ht

theorem segmentEnds_le (hts : ∀ t ∈ ts, t.atom ≠ .dot) {w : Text}
    (hw : w ∈ language Atom.holds ts) : segmentEnds w ≤ ts.length := by
  induction ts generalizing w with
  | nil =>
    rw [mem_language_nil.1 hw]
    exact le_rfl
  | cons t ts ih =>
    rw [List.forall_mem_cons] at hts
    obtain ⟨u, hu, v, hv, rfl⟩ := mem_language_cons.1 hw
    have happend := segmentEnds_append_le u v
    rw [segmentEnds_of_mem_term hts.1 hu] at happend
    have hrest := ih hts.2 hv
    rw [List.length_cons]
    omega

theorem group_no_dot {l : List Lexeme} (hl : .atom .dot ∉ l) (h : group l = some ts) :
    ∀ t ∈ ts, t.atom ≠ .dot := by
  induction l using group.induct generalizing ts with
  | case1 =>
    obtain rfl := Option.some.inj h
    exact fun t ht => absurd ht List.not_mem_nil
  | case2 a q l ih =>
    obtain ⟨ts, hts, rfl⟩ := Option.map_eq_some_iff.1 h
    refine List.forall_mem_cons.2 ⟨fun ha => hl (ha ▸ List.mem_cons_self), ih ?_ hts⟩
    exact fun hmem => hl (List.mem_cons_of_mem _ (List.mem_cons_of_mem _ hmem))
  | case3 a l hne ih =>
    rw [group_atom hne] at h
    obtain ⟨ts, hts, rfl⟩ := Option.map_eq_some_iff.1 h
    refine List.forall_mem_cons.2 ⟨fun ha => hl (ha ▸ List.mem_cons_self), ih ?_ hts⟩
    exact fun hmem => hl (List.mem_cons_of_mem _ hmem)
  | case4 q l => cases h

theorem lexemes_no_dot (items : List (Option CodeUnit)) : .atom .dot ∉ lexemes items := by
  induction items with
  | nil => exact List.not_mem_nil
  | cons item items ih =>
    cases item with
    | none => simpa [lexemes] using ih
    | some c =>
      rw [lexemes, List.mem_cons, not_or]
      refine ⟨?_, ih⟩
      split_ifs <;> exact fun h => nomatch h

/-- A path of ever so many segments. -/
def segments (n : ℕ) : Text := (List.replicate n [unit 'a', unit '/']).flatten

theorem le_segmentEnds_segments (n : ℕ) : n ≤ segmentEnds (segments n) := by
  induction n with
  | zero => exact Nat.zero_le _
  | succ n ih =>
    have hcons : segments (n + 1) = unit 'a' :: unit '/' :: segments n := rfl
    rw [hcons, segmentEnds, if_pos ⟨rfl, rfl⟩, Nat.add_comm n]
    exact Nat.add_le_add_left (ih.trans (segmentEnds_cons_le _ _)) 1

theorem documented_nonempty (ps : List Part) : ∃ w, w ∈ (ps.map Part.language).prod := by
  induction ps with
  | nil => exact ⟨[], rfl⟩
  | cons p ps ih =>
    obtain ⟨v, hv⟩ := ih
    have hp : ∃ u, u ∈ p.language := by
      cases p with
      | unit c => exact ⟨[c], rfl⟩
      | param => exact ⟨[unit 'a'], List.cons_ne_nil _ _, List.forall_mem_singleton.2 (by decide)⟩
      | wildcard => exact ⟨[], trivial⟩
    obtain ⟨u, hu⟩ := hp
    rw [List.map_cons, List.prod_cons]
    exact ⟨u ++ v, Language.append_mem_mul hu hv⟩

theorem exists_segments_of_wildcard (h : some (unit '*') ∈ params pattern) (n : ℕ) :
    ∃ path ∈ documented pattern, n ≤ segmentEnds path := by
  have hwild : Part.wildcard ∈ parts pattern := List.mem_map.2 ⟨_, h, if_pos rfl⟩
  obtain ⟨ps, qs, hparts⟩ := List.append_of_mem hwild
  obtain ⟨u, hu⟩ := documented_nonempty ps
  obtain ⟨v, hv⟩ := documented_nonempty qs
  refine ⟨u ++ (segments n ++ v), ?_, ?_⟩
  · rw [documented, hparts, List.map_append, List.prod_append, List.map_cons, List.prod_cons]
    exact Language.append_mem_mul hu (Language.append_mem_mul trivial hv)
  · exact (le_segmentEnds_segments n).trans
      ((le_segmentEnds_append_left _ v).trans (le_segmentEnds_append u _))

theorem not_asDocumented_of_wildcard (h : some (unit '*') ∈ params pattern) :
    ¬ AsDocumented pattern := by
  rintro ⟨matcher, hmatcher, hpath⟩
  rw [normalizePattern_eq] at hmatcher
  obtain ⟨path, hdoc, hle⟩ := exists_segments_of_wildcard h (matcher.length + 1)
  have hmem := test_iff.1 ((hpath path).2 hdoc)
  have := segmentEnds_le (group_no_dot (lexemes_no_dot _) hmatcher) hmem
  omega

end Wildcards

section Placeholders

variable {items : List (Option CodeUnit)} {pattern : Text}

/-- A parameter is followed by a slash, or by nothing. -/
def Separated : List (Option CodeUnit) → Prop
  | [] => True
  | none :: items => (items.head?.all (· = some (unit '/')) = true) ∧ Separated items
  | some _ :: items => Separated items

theorem paramsFrom_separated (l : Text) : Separated (paramsFrom false l)
    ∧ Separated (paramsFrom true l)
    ∧ (paramsFrom true l).head?.all (· = some (unit '/')) = true := by
  induction l with
  | nil => exact ⟨trivial, trivial, rfl⟩
  | cons a l ih =>
    rw [paramsFrom, paramsFrom]
    refine ⟨?_, ?_⟩
    · split_ifs
      · exact ⟨ih.2.2, ih.2.1⟩
      · exact ih.1
    · split_ifs with ha
      · exact ⟨ih.1, decide_eq_true (congrArg some ha)⟩
      · exact ih.2

/-- The pattern with two underscores for every parameter. -/
def blanked (pattern : Text) : Text := fill (units ['_', '_']) (params pattern)

theorem tails_placeholder : ∀ q ∈ placeholder.tail.tails,
    (q <+: placeholder ↔ q <+: units ['_', '_'])
      ∧ (units ['_', '_'] <+: q → q <+: units ['_', '_']) ∧ q.length ≤ placeholder.length := by
  decide

theorem prefix_fill_iff {q : Text} (hq : q ∈ placeholder.tail.tails) :
    q <+: fill placeholder items ↔ q <+: fill (units ['_', '_']) items := by
  induction items generalizing q with
  | nil => rfl
  | cons item items ih =>
    cases item with
    | none =>
      obtain ⟨hiff, hblank, hlen⟩ := tails_placeholder q hq
      rw [fill_none, fill_none]
      constructor
      · intro h
        have := List.prefix_of_prefix_length_le h (List.prefix_append _ _) hlen
        exact (hiff.1 this).trans (List.prefix_append _ _)
      · intro h
        have : q <+: units ['_', '_'] :=
          (List.prefix_or_prefix_of_prefix h (List.prefix_append _ _)).elim id hblank
        exact (hiff.2 this).trans (List.prefix_append _ _)
    | some c =>
      cases q with
      | nil => exact iff_of_true (List.nil_prefix) (List.nil_prefix)
      | cons a q =>
        have htail : q ∈ placeholder.tail.tails :=
          (List.mem_tails _ _).2 ((List.suffix_cons a q).trans ((List.mem_tails _ _).1 hq))
        rw [fill_some, fill_some, List.cons_prefix_cons, List.cons_prefix_cons, ih htail]

theorem not_prefix_after {a : CodeUnit} {q : Text} (ha : a ≠ unit '/')
    (h : items.head?.all (· = some (unit '/')) = true) :
    ¬ a :: q <+: fill (units ['_', '_']) items := by
  intro hpre
  cases items with
  | nil => exact absurd (List.prefix_nil.1 hpre) (List.cons_ne_nil a q)
  | cons item items =>
    obtain rfl : item = some (unit '/') := of_decide_eq_true h
    exact ha (List.cons_prefix_cons.1 hpre).1

theorem infix_fill_iff (h : Separated items) : placeholder <:+: fill (units ['_', '_']) items
    ↔ ∃ pre a rest, items = pre ++ some a :: rest
      ∧ placeholder <+: a :: fill (units ['_', '_']) rest := by
  induction items with
  | nil => simp [placeholder, units]
  | cons item items ih =>
    cases item with
    | none =>
      have hfirst : ¬ placeholder <+: unit '_' :: unit '_' :: fill (units ['_', '_']) items := by
        intro hpre
        exact not_prefix_after (by decide) h.1
          (List.cons_prefix_cons.1 (List.cons_prefix_cons.1 hpre).2).2
      have hsecond : ¬ placeholder <+: unit '_' :: fill (units ['_', '_']) items := by
        intro hpre
        exact not_prefix_after (by decide) h.1 (List.cons_prefix_cons.1 hpre).2
      change placeholder <:+: unit '_' :: unit '_' :: fill (units ['_', '_']) items ↔ _
      rw [List.infix_cons_iff, or_iff_right hfirst, List.infix_cons_iff, or_iff_right hsecond,
        ih h.2]
      constructor
      · rintro ⟨pre, a, rest, rfl, ha⟩
        exact ⟨none :: pre, a, rest, rfl, ha⟩
      · rintro ⟨pre, a, rest, hitems, ha⟩
        cases pre with
        | nil => cases hitems
        | cons c pre => exact ⟨pre, a, rest, (List.cons.inj hitems).2, ha⟩
    | some a =>
      rw [fill_some, List.infix_cons_iff, ih h]
      constructor
      · rintro (hpre | ⟨pre, b, rest, rfl, hb⟩)
        · exact ⟨[], a, items, rfl, hpre⟩
        · exact ⟨some a :: pre, b, rest, rfl, hb⟩
      · rintro ⟨pre, b, rest, hitems, hb⟩
        cases pre with
        | nil =>
          obtain ⟨hab, rfl⟩ := List.cons.inj hitems
          exact .inl (Option.some_inj.1 hab ▸ hb)
        | cons c pre => exact .inr ⟨pre, b, rest, (List.cons.inj hitems).2, hb⟩

theorem found_eq_iff : found pattern = params pattern ↔ ¬ placeholder <:+: blanked pattern := by
  have hseparated : Separated (params pattern) := (paramsFrom_separated pattern).1
  rw [found, occurrences_fill_iff placeholder_ne_nil, blanked, infix_fill_iff hseparated]
  push Not
  refine forall_congr' fun pre => forall_congr' fun a => forall_congr' fun rest =>
    imp_congr_right fun _ => not_congr ?_
  have htail : placeholder.tail ∈ placeholder.tail.tails := (List.mem_tails _ _).2 List.suffix_rfl
  change unit '_' :: placeholder.tail <+: _ ↔ unit '_' :: placeholder.tail <+: _
  rw [List.cons_prefix_cons, List.cons_prefix_cons, prefix_fill_iff htail]

end Placeholders

section Tiers

variable {pattern path : Text} {entries : List (Text × RateLimitTier)}
  {defaultTier : RateLimitTier}

/-- With two underscores for every parameter, there is no asterisk in it and no placeholder. -/
def Plain (pattern : Text) : Prop :=
  unit '*' ∉ blanked pattern ∧ ¬ placeholder <:+: blanked pattern

theorem asDocumented_iff (pattern : Text) : AsDocumented pattern ↔ Plain pattern := by
  have hstar : unit '*' ∈ blanked pattern ↔ some (unit '*') ∈ params pattern :=
    mem_fill_iff (by decide)
  unfold Plain
  rw [hstar, ← found_eq_iff]
  by_cases h : some (unit '*') ∈ params pattern
  · exact iff_of_false (not_asDocumented_of_wildcard h) (fun hplain => hplain.1 h)
  · rw [asDocumented_iff_found h]
    exact (and_iff_right h).symm

open scoped Classical in
theorem firstMatch_eq (h : ∀ e ∈ entries, AsDocumented e.1) (hpath : ∀ e ∈ entries, e.1 ≠ path) :
    firstMatch path defaultTier entries
      = some (((entries.find? fun e => path ∈ documented e.1).map Prod.snd).getD defaultTier) := by
  induction entries with
  | nil => rfl
  | cons e entries ih =>
    obtain ⟨pattern, tier⟩ := e
    rw [List.forall_mem_cons] at h hpath
    obtain ⟨matcher, hmatcher, hiff⟩ := h.1
    rw [firstMatch, if_neg hpath.1, hmatcher]
    dsimp only
    by_cases hmem : path ∈ documented pattern
    · have hfind : ((pattern, tier) :: entries).find? (fun e => decide (path ∈ documented e.1))
          = some (pattern, tier) := List.find?_cons_of_pos (by simpa using hmem)
      rw [if_pos ((hiff path).2 hmem), hfind]
      rfl
    · have hfind : ((pattern, tier) :: entries).find? (fun e => decide (path ∈ documented e.1))
          = entries.find? fun e => decide (path ∈ documented e.1) :=
        List.find?_cons_of_neg (by simpa using hmem)
      rw [if_neg (fun htest => hmem ((hiff path).1 htest)), ih h.2 hpath.2, hfind]

theorem resolveTier_eq {endpointTiers : OrdMap Text RateLimitTier}
    (h : ∀ pattern ∈ endpointTiers.keys, AsDocumented pattern) :
    resolveTier path endpointTiers defaultTier
      = some (documentedTier path endpointTiers defaultTier) := by
  unfold resolveTier documentedTier
  cases hget : endpointTiers.get path with
  | some exact => rfl
  | none =>
    have hkeys := OrdMap.get_eq_none_iff.1 hget
    exact firstMatch_eq (fun e he => h _ (List.mem_map_of_mem he))
      fun e he hpath => hkeys (hpath ▸ List.mem_map_of_mem he)

/-- Every pattern of a table matches as its syntax says, and every path has the tier that follows
from it, exactly if the patterns are plain. -/
theorem tiers_asDocumented_iff (endpointTiers : OrdMap Text RateLimitTier) :
    ((∀ pattern ∈ endpointTiers.keys, AsDocumented pattern) ∧
      ∀ path defaultTier, resolveTier path endpointTiers defaultTier
        = some (documentedTier path endpointTiers defaultTier)) ↔
      ∀ pattern ∈ endpointTiers.keys, Plain pattern := by
  have hall : (∀ pattern ∈ endpointTiers.keys, AsDocumented pattern)
      ↔ ∀ pattern ∈ endpointTiers.keys, Plain pattern :=
    forall₂_congr fun pattern _ => asDocumented_iff pattern
  rw [← hall]
  exact ⟨fun h => h.1, fun h => ⟨h, fun _ _ => resolveTier_eq h⟩⟩

/-- A wildcard repeats the slash before it, and matches nothing below. -/
theorem wildcard_misses :
    units ['/', 'v', '1', '/', 'x'] ∈ documented (units ['/', 'v', '1', '/', '*'])
      ∧ (normalizePattern (units ['/', 'v', '1', '/', '*'])).map
        (test Atom.holds · (units ['/', 'v', '1', '/', 'x'])) = some false := by
  refine ⟨?_, by decide⟩
  have hparts : (parts (units ['/', 'v', '1', '/', '*'])).map Part.language
      = [Part.language (.unit (unit '/')), Part.language (.unit (unit 'v')),
        Part.language (.unit (unit '1')), Part.language (.unit (unit '/')),
        Part.language .wildcard] := rfl
  rw [documented, hparts, List.prod_cons, List.prod_cons, List.prod_cons, List.prod_cons,
    List.prod_singleton]
  have hrest : [unit 'x'] ∈ Part.language .wildcard := trivial
  have hunit : ∀ c : CodeUnit, [c] ∈ Part.language (.unit c) := fun c => rfl
  exact Language.append_mem_mul (hunit _) (Language.append_mem_mul (hunit _)
    (Language.append_mem_mul (hunit _) (Language.append_mem_mul (hunit _) hrest)))

end Tiers

end RateLimiter

end VeriNode
