import Mathlib.Computability.Language
import Mathlib.Data.List.Infix

/-!
# Regular expressions of the language

An anchored regular expression whose terms stand one after another, each an atom with how often it
is matched: `test` is its matcher, and `language` the words that it accepts. A replacement of all
occurrences of a string takes them from the front and without overlaps (`occurrences`), so that a
string that was put in is found again where no other occurrence begins before it
(`occurrences_fill_iff`).
-/

namespace RegExp

variable {κ α : Type*}

inductive Quantifier
  | once
  | star
  | plus
deriving DecidableEq

structure Term (κ : Type*) where
  atom : κ
  quantifier : Quantifier
deriving DecidableEq

section Matching

/-- As many letters as `k` lets through. -/
def testStar (p : α → Bool) (k : List α → Bool) : List α → Bool
  | [] => k []
  | a :: w => (p a && testStar p k w) || k (a :: w)

/-- The terms match the whole word. -/
def test (holds : κ → α → Bool) : List (Term κ) → List α → Bool
  | [], w => w.isEmpty
  | ⟨_, .once⟩ :: _, [] => false
  | ⟨atom, .once⟩ :: ts, a :: w => holds atom a && test holds ts w
  | ⟨atom, .star⟩ :: ts, w => testStar (holds atom) (test holds ts) w
  | ⟨_, .plus⟩ :: _, [] => false
  | ⟨atom, .plus⟩ :: ts, a :: w => holds atom a && testStar (holds atom) (test holds ts) w

/-- The words that a term matches. -/
def Term.language (holds : κ → α → Bool) (t : Term κ) : Language α :=
  match t.quantifier with
  | .once => {w | ∃ a, holds t.atom a ∧ w = [a]}
  | .star => {w | ∀ a ∈ w, holds t.atom a}
  | .plus => {w | w ≠ [] ∧ ∀ a ∈ w, holds t.atom a}

/-- The words that the terms match. -/
def language (holds : κ → α → Bool) (ts : List (Term κ)) : Language α :=
  (ts.map (Term.language holds)).prod

variable {holds : κ → α → Bool} {t : Term κ} {ts : List (Term κ)} {w : List α}

theorem testStar_iff {p : α → Bool} {k : List α → Bool} :
    testStar p k w = true ↔ ∃ u v, w = u ++ v ∧ (∀ a ∈ u, p a = true) ∧ k v = true := by
  induction w with
  | nil => simp [testStar]
  | cons a w ih =>
    rw [testStar, Bool.or_eq_true, Bool.and_eq_true, ih]
    constructor
    · rintro (⟨ha, u, v, rfl, hu, hk⟩ | hk)
      · exact ⟨a :: u, v, rfl, List.forall_mem_cons.2 ⟨ha, hu⟩, hk⟩
      · exact ⟨[], a :: w, rfl, fun b hb => absurd hb List.not_mem_nil, hk⟩
    · rintro ⟨u, v, huv, hu, hk⟩
      cases u with
      | nil =>
        rw [List.nil_append] at huv
        exact .inr (huv ▸ hk)
      | cons b u =>
        obtain ⟨rfl, rfl⟩ := List.cons.inj huv
        rw [List.forall_mem_cons] at hu
        exact .inl ⟨hu.1, u, v, rfl, hu.2, hk⟩

theorem mem_language_nil : w ∈ language holds [] ↔ w = [] := Iff.rfl

theorem mem_language_cons : w ∈ language holds (t :: ts)
    ↔ ∃ u ∈ t.language holds, ∃ v ∈ language holds ts, u ++ v = w := by
  rw [language, List.map_cons, List.prod_cons]
  exact Language.mem_mul

theorem test_iff : test holds ts w = true ↔ w ∈ language holds ts := by
  induction ts generalizing w with
  | nil => rw [test, List.isEmpty_iff, mem_language_nil]
  | cons t ts ih =>
    obtain ⟨atom, quantifier⟩ := t
    rw [mem_language_cons]
    cases quantifier with
    | once =>
      cases w with
      | nil =>
        refine iff_of_false Bool.false_ne_true ?_
        rintro ⟨-, ⟨b, -, rfl⟩, v, -, hw⟩
        cases hw
      | cons a w =>
        rw [test, Bool.and_eq_true, ih]
        constructor
        · rintro ⟨ha, hw⟩
          exact ⟨[a], ⟨a, ha, rfl⟩, w, hw, rfl⟩
        · rintro ⟨-, ⟨b, hb, rfl⟩, v, hv, hw⟩
          obtain ⟨rfl, rfl⟩ := List.cons.inj hw
          exact ⟨hb, hv⟩
    | star =>
      rw [test, testStar_iff]
      constructor
      · rintro ⟨u, v, rfl, hu, hv⟩
        exact ⟨u, hu, v, ih.1 hv, rfl⟩
      · rintro ⟨u, hu, v, hv, rfl⟩
        exact ⟨u, v, rfl, hu, ih.2 hv⟩
    | plus =>
      cases w with
      | nil =>
        refine iff_of_false Bool.false_ne_true ?_
        rintro ⟨u, ⟨hne, -⟩, v, -, hw⟩
        exact hne (List.append_eq_nil_iff.1 hw).1
      | cons a w =>
        rw [test, Bool.and_eq_true, testStar_iff]
        constructor
        · rintro ⟨ha, u, v, rfl, hu, hv⟩
          exact ⟨a :: u, ⟨List.cons_ne_nil a u, List.forall_mem_cons.2 ⟨ha, hu⟩⟩, v, ih.1 hv, rfl⟩
        · rintro ⟨u, ⟨hne, hu⟩, v, hv, hw⟩
          obtain ⟨b, u, rfl⟩ := List.exists_cons_of_ne_nil hne
          obtain ⟨rfl, rfl⟩ := List.cons.inj hw
          rw [List.forall_mem_cons] at hu
          exact ⟨hu.1, u, v, rfl, hu.2, ih.2 hv⟩

theorem length_le_of_mem (hts : ∀ t ∈ ts, t.quantifier ≠ .star) (hw : w ∈ language holds ts) :
    ts.length ≤ w.length := by
  induction ts generalizing w with
  | nil => exact Nat.zero_le _
  | cons t ts ih =>
    rw [List.forall_mem_cons] at hts
    obtain ⟨u, hu, v, hv, rfl⟩ := mem_language_cons.1 hw
    have hv' := ih hts.2 hv
    have hu' : 0 < u.length := by
      obtain ⟨atom, quantifier⟩ := t
      cases quantifier with
      | once =>
        obtain ⟨a, -, rfl⟩ := hu
        exact Nat.one_pos
      | star => exact absurd rfl hts.1
      | plus => exact List.length_pos_iff.2 hu.1
    rw [List.length_append, List.length_cons]
    omega

/-- The shortest words match letter by letter. -/
theorem mem_iff_forall₂ (hts : ∀ t ∈ ts, t.quantifier ≠ .star) (hlen : w.length = ts.length) :
    w ∈ language holds ts ↔ List.Forall₂ (fun t a => holds t.atom a = true) ts w := by
  induction ts generalizing w with
  | nil =>
    rw [List.length_eq_zero_iff.1 hlen, mem_language_nil]
    exact iff_of_true rfl .nil
  | cons t ts ih =>
    obtain ⟨a, w, rfl⟩ := List.exists_cons_of_length_eq_add_one hlen
    rw [List.forall_mem_cons] at hts
    rw [List.forall₂_cons, ← ih hts.2 (Nat.succ_injective hlen), mem_language_cons]
    obtain ⟨atom, quantifier⟩ := t
    constructor
    · rintro ⟨u, hu, v, hv, huv⟩
      have hv' := length_le_of_mem hts.2 hv
      have hlen' : u.length + v.length = ts.length + 1 := by
        rw [← List.length_append, huv, hlen, List.length_cons]
      cases quantifier with
      | once =>
        obtain ⟨b, hb, rfl⟩ := hu
        obtain ⟨rfl, rfl⟩ := List.cons.inj huv
        exact ⟨hb, hv⟩
      | star => exact absurd rfl hts.1
      | plus =>
        obtain ⟨b, u, rfl⟩ := List.exists_cons_of_ne_nil hu.1
        rw [List.length_cons] at hlen'
        obtain rfl : u = [] := List.length_eq_zero_iff.1 (by omega)
        obtain ⟨rfl, rfl⟩ := List.cons.inj huv
        exact ⟨hu.2 b List.mem_cons_self, hv⟩
    · rintro ⟨ha, hw⟩
      refine ⟨[a], ?_, w, hw, rfl⟩
      cases quantifier with
      | once => exact ⟨a, ha, rfl⟩
      | star => exact absurd rfl hts.1
      | plus => exact ⟨List.cons_ne_nil a [], List.forall_mem_singleton.2 ha⟩

end Matching

section Replacing

variable [DecidableEq α] {sub l : List α} {items : List (Option α)}

/-- The letters from the `n`-th on, and `none` for every occurrence of a string among them. -/
def occurrencesFrom (sub : List α) : ℕ → List α → List (Option α)
  | _, [] => []
  | n + 1, _ :: l => occurrencesFrom sub n l
  | 0, a :: l =>
    if sub <+: a :: l then none :: occurrencesFrom sub (sub.length - 1) l
    else some a :: occurrencesFrom sub 0 l

/-- The occurrences of a string, from the front and without overlaps. -/
def occurrences (sub l : List α) : List (Option α) := occurrencesFrom sub 0 l

/-- A text with a string put in for every occurrence. -/
def fill (replacement : List α) (items : List (Option α)) : List α :=
  items.flatMap fun item => item.elim replacement fun a => [a]

/-- `replace` with a global expression that is a string. -/
def replaceAll (sub replacement l : List α) : List α := fill replacement (occurrences sub l)

omit [DecidableEq α] in
@[simp] theorem fill_nil (r : List α) : fill r [] = [] := rfl

omit [DecidableEq α] in
@[simp] theorem fill_none (r : List α) (items : List (Option α)) :
    fill r (none :: items) = r ++ fill r items := rfl

omit [DecidableEq α] in
@[simp] theorem fill_some (r : List α) (a : α) (items : List (Option α)) :
    fill r (some a :: items) = a :: fill r items := rfl

theorem occurrencesFrom_eq (sub : List α) (n : ℕ) (l : List α) :
    occurrencesFrom sub n l = occurrences sub (l.drop n) := by
  induction n generalizing l with
  | zero => rfl
  | succ n ih =>
    cases l with
    | nil => rfl
    | cons a l => exact ih l

@[simp] theorem occurrences_nil (sub : List α) : occurrences sub [] = [] := rfl

theorem occurrences_append (hsub : sub ≠ []) (l : List α) :
    occurrences sub (sub ++ l) = none :: occurrences sub l := by
  obtain ⟨a, sub, rfl⟩ := List.exists_cons_of_ne_nil hsub
  have hpre : a :: sub <+: a :: (sub ++ l) := List.prefix_append (a :: sub) l
  rw [List.cons_append, occurrences, occurrencesFrom, if_pos hpre, occurrencesFrom_eq]
  simp

theorem occurrences_cons {a : α} (h : ¬ sub <+: a :: l) :
    occurrences sub (a :: l) = some a :: occurrences sub l := by
  rw [occurrences, occurrencesFrom, if_neg h]
  rfl

theorem fill_occurrences (hsub : sub ≠ []) (l : List α) : fill sub (occurrences sub l) = l := by
  induction hn : l.length using Nat.strong_induction_on generalizing l with
  | _ n ih =>
    by_cases hp : sub <+: l
    · obtain ⟨l, rfl⟩ := hp
      have hlt : l.length < n := by
        rw [← hn, List.length_append]
        exact Nat.lt_add_of_pos_left (List.length_pos_iff.2 hsub)
      rw [occurrences_append hsub, fill_none, ih _ hlt l rfl]
    · cases l with
      | nil => rfl
      | cons a l =>
        rw [occurrences_cons hp, fill_some, ih _ (by rw [← hn]; exact Nat.lt_succ_self _) l rfl]

omit [DecidableEq α] in
theorem mem_fill_iff {r : List α} {a : α} (ha : a ∉ r) : a ∈ fill r items ↔ some a ∈ items := by
  unfold fill
  rw [List.mem_flatMap]
  constructor
  · rintro ⟨item, hitem, hmem⟩
    cases item with
    | none => exact absurd hmem ha
    | some b => rwa [List.mem_singleton.1 hmem]
  · exact fun h => ⟨some a, h, List.mem_singleton_self a⟩

theorem replaceAll_append (hsub : sub ≠ []) (r l : List α) :
    replaceAll sub r (sub ++ l) = r ++ replaceAll sub r l := by
  rw [replaceAll, occurrences_append hsub, fill_none, replaceAll]

theorem replaceAll_cons {a : α} (h : ¬ sub <+: a :: l) (r : List α) :
    replaceAll sub r (a :: l) = a :: replaceAll sub r l := by
  rw [replaceAll, occurrences_cons h, fill_some, replaceAll]

theorem occurrences_fill_iff (hsub : sub ≠ []) :
    occurrences sub (fill sub items) = items
      ↔ ∀ pre a rest, items = pre ++ some a :: rest → ¬ sub <+: a :: fill sub rest := by
  induction items with
  | nil => simp
  | cons item items ih =>
    cases item with
    | none =>
      rw [fill_none, occurrences_append hsub, List.cons.injEq, ih]
      constructor
      · rintro ⟨-, h⟩ pre a rest hitems
        cases pre with
        | nil => cases hitems
        | cons b pre => exact h pre a rest (List.cons.inj hitems).2
      · intro h
        exact ⟨rfl, fun pre a rest hitems => h (none :: pre) a rest (by rw [hitems]; rfl)⟩
    | some a =>
      by_cases hpre : sub <+: a :: fill sub items
      · refine iff_of_false (fun h => ?_) (fun h => h [] a items rfl hpre)
        obtain ⟨l, hl⟩ := hpre
        rw [fill_some, ← hl, occurrences_append hsub] at h
        cases h
      · rw [fill_some, occurrences_cons hpre, List.cons.injEq, ih]
        constructor
        · rintro ⟨-, h⟩ pre b rest hitems
          cases pre with
          | nil =>
            obtain ⟨hab, rfl⟩ := List.cons.inj hitems
            rwa [← Option.some_inj.1 hab]
          | cons c pre => exact h pre b rest (List.cons.inj hitems).2
        · intro h
          exact ⟨rfl, fun pre b rest hitems => h (some a :: pre) b rest (by rw [hitems]; rfl)⟩

end Replacing

end RegExp

/-!
# Expressions as objects

What `test` does with an expression that is an object: with the flag `g` or `y` it begins at the
`lastIndex` that its last use has left, and leaves one. So it answers as the expression would that
nobody has used yet, if there is neither flag or the index is zero (`test_of_fresh`).
-/

/-- An expression, by its flags and its matcher: the end of a match that begins at an index of a
text of code units. -/
structure JsRegExp where
  global : Bool := false
  sticky : Bool := false
  unicode : Bool := false
  matcher : List ℕ → ℕ → Option ℕ

namespace JsRegExp

/-- `AdvanceStringIndex`: past the character at the index. -/
def advance (re : JsRegExp) (units : List ℕ) (i : ℕ) : ℕ :=
  match units.drop i with
  | lead :: trail :: _ =>
    if re.unicode && 0xD800 ≤ lead && lead ≤ 0xDBFF && 0xDC00 ≤ trail && trail ≤ 0xDFFF then i + 2
    else i + 1
  | _ => i + 1

/-- The end of the first match from an index on, of which so many are left. -/
def search (re : JsRegExp) (units : List ℕ) : ℕ → ℕ → Option ℕ
  | 0, _ => none
  | left + 1, i =>
    if units.length < i then none
    else
      match re.matcher units i with
      | some stop => some stop
      | none => if re.sticky then none else search re units left (re.advance units i)

/-- The expression keeps an index between its uses. -/
def stateful (re : JsRegExp) : Bool := re.global || re.sticky

/-- `test`, with the `lastIndex` before it and after it. -/
def test (re : JsRegExp) (units : List ℕ) (lastIndex : ℕ) : Bool × ℕ :=
  let start := if re.stateful then lastIndex else 0
  match re.search units (units.length + 1 - start) start with
  | some stop => (true, if re.stateful then stop else lastIndex)
  | none => (false, if re.stateful then 0 else lastIndex)

/-- The expression matches a text. -/
def accepts (re : JsRegExp) (units : List ℕ) : Bool := (re.test units 0).1

variable {re : JsRegExp} {units : List ℕ} {lastIndex : ℕ}

theorem test_fst : (re.test units lastIndex).1 =
    (re.search units (units.length + 1 - if re.stateful then lastIndex else 0)
      (if re.stateful then lastIndex else 0)).isSome := by
  unfold test
  cases h : re.search units (units.length + 1 - if re.stateful then lastIndex else 0)
    (if re.stateful then lastIndex else 0) <;> simp [h]

theorem test_of_fresh (h : re.stateful = true → lastIndex = 0) :
    (re.test units lastIndex).1 = re.accepts units := by
  have hstart : (if re.stateful then lastIndex else 0) = if re.stateful then 0 else 0 := by
    split_ifs with hs
    · exact h hs
    · rfl
  rw [accepts, test_fst, test_fst, hstart]

end JsRegExp
