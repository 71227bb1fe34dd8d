import Mathlib.Data.List.Sort
import Mathlib.Data.List.TakeWhile
import VeriNode.Config.Loader
import VeriNode.Proofs.Precedence

/-!
# The order of the sources

The sources of a loader are sorted by priority and then by when they were added, so the first of them
with a property is the first in that order (`first_of_find?`). One that is added again comes after
itself (`repeats_sourcesOf`), and it can be added where it comes next to itself (`exists_adjacent`).
-/

namespace VeriNode

namespace ConfigLoader

variable {ν : Type*}

section Order

variable {x s t : Source ν} {added sources P Q : List (Source ν)}

theorem split_cases {α : Type*} {a b c d : List α} {x y : α} (h : a ++ x :: b = c ++ y :: d) :
    (∃ m, c = a ++ x :: m ∧ b = m ++ y :: d) ∨ (a = c ∧ x = y ∧ b = d)
      ∨ ∃ m, a = c ++ y :: m ∧ d = m ++ x :: b := by
  rcases List.append_eq_append_iff.1 h with ⟨m, rfl, hm⟩ | ⟨m, rfl, hm⟩
  · rcases m with _ | ⟨u, m⟩
    · obtain ⟨rfl, rfl⟩ := List.cons_eq_cons.1 hm
      exact .inr (.inl ⟨(List.append_nil a).symm, rfl, rfl⟩)
    · obtain ⟨rfl, rfl⟩ := List.cons_eq_cons.1 hm
      exact .inl ⟨m, rfl, rfl⟩
  · rcases m with _ | ⟨u, m⟩
    · obtain ⟨rfl, rfl⟩ := List.cons_eq_cons.1 hm
      exact .inr (.inl ⟨List.append_nil c, rfl, rfl⟩)
    · obtain ⟨rfl, rfl⟩ := List.cons_eq_cons.1 hm
      exact .inr (.inr ⟨m, rfl, rfl⟩)

theorem addSource_append (hP : ∀ t ∈ P, t.priority ≤ x.priority)
    (hQ : ∀ t ∈ Q.head?, x.priority < t.priority) : addSource (P ++ Q) x = P ++ x :: Q := by
  have hpos : ∀ t ∈ P, decide (¬ t.priority > x.priority) = true :=
    fun t ht => decide_eq_true (not_lt.2 (hP t ht))
  rw [addSource, List.takeWhile_append_of_pos hpos, List.dropWhile_append_of_pos hpos]
  rcases Q with _ | ⟨t, Q⟩
  · simp
  · have hneg : t.priority > x.priority := hQ t rfl
    simp [hneg]

theorem exists_addSource (sources : List (Source ν)) (x : Source ν) :
    ∃ P Q, sources = P ++ Q ∧ addSource sources x = P ++ x :: Q
      ∧ (∀ t ∈ P, t.priority ≤ x.priority) ∧ ∀ t ∈ Q.head?, x.priority < t.priority := by
  set p : Source ν → Bool := fun s => ¬ s.priority > x.priority with hp
  refine ⟨sources.takeWhile p, sources.dropWhile p, (List.takeWhile_append_dropWhile).symm, rfl,
    fun t ht => ?_, fun t ht => ?_⟩
  · have := List.all_eq_true.1 List.all_takeWhile t ht
    simpa [hp] using this
  · have := List.head?_dropWhile_not p sources
    rw [Option.mem_def.1 ht] at this
    simpa [hp] using this

def Sorted (sources : List (Source ν)) : Prop :=
  sources.Pairwise fun s t => s.priority ≤ t.priority

theorem Sorted.lt_of_head (h : Sorted Q) (hQ : ∀ t ∈ Q.head?, x.priority < t.priority) (ht : t ∈ Q) :
    x.priority < t.priority := by
  rcases Q with _ | ⟨u, Q⟩
  · cases ht
  · have hu := hQ u rfl
    rcases List.mem_cons.1 ht with rfl | ht
    · exact hu
    · exact hu.trans_le ((List.pairwise_cons.1 h).1 t ht)

theorem Sorted.addSource (h : Sorted sources) (x : Source ν) : Sorted (addSource sources x) := by
  obtain ⟨P, Q, rfl, he, hP, hQ⟩ := exists_addSource sources x
  obtain ⟨hp, hq, hpq⟩ := List.pairwise_append.1 h
  rw [he, Sorted, List.pairwise_append, List.pairwise_cons]
  refine ⟨hp, ⟨fun t ht => (Sorted.lt_of_head hq hQ ht).le, hq⟩, fun t ht u hu => ?_⟩
  rcases List.mem_cons.1 hu with rfl | hu
  · exact hP t ht
  · exact hpq t ht u hu

theorem sourcesOf_concat (added : List (Source ν)) (x : Source ν) :
    sourcesOf (added ++ [x]) = addSource (sourcesOf added) x := by
  rw [sourcesOf, List.foldl_append]
  rfl

theorem sorted_sourcesOf (added : List (Source ν)) : Sorted (sourcesOf added) := by
  induction added using List.reverseRecOn with
  | nil => exact List.Pairwise.nil
  | append_singleton added x ih =>
    rw [sourcesOf_concat]
    exact ih.addSource x

theorem perm_sourcesOf (added : List (Source ν)) : (sourcesOf added).Perm added := by
  induction added using List.reverseRecOn with
  | nil => exact List.Perm.nil
  | append_singleton added x ih =>
    obtain ⟨P, Q, he, he', -, -⟩ := exists_addSource (sourcesOf added) x
    rw [sourcesOf_concat, he']
    rw [he] at ih
    exact List.perm_middle.trans ((ih.cons x).trans (List.perm_append_singleton x added).symm)

theorem sort_sourcesOf (added : List (Source ν)) :
    ((sourcesOf added).insertionSort fun a b => a.priority ≤ b.priority) = sourcesOf added :=
  List.Pairwise.insertionSort_eq (sorted_sourcesOf added)

theorem sourcesOf_perm (hn : (added.map (·.priority)).Nodup) {added' : List (Source ν)}
    (h : added'.Perm added) : sourcesOf added' = sourcesOf added := by
  refine List.Perm.eq_of_pairwise (fun s t hs ht hst hts => ?_) (sorted_sourcesOf added')
    (sorted_sourcesOf added)
    ((perm_sourcesOf added').trans (h.trans (perm_sourcesOf added).symm))
  have hs' := h.mem_iff.1 ((perm_sourcesOf added').mem_iff.1 hs)
  have ht' := (perm_sourcesOf added).mem_iff.1 ht
  exact List.inj_on_of_nodup_map hn hs' ht' (le_antisymm hst hts)

/-- The source is the first by priority, and then by when it was added, of which the property
holds. -/
structure First (p : Source ν → Bool) (added : List (Source ν)) (s : Source ν) : Prop where
  holds : p s = true
  split : ∃ l r, added = l ++ s :: r ∧ (∀ t ∈ l, p t = true → s.priority < t.priority)
    ∧ ∀ t ∈ r, p t = true → s.priority ≤ t.priority

variable {p : Source ν → Bool}

theorem First.concat (h : First p added s) (hx : p x = true → s.priority ≤ x.priority) :
    First p (added ++ [x]) s := by
  obtain ⟨l, r, rfl, hl, hr⟩ := h.split
  refine ⟨h.holds, l, r ++ [x], by simp, hl, fun t ht => ?_⟩
  rcases List.mem_append.1 ht with ht | ht
  · exact hr t ht
  · rw [List.mem_singleton.1 ht]
    exact hx

theorem First.eq (h : First p added s) (h' : First p added t) : s = t := by
  obtain ⟨l, r, rfl, hl, hr⟩ := h.split
  obtain ⟨l', r', he, hl', hr'⟩ := h'.split
  rcases split_cases he with ⟨m, rfl, rfl⟩ | ⟨-, hst, -⟩ | ⟨m, rfl, rfl⟩
  · have hlt := hl' s (by simp) h.holds
    exact absurd hlt (not_lt.2 (hr t (by simp) h'.holds))
  · exact hst
  · have hlt := hl t (by simp) h'.holds
    exact absurd hlt (not_lt.2 (hr' s (by simp) h.holds))

theorem first_of_find? : (sourcesOf added).find? p = some s → First p added s := by
  induction added using List.reverseRecOn generalizing s with
  | nil => exact fun h => by cases h
  | append_singleton added x ih =>
    intro h
    obtain ⟨P, Q, he, he', hP, hQ⟩ := exists_addSource (sourcesOf added) x
    rw [sourcesOf_concat, he', List.find?_append] at h
    rw [he, List.find?_append] at ih
    rcases hfind : P.find? p with _ | t
    · rw [hfind, Option.none_or, List.find?_cons] at h
      rw [hfind, Option.none_or] at ih
      cases hx : p x with
      | true =>
        rw [hx] at h
        obtain rfl : x = s := Option.some.inj h
        refine ⟨hx, added, [], rfl, fun t ht hpt => ?_, fun t ht => by cases ht⟩
        have hmem := (perm_sourcesOf added).mem_iff.2 ht
        rw [he] at hmem
        rcases List.mem_append.1 hmem with hmem | hmem
        · exact absurd hpt (List.find?_eq_none.1 hfind t hmem)
        · have hsorted := sorted_sourcesOf added
          rw [he] at hsorted
          exact Sorted.lt_of_head (List.pairwise_append.1 hsorted).2.1 hQ hmem
      | false =>
        rw [hx] at h
        exact (ih h).concat fun hpx => by rw [hx] at hpx; cases hpx
    · rw [hfind, Option.some_or] at h
      rw [hfind, Option.some_or] at ih
      obtain rfl := Option.some.inj h
      exact (ih rfl).concat fun _ => hP _ (List.mem_of_find?_eq_some hfind)

end Order

section Again

variable {s x : Source ν} {added l r A B : List (Source ν)}

/-- A source that was added again comes after itself. -/
theorem repeats_sourcesOf (hs : s ∈ l) (r : List (Source ν)) : ∃ A B, s ∈ A
    ∧ sourcesOf (l ++ r) = A ++ B ∧ sourcesOf (l ++ s :: r) = A ++ s :: B := by
  induction r using List.reverseRecOn with
  | nil =>
    obtain ⟨P, Q, he, he', -, hQ⟩ := exists_addSource (sourcesOf l) s
    refine ⟨P, Q, ?_, by rw [List.append_nil, he], by rw [sourcesOf_concat, he']⟩
    have hmem := (perm_sourcesOf l).mem_iff.2 hs
    have hsorted := sorted_sourcesOf l
    rw [he] at hmem hsorted
    rcases List.mem_append.1 hmem with hmem | hmem
    · exact hmem
    · exact absurd (Sorted.lt_of_head (List.pairwise_append.1 hsorted).2.1 hQ hmem) (lt_irrefl _)
  | append_singleton r x ih =>
    obtain ⟨A, B, hA, he, he'⟩ := ih
    obtain ⟨P, Q, hsplit, hadd, hP, hQ⟩ := exists_addSource (sourcesOf (l ++ r)) x
    have hcons : l ++ s :: (r ++ [x]) = l ++ s :: r ++ [x] := by simp
    rw [← List.append_assoc, sourcesOf_concat, hadd, hcons, sourcesOf_concat, he']
    rw [he] at hsplit
    rcases List.append_eq_append_iff.1 hsplit with ⟨m, rfl, rfl⟩ | ⟨m, rfl, rfl⟩
    · refine ⟨A, m ++ x :: Q, hA, by simp, ?_⟩
      have hle : ∀ t ∈ A ++ s :: m, t.priority ≤ x.priority := by
        intro t ht
        rcases List.mem_append.1 ht with ht | ht
        · exact hP t (List.mem_append_left _ ht)
        · rcases List.mem_cons.1 ht with rfl | ht
          · exact hP _ (List.mem_append_left _ hA)
          · exact hP t (List.mem_append_right _ ht)
      have := addSource_append hle hQ
      simpa using this
    · rcases m with _ | ⟨u, m⟩
      · refine ⟨P, x :: B, by simpa using hA, by simp, ?_⟩
        have hle : ∀ t ∈ P ++ [s], t.priority ≤ x.priority := by
          intro t ht
          rcases List.mem_append.1 ht with ht | ht
          · exact hP t ht
          · rw [List.mem_singleton.1 ht]
            exact hP s (by simpa using hA)
        have := addSource_append hle (Q := B) hQ
        simpa using this
      · refine ⟨P ++ x :: u :: m, B, ?_, by simp, ?_⟩
        · rcases List.mem_append.1 hA with h | h
          · exact List.mem_append_left _ h
          · exact List.mem_append_right _ (List.mem_cons_of_mem _ h)
        · have := addSource_append (x := x) hP (Q := u :: m ++ s :: B) hQ
          simpa using this

/-- Each of the sorted sources can be added again so that it comes next to itself. -/
theorem exists_adjacent (h : sourcesOf added = A ++ s :: B) : ∃ l r, added = l ++ s :: r
    ∧ sourcesOf (l ++ s :: s :: r) = A ++ s :: s :: B := by
  induction added using List.reverseRecOn generalizing A B with
  | nil =>
    have : s ∈ (sourcesOf [] : List (Source ν)) := by simp [h]
    cases this
  | append_singleton added x ih =>
    obtain ⟨P, Q, hsplit, hadd, hP, hQ⟩ := exists_addSource (sourcesOf added) x
    rw [sourcesOf_concat, hadd] at h
    rcases split_cases h with ⟨m, rfl, rfl⟩ | ⟨rfl, rfl, rfl⟩ | ⟨m, rfl, rfl⟩
    · obtain ⟨l, r, rfl, hrep⟩ := ih (A := P ++ m) (B := B) (by rw [hsplit, List.append_assoc])
      refine ⟨l, r ++ [x], by simp, ?_⟩
      have hcons : l ++ s :: s :: (r ++ [x]) = l ++ s :: s :: r ++ [x] := by simp
      have hhead : ∀ t ∈ (m ++ s :: s :: B).head?, x.priority < t.priority := by
        rcases m with _ | ⟨u, m⟩ <;> exact hQ
      have := addSource_append hP hhead
      rw [hcons, sourcesOf_concat, hrep]
      simpa using this
    · -- the source that was added last
      refine ⟨added, [], rfl, ?_⟩
      have hle : ∀ t ∈ P ++ [x], t.priority ≤ x.priority := by
        intro t ht
        rcases List.mem_append.1 ht with ht | ht
        · exact hP t ht
        · rw [List.mem_singleton.1 ht]
      have hcons : added ++ [x, x] = added ++ [x] ++ [x] := by simp
      have := addSource_append hle hQ
      rw [hcons, sourcesOf_concat, sourcesOf_concat, hadd]
      simpa using this
    · obtain ⟨l, r, rfl, hrep⟩ := ih (A := A) (B := m ++ Q) (by rw [hsplit]; simp)
      refine ⟨l, r ++ [x], by simp, ?_⟩
      have hcons : l ++ s :: s :: (r ++ [x]) = l ++ s :: s :: r ++ [x] := by simp
      have hle : ∀ t ∈ A ++ s :: s :: m, t.priority ≤ x.priority := by
        intro t ht
        refine hP t ?_
        simp only [List.mem_append, List.mem_cons] at ht ⊢
        tauto
      have := addSource_append hle hQ
      rw [hcons, sourcesOf_concat, hrep]
      simpa using this

end Again

end ConfigLoader

end VeriNode

/-!
# Which source a value comes from

At each place of the merged configuration there is what the source has that is first, by priority and
then by when it was added, among those that decide the place. This, and that a source added again
changes nothing, is so exactly if no object that takes part in the merge has a key called `__proto__`
(`exactPrecedence_iff`).
-/

namespace VeriNode

namespace ConfigLoader

open ProtoVal

variable {ν : Type*} {q : List String} {v : ProtoVal ν} {vs : List (ProtoVal ν)} {s : Source ν}
  {sources added : List (Source ν)}

/-- What of the source is merged. -/
def Source.config (s : Source ν) : Option (ProtoVal ν) :=
  s.result.bind fun c => if c.fields.length > 0 then some c.value else none

/-- The source was loaded and decides what stands at the place. -/
def Source.decides (q : List String) (s : Source ν) : Bool :=
  s.result.any fun c => ConfigLoader.decides q c.value

theorem configs_sourcesOf (added : List (Source ν)) :
    configs (sourcesOf added) = (sourcesOf added).filterMap Source.config := by
  rw [configs, sort_sourcesOf, List.filterMap_filterMap]
  rfl

theorem plain_configs (added : List (Source ν)) : Plain (configs (sourcesOf added)) := by
  intro v hv
  rw [configs_sourcesOf] at hv
  obtain ⟨s, -, hs⟩ := List.mem_filterMap.1 hv
  obtain ⟨c, -, hc⟩ := Option.bind_eq_some_iff.1 hs
  split_ifs at hc
  obtain rfl := Option.some.inj hc
  exact ⟨c.plain, rfl⟩

theorem decides_eq (hq : q ≠ []) (s : Source ν) : s.decides q = s.config.any (decides q) := by
  rw [Source.decides, Source.config]
  rcases s.result with _ | c
  · rfl
  · rw [Option.any_some, Option.bind_some]
    split_ifs with hc
    · rfl
    · have hnil : c.fields = [] := List.eq_nil_of_length_eq_zero (Nat.eq_zero_of_not_pos hc)
      obtain ⟨k, q, rfl⟩ := List.exists_cons_of_ne_nil hq
      rw [decides, PlainConfig.value, own, hnil]
      rfl

theorem find?_configs (hq : q ≠ []) : (sources.filterMap Source.config).find? (decides q)
    = (sources.find? (Source.decides q)).bind Source.config := by
  induction sources with
  | nil => rfl
  | cons s sources ih =>
    rw [List.find?_cons, decides_eq hq]
    rcases hc : s.config with _ | v
    · rw [List.filterMap_cons_none hc, ih]
      rfl
    · rw [List.filterMap_cons_some hc, List.find?_cons, Option.any_some]
      cases decides q v with
      | true => exact hc.symm
      | false => exact ih

theorem config_eq_some (h : s.config = some v) : ∃ c, s.result = some c ∧ v = c.value := by
  obtain ⟨c, hs, hc⟩ := Option.bind_eq_some_iff.1 h
  split_ifs at hc
  exact ⟨c, hs, (Option.some.inj hc).symm⟩

theorem decided_concat_empty (hq : q ≠ []) (vs : List (ProtoVal ν)) :
    decided q (vs ++ [.empty]) = decided q vs := by
  obtain ⟨k, q, rfl⟩ := List.exists_cons_of_ne_nil hq
  unfold decided
  rw [List.find?_append]
  rcases vs.find? (decides (k :: q)) with _ | v <;> rfl

theorem partsAt_concat_empty (hq : q ≠ []) (vs : List (ProtoVal ν)) :
    partsAt q (vs ++ [.empty]) = partsAt q vs := by
  obtain ⟨k, q, rfl⟩ := List.exists_cons_of_ne_nil hq
  rw [partsAt, partsAt, objectsAt, objectsAt, List.filterMap_append]
  congr 2
  exact List.append_nil _

theorem merged_eq (sources : List (Source ν)) :
    merged sources = overlay (configs sources ++ [.empty]) := mergeConfigs_reverse _

theorem plain_concat_empty (added : List (Source ν)) :
    Plain (configs (sourcesOf added) ++ [.empty]) := by
  intro v hv
  rcases List.mem_append.1 hv with hv | hv
  · exact plain_configs added v hv
  · rw [List.mem_singleton.1 hv]
    exact ⟨rfl, rfl⟩

/-- What is said of the sources in the order they were added in: the merged configuration is a plain
object with at each place what the first of them has there that decides the place, the order of the
calls makes no difference where priorities are distinct, and neither does a source added again. -/
structure ExactPrecedence (added : List (Source ν)) : Prop where
  object : node (merged (sourcesOf added)) = .empty
  value : ∀ q ≠ [], (∃ s c, First (Source.decides q) added s ∧ s.result = some c
      ∧ shape q (merged (sourcesOf added)) = shape q c.value)
    ∨ (∀ s ∈ added, s.decides q = false) ∧ shape q (merged (sourcesOf added)) = none
  order : (added.map (·.priority)).Nodup → ∀ added' : List (Source ν), added'.Perm added →
    merged (sourcesOf added') = merged (sourcesOf added)
  again : ∀ l r s, added = l ++ r → s ∈ l →
    Same (merged (sourcesOf (l ++ s :: r))) (merged (sourcesOf added))

theorem ExactPrecedence.leaf (h : ExactPrecedence added) (hq : q ≠ []) {c : PlainConfig ν}
    (hfirst : First (Source.decides q) added s) (hc : s.result = some c)
    (hv : follow q c.value = some v) (hleaf : v.isObject = false) :
    follow q (merged (sourcesOf added)) = some v := by
  rw [← shape_eq_leaf_iff hleaf] at hv ⊢
  rcases h.value q hq with ⟨t, c', hfirst', hc', hshape⟩ | ⟨hno, -⟩
  · obtain rfl := hfirst.eq hfirst'
    rw [hc] at hc'
    obtain rfl := Option.some.inj hc'
    rw [hshape, hv]
  · obtain ⟨l, r, rfl, -, -⟩ := hfirst.split
    have hs := hno s (List.mem_append_right l List.mem_cons_self)
    rw [hfirst.holds] at hs
    cases hs

/-- No object that takes part, with others or alone, has a key called `__proto__`. -/
def Clean (configs : List (ProtoVal ν)) : Prop :=
  ∀ q, ∀ v ∈ partsAt q configs, v.own "__proto__" = none

/-- Precedence, by the configurations in their order. -/
theorem precise_configs_iff : Precise (configs (sourcesOf added) ++ [.empty])
    ↔ node (merged (sourcesOf added)) = .empty
      ∧ ∀ q ≠ [], (∃ s c, First (Source.decides q) added s ∧ s.result = some c
          ∧ shape q (merged (sourcesOf added)) = shape q c.value)
        ∨ (∀ s ∈ added, s.decides q = false) ∧ shape q (merged (sourcesOf added)) = none := by
  have hnil : decided [] (configs (sourcesOf added) ++ [.empty]) = some .empty :=
    decided_nil (List.append_ne_nil_of_right_ne_nil _ (List.cons_ne_nil _ _))
      (plain_concat_empty added)
  have hdecided (q : List String) (hq : q ≠ []) : decided q (configs (sourcesOf added) ++ [.empty])
      = ((sourcesOf added).find? (Source.decides q)).bind fun s => s.config.bind (shape q) := by
    rw [decided_concat_empty hq, decided, configs_sourcesOf, find?_configs hq, Option.bind_assoc]
  constructor
  · intro hp
    refine ⟨Option.some.inj ((merged_eq _ ▸ hp []).trans hnil), fun q hq => ?_⟩
    have hshape := (hp q).trans (hdecided q hq)
    rw [← merged_eq] at hshape
    rcases hfind : (sourcesOf added).find? (Source.decides q) with _ | s
    · refine .inr ⟨fun s hs => ?_, by rw [hshape, hfind]; rfl⟩
      have := List.find?_eq_none.1 hfind s ((perm_sourcesOf added).mem_iff.2 hs)
      exact eq_false_of_ne_true this
    · have hs := List.find?_some hfind
      rw [decides_eq hq, Option.any_eq_true] at hs
      obtain ⟨v, hv, -⟩ := hs
      obtain ⟨c, hc, rfl⟩ := config_eq_some hv
      refine .inl ⟨s, c, first_of_find? hfind, hc, ?_⟩
      rw [hshape, hfind, Option.bind_some, hv]
      rfl
  · rintro ⟨hobject, hvalue⟩ q
    rw [← merged_eq]
    by_cases hq : q = []
    · rw [hq, hnil, shape_nil, hobject]
    · rw [hdecided q hq]
      rcases hvalue q hq with ⟨s, c, hfirst, hc, hshape⟩ | ⟨hno, hshape⟩
      · rcases hfind : (sourcesOf added).find? (Source.decides q) with _ | t
        · obtain ⟨l, r, rfl, -, -⟩ := hfirst.split
          have hmem := (perm_sourcesOf (l ++ s :: r)).mem_iff.2
            (List.mem_append_right l List.mem_cons_self)
          exact absurd hfirst.holds (List.find?_eq_none.1 hfind s hmem)
        · obtain rfl := hfirst.eq (first_of_find? hfind)
          have hs := List.find?_some hfind
          rw [decides_eq hq, Option.any_eq_true] at hs
          obtain ⟨v, hv, -⟩ := hs
          obtain ⟨c', hc', rfl⟩ := config_eq_some hv
          rw [hc] at hc'
          obtain rfl := Option.some.inj hc'
          rw [hshape, Option.bind_some, hv]
          rfl
      · have hfind : (sourcesOf added).find? (Source.decides q) = none := by
          refine List.find?_eq_none.2 fun s hs => ?_
          rw [hno s ((perm_sourcesOf added).mem_iff.1 hs)]
          exact Bool.false_ne_true
        rw [hshape, hfind]
        rfl

theorem precise_concat_iff : Precise (configs (sourcesOf added) ++ [.empty])
    ↔ Lossless (configs (sourcesOf added) ++ [.empty]) :=
  precise_iff (List.append_ne_nil_of_right_ne_nil _ (List.cons_ne_nil _ _))
    (plain_concat_empty added)

theorem Clean.lossless (h : Clean vs) : Lossless (vs ++ [.empty]) := by
  intro q _ v hv
  by_cases hq : q = []
  · rw [hq] at hv
    rcases List.mem_append.1 hv with hv | hv
    · exact h [] v hv
    · rw [List.mem_singleton.1 hv]
      rfl
  · rw [partsAt_concat_empty hq] at hv
    exact h q v hv

theorem Clean.of_repeats {vs' : List (ProtoVal ν)} (h : Clean vs) (hr : Repeats vs vs') : Clean vs' :=
  fun q v hv => h q v ((hr.partsAt q).subset hv)

/-- An object that takes part does so twice if the one it is within is repeated. -/
theorem exists_twice : ∀ {q : List String} {vs : List (ProtoVal ν)}, v ∈ partsAt q vs →
    ∃ a u b, vs = a ++ u :: b ∧ ∃ a' b', partsAt q (a ++ u :: u :: b) = a' ++ v :: v :: b'
  | [], vs, hv => by
    obtain ⟨a, b, rfl⟩ := List.append_of_mem hv
    exact ⟨a, v, b, rfl, a, b, rfl⟩
  | k :: q, vs, hv => by
    obtain ⟨a₀, u₀, b₀, he, a', b', htwice⟩ := exists_twice (q := q) hv
    have hobj : ∀ w ∈ a₀ ++ u₀ :: b₀, w.isObject = true := by
      rw [← he]
      exact fun w hw => List.all_eq_true.1 List.all_takeWhile w hw
    set rest := (vs.filterMap (·.own k)).dropWhile (·.isObject) with hrest
    have hvalues : vs.filterMap (·.own k) = a₀ ++ u₀ :: (b₀ ++ rest) := by
      rw [← List.takeWhile_append_dropWhile (p := fun u : ProtoVal ν => u.isObject)
        (l := vs.filterMap (·.own k)), ← hrest]
      rw [objectsAt] at he
      rw [he]
      simp
    obtain ⟨a, c, rfl, ha, hc⟩ := List.filterMap_eq_append_iff.1 hvalues
    obtain ⟨d, u, b, rfl, hd, hu, hb⟩ := List.filterMap_eq_cons_iff.1 hc
    refine ⟨a ++ d, u, b, by simp, a', b', ?_⟩
    have hstop : rest.takeWhile (·.isObject) = [] := by
      rw [List.takeWhile_eq_nil_iff]
      intro hpos
      exact List.dropWhile_get_zero_not _ _ hpos
    have hobj' : ∀ w ∈ a₀ ++ u₀ :: u₀ :: b₀, w.isObject = true := by
      intro w hw
      refine hobj w ?_
      simp only [List.mem_append, List.mem_cons] at hw ⊢
      tauto
    have hdnil : d.filterMap (·.own k) = [] := List.filterMap_eq_nil_iff.2 hd
    have hall : (a ++ d ++ u :: u :: b).filterMap (·.own k) = (a₀ ++ u₀ :: u₀ :: b₀) ++ rest := by
      rw [List.filterMap_append, List.filterMap_append, ha, hdnil, owns_cons, owns_cons, hu, hb]
      simp
    rw [partsAt, objectsAt, hall, List.takeWhile_append_of_pos hobj', hstop, List.append_nil]
    exact htwice

theorem repeats_configs {l : List (Source ν)} (hs : s ∈ l) (r : List (Source ν)) :
    Repeats (configs (sourcesOf (l ++ r))) (configs (sourcesOf (l ++ s :: r))) := by
  obtain ⟨A, B, hA, he, he'⟩ := repeats_sourcesOf hs r
  rw [configs_sourcesOf, configs_sourcesOf, he, he', List.filterMap_append, List.filterMap_append]
  rcases hc : s.config with _ | v
  · rw [List.filterMap_cons_none hc]
    exact .inl rfl
  · rw [List.filterMap_cons_some hc]
    exact .inr ⟨_, _, v, List.mem_filterMap.2 ⟨s, hA, hc⟩, rfl, rfl⟩

theorem repeats_concat {vs' : List (ProtoVal ν)} (h : Repeats vs vs') (w : ProtoVal ν) :
    Repeats (vs ++ [w]) (vs' ++ [w]) := by
  rcases h with rfl | ⟨a, b, v, hv, rfl, rfl⟩
  · exact .inl rfl
  · exact .inr ⟨a, b ++ [w], v, hv, by simp, by simp⟩

/-- It is so exactly if no object that takes part has a key called `__proto__`. -/
theorem exactPrecedence_iff (added : List (Source ν)) :
    ExactPrecedence added ↔ Clean (configs (sourcesOf added)) := by
  constructor
  · intro h q v hv
    have hp : Precise (configs (sourcesOf added) ++ [.empty]) :=
      precise_configs_iff.2 ⟨h.object, h.value⟩
    obtain ⟨a, u, b, he, a', b', htwice⟩ := exists_twice hv
    -- the source is added again next to itself, and its object is merged with itself
    rw [configs_sourcesOf] at he
    obtain ⟨A, C, hsplit, rfl, hC⟩ := List.filterMap_eq_append_iff.1 he
    obtain ⟨D, s, B, rfl, hD, hs, rfl⟩ := List.filterMap_eq_cons_iff.1 hC
    rw [← List.append_assoc] at hsplit
    obtain ⟨l, r, rfl, hadjacent⟩ := exists_adjacent hsplit
    have hcons : l ++ s :: s :: r = l ++ [s] ++ s :: r := by simp
    have hcons' : l ++ s :: r = l ++ [s] ++ r := by simp
    have hmem : s ∈ l ++ [s] := by simp
    have hrepeats := repeats_configs hmem r
    have hprecise : Precise (configs (sourcesOf (l ++ s :: s :: r)) ++ [.empty]) := by
      intro q
      have hsame := h.again (l ++ [s]) r s hcons' hmem q
      have hdecided := (repeats_concat hrepeats .empty).decided q
      rw [← hcons, ← hcons'] at hdecided
      rw [← hcons, merged_eq, merged_eq, hp q] at hsame
      rw [hsame, hdecided]
    have hconfigs : configs (sourcesOf (l ++ s :: s :: r))
        = A.filterMap Source.config ++ u :: u :: B.filterMap Source.config := by
      have hDnil : D.filterMap Source.config = [] := List.filterMap_eq_nil_iff.2 hD
      rw [configs_sourcesOf, hadjacent, List.filterMap_append, List.filterMap_append, hDnil,
        List.filterMap_cons_some hs, List.filterMap_cons_some hs, List.append_nil]
    rw [← hconfigs] at htwice
    have hlossless := precise_concat_iff.1 hprecise q
    have hlen : 2 ≤ (a' ++ v :: v :: b').length := by
      rw [List.length_append, List.length_cons, List.length_cons]
      omega
    by_cases hq : q = []
    · rw [hq, partsAt] at hlossless htwice
      rw [htwice] at hlossless
      exact hlossless (hlen.trans (List.sublist_append_left _ _).length_le) v (by simp)
    · rw [partsAt_concat_empty hq, htwice] at hlossless
      exact hlossless hlen v (by simp)
  · intro h
    have hp := precise_concat_iff.2 h.lossless
    obtain ⟨hobject, hvalue⟩ := precise_configs_iff.1 hp
    refine ⟨hobject, hvalue, fun hn added' hperm => ?_, ?_⟩
    · rw [sourcesOf_perm hn hperm]
    · rintro l r s rfl hs q
      have hrepeats := repeats_configs hs r
      have hp' := precise_concat_iff.2 (h.of_repeats hrepeats).lossless
      rw [merged_eq, merged_eq, hp' q, hp q, (repeats_concat hrepeats .empty).decided q]

/-- The fields of a configuration file that gives the objects it is merged into a prototype. -/
def inheriting : PlainConfig ℕ where
  fields := [("__proto__", .obj .objectPrototype
      [("db", .obj .objectPrototype [("host", .json (.str "example.com"))])]),
    ("db", .obj .objectPrototype [("port", .json (.num 5432))])]
  plain := by decide

/-- What is in the prototype is merged with what no source has there. -/
theorem host_from_no_source : ¬ ExactPrecedence [(⟨20, some inheriting⟩ : Source ℕ)] := by
  intro h
  have hshape : shape ["db", "host"] (merged (sourcesOf [⟨20, some inheriting⟩]))
      = some (.json (.str "example.com")) := rfl
  rcases h.value ["db", "host"] (by simp) with ⟨s, c, hfirst, hc, -⟩ | ⟨-, hnone⟩
  · obtain ⟨l, r, he, -, -⟩ := hfirst.split
    have hs : s ∈ [(⟨20, some inheriting⟩ : Source ℕ)] := he ▸ by simp
    obtain rfl := List.mem_singleton.1 hs
    exact absurd hfirst.holds (by decide)
  · rw [hshape] at hnone
    cases hnone

end ConfigLoader

end VeriNode
