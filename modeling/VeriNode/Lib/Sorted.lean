import Mathlib.Data.List.Infix
import Mathlib.Data.List.Sort

/-!
# The first of what is sorted

What comes first when a list is sorted is one of its elements, and before all of them. A sort that
is given a comparison promises an order only where the comparison is one (`IsSort`): where it is
not, any element can come first (`exists_isSort_first`). What is sorted by distinct keys is read by
pages without loss even while elements leave at its end (`mem_pages`).
-/

namespace Sorted

section Insertion

variable {α : Type*} {r : α → α → Prop} [DecidableRel r] {l : List α} {a : α}

theorem first_eq_none : (l.insertionSort r).head? = none ↔ l = [] := by
  rw [List.head?_eq_none_iff, ← List.length_eq_zero_iff, List.length_insertionSort,
    List.length_eq_zero_iff]

theorem first_mem (h : (l.insertionSort r).head? = some a) : a ∈ l :=
  (List.mem_insertionSort r).1 (List.mem_of_head? h)

theorem first_rel [Std.Total r] [IsTrans α r] (h : (l.insertionSort r).head? = some a) :
    ∀ b ∈ l, r a b := by
  intro b hb
  have hsorted := List.pairwise_insertionSort r l
  obtain ⟨rest, hrest⟩ := List.head?_eq_some_iff.1 h
  have hb' := (List.mem_insertionSort r).2 hb
  rw [hrest] at hsorted hb'
  rcases List.mem_cons.1 hb' with rfl | hb'
  · exact (Std.Total.total b b).elim id id
  · exact (List.pairwise_cons.1 hsorted).1 b hb'

end Insertion

section Comparisons

variable {α : Type*} {before : α → α → Prop} {sort : List α → List α} {l : List α} {a : α}

/-- A comparison orders the elements of a list. -/
structure Orders (before : α → α → Prop) (l : List α) : Prop where
  asymm : ∀ a ∈ l, ∀ b ∈ l, before a b → ¬ before b a
  trans : ∀ a ∈ l, ∀ b ∈ l, ∀ c ∈ l, ¬ before b a → ¬ before c b → ¬ before c a

/-- What a sort by a comparison is good for. -/
structure IsSort (before : α → α → Prop) (sort : List α → List α) : Prop where
  perm : ∀ l, (sort l).Perm l
  sorted : ∀ l, Orders before l → (sort l).Pairwise fun a b => ¬ before b a

theorem IsSort.head_mem (h : IsSort before sort) (ha : (sort l).head? = some a) : a ∈ l :=
  (h.perm l).mem_iff.1 (List.mem_of_head? ha)

theorem IsSort.head_eq_none (h : IsSort before sort) : (sort l).head? = none ↔ l = [] := by
  rw [List.head?_eq_none_iff, ← List.length_eq_zero_iff, (h.perm l).length_eq,
    List.length_eq_zero_iff]

theorem IsSort.head_first (h : IsSort before sort) (ho : Orders before l)
    (ha : (sort l).head? = some a) : ∀ b ∈ l, ¬ before b a := by
  intro b hb
  have hsorted := h.sorted l ho
  have hmem := h.head_mem ha
  obtain ⟨rest, hrest⟩ := List.head?_eq_some_iff.1 ha
  have hb' := (h.perm l).mem_iff.2 hb
  rw [hrest] at hsorted hb'
  rcases List.mem_cons.1 hb' with rfl | hb'
  · exact fun haa => ho.asymm b hmem b hmem haa haa
  · exact (List.pairwise_cons.1 hsorted).1 b hb'

theorem isSort_insertionSort [DecidableRel before] :
    IsSort before fun l => l.insertionSort fun a b => ¬ before b a := by
  refine ⟨fun l => List.perm_insertionSort _ l, fun l ho => ?_⟩
  -- on the elements of the list the comparison is an order
  let r : {a // a ∈ l} → {a // a ∈ l} → Prop := fun a b => ¬ before b.1 a.1
  have : Std.Total r := ⟨fun a b => by
    by_cases hab : before a.1 b.1
    · exact .inl (ho.asymm a.1 a.2 b.1 b.2 hab)
    · exact .inr hab⟩
  have : IsTrans _ r := ⟨fun a b c hab hbc => ho.trans a.1 a.2 b.1 b.2 c.1 c.2 hab hbc⟩
  have hmap : (l.attach.insertionSort r).map (·.1) = l.insertionSort fun a b => ¬ before b a := by
    rw [List.map_insertionSort r (fun a b => ¬ before b a) (·.1) l.attach
      fun a _ b _ => Iff.rfl, List.attach_map_subtype_val]
  show (l.insertionSort fun a b => ¬ before b a).Pairwise _
  rw [← hmap, List.pairwise_map]
  exact List.pairwise_insertionSort r l.attach

theorem exists_isSort_first (ha : a ∈ l) (ho : ¬ Orders before l) :
    ∃ sort, IsSort before sort ∧ (sort l).head? = some a := by
  classical
  have hinsertion : IsSort before _ := isSort_insertionSort
  refine ⟨fun l' => if l' = l then a :: l.erase a else
    l'.insertionSort fun a b => ¬ before b a, ⟨fun l' => ?_, fun l' ho' => ?_⟩, ?_⟩
  · split_ifs with he
    · rw [he]
      exact (List.perm_cons_erase ha).symm
    · exact hinsertion.perm l'
  · have hne : l' ≠ l := fun he => ho (he ▸ ho')
    rw [if_neg hne]
    exact hinsertion.sorted l' ho'
  · show (if l = l then _ else _ : List α).head? = _
    rw [if_pos rfl, List.head?_cons]

end Comparisons

section Pages

variable {α : Type*} {l l' : List α} {p : α → Bool} {limit n : ℕ}

theorem IsSort.sort_filter {before : α → α → Prop} {sort sort' : List α → List α}
    (h : IsSort before sort) (h' : IsSort before sort') (ho : Orders before l)
    (htotal : ∀ a ∈ l, ∀ b ∈ l, ¬ before a b → ¬ before b a → a = b) (p : α → Bool) :
    sort (l.filter p) = (sort' l).filter p := by
  have hsub : ∀ a ∈ l.filter p, a ∈ l := fun a ha => (List.mem_filter.1 ha).1
  have ho' : Orders before (l.filter p) :=
    ⟨fun a ha b hb => ho.asymm a (hsub a ha) b (hsub b hb),
      fun a ha b hb c hc => ho.trans a (hsub a ha) b (hsub b hb) c (hsub c hc)⟩
  have hperm : (sort (l.filter p)).Perm ((sort' l).filter p) :=
    (h.perm _).trans ((h'.perm l).symm.filter p)
  refine hperm.eq_of_pairwise ?_ (h.sorted _ ho') ((h'.sorted l ho).sublist List.filter_sublist)
  intro a b ha hb hab hba
  exact htotal a (hsub a ((h.perm _).mem_iff.1 ha)) b
    ((h'.perm l).mem_iff.1 (List.mem_filter.1 hb).1) hba hab

theorem filter_prefix (h : l.Pairwise fun a b => p b = true → p a = true) : l.filter p <+: l := by
  induction l with
  | nil => exact List.prefix_rfl
  | cons a l ih =>
    rw [List.pairwise_cons] at h
    by_cases ha : p a = true
    · rw [List.filter_cons_of_pos ha, List.cons_prefix_cons]
      exact ⟨rfl, ih h.2⟩
    · have hnone : l.filter p = [] :=
        List.filter_eq_nil_iff.2 fun b hb hpb => ha (h.1 b hb hpb)
      rw [List.filter_cons_of_neg ha, hnone]
      exact List.nil_prefix

/-- A page of a list. -/
def page (limit k : ℕ) (l : List α) : List α := (l.drop (k * limit)).take limit

theorem page_isPrefix {k : ℕ} (h : l <+: l') : page limit k l <+: page limit k l' :=
  List.IsPrefix.take (List.IsPrefix.drop h _) _

theorem flatMap_page (limit n : ℕ) (l : List α) :
    (List.range n).flatMap (page limit · l) = l.take (n * limit) := by
  induction n with
  | zero => simp
  | succ n ih =>
    rw [List.range_succ, List.flatMap_append, ih, Nat.succ_mul, List.take_add]
    simp [page]

theorem pages_sublist {f : ℕ → List α} (h : ∀ k < n, f k <+: l) :
    ((List.range n).flatMap fun k => page limit k (f k)).Sublist l := by
  have hpages : ((List.range n).flatMap fun k => page limit k (f k)).Sublist
      ((List.range n).flatMap (page limit · l)) := by
    induction n with
    | zero => exact List.nil_sublist _
    | succ n ih =>
      rw [List.range_succ, List.flatMap_append, List.flatMap_append]
      refine (ih fun k hk => h k (by omega)).append ?_
      simpa using (page_isPrefix (h n n.lt_succ_self)).sublist
  rw [flatMap_page] at hpages
  exact hpages.trans (List.take_sublist _ _)

theorem mem_pages {f : ℕ → List α} (h : ∀ k < n, l <+: f k) (hlen : l.length ≤ n * limit) {a : α}
    (ha : a ∈ l) : a ∈ (List.range n).flatMap fun k => page limit k (f k) := by
  rw [← List.take_of_length_le hlen, ← flatMap_page, List.mem_flatMap] at ha
  obtain ⟨k, hk, hak⟩ := ha
  exact List.mem_flatMap.2 ⟨k, hk, (page_isPrefix (h k (List.mem_range.1 hk))).subset hak⟩

end Pages

end Sorted
