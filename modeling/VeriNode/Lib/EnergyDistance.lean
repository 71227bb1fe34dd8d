import Mathlib.Algebra.BigOperators.Group.Finset.Sigma
import Mathlib.Algebra.BigOperators.Group.List.Basic
import Mathlib.Algebra.BigOperators.Field
import Mathlib.Algebra.BigOperators.Ring.List
import Mathlib.Algebra.Order.Field.Basic
import Mathlib.Data.Finset.Sort
import Mathlib.Tactic.Linarith
import Mathlib.Tactic.LinearCombination
import Mathlib.Tactic.Ring

/-!
# The energy distance of two samples

Twice the mean distance between the samples, less the mean distances within them. Between the values
of the samples, in their order, it is twice the square of what their distribution functions are
apart, times the width of the gap (`energy_eq_gaps`): so it is not negative, and it is zero exactly
if the samples have the same distribution.
-/

namespace EnergyDistance

variable {K : Type*} [Field K]

section Means

def mean (x : List K) (g : K → K) : K := (x.map g).sum / x.length

variable {x : List K} {f g : K → K} {c : K}

theorem mean_eq_div (x : List K) (g : K → K) : mean x g = (x.map g).sum / x.length := rfl

theorem mean_congr (h : ∀ a ∈ x, f a = g a) : mean x f = mean x g := by
  rw [mean_eq_div, mean_eq_div, List.map_congr_left h]

theorem mean_add (x : List K) (f g : K → K) :
    mean x (fun a => f a + g a) = mean x f + mean x g := by
  rw [mean_eq_div, List.sum_map_add, add_div]
  rfl

theorem mean_mul (x : List K) (c : K) (g : K → K) : mean x (fun a => c * g a) = c * mean x g := by
  rw [mean_eq_div, List.sum_map_mul_left, mul_div_assoc]
  rfl

theorem mean_sub (x : List K) (f g : K → K) :
    mean x (fun a => f a - g a) = mean x f - mean x g := by
  have h := mean_add x f fun a => -1 * g a
  rw [mean_mul] at h
  calc mean x (fun a => f a - g a) = mean x fun a => f a + -1 * g a :=
        mean_congr fun a _ => by ring
    _ = mean x f - mean x g := by rw [h]; ring

theorem mean_const [CharZero K] (hx : x ≠ []) (c : K) : mean x (fun _ => c) = c := by
  have hlen : (x.length : K) ≠ 0 := Nat.cast_ne_zero.2 fun h => hx (List.length_eq_zero_iff.1 h)
  rw [mean_eq_div, List.map_const', List.sum_replicate, nsmul_eq_mul, mul_div_cancel_left₀ _ hlen]

theorem mean_perm {x' : List K} (h : x.Perm x') (g : K → K) : mean x g = mean x' g := by
  rw [mean_eq_div, mean_eq_div, (h.map g).sum_eq, h.length_eq]

theorem mean_map (x : List K) (φ g : K → K) : mean (x.map φ) g = mean x fun a => g (φ a) := by
  rw [mean_eq_div, List.map_map, List.length_map]
  rfl

end Means

section Gaps

/-- The widths of the gaps of a list, each times what is had at its lower end. -/
def gaps (f : K → K) : List K → K
  | u :: v :: l => (v - u) * f u + gaps f (v :: l)
  | _ => 0

variable {f g : K → K} {l x : List K} {a b : K}

theorem gaps_cons (f : K → K) (u v : K) (l : List K) :
    gaps f (u :: v :: l) = (v - u) * f u + gaps f (v :: l) := rfl

theorem gaps_congr (h : ∀ u ∈ l, f u = g u) : gaps f l = gaps g l := by
  induction l with
  | nil => rfl
  | cons u l ih =>
    obtain ⟨hu, hl⟩ := List.forall_mem_cons.1 h
    rcases l with _ | ⟨v, l⟩
    · rfl
    · rw [gaps_cons, gaps_cons, hu, ih hl]

theorem gaps_sub (f g : K → K) (l : List K) :
    gaps (fun u => f u - g u) l = gaps f l - gaps g l := by
  induction l with
  | nil => exact (sub_self 0).symm
  | cons u l ih =>
    rcases l with _ | ⟨v, l⟩
    · exact (sub_self 0).symm
    · rw [gaps_cons, gaps_cons, gaps_cons, ih]
      ring

theorem gaps_mul (c : K) (f : K → K) (l : List K) : gaps (fun u => c * f u) l = c * gaps f l := by
  induction l with
  | nil => exact (mul_zero c).symm
  | cons u l ih =>
    rcases l with _ | ⟨v, l⟩
    · exact (mul_zero c).symm
    · rw [gaps_cons, gaps_cons, ih]
      ring

theorem mean_gaps (x : List K) (f : K → K → K) (l : List K) :
    mean x (fun a => gaps (f a) l) = gaps (fun u => mean x fun a => f a u) l := by
  have hzero : mean x (fun _ => 0) = 0 := by simp [mean_eq_div]
  induction l with
  | nil => exact hzero
  | cons u l ih =>
    rcases l with _ | ⟨v, l⟩
    · exact hzero
    · simp only [gaps_cons]
      rw [mean_add, mean_mul, ih]

variable [LinearOrder K]

/-- Whether a value is at most the lower end of a gap. -/
def below (u a : K) : K := if a ≤ u then 1 else 0

theorem below_mul_self (u a : K) : below u a * below u a = below u a := by
  unfold below
  split_ifs
  · exact mul_one 1
  · exact mul_zero 0

theorem add_gaps_below (hl : l.Pairwise (· < ·)) (ha : a ∈ l) (hne : l ≠ []) :
    a + gaps (fun u => below u a) l = l.getLast hne := by
  induction l generalizing a with
  | nil => exact absurd rfl hne
  | cons u l ih =>
    obtain ⟨hu, htail⟩ := List.pairwise_cons.1 hl
    rcases l with _ | ⟨v, l⟩
    · rw [List.mem_singleton.1 ha]
      exact add_zero u
    · have hv := ih htail List.mem_cons_self (List.cons_ne_nil v l)
      rw [List.getLast_cons (List.cons_ne_nil v l), gaps_cons]
      rcases List.mem_cons.1 ha with rfl | ha
      · have hone : below a a = 1 := if_pos le_rfl
        have hall : gaps (fun u => below u a) (v :: l) = gaps (fun u => below u v) (v :: l) := by
          refine gaps_congr fun w hw => ?_
          have hvw : v ≤ w := by
            rcases List.mem_cons.1 hw with rfl | hw
            · exact le_rfl
            · exact ((List.pairwise_cons.1 htail).1 w hw).le
          rw [below, below, if_pos hvw, if_pos ((hu v List.mem_cons_self).le.trans hvw)]
        rw [hone, hall, ← hv]
        ring
      · have hzero : below u a = 0 := if_neg (hu a ha).not_ge
        rw [hzero, mul_zero, zero_add]
        exact ih htail ha (List.cons_ne_nil v l)

variable [IsStrictOrderedRing K]

theorem gaps_nonneg (hl : l.Pairwise (· < ·)) (hf : ∀ u, 0 ≤ f u) : 0 ≤ gaps f l := by
  induction l with
  | nil => exact le_rfl
  | cons u l ih =>
    rcases l with _ | ⟨v, l⟩
    · exact le_rfl
    · obtain ⟨hu, hl⟩ := List.pairwise_cons.1 hl
      exact add_nonneg (mul_nonneg (sub_nonneg.2 (hu v List.mem_cons_self).le) (hf u)) (ih hl)

theorem eq_zero_of_gaps (hl : l.Pairwise (· < ·)) (hf : ∀ u, 0 ≤ f u) (h : gaps f l = 0) :
    ∀ u ∈ l.dropLast, f u = 0 := by
  induction l with
  | nil => exact fun u hu => absurd hu List.not_mem_nil
  | cons u l ih =>
    rcases l with _ | ⟨v, l⟩
    · exact fun u hu => absurd hu List.not_mem_nil
    · obtain ⟨hu, hl⟩ := List.pairwise_cons.1 hl
      have hwidth : 0 < v - u := sub_pos.2 (hu v List.mem_cons_self)
      have hrest := gaps_nonneg hl hf
      have hfirst := mul_nonneg hwidth.le (hf u)
      rw [gaps_cons] at h
      rw [List.dropLast_cons_cons, List.forall_mem_cons]
      refine ⟨?_, ih hl (by linarith)⟩
      exact (mul_eq_zero.1 (by linarith)).resolve_left hwidth.ne'

theorem abs_sub_eq_gaps (hl : l.Pairwise (· < ·)) (ha : a ∈ l) (hb : b ∈ l) :
    |a - b| = gaps (fun u => (below u a - below u b) ^ 2) l := by
  wlog hab : a ≤ b generalizing a b
  · rw [abs_sub_comm, this hb ha (le_of_not_ge hab)]
    exact gaps_congr fun u _ => by ring
  have hne : l ≠ [] := List.ne_nil_of_mem ha
  have hsub : b - a = gaps (fun u => below u a - below u b) l := by
    rw [gaps_sub]
    linarith [add_gaps_below hl ha hne, add_gaps_below hl hb hne]
  rw [abs_sub_comm, abs_of_nonneg (sub_nonneg.2 hab), hsub]
  refine gaps_congr fun u _ => ?_
  -- what is below of the greater one is below of the other
  unfold below
  by_cases hb : b ≤ u
  · rw [if_pos hb, if_pos (hab.trans hb)]
    ring
  · rw [if_neg hb, sub_zero]
    split_ifs <;> ring

end Gaps

section Energy

variable [LinearOrder K]

def energy (x y : List K) : K :=
  mean x (fun a => mean y fun b => |a - b|) - mean x (fun a => mean x fun b => |a - b|) +
    (mean x (fun a => mean y fun b => |a - b|) - mean y fun a => mean y fun b => |a - b|)

theorem energy_eq (x y : List K) : energy x y =
    2 * mean x (fun a => mean y fun b => |a - b|) - mean x (fun a => mean x fun b => |a - b|) -
      mean y fun a => mean y fun b => |a - b| := by
  rw [energy]
  ring

/-- What part of the sample is at most a value: its distribution function. -/
def part (x : List K) (u : K) : K := mean x fun a => below u a

def SameDistribution (x y : List K) : Prop :=
  ∀ v, (x.count v : K) / x.length = (y.count v : K) / y.length

variable {x y x' y' l : List K}

theorem mean_eq_sum {S : Finset K} (hS : x.toFinset ⊆ S) (g : K → K) :
    mean x g = ∑ v ∈ S, (x.count v : K) / x.length * g v := by
  rw [mean_eq_div, Finset.sum_list_map_count, Finset.sum_div]
  refine (Finset.sum_subset hS fun v _ hv => ?_).trans (Finset.sum_congr rfl fun v _ => ?_)
  · rw [List.count_eq_zero.2 fun h => hv (List.mem_toFinset.2 h), zero_nsmul, zero_div]
  · rw [nsmul_eq_mul, div_mul_eq_mul_div]

theorem SameDistribution.mean_eq (h : SameDistribution x y) (g : K → K) : mean x g = mean y g := by
  have hx : x.toFinset ⊆ x.toFinset ∪ y.toFinset := Finset.subset_union_left
  have hy : y.toFinset ⊆ x.toFinset ∪ y.toFinset := Finset.subset_union_right
  rw [mean_eq_sum hx g, mean_eq_sum hy g]
  exact Finset.sum_congr rfl fun v _ => by rw [h v]

theorem energy_of_same (h : SameDistribution x y) : energy x y = 0 := by
  rw [energy_eq, h.mean_eq, h.mean_eq]
  simp only [h.mean_eq]
  ring

theorem energy_perm (hx : x.Perm x') (hy : y.Perm y') : energy x y = energy x' y' := by
  simp only [energy, mean_perm hx, mean_perm hy]

theorem energy_add (x y : List K) (c : K) :
    energy (x.map (· + c)) (y.map (· + c)) = energy x y := by
  simp only [energy, mean_map, add_sub_add_right_eq_sub]

end Energy

section Distributions

variable [LinearOrder K] {x y l : List K}

/-- The values of the samples, in their order. -/
def values (x y : List K) : List K := (x ++ y).toFinset.sort

omit [Field K] in
theorem pairwise_values (x y : List K) : (values x y).Pairwise (· < ·) :=
  (Finset.sortedLT_sort _).pairwise

omit [Field K] in
theorem mem_values {a : K} : a ∈ values x y ↔ a ∈ x ∨ a ∈ y := by
  rw [values, Finset.mem_sort, List.mem_toFinset, List.mem_append]

omit [Field K] in
theorem le_getLast (hl : l.Pairwise (· < ·)) (hne : l ≠ []) {a : K} (ha : a ∈ l) :
    a ≤ l.getLast hne := by
  rw [← List.dropLast_append_getLast hne, List.pairwise_append] at hl
  rw [← List.dropLast_append_getLast hne, List.mem_append, List.mem_singleton] at ha
  rcases ha with ha | ha
  · exact (hl.2.2 a ha _ (List.mem_singleton_self _)).le
  · exact ha.le

/-- Whether it is the value. -/
def point (v a : K) : K := if a = v then 1 else 0

theorem count_div_eq (x : List K) (v : K) :
    (x.count v : K) / x.length = mean x fun a => point v a := by
  rw [mean_eq_div]
  congr 1
  induction x with
  | nil => simp
  | cons a x ih =>
    rw [List.count_cons, List.map_cons, List.sum_cons, ← ih, point]
    by_cases h : a = v <;> simp [h, add_comm]

theorem point_eq_below (hl : l.Pairwise (· < ·)) {v : K} (hv : v ∈ l) :
    (∀ a ∈ l, point v a = below v a) ∨ ∃ u ∈ l, ∀ a ∈ l, point v a = below v a - below u a := by
  induction l with
  | nil => exact absurd hv List.not_mem_nil
  | cons w l ih =>
    obtain ⟨hw, htail⟩ := List.pairwise_cons.1 hl
    rcases List.mem_cons.1 hv with rfl | hv
    · refine .inl fun a ha => ?_
      rcases List.mem_cons.1 ha with rfl | ha
      · rw [point, below, if_pos rfl, if_pos le_rfl]
      · rw [point, below, if_neg (hw a ha).ne', if_neg (hw a ha).not_ge]
    · have hwv := hw v hv
      have hfirst : point v w = 0 := if_neg hwv.ne
      have hone : below v w = 1 := if_pos hwv.le
      right
      rcases ih htail hv with h | ⟨u, hu, h⟩
      · refine ⟨w, List.mem_cons_self, List.forall_mem_cons.2 ⟨?_, fun a ha => ?_⟩⟩
        · have hself : below w w = 1 := if_pos le_rfl
          rw [hfirst, hone, hself, sub_self]
        · have hzero : below w a = 0 := if_neg (hw a ha).not_ge
          rw [h a ha, hzero, sub_zero]
      · refine ⟨u, List.mem_cons_of_mem _ hu, List.forall_mem_cons.2 ⟨?_, h⟩⟩
        have hu : below u w = 1 := if_pos (hw u hu).le
        rw [hfirst, hone, hu, sub_self]

theorem same_of_parts (hl : l.Pairwise (· < ·)) (hxl : ∀ a ∈ x, a ∈ l) (hyl : ∀ b ∈ y, b ∈ l)
    (h : ∀ u ∈ l, part x u = part y u) : SameDistribution x y := by
  intro v
  by_cases hv : v ∈ l
  · rw [count_div_eq, count_div_eq]
    rcases point_eq_below hl hv with hat | ⟨u, hu, hat⟩
    · rw [mean_congr fun a ha => hat a (hxl a ha), mean_congr fun b hb => hat b (hyl b hb)]
      exact h v hv
    · rw [mean_congr fun a ha => hat a (hxl a ha), mean_congr fun b hb => hat b (hyl b hb),
        mean_sub, mean_sub]
      exact congrArg₂ (· - ·) (h v hv) (h u hu)
  · rw [List.count_eq_zero.2 fun ha => hv (hxl v ha), List.count_eq_zero.2 fun hb => hv (hyl v hb),
      Nat.cast_zero, zero_div, zero_div]

end Distributions

section Distance

variable [LinearOrder K] [IsStrictOrderedRing K] {x y l : List K}

theorem mean_sq_below (hx : x ≠ []) (hy : y ≠ []) (u : K) :
    mean x (fun a => mean y fun b => (below u a - below u b) ^ 2) =
      part x u + part y u - 2 * part x u * part y u := by
  have hinner (a : K) : mean y (fun b => (below u a - below u b) ^ 2) =
      below u a + (part y u - 2 * part y u * below u a) := by
    have hexp : mean y (fun b => (below u a - below u b) ^ 2) =
        mean y fun b => below u a + (below u b - 2 * below u a * below u b) := by
      refine mean_congr fun b _ => ?_
      linear_combination below_mul_self u a + below_mul_self u b
    rw [hexp, mean_add, mean_const hy, mean_sub, mean_mul, part]
    ring
  simp only [hinner]
  rw [mean_add, mean_sub, mean_const hx, mean_mul, part, part]
  ring

theorem energy_eq_gaps (hx : x ≠ []) (hy : y ≠ []) (hl : l.Pairwise (· < ·)) (hxl : ∀ a ∈ x, a ∈ l)
    (hyl : ∀ b ∈ y, b ∈ l) :
    energy x y = gaps (fun u => 2 * (part x u - part y u) ^ 2) l := by
  have hmean {x y : List K} (hx : x ≠ []) (hy : y ≠ []) (hxl : ∀ a ∈ x, a ∈ l)
      (hyl : ∀ b ∈ y, b ∈ l) : mean x (fun a => mean y fun b => |a - b|) =
        gaps (fun u => part x u + part y u - 2 * part x u * part y u) l := by
    calc mean x (fun a => mean y fun b => |a - b|)
        = mean x fun a => mean y fun b => gaps (fun u => (below u a - below u b) ^ 2) l :=
          mean_congr fun a ha => mean_congr fun b hb => abs_sub_eq_gaps hl (hxl a ha) (hyl b hb)
      _ = gaps (fun u => mean x fun a => mean y fun b => (below u a - below u b) ^ 2) l := by
          simp only [mean_gaps]
      _ = _ := gaps_congr fun u _ => mean_sq_below hx hy u
  rw [energy_eq, hmean hx hy hxl hyl, hmean hx hx hxl hxl, hmean hy hy hyl hyl, ← gaps_mul,
    ← gaps_sub, ← gaps_sub]
  exact gaps_congr fun u _ => by ring

theorem energy_nonneg (hx : x ≠ []) (hy : y ≠ []) : 0 ≤ energy x y := by
  rw [energy_eq_gaps hx hy (pairwise_values x y) (fun a ha => mem_values.2 (.inl ha))
    fun b hb => mem_values.2 (.inr hb)]
  exact gaps_nonneg (pairwise_values x y) fun u => mul_nonneg zero_le_two (sq_nonneg _)

theorem energy_eq_zero_iff (hx : x ≠ []) (hy : y ≠ []) :
    energy x y = 0 ↔ SameDistribution x y := by
  refine ⟨fun h => ?_, energy_of_same⟩
  have hl := pairwise_values x y
  have hxl : ∀ a ∈ x, a ∈ values x y := fun a ha => mem_values.2 (.inl ha)
  have hyl : ∀ b ∈ y, b ∈ values x y := fun b hb => mem_values.2 (.inr hb)
  rw [energy_eq_gaps hx hy hl hxl hyl] at h
  have hzero := eq_zero_of_gaps hl (fun u => mul_nonneg zero_le_two (sq_nonneg _)) h
  have hne : values x y ≠ [] := by
    obtain ⟨a, ha⟩ := List.exists_mem_of_ne_nil x hx
    exact List.ne_nil_of_mem (hxl a ha)
  have hlast {z : List K} (hz : z ≠ []) (hzl : ∀ a ∈ z, a ∈ values x y) :
      part z ((values x y).getLast hne) = 1 := by
    have hone : ∀ a ∈ z, below ((values x y).getLast hne) a = 1 := fun a ha =>
      if_pos (le_getLast hl hne (hzl a ha))
    rw [part, mean_congr hone, mean_const hz]
  refine same_of_parts hl hxl hyl fun u hu => ?_
  rw [← List.dropLast_append_getLast hne, List.mem_append, List.mem_singleton] at hu
  rcases hu with hu | rfl
  · have hsq := hzero u hu
    exact sub_eq_zero.1 (pow_eq_zero_iff two_ne_zero |>.1
      ((mul_eq_zero.1 hsq).resolve_left two_ne_zero))
  · rw [hlast hx hxl, hlast hy hyl]

theorem mean_comm (x y : List K) (f : K → K → K) :
    mean x (fun a => mean y (f a)) = mean y fun b => mean x fun a => f a b := by
  rw [mean_eq_sum (Finset.Subset.refl _), mean_eq_sum (Finset.Subset.refl _)]
  simp only [mean_eq_sum (Finset.Subset.refl _), Finset.mul_sum]
  rw [Finset.sum_comm]
  exact Finset.sum_congr rfl fun b _ => Finset.sum_congr rfl fun a _ => by ring

theorem energy_comm (x y : List K) : energy x y = energy y x := by
  have hcross : mean x (fun a => mean y fun b => |a - b|) =
      mean y fun b => mean x fun a => |b - a| := by
    rw [mean_comm]
    simp only [abs_sub_comm]
  rw [energy_eq, energy_eq, hcross]
  ring

theorem energy_mul (x y : List K) (c : K) :
    energy (x.map (c * ·)) (y.map (c * ·)) = |c| * energy x y := by
  simp only [energy_eq, mean_map, ← mul_sub, abs_mul, mean_mul]
  ring

end Distance

end EnergyDistance
