import VeriNode.Lib.EnergyDistance
import VeriNode.Performance.Edm

/-!
# Where a series changes

While all pairs are summed, the energy statistic is the energy distance of the samples
(`energyStatistic_eq`), so it is a distance (`energy_distance`). A split leaves room on both sides,
and so do the splits of its two parts, whatever the statistic is and however its values compare; so
the points that are found, in their order, cut the series into segments that are large enough
(`changePoints_segment`).
-/

namespace VeriNode

namespace Edm

section Statistic

open EnergyDistance

variable {x y x' y' : List ℚ} {c : ℚ}

/-- All pairs of the samples are summed. -/
structure Small (x y : List ℚ) : Prop where
  left : x ≠ []
  right : y ≠ []
  left_le : x.length ≤ 200
  right_le : y.length ≤ 200
  pairs : x.length * y.length ≤ 10000

theorem sum_distances (a : ℚ) (arr : List ℚ) :
    ((a :: arr).map fun u => ((a :: arr).map fun v => |u - v|).sum).sum =
      2 * (arr.map fun v => |a - v|).sum +
        (arr.map fun u => (arr.map fun v => |u - v|).sum).sum := by
  have hsplit : (arr.map fun u => ((a :: arr).map fun v => |u - v|).sum) =
      arr.map fun u => |u - a| + (arr.map fun v => |u - v|).sum := by
    simp only [List.map_cons, List.sum_cons]
  rw [List.map_cons, List.sum_cons, hsplit, List.sum_map_add, List.map_cons, List.sum_cons,
    sub_self, abs_zero]
  simp only [abs_sub_comm _ a]
  ring

theorem two_mul_pairSum (arr : List ℚ) :
    2 * pairSum arr = (arr.map fun u => (arr.map fun v => |u - v|).sum).sum := by
  induction arr with
  | nil => exact mul_zero 2
  | cons a arr ih =>
    rw [sum_distances, ← ih, pairSum]
    ring

theorem mean_mean (x y : List ℚ) : mean x (fun a => mean y fun b => |a - b|) =
    (x.map fun a => (y.map fun b => |a - b|).sum).sum / (x.length * y.length) := by
  have hinner (a : ℚ) :
      mean y (fun b => |a - b|) = (y.length : ℚ)⁻¹ * (y.map fun b => |a - b|).sum :=
    div_eq_inv_mul _ _
  simp only [hinner]
  rw [mean_mul, mean, ← div_eq_inv_mul, div_div]

theorem withinDispersion_eq (hx : x ≠ []) (h : x.length ≤ 200) :
    withinDispersion x = mean x fun a => mean x fun b => |a - b| := by
  rw [mean_mean, withinDispersion]
  split_ifs with hone
  · -- a sample of one value
    obtain ⟨a, x, rfl⟩ := List.exists_cons_of_ne_nil hx
    obtain rfl : x = [] := List.length_eq_zero_iff.1 (by simpa using hone)
    simp
  · rw [two_mul_pairSum]

theorem energyStatistic_eq (h : Small x y) : energyStatistic x y = energy x y := by
  have hne : ¬ (x.length = 0 ∨ y.length = 0) := by
    rw [List.length_eq_zero_iff, List.length_eq_zero_iff, not_or]
    exact ⟨h.left, h.right⟩
  rw [energyStatistic, if_neg hne, withinDispersion_eq h.left h.left_le,
    withinDispersion_eq h.right h.right_le, energy_eq, mean_mean x y]
  simp only [h.pairs, if_true]

theorem Small.symm (h : Small x y) : Small y x :=
  ⟨h.right, h.left, h.right_le, h.left_le, by rw [mul_comm]; exact h.pairs⟩

theorem Small.of_length (h : Small x y) (hx : x'.length = x.length) (hy : y'.length = y.length) :
    Small x' y' :=
  ⟨fun hn => h.left (List.length_eq_zero_iff.1 (hx.symm.trans (by rw [hn]; rfl))),
    fun hn => h.right (List.length_eq_zero_iff.1 (hy.symm.trans (by rw [hn]; rfl))),
    hx.trans_le h.left_le, hy.trans_le h.right_le, by rw [hx, hy]; exact h.pairs⟩

/-- The energy statistic is a distance of the distributions of the samples. -/
theorem energy_distance (h : Small x y) :
    energyStatistic x y = energyStatistic y x ∧ 0 ≤ energyStatistic x y ∧
      (energyStatistic x y = 0 ↔
        ∀ v, (x.count v : ℚ) / x.length = (y.count v : ℚ) / y.length) ∧
      (∀ x' y', x'.Perm x → y'.Perm y → energyStatistic x' y' = energyStatistic x y) ∧
      (∀ c, energyStatistic (x.map (· + c)) (y.map (· + c)) = energyStatistic x y) ∧
      ∀ c, energyStatistic (x.map (c * ·)) (y.map (c * ·)) = |c| * energyStatistic x y := by
  rw [energyStatistic_eq h, energyStatistic_eq h.symm]
  refine ⟨energy_comm x y, energy_nonneg h.left h.right, energy_eq_zero_iff h.left h.right,
    fun x' y' hx hy => ?_, fun c => ?_, fun c => ?_⟩
  · rw [energyStatistic_eq (h.of_length hx.length_eq hy.length_eq), energy_perm hx hy]
  · rw [energyStatistic_eq (h.of_length (List.length_map _) (List.length_map _)), energy_add]
  · rw [energyStatistic_eq (h.of_length (List.length_map _) (List.length_map _)), energy_mul]

theorem energy_distance_two : 0 ≤ energyStatistic [1, 2] [3] :=
  (energy_distance ⟨by simp, by simp, by simp, by simp, by simp⟩).2.1

end Statistic

section Search

/-- The points of the splits of a segment, as they are found. -/
inductive Splits (minSize : ℕ) : ℕ → ℕ → List ℕ → Prop
  | nil {start stop : ℕ} : Splits minSize start stop []
  | split {start stop best : ℕ} {left right : List ℕ} : start + minSize ≤ best →
      best + minSize ≤ stop → Splits minSize start best left → Splits minSize best stop right →
      Splits minSize start stop (best :: (left ++ right))

/-- The points cut the first `size` places into segments of `minSize` or more. -/
structure Segmentation (minSize size : ℕ) (points : List ℕ) : Prop where
  increasing : points.Pairwise (· < ·)
  first : ∀ p ∈ points.head?, minSize ≤ p
  neighbours : points.IsChain fun p q => minSize ≤ q - p
  last : ∀ p ∈ points.getLast?, minSize ≤ size - p

variable {minSize : ℕ} {start stop : ℕ} {points : List ℕ}

theorem Splits.bounds (h : Splits minSize start stop points) :
    ∀ p ∈ points, start + minSize ≤ p ∧ p + minSize ≤ stop := by
  induction h with
  | nil => simp
  | split hleft hright _ _ ihl ihr =>
    intro p hp
    rcases List.mem_cons.1 hp with rfl | hp
    · exact ⟨hleft, hright⟩
    · rcases List.mem_append.1 hp with hp | hp
      · have := ihl p hp
        omega
      · have := ihr p hp
        omega

theorem Splits.apart (h : Splits minSize start stop points) :
    points.Pairwise fun p q => p + minSize ≤ q ∨ q + minSize ≤ p := by
  induction h with
  | nil => exact .nil
  | split _ _ hl hr ihl ihr =>
    refine List.pairwise_cons.2 ⟨fun p hp => ?_, List.pairwise_append.2 ⟨ihl, ihr, ?_⟩⟩
    · rcases List.mem_append.1 hp with hp | hp
      · exact .inr (hl.bounds p hp).2
      · exact .inl (hr.bounds p hp).1
    · intro p hp q hq
      have := (hl.bounds p hp).2
      have := (hr.bounds q hq).1
      omega

theorem Splits.sorted_apart (hm : 1 ≤ minSize) (h : Splits minSize start stop points) :
    (points.insertionSort (· ≤ ·)).Pairwise fun p q => p + minSize ≤ q := by
  have hperm := List.perm_insertionSort (· ≤ ·) points
  have hapart := (hperm.pairwise_iff fun h => h.symm).2 h.apart
  have hsorted := List.pairwise_insertionSort (· ≤ ·) points
  refine (hsorted.and hapart).imp ?_
  rintro p q ⟨hle, hpq | hqp⟩
  · exact hpq
  · omega

theorem Splits.segmentation (hm : 1 ≤ minSize) (h : Splits minSize 0 stop points) :
    Segmentation minSize stop (points.insertionSort (· ≤ ·)) := by
  have hbounds : ∀ p ∈ points.insertionSort (· ≤ ·), minSize ≤ p ∧ p + minSize ≤ stop := by
    intro p hp
    have := h.bounds p ((List.perm_insertionSort (· ≤ ·) points).mem_iff.1 hp)
    omega
  have hpair := h.sorted_apart hm
  refine ⟨hpair.imp fun hpq => by omega, fun p hp => ?_,
    (hpair.imp fun hpq => by omega).isChain, fun p hp => ?_⟩
  · exact (hbounds p (List.mem_of_mem_head? hp)).1
  · have := (hbounds p (List.mem_of_mem_getLast? hp)).2
    omega

variable {α ν : Type*} (energyStatistic : List α → List α → ν) (lt : ν → ν → Bool)
variable (negInfinity : ν) (threshold : ℕ → ν)

theorem foldl_better (series : List α) {best : ℕ} (l : List ℕ) (b : Option ℕ × ν)
    (h : (l.foldl (better energyStatistic lt series start stop) b).1 = some best) :
    b.1 = some best ∨ best ∈ l := by
  induction l generalizing b with
  | nil => exact .inl h
  | cons split l ih =>
    rcases ih _ h with hb | hl
    · rw [better] at hb
      split_ifs at hb
      · exact .inr (List.mem_cons.2 (.inl (Option.some.inj hb).symm))
      · exact .inl hb
    · exact .inr (List.mem_cons_of_mem _ hl)

theorem bestSplit_bounds (hm : 1 ≤ minSize) (series : List α) {best : ℕ} {e : ν}
    (h : bestSplit energyStatistic lt negInfinity minSize series start stop = (some best, e)) :
    start + minSize ≤ best ∧ best + minSize ≤ stop := by
  rcases foldl_better energyStatistic lt series _ _ (congrArg Prod.fst h) with hn | hmem
  · exact absurd hn (by simp)
  · rw [splits, List.mem_range'_1] at hmem
    omega

theorem searchSegment_succ (hm : 1 ≤ minSize) (series : List α) (start stop : ℕ) :
    (∀ depth results, searchSegment energyStatistic lt negInfinity threshold minSize series
      (depth + 1) start stop results = some results) ∨
    ∃ best, start + minSize ≤ best ∧ best + minSize ≤ stop ∧ ∀ depth results,
      searchSegment energyStatistic lt negInfinity threshold minSize series (depth + 1) start stop
          results =
        (searchSegment energyStatistic lt negInfinity threshold minSize series depth start best
            (results ++ [best])).bind
          (searchSegment energyStatistic lt negInfinity threshold minSize series depth best
            stop) := by
  by_cases hshort : stop - start < 2 * minSize
  · exact .inl fun depth results => if_pos hshort
  rcases hb : bestSplit energyStatistic lt negInfinity minSize series start stop with ⟨_ | best, e⟩
  · refine .inl fun depth results => ?_
    simp only [searchSegment, hshort, if_false, hb]
  · by_cases hlow : lt e (threshold (stop - start))
    · refine .inl fun depth results => ?_
      simp only [searchSegment, hshort, if_false, hb, hlow, if_true]
    · obtain ⟨hleft, hright⟩ := bestSplit_bounds energyStatistic lt negInfinity hm series hb
      refine .inr ⟨best, hleft, hright, fun depth results => ?_⟩
      rw [searchSegment]
      simp only [hshort, if_false, hb, hlow, Bool.false_eq_true]

/-- The search of a segment adds the points of its splits, and calls itself no deeper than the
segment is long. -/
theorem exists_splits (hm : 1 ≤ minSize) (series : List α) (size : ℕ) :
    ∀ start stop, stop - start ≤ size → ∃ points, Splits minSize start stop points ∧
      ∀ depth, size < depth → ∀ results,
        searchSegment energyStatistic lt negInfinity threshold minSize series depth start stop
          results = some (results ++ points) := by
  induction size using Nat.strong_induction_on with
  | h size ih =>
    intro start stop hsize
    rcases searchSegment_succ energyStatistic lt negInfinity threshold hm series start stop with
      hstop | ⟨best, hleft, hright, hsplit⟩
    · refine ⟨[], .nil, fun depth hdepth results => ?_⟩
      obtain ⟨depth, rfl⟩ := Nat.exists_eq_succ_of_ne_zero (Nat.ne_zero_of_lt hdepth)
      rw [hstop, List.append_nil]
    · obtain ⟨left, hl, hfound⟩ := ih (size - 1) (by omega) start best (by omega)
      obtain ⟨right, hr, hfound'⟩ := ih (size - 1) (by omega) best stop (by omega)
      refine ⟨best :: (left ++ right), .split hleft hright hl hr, fun depth hdepth results => ?_⟩
      obtain ⟨depth, rfl⟩ := Nat.exists_eq_succ_of_ne_zero (Nat.ne_zero_of_lt hdepth)
      have hdeep : size - 1 < depth := by omega
      rw [hsplit, hfound depth hdeep, Option.bind_some, hfound' depth hdeep]
      simp only [List.append_assoc, List.cons_append, List.nil_append]

/-- The search ends, and the points that it finds cut the series into segments that are large
enough. -/
theorem changePoints_segment (hm : 1 ≤ minSize) (series : List α) :
    ∃ points, (∀ depth, series.length < depth →
        findChangePoints energyStatistic lt negInfinity threshold minSize depth series =
          some points) ∧
      Segmentation minSize series.length points := by
  obtain ⟨points, hsplits, hfound⟩ :=
    exists_splits energyStatistic lt negInfinity threshold hm series series.length 0 series.length
      le_rfl
  refine ⟨points.insertionSort (· ≤ ·), fun depth hdepth => ?_, hsplits.segmentation hm⟩
  rw [findChangePoints, hfound depth hdepth, List.nil_append, Option.map_some]

theorem changePoints_segment_pairs : ∃ points, (∀ depth, 4 < depth →
    findChangePoints Edm.energyStatistic (fun a b => decide (a < b)) (-1) (fun _ => 1) 2 depth
      [0, 0, 5, 5] = some points) ∧ Segmentation 2 4 points :=
  changePoints_segment Edm.energyStatistic (fun a b => decide (a < b)) (-1) (fun _ => 1)
    one_le_two [0, 0, 5, 5]

end Search

end Edm

end VeriNode
