import Mathlib.Algebra.BigOperators.Group.List.Basic
import Mathlib.Algebra.BigOperators.Ring.List
import Mathlib.Algebra.Order.BigOperators.Group.List
import Mathlib.Algebra.Order.Field.Basic
import Mathlib.Tactic.FieldSimp
import Mathlib.Tactic.Linarith
import Mathlib.Tactic.Ring

/-!
# Least squares

The line through the centre of some points with the slope `covariance / variance`. The squares of
what the points are off another line sum up to more, by how far it is off this one (`residual_eq`);
so this one minimises the sum and is the only one that does, and what is left of the sum is at most
what is off the mean.
-/

namespace LeastSquares

section Definitions

variable {K : Type*} [Field K]

def meanX (pts : List (K × K)) : K := (pts.map (·.1)).sum / pts.length

def meanY (pts : List (K × K)) : K := (pts.map (·.2)).sum / pts.length

def variance (pts : List (K × K)) : K := (pts.map fun p => (p.1 - meanX pts) ^ 2).sum

def covariance (pts : List (K × K)) : K :=
  (pts.map fun p => (p.1 - meanX pts) * (p.2 - meanY pts)).sum

def slope (pts : List (K × K)) : K := covariance pts / variance pts

def intercept (pts : List (K × K)) : K := meanY pts - slope pts * meanX pts

/-- The squares of what the points are off a line. -/
def residual (a b : K) (pts : List (K × K)) : K :=
  (pts.map fun p => (p.2 - (a + b * p.1)) ^ 2).sum

/-- The squares of what the points are off their mean. -/
def total (pts : List (K × K)) : K := (pts.map fun p => (p.2 - meanY pts) ^ 2).sum

/-- The points lie on the line. -/
def OnLine (a b : K) (pts : List (K × K)) : Prop := ∀ p ∈ pts, p.2 = a + b * p.1

/-- No line is off the points by less. -/
def Minimises [LE K] (a b : K) (pts : List (K × K)) : Prop :=
  ∀ a' b', residual a b pts ≤ residual a' b' pts

end Definitions

section Field

variable {K : Type*} [Field K] {pts : List (K × K)} {a b : K}

theorem sum_sub (f : K × K → K) (c : K) (l : List (K × K)) :
    (l.map fun p => f p - c).sum = (l.map f).sum - l.length * c := by
  induction l with
  | nil => simp
  | cons p l ih =>
    simp only [List.map_cons, List.sum_cons, List.length_cons, Nat.cast_add, Nat.cast_one, ih]
    ring

theorem sum_off_mul (hv : variance pts ≠ 0) :
    (pts.map fun p => (p.2 - (intercept pts + slope pts * p.1)) * (p.1 - meanX pts)).sum = 0 := by
  have hp : ∀ p : K × K, (p.2 - (intercept pts + slope pts * p.1)) * (p.1 - meanX pts)
      = (p.1 - meanX pts) * (p.2 - meanY pts) + -slope pts * (p.1 - meanX pts) ^ 2 := by
    intro p
    unfold intercept
    ring
  simp only [hp]
  rw [List.sum_map_add, List.sum_map_mul_left]
  change covariance pts + -slope pts * variance pts = 0
  unfold slope
  field_simp
  ring

theorem total_eq (pts : List (K × K)) : total pts = residual (meanY pts) 0 pts := by
  unfold total residual
  simp only [zero_mul, add_zero]

theorem variance_eq (pts : List (K × K)) :
    variance pts = residual (meanX pts) 0 (pts.map fun p => (0, p.1)) := by
  unfold variance residual
  rw [List.map_map]
  refine congrArg List.sum (List.map_congr_left fun p _ => ?_)
  change _ = (p.1 - (meanX pts + 0 * 0)) ^ 2
  rw [zero_mul, add_zero]

/-- Points moved along the axis. -/
def shift (c : K) (pts : List (K × K)) : List (K × K) := pts.map fun p => (p.1 + c, p.2)

theorem meanY_shift (c : K) : meanY (shift c pts) = meanY pts := by
  unfold meanY shift
  rw [List.map_map, List.length_map]
  rfl

theorem residual_shift (a b c : K) : residual a b (shift c pts) = residual (a + b * c) b pts := by
  unfold residual shift
  rw [List.map_map]
  refine congrArg List.sum (List.map_congr_left fun p _ => ?_)
  change (p.2 - (a + b * (p.1 + c))) ^ 2 = _
  ring

variable [CharZero K]

theorem sum_sub_mean (f : K × K → K) (h : pts ≠ []) :
    (pts.map fun p => f p - (pts.map f).sum / pts.length).sum = 0 := by
  have hn : (pts.length : K) ≠ 0 := Nat.cast_ne_zero.2 (mt List.length_eq_zero_iff.1 h)
  rw [sum_sub, mul_div_cancel₀ _ hn, sub_self]

theorem sum_off (h : pts ≠ []) :
    (pts.map fun p => p.2 - (intercept pts + slope pts * p.1)).sum = 0 := by
  have hp : ∀ p : K × K, p.2 - (intercept pts + slope pts * p.1)
      = (p.2 - meanY pts) + -slope pts * (p.1 - meanX pts) := by
    intro p
    unfold intercept
    ring
  simp only [hp]
  rw [List.sum_map_add, List.sum_map_mul_left]
  have hx : (pts.map fun p => p.1 - meanX pts).sum = 0 := sum_sub_mean (·.1) h
  have hy : (pts.map fun p => p.2 - meanY pts).sum = 0 := sum_sub_mean (·.2) h
  rw [hx, hy, mul_zero, add_zero]

theorem residual_eq (h : pts ≠ []) (hv : variance pts ≠ 0) (a b : K) :
    residual a b pts = residual (intercept pts) (slope pts) pts
      + pts.length * (a + b * meanX pts - meanY pts) ^ 2
      + (b - slope pts) ^ 2 * variance pts := by
  have hp : ∀ p : K × K, (p.2 - (a + b * p.1)) ^ 2
      = (p.2 - (intercept pts + slope pts * p.1)) ^ 2
        + ((a + b * meanX pts - meanY pts) ^ 2 + ((b - slope pts) ^ 2 * (p.1 - meanX pts) ^ 2
        + (-2 * (a + b * meanX pts - meanY pts) * (p.2 - (intercept pts + slope pts * p.1))
        + (-2 * (b - slope pts) * ((p.2 - (intercept pts + slope pts * p.1)) * (p.1 - meanX pts))
        + 2 * (a + b * meanX pts - meanY pts) * (b - slope pts) * (p.1 - meanX pts))))) := by
    intro p
    unfold intercept
    ring
  have hx : (pts.map fun p => p.1 - meanX pts).sum = 0 := sum_sub_mean (·.1) h
  have hc : ∀ d : K, (pts.map fun _ => d).sum = pts.length * d := by
    intro d
    rw [List.map_const', List.sum_replicate, nsmul_eq_mul]
  unfold residual
  simp only [hp]
  rw [List.sum_map_add, List.sum_map_add, List.sum_map_add, List.sum_map_add, List.sum_map_add,
    List.sum_map_mul_left, List.sum_map_mul_left, List.sum_map_mul_left, List.sum_map_mul_left,
    sum_off h, sum_off_mul hv, hx, hc]
  unfold variance
  ring

theorem slope_of_onLine (h : pts ≠ []) (hv : variance pts ≠ 0) (hl : OnLine a b pts) :
    slope pts = b := by
  have hn : (pts.length : K) ≠ 0 := Nat.cast_ne_zero.2 (mt List.length_eq_zero_iff.1 h)
  have hmean : meanY pts = a + b * meanX pts := by
    have hsum : (pts.map (·.2)).sum = pts.length * a + b * (pts.map (·.1)).sum := by
      have hmap : pts.map (·.2) = pts.map fun p => a + b * p.1 := List.map_congr_left hl
      rw [hmap, List.sum_map_add, List.sum_map_mul_left, List.map_const', List.sum_replicate,
        nsmul_eq_mul]
    unfold meanY meanX
    rw [hsum]
    field_simp
  have hcov : covariance pts = b * variance pts := by
    unfold covariance variance
    rw [← List.sum_map_mul_left]
    refine congrArg List.sum (List.map_congr_left fun p hp => ?_)
    rw [hl p hp, hmean]
    ring
  rw [slope, hcov, mul_div_cancel_right₀ _ hv]

theorem meanX_shift (h : pts ≠ []) (c : K) : meanX (shift c pts) = meanX pts + c := by
  have hn : (pts.length : K) ≠ 0 := Nat.cast_ne_zero.2 (mt List.length_eq_zero_iff.1 h)
  have hsum : ((shift c pts).map (·.1)).sum = (pts.map (·.1)).sum + pts.length * c := by
    unfold shift
    rw [List.map_map]
    change (pts.map fun p => p.1 + c).sum = _
    rw [List.sum_map_add, List.map_const', List.sum_replicate, nsmul_eq_mul]
  unfold meanX
  rw [hsum, shift, List.length_map]
  field_simp

theorem variance_shift (h : pts ≠ []) (c : K) : variance (shift c pts) = variance pts := by
  unfold variance
  rw [meanX_shift h, shift, List.map_map]
  refine congrArg List.sum (List.map_congr_left fun p _ => ?_)
  change (p.1 + c - (meanX pts + c)) ^ 2 = _
  rw [add_sub_add_right_eq_sub]

theorem slope_shift (h : pts ≠ []) (c : K) : slope (shift c pts) = slope pts := by
  have hcov : covariance (shift c pts) = covariance pts := by
    unfold covariance
    rw [meanX_shift h, meanY_shift, shift, List.map_map]
    refine congrArg List.sum (List.map_congr_left fun p _ => ?_)
    change (p.1 + c - (meanX pts + c)) * (p.2 - meanY pts) = _
    rw [add_sub_add_right_eq_sub]
  rw [slope, hcov, variance_shift h, slope]

end Field

section Order

variable {K : Type*} [Field K] [LinearOrder K] [IsStrictOrderedRing K] {pts : List (K × K)}
  {a b : K}

theorem residual_nonneg (a b : K) (pts : List (K × K)) : 0 ≤ residual a b pts := by
  refine List.sum_nonneg fun x hx => ?_
  obtain ⟨p, -, rfl⟩ := List.mem_map.1 hx
  exact sq_nonneg _

theorem residual_eq_zero_iff : residual a b pts = 0 ↔ OnLine a b pts := by
  constructor
  · intro h p hp
    have hnonneg : ∀ x ∈ pts.map fun p => (p.2 - (a + b * p.1)) ^ 2, 0 ≤ x := by
      intro x hx
      obtain ⟨q, -, rfl⟩ := List.mem_map.1 hx
      exact sq_nonneg _
    have hzero := List.all_zero_of_le_zero_le_of_sum_eq_zero hnonneg h
      (List.mem_map_of_mem hp)
    exact sub_eq_zero.1 (pow_eq_zero_iff two_ne_zero |>.1 hzero)
  · intro h
    refine List.sum_eq_zero fun x hx => ?_
    obtain ⟨p, hp, rfl⟩ := List.mem_map.1 hx
    rw [h p hp, sub_self, zero_pow two_ne_zero]

theorem total_nonneg (pts : List (K × K)) : 0 ≤ total pts :=
  total_eq pts ▸ residual_nonneg _ _ _

theorem variance_nonneg (pts : List (K × K)) : 0 ≤ variance pts :=
  variance_eq pts ▸ residual_nonneg _ _ _

theorem variance_pos {p q : K × K} (hp : p ∈ pts) (hq : q ∈ pts) (hne : p.1 ≠ q.1) :
    0 < variance pts := by
  refine lt_of_le_of_ne (variance_nonneg pts) fun h => hne ?_
  rw [variance_eq] at h
  have hline := residual_eq_zero_iff.1 h.symm
  have hmean : ∀ r ∈ pts, r.1 = meanX pts := by
    intro r hr
    have := hline (0, r.1) (List.mem_map.2 ⟨r, hr, rfl⟩)
    rwa [zero_mul, add_zero] at this
  rw [hmean p hp, hmean q hq]

theorem minimises (h : pts ≠ []) (hv : 0 < variance pts) :
    Minimises (intercept pts) (slope pts) pts := by
  intro a b
  rw [residual_eq h hv.ne' a b]
  have hcentre : 0 ≤ (pts.length : K) * (a + b * meanX pts - meanY pts) ^ 2 :=
    mul_nonneg (Nat.cast_nonneg _) (sq_nonneg _)
  have hslope : 0 ≤ (b - slope pts) ^ 2 * variance pts := mul_nonneg (sq_nonneg _) hv.le
  linarith

theorem eq_of_minimises (h : pts ≠ []) (hv : 0 < variance pts) (hm : Minimises a b pts) :
    a = intercept pts ∧ b = slope pts := by
  have hn : 0 < (pts.length : K) := Nat.cast_pos.2 (List.length_pos_iff.2 h)
  have hle := hm (intercept pts) (slope pts)
  rw [residual_eq h hv.ne' a b] at hle
  have hcentre : 0 ≤ (pts.length : K) * (a + b * meanX pts - meanY pts) ^ 2 :=
    mul_nonneg hn.le (sq_nonneg _)
  have hslope : 0 ≤ (b - slope pts) ^ 2 * variance pts := mul_nonneg (sq_nonneg _) hv.le
  have hb : b = slope pts := by
    have hzero : (b - slope pts) ^ 2 * variance pts = 0 := by linarith
    have := (mul_eq_zero.1 hzero).resolve_right hv.ne'
    exact sub_eq_zero.1 (pow_eq_zero_iff two_ne_zero |>.1 this)
  have hzero : (pts.length : K) * (a + b * meanX pts - meanY pts) ^ 2 = 0 := by linarith
  have ha := pow_eq_zero_iff two_ne_zero |>.1 ((mul_eq_zero.1 hzero).resolve_left hn.ne')
  refine ⟨?_, hb⟩
  rw [intercept, ← hb]
  linarith

theorem residual_le_total (h : pts ≠ []) (hv : 0 < variance pts) :
    residual (intercept pts) (slope pts) pts ≤ total pts :=
  total_eq pts ▸ minimises h hv _ _

theorem residual_eq_zero_iff_collinear (h : pts ≠ []) (hv : 0 < variance pts) :
    residual (intercept pts) (slope pts) pts = 0 ↔ ∃ a b, OnLine a b pts := by
  constructor
  · exact fun hr => ⟨_, _, residual_eq_zero_iff.1 hr⟩
  · rintro ⟨a, b, hl⟩
    have hle := minimises h hv a b
    rw [residual_eq_zero_iff.2 hl] at hle
    exact le_antisymm hle (residual_nonneg _ _ _)

end Order

end LeastSquares
