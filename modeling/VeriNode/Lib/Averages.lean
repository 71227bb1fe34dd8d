import Mathlib.Data.List.Dedup
import Mathlib.Algebra.BigOperators.Group.List.Basic
import Mathlib.Algebra.BigOperators.Ring.List
import Mathlib.Algebra.Field.Rat
import Mathlib.Algebra.Order.Field.Rat
import Mathlib.Tactic.LinearCombination
import Mathlib.Tactic.Ring

/-!
# Groups and their averages

`GROUP BY` splits rows into groups of one key each, so that a sum over the groups is the sum over
the rows (`sum_groups`). Averages do not add up like that: the average of the groups' averages is
the average of the rows exactly if the sizes of the groups and their averages are uncorrelated
(`avg_avg_iff`).
-/

namespace Groups

variable {α β κ : Type*} [DecidableEq κ]

/-- The keys of the groups. -/
def keys (key : α → κ) (l : List α) : List κ := (l.map key).dedup

/-- The rows of a group. -/
def group (key : α → κ) (l : List α) (k : κ) : List α := l.filter (key · = k)

/-- `SELECT row … GROUP BY key`. -/
def groupBy (key : α → κ) (row : κ → List α → β) (l : List α) : List β :=
  (keys key l).map fun k => row k (group key l k)

variable {key : α → κ} {l : List α} {k : κ}

theorem nodup_keys : (keys key l).Nodup := List.nodup_dedup _

theorem mem_keys : k ∈ keys key l ↔ ∃ a ∈ l, key a = k := by simp [keys]

theorem key_mem_keys {a : α} (h : a ∈ l) : key a ∈ keys key l := mem_keys.2 ⟨a, h, rfl⟩

theorem keys_eq_nil : keys key l = [] ↔ l = [] := by
  rw [keys, List.dedup_eq_nil, List.map_eq_nil_iff]

section Sums

variable {M : Type*} [AddCommMonoid M]

theorem sum_filter_or {p q : α → Bool} (f : α → M) (h : ∀ a ∈ l, p a = true → q a = false) :
    ((l.filter fun a => p a || q a).map f).sum
      = ((l.filter p).map f).sum + ((l.filter q).map f).sum := by
  induction l with
  | nil => simp
  | cons a l ih =>
    have ih := ih fun b hb => h b (List.mem_cons_of_mem _ hb)
    have ha := h a List.mem_cons_self
    rcases hp : p a with _ | _ <;> rcases hq : q a with _ | _
    · simpa [hp, hq] using ih
    · simp [hp, hq, ih, add_left_comm]
    · simp [hp, hq, ih, add_assoc]
    · rw [ha hp] at hq
      exact absurd hq (by simp)

theorem sum_group (f : α → M) (l : List α) : ∀ {ks : List κ}, ks.Nodup →
    (ks.map fun k => ((group key l k).map f).sum).sum
      = ((l.filter fun a => decide (key a ∈ ks)).map f).sum
  | [], _ => by simp
  | k :: ks, hn => by
    obtain ⟨hk, hn⟩ := List.nodup_cons.1 hn
    rw [List.map_cons, List.sum_cons, sum_group f l hn, group, ← sum_filter_or]
    · refine congrArg (fun l => (List.map f l).sum) (List.filter_congr fun a _ => ?_)
      simp [List.mem_cons]
    · intro a _ ha
      simp only [decide_eq_true_eq] at ha
      simpa [ha] using hk

theorem sum_groups (key : α → κ) (f : α → M) (l : List α) :
    ((keys key l).map fun k => ((group key l k).map f).sum).sum = (l.map f).sum := by
  rw [sum_group f l nodup_keys]
  refine congrArg (fun l => (List.map f l).sum) (List.filter_eq_self.2 fun a ha => ?_)
  simpa using key_mem_keys ha

theorem length_filter_eq_sum (q : α → Bool) (l : List α) :
    (l.filter q).length = (l.map fun a => if q a then 1 else 0).sum := by
  induction l with
  | nil => rfl
  | cons a l ih => rcases hq : q a with _ | _ <;> simp [hq, ih, add_comm]

theorem sum_counts (key : α → κ) (q : α → Bool) (l : List α) :
    ((keys key l).map fun k => ((group key l k).filter q).length).sum = (l.filter q).length := by
  simp only [length_filter_eq_sum]
  exact sum_groups key _ l

theorem sum_lengths (key : α → κ) (l : List α) :
    ((keys key l).map fun k => (group key l k).length).sum = l.length := by
  simpa using sum_counts key (fun _ => true) l

end Sums

section Averages

/-- `AVG`, of a group, which has rows. -/
def avg (l : List ℚ) : ℚ := l.sum / l.length

/-- How far two values of the same things move together: the sum over all pairs. -/
def covariance (bs : List β) (x y : β → ℚ) : ℚ :=
  (bs.map fun b => (bs.map fun b' => (x b - x b') * (y b - y b')).sum).sum

theorem covariance_row (bs : List β) (x y : β → ℚ) (b : β) :
    (bs.map fun b' => (x b - x b') * (y b - y b')).sum
      = bs.length * (x b * y b) - x b * (bs.map y).sum - y b * (bs.map x).sum
        + (bs.map fun b' => x b' * y b').sum := by
  induction bs with
  | nil => simp
  | cons c bs ih =>
    simp only [List.map_cons, List.sum_cons, List.length_cons, ih]
    push_cast
    ring

theorem covariance_eq (bs : List β) (x y : β → ℚ) :
    covariance bs x y
      = 2 * (bs.length * (bs.map fun b => x b * y b).sum - (bs.map x).sum * (bs.map y).sum) := by
  have hrow : ∀ cs : List β, (cs.map fun b =>
      (bs.map fun b' => (x b - x b') * (y b - y b')).sum).sum
        = bs.length * (cs.map fun b => x b * y b).sum - (cs.map x).sum * (bs.map y).sum
          - (cs.map y).sum * (bs.map x).sum + cs.length * (bs.map fun b => x b * y b).sum := by
    intro cs
    induction cs with
    | nil => simp
    | cons c cs ih =>
      rw [List.map_cons, List.sum_cons, ih, covariance_row]
      simp only [List.map_cons, List.sum_cons, List.length_cons]
      push_cast
      ring
  rw [covariance, hrow]
  ring

/-- The average of averages is the average weighted by the sizes exactly if sizes and averages are
uncorrelated. -/
theorem avg_weighted_iff {bs : List β} {n a : β → ℚ} (hb : bs ≠ []) (hn : (bs.map n).sum ≠ 0) :
    avg (bs.map a) = (bs.map fun b => n b * a b).sum / (bs.map n).sum
      ↔ covariance bs n a = 0 := by
  have hl : (bs.length : ℚ) ≠ 0 := by simpa using hb
  rw [covariance_eq, avg, List.length_map, div_eq_div_iff hl hn]
  constructor
  · intro h
    linear_combination 2 * -h
  · intro h
    linear_combination -h / 2

/-- The average of the averages of the groups is the average of the rows exactly if the sizes of
the groups and their averages are uncorrelated. -/
theorem avg_avg_iff {f : α → ℚ} (hl : l ≠ []) :
    avg ((keys key l).map fun k => avg ((group key l k).map f)) = avg (l.map f)
      ↔ covariance (keys key l) (fun k => ((group key l k).length : ℚ))
          (fun k => avg ((group key l k).map f)) = 0 := by
  have hsize : ((keys key l).map fun k => ((group key l k).length : ℚ)).sum = l.length := by
    simpa using sum_groups key (fun _ => (1 : ℚ)) l
  have hlen : ((keys key l).map fun k => ((group key l k).length : ℚ)).sum ≠ 0 := by
    rw [hsize]
    simpa using hl
  have hsum : ((keys key l).map fun k =>
      ((group key l k).length : ℚ) * avg ((group key l k).map f)).sum = (l.map f).sum := by
    rw [← sum_groups key]
    refine congrArg List.sum (List.map_congr_left fun k hk => ?_)
    obtain ⟨a, ha, hka⟩ := mem_keys.1 hk
    have hne : ((group key l k).length : ℚ) ≠ 0 := by
      have hm : a ∈ group key l k := List.mem_filter.2 ⟨ha, by simpa using hka⟩
      simpa using List.ne_nil_of_mem hm
    rw [avg, List.length_map, mul_div_cancel₀ _ hne]
  rw [← avg_weighted_iff (fun h => hl (keys_eq_nil.1 h)) hlen, hsum, hsize,
    avg, avg, List.length_map, List.length_map]

end Averages

end Groups
