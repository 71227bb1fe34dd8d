import VeriNode.Proofs.Rewards
import VeriNode.Lib.Shares
import Mathlib.Algebra.Order.BigOperators.Group.List

/-!
# What is allocated

Amounts are read and written exactly (`units_exact`). Where every amount can be read,
`computeAllocations` gives each positive reward its share of the
pool, rounded down, and leaves out those whose share is nothing (`computeAllocations_eq`).
-/

namespace VeriNode

namespace Rewards

open Shares

section Amounts

variable {value : String} {n : ℕ}

theorem parseUnits_eq_ok_iff :
    parseUnits value = .ok n ↔ ∃ a : Decimal.Numeral 7, a.text = value ∧ a.units = n := by
  rw [← Decimal.parse_eq_some_iff, parseUnits]
  rcases Decimal.parse 7 value with _ | m
  · simp
  · simp

theorem parseUnits_text (a : Decimal.Numeral 7) : parseUnits a.text = .ok a.units :=
  parseUnits_eq_ok_iff.2 ⟨a, rfl, rfl⟩

/-- Amounts of the seventh decimal are read and written exactly. -/
theorem units_exact (value : String) (n : ℕ) (a b : Decimal.Numeral 7) :
    ((∃ m, parseUnits value = .ok m) ↔ ∃ a : Decimal.Numeral 7, a.text = value) ∧
      (∃ m, parseUnits a.text = .ok m ∧ (m : ℚ) = 10 ^ 7 * a.value) ∧
      parseUnits (formatUnits n) = .ok n ∧
      ((parseUnits a.text).map formatUnits = (parseUnits b.text).map formatUnits ↔
        a.value = b.value) := by
  refine ⟨?_, ⟨a.units, parseUnits_text a, a.units_eq⟩, ?_, ?_⟩
  · constructor
    · rintro ⟨m, hm⟩
      obtain ⟨a, ha, -⟩ := parseUnits_eq_ok_iff.1 hm
      exact ⟨a, ha⟩
    · rintro ⟨a, rfl⟩
      exact ⟨a.units, parseUnits_text a⟩
  · rw [parseUnits, formatUnits, Decimal.parse_format (by decide)]
  · have hpow : (10 : ℚ) ^ 7 ≠ 0 := by norm_num
    rw [parseUnits_text, parseUnits_text, Except.map, Except.map, Except.ok.injEq, formatUnits,
      formatUnits, Decimal.format_inj (by decide), ← Nat.cast_inj (R := ℚ), a.units_eq, b.units_eq,
      mul_right_inj' hpow]

end Amounts

section Reading

/-- The units that an amount stands for. -/
def units (reward : RewardAllocation) : ℕ := (Decimal.parse 7 reward.amount).getD 0

theorem units_formatUnits (nodeId : String) (n : ℕ) : units ⟨nodeId, formatUnits n⟩ = n := by
  rw [units, formatUnits, Decimal.parse_format (by decide), Option.getD_some]

theorem parseUnits_eq_units {reward : RewardAllocation} (h : ∃ n, parseUnits reward.amount = .ok n) :
    parseUnits reward.amount = .ok (units reward) := by
  unfold parseUnits units at *
  rcases hp : Decimal.parse 7 reward.amount with _ | n
  · rw [hp] at h
    obtain ⟨n, hn⟩ := h
    cases hn
  · rfl

theorem mapM_ok {α β ε : Type} {f : α → Except ε β} {g : α → β} {xs : List α}
    (h : ∀ x ∈ xs, f x = .ok (g x)) : xs.mapM f = .ok (xs.map g) := by
  induction xs with
  | nil => rfl
  | cons x xs ih =>
    rw [List.forall_mem_cons] at h
    rw [List.mapM_cons, h.1, ih h.2]
    rfl

theorem filterAuxM_ok {α ε : Type} {f : α → Except ε Bool} {p : α → Bool} :
    ∀ {xs acc : List α}, (∀ x ∈ xs, f x = .ok (p x)) →
      xs.filterAuxM f acc = .ok ((xs.filter p).reverse ++ acc)
  | [], acc, _ => rfl
  | x :: xs, acc, h => by
    rw [List.forall_mem_cons] at h
    rw [List.filterAuxM, h.1]
    simp only [bind, Except.bind]
    rw [filterAuxM_ok h.2, List.filter_cons]
    cases p x <;> simp

theorem filterM_ok {α ε : Type} {f : α → Except ε Bool} {p : α → Bool} {xs : List α}
    (h : ∀ x ∈ xs, f x = .ok (p x)) : xs.filterM f = .ok (xs.filter p) := by
  rw [List.filterM, filterAuxM_ok h, List.append_nil]
  simp [bind, Except.bind, pure, Except.pure]

end Reading

section Allocating

variable {pending : List RewardAllocation} {totalRewardPool : String} {pool : ℕ}

def positive (pending : List RewardAllocation) : List RewardAllocation :=
  pending.filter fun r => 0 < units r

def total (pending : List RewardAllocation) : ℕ := ((positive pending).map units).sum

def shareOf (pool : ℕ) (pending : List RewardAllocation) (r : RewardAllocation) : ℕ :=
  share pool (total pending) (units r)

/-- Those of the positive rewards whose share is positive, each with its share, in their order. -/
def allocated (pool : ℕ) (pending : List RewardAllocation) : List RewardAllocation :=
  ((positive pending).filter fun r => 0 < shareOf pool pending r).map fun r =>
    ⟨r.nodeId, formatUnits (shareOf pool pending r)⟩

theorem total_pos (h : positive pending ≠ []) : 0 < total pending := by
  obtain ⟨r, hr⟩ := List.exists_mem_of_ne_nil _ h
  have hpos : 0 < units r := of_decide_eq_true (List.mem_filter.1 hr).2
  have hle : units r ≤ total pending :=
    List.single_le_sum (fun _ _ => Nat.zero_le _) _ (List.mem_map_of_mem hr)
  omega

theorem computeAllocations_eq (hpool : parseUnits totalRewardPool = .ok pool)
    (hmin : rewardPoolMinUnits ≤ pool) (hmax : pool ≤ rewardPoolMaxUnits)
    (hparse : ∀ r ∈ pending, ∃ n, parseUnits r.amount = .ok n) :
    computeAllocations pending totalRewardPool = .ok (allocated pool pending) := by
  have hread : (pending.mapM fun reward : RewardAllocation => do
        return (reward.nodeId, ← parseUnits reward.amount))
      = .ok (pending.map fun r => (r.nodeId, units r)) := by
    refine mapM_ok fun r hr => ?_
    rw [parseUnits_eq_units (hparse r hr)]
    rfl
  have hfilter : (pending.map fun r => (r.nodeId, units r)).filter (fun r => decide (0 < r.2))
      = (positive pending).map fun r => (r.nodeId, units r) := by
    rw [List.filter_map]
    rfl
  have hsum : (((positive pending).map fun r => (r.nodeId, units r)).map Prod.snd).sum
      = total pending := by
    rw [List.map_map]
    rfl
  unfold computeAllocations
  rw [hpool]
  simp only [bind, Except.bind] at hread ⊢
  rw [if_neg (by omega), hread]
  simp only [hfilter, hsum]
  split_ifs with htotal
  · have hnone : positive pending = [] := by
      by_contra hne
      exact absurd (total_pos hne) (by omega)
    rw [allocated, hnone]
    rfl
  · rw [filterM_ok (p := fun r => decide (0 < units r)), allocated, List.map_map, List.filter_map]
    · have hshare : ((fun r => decide (0 < units r))
            ∘ (fun reward : String × ℕ =>
              { nodeId := reward.1, amount := formatUnits (pool * reward.2 / total pending) })
            ∘ fun r => (r.nodeId, units r)) = fun r => decide (0 < shareOf pool pending r) := by
        funext r
        simp only [Function.comp_apply, units_formatUnits]
        rfl
      rw [hshare]
      rfl
    · intro r hr
      obtain ⟨e, -, rfl⟩ := List.mem_map.1 hr
      rw [parseUnits_formatUnits, units_formatUnits]
      rfl

theorem sum_filter_pos {α : Type} (f : α → ℕ) (xs : List α) :
    ((xs.filter fun x => 0 < f x).map f).sum = (xs.map f).sum := by
  induction xs with
  | nil => rfl
  | cons x xs ih =>
    rw [List.filter_cons, List.map_cons, List.sum_cons]
    split_ifs with h
    · rw [List.map_cons, List.sum_cons, ih]
    · have hzero : f x = 0 := by simpa using h
      rw [hzero, Nat.zero_add, ih]

theorem sum_allocated (pool : ℕ) (pending : List RewardAllocation) :
    ((allocated pool pending).map units).sum
      = (((positive pending).map units).map (share pool (total pending))).sum := by
  have hunits : (units ∘ fun r : RewardAllocation =>
      ({ nodeId := r.nodeId, amount := formatUnits (shareOf pool pending r) } : RewardAllocation))
      = shareOf pool pending := funext fun r => units_formatUnits _ _
  rw [allocated, List.map_map, hunits, sum_filter_pos, List.map_map]
  rfl

/-- Every positive reward has its share of the pool, in their order, and the larger one no less; what
is left of the pool is less than a unit for each. -/
structure Allocates (pending : List RewardAllocation) (pool : ℕ) (result : List RewardAllocation) :
    Prop where
  exact : result = allocated pool pending
  bounded : (result.map units).sum ≤ pool
  remainder : positive pending ≠ [] →
    pool < (result.map units).sum + (positive pending).length
  fair : ∀ r ∈ positive pending, ∀ r' ∈ positive pending, units r ≤ units r' →
    shareOf pool pending r ≤ shareOf pool pending r'
  single : ∀ r, positive pending = [r] → result = [⟨r.nodeId, formatUnits pool⟩]

theorem allocates_allocated (hpool : 0 < pool) : Allocates pending pool (allocated pool pending) where
  exact := rfl
  bounded := by
    rw [sum_allocated]
    rcases Nat.eq_zero_or_pos (total pending) with htotal | htotal
    · have hnone : positive pending = [] := by
        by_contra hne
        exact absurd (total_pos hne) (by omega)
      rw [hnone]
      exact Nat.zero_le _
    · exact sum_share_le htotal
  remainder hne := by
    have hlt : pool < (((positive pending).map units).map (share pool (total pending))).sum
        + ((positive pending).map units).length := lt_sum_share_add (total_pos hne)
    rwa [List.length_map, ← sum_allocated] at hlt
  fair r _ r' _ h := share_mono h
  single r hr := by
    have hpos : 0 < units r := by
      have hmem : r ∈ positive pending := by
        rw [hr]
        exact List.mem_singleton_self r
      exact of_decide_eq_true (List.mem_filter.1 hmem).2
    have hshare : shareOf pool pending r = pool := by
      rw [shareOf, total, hr]
      exact share_self hpos
    rw [allocated, hr, List.filter_singleton]
    simp [hshare, hpool]

/-- The allocation of a pool within its bounds to rewards whose amounts can be read. -/
theorem computeAllocations_allocates (pending : List RewardAllocation) (totalRewardPool : String)
    (pool : ℕ) (hpool : parseUnits totalRewardPool = .ok pool) (hmin : rewardPoolMinUnits ≤ pool)
    (hmax : pool ≤ rewardPoolMaxUnits)
    (hparse : ∀ r ∈ pending, ∃ n, parseUnits r.amount = .ok n) :
    ∃ result, computeAllocations pending totalRewardPool = .ok result
      ∧ Allocates pending pool result :=
  ⟨_, computeAllocations_eq hpool hmin hmax hparse, allocates_allocated hmin⟩

def threeNodes : List RewardAllocation := [⟨"a", "1"⟩, ⟨"b", "0"⟩, ⟨"c", "2.5"⟩]

theorem computeAllocations_three : ∃ result, computeAllocations threeNodes "10.0000001" = .ok result
    ∧ Allocates threeNodes 100000001 result := by
  refine computeAllocations_allocates _ _ _ (by decide +kernel) (by decide) (by decide) ?_
  intro r hr
  simp only [threeNodes, List.mem_cons, List.not_mem_nil, or_false] at hr
  obtain rfl | rfl | rfl := hr
  · exact ⟨10000000, by decide +kernel⟩
  · exact ⟨0, by decide +kernel⟩
  · exact ⟨25000000, by decide +kernel⟩

/-- Where there is no positive reward, the whole pool is left. -/
theorem computeAllocations_none : ¬ ∀ (pending : List RewardAllocation) (totalRewardPool : String)
    (pool : ℕ), parseUnits totalRewardPool = .ok pool → rewardPoolMinUnits ≤ pool →
    pool ≤ rewardPoolMaxUnits → (∀ r ∈ pending, ∃ n, parseUnits r.amount = .ok n) →
    ∃ result, computeAllocations pending totalRewardPool = .ok result
      ∧ pool < (result.map units).sum + (positive pending).length := by
  intro h
  obtain ⟨result, hresult, hlt⟩ :=
    h [] "1" 10000000 (by decide +kernel) (by decide) (by decide) (by simp)
  have hempty : computeAllocations [] "1" = .ok [] := by decide +kernel
  rw [hempty] at hresult
  obtain rfl := Except.ok.inj hresult
  exact absurd hlt (by decide)

end Allocating

end Rewards

end VeriNode
