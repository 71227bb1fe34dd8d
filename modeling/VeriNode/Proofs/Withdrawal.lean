import VeriNode.Proofs.MemoryPool
import Mathlib.Algebra.Order.BigOperators.Group.List

/-!
# Taking a stake out again

A withdrawal has the bounds of a deposit, and what it leaves may be below the least that can be
withdrawn. A stake can be taken out in full if and only if it is at least that (`withdrawable_iff`);
the pool's balance covers it, unless two pairs of ids have one key.
-/

namespace VeriNode

namespace MemoryPool

section Calls

/-- `BondPoolService.unstake`, nobody else being there. -/
def serveUnstake (poolId validatorId : String) (amount : ℤ) (d : Tables) :
    Except PoolError Tables := do
  assertStakeAmount amount
  return (← unstake poolId validatorId amount d).2

/-- Calls for one validator, one after the other, each of which succeeds. -/
def unstakes (poolId validatorId : String) (amounts : List ℤ) (d : Tables) :
    Except PoolError Tables :=
  amounts.foldlM (fun d amount => serveUnstake poolId validatorId amount d) d

/-- Some calls take the whole stake out. -/
def Withdrawable (poolId validatorId : String) (d : Tables) : Prop :=
  ∃ amounts d', unstakes poolId validatorId amounts d = .ok d'
    ∧ getValidatorStake poolId validatorId d' = none

variable {d d' : Tables} {p v : String} {n : ℤ} {pool : BondPool} {stake : ValidatorStake}

/-- The tables when `n` was taken out. -/
def without (p v : String) (n : ℤ) (pool : BondPool) (stake : ValidatorStake) (d : Tables) :
    Tables where
  pools := d.pools.set p (moved pool (-n))
  stakes :=
    if stake.amount - n = 0 then d.stakes.delete (stakeKey p v)
    else d.stakes.set (stakeKey p v) { stake with amount := stake.amount - n }

theorem get_pool_without :
    (without p v n pool stake d).pools.get p = some (moved pool (-n)) := by
  rw [without, OrdMap.get_set, if_pos rfl]

theorem get_stake_without : getValidatorStake p v (without p v n pool stake d)
    = if stake.amount - n = 0 then none else some { stake with amount := stake.amount - n } := by
  rw [getValidatorStake, without]
  split_ifs
  · rw [OrdMap.get_delete, if_pos rfl]
  · rw [OrdMap.get_set, if_pos rfl]

/-- When a call succeeds, and what it leaves. -/
theorem serveUnstake_ok_iff (hs : getValidatorStake p v d = some stake) :
    serveUnstake p v n d = .ok d' ↔ minStake ≤ n ∧ n ≤ maxStake ∧ n ≤ stake.amount
      ∧ ∃ pool, d.pools.get p = some pool ∧ n ≤ pool.balance
        ∧ d' = without p v n pool stake d := by
  unfold serveUnstake assertStakeAmount
  by_cases hn : n < minStake ∨ maxStake < n
  · rw [if_pos hn]
    constructor
    · intro h
      cases h
    · rintro ⟨hmin, hmax, -⟩
      omega
  · rw [if_neg hn]
    simp only [bind, Except.bind, pure, Except.pure]
    rcases hp : d.pools.get p with _ | pool
    · rw [unstake_missing hp]
      simp
    · by_cases hstake : n ≤ stake.amount
      · by_cases hbalance : n ≤ pool.balance
        · rw [unstake_ok hp hs hstake hbalance]
          simp only [Except.ok.injEq]
          constructor
          · rintro rfl
            exact ⟨by omega, by omega, hstake, pool, rfl, hbalance, rfl⟩
          · rintro ⟨-, -, -, pool', hpool', -, rfl⟩
            obtain rfl := Option.some.inj hpool'
            rfl
        · rw [unstake_balance hp hs hstake (by omega)]
          simp [hbalance]
      · have hshort : ∀ st, d.stakes.get (stakeKey p v) = some st → st.amount < n := by
          intro st hst
          obtain rfl := Option.some.inj (hs.symm.trans hst)
          omega
        rw [unstake_short hp hshort]
        simp [hstake]

end Calls

section Plans

variable {d d' : Tables} {p v : String} {pool : BondPool} {stake : ValidatorStake}

theorem of_unstakes : ∀ {amounts : List ℤ} {d : Tables} {stake : ValidatorStake},
    getValidatorStake p v d = some stake → unstakes p v amounts d = .ok d' →
    getValidatorStake p v d' = none →
    minStake ≤ stake.amount ∧ ∃ pool, d.pools.get p = some pool ∧ stake.amount ≤ pool.balance
  | [], d, stake, hs, hrun, hnone => by
    obtain rfl := Except.ok.inj hrun
    rw [hs] at hnone
    cases hnone
  | n :: amounts, d, stake, hs, hrun, hnone => by
    rw [unstakes, List.foldlM_cons] at hrun
    rcases hfirst : serveUnstake p v n d with e | d₁
    · rw [hfirst] at hrun
      cases hrun
    · rw [hfirst] at hrun
      obtain ⟨hmin, -, hn, pool, hp, hbalance, rfl⟩ := (serveUnstake_ok_iff hs).1 hfirst
      by_cases hall : stake.amount - n = 0
      · exact ⟨by omega, pool, hp, by omega⟩
      · have hrest : getValidatorStake p v (without p v n pool stake d)
            = some { stake with amount := stake.amount - n } := by
          rw [get_stake_without, if_neg hall]
        obtain ⟨hmin', pool', hp', hbalance'⟩ := of_unstakes hrest hrun hnone
        rw [get_pool_without] at hp'
        obtain rfl := Option.some.inj hp'
        simp only [moved] at hmin' hbalance'
        have hpos : 0 < n := minStake_pos hmin
        exact ⟨by omega, pool, hp, by omega⟩

theorem Withdrawable.of_serve {n : ℤ} (h : serveUnstake p v n d = .ok d')
    (hrest : Withdrawable p v d') : Withdrawable p v d := by
  obtain ⟨amounts, d'', hrun, hnone⟩ := hrest
  refine ⟨n :: amounts, d'', ?_, hnone⟩
  rw [unstakes, List.foldlM_cons, h]
  exact hrun

/-- The amount of a call that leaves nothing, or enough for another. -/
def nextAmount (amount : ℤ) : ℤ :=
  if amount ≤ maxStake then amount
  else if amount < maxStake + minStake then amount - minStake
  else maxStake

theorem nextAmount_spec {amount : ℤ} (h : minStake ≤ amount) :
    minStake ≤ nextAmount amount ∧ nextAmount amount ≤ maxStake ∧ nextAmount amount ≤ amount
      ∧ (nextAmount amount = amount ∨ minStake ≤ amount - nextAmount amount) := by
  unfold nextAmount minStake maxStake at *
  split_ifs <;> omega

theorem withdrawable_of_le : ∀ (k : ℕ) {d : Tables} {pool : BondPool} {stake : ValidatorStake},
    stake.amount ≤ k → getValidatorStake p v d = some stake → minStake ≤ stake.amount →
    d.pools.get p = some pool → stake.amount ≤ pool.balance → Withdrawable p v d
  | 0, d, pool, stake, hk, hs, hmin, hp, hbalance => by
    have hpos := minStake_pos hmin
    omega
  | k + 1, d, pool, stake, hk, hs, hmin, hp, hbalance => by
    obtain ⟨hlow, hhigh, hle, hrest⟩ := nextAmount_spec hmin
    refine .of_serve ((serveUnstake_ok_iff hs).2
      ⟨hlow, hhigh, hle, pool, hp, by omega, rfl⟩) ?_
    by_cases hall : stake.amount - nextAmount stake.amount = 0
    · exact ⟨[], _, rfl, by rw [get_stake_without, if_pos hall]⟩
    · have hpos := minStake_pos hlow
      have hleft : getValidatorStake p v (without p v (nextAmount stake.amount) pool stake d)
          = some { stake with amount := stake.amount - nextAmount stake.amount } := by
        rw [get_stake_without, if_neg hall]
      have hsmaller : stake.amount - nextAmount stake.amount ≤ k := by
        push_cast at hk
        omega
      have hcovered : stake.amount - nextAmount stake.amount
          ≤ (moved pool (-nextAmount stake.amount)).balance := by
        simp only [moved]
        omega
      exact withdrawable_of_le k hsmaller hleft (hrest.resolve_left (by omega)) get_pool_without
        hcovered

theorem withdrawable_iff_of_stake (hs : getValidatorStake p v d = some stake) : Withdrawable p v d
    ↔ minStake ≤ stake.amount ∧ ∃ pool, d.pools.get p = some pool ∧ stake.amount ≤ pool.balance := by
  constructor
  · rintro ⟨amounts, d', hrun, hnone⟩
    exact of_unstakes hs hrun hnone
  · rintro ⟨hmin, pool, hp, hbalance⟩
    exact withdrawable_of_le stake.amount.toNat (by omega) hs hmin hp hbalance

end Plans

section Runs

variable {m : ℤ} {h : List (Taken State Action)} {s s' : State} {p v : String}
variable {stake : ValidatorStake}

def Founded (d : Tables) : Prop :=
  ∀ key stake, d.stakes.get key = some stake → (d.pools.get stake.poolId).isSome

theorem isSome_set {d : Tables} {q : String} (pool : BondPool) (h : (d.pools.get q).isSome) :
    ((d.pools.set p pool).get q).isSome := by
  rw [OrdMap.get_set]
  split_ifs
  · rfl
  · exact h

theorem Founded.move {a : Action} (hf : Founded s.tables) (hm : Move m s a s') :
    Founded s'.tables := by
  cases hm with
  | answered => exact hf
  | queued => exact hf
  | failed => exact hf
  | summed => exact hf
  | released => exact hf
  | staked id call p v n next pool =>
    intro key stake hget
    rcases OrdMap.of_get_set hget with ⟨rfl, rfl⟩ | ⟨-, hget⟩
    · simp only [State.through, OrdMap.get_set, if_true, Option.isSome_some]
    · exact isSome_set _ (hf key stake hget)
  | unstaked id call p v n pool stake₀ hc hres hph hop hp hst hn =>
    intro key stake hget
    refine isSome_set _ ?_
    simp only [State.through] at hget
    split_ifs at hget
    · exact hf key stake (OrdMap.of_get_delete hget).2
    · rcases OrdMap.of_get_set hget with ⟨rfl, rfl⟩ | ⟨-, hget⟩
      · exact hf _ stake₀ hst
      · exact hf key stake hget
  | wrote => exact fun key stake hget => isSome_set _ (hf key stake hget)

theorem founded_reachable (hr : (sys m).Reachable s) : Founded s.tables := by
  refine hr.invariant (P := fun s => Founded s.tables) ?_ fun s a s' hf hs => hf.move (step_move hs)
  rintro s ⟨pools, -, rfl⟩ key stake hget
  cases hget

theorem amount_le_sum {d : Tables} (hb : ∀ key stake, d.stakes.get key = some stake → 0 < stake.amount)
    {key : String} (hs : d.stakes.get key = some stake) :
    stake.amount ≤ sumValidatorStakes stake.poolId d.stakes := by
  have hmem : stake.amount ∈ d.stakes.entries.map fun e =>
      if e.2.poolId = stake.poolId then e.2.amount else 0 :=
    List.mem_map.2 ⟨(key, stake), OrdMap.mem_entries_iff.2 hs, if_pos rfl⟩
  refine List.single_le_sum ?_ _ hmem
  intro x hx
  obtain ⟨⟨key', stake'⟩, he, rfl⟩ := List.mem_map.1 hx
  have hpos := hb key' stake' (OrdMap.mem_entries_iff.1 he)
  simp only []
  split_ifs <;> omega

theorem covered (hr : Run (sys m) h s) (ha : Apart h) (hn : Named h (p, v))
    (hs : getValidatorStake p v s.tables = some stake) :
    ∃ pool, s.tables.pools.get p = some pool ∧ stake.amount ≤ pool.balance := by
  have hbooks := (inv_run hr ha).books
  obtain ⟨hpool, -⟩ := hbooks.stake_of ha hn hs
  have hsome := founded_reachable hr.reachable _ stake hs
  rw [hpool] at hsome
  obtain ⟨pool, hp⟩ := Option.isSome_iff_exists.1 hsome
  refine ⟨pool, hp, ?_⟩
  rw [(hbooks.pools p pool hp).2, ← hpool]
  exact amount_le_sum (fun key stake hget => (hbooks.bounds key stake hget).1) hs

/-- In every run: a validator's stake can be taken out if and only if it is at least what a call has
to take, and the pool's balance covers it, as it does unless two pairs of ids have one key. -/
theorem withdrawable_iff (hr : Run (sys m) h s)
    (hs : getValidatorStake p v s.tables = some stake) :
    (Withdrawable p v s.tables ↔ minStake ≤ stake.amount
        ∧ ∃ pool, s.tables.pools.get p = some pool ∧ stake.amount ≤ pool.balance)
      ∧ (Apart h → Named h (p, v) → (Withdrawable p v s.tables ↔ minStake ≤ stake.amount)) := by
  have hiff := withdrawable_iff_of_stake hs
  refine ⟨hiff, fun ha hn => ?_⟩
  rw [hiff, and_iff_left (covered hr ha hn hs)]

/-- Two deposits of as much as a call can take; what a first withdrawal leaves takes two more. -/
theorem withdrawable_two : ∃ h s, Run (sys 200000) h s
    ∧ getValidatorStake "a" "v" s.tables = some ⟨"a", "v", 100050⟩ ∧ Withdrawable "a" "v" s.tables := by
  obtain ⟨h, s, hr, hp⟩ := Sys.exists_run (S := sys 200000) (init_pools 200000 ["a"])
    [.stake "a" "v" 100000, .run 0, .release 0, .stake "a" "v" 100000, .run 1, .release 1,
      .unstake "a" "v" 99950, .run 2, .release 2]
    (p := fun x => getValidatorStake "a" "v" x.2.tables = some ⟨"a", "v", 100050⟩
      && x.2.tables.pools.get "a" = some ⟨"a", 100050, 3⟩)
    (by decide +kernel)
  simp only [Bool.and_eq_true, decide_eq_true_eq] at hp
  exact ⟨h, s, hr, hp.1, (withdrawable_iff hr hp.1).1.2 ⟨by decide, _, hp.2, le_refl _⟩⟩

/-- Of a stake of 150, 100 are taken out: the other 50 stay. -/
theorem stake_stranded : ¬ ∀ h s p v stake, Run (sys maxStake) h s →
    getValidatorStake p v s.tables = some stake → 0 < stake.amount → Withdrawable p v s.tables := by
  intro hall
  obtain ⟨h, s, hr, hp⟩ := Sys.exists_run (S := sys maxStake) (init_pools maxStake ["a"])
    [.stake "a" "v" 150, .run 0, .release 0, .unstake "a" "v" 100, .run 1, .release 1]
    (p := fun x => getValidatorStake "a" "v" x.2.tables = some ⟨"a", "v", 50⟩)
    (by decide +kernel)
  have hs := of_decide_eq_true hp
  have hmin := ((withdrawable_iff_of_stake hs).1 (hall h s "a" "v" _ hr hs (by decide))).1
  exact absurd hmin (by decide)

end Runs

end MemoryPool

end VeriNode
