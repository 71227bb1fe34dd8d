import VeriNode.Rewards.Distributor
import Mathlib.Algebra.Order.Ring.Int

/-!
# Reward distribution conserves value

A call that has read a pending amount holds the row until its transaction ends, so that what it
commits takes the whole of the amount it read (`Stands`). Every other way out leaves the tables
alone, whatever fails (`rewards_conserved`).
-/

namespace VeriNode

namespace Rewards

section Amounts

variable {nodeId : String}

theorem parseUnits_formatUnits (n : ℕ) : parseUnits (formatUnits n) = .ok n := by
  unfold parseUnits formatUnits
  rw [Decimal.parse_format (by decide)]

theorem computeAllocations_single {n : ℕ} (hn : n ≠ 0) :
    computeAllocations [⟨nodeId, formatUnits n⟩] (formatUnits n)
      = if rewardPoolMaxUnits < n
        then .error (.error none "totalRewardPool is outside supported reward-cycle bounds")
        else .ok [⟨nodeId, formatUnits n⟩] := by
  have hpos : 0 < n := by omega
  have hmin : ¬ n < rewardPoolMinUnits := by
    unfold rewardPoolMinUnits
    omega
  unfold computeAllocations
  simp only [parseUnits_formatUnits, bind, Except.bind, hmin, false_or]
  split_ifs with hmax
  · rfl
  · simp [parseUnits_formatUnits, bind, Except.bind, pure, Except.pure, hpos, hn,
      List.filterM, List.filterAuxM]

theorem allocation_exact (n : ℕ) : allocation nodeId (formatUnits n)
    = if n = 0 then .ok none
      else if rewardPoolMaxUnits < n
        then .error (.error none "totalRewardPool is outside supported reward-cycle bounds")
        else .ok (some ⟨nodeId, formatUnits n⟩) := by
  unfold allocation
  simp only [parseUnits_formatUnits, bind, Except.bind]
  split_ifs with hn hmax
  · rfl
  · rw [computeAllocations_single hn, if_pos hmax]
  · rw [computeAllocations_single hn, if_neg hmax]
    rfl

theorem numericText_natCast (n : ℕ) : numericText n = formatUnits n := by
  unfold numericText formatUnits
  rw [if_neg (by omega), Int.natAbs_natCast]

end Amounts

section Histories

/-- The call that takes the step. -/
def Action.taker : Action → Option ℕ
  | .call _ _ => none
  | .next id _ => some id

/-- No step of the call has changed a row. -/
def Quiet (id : ℕ) (h : List (Taken State Action)) : Prop :=
  ∀ t ∈ h, t.act.taker = some id → t.post.tables = t.pre.tables

def Read (id : ℕ) (nodeId : String) (n : ℕ) (h : List (Taken State Action)) : Prop :=
  ∃ t ∈ h, t.act = .next id none ∧ (t.pre.calls.get id).map (·.phase) = some .selecting
    ∧ t.pre.tables.rewardPendingAmounts.get nodeId = some (n : ℤ)

/-- The step inserts one row, of the whole amount that was pending for the node. -/
structure Pays (nodeId : String) (n : ℕ) (t : Taken State Action) : Prop where
  inserted : t.post.tables.rewardTx = t.pre.tables.rewardTx ++ [⟨nodeId, n⟩]
  pending : t.pre.tables.rewardPendingAmounts.get nodeId = some (n : ℤ)
  updated : t.post.tables.rewardPendingAmounts = t.pre.tables.rewardPendingAmounts.set nodeId 0

/-- One step of the call pays what it has read before, and the others change nothing. -/
def Paid (id : ℕ) (nodeId : String) (n : ℕ) (h : List (Taken State Action)) : Prop :=
  ∃ l t e, h = l ++ t :: e ∧ t.act = .next id none ∧ Pays nodeId n t ∧ Read id nodeId n e
    ∧ Quiet id (l ++ e)

variable {id n : ℕ} {nodeId : String} {h : List (Taken State Action)} {t : Taken State Action}

theorem Quiet.cons (hq : Quiet id h)
    (ht : t.act.taker = some id → t.post.tables = t.pre.tables) : Quiet id (t :: h) := by
  intro u hu ha
  rcases List.mem_cons.1 hu with rfl | hu
  · exact ht ha
  · exact hq u hu ha

theorem Read.cons (hr : Read id nodeId n h) : Read id nodeId n (t :: h) := by
  obtain ⟨u, hu, hrest⟩ := hr
  exact ⟨u, List.mem_cons_of_mem _ hu, hrest⟩

theorem Paid.cons (hp : Paid id nodeId n h)
    (ht : t.act.taker = some id → t.post.tables = t.pre.tables) : Paid id nodeId n (t :: h) := by
  obtain ⟨l, u, e, rfl, ha, hpays, hr, hq⟩ := hp
  exact ⟨t :: l, u, e, rfl, ha, hpays, hr, hq.cons ht⟩

end Histories

section Statements

/-- What a statement that succeeds does to its call, with what lets it. -/
inductive Succeeds (hashtext : String → ℤ) (s : State) (id : ℕ) (call : Call) : Call → Prop
  | began : call.phase = .beginning →
      Succeeds hashtext s id call { call with phase := .saving }
  | saved : call.phase = .saving →
      Succeeds hashtext s id call { call with phase := .settingTimeout }
  | timeoutSet : call.phase = .settingTimeout →
      Succeeds hashtext s id call { call with phase := .locking }
  | locked : call.phase = .locking → advisoryLocked hashtext s id call.nodeId = false →
      Succeeds hashtext s id call { call with phase := .selecting, advisoryLock := true }
  | missed : call.phase = .selecting →
      s.tables.rewardPendingAmounts.get call.nodeId = none →
      Succeeds hashtext s id call { call with phase := afterSelect call.nodeId "0" }
  | selected (units : ℤ) : call.phase = .selecting → rowLocked s id call.nodeId = false →
      s.tables.rewardPendingAmounts.get call.nodeId = some units →
      Succeeds hashtext s id call
        { call with phase := afterSelect call.nodeId (numericText units), rowLock := true }
  | inserted (a : RewardAllocation) (units : ℕ) : call.phase = .inserting a →
      Decimal.parse 7 a.amount = some units →
      Succeeds hashtext s id call
        { call with phase := .updating a, txWrite := some ⟨call.nodeId, units⟩ }
  | updatedNone (a : RewardAllocation) : call.phase = .updating a →
      s.tables.rewardPendingAmounts.get call.nodeId = none →
      Succeeds hashtext s id call
        { call with phase := .releasing ⟨call.nodeId, a.amount, .distributed⟩ }
  | updated (a : RewardAllocation) (units : ℕ) (pending : ℤ) : call.phase = .updating a →
      rowLocked s id call.nodeId = false → Decimal.parse 7 a.amount = some units →
      s.tables.rewardPendingAmounts.get call.nodeId = some pending →
      Succeeds hashtext s id call { call with
        phase := .releasing ⟨call.nodeId, a.amount, .distributed⟩
        rowLock := true
        pendingWrite := some (pending - units) }
  | released (r : RewardDistributionResult) : call.phase = .releasing r →
      Succeeds hashtext s id call { call with phase := .committing r }
  | rolledBack (e : Failure) : call.phase = .rollingBack e →
      Succeeds hashtext s id call (call.rollBack (.releasingAfter e))
  | requeues (e : Failure) : call.phase = .releasingAfter e → call.requeue = true →
      Succeeds hashtext s id call { call with phase := .requeueing }
  | leaves (e : Failure) : call.phase = .releasingAfter e → call.requeue = false →
      Succeeds hashtext s id call { call with phase := .committing (requeued call.nodeId) }
  | rethrows (e : Failure) : call.phase = .releasingAfter e →
      Succeeds hashtext s id call { call with phase := .aborting }
  | requeued : call.phase = .requeueing →
      Succeeds hashtext s id call { call with phase := .committing (requeued call.nodeId) }
  | committed (r : RewardDistributionResult) : call.phase = .committing r →
      Succeeds hashtext s id call (call.rollBack (.returned r))
  | aborted : call.phase = .aborting → Succeeds hashtext s id call (call.rollBack .threw)

variable {hashtext : String → ℤ} {s : State} {id : ℕ} {call call' : Call}

theorem succeed_succeeds (hn : call.succeed hashtext id s = some call') :
    Succeeds hashtext s id call call' := by
  unfold Call.succeed at hn
  cases hph : call.phase with
  | beginning =>
    simp only [hph, Option.some.injEq] at hn
    exact hn ▸ .began hph
  | saving =>
    simp only [hph, Option.some.injEq] at hn
    exact hn ▸ .saved hph
  | settingTimeout =>
    simp only [hph, Option.some.injEq] at hn
    exact hn ▸ .timeoutSet hph
  | locking =>
    simp only [hph] at hn
    split_ifs at hn with hl
    rw [← Option.some.inj hn]
    exact .locked hph (eq_false_of_ne_true hl)
  | selecting =>
    simp only [hph] at hn
    split_ifs at hn with hl
    rcases hg : s.tables.rewardPendingAmounts.get call.nodeId with _ | units <;>
      simp only [hg, Option.some.injEq] at hn
    · exact hn ▸ .missed hph hg
    · exact hn ▸ .selected units hph (eq_false_of_ne_true hl) hg
  | inserting a =>
    simp only [hph] at hn
    rcases hp : Decimal.parse 7 a.amount with _ | units <;> simp only [hp, reduceCtorEq] at hn
    split_ifs at hn
    rw [← Option.some.inj hn]
    exact .inserted a units hph hp
  | updating a =>
    simp only [hph] at hn
    split_ifs at hn with hl
    rcases hp : Decimal.parse 7 a.amount with _ | units <;> simp only [hp, reduceCtorEq] at hn
    rcases hg : s.tables.rewardPendingAmounts.get call.nodeId with _ | pending <;>
      simp only [hg, Option.some.injEq] at hn
    · exact hn ▸ .updatedNone a hph hg
    · split_ifs at hn
      rw [← Option.some.inj hn]
      exact .updated a units pending hph (eq_false_of_ne_true hl) hp hg
  | releasing r =>
    simp only [hph, Option.some.injEq] at hn
    exact hn ▸ .released r hph
  | rollingBack e =>
    simp only [hph, Option.some.injEq] at hn
    exact hn ▸ .rolledBack e hph
  | releasingAfter e =>
    simp only [hph] at hn
    split_ifs at hn with ht hq <;> rw [← Option.some.inj hn]
    · exact .requeues e hph hq
    · exact .leaves e hph (eq_false_of_ne_true hq)
    · exact .rethrows e hph
  | requeueing =>
    simp only [hph, Option.some.injEq] at hn
    exact hn ▸ .requeued hph
  | committing r =>
    simp only [hph, Option.some.injEq] at hn
    exact hn ▸ .committed r hph
  | aborting =>
    simp only [hph, Option.some.injEq] at hn
    exact hn ▸ .aborted hph
  | returned r => simp [hph] at hn
  | threw => simp [hph] at hn

theorem afterSelect_cases (nodeId amount : String) :
    (∃ e, afterSelect nodeId amount = .rollingBack e)
      ∨ afterSelect nodeId amount = .releasing (skipped nodeId)
      ∨ ∃ a, afterSelect nodeId amount = .inserting a := by
  unfold afterSelect
  rcases allocation nodeId amount with e | _ | a
  · exact .inl ⟨e, rfl⟩
  · exact .inr (.inl rfl)
  · exact .inr (.inr ⟨a, rfl⟩)

theorem Succeeds.locks (hn : Succeeds hashtext s id call call') :
    call'.nodeId = call.nodeId ∧ call'.requeue = call.requeue
      ∧ (call'.rowLock = true → call.rowLock = true ∨ rowLocked s id call.nodeId = false) := by
  cases hn with
  | selected units hph hl hg => exact ⟨rfl, rfl, fun _ => .inr hl⟩
  | updated a units pending hph hl hp hg => exact ⟨rfl, rfl, fun _ => .inr hl⟩
  | rolledBack e hph => exact ⟨rfl, rfl, by simp [Call.rollBack]⟩
  | committed r hph => exact ⟨rfl, rfl, by simp [Call.rollBack]⟩
  | aborted hph => exact ⟨rfl, rfl, by simp [Call.rollBack]⟩
  | _ => exact ⟨rfl, rfl, .inl⟩

theorem Succeeds.returned {r : RewardDistributionResult} (hn : Succeeds hashtext s id call call')
    (hr : call'.phase = .returned r) : call.phase = .committing r := by
  cases hn with
  | missed hph hg =>
    rcases afterSelect_cases call.nodeId "0" with ⟨e, ha⟩ | ha | ⟨a, ha⟩ <;> simp [ha] at hr
  | selected units hph hl hg =>
    rcases afterSelect_cases call.nodeId (numericText units) with ⟨e, ha⟩ | ha | ⟨a, ha⟩ <;>
      simp [ha] at hr
  | committed r' hph => simpa [Call.rollBack, hph] using hr
  | _ => simp [Call.rollBack] at hr

end Statements

section Standing

/-- The call has locked the row of its node, which is as it was read. -/
structure Holds (h : List (Taken State Action)) (pending : OrdMap String ℤ) (id : ℕ) (call : Call)
    (n : ℕ) : Prop where
  locked : call.rowLock = true
  pending : pending.get call.nodeId = some (n : ℤ)
  read : Read id call.nodeId n h
  pos : 0 < n
  le : n ≤ rewardPoolMaxUnits

/-- Nothing is written. -/
def Clean (call : Call) : Prop := call.txWrite = none ∧ call.pendingWrite = none

def Written (h : List (Taken State Action)) (pending : OrdMap String ℤ) (id : ℕ) (call : Call)
    (result : RewardDistributionResult) : Prop :=
  (result.status ≠ .distributed ∧ Clean call)
    ∨ ∃ n : ℕ, Holds h pending id call n ∧ call.txWrite = some ⟨call.nodeId, n⟩
      ∧ call.pendingWrite = some 0 ∧ result = ⟨call.nodeId, formatUnits n, .distributed⟩

/-- What is known of a call at each statement. -/
def Stands (h : List (Taken State Action)) (pending : OrdMap String ℤ) (id : ℕ) (call : Call) :
    Prop :=
  match call.phase with
  | .inserting allocation => ∃ n : ℕ, Holds h pending id call n ∧ Clean call
      ∧ allocation = ⟨call.nodeId, formatUnits n⟩
  | .updating allocation => ∃ n : ℕ, Holds h pending id call n
      ∧ call.txWrite = some ⟨call.nodeId, n⟩ ∧ allocation = ⟨call.nodeId, formatUnits n⟩
  | .releasing result => Written h pending id call result
  | .committing result => Written h pending id call result
  | .rollingBack _ => True
  | .aborting => True
  | .returned result => result.status ≠ .distributed
      ∨ ∃ n : ℕ, result = ⟨call.nodeId, formatUnits n, .distributed⟩ ∧ Paid id call.nodeId n h
  | .threw => True
  | _ => Clean call

variable {hashtext : String → ℤ} {s s' : State} {id i n : ℕ} {h : List (Taken State Action)}
  {t : Taken State Action} {pending pending' : OrdMap String ℤ} {call call' : Call}
  {error : Option Failure} {result : RewardDistributionResult}

theorem Holds.cons (hh : Holds h pending id call n) (hp : call.rowLock = true →
    pending'.get call.nodeId = pending.get call.nodeId) : Holds (t :: h) pending' id call n :=
  ⟨hh.locked, (hp hh.locked).trans hh.pending, hh.read.cons, hh.pos, hh.le⟩

theorem Written.cons (hw : Written h pending id call result) (hp : call.rowLock = true →
    pending'.get call.nodeId = pending.get call.nodeId) :
    Written (t :: h) pending' id call result := by
  rcases hw with hw | ⟨n, hh, hrest⟩
  · exact .inl hw
  · exact .inr ⟨n, hh.cons hp, hrest⟩

theorem Stands.cons (hst : Stands h pending id call)
    (hp : call.rowLock = true → pending'.get call.nodeId = pending.get call.nodeId)
    (ht : t.act.taker = some id → t.post.tables = t.pre.tables) :
    Stands (t :: h) pending' id call := by
  unfold Stands at hst ⊢
  cases hph : call.phase with
  | inserting a =>
    simp only [hph] at hst ⊢
    obtain ⟨n, hh, hrest⟩ := hst
    exact ⟨n, hh.cons hp, hrest⟩
  | updating a =>
    simp only [hph] at hst ⊢
    obtain ⟨n, hh, hrest⟩ := hst
    exact ⟨n, hh.cons hp, hrest⟩
  | releasing r =>
    simp only [hph] at hst ⊢
    exact hst.cons hp
  | committing r =>
    simp only [hph] at hst ⊢
    exact hst.cons hp
  | returned r =>
    simp only [hph] at hst ⊢
    rcases hst with hst | ⟨n, hr, hpaid⟩
    · exact .inl hst
    · exact .inr ⟨n, hr, hpaid.cons ht⟩
  | rollingBack e => trivial
  | aborting => trivial
  | threw => trivial
  | _ =>
    simp only [hph] at hst
    exact hst

theorem fail_phase {e : Failure} (hf : call.fail e = some call') :
    call'.phase = .aborting ∨ (∃ e', call'.phase = .rollingBack e') ∨ call'.phase = .threw := by
  unfold Call.fail at hf
  split at hf <;> simp only [Option.some.injEq, reduceCtorEq] at hf <;> subst hf <;>
    simp [Call.rollBack]

theorem Stands.of_rolled_back (hph : call.phase = .aborting ∨ (∃ e, call.phase = .rollingBack e)
    ∨ call.phase = .threw) : Stands h pending id call := by
  unfold Stands
  rcases hph with hph | ⟨e, hph⟩ | hph <;> simp only [hph]

theorem stands_selected (hpos : ∀ nodeId amount, pending.get nodeId = some amount → 0 ≤ amount)
    (hclean : Clean call) {units : ℤ} (hg : pending.get call.nodeId = some units)
    (hread : ∀ n : ℕ, pending.get call.nodeId = some (n : ℤ) → Read id call.nodeId n h) :
    Stands h pending id
      { call with phase := afterSelect call.nodeId (numericText units), rowLock := true } := by
  obtain ⟨n, rfl⟩ := Int.eq_ofNat_of_zero_le (hpos _ _ hg)
  have hafter : afterSelect call.nodeId (numericText n)
      = if n = 0 then .releasing (skipped call.nodeId)
        else if rewardPoolMaxUnits < n
          then .rollingBack
            (.error none "totalRewardPool is outside supported reward-cycle bounds")
          else .inserting ⟨call.nodeId, formatUnits n⟩ := by
    unfold afterSelect
    rw [numericText_natCast, allocation_exact]
    split_ifs <;> rfl
  unfold Stands
  simp only [hafter]
  split_ifs with h0 hmax
  · exact .inl ⟨by simp [skipped], hclean⟩
  · trivial
  · exact ⟨n, ⟨rfl, hg, hread n hg, by omega, by omega⟩, hclean, rfl⟩

/-- A statement of the call that commits nothing. -/
theorem Stands.succeed (hst : Stands h s.tables.rewardPendingAmounts id call)
    (hpos : ∀ nodeId amount, s.tables.rewardPendingAmounts.get nodeId = some amount → 0 ≤ amount)
    (hread : call.phase = .selecting → ∀ n : ℕ,
      s.tables.rewardPendingAmounts.get call.nodeId = some (n : ℤ) → Read id call.nodeId n h)
    (hn : Succeeds hashtext s id call call') (hc : call.commits none = false) :
    Stands h s.tables.rewardPendingAmounts id call' := by
  unfold Stands at hst
  cases hn with
  | began hph =>
    simp only [hph] at hst
    exact hst
  | saved hph =>
    simp only [hph] at hst
    exact hst
  | timeoutSet hph =>
    simp only [hph] at hst
    exact hst
  | locked hph hl =>
    simp only [hph] at hst
    exact hst
  | missed hph hg =>
    simp only [hph] at hst
    have hzero : afterSelect call.nodeId "0" = .releasing (skipped call.nodeId) := rfl
    unfold Stands
    simp only [hzero]
    exact .inl ⟨by simp [skipped], hst⟩
  | selected units hph hl hg =>
    simp only [hph] at hst
    exact stands_selected hpos hst hg (hread hph)
  | inserted a units hph hp =>
    simp only [hph] at hst
    obtain ⟨n, hh, hclean, rfl⟩ := hst
    obtain rfl : n = units := by
      simpa [formatUnits, Decimal.parse_format (by decide : 0 < 7)] using hp
    exact ⟨n, ⟨hh.locked, hh.pending, hh.read, hh.pos, hh.le⟩, rfl, rfl⟩
  | updatedNone a hph hg =>
    simp only [hph] at hst
    obtain ⟨n, hh, -, -⟩ := hst
    simp [hh.pending] at hg
  | updated a units pending hph hl hp hg =>
    simp only [hph] at hst
    obtain ⟨n, hh, htx, rfl⟩ := hst
    obtain rfl : n = units := by
      simpa [formatUnits, Decimal.parse_format (by decide : 0 < 7)] using hp
    obtain rfl : (n : ℤ) = pending := Option.some.inj (hh.pending.symm.trans hg)
    exact .inr ⟨n, ⟨rfl, hg, hh.read, hh.pos, hh.le⟩, htx, by simp, rfl⟩
  | released r hph =>
    simp only [hph] at hst
    rcases hst with hst | ⟨n, hh, hrest⟩
    · exact .inl hst
    · exact .inr ⟨n, ⟨hh.locked, hh.pending, hh.read, hh.pos, hh.le⟩, hrest⟩
  | rolledBack e hph => exact ⟨rfl, rfl⟩
  | requeues e hph hq =>
    simp only [hph] at hst
    exact hst
  | leaves e hph hq =>
    simp only [hph] at hst
    exact .inl ⟨by simp [requeued], hst⟩
  | rethrows e hph => trivial
  | requeued hph =>
    simp only [hph] at hst
    exact .inl ⟨by simp [Rewards.requeued], hst⟩
  | committed r hph => simp [Call.commits, hph] at hc
  | aborted hph => trivial

theorem fail_locks {e : Failure} (hn : call.fail e = some call') :
    call'.nodeId = call.nodeId ∧ call'.requeue = call.requeue
      ∧ (call'.rowLock = true → call.rowLock = true) := by
  unfold Call.fail at hn
  split at hn <;> simp only [Option.some.injEq, reduceCtorEq] at hn <;> subst hn <;>
    simp [Call.rollBack]

theorem next_locks (hn : call.next hashtext id s error = some call') :
    call'.nodeId = call.nodeId ∧ call'.requeue = call.requeue
      ∧ (call'.rowLock = true → call.rowLock = true ∨ rowLocked s id call.nodeId = false) := by
  rcases error with _ | e
  · exact (succeed_succeeds hn).locks
  · obtain ⟨h1, h2, h3⟩ := fail_locks hn
    exact ⟨h1, h2, fun hl => .inl (h3 hl)⟩

theorem rowLocked_eq_false {nodeId : String} (hl : rowLocked s id nodeId = false)
    (hg : s.calls.get i = some call) (hi : i ≠ id) (hlock : call.rowLock = true) :
    call.nodeId ≠ nodeId := by
  intro hnode
  have hno := OrdMap.of_any_eq_false hl hg
  simp [hi, hlock, hnode] at hno

end Standing

section Requeues

/-- How often the cycle of the call's node has been requeued for it. -/
def Counted (requeues : List ℕ) (id : ℕ) (call : Call) : Prop :=
  match call.phase with
  | .releasing result => requeues.count id = 0 ∧ result.status ≠ .requeued
  | .requeueing => requeues.count id = 0 ∧ call.requeue = true
  | .committing result => requeues.count id
      = if result.status = .requeued ∧ call.requeue = true then 1 else 0
  | .aborting => True
  | .returned result => requeues.count id
      = if result.status = .requeued ∧ call.requeue = true then 1 else 0
  | .threw => True
  | _ => requeues.count id = 0

variable {hashtext : String → ℤ} {s : State} {id : ℕ} {requeues : List ℕ} {call call' : Call}
  {error : Option Failure}

theorem Counted.selected (hc : requeues.count id = 0) (amount : String)
    (hph : call.phase = afterSelect call.nodeId amount) : Counted requeues id call := by
  unfold Counted
  rcases afterSelect_cases call.nodeId amount with ⟨e, ha⟩ | ha | ⟨a, ha⟩ <;> rw [hph, ha]
  · exact hc
  · exact ⟨hc, by simp [skipped]⟩
  · exact hc

theorem Counted.fail {e : Failure} (hc : Counted requeues id call)
    (hn : call.fail e = some call') : Counted requeues id call' := by
  unfold Counted at hc
  unfold Call.fail at hn
  split at hn <;> simp only [Option.some.injEq, reduceCtorEq] at hn <;> subst hn <;>
    rename_i hph <;> simp only [hph] at hc <;> first | trivial | exact hc | exact hc.1

theorem Counted.succeed (hc : Counted requeues id call)
    (hn : Succeeds hashtext s id call call') (hq : call.phase ≠ .requeueing) :
    Counted requeues id call' := by
  unfold Counted at hc
  cases hn with
  | missed hph hg =>
    simp only [hph] at hc
    exact .selected hc "0" rfl
  | selected units hph hl hg =>
    simp only [hph] at hc
    exact .selected hc (numericText units) rfl
  | updatedNone a hph hg =>
    simp only [hph] at hc
    exact ⟨hc, by simp⟩
  | updated a units pending hph hl hp hg =>
    simp only [hph] at hc
    exact ⟨hc, by simp⟩
  | released r hph =>
    simp only [hph] at hc
    exact hc.1.trans (if_neg fun h => hc.2 h.1).symm
  | requeues e hph hq' =>
    simp only [hph] at hc
    exact ⟨hc, hq'⟩
  | leaves e hph hq' =>
    simp only [hph] at hc
    exact hc.trans (if_neg (by simp [hq'])).symm
  | rethrows e hph => trivial
  | requeued hph => exact absurd hph hq
  | aborted hph => trivial
  | began hph =>
    simp only [hph] at hc
    exact hc
  | saved hph =>
    simp only [hph] at hc
    exact hc
  | timeoutSet hph =>
    simp only [hph] at hc
    exact hc
  | locked hph hl =>
    simp only [hph] at hc
    exact hc
  | inserted a units hph hp =>
    simp only [hph] at hc
    exact hc
  | rolledBack e hph =>
    simp only [hph] at hc
    exact hc
  | committed r hph =>
    simp only [hph] at hc
    exact hc

theorem Counted.next (hc : Counted requeues id call)
    (hn : call.next hashtext id s error = some call') :
    Counted (if call.phase = .requeueing then requeues ++ [id] else requeues) id call' := by
  split_ifs with hq
  · unfold Counted at hc
    simp only [hq] at hc
    rcases error with _ | e
    · simp only [Call.next, Call.succeed, hq, Option.some.injEq] at hn
      subst hn
      simp [Counted, requeued, List.count_append, hc.1, hc.2]
    · simp only [Call.next, Call.fail, hq, Option.some.injEq] at hn
      subst hn
      trivial
  · rcases error with _ | e
    · exact hc.succeed (succeed_succeeds hn) hq
    · exact hc.fail hn

theorem Counted.of_count_eq {requeues' : List ℕ} (hc : Counted requeues id call)
    (h : requeues'.count id = requeues.count id) : Counted requeues' id call := by
  unfold Counted at hc ⊢
  rw [h]
  exact hc

end Requeues

section Conservation

/-- What the node has coming and what it was paid. -/
def worth (nodeId : String) (tables : Tables) : ℤ :=
  (tables.rewardPendingAmounts.get nodeId).getD 0
    + ((tables.rewardTx.filter fun row => row.nodeId = nodeId).map (·.amount)).sum

structure Inv (h : List (Taken State Action)) (s : State) : Prop where
  nonneg : ∀ nodeId amount, s.tables.rewardPendingAmounts.get nodeId = some amount → 0 ≤ amount
  stands : ∀ id call, s.calls.get id = some call →
    Stands h s.tables.rewardPendingAmounts id call
  quiet : ∀ id call, s.calls.get id = some call →
    (∀ result, call.phase = .returned result → result.status ≠ .distributed) → Quiet id h
  exclusive : ∀ i c j c', s.calls.get i = some c → s.calls.get j = some c' → c.rowLock = true →
    c'.rowLock = true → c.nodeId = c'.nodeId → i = j
  counted : ∀ id call, s.calls.get id = some call → Counted s.requeues id call
  id : ∀ id call, s.calls.get id = some call → id < s.nextId
  taker : ∀ t ∈ h, ∀ id, t.act.taker = some id → id < s.nextId
  requeues : ∀ id ∈ s.requeues, id < s.nextId

variable {hashtext : String → ℤ} {s s' : State} {id n : ℕ} {nodeId : String} {call call' : Call}
  {error : Option Failure} {h : List (Taken State Action)} {t : Taken State Action}
  {a : Action}

theorem Pays.worth (hp : Pays nodeId n t) (other : String) :
    worth other t.post.tables = worth other t.pre.tables := by
  unfold Rewards.worth
  rw [hp.inserted, hp.updated, List.filter_append, List.map_append, List.sum_append,
    OrdMap.get_set]
  by_cases ho : other = nodeId
  · subst ho
    simp only [if_true, hp.pending, Option.getD_some, decide_true, List.filter_cons_of_pos,
      List.filter_nil, List.map_cons, List.map_nil, List.sum_cons, List.sum_nil]
    omega
  · have hne : ¬ nodeId = other := fun he => ho he.symm
    simp [ho, hne]

theorem next_not_returned (hn : call.next hashtext id s error = some call')
    (r : RewardDistributionResult) : call.phase ≠ .returned r := by
  intro hr
  rcases error with _ | e
  · simp [Call.next, Call.succeed, hr] at hn
  · simp [Call.next, Call.fail, hr] at hn

/-- What a statement does: it changes no row, or it pays what its call has read. -/
theorem Stands.next (hst : Stands h s.tables.rewardPendingAmounts id call)
    (hpos : ∀ nodeId amount, s.tables.rewardPendingAmounts.get nodeId = some amount → 0 ≤ amount)
    (hg : s.calls.get id = some call) (hn : call.next hashtext id s error = some call')
    (hs' : s'.tables = if call.commits error then call.apply s.tables else s.tables) :
    (s'.tables = s.tables
        ∧ Stands (⟨s, .next id error, s'⟩ :: h) s.tables.rewardPendingAmounts id call'
        ∧ ∀ r, call'.phase = .returned r → r.status ≠ .distributed)
      ∨ ∃ n : ℕ, Holds h s.tables.rewardPendingAmounts id call n
        ∧ Pays call.nodeId n ⟨s, .next id error, s'⟩ ∧ error = none
        ∧ call'.phase = .returned ⟨call.nodeId, formatUnits n, .distributed⟩ := by
  rcases error with _ | e
  · by_cases hc : call.commits none = true
    · obtain ⟨r, hph⟩ : ∃ r, call.phase = .committing r := by
        unfold Call.commits at hc
        split at hc
        · rename_i r hph _
          exact ⟨r, hph⟩
        · simp at hc
      rw [if_pos hc] at hs'
      simp only [Call.next, Call.succeed, hph, Option.some.injEq] at hn
      subst hn
      unfold Stands at hst
      simp only [hph] at hst
      rcases hst with ⟨hstatus, htx, hp⟩ | ⟨n, hh, htx, hp, rfl⟩
      · refine .inl ⟨?_, .inl hstatus, fun r' hr' => ?_⟩
        · rw [hs']
          simp [Call.apply, htx, hp]
        · obtain rfl : r = r' := by simpa [Call.rollBack] using hr'
          exact hstatus
      · refine .inr ⟨n, hh, ⟨?_, hh.pending, ?_⟩, rfl, rfl⟩ <;> simp only [hs', Call.apply, htx, hp]
        rfl
    · have hc' := eq_false_of_ne_true hc
      rw [if_neg hc] at hs'
      have hcons := hst.cons (t := ⟨s, .next id none, s'⟩) (fun _ => rfl) fun _ => hs'
      have hsucc := succeed_succeeds hn
      refine .inl ⟨hs', hcons.succeed hpos (fun hph n hpend => ?_) hsucc hc', fun r hr => ?_⟩
      · exact ⟨_, List.mem_cons_self, rfl, by rw [hg, Option.map_some, hph], hpend⟩
      · simp [Call.commits, hsucc.returned hr] at hc'
  · have hfail := fail_phase hn
    have hcf : call.commits (some e) = false := by
      unfold Call.commits
      split <;> simp_all
    rw [hcf] at hs'
    refine .inl ⟨hs', .of_rolled_back hfail, fun r hr => ?_⟩
    rcases hfail with hf | ⟨e', hf⟩ | hf <;> simp [hf] at hr

theorem Inv.called (hi : Inv h s) (nodeId : String) (requeue : Bool)
    (hs' : s' = { s with
      calls := s.calls.set s.nextId { nodeId := nodeId, requeue := requeue }
      nextId := s.nextId + 1 }) : Inv (⟨s, .call nodeId requeue, s'⟩ :: h) s' := by
  subst hs'
  have hfresh : ∀ {i c}, s.calls.get i = some c → i < s.nextId + 1 := fun hg =>
    Nat.lt_succ_of_lt (hi.id _ _ hg)
  refine ⟨hi.nonneg, fun i c hg => ?_, fun i c hg hr => ?_, fun i c j c' hg hg' hl hl' hnode => ?_,
    fun i c hg => ?_, fun i c hg => ?_, fun u hu i ha => ?_, fun i hr => ?_⟩
  · rcases OrdMap.of_get_set hg with ⟨rfl, rfl⟩ | ⟨-, hg⟩
    · exact ⟨rfl, rfl⟩
    · exact (hi.stands i c hg).cons (fun _ => rfl) (by simp [Action.taker])
  · rcases OrdMap.of_get_set hg with ⟨rfl, rfl⟩ | ⟨-, hg⟩
    · intro u hu ha
      rcases List.mem_cons.1 hu with rfl | hu
      · simp [Action.taker] at ha
      · exact absurd (hi.taker u hu _ ha) (lt_irrefl _)
    · exact (hi.quiet i c hg hr).cons (by simp [Action.taker])
  · rcases OrdMap.of_get_set hg with ⟨-, rfl⟩ | ⟨-, hg⟩
    · simp at hl
    · rcases OrdMap.of_get_set hg' with ⟨-, rfl⟩ | ⟨-, hg'⟩
      · simp at hl'
      · exact hi.exclusive i c j c' hg hg' hl hl' hnode
  · rcases OrdMap.of_get_set hg with ⟨rfl, rfl⟩ | ⟨-, hg⟩
    · exact List.count_eq_zero.2 fun hm => absurd (hi.requeues _ hm) (lt_irrefl _)
    · exact hi.counted i c hg
  · rcases OrdMap.of_get_set hg with ⟨rfl, -⟩ | ⟨-, hg⟩
    · exact Nat.lt_succ_self _
    · exact hfresh hg
  · rcases List.mem_cons.1 hu with rfl | hu
    · simp [Action.taker] at ha
    · exact (hi.taker u hu i ha).trans (Nat.lt_succ_self _)
  · exact (hi.requeues i hr).trans (Nat.lt_succ_self _)

theorem Inv.next (hi : Inv h s) (hg : s.calls.get id = some call)
    (hn : call.next hashtext id s error = some call') (hs' : s' = { s with
      tables := if call.commits error then call.apply s.tables else s.tables
      calls := s.calls.set id call'
      requeues := if call.phase = .requeueing then s.requeues ++ [id] else s.requeues }) :
    Inv (⟨s, .next id error, s'⟩ :: h) s' := by
  have hcalls : s'.calls = s.calls.set id call' := by rw [hs']
  have hrequeues : s'.requeues = if call.phase = .requeueing then s.requeues ++ [id]
      else s.requeues := by rw [hs']
  have hnextId : s'.nextId = s.nextId := by rw [hs']
  have htables : s'.tables = if call.commits error then call.apply s.tables else s.tables := by
    rw [hs']
  obtain ⟨hnode, hreq, hlocks⟩ := next_locks hn
  have hwrites := (hi.stands id call hg).next hi.nonneg hg hn htables
  have hquiet := hi.quiet id call hg fun r hr => absurd hr (next_not_returned hn r)
  -- the row of another call stays as it is: the call that pays has locked its own
  have hrow : ∀ i c, s.calls.get i = some c → i ≠ id → c.rowLock = true →
      s'.tables.rewardPendingAmounts.get c.nodeId
        = s.tables.rewardPendingAmounts.get c.nodeId := by
    intro i c hgi hne hl
    rcases hwrites with ⟨hsame, -⟩ | ⟨n, hh, hpays, -⟩
    · rw [hsame]
    · rw [hpays.updated]
      refine OrdMap.get_set_of_ne _ _ fun he => hne ?_
      exact hi.exclusive i c id call hgi hg hl hh.locked he
  refine ⟨fun nodeId amount hget => ?_, fun i c hget => ?_, fun i c hget hr => ?_,
    fun i c j c' hget hget' hl hl' he => ?_, fun i c hget => ?_, fun i c hget => ?_,
    fun u hu i ha => ?_, fun i hr => ?_⟩
  · rcases hwrites with ⟨hsame, -⟩ | ⟨n, hh, hpays, -⟩
    · exact hi.nonneg nodeId amount (hsame ▸ hget)
    · rw [hpays.updated] at hget
      rcases OrdMap.of_get_set hget with ⟨-, rfl⟩ | ⟨-, hget⟩
      · exact le_refl (0 : ℤ)
      · exact hi.nonneg nodeId amount hget
  · rw [hcalls] at hget
    rcases OrdMap.of_get_set hget with ⟨rfl, rfl⟩ | ⟨hne, hget⟩
    · rcases hwrites with ⟨hsame, hst, -⟩ | ⟨n, hh, hpays, rfl, hph⟩
      · rw [hsame]
        exact hst
      · unfold Stands
        simp only [hph]
        rw [hnode]
        exact .inr ⟨n, rfl, [], _, h, rfl, rfl, hpays, hh.read, hquiet⟩
    · refine (hi.stands i c hget).cons (hrow i c hget hne) fun ha => ?_
      exact absurd (Option.some.inj ha).symm hne
  · rw [hcalls] at hget
    rcases OrdMap.of_get_set hget with ⟨rfl, rfl⟩ | ⟨hne, hget⟩
    · rcases hwrites with ⟨hsame, -, -⟩ | ⟨n, -, -, -, hph⟩
      · exact hquiet.cons fun _ => hsame
      · exact absurd rfl (hr _ hph)
    · exact (hi.quiet i c hget hr).cons fun ha => absurd (Option.some.inj ha).symm hne
  · rw [hcalls] at hget hget'
    rcases OrdMap.of_get_set hget with ⟨rfl, rfl⟩ | ⟨hne, hc⟩ <;>
      rcases OrdMap.of_get_set hget' with ⟨rfl, rfl⟩ | ⟨hne', hc'⟩
    · rfl
    · rw [hnode] at he
      rcases hlocks hl with hl | hfree
      · exact hi.exclusive _ call j c' hg hc' hl hl' he
      · exact absurd he.symm (rowLocked_eq_false hfree hc' hne' hl')
    · rw [hnode] at he
      rcases hlocks hl' with hl' | hfree
      · exact hi.exclusive i c _ call hc hg hl hl' he
      · exact absurd he (rowLocked_eq_false hfree hc hne hl)
    · exact hi.exclusive i c j c' hc hc' hl hl' he
  · rw [hcalls] at hget
    rw [hrequeues]
    rcases OrdMap.of_get_set hget with ⟨rfl, rfl⟩ | ⟨hne, hget⟩
    · exact (hi.counted _ call hg).next hn
    · refine (hi.counted i c hget).of_count_eq ?_
      split_ifs
      · rw [List.count_append, List.count_singleton, if_neg (by simpa using hne.symm), add_zero]
      · rfl
  · rw [hcalls] at hget
    rw [hnextId]
    rcases OrdMap.of_get_set hget with ⟨rfl, -⟩ | ⟨-, hget⟩
    · exact hi.id _ call hg
    · exact hi.id i c hget
  · rw [hnextId]
    rcases List.mem_cons.1 hu with rfl | hu
    · obtain rfl : id = i := Option.some.inj ha
      exact hi.id _ call hg
    · exact hi.taker u hu i ha
  · rw [hnextId]
    rw [hrequeues] at hr
    split_ifs at hr
    · rcases List.mem_append.1 hr with hr | hr
      · exact hi.requeues i hr
      · obtain rfl := List.mem_singleton.1 hr
        exact hi.id _ call hg
    · exact hi.requeues i hr

theorem step_cases (hs : step hashtext s a = some s') :
    (∃ nodeId requeue, a = .call nodeId requeue ∧ s' = { s with
        calls := s.calls.set s.nextId { nodeId := nodeId, requeue := requeue }
        nextId := s.nextId + 1 })
      ∨ ∃ id error call call', a = .next id error ∧ s.calls.get id = some call
        ∧ call.next hashtext id s error = some call' ∧ s' = { s with
          tables := if call.commits error then call.apply s.tables else s.tables
          calls := s.calls.set id call'
          requeues := if call.phase = .requeueing then s.requeues ++ [id] else s.requeues } := by
  rcases a with ⟨nodeId, requeue⟩ | ⟨id, error⟩
  · exact .inl ⟨nodeId, requeue, rfl, (Option.some.inj hs).symm⟩
  · simp only [step] at hs
    rcases hg : s.calls.get id with _ | call <;> simp only [hg, reduceCtorEq] at hs
    rcases hn : call.next hashtext id s error with _ | call' <;>
      simp only [hn, reduceCtorEq] at hs
    exact .inr ⟨id, error, call, call', rfl, hg, hn, (Option.some.inj hs).symm⟩

theorem inv_run (hr : Run (sys hashtext) h s) : Inv h s := by
  induction hr with
  | start hi =>
    obtain ⟨hnonneg, hcalls, hrequeues⟩ := hi
    exact ⟨hnonneg, by simp [hcalls], by simp [hcalls], by simp [hcalls], by simp [hcalls],
      by simp [hcalls], by simp, by simp [hrequeues]⟩
  | next hr hs ih =>
    obtain ⟨nodeId, requeue, rfl, hs'⟩ | ⟨id, error, call, call', rfl, hg, hn, hs'⟩ :=
      step_cases hs
    · exact ih.called nodeId requeue hs'
    · exact ih.next hg hn hs'

theorem worth_step (hi : Inv h s) (hs : step hashtext s a = some s') (nodeId : String) :
    worth nodeId s'.tables = worth nodeId s.tables := by
  obtain ⟨node, requeue, rfl, rfl⟩ | ⟨id, error, call, call', rfl, hg, hn, hs'⟩ := step_cases hs
  · rfl
  · rcases (hi.stands id call hg).next hi.nonneg hg hn (congrArg State.tables hs')
      with ⟨hsame, -⟩ | ⟨n, -, hpays, -⟩
    · rw [hsame]
    · exact hpays.worth nodeId

/-- What a call says is what it did: it paid all that it had read, with one row; or it changed no
row, and a cycle it says it requeued it did requeue, once, if it had been given where to. -/
structure Honest (h : List (Taken State Action)) (s : State) (id : ℕ) (call : Call) : Prop where
  threw : call.phase = .threw → Quiet id h
  distributed : ∀ result, call.phase = .returned result → result.status = .distributed →
    ∃ n : ℕ, result = ⟨call.nodeId, formatUnits n, .distributed⟩ ∧ Paid id call.nodeId n h
  unchanged : ∀ result, call.phase = .returned result → result.status ≠ .distributed → Quiet id h
  requeued : ∀ result, call.phase = .returned result → result.status = .requeued →
    s.requeues.count id = if call.requeue then 1 else 0

theorem Inv.honest (hi : Inv h s) (hg : s.calls.get id = some call) : Honest h s id call where
  threw hph := hi.quiet id call hg (by simp [hph])
  distributed r hph hd := by
    have hst := hi.stands id call hg
    unfold Stands at hst
    simp only [hph] at hst
    exact hst.resolve_left (by simp [hd])
  unchanged r hph hd := by
    refine hi.quiet id call hg fun r' hr' => ?_
    obtain rfl : r = r' := by simpa [hph] using hr'
    exact hd
  requeued r hph hq := by
    have hc := hi.counted id call hg
    unfold Counted at hc
    simpa [hph, hq] using hc

/-- Whatever fails, and however calls interleave: no step changes what a node is worth, no pending
amount is negative, and a call that has ended did what it says. -/
theorem rewards_conserved (hr : Run (sys hashtext) h s) :
    (∀ t ∈ h, ∀ nodeId, worth nodeId t.post.tables = worth nodeId t.pre.tables)
      ∧ (∀ nodeId amount, s.tables.rewardPendingAmounts.get nodeId = some amount → 0 ≤ amount)
      ∧ ∀ id call, s.calls.get id = some call → Honest h s id call := by
  have hi := inv_run hr
  refine ⟨fun t ht nodeId => ?_, hi.nonneg, fun id call hg => hi.honest hg⟩
  obtain ⟨l, e, rfl⟩ := List.append_of_mem ht
  obtain ⟨hre, hs⟩ := hr.split rfl
  exact worth_step (inv_run hre) hs nodeId

/-- A node with twelve and a half pending. -/
def pendingNode : State where
  tables := { rewardPendingAmounts := (∅ : OrdMap String ℤ).set "node" 125000000 }

theorem init_pendingNode (hashtext : String → ℤ) : (sys hashtext).init pendingNode := by
  refine ⟨fun nodeId amount hg => ?_, rfl, rfl⟩
  rcases OrdMap.of_get_set hg with ⟨-, rfl⟩ | ⟨-, hg⟩
  · decide
  · simp at hg

/-- One of two calls distributes; the other waits for its lock until that times out. -/
theorem rewards_conserved_two : ∃ h s, Run (sys fun _ => 0) h s
    ∧ (s.calls.get 0).map (·.phase) = some (.returned ⟨"node", "12.5000000", .distributed⟩)
    ∧ (s.calls.get 1).map (·.phase) = some (.returned (requeued "node"))
    ∧ (∀ t ∈ h, ∀ nodeId, worth nodeId t.post.tables = worth nodeId t.pre.tables)
    ∧ (∀ nodeId amount, s.tables.rewardPendingAmounts.get nodeId = some amount → 0 ≤ amount)
    ∧ ∀ id call, s.calls.get id = some call → Honest h s id call := by
  obtain ⟨h, s, hr, ht⟩ := Sys.exists_run (init_pendingNode fun _ => 0)
    [.call "node" true, .next 0 none, .next 0 none, .next 0 none, .next 0 none,
      .call "node" true, .next 1 none, .next 1 none, .next 1 none,
      .next 1 (some (.error (some "55P03") "canceling statement due to lock timeout")),
      .next 0 none, .next 0 none, .next 0 none, .next 0 none, .next 0 none,
      .next 1 none, .next 1 none, .next 1 none, .next 1 none]
    (p := fun x => decide (
      (x.2.calls.get 0).map (·.phase) = some (.returned ⟨"node", "12.5000000", .distributed⟩)
        ∧ (x.2.calls.get 1).map (·.phase) = some (.returned (requeued "node"))))
    (by decide +kernel)
  obtain ⟨h0, h1⟩ := of_decide_eq_true ht
  exact ⟨h, s, hr, h0, h1, rewards_conserved hr⟩

/-- A distributor that was given no queue says it has requeued the cycle all the same. -/
theorem requeued_nowhere : ∃ h s call, Run (sys fun _ => 0) h s ∧ s.calls.get 0 = some call
    ∧ call.phase = .returned (requeued "node") ∧ s.requeues.count 0 = 0 := by
  obtain ⟨h, s, hr, ht⟩ := Sys.exists_run (init_pendingNode fun _ => 0)
    [.call "node" false, .next 0 none, .next 0 none, .next 0 none,
      .next 0 (some (.error (some "55P03") "canceling statement due to lock timeout")),
      .next 0 none, .next 0 none, .next 0 none]
    (p := fun x => decide ((x.2.calls.get 0).map (·.phase) = some (.returned (requeued "node"))
      ∧ x.2.requeues.count 0 = 0)) (by decide +kernel)
  obtain ⟨hph, hc⟩ := of_decide_eq_true ht
  obtain ⟨call, hg, hph⟩ := Option.map_eq_some_iff.1 hph
  exact ⟨h, s, call, hr, hg, hph, hc⟩

end Conservation

end Rewards

end VeriNode
