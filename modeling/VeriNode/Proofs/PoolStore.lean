import VeriNode.Staking.PoolStore
import VeriNode.Proofs.MemoryPool
import VeriNode.Proofs.PgPool

/-!
# When the bond pool stores agree

A call that is alone takes its steps one after the other, so what each store does with it is said
in one equation per call (`Memory.call_stake`, `Pg.call_stake`, …). From tables that hold the same
pools and stakes (`Same`) a call then leads both stores to the same reply and to such tables again,
if it `Meets` what the two have in common: `PgBondPoolStore` does not compare a first stake with
the limit, looks for the stake before the pool, keeps `BIGINT`s and reports the sum of the stakes,
and `InMemoryBondPoolStore` joins the ids of its keys.
-/

namespace VeriNode

namespace PoolStore

section Memory

variable {m : ℤ} {d : MemoryPool.Tables} {p v : String} {n : ℤ}

/-- What the body of a call comes to. -/
def Memory.outcome (d : MemoryPool.Tables) :
    Except PoolError (BondPool × MemoryPool.Tables) → Reply × MemoryPool.Tables
  | .error e => (.threw e, d)
  | .ok (pool, d') => (.pool (some pool), d')

theorem Memory.locked_of_body {op : MemoryPool.Op}
    {result : Except PoolError (BondPool × MemoryPool.Tables)}
    (hb : ∀ (call : MemoryPool.Call) (s : MemoryPool.State), call.op = op → s.tables = d →
      MemoryPool.body m 0 call s = s.settle 0 call result) :
    Memory.locked m op d = some (Memory.outcome d result) := by
  unfold Memory.locked
  rcases result with e | ⟨pool, d'⟩
  · simp [Memory.settle, MemoryPool.step, MemoryPool.withPoolLock, MemoryPool.resolved, hb,
      MemoryPool.State.settle, MemoryPool.release, Memory.reply, Memory.outcome]
  · simp [Memory.settle, MemoryPool.step, MemoryPool.withPoolLock, MemoryPool.resolved, hb,
      MemoryPool.State.settle, MemoryPool.release, Memory.reply, Memory.outcome]

theorem Memory.call_stake : Memory.call m (.stake p v n) d
    = some (Memory.outcome d (MemoryPool.stake m p v n d)) :=
  Memory.locked_of_body fun call s hop hd => by simp [MemoryPool.body, hop, hd]

theorem Memory.call_unstake : Memory.call m (.unstake p v n) d
    = some (Memory.outcome d (MemoryPool.unstake p v n d)) :=
  Memory.locked_of_body fun call s hop hd => by simp [MemoryPool.body, hop, hd]

theorem Memory.call_reconcilePool : Memory.call m (.reconcilePool p) d
    = some (Memory.outcome d ((MemoryPool.requirePool p d).map fun pool =>
        MemoryPool.writeBalance p (MemoryPool.sumValidatorStakes p d.stakes) pool d)) := by
  unfold Memory.call Memory.locked
  rcases h : d.pools.get p with _ | pool
  · simp [Memory.settle, MemoryPool.step, MemoryPool.withPoolLock, MemoryPool.resolved, h,
      MemoryPool.requirePool, Except.map,
      MemoryPool.body, MemoryPool.State.settle, MemoryPool.release, Memory.reply, Memory.outcome]
  · simp [Memory.settle, MemoryPool.step, MemoryPool.withPoolLock, MemoryPool.resolved, h,
      MemoryPool.requirePool, Except.map, MemoryPool.Op.poolId, MemoryPool.writeBalance,
      MemoryPool.body, MemoryPool.State.settle, MemoryPool.release, Memory.reply, Memory.outcome]

end Memory

section Pg

open PgPool (PoolRow Tx Op storable bigint)

variable {m : ℤ} {d : PgPool.Tables} {p v : String} {n : ℤ} {tx : Tx} {k : ℕ}

/-- The one transaction there is. -/
def Pg.alone (d : PgPool.Tables) (tx : Tx) : PgPool.State :=
  { tables := d, txs := (∅ : OrdMap ℕ Tx).set 0 tx, nextId := 1 }

def Pg.ended (d : PgPool.Tables) (answer : PgPool.Answer) : PgPool.State :=
  { tables := d, txs := ∅, answers := (∅ : OrdMap ℕ PgPool.Answer).set 0 answer, nextId := 1 }

theorem Pg.alone_goOn (tx' : Tx) : (Pg.alone d tx).goOn 0 tx' = Pg.alone d tx' := rfl

theorem Pg.alone_finish (answer : PgPool.Answer) :
    (Pg.alone d tx).finish 0 answer = Pg.ended d answer := rfl

theorem Pg.alone_tables : (Pg.alone d tx).tables = d := rfl

theorem Pg.stakeLocked_alone (op : Op) : PgPool.stakeLocked (Pg.alone d tx) 0 op = false := rfl

theorem Pg.poolLocked_alone (op : Op) : PgPool.poolLocked (Pg.alone d tx) 0 op = false := rfl

theorem Pg.settle_alone : Pg.settle m (k + 1) (Pg.alone d tx)
    = match PgPool.next m 0 tx (Pg.alone d tx) with
      | none => Pg.alone d tx
      | some s' => Pg.settle m k s' := rfl

theorem Pg.settle_ended {answer : PgPool.Answer} :
    Pg.settle m k (Pg.ended d answer) = Pg.ended d answer := by
  cases k <;> rfl

variable {row : PoolRow} {a : ℤ}

theorem Pg.transaction_ended {action : PgPool.Action} {d' : PgPool.Tables} (tx : Tx)
    (answer : PgPool.Answer) (hs : PgPool.step m { tables := d } action = some (Pg.alone d tx))
    (he : Pg.settle m 20 (Pg.alone d tx) = Pg.ended d' answer) :
    Pg.transaction m action d = some (Pg.reply answer, d') := by
  simp [Pg.transaction, hs, he, Pg.ended]

/-- The pool is there, with enough balance: it is read, updated and committed. -/
theorem Pg.settle_reading (hph : tx.phase = .reading 0) (hr : ∀ q, tx.op ≠ .reconcile q)
    (hrow : d.bondPools.get tx.op.poolId = some row)
    (hn : ∀ q u x, tx.op = .unstake q u x → x ≤ row.balance)
    (hb : storable (row.balance + tx.op.delta) = true) (hv : bigint (row.version + 1) = true) :
    Pg.settle m (k + 4) (Pg.alone d tx)
      = Pg.ended (d.apply { tx with
          phase := .committing
          poolWrite := some ⟨row.balance + tx.op.delta, row.version + 1⟩ })
        (.pool ⟨tx.op.poolId, row.balance + tx.op.delta, row.version + 1⟩) := by
  obtain ⟨op, phase, stakeWrite, poolWrite⟩ := tx
  simp only at hph hr hrow hn hb
  subst hph
  have hmatch : op.matches row.version row = true := by
    rcases op with _ | ⟨q, u, x⟩ | q
    · simp [Op.matches]
    · simp [Op.matches, hn q u x rfl]
    · exact absurd rfl (hr q)
  have hread : PgPool.readPool 0 ⟨op, .reading 0, stakeWrite, poolWrite⟩ 0
      (Pg.alone d ⟨op, .reading 0, stakeWrite, poolWrite⟩)
      = Pg.alone d ⟨op, .updating 0 row.version, stakeWrite, poolWrite⟩ := by
    rcases op with _ | ⟨q, u, x⟩ | q
    · simp [PgPool.readPool, PgPool.maxOptimisticAttempts, Pg.alone_tables, hrow, Pg.alone_goOn]
    · have hx := hn q u x rfl
      simp [PgPool.readPool, PgPool.maxOptimisticAttempts, Pg.alone_tables, hrow, Pg.alone_goOn,
        not_lt.2 hx]
    · exact absurd rfl (hr q)
  have hmove : PgPool.movePool 0 ⟨op, .waiting 0 row.version, stakeWrite, poolWrite⟩ 0 row.version
      (Pg.alone d ⟨op, .waiting 0 row.version, stakeWrite, poolWrite⟩)
      = Pg.alone d ⟨op, .committing, stakeWrite,
        some ⟨row.balance + op.delta, row.version + 1⟩⟩ := by
    simp [PgPool.movePool, PgPool.writePool, Pg.alone_tables, hrow, hmatch, hb, hv, Pg.alone_goOn]
  have hcommit : PgPool.commit 0 ⟨op, .committing, stakeWrite,
        some ⟨row.balance + op.delta, row.version + 1⟩⟩
      (Pg.alone d ⟨op, .committing, stakeWrite, some ⟨row.balance + op.delta, row.version + 1⟩⟩)
      = Pg.ended (d.apply ⟨op, .committing, stakeWrite,
          some ⟨row.balance + op.delta, row.version + 1⟩⟩)
        (.pool ⟨op.poolId, row.balance + op.delta, row.version + 1⟩) := rfl
  simpa [Pg.settle_alone, PgPool.next, hread, hmove, hcommit, Pg.alone_tables, hrow, hmatch,
    Pg.alone_goOn, Pg.poolLocked_alone] using Pg.settle_ended

theorem Pg.call_stake_missing (hp : d.bondPools.get p = none) :
    Pg.call m (.stake p v n) d = some (.threw (.poolNotFound p), d) := by
  unfold Pg.call
  refine Pg.transaction_ended ⟨.stake p v n, .checking, none, none⟩ (.threw (.poolNotFound p)) rfl ?_
  simpa [Pg.settle_alone, PgPool.next, Pg.alone_tables, OrdMap.has, hp, Pg.alone_finish]
    using Pg.settle_ended

theorem Pg.call_stake_limit (hp : d.bondPools.get p = some row) (hm : bigint m = true)
    (hn : storable n = true) (hs : d.validatorStakes.get (p, v) = some a)
    (ha : storable (a + n) = true) (hl : m < a + n) :
    Pg.call m (.stake p v n) d = some (.threw (.validatorStakeLimit v p m), d) := by
  unfold Pg.call
  refine Pg.transaction_ended ⟨.stake p v n, .checking, none, none⟩
    (.threw (.validatorStakeLimit v p m)) rfl ?_
  simpa [Pg.settle_alone, PgPool.next, Pg.alone_tables, OrdMap.has, hp, Pg.alone_finish,
    Pg.alone_goOn, Pg.stakeLocked_alone, PgPool.insertStake, hn, hm, hs, ha, not_le.2 hl]
    using Pg.settle_ended

theorem Pg.call_stake (hp : d.bondPools.get p = some row) (hm : bigint m = true)
    (hn : storable n = true) (ha : storable ((d.validatorStakes.get (p, v)).getD 0 + n) = true)
    (hl : ∀ a, d.validatorStakes.get (p, v) = some a → a + n ≤ m)
    (hb : storable (row.balance + n) = true) (hv : bigint (row.version + 1) = true) :
    Pg.call m (.stake p v n) d = some (.pool (some ⟨p, row.balance + n, row.version + 1⟩),
      { bondPools := d.bondPools.set p ⟨row.balance + n, row.version + 1⟩
        validatorStakes := d.validatorStakes.set (p, v)
          ((d.validatorStakes.get (p, v)).getD 0 + n) }) := by
  unfold Pg.call
  refine Pg.transaction_ended ⟨.stake p v n, .checking, none, none⟩
    (.pool ⟨p, row.balance + n, row.version + 1⟩) rfl ?_
  have hins : PgPool.insertStake m 0 ⟨.stake p v n, .inserting, none, none⟩ p v n
      (Pg.alone d ⟨.stake p v n, .inserting, none, none⟩)
      = Pg.alone d ⟨.stake p v n, .reading 0,
        some (some ((d.validatorStakes.get (p, v)).getD 0 + n)), none⟩ := by
    rcases hs : d.validatorStakes.get (p, v) with _ | a
    · simp [PgPool.insertStake, Pg.alone_tables, hn, hm, hs, Pg.alone_goOn]
    · rw [hs, Option.getD_some] at ha
      simp [PgPool.insertStake, Pg.alone_tables, hn, hm, hs, ha, hl a hs, Pg.alone_goOn]
  rw [Pg.settle_alone]
  simp only [PgPool.next, Pg.alone_tables, OrdMap.has, hp, Option.isSome_some, ↓reduceIte,
    Pg.alone_goOn]
  rw [Pg.settle_alone]
  simp only [PgPool.next, Pg.stakeLocked_alone, Bool.false_eq_true, ↓reduceIte, hins]
  exact Pg.settle_reading rfl (by simp) hp (by simp) hb hv

theorem Pg.call_unstake_short (hs : ∀ a, d.validatorStakes.get (p, v) = some a → a < n) :
    Pg.call m (.unstake p v n) d = some (.threw (.insufficientStake v p), d) := by
  unfold Pg.call
  refine Pg.transaction_ended ⟨.unstake p v n, .selecting, none, none⟩
    (.threw (.insufficientStake v p)) rfl ?_
  rcases ha : d.validatorStakes.get (p, v) with _ | a
  · simpa [Pg.settle_alone, PgPool.next, Pg.alone_tables, OrdMap.has, ha, Pg.alone_finish]
      using Pg.settle_ended
  · simpa [Pg.settle_alone, PgPool.next, Pg.alone_tables, OrdMap.has, ha, Pg.alone_finish,
      Pg.alone_goOn, Pg.stakeLocked_alone, PgPool.takeStake, hs a ha] using Pg.settle_ended

theorem Pg.settle_selecting (hs : d.validatorStakes.get (p, v) = some a) (hn : n ≤ a)
    (ha : storable (a - n) = true) :
    Pg.settle m (k + 2) (Pg.alone d ⟨.unstake p v n, .selecting, none, none⟩)
      = Pg.settle m k (Pg.alone d ⟨.unstake p v n, .reading 0,
        some (if a - n = 0 then none else some (a - n)), none⟩) := by
  rw [Pg.settle_alone]
  simp only [PgPool.next, Pg.alone_tables, OrdMap.has, hs, Option.isSome_some, ↓reduceIte,
    Pg.alone_goOn]
  rw [Pg.settle_alone]
  simp only [PgPool.next, Pg.stakeLocked_alone, Bool.false_eq_true, ↓reduceIte, PgPool.takeStake,
    Pg.alone_tables, hs, not_lt.2 hn, ha, Pg.alone_goOn]

theorem Pg.call_unstake_balance (hs : d.validatorStakes.get (p, v) = some a) (hn : n ≤ a)
    (ha : storable (a - n) = true) (hp : d.bondPools.get p = some row) (hb : row.balance < n) :
    Pg.call m (.unstake p v n) d = some (.threw (.insufficientPoolBalance p), d) := by
  unfold Pg.call
  refine Pg.transaction_ended ⟨.unstake p v n, .selecting, none, none⟩
    (.threw (.insufficientPoolBalance p)) rfl ?_
  rw [Pg.settle_selecting hs hn ha, Pg.settle_alone]
  simpa [PgPool.next, PgPool.readPool, PgPool.maxOptimisticAttempts, Pg.alone_tables, Op.poolId,
    hp, hb, Pg.alone_finish] using Pg.settle_ended

theorem Pg.call_unstake (hs : d.validatorStakes.get (p, v) = some a) (hn : n ≤ a)
    (ha : storable (a - n) = true) (hp : d.bondPools.get p = some row) (hb : n ≤ row.balance)
    (hb' : storable (row.balance - n) = true) (hv : bigint (row.version + 1) = true) :
    Pg.call m (.unstake p v n) d = some (.pool (some ⟨p, row.balance - n, row.version + 1⟩),
      { bondPools := d.bondPools.set p ⟨row.balance - n, row.version + 1⟩
        validatorStakes :=
          if a - n = 0 then d.validatorStakes.delete (p, v)
          else d.validatorStakes.set (p, v) (a - n) }) := by
  unfold Pg.call
  refine Pg.transaction_ended ⟨.unstake p v n, .selecting, none, none⟩
    (.pool ⟨p, row.balance - n, row.version + 1⟩) rfl ?_
  have hd : storable (row.balance + (Op.unstake p v n).delta) = true := by
    simpa [Op.delta, ← sub_eq_add_neg] using hb'
  rw [Pg.settle_selecting hs hn ha]
  refine (Pg.settle_reading rfl (by simp) hp (fun q u x hop => ?_) hd hv).trans ?_
  · obtain ⟨-, -, rfl⟩ := Op.unstake.inj hop
    exact hb
  simp only [PgPool.Tables.apply, Op.stakeKey, Op.delta, Op.poolId, ← sub_eq_add_neg]
  split_ifs <;> rfl

theorem Pg.call_reconcilePool_missing (hp : d.bondPools.get p = none) :
    Pg.call m (.reconcilePool p) d = some (.threw (.poolNotFound p), d) := by
  unfold Pg.call
  refine Pg.transaction_ended ⟨.reconcile p, .summing, none, none⟩ (.threw (.poolNotFound p)) rfl ?_
  simpa [Pg.settle_alone, PgPool.next, Pg.alone_tables, OrdMap.has, hp, Pg.alone_finish]
    using Pg.settle_ended

theorem Pg.call_reconcilePool (hp : d.bondPools.get p = some row)
    (hb : storable (PgPool.sumValidatorStakes p d.validatorStakes) = true)
    (hv : bigint (row.version + 1) = true) :
    Pg.call m (.reconcilePool p) d
      = some (.pool (some ⟨p, PgPool.sumValidatorStakes p d.validatorStakes, row.version + 1⟩),
        { bondPools := d.bondPools.set p
            ⟨PgPool.sumValidatorStakes p d.validatorStakes, row.version + 1⟩
          validatorStakes := d.validatorStakes }) := by
  unfold Pg.call
  refine Pg.transaction_ended ⟨.reconcile p, .summing, none, none⟩
    (.pool ⟨p, PgPool.sumValidatorStakes p d.validatorStakes, row.version + 1⟩) rfl ?_
  have hcommit : PgPool.commit 0 ⟨.reconcile p, .committing, none,
        some ⟨PgPool.sumValidatorStakes p d.validatorStakes, row.version + 1⟩⟩
      (Pg.alone d ⟨.reconcile p, .committing, none,
        some ⟨PgPool.sumValidatorStakes p d.validatorStakes, row.version + 1⟩⟩)
      = Pg.ended
        { bondPools := d.bondPools.set p
            ⟨PgPool.sumValidatorStakes p d.validatorStakes, row.version + 1⟩
          validatorStakes := d.validatorStakes }
        (.pool ⟨p, PgPool.sumValidatorStakes p d.validatorStakes, row.version + 1⟩) := rfl
  simpa [Pg.settle_alone, PgPool.next, Pg.alone_tables, OrdMap.has, hp, Pg.alone_goOn, Op.poolId,
    Pg.poolLocked_alone, PgPool.writeTotal, PgPool.writePool, hb, hv, hcommit] using Pg.settle_ended

end Pg

section Same

open PgPool (storable bigint)
open MemoryPool (stakeKey)

/-- The tables hold the same pools and stakes, and the columns what they can. -/
structure Same (pg : PgPool.Tables) (mem : MemoryPool.Tables) : Prop where
  pools : ∀ p, mem.pools.get p
    = (pg.bondPools.get p).map fun row => ⟨p, row.balance, row.version⟩
  stakes : ∀ p v a, pg.validatorStakes.get (p, v) = some a
    ↔ mem.stakes.get (stakeKey p v) = some ⟨p, v, a⟩
  sums : ∀ p, PgPool.sumValidatorStakes p pg.validatorStakes
    = MemoryPool.sumValidatorStakes p mem.stakes
  storedPools : ∀ p row, pg.bondPools.get p = some row →
    storable row.balance = true ∧ bigint row.version = true
  storedStakes : ∀ key a, pg.validatorStakes.get key = some a → storable a = true

/-- What is kept under the key of the pool and the validator is theirs. -/
def Owns (mem : MemoryPool.Tables) (p v : String) : Prop :=
  ∀ stake, mem.stakes.get (stakeKey p v) = some stake → stake.poolId = p ∧ stake.validatorId = v

variable {m : ℤ} {pg : PgPool.Tables} {mem : MemoryPool.Tables} {p v : String} {n a : ℤ}

theorem Same.stake_at (hs : Same pg mem) (ho : Owns mem p v) : mem.stakes.get (stakeKey p v)
    = (pg.validatorStakes.get (p, v)).map fun a => ⟨p, v, a⟩ := by
  rcases hst : mem.stakes.get (stakeKey p v) with _ | ⟨p', v', a⟩
  · rcases hpg : pg.validatorStakes.get (p, v) with _ | a
    · rfl
    · rw [(hs.stakes p v a).1 hpg] at hst
      simp at hst
  · obtain ⟨rfl, rfl⟩ := ho _ hst
    rw [(hs.stakes _ _ a).2 hst]
    rfl

theorem Same.held (hs : Same pg mem) (ho : Owns mem p v) :
    ((mem.stakes.get (stakeKey p v)).map (·.amount)).getD 0
      = (pg.validatorStakes.get (p, v)).getD 0 := by
  rw [hs.stake_at ho]
  rcases pg.validatorStakes.get (p, v) with _ | a <;> rfl

theorem Same.held_nonneg (hs : Same pg mem) (p v : String) :
    0 ≤ (pg.validatorStakes.get (p, v)).getD 0 := by
  rcases hpg : pg.validatorStakes.get (p, v) with _ | a
  · exact le_rfl
  · have ha := hs.storedStakes _ a hpg
    simp only [storable, Bool.decide_and, Bool.and_eq_true, decide_eq_true_eq] at ha
    exact ha.1

theorem Same.set_pool (hs : Same pg mem) {balance version : ℤ} (hb : storable balance = true)
    (hv : bigint version = true) :
    Same { pg with bondPools := pg.bondPools.set p ⟨balance, version⟩ }
      { mem with pools := mem.pools.set p ⟨p, balance, version⟩ } where
  pools q := by
    rw [OrdMap.get_set, OrdMap.get_set]
    split_ifs with hq
    · rw [hq]
      rfl
    · exact hs.pools q
  stakes := hs.stakes
  sums := hs.sums
  storedPools q row hq := by
    rcases OrdMap.of_get_set hq with ⟨-, rfl⟩ | ⟨-, hq⟩
    · exact ⟨hb, hv⟩
    · exact hs.storedPools q row hq
  storedStakes := hs.storedStakes

theorem Same.other (hs : Same pg mem) (ho : Owns mem p v) {p' v' : String}
    (hne : (p', v') ≠ (p, v)) (hk : stakeKey p' v' = stakeKey p v) (a : ℤ) :
    pg.validatorStakes.get (p', v') ≠ some a := by
  intro hpg
  have hst := (hs.stakes p' v' a).1 hpg
  rw [hk] at hst
  obtain ⟨hp, hv⟩ := ho _ hst
  exact hne (by rw [← hp, ← hv])

theorem Same.set_stake (hs : Same pg mem) (ho : Owns mem p v) (ha : storable a = true) :
    Same { pg with validatorStakes := pg.validatorStakes.set (p, v) a }
      { mem with stakes := mem.stakes.set (stakeKey p v) ⟨p, v, a⟩ } where
  pools := hs.pools
  stakes p' v' a' := by
    simp only []
    rw [OrdMap.get_set, OrdMap.get_set]
    by_cases hne : (p', v') = (p, v)
    · obtain ⟨rfl, rfl⟩ := Prod.mk.inj hne
      simp
    · rw [if_neg hne]
      split_ifs with hk
      · have hpv : ¬ (p = p' ∧ v = v') := fun h => hne (by rw [h.1, h.2])
        have hno := hs.other ho hne hk a'
        simpa [hno] using fun h h' => absurd ⟨h, h'⟩ hpv
      · exact hs.stakes p' v' a'
  sums p' := by
    simp only []
    rw [PgPool.sum_set, MemoryPool.sum_set_stake (fun stake h => (ho stake h).1), hs.sums,
      hs.held ho]
  storedPools := hs.storedPools
  storedStakes key a' hkey := by
    rcases OrdMap.of_get_set hkey with ⟨-, rfl⟩ | ⟨-, hkey⟩
    · exact ha
    · exact hs.storedStakes key a' hkey

theorem Same.delete_stake (hs : Same pg mem) (ho : Owns mem p v) :
    Same { pg with validatorStakes := pg.validatorStakes.delete (p, v) }
      { mem with stakes := mem.stakes.delete (stakeKey p v) } where
  pools := hs.pools
  stakes p' v' a' := by
    simp only []
    rw [OrdMap.get_delete, OrdMap.get_delete]
    by_cases hne : (p', v') = (p, v)
    · obtain ⟨rfl, rfl⟩ := Prod.mk.inj hne
      simp
    · rw [if_neg hne]
      split_ifs with hk
      · simpa using hs.other ho hne hk a'
      · exact hs.stakes p' v' a'
  sums p' := by
    simp only []
    rw [PgPool.sum_delete, MemoryPool.sum_delete_stake (fun stake h => (ho stake h).1), hs.sums,
      hs.held ho]
  storedPools := hs.storedPools
  storedStakes key a' hkey := hs.storedStakes key a' (OrdMap.of_get_delete hkey).2

end Same

section Agreement

open PgPool (PoolRow storable bigint)
open MemoryPool (stakeKey)

/-- What a `stake` of a pool that is there asks for. -/
structure MeetsStake (m : ℤ) (pg : PgPool.Tables) (p v : String) (n : ℤ) (row : PoolRow) :
    Prop where
  limit : bigint m = true
  first : pg.validatorStakes.get (p, v) = none → n ≤ m
  sum : storable ((pg.validatorStakes.get (p, v)).getD 0 + n) = true
  pool : (pg.validatorStakes.get (p, v)).getD 0 + n ≤ m →
    storable (row.balance + n) = true ∧ bigint (row.version + 1) = true

/-- The call keeps to what the stores have in common. -/
def Meets (m : ℤ) (pg : PgPool.Tables) (mem : MemoryPool.Tables) : Call → Prop
  | .getPool p => ∀ row, pg.bondPools.get p = some row →
    row.balance = PgPool.sumValidatorStakes p pg.validatorStakes
  | .getValidatorStake p v => Owns mem p v
  | .stake p v n => Owns mem p v ∧ ∀ row, pg.bondPools.get p = some row → MeetsStake m pg p v n row
  | .unstake p v n => Owns mem p v ∧ ∃ row, pg.bondPools.get p = some row
    ∧ ∀ a, pg.validatorStakes.get (p, v) = some a → n ≤ a → n ≤ row.balance →
      bigint (row.version + 1) = true
  | .sumValidatorStakes _ => True
  | .reconcilePool p => ∀ row, pg.bondPools.get p = some row →
    storable (PgPool.sumValidatorStakes p pg.validatorStakes) = true
      ∧ bigint (row.version + 1) = true

/-- The stores reply the same, and hold the same afterwards. -/
def Agree (m : ℤ) (pg : PgPool.Tables) (mem : MemoryPool.Tables) (c : Call) : Prop :=
  ∃ reply pg' mem', Pg.call m c pg = some (reply, pg') ∧ Memory.call m c mem = some (reply, mem')
    ∧ Same pg' mem'

variable {m : ℤ} {pg : PgPool.Tables} {mem : MemoryPool.Tables} {p v : String} {n : ℤ}

theorem storable_iff {x : ℤ} : storable x = true ↔ 0 ≤ x ∧ x < 2 ^ 63 := by
  simp [storable]

theorem Same.no_pool (hs : Same pg mem) (hp : pg.bondPools.get p = none) :
    mem.pools.get p = none := by rw [hs.pools, hp, Option.map_none]

theorem Same.pool {row : PoolRow} (hs : Same pg mem) (hp : pg.bondPools.get p = some row) :
    mem.pools.get p = some ⟨p, row.balance, row.version⟩ := by
  rw [hs.pools, hp, Option.map_some]

theorem Same.agree_stake (hs : Same pg mem) (hn : 0 < n) (hm : Meets m pg mem (.stake p v n)) :
    Agree m pg mem (.stake p v n) := by
  obtain ⟨ho, hm⟩ := hm
  rcases hp : pg.bondPools.get p with _ | row
  · refine ⟨_, _, _, Pg.call_stake_missing hp, ?_, hs⟩
    rw [Memory.call_stake, MemoryPool.stake_missing (hs.no_pool hp)]
    rfl
  · have hrow := hm row hp
    have hpos := hs.held_nonneg p v
    have hsum := storable_iff.1 hrow.sum
    have hstn : storable n = true := storable_iff.2 ⟨by omega, by omega⟩
    by_cases hl : (pg.validatorStakes.get (p, v)).getD 0 + n ≤ m
    · obtain ⟨hb, hv⟩ := hrow.pool hl
      have hle : ∀ a, pg.validatorStakes.get (p, v) = some a → a + n ≤ m := by
        intro a ha
        rwa [ha, Option.getD_some] at hl
      refine ⟨_, _, _, Pg.call_stake hp hrow.limit hstn hrow.sum hle hb hv, ?_,
        (hs.set_stake ho hrow.sum).set_pool (p := p) hb hv⟩
      rw [Memory.call_stake, MemoryPool.stake_ok (hs.pool hp) (by rwa [hs.held ho]), hs.held ho]
      rfl
    · rcases hst : pg.validatorStakes.get (p, v) with _ | a
      · rw [hst, Option.getD_none] at hl
        exact absurd (hrow.first hst) (by omega)
      · have hsum' := hrow.sum
        rw [hst, Option.getD_some] at hl hsum'
        refine ⟨_, _, _, Pg.call_stake_limit hp hrow.limit hstn hst hsum' (by omega), ?_, hs⟩
        rw [Memory.call_stake, MemoryPool.stake_limit (hs.pool hp)
          (by rw [hs.held ho, hst, Option.getD_some]; omega)]
        rfl

theorem Same.agree_unstake (hs : Same pg mem) (hn : 0 < n)
    (hm : Meets m pg mem (.unstake p v n)) : Agree m pg mem (.unstake p v n) := by
  obtain ⟨ho, row, hp, hv⟩ := hm
  have hat := hs.stake_at ho
  by_cases hshort : ∀ a, pg.validatorStakes.get (p, v) = some a → a < n
  · refine ⟨_, _, _, Pg.call_unstake_short hshort, ?_, hs⟩
    rw [Memory.call_unstake, MemoryPool.unstake_short (hs.pool hp)]
    · rfl
    · intro stake hst
      obtain ⟨a, ha, rfl⟩ := Option.map_eq_some_iff.1 (hat.symm.trans hst)
      exact hshort a ha
  · simp only [not_forall, not_lt] at hshort
    obtain ⟨a, ha, hle⟩ := hshort
    have hmem : mem.stakes.get (stakeKey p v) = some ⟨p, v, a⟩ := by rw [hat, ha, Option.map_some]
    have hbound := storable_iff.1 (hs.storedStakes _ a ha)
    have hrest : storable (a - n) = true := storable_iff.2 ⟨by omega, by omega⟩
    by_cases hb : n ≤ row.balance
    · have hpool := storable_iff.1 (hs.storedPools p row hp).1
      have hb' : storable (row.balance - n) = true := storable_iff.2 ⟨by omega, by omega⟩
      have hv' := hv a ha hle hb
      have hcall : Memory.call m (.unstake p v n) mem
          = some (.pool (some ⟨p, row.balance - n, row.version + 1⟩),
            { pools := mem.pools.set p ⟨p, row.balance - n, row.version + 1⟩
              stakes :=
                if a - n = 0 then mem.stakes.delete (stakeKey p v)
                else mem.stakes.set (stakeKey p v) ⟨p, v, a - n⟩ }) := by
        rw [Memory.call_unstake, MemoryPool.unstake_ok (hs.pool hp) hmem hle hb]
        rfl
      refine ⟨_, _, _, Pg.call_unstake ha hle hrest hp hb hb' hv', hcall, ?_⟩
      split_ifs
      · exact (hs.delete_stake ho).set_pool hb' hv'
      · exact (hs.set_stake ho hrest).set_pool hb' hv'
    · refine ⟨_, _, _, Pg.call_unstake_balance ha hle hrest hp (by omega), ?_, hs⟩
      rw [Memory.call_unstake, MemoryPool.unstake_balance (hs.pool hp) hmem hle (not_le.1 hb)]
      rfl

theorem Same.agree_reconcilePool (hs : Same pg mem) (hm : Meets m pg mem (.reconcilePool p)) :
    Agree m pg mem (.reconcilePool p) := by
  rcases hp : pg.bondPools.get p with _ | row
  · refine ⟨_, _, _, Pg.call_reconcilePool_missing hp, ?_, hs⟩
    rw [Memory.call_reconcilePool, MemoryPool.requirePool_missing (hs.no_pool hp)]
    rfl
  · obtain ⟨hb, hv⟩ := hm row hp
    refine ⟨_, _, _, Pg.call_reconcilePool hp hb hv, ?_, hs.set_pool (p := p) hb hv⟩
    rw [Memory.call_reconcilePool, MemoryPool.requirePool_ok (hs.pool hp), hs.sums]
    rfl

theorem Same.agree (hs : Same pg mem) {c : Call} (hc : c.positive) (hm : Meets m pg mem c) :
    Agree m pg mem c := by
  rcases c with p | ⟨p, v⟩ | ⟨p, v, n⟩ | ⟨p, v, n⟩ | p | p
  · refine ⟨_, pg, mem, rfl, ?_, hs⟩
    rcases hp : pg.bondPools.get p with _ | row
    · simp [Memory.call, Pg.getPool, hp, hs.no_pool hp]
    · simp [Memory.call, Pg.getPool, hp, hs.pool hp, hm row hp]
  · refine ⟨_, pg, mem, rfl, ?_, hs⟩
    simp only [Memory.call, MemoryPool.getValidatorStake, hs.stake_at hm, Pg.getValidatorStake]
  · exact hs.agree_stake hc hm
  · exact hs.agree_unstake hc hm
  · exact ⟨_, pg, mem, rfl, by rw [Memory.call, hs.sums], hs⟩
  · exact hs.agree_reconcilePool hm

/-- Equal states with no stakes: the pools may have any balance and version a row can. -/
structure EmptyStakes (pg : PgPool.Tables) (mem : MemoryPool.Tables) : Prop where
  pools : ∀ p, mem.pools.get p
    = (pg.bondPools.get p).map fun row => ⟨p, row.balance, row.version⟩
  pgStakes : pg.validatorStakes = ∅
  memStakes : mem.stakes = ∅
  stored : ∀ p row, pg.bondPools.get p = some row →
    storable row.balance = true ∧ bigint row.version = true

theorem EmptyStakes.same (he : EmptyStakes pg mem) : Same pg mem where
  pools := he.pools
  stakes p v a := by simp [he.pgStakes, he.memStakes]
  sums p := by
    rw [he.pgStakes, he.memStakes]
    rfl
  storedPools := he.stored
  storedStakes key a h := by simp [he.pgStakes] at h

/-- The tables of both stores after a call. -/
def after (m : ℤ) (pg : PgPool.Tables) (mem : MemoryPool.Tables) (c : Call) :
    Option (PgPool.Tables × MemoryPool.Tables) :=
  (Pg.call m c pg).bind fun r => (Memory.call m c mem).map fun r' => (r.2, r'.2)

/-- Every call meets the condition on the tables it finds. -/
def MeetsAll (m : ℤ) : PgPool.Tables → MemoryPool.Tables → List Call → Prop
  | _, _, [] => True
  | pg, mem, c :: cs =>
    Meets m pg mem c ∧ ∀ d, after m pg mem c = some d → MeetsAll m d.1 d.2 cs

end Agreement

section Instances

instance (mem : MemoryPool.Tables) (p v : String) : Decidable (Owns mem p v) :=
  inferInstanceAs (Decidable (∀ stake ∈ mem.stakes.get (MemoryPool.stakeKey p v),
    stake.poolId = p ∧ stake.validatorId = v))

instance (m : ℤ) (pg : PgPool.Tables) (p v : String) (n : ℤ) (row : PgPool.PoolRow) :
    Decidable (MeetsStake m pg p v n row) :=
  decidable_of_iff (PgPool.bigint m = true ∧ (pg.validatorStakes.get (p, v) = none → n ≤ m)
      ∧ PgPool.storable ((pg.validatorStakes.get (p, v)).getD 0 + n) = true
      ∧ ((pg.validatorStakes.get (p, v)).getD 0 + n ≤ m →
        PgPool.storable (row.balance + n) = true ∧ PgPool.bigint (row.version + 1) = true))
    ⟨fun h => ⟨h.1, h.2.1, h.2.2.1, h.2.2.2⟩, fun h => ⟨h.limit, h.first, h.sum, h.pool⟩⟩

instance (m : ℤ) (pg : PgPool.Tables) (mem : MemoryPool.Tables) :
    ∀ c : Call, Decidable (Meets m pg mem c)
  | .getPool p => inferInstanceAs (Decidable (∀ row ∈ pg.bondPools.get p,
      row.balance = PgPool.sumValidatorStakes p pg.validatorStakes))
  | .getValidatorStake p v => inferInstanceAs (Decidable (Owns mem p v))
  | .stake p v n => inferInstanceAs (Decidable (Owns mem p v
      ∧ ∀ row ∈ pg.bondPools.get p, MeetsStake m pg p v n row))
  | .unstake p v n => inferInstanceAs (Decidable (Owns mem p v
      ∧ ∃ row ∈ pg.bondPools.get p, ∀ a ∈ pg.validatorStakes.get (p, v), n ≤ a →
        n ≤ row.balance → PgPool.bigint (row.version + 1) = true))
  | .sumValidatorStakes _ => isTrue trivial
  | .reconcilePool p => inferInstanceAs (Decidable (∀ row ∈ pg.bondPools.get p,
      PgPool.storable (PgPool.sumValidatorStakes p pg.validatorStakes) = true
        ∧ PgPool.bigint (row.version + 1) = true))

instance MeetsAll.decide (m : ℤ) : ∀ (pg : PgPool.Tables) (mem : MemoryPool.Tables)
    (calls : List Call), Decidable (MeetsAll m pg mem calls)
  | _, _, [] => isTrue trivial
  | pg, mem, c :: cs =>
    have := fun d : PgPool.Tables × MemoryPool.Tables => MeetsAll.decide m d.1 d.2 cs
    inferInstanceAs (Decidable (Meets m pg mem c
      ∧ ∀ d ∈ after m pg mem c, MeetsAll m d.1 d.2 cs))

end Instances

section Runs

end Runs

end PoolStore

end VeriNode
