import VeriNode.Staking.PgPool
import Mathlib.Tactic.Linarith

/-!
# When bond pools in Postgres conserve stake

A transaction holds the rows it has written, so what it wrote still stands beside what was
committed when it wrote it (`TxOk`), and its commit moves the balance and the sum of the stakes
alike. Two things break this: an insert of a stake that the limit of the update does not see, and a
sum that `reconcilePool` read before another transaction's commit and writes after it. `Guarded`
runs have neither.
-/

namespace VeriNode

namespace PgPool

section Moves

/-- What a transaction writes of its stake, beside what is committed. -/
def StakeWrite (m : ℤ) (stakes : OrdMap (String × String) ℤ) : Op → Option ℤ → Prop
  | .stake p v n, w => w = some ((stakes.get (p, v)).getD 0 + n) ∧ 0 ≤ n
    ∧ ((stakes.get (p, v)).isSome → (stakes.get (p, v)).getD 0 + n ≤ m)
  | .unstake p v n, w => ∃ a, stakes.get (p, v) = some a ∧ n ≤ a
    ∧ w = if a - n = 0 then none else some (a - n)
  | .reconcile _, _ => False

/-- The transaction is at its pool. -/
def Phase.atPool : Phase → Bool
  | .reading _ => true
  | .updating _ _ => true
  | .waiting _ _ => true
  | .committing => true
  | _ => false

/-- What a transaction writes of its pool: the sum it read, or the balance moved. -/
def PoolWrite (tx : Tx) (row row' : PoolRow) : Prop :=
  (∃ p, tx.op = .reconcile p ∧ tx.phase = .summed row'.balance)
    ∨ (tx.phase.atPool = true ∧ row'.balance = row.balance + tx.op.delta)

/-- What a step may do, with what lets it. -/
inductive Move (m : ℤ) (s : State) : Action → State → Prop
  | started (a : Action) (op : Op) (phase : Phase) : (phase = .checking ∨ phase = .selecting
        ∨ phase = .summing) → Move m s a (s.start { op := op, phase := phase })
  | went (id : ℕ) (tx : Tx) (phase : Phase) : s.txs.get id = some tx → phase ≠ .committing →
      (phase.atPool = true → tx.phase.atPool = true) →
      (∀ total, phase = .summed total → (∃ p, tx.op = .reconcile p)
        ∧ total = sumValidatorStakes tx.op.poolId s.tables.validatorStakes) →
      Move m s (.next id) (s.goOn id { tx with phase := phase })
  | wroteStake (id : ℕ) (tx : Tx) (w : Option ℤ) : s.txs.get id = some tx →
      stakeLocked s id tx.op = false → (∀ p v n, tx.op = .stake p v n → tx.phase = .inserting) →
      (∀ p v n, tx.op = .unstake p v n → tx.phase = .locking) →
      StakeWrite m s.tables.validatorStakes tx.op w →
      Move m s (.next id) (s.goOn id { tx with phase := .reading 0, stakeWrite := some w })
  | wrotePool (id : ℕ) (tx : Tx) (row row' : PoolRow) : s.txs.get id = some tx →
      poolLocked s id tx.op = false → s.tables.bondPools.get tx.op.poolId = some row →
      PoolWrite tx row row' →
      Move m s (.next id) (s.goOn id { tx with phase := .committing, poolWrite := some row' })
  | committed (id : ℕ) (tx : Tx) (answer : Answer) : s.txs.get id = some tx →
      tx.phase = .committing →
      Move m s (.next id) ({ s with tables := s.tables.apply tx }.finish id answer)
  | ended (a : Action) (id : ℕ) (answer : Answer) : Move m s a (s.finish id answer)

variable {m : ℤ} {s s' : State} {a : Action} {id : ℕ} {tx : Tx}

theorem insertStake_move {p v : String} {n : ℤ} (hc : s.txs.get id = some tx)
    (hl : stakeLocked s id tx.op = false) (hop : tx.op = .stake p v n)
    (hph : tx.phase = .inserting) : Move m s (.next id) (insertStake m id tx p v n s) := by
  unfold insertStake
  split_ifs with hn
  · have hpos : 0 ≤ n := by
      simp only [storable, Bool.decide_and, Bool.and_eq_true, decide_eq_true_eq] at hn
      exact hn.1.1
    rcases hst : s.tables.validatorStakes.get (p, v) with _ | existing
    · refine .wroteStake id tx _ hc hl (fun _ _ _ _ => hph) (by simp [hop]) ?_
      rw [hop]
      simp [StakeWrite, hst, hpos]
    · simp only []
      split_ifs with hs hm
      · refine .wroteStake id tx _ hc hl (fun _ _ _ _ => hph) (by simp [hop]) ?_
        rw [hop]
        simp [StakeWrite, hst, hpos, hm]
      · exact .ended _ id _
      · exact .ended _ id _
  · exact .ended _ id _

theorem takeStake_move {p v : String} {n : ℤ} (hc : s.txs.get id = some tx)
    (hl : stakeLocked s id tx.op = false) (hop : tx.op = .unstake p v n)
    (hph : tx.phase = .locking) : Move m s (.next id) (takeStake id tx p v n s) := by
  unfold takeStake
  rcases hst : s.tables.validatorStakes.get (p, v) with _ | existing
  · exact .ended _ id _
  · simp only []
    by_cases hn : existing < n
    · rw [if_pos hn]
      exact .ended _ id _
    · rw [if_neg hn]
      by_cases hok : storable (existing - n) = true
      · rw [if_pos hok]
        refine .wroteStake id tx _ hc hl (by simp [hop]) (fun _ _ _ _ => hph) ?_
        rw [hop]
        exact ⟨existing, hst, by omega, rfl⟩
      · rw [if_neg hok]
        exact .ended _ id _

theorem readPool_move {k : ℕ} (hc : s.txs.get id = some tx) (hp : tx.phase.atPool = true) :
    Move m s (.next id) (readPool id tx k s) := by
  unfold readPool
  split_ifs
  · split
    · exact .ended _ id _
    · split
      · split_ifs
        · exact .ended _ id _
        · exact .went id tx _ hc (by simp) (fun _ => hp) (by simp)
      · exact .went id tx _ hc (by simp) (fun _ => hp) (by simp)
  · exact .ended _ id _

theorem writePool_move {row row' : PoolRow} (hc : s.txs.get id = some tx)
    (hl : poolLocked s id tx.op = false) (hrow : s.tables.bondPools.get tx.op.poolId = some row)
    (hw : PoolWrite tx row row') : Move m s (.next id) (writePool id tx row' s) := by
  unfold writePool
  split_ifs
  · exact .wrotePool id tx row row' hc hl hrow hw
  · exact .ended _ id _

theorem movePool_move {k : ℕ} {version : ℤ} (hc : s.txs.get id = some tx)
    (hl : poolLocked s id tx.op = false) (hp : tx.phase.atPool = true) :
    Move m s (.next id) (movePool id tx k version s) := by
  unfold movePool
  split
  · exact .went id tx _ hc (by simp) (fun _ => hp) (by simp)
  · rename_i row hrow
    split_ifs
    · exact writePool_move hc hl hrow (.inr ⟨hp, rfl⟩)
    · exact .went id tx _ hc (by simp) (fun _ => hp) (by simp)

theorem writeTotal_move {total : ℤ} {p : String} (hc : s.txs.get id = some tx)
    (hl : poolLocked s id tx.op = false) (hop : tx.op = .reconcile p)
    (hph : tx.phase = .summed total) : Move m s (.next id) (writeTotal id tx total s) := by
  unfold writeTotal
  split
  · exact .ended _ id _
  · rename_i row hrow
    exact writePool_move hc hl hrow (.inl ⟨p, hop, hph⟩)

theorem commit_move (hc : s.txs.get id = some tx) (hph : tx.phase = .committing) :
    Move m s (.next id) (commit id tx s) := by
  unfold commit
  split
  · exact .ended _ id _
  · exact .committed id tx _ hc hph

theorem next_move (hc : s.txs.get id = some tx) (h : next m id tx s = some s') :
    Move m s (.next id) s' := by
  unfold next at h
  split at h
  · cases h
    split_ifs
    · exact .went id tx _ hc (by simp) (by simp [Phase.atPool]) (by simp)
    · exact .ended _ id _
  · rename_i p v n hop hph
    split_ifs at h with hl
    cases h
    exact insertStake_move hc (by simpa using hl) hop hph
  · cases h
    split_ifs
    · exact .went id tx _ hc (by simp) (by simp [Phase.atPool]) (by simp)
    · exact .ended _ id _
  · rename_i p v n hop hph
    split_ifs at h with hl
    cases h
    exact takeStake_move hc (by simpa using hl) hop hph
  · rename_i p hop hph
    cases h
    split_ifs
    · refine .went id tx _ hc (by simp) (by simp [Phase.atPool]) fun total ht => ?_
      cases ht
      rw [hop]
      exact ⟨⟨p, rfl⟩, rfl⟩
    · exact .ended _ id _
  · rename_i p total hop hph
    split_ifs at h with hl
    cases h
    exact writeTotal_move hc (by simpa using hl) hop hph
  · cases h
    exact readPool_move hc (by simp [*, Phase.atPool])
  · cases h
    have hp : tx.phase.atPool = true := by simp [*, Phase.atPool]
    split_ifs
    · exact .went id tx _ hc (by simp) (fun _ => hp) (by simp)
    · exact .went id tx _ hc (by simp) (fun _ => hp) (by simp)
  · split_ifs at h with hl
    cases h
    exact movePool_move hc (by simpa using hl) (by simp [*, Phase.atPool])
  · cases h
    exact commit_move hc (by assumption)
  · cases h

theorem step_move (h : step m s a = some s') : Move m s a s' := by
  rcases a with ⟨p, v, n⟩ | ⟨p, v, n⟩ | p | id | id <;> simp only [step] at h
  · cases h
    exact .started _ _ _ (.inl rfl)
  · cases h
    exact .started _ _ _ (.inr (.inl rfl))
  · cases h
    exact .started _ _ _ (.inr (.inr rfl))
  · split at h
    · cases h
    · rename_i tx hc
      exact next_move hc h
  · split_ifs at h
    cases h
    exact .ended _ id _

end Moves

section Writes

/-- What a transaction wrote stands beside what is committed. -/
structure TxOk (m : ℤ) (d : Tables) (tx : Tx) : Prop where
  stake : ∀ w, tx.stakeWrite = some w → StakeWrite m d.validatorStakes tx.op w
    ∧ ∀ amount, w = some amount → 0 < amount ∧ amount ≤ m
  pool : ∀ row', tx.poolWrite = some row' → ∃ row, d.bondPools.get tx.op.poolId = some row
    ∧ row'.balance = row.balance + tx.op.delta
  atPool : tx.phase.atPool = true → (∀ p, tx.op ≠ .reconcile p) → ∃ w, tx.stakeWrite = some w
  committing : tx.phase = .committing → ∃ row, tx.poolWrite = some row
  summed : ∀ total, tx.phase = .summed total → (∃ p, tx.op = .reconcile p)
    ∧ total = sumValidatorStakes tx.op.poolId d.validatorStakes

variable {m : ℤ} {d d' : Tables} {tx : Tx}

theorem TxOk.frame (ht : TxOk m d tx)
    (hs : ∀ key w, tx.op.stakeKey = some key → tx.stakeWrite = some w →
      d'.validatorStakes.get key = d.validatorStakes.get key)
    (hp : ∀ row, tx.poolWrite = some row →
      d'.bondPools.get tx.op.poolId = d.bondPools.get tx.op.poolId)
    (hsum : ∀ total, tx.phase = .summed total →
      sumValidatorStakes tx.op.poolId d'.validatorStakes
        = sumValidatorStakes tx.op.poolId d.validatorStakes) : TxOk m d' tx := by
  refine ⟨fun w hw => ?_, fun row' hrow' => ?_, ht.atPool, ht.committing, fun total htot => ?_⟩
  · obtain ⟨hwrite, hbound⟩ := ht.stake w hw
    refine ⟨?_, hbound⟩
    rcases hop : tx.op with ⟨p, v, n⟩ | ⟨p, v, n⟩ | p <;> rw [hop] at hwrite hs
    · have hkey := hs (p, v) w rfl hw
      simpa only [StakeWrite, hkey] using hwrite
    · have hkey := hs (p, v) w rfl hw
      simpa only [StakeWrite, hkey] using hwrite
    · exact hwrite
  · rw [hp row' hrow']
    exact ht.pool row' hrow'
  · rw [hsum total htot]
    exact ht.summed total htot

theorem sum_set (stakes : OrdMap (String × String) ℤ) (key : String × String) (amount : ℤ)
    (p : String) : sumValidatorStakes p (stakes.set key amount) = sumValidatorStakes p stakes
      + if key.1 = p then amount - (stakes.get key).getD 0 else 0 := by
  unfold sumValidatorStakes
  rw [OrdMap.sum_set]
  rcases hst : stakes.get key with _ | old
  · simp only [OrdMap.term, hst]
    split_ifs <;> simp
  · simp only [OrdMap.term, hst]
    split_ifs
    · simp only [Option.map_some, Option.getD_some]
      omega
    · simp

theorem sum_delete (stakes : OrdMap (String × String) ℤ) (key : String × String) (p : String) :
    sumValidatorStakes p (stakes.delete key) = sumValidatorStakes p stakes
      - if key.1 = p then (stakes.get key).getD 0 else 0 := by
  unfold sumValidatorStakes
  rw [OrdMap.sum_delete]
  rcases hst : stakes.get key with _ | old
  · simp [OrdMap.term, hst]
  · simp [OrdMap.term, hst]

theorem sum_apply (ht : TxOk m d tx) (hc : tx.phase = .committing) (p : String) :
    sumValidatorStakes p (d.apply tx).validatorStakes = sumValidatorStakes p d.validatorStakes
      + if tx.op.poolId = p then tx.op.delta else 0 := by
  have hat : tx.phase.atPool = true := by rw [hc]; rfl
  rcases hop : tx.op with ⟨q, v, n⟩ | ⟨q, v, n⟩ | q
  · obtain ⟨w, hw⟩ := ht.atPool hat (by simp [hop])
    obtain ⟨hwrite, -⟩ := ht.stake w hw
    rw [hop] at hwrite
    obtain ⟨rfl, -⟩ := hwrite
    have happ : (d.apply tx).validatorStakes = d.validatorStakes.set (q, v)
        ((d.validatorStakes.get (q, v)).getD 0 + n) := by
      simp only [Tables.apply, hop, Op.stakeKey, hw]
    rw [happ, sum_set]
    show _ + (if q = p then _ else 0) = _ + if q = p then n else 0
    split_ifs <;> omega
  · obtain ⟨w, hw⟩ := ht.atPool hat (by simp [hop])
    obtain ⟨hwrite, -⟩ := ht.stake w hw
    rw [hop] at hwrite
    obtain ⟨a, ha, hle, rfl⟩ := hwrite
    show _ = _ + if q = p then -n else 0
    split_ifs at hw with hz
    · have happ : (d.apply tx).validatorStakes = d.validatorStakes.delete (q, v) := by
        simp only [Tables.apply, hop, Op.stakeKey, hw]
      rw [happ, sum_delete, ha]
      show _ - (if q = p then a else 0) = _
      split_ifs <;> omega
    · have happ : (d.apply tx).validatorStakes = d.validatorStakes.set (q, v) (a - n) := by
        simp only [Tables.apply, hop, Op.stakeKey, hw]
      rw [happ, sum_set, ha]
      show _ + (if q = p then a - n - a else 0) = _
      split_ifs <;> omega
  · simp [Tables.apply, hop, Op.stakeKey, Op.delta]

theorem get_apply {key : String × String} {amount : ℤ}
    (hg : (d.apply tx).validatorStakes.get key = some amount) :
    d.validatorStakes.get key = some amount ∨ tx.stakeWrite = some (some amount) := by
  simp only [Tables.apply] at hg
  split at hg
  · exact .inl (OrdMap.of_get_delete hg).2
  · rename_i w hw
    rcases OrdMap.of_get_set hg with ⟨-, rfl⟩ | ⟨-, hg⟩
    · exact .inr hw
    · exact .inl hg
  · exact .inl hg

theorem conserved_apply (hd : Conserved m d) (ht : TxOk m d tx) (hc : tx.phase = .committing) :
    Conserved m (d.apply tx) := by
  refine ⟨fun p row hp => ?_, fun key amount hg => ?_⟩
  · rw [sum_apply ht hc]
    obtain ⟨row', hrow'⟩ := ht.committing hc
    obtain ⟨row₀, hrow₀, hbal⟩ := ht.pool row' hrow'
    simp only [Tables.apply, hrow', OrdMap.get_set] at hp
    split_ifs at hp with he
    · cases hp
      rw [if_pos he.symm, hbal, hd.balance _ row₀ hrow₀, he]
    · rw [if_neg (Ne.symm he), hd.balance p row hp, add_zero]
  · rcases get_apply hg with hg | hw
    · exact hd.bounds key amount hg
    · exact (ht.stake _ hw).2 amount rfl

end Writes

section Runs

/-- What a step must find: a stake that is inserted is positive and within the limit, one that is
taken from stays within it, and no sum of the pool is waiting to be written when a stake is
committed. -/
structure Guarded (m : ℤ) (s : State) (a : Action) : Prop where
  insert : ∀ id tx p v n, a = .next id → s.txs.get id = some tx → tx.op = .stake p v n →
    tx.phase = .inserting → s.tables.validatorStakes.get (p, v) = none → n ≠ 0 ∧ n ≤ m
  take : ∀ id tx p v n amount, a = .next id → s.txs.get id = some tx → tx.op = .unstake p v n →
    tx.phase = .locking → s.tables.validatorStakes.get (p, v) = some amount → amount - n ≤ m
  commit : ∀ id tx, a = .next id → s.txs.get id = some tx → tx.phase = .committing →
    (∀ p, tx.op ≠ .reconcile p) → ∀ id' tx' total, s.txs.get id' = some tx' →
    tx'.op.poolId = tx.op.poolId → tx'.phase ≠ .summed total

/-- The tables are conserved, what the transactions wrote stands beside them, and no two of them
have written one row. -/
structure Inv (m : ℤ) (s : State) : Prop where
  tables : Conserved m s.tables
  fresh : ∀ id, s.nextId ≤ id → s.txs.get id = none
  txs : ∀ id tx, s.txs.get id = some tx → TxOk m s.tables tx
  stakes : ∀ i j t u w, i ≠ j → s.txs.get i = some t → s.txs.get j = some u →
    t.op.stakeKey = u.op.stakeKey → t.stakeWrite = some w → u.stakeWrite = none
  pools : ∀ i j t u row, i ≠ j → s.txs.get i = some t → s.txs.get j = some u →
    t.op.poolId = u.op.poolId → t.poolWrite = some row → u.poolWrite = none

variable {m : ℤ} {s s' : State} {a : Action} {id : ℕ} {tx : Tx}
  {h : List (Taken State Action)}

theorem stakeLocked_eq_false {op : Op} (hl : stakeLocked s id op = false) {id' : ℕ} {tx' : Tx}
    (hc : s.txs.get id' = some tx') (hne : id' ≠ id) (hk : tx'.op.stakeKey = op.stakeKey) :
    tx'.stakeWrite = none := by
  have hall := OrdMap.of_any_eq_false hl hc
  simpa [hne, hk] using hall

theorem poolLocked_eq_false {op : Op} (hl : poolLocked s id op = false) {id' : ℕ} {tx' : Tx}
    (hc : s.txs.get id' = some tx') (hne : id' ≠ id) (hk : tx'.op.poolId = op.poolId) :
    tx'.poolWrite = none := by
  have hall := OrdMap.of_any_eq_false hl hc
  simpa [hne, hk] using hall

/-- A transaction takes the place of another, or is new. -/
theorem Inv.set (hi : Inv m s) {n : ℕ} (hn : s.nextId ≤ n) (hid : id < n)
    (ht : TxOk m s.tables tx)
    (hs : ∀ w, tx.stakeWrite = some w → ∀ id' tx', id' ≠ id → s.txs.get id' = some tx' →
      tx'.op.stakeKey = tx.op.stakeKey → tx'.stakeWrite = none)
    (hp : ∀ row, tx.poolWrite = some row → ∀ id' tx', id' ≠ id → s.txs.get id' = some tx' →
      tx'.op.poolId = tx.op.poolId → tx'.poolWrite = none) :
    Inv m { s with nextId := n, txs := s.txs.set id tx } := by
  refine ⟨hi.tables, fun i hle => ?_, fun i t hc => ?_, fun i j t u w hne ht' hu hk hw => ?_,
    fun i j t u row hne ht' hu hk hw => ?_⟩
  · have hle' : n ≤ i := hle
    exact (OrdMap.get_set_of_ne _ _ (by omega)).trans (hi.fresh i (by omega))
  · rcases OrdMap.of_get_set hc with ⟨-, rfl⟩ | ⟨-, hc⟩
    · exact ht
    · exact hi.txs i t hc
  · rcases OrdMap.of_get_set ht' with ⟨rfl, rfl⟩ | ⟨hni, ht₀⟩
    · rcases OrdMap.of_get_set hu with ⟨rfl, rfl⟩ | ⟨hnj, hu⟩
      · exact absurd rfl hne
      · exact hs w hw j u hnj hu hk.symm
    · rcases OrdMap.of_get_set hu with ⟨rfl, rfl⟩ | ⟨hnj, hu⟩
      · rcases huw : u.stakeWrite with _ | w'
        · rfl
        · rw [hs w' huw i t hni ht₀ hk] at hw
          cases hw
      · exact hi.stakes i j t u w hne ht₀ hu hk hw
  · rcases OrdMap.of_get_set ht' with ⟨rfl, rfl⟩ | ⟨hni, ht₀⟩
    · rcases OrdMap.of_get_set hu with ⟨rfl, rfl⟩ | ⟨hnj, hu⟩
      · exact absurd rfl hne
      · exact hp row hw j u hnj hu hk.symm
    · rcases OrdMap.of_get_set hu with ⟨rfl, rfl⟩ | ⟨hnj, hu⟩
      · rcases huw : u.poolWrite with _ | row'
        · rfl
        · rw [hp row' huw i t hni ht₀ hk] at hw
          cases hw
      · exact hi.pools i j t u row hne ht₀ hu hk hw

theorem Inv.delete (hi : Inv m s) (d : Tables) (answers : OrdMap ℕ Answer) (hd : Conserved m d)
    (hframe : ∀ id' tx', id' ≠ id → s.txs.get id' = some tx' → TxOk m d tx') :
    Inv m { s with tables := d, txs := s.txs.delete id, answers := answers } := by
  have hget : ∀ {i t}, (s.txs.delete id).get i = some t → i ≠ id ∧ s.txs.get i = some t :=
    OrdMap.of_get_delete
  refine ⟨hd, fun i hle => ?_, fun i t hc => hframe i t (hget hc).1 (hget hc).2,
    fun i j t u w hne ht hu => hi.stakes i j t u w hne (hget ht).2 (hget hu).2,
    fun i j t u row hne ht hu => hi.pools i j t u row hne (hget ht).2 (hget hu).2⟩
  have hn := hi.fresh i hle
  simp only [OrdMap.get_delete, hn, ite_self]

theorem Inv.lt (hi : Inv m s) (hc : s.txs.get id = some tx) : id < s.nextId := by
  by_contra hn
  rw [hi.fresh id (by omega)] at hc
  cases hc

/-- What others wrote stands beside what the transaction commits. -/
theorem Inv.frame (hi : Inv m s) (hg : Guarded m s (.next id)) (hc : s.txs.get id = some tx)
    (hph : tx.phase = .committing) {id' : ℕ} {tx' : Tx} (hne : id' ≠ id)
    (hc' : s.txs.get id' = some tx') : TxOk m (s.tables.apply tx) tx' := by
  have ht := hi.txs id tx hc
  refine (hi.txs id' tx' hc').frame (fun key w hk hw => ?_) (fun row hrow => ?_)
    fun total htot => ?_
  · -- the two have different stakes, since both have written theirs
    have hkey : tx.op.stakeKey = some key → tx.stakeWrite = none := by
      intro hk'
      exact hi.stakes id' id tx' tx w hne hc' hc (hk.trans hk'.symm) hw
    simp only [Tables.apply]
    split
    · rename_i key' hk' hw'
      refine OrdMap.get_delete_of_ne _ ?_
      rintro rfl
      rw [hkey hk'] at hw'
      cases hw'
    · rename_i key' amount hk' hw'
      refine OrdMap.get_set_of_ne _ _ ?_
      rintro rfl
      rw [hkey hk'] at hw'
      cases hw'
    · rfl
  · have hpool : tx.op.poolId ≠ tx'.op.poolId := by
      intro he
      obtain ⟨row', hrow'⟩ := ht.committing hph
      rw [hi.pools id' id tx' tx row hne hc' hc he.symm hrow] at hrow'
      cases hrow'
    simp only [Tables.apply]
    split
    · rfl
    · exact OrdMap.get_set_of_ne _ _ (Ne.symm hpool)
  · rw [sum_apply ht hph]
    by_cases hrec : ∃ p, tx.op = .reconcile p
    · obtain ⟨p, hop⟩ := hrec
      simp [hop, Op.delta]
    · have hpool : tx'.op.poolId ≠ tx.op.poolId := fun he =>
        hg.commit id tx rfl hc hph (fun p hp => hrec ⟨p, hp⟩) id' tx' total hc' he htot
      rw [if_neg (Ne.symm hpool), add_zero]

theorem stakeWrite_bounds (hi : Inv m s) (hg : Guarded m s (.next id)) {w : Option ℤ}
    (hc : s.txs.get id = some tx) (hins : ∀ p v n, tx.op = .stake p v n → tx.phase = .inserting)
    (hlock : ∀ p v n, tx.op = .unstake p v n → tx.phase = .locking)
    (hw : StakeWrite m s.tables.validatorStakes tx.op w) {amount : ℤ} (ha : w = some amount) :
    0 < amount ∧ amount ≤ m := by
  rcases hop : tx.op with ⟨p, v, n⟩ | ⟨p, v, n⟩ | p <;> rw [hop] at hw
  · obtain ⟨hw, hn, hle⟩ := hw
    rw [hw] at ha
    cases ha
    rcases hst : s.tables.validatorStakes.get (p, v) with _ | old
    · obtain ⟨hz, hm⟩ := hg.insert id tx p v n rfl hc hop (hins p v n hop) hst
      simp only [Option.getD_none]
      omega
    · have hold := hi.tables.bounds _ old hst
      rw [hst] at hle
      simp only [Option.isSome_some, Option.getD_some, forall_const] at hle ⊢
      omega
  · obtain ⟨old, hst, hn, hw⟩ := hw
    have hm := hg.take id tx p v n old rfl hc hop (hlock p v n hop) hst
    rw [ha] at hw
    split_ifs at hw with hz
    cases hw
    omega
  · exact hw.elim

/-- A guarded step keeps the invariant. -/
theorem Inv.move (hi : Inv m s) (hm : Move m s a s') (hg : Guarded m s a) : Inv m s' := by
  cases hm with
  | started _ op phase hph =>
    refine hi.set (Nat.le_succ _) (Nat.lt_succ_self _) ⟨by simp, by simp, ?_, ?_, ?_⟩ (by simp)
      (by simp)
    · rcases hph with rfl | rfl | rfl <;> simp [Phase.atPool]
    · rcases hph with rfl | rfl | rfl <;> simp
    · rcases hph with rfl | rfl | rfl <;> simp
  | went id tx phase hc hne hat hsum =>
    have ht := hi.txs id tx hc
    exact hi.set le_rfl (hi.lt hc)
      ⟨ht.stake, ht.pool, fun h => ht.atPool (hat h), fun h => absurd h hne, hsum⟩
      (fun w hw id' tx' hne' hc' hk => hi.stakes id id' tx tx' w (Ne.symm hne') hc hc' hk.symm hw)
      (fun row hrow id' tx' hne' hc' hk =>
        hi.pools id id' tx tx' row (Ne.symm hne') hc hc' hk.symm hrow)
  | wroteStake id tx w hc hl hph hph' hw =>
    have ht := hi.txs id tx hc
    refine hi.set le_rfl (hi.lt hc) ⟨fun w' hw' => ?_, ht.pool, fun _ _ => ⟨w, rfl⟩, by simp,
      by simp⟩ (fun _ _ id' tx' hne' hc' hk => stakeLocked_eq_false hl hc' hne' hk)
      (fun row hrow id' tx' hne' hc' hk =>
        hi.pools id id' tx tx' row (Ne.symm hne') hc hc' hk.symm hrow)
    cases hw'
    exact ⟨hw, fun amount ha => stakeWrite_bounds hi hg hc hph hph' hw ha⟩
  | wrotePool id tx row row' hc hl hrow hw =>
    have ht := hi.txs id tx hc
    refine hi.set le_rfl (hi.lt hc) ⟨ht.stake, fun row'' hrow'' => ?_, fun _ hop => ?_,
      fun _ => ⟨row', rfl⟩, by simp⟩
      (fun w hw id' tx' hne' hc' hk => hi.stakes id id' tx tx' w (Ne.symm hne') hc hc' hk.symm hw)
      (fun _ _ id' tx' hne' hc' hk => poolLocked_eq_false hl hc' hne' hk)
    · cases hrow''
      refine ⟨row, hrow, ?_⟩
      rcases hw with ⟨p, hop, hph⟩ | ⟨-, hbal⟩
      · -- the sum that was read is still that of the pool, which is its balance
        obtain ⟨-, htot⟩ := ht.summed _ hph
        rw [htot, ← hi.tables.balance _ row hrow, hop]
        simp [Op.delta]
      · exact hbal
    · rcases hw with ⟨p, hop', -⟩ | ⟨hat, -⟩
      · exact absurd hop' (hop p)
      · exact ht.atPool hat hop
  | committed id tx answer hc hph =>
    exact hi.delete _ _ (conserved_apply hi.tables (hi.txs id tx hc) hph)
      fun id' tx' hne hc' => hi.frame hg hc hph hne hc'
  | ended _ id answer =>
    exact hi.delete s.tables _ hi.tables fun id' tx' _ hc' => hi.txs id' tx' hc'

theorem inv_run (hr : Run (sys m) h s) (hg : Along (Guarded m) h) : Inv m s := by
  refine hr.invariant_of (fun s hi => ?_) (fun s a s' hi hg hs => hi.move (step_move hs) hg) hg
  obtain ⟨tables, hd, rfl⟩ := hi
  exact ⟨hd, by simp, by simp, by simp, by simp⟩

/-- In every run whose steps are guarded: every pool has the sum of its stakes, and every stake is
positive and within the limit. -/
theorem pg_pools_conserve (hr : Run (sys m) h s) (hg : Along (Guarded m) h) :
    Conserved m s.tables :=
  (inv_run hr hg).tables

/-- The phase is that of a sum which is not written yet. -/
def Phase.isSummed : Phase → Bool
  | .summed _ => true
  | _ => false

/-- The guards, as a check of the step. -/
def guards (m : ℤ) (s : State) : Action → Bool
  | .next id =>
    (s.txs.get id).all fun tx =>
      match tx.op, tx.phase with
      | .stake p v n, .inserting =>
        (s.tables.validatorStakes.get (p, v)).isSome || (n ≠ 0 && n ≤ m)
      | .unstake p v n, .locking =>
        (s.tables.validatorStakes.get (p, v)).all fun amount => amount - n ≤ m
      | .reconcile _, .committing => true
      | op, .committing =>
        s.txs.entries.all fun e => e.2.op.poolId ≠ op.poolId || !e.2.phase.isSummed
      | _, _ => true
  | _ => true

theorem guarded_of_guards (hg : guards m s a = true) : Guarded m s a where
  insert := by
    rintro id tx p v n rfl hc hop hph hst
    simpa [guards, hc, hop, hph, hst] using hg
  take := by
    rintro id tx p v n amount rfl hc hop hph hst
    simpa [guards, hc, hop, hph, hst] using hg
  commit := by
    rintro id tx rfl hc hph hop id' tx' total hc' hpool htot
    have hall : (s.txs.entries.all fun e =>
        e.2.op.poolId ≠ tx.op.poolId || !e.2.phase.isSummed) = true := by
      rcases hop' : tx.op with ⟨p, v, n⟩ | ⟨p, v, n⟩ | p
      · simpa [guards, hc, hop', hph] using hg
      · simpa [guards, hc, hop', hph] using hg
      · exact absurd hop' (hop p)
    have hone := List.all_eq_true.1 hall (id', tx') (OrdMap.mem_entries_iff.2 hc')
    simp [hpool, htot, Phase.isSummed] at hone

theorem init_empty (m : ℤ) (p : String) : (sys m).init
    { tables := { bondPools := OrdMap.empty.set p ⟨0, 0⟩ } } := by
  refine ⟨_, ⟨fun q row hq => ?_, by simp⟩, rfl⟩
  rcases OrdMap.of_get_set hq with ⟨-, rfl⟩ | ⟨-, hq⟩
  · rfl
  · cases hq

theorem pg_pools_conserve_retry : ∃ h s, Run (sys maxStake) h s
    ∧ s.tables.bondPools.get "p" = some ⟨350, 4⟩ ∧ Conserved maxStake s.tables := by
  obtain ⟨h, s, hr, hp⟩ := Sys.exists_run (S := sys maxStake) (init_empty maxStake "p")
    [.stake "p" "v" 200, .stake "p" "w" 300, .next 0, .next 0, .next 0, .next 0, .next 1, .next 1,
      .next 1, .next 1, .next 0, .next 0, .next 1, .next 1, .next 1, .next 1, .next 1,
      .reconcile "p", .next 2, .next 2, .next 2, .unstake "p" "v" 150, .next 3, .next 3, .next 3,
      .next 3, .next 3, .next 3]
    (p := fun x => x.2.tables.bondPools.get "p" = some ⟨350, 4⟩
      && x.1.all fun t => guards maxStake t.pre t.act)
    (by decide +kernel)
  simp only [Bool.and_eq_true, decide_eq_true_eq, List.all_eq_true] at hp
  exact ⟨h, s, hr, hp.1, pg_pools_conserve hr fun t ht => guarded_of_guards (hp.2 t ht)⟩

/-- A reconcile reads its sum before a stake commits and writes it after; and a first stake goes
over the limit. -/
theorem stale_sum_and_unbounded_insert :
    (∃ h s, Run (sys maxStake) h s ∧ s.txs.entries = []
      ∧ s.tables.bondPools.get "p" = some ⟨0, 2⟩
      ∧ sumValidatorStakes "p" s.tables.validatorStakes = 100 ∧ ¬ Conserved maxStake s.tables)
    ∧ ∃ h s, Run (sys maxStake) h s ∧ s.txs.entries = []
      ∧ s.tables.validatorStakes.get ("p", "v") = some (maxStake + 1)
      ∧ ¬ Conserved maxStake s.tables := by
  constructor
  · obtain ⟨h, s, hr, hp⟩ := Sys.exists_run (S := sys maxStake) (init_empty maxStake "p")
      [.stake "p" "v" 100, .next 0, .next 0, .next 0, .next 0, .next 0, .reconcile "p", .next 1,
        .next 0, .next 1, .next 1]
      (p := fun x => x.2.txs.entries.isEmpty && x.2.tables.bondPools.get "p" = some ⟨0, 2⟩
        && sumValidatorStakes "p" x.2.tables.validatorStakes = 100)
      (by decide +kernel)
    simp only [Bool.and_eq_true, decide_eq_true_eq, List.isEmpty_iff] at hp
    obtain ⟨⟨htxs, hpool⟩, hsum⟩ := hp
    refine ⟨h, s, hr, htxs, hpool, hsum, fun hcons => ?_⟩
    have hbal := hcons.balance "p" _ hpool
    rw [hsum] at hbal
    cases hbal
  · obtain ⟨h, s, hr, hp⟩ := Sys.exists_run (S := sys maxStake) (init_empty maxStake "p")
      [.stake "p" "v" (maxStake + 1), .next 0, .next 0, .next 0, .next 0, .next 0, .next 0]
      (p := fun x => x.2.txs.entries.isEmpty
        && x.2.tables.validatorStakes.get ("p", "v") = some (maxStake + 1))
      (by decide +kernel)
    simp only [Bool.and_eq_true, decide_eq_true_eq, List.isEmpty_iff] at hp
    obtain ⟨htxs, hst⟩ := hp
    refine ⟨h, s, hr, htxs, hst, fun hcons => ?_⟩
    have hbound := (hcons.bounds _ _ hst).2
    omega

end Runs

end PgPool

end VeriNode
