import VeriNode.Staking.MemoryPool
import Mathlib.Tactic.Linarith

/-!
# Bond pools in memory conserve stake

The calls of a pool are linked by the promises they wait for, so that at most one of them is past
its wait (`Locked.exclusive`). The stakes of all pools are in one map, under keys that do not tell
every two pairs of ids apart: where the pairs that a run names have different keys, every pool has
the sum of its stakes all the time (`Inv`).
-/

namespace VeriNode

namespace MemoryPool

section Moves

/-- What a call of the service queues for. -/
inductive Asks : Action → Op → Prop
  | stake (p v : String) {n : ℤ} : minStake ≤ n → Asks (.stake p v n) (.stake p v n)
  | unstake (p v : String) {n : ℤ} : minStake ≤ n → Asks (.unstake p v n) (.unstake p v n)
  | reconcile (p : String) : Asks (.reconcile p) (.reconcile p)

/-- The pool after `n` was put in. -/
def moved (pool : BondPool) (n : ℤ) : BondPool :=
  { pool with balance := pool.balance + n, version := pool.version + 1 }

/-- The call is past its body, with the result. -/
def State.through (s : State) (id : ℕ) (call : Call) (result : Except PoolError BondPool)
    (tables : Tables) : State :=
  { s with tables := tables, calls := s.calls.set id { call with phase := .done result } }

/-- What a step may do, with what lets it. -/
inductive Move (m : ℤ) (s : State) : Action → State → Prop
  | answered (a : Action) (answer : Answer) : (∀ pool, answer ≠ .pool pool) →
      Move m s a (s.answer answer)
  | queued (a : Action) (op : Op) : Asks a op → Move m s a (withPoolLock op s)
  | failed (id : ℕ) (call : Call) (e : PoolError) : s.calls.get id = some call →
      resolved s call.previous = true → call.phase = .waiting →
      Move m s (.run id) (s.through id call (.error e) s.tables)
  | staked (id : ℕ) (call : Call) (p v : String) (n next : ℤ) (pool : BondPool) :
      s.calls.get id = some call → resolved s call.previous = true → call.phase = .waiting →
      call.op = .stake p v n → s.tables.pools.get p = some pool →
      next = ((s.tables.stakes.get (stakeKey p v)).map (·.amount)).getD 0 + n → next ≤ m →
      Move m s (.run id) (s.through id call (.ok (moved pool n))
        { pools := s.tables.pools.set p (moved pool n)
          stakes := s.tables.stakes.set (stakeKey p v) ⟨p, v, next⟩ })
  | unstaked (id : ℕ) (call : Call) (p v : String) (n : ℤ) (pool : BondPool)
      (stake : ValidatorStake) : s.calls.get id = some call → resolved s call.previous = true →
      call.phase = .waiting → call.op = .unstake p v n → s.tables.pools.get p = some pool →
      s.tables.stakes.get (stakeKey p v) = some stake → n ≤ stake.amount →
      Move m s (.run id) (s.through id call (.ok (moved pool (-n)))
        { pools := s.tables.pools.set p (moved pool (-n))
          stakes :=
            if stake.amount - n = 0 then s.tables.stakes.delete (stakeKey p v)
            else s.tables.stakes.set (stakeKey p v) { stake with amount := stake.amount - n } })
  | summed (id : ℕ) (call : Call) (p : String) : s.calls.get id = some call →
      resolved s call.previous = true → call.phase = .waiting → call.op = .reconcile p →
      Move m s (.run id) { s with
        calls := s.calls.set id
          { call with phase := .summed (sumValidatorStakes p s.tables.stakes) } }
  | wrote (id : ℕ) (call : Call) (total : ℤ) (pool : BondPool) : s.calls.get id = some call →
      call.phase = .summed total → s.tables.pools.get call.op.poolId = some pool →
      Move m s (.write id) (s.through id call
        (.ok (writeBalance call.op.poolId total pool s.tables).1)
        (writeBalance call.op.poolId total pool s.tables).2)
  | released (id : ℕ) (call : Call) (result : Except PoolError BondPool) :
      s.calls.get id = some call → call.phase = .done result →
      Move m s (.release id) (release id call result s)

variable {m : ℤ} {s s' : State} {a : Action}

theorem serve_move {op : Op} {n : ℤ} (h : minStake ≤ n → Asks a op) : Move m s a (serve op n s) := by
  unfold serve assertStakeAmount
  split_ifs with hn
  · exact .answered a _ (by simp)
  · exact .queued a op (h (by omega))

section Bodies

variable {d : Tables} {p v : String} {n : ℤ} {pool : BondPool} {stake : ValidatorStake}

theorem requirePool_missing (hp : d.pools.get p = none) :
    requirePool p d = .error (.poolNotFound p) := by simp [requirePool, hp]

theorem requirePool_ok (hp : d.pools.get p = some pool) : requirePool p d = .ok pool := by
  simp [requirePool, hp]

theorem stake_missing (hp : d.pools.get p = none) :
    MemoryPool.stake m p v n d = .error (.poolNotFound p) := by
  simp [MemoryPool.stake, requirePool_missing hp, bind, Except.bind]

theorem stake_limit (hp : d.pools.get p = some pool)
    (hn : m < ((d.stakes.get (stakeKey p v)).map (·.amount)).getD 0 + n) :
    MemoryPool.stake m p v n d = .error (.validatorStakeLimit v p m) := by
  simp [MemoryPool.stake, requirePool_ok hp, hn, bind, Except.bind, throw, throwThe,
    MonadExceptOf.throw]

theorem stake_ok (hp : d.pools.get p = some pool)
    (hn : ((d.stakes.get (stakeKey p v)).map (·.amount)).getD 0 + n ≤ m) :
    MemoryPool.stake m p v n d = .ok (moved pool n,
      { pools := d.pools.set p (moved pool n)
        stakes := d.stakes.set (stakeKey p v)
          ⟨p, v, ((d.stakes.get (stakeKey p v)).map (·.amount)).getD 0 + n⟩ }) := by
  simp only [MemoryPool.stake, requirePool_ok hp, bind, Except.bind, if_neg (not_lt.2 hn)]
  rfl

theorem unstake_missing (hp : d.pools.get p = none) :
    unstake p v n d = .error (.poolNotFound p) := by
  simp [unstake, requirePool_missing hp, bind, Except.bind]

theorem unstake_short (hp : d.pools.get p = some pool)
    (hs : ∀ stake, d.stakes.get (stakeKey p v) = some stake → stake.amount < n) :
    unstake p v n d = .error (.insufficientStake v p) := by
  rcases hst : d.stakes.get (stakeKey p v) with _ | stake
  · simp [unstake, requirePool_ok hp, hst, bind, Except.bind, throw, throwThe, MonadExceptOf.throw]
  · simp [unstake, requirePool_ok hp, hst, hs stake hst, bind, Except.bind, throw, throwThe,
      MonadExceptOf.throw]

theorem unstake_balance (hp : d.pools.get p = some pool)
    (hs : d.stakes.get (stakeKey p v) = some stake) (hn : n ≤ stake.amount)
    (hb : pool.balance < n) : unstake p v n d = .error (.insufficientPoolBalance p) := by
  simp [unstake, requirePool_ok hp, hs, not_lt.2 hn, hb, bind, Except.bind, throw, throwThe,
    MonadExceptOf.throw]

theorem unstake_ok (hp : d.pools.get p = some pool)
    (hs : d.stakes.get (stakeKey p v) = some stake) (hn : n ≤ stake.amount)
    (hb : n ≤ pool.balance) : unstake p v n d = .ok (moved pool (-n),
      { pools := d.pools.set p (moved pool (-n))
        stakes :=
          if stake.amount - n = 0 then d.stakes.delete (stakeKey p v)
          else d.stakes.set (stakeKey p v) { stake with amount := stake.amount - n } }) := by
  simp only [unstake, requirePool_ok hp, hs, bind, Except.bind, if_neg (not_lt.2 hn),
    if_neg (not_lt.2 hb)]
  rfl

end Bodies

theorem stake_move {id : ℕ} {call : Call} {p v : String} {n : ℤ}
    (hc : s.calls.get id = some call) (hr : resolved s call.previous = true)
    (hw : call.phase = .waiting) (ho : call.op = .stake p v n) :
    Move m s (.run id) (s.settle id call (stake m p v n s.tables)) := by
  rcases hp : s.tables.pools.get p with _ | pool
  · rw [stake_missing hp]
    exact .failed id call _ hc hr hw
  · by_cases hn : m < ((s.tables.stakes.get (stakeKey p v)).map (·.amount)).getD 0 + n
    · rw [stake_limit hp hn]
      exact .failed id call _ hc hr hw
    · rw [stake_ok hp (by omega)]
      exact .staked id call p v n _ pool hc hr hw ho hp rfl (by omega)

theorem unstake_move {id : ℕ} {call : Call} {p v : String} {n : ℤ}
    (hc : s.calls.get id = some call) (hr : resolved s call.previous = true)
    (hw : call.phase = .waiting) (ho : call.op = .unstake p v n) :
    Move m s (.run id) (s.settle id call (unstake p v n s.tables)) := by
  rcases hp : s.tables.pools.get p with _ | pool
  · rw [unstake_missing hp]
    exact .failed id call _ hc hr hw
  · rcases hst : s.tables.stakes.get (stakeKey p v) with _ | stake
    · rw [unstake_short hp (by simp [hst])]
      exact .failed id call _ hc hr hw
    · by_cases hn : stake.amount < n
      · rw [unstake_short hp (by simpa [hst] using hn)]
        exact .failed id call _ hc hr hw
      · by_cases hb : pool.balance < n
        · rw [unstake_balance hp hst (by omega) hb]
          exact .failed id call _ hc hr hw
        · rw [unstake_ok hp hst (by omega) (by omega)]
          exact .unstaked id call p v n pool stake hc hr hw ho hp hst (by omega)

theorem body_move {id : ℕ} {call : Call} (hc : s.calls.get id = some call)
    (hr : resolved s call.previous = true) (hw : call.phase = .waiting) :
    Move m s (.run id) (body m id call s) := by
  unfold body
  split
  · rename_i p v n ho
    exact stake_move hc hr hw ho
  · rename_i p v n ho
    exact unstake_move hc hr hw ho
  · rename_i p ho
    rcases hp : s.tables.pools.get p with _ | pool
    · rw [requirePool_missing hp]
      exact .failed id call _ hc hr hw
    · rw [requirePool_ok hp]
      exact .summed id call p hc hr hw ho

theorem step_move (h : step m s a = some s') : Move m s a s' := by
  rcases a with ⟨p, v, n⟩ | ⟨p, v, n⟩ | p | ⟨p, v⟩ | id | id | id <;> simp only [step] at h
  · cases h
    exact serve_move fun hn => .stake p v hn
  · cases h
    exact serve_move fun hn => .unstake p v hn
  · cases h
    exact .queued _ _ (.reconcile p)
  · cases h
    exact .answered _ _ (by simp)
  · split at h
    · rename_i op previous hc
      split_ifs at h with hr
      cases h
      exact body_move hc hr rfl
    · cases h
  · split at h
    · rename_i op previous total hc
      split at h
      · cases h
      · rename_i pool hp
        cases h
        exact .wrote id _ total pool hc rfl hp
    · cases h
  · split at h
    · rename_i op previous result hc
      cases h
      exact .released id _ result hc rfl
    · cases h

end Moves

section Locks

/-- The calls of a pool are linked: each waits for one that is under way, if an older one is; a
call past its wait has nothing to wait for. -/
structure Locked (s : State) : Prop where
  fresh : ∀ id, s.nextId ≤ id → s.calls.get id = none
  older : ∀ id call k, s.calls.get id = some call → call.previous = some k → k < id
  last : ∀ id call, s.calls.get id = some call → ∃ k, s.locks.get call.op.poolId = some k ∧ id ≤ k
  locked : ∀ p k, s.locks.get p = some k → ∃ call, s.calls.get k = some call ∧ call.op.poolId = p
  chain : ∀ i j c c', s.calls.get i = some c → s.calls.get j = some c' →
    c.op.poolId = c'.op.poolId → i < j → ∃ k c'', c'.previous = some k ∧ i ≤ k
      ∧ s.calls.get k = some c'' ∧ c''.op.poolId = c'.op.poolId
  held : ∀ id call, s.calls.get id = some call → call.phase ≠ .waiting →
    resolved s call.previous = true

/-- The call has the pool's lock. -/
def Holds (s : State) (id : ℕ) (p : String) : Prop :=
  ∃ call, s.calls.get id = some call ∧ call.op.poolId = p ∧ call.phase ≠ .waiting

variable {m : ℤ} {s s' : State} {a : Action}

theorem resolved_some_iff {k : ℕ} : resolved s (some k) = true ↔ s.calls.get k = none := by
  simp only [resolved, Bool.not_eq_true', OrdMap.has_eq_false_iff]

theorem not_resolved {k : ℕ} {call : Call} (hk : s.calls.get k = some call) :
    resolved s (some k) = false := by
  rw [Bool.eq_false_iff, ne_eq, resolved_some_iff, hk]
  simp

theorem resolved_mono {previous : Option ℕ} (h : resolved s previous = true)
    (hn : ∀ k, previous = some k → s.calls.get k = none → s'.calls.get k = none) :
    resolved s' previous = true := by
  rcases previous with _ | k
  · rfl
  · exact resolved_some_iff.2 (hn k rfl (resolved_some_iff.1 h))

theorem Locked.lt (hl : Locked s) {id : ℕ} {call : Call} (hc : s.calls.get id = some call) :
    id < s.nextId := by
  by_contra hn
  rw [hl.fresh id (by omega)] at hc
  cases hc

theorem Locked.oldest (hl : Locked s) {i j : ℕ} {c c' : Call} (hi : s.calls.get i = some c)
    (hj : s.calls.get j = some c') (hp : c.op.poolId = c'.op.poolId)
    (hr : resolved s c'.previous = true) : j ≤ i := by
  by_contra hlt
  obtain ⟨k, c'', hk, -, hc'', -⟩ := hl.chain i j c c' hi hj hp (by omega)
  rw [hk, not_resolved hc''] at hr
  cases hr

theorem Locked.exclusive (hl : Locked s) {i j : ℕ} {p : String} (hi : Holds s i p)
    (hj : Holds s j p) : i = j := by
  obtain ⟨c, hc, hp, hw⟩ := hi
  obtain ⟨c', hc', hp', hw'⟩ := hj
  have h1 := hl.oldest hc hc' (hp.trans hp'.symm) (hl.held j c' hc' hw')
  have h2 := hl.oldest hc' hc (hp'.trans hp.symm) (hl.held i c hc hw)
  omega

theorem locked_queued (hl : Locked s) (op : Op) : Locked (withPoolLock op s) := by
  have hcalls : ∀ id, (withPoolLock op s).calls.get id = if id = s.nextId then
      some ⟨op, s.locks.get op.poolId, .waiting⟩ else s.calls.get id :=
    fun id => OrdMap.get_set _ _ _ _
  have hlocks : ∀ p, (withPoolLock op s).locks.get p = if p = op.poolId then some s.nextId
      else s.locks.get p := fun p => OrdMap.get_set _ _ _ _
  have hkeep : ∀ {id call}, s.calls.get id = some call →
      (withPoolLock op s).calls.get id = some call := by
    intro id call hc
    have hlt := hl.lt hc
    rw [hcalls, if_neg (by omega), hc]
  refine ⟨fun id hle => ?_, fun id call k hc hk => ?_, fun id call hc => ?_, fun p k hk => ?_,
    fun i j c c' hi hj hp hlt => ?_, fun id call hc hw => ?_⟩
  · have hle' : s.nextId + 1 ≤ id := hle
    rw [hcalls, if_neg (by omega)]
    exact hl.fresh id (by omega)
  · rw [hcalls] at hc
    split_ifs at hc with he
    · cases hc
      obtain ⟨c, hc, -⟩ := hl.locked _ k hk
      have hlt := hl.lt hc
      omega
    · exact hl.older id call k hc hk
  · rw [hcalls] at hc
    rw [hlocks]
    split_ifs at hc with he
    · cases hc
      exact ⟨s.nextId, if_pos rfl, by omega⟩
    · have hlt := hl.lt hc
      split_ifs
      · exact ⟨s.nextId, rfl, by omega⟩
      · exact hl.last id call hc
  · rw [hlocks] at hk
    split_ifs at hk with he
    · cases hk
      exact ⟨_, by rw [hcalls, if_pos rfl], he.symm⟩
    · obtain ⟨c, hc, hp⟩ := hl.locked p k hk
      exact ⟨c, hkeep hc, hp⟩
  · rw [hcalls] at hi hj
    split_ifs at hi with hi'
    · -- nothing is younger than the new call
      split_ifs at hj with hj'
      · omega
      · have hlt' := hl.lt hj
        omega
    · split_ifs at hj with hj'
      · cases hj
        obtain ⟨k, hk, hle⟩ := hl.last i c hi
        rw [hp] at hk
        obtain ⟨c'', hc'', hp''⟩ := hl.locked _ k hk
        exact ⟨k, c'', hk, hle, hkeep hc'', hp''⟩
      · obtain ⟨k, c'', hk, hle, hc'', hp''⟩ := hl.chain i j c c' hi hj hp hlt
        exact ⟨k, c'', hk, hle, hkeep hc'', hp''⟩
  · rw [hcalls] at hc
    split_ifs at hc with he
    · cases hc
      exact absurd rfl hw
    · refine resolved_mono (hl.held id call hc hw) fun k hk hn => ?_
      have h1 := hl.older id call k hc hk
      have h2 := hl.lt hc
      rw [hcalls, if_neg (by omega), hn]

/-- A call that nothing holds up moves to another phase. -/
theorem locked_phase (hl : Locked s) {id : ℕ} {call : Call} {phase : Phase} (tables : Tables)
    (hc : s.calls.get id = some call) (hr : resolved s call.previous = true) :
    Locked { s with tables := tables, calls := s.calls.set id { call with phase := phase } } := by
  have hback : ∀ {i c}, (s.calls.set id { call with phase := phase }).get i = some c →
      ∃ c₀, s.calls.get i = some c₀ ∧ c₀.op = c.op ∧ c₀.previous = c.previous
        ∧ (i = id ∨ c₀ = c) := by
    intro i c hi
    rcases OrdMap.of_get_set hi with ⟨he, rfl⟩ | ⟨-, hi⟩
    · exact ⟨call, he ▸ hc, rfl, rfl, .inl he⟩
    · exact ⟨c, hi, rfl, rfl, .inr rfl⟩
  have hkeep : ∀ {i c}, s.calls.get i = some c →
      ∃ c', (s.calls.set id { call with phase := phase }).get i = some c' ∧ c'.op = c.op := by
    intro i c hi
    rw [OrdMap.get_set]
    split_ifs with he
    · subst he
      rw [hc] at hi
      cases hi
      exact ⟨_, rfl, rfl⟩
    · exact ⟨c, hi, rfl⟩
  refine ⟨fun i hle => ?_, fun i c k hi hk => ?_, fun i c hi => ?_, fun p k hk => ?_,
    fun i j c c' hi hj hp hlt => ?_, fun i c hi hw => ?_⟩
  · have hlt := hl.lt hc
    have hle' : s.nextId ≤ i := hle
    exact (OrdMap.get_set_of_ne _ _ (by omega)).trans (hl.fresh i hle')
  · obtain ⟨c₀, hi₀, -, hprev, -⟩ := hback hi
    exact hl.older i c₀ k hi₀ (hprev.trans hk)
  · obtain ⟨c₀, hi₀, hop, -⟩ := hback hi
    rw [← hop]
    exact hl.last i c₀ hi₀
  · obtain ⟨c₀, hk₀, hp⟩ := hl.locked p k hk
    obtain ⟨c, hc', hop⟩ := hkeep hk₀
    exact ⟨c, hc', hop ▸ hp⟩
  · obtain ⟨c₀, hi₀, hop, -⟩ := hback hi
    obtain ⟨c₀', hj₀, hop', hprev', -⟩ := hback hj
    obtain ⟨k, c₁, hk, hle, hc₁, hp₁⟩ :=
      hl.chain i j c₀ c₀' hi₀ hj₀ (by rw [hop, hop', hp]) hlt
    obtain ⟨c'', hc'', hop''⟩ := hkeep hc₁
    exact ⟨k, c'', hprev' ▸ hk, hle, hc'', by rw [hop'', hp₁, hop']⟩
  · obtain ⟨c₀, hi₀, -, hprev, he⟩ := hback hi
    have hres : resolved s c.previous = true := by
      rcases he with rfl | rfl
      · rw [hc] at hi₀
        cases hi₀
        exact hprev ▸ hr
      · exact hl.held i c₀ hi₀ hw
    refine resolved_mono hres fun k hk hn => ?_
    refine (OrdMap.get_set_of_ne _ _ ?_).trans hn
    rintro rfl
    rw [hc] at hn
    cases hn

theorem locked_released (hl : Locked s) {id : ℕ} {call : Call}
    (result : Except PoolError BondPool) (hc : s.calls.get id = some call)
    (hw : call.phase ≠ .waiting) : Locked (release id call result s) := by
  have hr := hl.held id call hc hw
  have hback : ∀ {i c}, (release id call result s).calls.get i = some c →
      i ≠ id ∧ s.calls.get i = some c := OrdMap.of_get_delete
  have hkeep : ∀ {i c}, i ≠ id → s.calls.get i = some c →
      (release id call result s).calls.get i = some c := by
    intro i c hne hi
    exact (OrdMap.get_delete_of_ne _ hne).trans hi
  have hlocks : ∀ p k, (release id call result s).locks.get p = some k ↔
      s.locks.get p = some k ∧ k ≠ id := by
    intro p k
    show (if s.locks.get call.op.poolId = some id then s.locks.delete call.op.poolId
      else s.locks).get p = some k ↔ _
    have hown : s.locks.get p = some id → p = call.op.poolId := by
      intro hp
      obtain ⟨c, hc', hp'⟩ := hl.locked p id hp
      rw [hc] at hc'
      cases hc'
      exact hp'.symm
    split_ifs with he
    · rw [OrdMap.get_delete]
      split_ifs with hp
      · subst hp
        rw [he]
        simp [eq_comm]
      · exact ⟨fun hk => ⟨hk, fun hki => hp (hown (hki ▸ hk))⟩, And.left⟩
    · refine ⟨fun hk => ⟨hk, fun hki => he ?_⟩, And.left⟩
      rw [hki] at hk
      exact hown hk ▸ hk
  refine ⟨fun i hle => ?_, fun i c k hi hk => ?_, fun i c hi => ?_, fun p k hk => ?_,
    fun i j c c' hi hj hp hlt => ?_, fun i c hi hw' => ?_⟩
  · have hn := hl.fresh i hle
    show (s.calls.delete id).get i = none
    rw [OrdMap.get_delete, hn, ite_self]
  · exact hl.older i c k (hback hi).2 hk
  · obtain ⟨hne, hi₀⟩ := hback hi
    obtain ⟨k, hk, hle⟩ := hl.last i c hi₀
    refine ⟨k, (hlocks _ k).2 ⟨hk, ?_⟩, hle⟩
    rintro rfl
    obtain ⟨c', hc', hp⟩ := hl.locked _ k hk
    rw [hc] at hc'
    cases hc'
    have hold := hl.oldest hi₀ hc hp.symm hr
    omega
  · obtain ⟨hk, hne⟩ := (hlocks p k).1 hk
    obtain ⟨c, hc', hp⟩ := hl.locked p k hk
    exact ⟨c, hkeep hne hc', hp⟩
  · obtain ⟨hne, hi₀⟩ := hback hi
    obtain ⟨hne', hj₀⟩ := hback hj
    obtain ⟨k, c'', hk, hle, hc'', hp''⟩ := hl.chain i j c c' hi₀ hj₀ hp hlt
    refine ⟨k, c'', hk, hle, hkeep ?_ hc'', hp''⟩
    rintro rfl
    rw [hc] at hc''
    cases hc''
    have hold := hl.oldest hi₀ hc (hp.trans hp''.symm) hr
    omega
  · obtain ⟨hne, hi⟩ := hback hi
    refine resolved_mono (hl.held i c hi hw') fun k hk hn => ?_
    show (s.calls.delete id).get k = none
    rw [OrdMap.get_delete, hn, ite_self]

theorem Locked.move (hl : Locked s) (hm : Move m s a s') : Locked s' := by
  cases hm with
  | answered =>
    exact ⟨fun id hle => hl.fresh id (Nat.le_of_succ_le hle), hl.older, hl.last, hl.locked,
      hl.chain, hl.held⟩
  | queued _ op _ => exact locked_queued hl op
  | failed id call e hc hr => exact locked_phase hl _ hc hr
  | staked id call p v n next pool hc hr => exact locked_phase hl _ hc hr
  | unstaked id call p v n pool stake hc hr => exact locked_phase hl _ hc hr
  | summed id call p hc hr => exact locked_phase hl s.tables hc hr
  | wrote id call total pool hc hw =>
    exact locked_phase hl _ hc (hl.held id call hc (by simp [hw]))
  | released id call result hc hw => exact locked_released hl result hc (by simp [hw])

theorem locked_reachable (h : (sys m).Reachable s) : Locked s := by
  refine h.invariant (fun s hi => ?_) fun _ _ _ hl hs => hl.move (step_move hs)
  obtain ⟨pools, -, rfl⟩ := hi
  constructor <;> simp

end Locks

section Books

/-- The ids that an action names together. -/
def Action.pair : Action → Option (String × String)
  | .stake p v _ => some (p, v)
  | .unstake p v _ => some (p, v)
  | .getValidatorStake p v => some (p, v)
  | _ => none

/-- No two pairs of ids that the steps name have the same key. -/
def Apart (h : List (Taken State Action)) : Prop :=
  ∀ t ∈ h, ∀ u ∈ h, ∀ x y, t.act.pair = some x → u.act.pair = some y →
    stakeKey x.1 x.2 = stakeKey y.1 y.2 → x = y

/-- Some step names the pair. -/
def Named (h : List (Taken State Action)) (x : String × String) : Prop :=
  ∃ t ∈ h, t.act.pair = some x

/-- Stakes are where their ids say, within bounds, and pools have their sums. -/
structure Books (m : ℤ) (h : List (Taken State Action)) (d : Tables) : Prop where
  keyed : ∀ key stake, d.stakes.get key = some stake →
    key = stakeKey stake.poolId stake.validatorId ∧ Named h (stake.poolId, stake.validatorId)
  bounds : ∀ key stake, d.stakes.get key = some stake → 0 < stake.amount ∧ stake.amount ≤ m
  pools : ∀ p pool, d.pools.get p = some pool →
    pool.id = p ∧ pool.balance = sumValidatorStakes p d.stakes

variable {m : ℤ} {h : List (Taken State Action)} {d : Tables} {p v : String}

theorem Apart.tail {t : Taken State Action} (ha : Apart (t :: h)) : Apart h :=
  fun u hu w hw => ha u (List.mem_cons_of_mem _ hu) w (List.mem_cons_of_mem _ hw)

theorem Named.mono {t : Taken State Action} {x : String × String} (hn : Named h x) :
    Named (t :: h) x := by
  obtain ⟨u, hu, hx⟩ := hn
  exact ⟨u, List.mem_cons_of_mem _ hu, hx⟩

theorem Books.mono (hb : Books m h d) (t : Taken State Action) : Books m (t :: h) d :=
  ⟨fun key stake hs => ⟨(hb.keyed key stake hs).1, (hb.keyed key stake hs).2.mono⟩, hb.bounds,
    hb.pools⟩

theorem Books.stake_of (hb : Books m h d) (ha : Apart h) (hn : Named h (p, v))
    {stake : ValidatorStake} (hs : d.stakes.get (stakeKey p v) = some stake) :
    stake.poolId = p ∧ stake.validatorId = v := by
  obtain ⟨hk, u, hu, hpair⟩ := hb.keyed _ stake hs
  obtain ⟨t, ht, hpair'⟩ := hn
  have he := ha t ht u hu _ _ hpair' hpair hk
  cases he
  exact ⟨rfl, rfl⟩

theorem term_stake {key : String} (hs : ∀ stake, d.stakes.get key = some stake → stake.poolId = p)
    (p' : String) : d.stakes.term (fun _ stake => if stake.poolId = p' then stake.amount else 0) key
      = if p = p' then ((d.stakes.get key).map (·.amount)).getD 0 else 0 := by
  unfold OrdMap.term
  rcases hst : d.stakes.get key with _ | stake
  · simp
  · simp [hs stake hst]

theorem sum_set_stake {key : String} (hs : ∀ stake, d.stakes.get key = some stake → stake.poolId = p)
    (v p' : String) (n : ℤ) : sumValidatorStakes p' (d.stakes.set key ⟨p, v, n⟩)
      = sumValidatorStakes p' d.stakes
        + if p = p' then n - ((d.stakes.get key).map (·.amount)).getD 0 else 0 := by
  unfold sumValidatorStakes
  rw [OrdMap.sum_set, term_stake hs]
  split_ifs with he
  · simp only []
    omega
  · omega

theorem sum_delete_stake {key : String}
    (hs : ∀ stake, d.stakes.get key = some stake → stake.poolId = p) (p' : String) :
    sumValidatorStakes p' (d.stakes.delete key) = sumValidatorStakes p' d.stakes
      - if p = p' then ((d.stakes.get key).map (·.amount)).getD 0 else 0 := by
  unfold sumValidatorStakes
  rw [OrdMap.sum_delete, term_stake hs]

theorem Books.moved (hb : Books m h d) {pool : BondPool} (hp : d.pools.get p = some pool) {n : ℤ}
    {stakes : OrdMap String ValidatorStake}
    (hsum : ∀ p', sumValidatorStakes p' stakes
      = sumValidatorStakes p' d.stakes + if p = p' then n else 0) :
    ∀ p' pool', (d.pools.set p (MemoryPool.moved pool n)).get p' = some pool' →
      pool'.id = p' ∧ pool'.balance = sumValidatorStakes p' stakes := by
  intro p' pool' hget
  rw [hsum p']
  rcases OrdMap.of_get_set hget with ⟨rfl, rfl⟩ | ⟨he, hget⟩
  · obtain ⟨hid, hbal⟩ := hb.pools p' pool hp
    exact ⟨hid, by rw [if_pos rfl, ← hbal]; rfl⟩
  · obtain ⟨hid, hbal⟩ := hb.pools p' pool' hget
    exact ⟨hid, by rw [if_neg (Ne.symm he), hbal, add_zero]⟩

theorem Books.sum_staked (hb : Books m h d) (ha : Apart h) (hn : Named h (p, v)) {n next : ℤ}
    (hnext : next = ((d.stakes.get (stakeKey p v)).map (·.amount)).getD 0 + n) (p' : String) :
    sumValidatorStakes p' (d.stakes.set (stakeKey p v) ⟨p, v, next⟩)
      = sumValidatorStakes p' d.stakes + if p = p' then n else 0 := by
  rw [sum_set_stake fun stake hs => (hb.stake_of ha hn hs).1]
  split_ifs <;> omega

theorem Books.sum_unstaked (hb : Books m h d) (ha : Apart h) (hn : Named h (p, v)) {n : ℤ}
    {stake : ValidatorStake} (hs : d.stakes.get (stakeKey p v) = some stake) (p' : String) :
    sumValidatorStakes p' (if stake.amount - n = 0 then d.stakes.delete (stakeKey p v)
        else d.stakes.set (stakeKey p v) { stake with amount := stake.amount - n })
      = sumValidatorStakes p' d.stakes + if p = p' then -n else 0 := by
  have hown : ∀ stake, d.stakes.get (stakeKey p v) = some stake → stake.poolId = p :=
    fun stake hs => (hb.stake_of ha hn hs).1
  have hamount : ((d.stakes.get (stakeKey p v)).map (·.amount)).getD 0 = stake.amount := by
    rw [hs]
    rfl
  split_ifs with hz hpp hpp
  · rw [sum_delete_stake hown, if_pos hpp, hamount]
    omega
  · rw [sum_delete_stake hown, if_neg hpp]
    omega
  · obtain ⟨hsp, hsv⟩ := hb.stake_of ha hn hs
    rw [hsp, sum_set_stake hown, if_pos hpp, hamount]
    omega
  · obtain ⟨hsp, hsv⟩ := hb.stake_of ha hn hs
    rw [hsp, sum_set_stake hown, if_neg hpp]

theorem Books.staked (hb : Books m h d) (ha : Apart h) (hn : Named h (p, v)) {n next : ℤ}
    {pool : BondPool} (hp : d.pools.get p = some pool) (hpos : 0 < n)
    (hnext : next = ((d.stakes.get (stakeKey p v)).map (·.amount)).getD 0 + n) (hm : next ≤ m) :
    Books m h { pools := d.pools.set p (MemoryPool.moved pool n)
                stakes := d.stakes.set (stakeKey p v) ⟨p, v, next⟩ } := by
  have hold : 0 ≤ ((d.stakes.get (stakeKey p v)).map (·.amount)).getD 0 := by
    rcases hst : d.stakes.get (stakeKey p v) with _ | stake
    · simp
    · exact (hb.bounds _ stake hst).1.le
  refine ⟨fun key stake hs => ?_, fun key stake hs => ?_,
    hb.moved hp (hb.sum_staked ha hn hnext)⟩
  · rcases OrdMap.of_get_set hs with ⟨he, rfl⟩ | ⟨-, hs⟩
    · exact ⟨he, hn⟩
    · exact hb.keyed key stake hs
  · rcases OrdMap.of_get_set hs with ⟨-, rfl⟩ | ⟨-, hs⟩
    · exact ⟨by simp only []; omega, hm⟩
    · exact hb.bounds key stake hs

theorem Books.unstaked (hb : Books m h d) (ha : Apart h) (hn : Named h (p, v)) {n : ℤ}
    {pool : BondPool} {stake : ValidatorStake} (hp : d.pools.get p = some pool) (hpos : 0 < n)
    (hs : d.stakes.get (stakeKey p v) = some stake) (hle : n ≤ stake.amount) :
    Books m h { pools := d.pools.set p (MemoryPool.moved pool (-n))
                stakes :=
                  if stake.amount - n = 0 then d.stakes.delete (stakeKey p v)
                  else d.stakes.set (stakeKey p v) { stake with amount := stake.amount - n } } := by
  obtain ⟨hsp, hsv⟩ := hb.stake_of ha hn hs
  have hbound := hb.bounds _ stake hs
  refine ⟨fun key stake' hs' => ?_, fun key stake' hs' => ?_,
    hb.moved hp (hb.sum_unstaked ha hn hs)⟩
  · split_ifs at hs'
    · exact hb.keyed key stake' (OrdMap.of_get_delete hs').2
    · rcases OrdMap.of_get_set hs' with ⟨he, rfl⟩ | ⟨-, hs'⟩
      · simp only [hsp, hsv]
        exact ⟨he, hn⟩
      · exact hb.keyed key stake' hs'
  · split_ifs at hs' with hz
    · exact hb.bounds key stake' (OrdMap.of_get_delete hs').2
    · rcases OrdMap.of_get_set hs' with ⟨-, rfl⟩ | ⟨-, hs'⟩
      · simp only []
        omega
      · exact hb.bounds key stake' hs'

theorem Books.written (hb : Books m h d) {pool : BondPool} (hp : d.pools.get p = some pool)
    {total : ℤ} (ht : total = sumValidatorStakes p d.stakes) :
    Books m h (writeBalance p total pool d).2 := by
  refine ⟨hb.keyed, hb.bounds, fun p' pool' hp' => ?_⟩
  rcases OrdMap.of_get_set hp' with ⟨rfl, rfl⟩ | ⟨-, hget⟩
  · exact ⟨(hb.pools p' pool hp).1, ht⟩
  · exact hb.pools p' pool' hget

end Books

section Runs

def Answer.success (p : String) : Answer → ℤ
  | .pool b => if b.id = p then 1 else 0
  | _ => 0

/-- The body of a call on the pool succeeded. -/
def Phase.success (p : String) : Phase → ℤ
  | .done (.ok pool) => if pool.id = p then 1 else 0
  | _ => 0

/-- How many calls on the pool have answered with success. -/
def succeeded (p : String) (s : State) : ℤ := s.answers.sum fun _ answer => answer.success p

/-- How many calls on the pool are through with success and have not answered. -/
def succeeding (p : String) (s : State) : ℤ := s.calls.sum fun _ call => call.phase.success p

/-- The pair of ids that a call works on. -/
def Op.pair : Op → Option (String × String)
  | .stake p v _ => some (p, v)
  | .unstake p v _ => some (p, v)
  | .reconcile _ => none

def Op.amount : Op → ℤ
  | .stake _ _ n => n
  | .unstake _ _ n => n
  | .reconcile _ => minStake

/-- The books are kept, and every call carries what it may: its ids are named, its amount is
admitted, and the sum it has is still that of its pool. -/
structure Inv (m : ℤ) (h : List (Taken State Action)) (s : State) : Prop where
  books : Books m h s.tables
  version : ∀ p pool, s.tables.pools.get p = some pool →
    pool.version = succeeded p s + succeeding p s
  calls : ∀ id call, s.calls.get id = some call →
    (∀ x, call.op.pair = some x → Named h x) ∧ minStake ≤ call.op.amount
  summed : ∀ id call total, s.calls.get id = some call → call.phase = .summed total →
    total = sumValidatorStakes call.op.poolId s.tables.stakes
  results : ∀ id call pool, s.calls.get id = some call → call.phase = .done (.ok pool) →
    pool.id = call.op.poolId
  unanswered : ∀ id, (s.nextId ≤ id ∨ ∃ call, s.calls.get id = some call) → s.answers.get id = none

variable {m : ℤ} {s s' : State} {a : Action} {h : List (Taken State Action)} {t : Taken State Action}

theorem succeeding_set {id : ℕ} {call call' : Call} (p : String) (hc : s.calls.get id = some call) :
    (s.calls.set id call').sum (fun _ call => call.phase.success p)
      = succeeding p s - call.phase.success p + call'.phase.success p := by
  rw [OrdMap.sum_set]
  simp [succeeding, OrdMap.term, hc]

/-- A call takes another phase, over tables whose books are kept. -/
theorem Inv.phase (hi : Inv m h s) {id : ℕ} {call : Call} {phase : Phase} (tables : Tables)
    (hc : s.calls.get id = some call) (hb : Books m h tables)
    (hv : ∀ p pool, tables.pools.get p = some pool →
      pool.version = succeeded p s + succeeding p s - call.phase.success p + phase.success p)
    (hsum : ∀ total, phase = .summed total →
      total = sumValidatorStakes call.op.poolId tables.stakes)
    (hres : ∀ pool, phase = .done (.ok pool) → pool.id = call.op.poolId)
    (hframe : ∀ id' call', id' ≠ id → s.calls.get id' = some call' →
      ∀ total, call'.phase = .summed total →
      sumValidatorStakes call'.op.poolId tables.stakes
        = sumValidatorStakes call'.op.poolId s.tables.stakes) :
    Inv m h { s with tables := tables, calls := s.calls.set id { call with phase := phase } } := by
  refine ⟨hb, fun p pool hp => ?_, fun id' call' hc' => ?_, fun id' call' total hc' hph => ?_,
    fun id' call' pool hc' hph => ?_, fun id' hid => ?_⟩
  · have hsucc : succeeding p
        { s with tables := tables, calls := s.calls.set id { call with phase := phase } }
        = succeeding p s - call.phase.success p + phase.success p := succeeding_set p hc
    rw [hv p pool hp, hsucc]
    show _ = succeeded p s + _
    omega
  · rcases OrdMap.of_get_set hc' with ⟨rfl, rfl⟩ | ⟨-, hc'⟩
    · exact hi.calls id' call hc
    · exact hi.calls id' call' hc'
  · rcases OrdMap.of_get_set hc' with ⟨rfl, rfl⟩ | ⟨hne, hc'⟩
    · exact hsum total hph
    · rw [hi.summed id' call' total hc' hph]
      exact (hframe id' call' hne hc' total hph).symm
  · rcases OrdMap.of_get_set hc' with ⟨rfl, rfl⟩ | ⟨-, hc'⟩
    · exact hres pool hph
    · exact hi.results id' call' pool hc' hph
  · refine hi.unanswered id' ?_
    rcases hid with hle | ⟨call', hc'⟩
    · exact .inl hle
    · rcases OrdMap.of_get_set hc' with ⟨rfl, -⟩ | ⟨-, hc'⟩
      · exact .inr ⟨call, hc⟩
      · exact .inr ⟨call', hc'⟩

theorem Inv.mono (hi : Inv m h s) (t : Taken State Action) : Inv m (t :: h) s :=
  ⟨hi.books.mono t, hi.version, fun id call hc =>
    ⟨fun x hx => ((hi.calls id call hc).1 x hx).mono, (hi.calls id call hc).2⟩,
    hi.summed, hi.results, hi.unanswered⟩

theorem Inv.answered (hi : Inv m h s) (hl : Locked s) {answer : Answer}
    (ha : ∀ pool, answer ≠ .pool pool) : Inv m h (s.answer answer) := by
  have hzero : ∀ p, answer.success p = 0 := by
    intro p
    rcases answer with b | _ | _
    · exact absurd rfl (ha b)
    · rfl
    · rfl
  refine ⟨hi.books, fun p pool hp => ?_, hi.calls, hi.summed, hi.results, fun id hid => ?_⟩
  · have hsucc : succeeded p (s.answer answer) = succeeded p s := by
      have hnone := hi.unanswered s.nextId (.inl le_rfl)
      refine (OrdMap.sum_set _ _ _ _).trans ?_
      simp [OrdMap.term, hnone, hzero, succeeded]
    rw [hi.version p pool hp, hsucc]
    rfl
  · have hlt : id ≠ s.nextId := by
      rcases hid with hle | ⟨call, hc⟩
      · have hle' : s.nextId + 1 ≤ id := hle
        omega
      · have hlt := hl.lt hc
        omega
    refine (OrdMap.get_set_of_ne _ _ hlt).trans (hi.unanswered id ?_)
    rcases hid with hle | hc
    · exact .inl (Nat.le_of_succ_le hle)
    · exact .inr hc

theorem Inv.queued (hi : Inv m h s) (hl : Locked s) {op : Op}
    (hn : ∀ x, op.pair = some x → Named h x) (hm : minStake ≤ op.amount) :
    Inv m h (withPoolLock op s) := by
  have hnone := hl.fresh s.nextId le_rfl
  have hget : ∀ {id call}, (withPoolLock op s).calls.get id = some call →
      (id = s.nextId ∧ call = ⟨op, s.locks.get op.poolId, .waiting⟩)
        ∨ s.calls.get id = some call := by
    intro id call hc
    rcases OrdMap.of_get_set hc with hnew | ⟨-, hold⟩
    · exact .inl hnew
    · exact .inr hold
  refine ⟨hi.books, fun p pool hp => ?_, fun id call hc => ?_, fun id call total hc hph => ?_,
    fun id call pool hc hph => ?_, fun id hid => ?_⟩
  · have hsucc : succeeding p (withPoolLock op s) = succeeding p s := by
      refine (OrdMap.sum_set _ _ _ _).trans ?_
      simp [OrdMap.term, hnone, succeeding, Phase.success]
    rw [hi.version p pool hp, hsucc]
    rfl
  · rcases hget hc with ⟨-, rfl⟩ | hc
    · exact ⟨hn, hm⟩
    · exact hi.calls id call hc
  · rcases hget hc with ⟨-, rfl⟩ | hc
    · cases hph
    · exact hi.summed id call total hc hph
  · rcases hget hc with ⟨-, rfl⟩ | hc
    · cases hph
    · exact hi.results id call pool hc hph
  · refine hi.unanswered id ?_
    rcases hid with hle | ⟨call, hc⟩
    · exact .inl (Nat.le_of_succ_le hle)
    · rcases hget hc with ⟨rfl, -⟩ | hc
      · exact .inl le_rfl
      · exact .inr ⟨call, hc⟩

theorem Inv.released (hi : Inv m h s) (hl : Locked s) {id : ℕ} {call : Call}
    {result : Except PoolError BondPool} (hc : s.calls.get id = some call)
    (hw : call.phase = .done result) : Inv m h (release id call result s) := by
  have hnone := hi.unanswered id (.inr ⟨call, hc⟩)
  refine ⟨hi.books, fun p pool hp => ?_,
    fun id' call' hc' => hi.calls id' call' (OrdMap.of_get_delete hc').2,
    fun id' call' total hc' hph => hi.summed id' call' total (OrdMap.of_get_delete hc').2 hph,
    fun id' call' pool hc' hph => hi.results id' call' pool (OrdMap.of_get_delete hc').2 hph,
    fun id' hid => ?_⟩
  · -- the success of the body becomes that of the answer
    have hsucc : succeeded p (release id call result s) + succeeding p (release id call result s)
        = succeeded p s + succeeding p s := by
      have h1 : succeeded p (release id call result s) = succeeded p s + call.phase.success p := by
        refine (OrdMap.sum_set _ _ _ _).trans ?_
        rcases result with e | b <;>
          simp [OrdMap.term, hnone, succeeded, hw, Answer.success, Phase.success]
      have h2 : succeeding p (release id call result s) = succeeding p s - call.phase.success p := by
        refine (OrdMap.sum_delete _ _ _).trans ?_
        simp [OrdMap.term, hc, succeeding]
      omega
    rw [hi.version p pool hp, hsucc]
  · have hne : id' ≠ id := by
      rcases hid with hle | ⟨call', hc'⟩
      · have hle' : s.nextId ≤ id' := hle
        have hlt := hl.lt hc
        omega
      · exact (OrdMap.of_get_delete hc').1
    refine (OrdMap.get_set_of_ne _ _ hne).trans (hi.unanswered id' ?_)
    rcases hid with hle | ⟨call', hc'⟩
    · exact .inl hle
    · exact .inr ⟨call', (OrdMap.of_get_delete hc').2⟩

theorem minStake_pos {n : ℤ} (hn : minStake ≤ n) : 0 < n := by
  unfold minStake at hn
  omega

theorem Inv.version_moved (hi : Inv m h s) {p p' : String} {pool pool' pool'' : BondPool}
    (hp : s.tables.pools.get p = some pool) (hid : pool''.id = pool.id)
    (hv : pool''.version = pool.version + 1)
    (hp' : (s.tables.pools.set p pool'').get p' = some pool') :
    pool'.version = succeeded p' s + succeeding p' s - Phase.success p' .waiting
      + Phase.success p' (.done (.ok pool'')) := by
  have hpid := (hi.books.pools p pool hp).1
  rcases OrdMap.of_get_set hp' with ⟨rfl, rfl⟩ | ⟨he, hp'⟩
  · rw [hv, hi.version p' pool hp]
    simp [Phase.success, hid, hpid]
  · rw [hi.version p' pool' hp']
    simp [Phase.success, hid, hpid, Ne.symm he]

/-- The step keeps the books, whatever pool it is of. -/
theorem Inv.move (hi : Inv m h s) (hl : Locked s) (hm : Move m s a s')
    (ha : Apart (⟨s, a, s'⟩ :: h)) : Inv m (⟨s, a, s'⟩ :: h) s' := by
  -- a sum that a call has is of a pool that no other call moves
  have hother : ∀ {id id' : ℕ} {call call' : Call} {total : ℤ}, s.calls.get id = some call →
      resolved s call.previous = true → id' ≠ id → s.calls.get id' = some call' →
      call'.phase = .summed total → call'.op.poolId ≠ call.op.poolId := by
    intro id id' call call' total hc hr hne hc' hph hp
    have h1 := hl.oldest hc' hc hp hr
    have h2 := hl.oldest hc hc' hp.symm (hl.held id' call' hc' (by simp [hph]))
    omega
  have hi' := hi.mono ⟨s, a, s'⟩
  cases hm with
  | answered _ answer hans => exact hi'.answered hl hans
  | queued _ op hask =>
    refine hi'.queued hl ?_ ?_
    · intro x hx
      refine ⟨_, List.mem_cons_self, ?_⟩
      cases hask with
      | stake => exact hx
      | unstake => exact hx
      | reconcile => cases hx
    · cases hask with
      | stake _ _ hn => exact hn
      | unstake _ _ hn => exact hn
      | reconcile => exact le_rfl
  | failed id call e hc hr hw =>
    refine hi'.phase _ hc hi'.books (fun p pool hp => ?_) (by simp) (by simp)
      fun _ _ _ _ _ _ => rfl
    rw [hi.version p pool hp, hw]
    simp [Phase.success]
  | staked id call p v n next pool hc hr hw hop hp hnext hm =>
    obtain ⟨hnamed, hmin⟩ := hi'.calls id call hc
    rw [hop] at hnamed hmin
    have hpos : 0 < n := minStake_pos hmin
    refine hi'.phase _ hc (hi'.books.staked ha (hnamed (p, v) rfl) hp hpos hnext hm)
      (fun p' pool' hp' => ?_) (by simp) (fun pool' hpool' => ?_)
      fun id' call' hne hc' total hph => ?_
    · rw [hw]
      exact hi.version_moved hp rfl rfl hp'
    · cases hpool'
      rw [hop]
      exact (hi.books.pools p pool hp).1
    · have hpp : p ≠ call'.op.poolId := by
        have hpp := hother hc hr hne hc' hph
        rw [hop] at hpp
        exact Ne.symm hpp
      rw [hi'.books.sum_staked ha (hnamed (p, v) rfl) hnext, if_neg hpp, add_zero]
  | unstaked id call p v n pool stake hc hr hw hop hp hs hle =>
    obtain ⟨hnamed, hmin⟩ := hi'.calls id call hc
    rw [hop] at hnamed hmin
    have hpos : 0 < n := minStake_pos hmin
    have hbooks := hi'.books.unstaked ha (hnamed (p, v) rfl) hp hpos hs hle
    refine hi'.phase _ hc hbooks (fun p' pool' hp' => ?_) (by simp) (fun pool' hpool' => ?_)
      fun id' call' hne hc' total hph => ?_
    · rw [hw]
      exact hi.version_moved hp rfl rfl hp'
    · cases hpool'
      rw [hop]
      exact (hi.books.pools p pool hp).1
    · have hpp : p ≠ call'.op.poolId := by
        have hpp := hother hc hr hne hc' hph
        rw [hop] at hpp
        exact Ne.symm hpp
      rw [hi'.books.sum_unstaked ha (hnamed (p, v) rfl) hs, if_neg hpp, add_zero]
  | summed id call p hc hr hw hop =>
    refine hi'.phase s.tables hc hi'.books (fun p pool hp => ?_)
      (fun total ht => ?_) (by simp) fun _ _ _ _ _ _ => rfl
    · rw [hi.version p pool hp, hw]
      simp [Phase.success]
    · cases ht
      rw [hop]
      rfl
  | wrote id call total pool hc hw hp =>
    have htotal := hi.summed id call total hc hw
    refine hi'.phase _ hc (hi'.books.written hp htotal) (fun p' pool' hp' => ?_) (by simp)
      (fun pool' hpool' => ?_) fun _ _ _ _ _ _ => rfl
    · rw [hw]
      exact hi.version_moved hp rfl rfl hp'
    · cases hpool'
      exact (hi.books.pools _ pool hp).1
  | released id call result hc hw => exact hi'.released hl hc hw

theorem inv_run (hr : Run (sys m) h s) (ha : Apart h) : Inv m h s := by
  induction hr with
  | start hi =>
    obtain ⟨pools, hpools, rfl⟩ := hi
    refine ⟨⟨by simp, by simp, fun p pool hp => ?_⟩, fun p pool hp => ?_, by simp, by simp, by simp,
      by simp⟩
    · rw [hpools p pool hp]
      exact ⟨rfl, rfl⟩
    · rw [hpools p pool hp]
      rfl
  | next hr hs ih =>
    exact (ih ha.tail).move (locked_reachable hr.reachable) (step_move hs) ha

theorem succeeding_eq_zero (hi : Inv m h s) {p : String} (hn : ∀ id, ¬ Holds s id p) :
    succeeding p s = 0 := by
  refine List.sum_eq_zero fun x hx => ?_
  obtain ⟨⟨id, call⟩, hmem, rfl⟩ := List.mem_map.1 hx
  have hc := OrdMap.mem_entries_iff.1 hmem
  rcases hph : call.phase with _ | total | (e | pool) <;> simp only [hph, Phase.success]
  refine if_neg fun hid => hn id ⟨call, hc, ?_, by simp [hph]⟩
  rw [← hi.results id call pool hc hph, hid]

/-- The call that takes the step. -/
def Action.caller (s : State) : Action → ℕ
  | .stake _ _ _ => s.nextId
  | .unstake _ _ _ => s.nextId
  | .reconcile _ => s.nextId
  | .getValidatorStake _ _ => s.nextId
  | .run id => id
  | .write id => id
  | .release id => id

/-- The call has succeeded, and has answered so or is about to. -/
def Succeeds (s : State) (id : ℕ) : Prop :=
  (∃ call pool, s.calls.get id = some call ∧ call.phase = .done (.ok pool))
    ∨ ∃ pool, s.answers.get id = some (.pool pool)

theorem Succeeds.move (hi : Inv m h s) (hl : Locked s) (hm : Move m s a s') {id : ℕ}
    (hs : Succeeds s id) : Succeeds s' id := by
  have hphase : ∀ {id' : ℕ} {call' : Call} {phase : Phase} {tables : Tables},
      s.calls.get id' = some call' → (∀ result, call'.phase ≠ .done result) →
      Succeeds { s with tables := tables, calls := s.calls.set id' { call' with phase := phase } }
        id := by
    intro id' call' phase tables hc' hne
    rcases hs with ⟨call, pool, hc, hph⟩ | hans
    · refine .inl ⟨call, pool, (OrdMap.get_set_of_ne _ _ ?_).trans hc, hph⟩
      rintro rfl
      rw [hc] at hc'
      cases hc'
      exact hne _ hph
    · exact .inr hans
  cases hm with
  | failed _ _ _ hc' _ hw => exact hphase hc' (by simp [hw])
  | staked _ _ _ _ _ _ _ hc' _ hw => exact hphase hc' (by simp [hw])
  | unstaked _ _ _ _ _ _ _ hc' _ hw => exact hphase hc' (by simp [hw])
  | summed _ _ _ hc' _ hw => exact hphase hc' (by simp [hw])
  | wrote _ _ _ _ hc' hw => exact hphase hc' (by simp [hw])
  | answered _ answer =>
    rcases hs with ⟨call, pool, hc, hph⟩ | ⟨pool, hans⟩
    · exact .inl ⟨call, pool, hc, hph⟩
    · refine .inr ⟨pool, (OrdMap.get_set_of_ne _ _ ?_).trans hans⟩
      rintro rfl
      rw [hi.unanswered s.nextId (.inl le_rfl)] at hans
      cases hans
  | queued _ op =>
    rcases hs with ⟨call, pool, hc, hph⟩ | hans
    · have hlt := hl.lt hc
      exact .inl ⟨call, pool, (OrdMap.get_set_of_ne _ _ (by omega)).trans hc, hph⟩
    · exact .inr hans
  | released id' call' result hc' hw =>
    rcases hs with ⟨call, pool, hc, hph⟩ | ⟨pool, hans⟩
    · by_cases he : id = id'
      · subst he
        rw [hc] at hc'
        cases hc'
        rw [hph] at hw
        cases hw
        exact .inr ⟨pool, OrdMap.get_set_self _ _ _⟩
      · exact .inl ⟨call, pool, (OrdMap.get_delete_of_ne _ he).trans hc, hph⟩
    · refine .inr ⟨pool, (OrdMap.get_set_of_ne _ _ ?_).trans hans⟩
      rintro rfl
      rw [hi.unanswered id (.inr ⟨call', hc'⟩)] at hans
      cases hans

theorem run_succeeds (hr : Run (sys m) h s) (ha : Apart h) (ht : t ∈ h)
    (hne : t.post.tables ≠ t.pre.tables) : Succeeds s (t.act.caller t.pre) := by
  induction hr with
  | start _ => cases ht
  | @next h s s' a hr hs ih =>
    have hm := step_move hs
    rcases List.mem_cons.1 ht with rfl | ht
    · cases hm with
      | staked => exact .inl ⟨_, _, OrdMap.get_set_self _ _ _, rfl⟩
      | unstaked => exact .inl ⟨_, _, OrdMap.get_set_self _ _ _, rfl⟩
      | wrote => exact .inl ⟨_, _, OrdMap.get_set_self _ _ _, rfl⟩
      | _ => exact absurd rfl hne
    · exact (ih ha.tail ht).move (inv_run hr ha.tail) (locked_reachable hr.reachable) hm

/-- What the store promises of a run and the state it ends in. -/
structure Conserves (m : ℤ) (h : List (Taken State Action)) (s : State) : Prop where
  balance : ∀ p pool, s.tables.pools.get p = some pool → (∀ id, ¬ Holds s id p) →
    pool.balance = sumValidatorStakes p s.tables.stakes
  version : ∀ p pool, s.tables.pools.get p = some pool → (∀ id, ¬ Holds s id p) →
    pool.version = succeeded p s
  bounds : ∀ key stake, s.tables.stakes.get key = some stake →
    0 < stake.amount ∧ stake.amount ≤ m
  reads : ∀ t ∈ h, ∀ p v stake, t.act = .getValidatorStake p v →
    getValidatorStake p v t.pre.tables = some stake → stake.poolId = p ∧ stake.validatorId = v
  reconciles : ∀ t ∈ h, ∀ call p, t.pre.calls.get (t.act.caller t.pre) = some call →
    call.op = .reconcile p → ∀ p', (t.post.tables.pools.get p').map (·.balance)
      = (t.pre.tables.pools.get p').map (·.balance)
  rejects : ∀ t ∈ h, ∀ e, s.answers.get (t.act.caller t.pre) = some (.threw e) →
    t.post.tables = t.pre.tables

theorem reconcile_balance (hi : Inv m h s) (hm : Move m s a s') {call : Call} {p : String}
    (hc : s.calls.get (a.caller s) = some call) (hop : call.op = .reconcile p)
    (p' : String) : (s'.tables.pools.get p').map (·.balance)
      = (s.tables.pools.get p').map (·.balance) := by
  cases hm with
  | staked id call' p v n next pool hc' _ _ hop' =>
    rw [show s.calls.get id = some call from hc] at hc'
    cases hc'
    rw [hop] at hop'
    cases hop'
  | unstaked id call' p v n pool stake hc' _ _ hop' =>
    rw [show s.calls.get id = some call from hc] at hc'
    cases hc'
    rw [hop] at hop'
    cases hop'
  | wrote id call' total pool hc' hw hp =>
    show ((s.tables.pools.set call'.op.poolId
      (writeBalance call'.op.poolId total pool s.tables).1).get p').map (·.balance) = _
    rw [OrdMap.get_set]
    split_ifs with he
    · subst he
      rw [hp]
      simp only [Option.map_some, Option.some.injEq]
      exact (hi.summed id call' total hc' hw).trans (hi.books.pools _ pool hp).2.symm
    · rfl
  | _ => rfl

/-- In every run whose pairs of ids have different keys: a pool that no call holds has the sum of
its stakes and a version that counts its successful calls; stakes are within bounds and read under
their own ids; reconciling changes no balance, and what is rejected changes nothing. -/
theorem memory_pools_conserve (hr : Run (sys m) h s) (ha : Apart h) : Conserves m h s := by
  have hi := inv_run hr ha
  refine ⟨fun p pool hp _ => (hi.books.pools p pool hp).2, fun p pool hp hn => ?_, hi.books.bounds,
    fun t ht p v stake hact hs => ?_, fun t ht call p hc hop => ?_, fun t ht e he => ?_⟩
  · rw [hi.version p pool hp, succeeding_eq_zero hi hn, add_zero]
  · obtain ⟨l, e, rfl⟩ := List.append_of_mem ht
    obtain ⟨hre, -⟩ := hr.split rfl
    have hae : Apart e := fun u hu w hw => ha u (by simp [hu]) w (by simp [hw])
    obtain ⟨hk, u, hu, hpair⟩ := (inv_run hre hae).books.keyed _ stake hs
    have hpair' : t.act.pair = some (p, v) := by rw [hact]; rfl
    have he := ha t ht u (by simp [hu]) _ _ hpair' hpair hk
    cases he
    exact ⟨rfl, rfl⟩
  · obtain ⟨l, e, rfl⟩ := List.append_of_mem ht
    obtain ⟨hre, hs⟩ := hr.split rfl
    have hae : Apart e := fun u hu w hw => ha u (by simp [hu]) w (by simp [hw])
    exact reconcile_balance (inv_run hre hae) (step_move hs) hc hop
  · by_contra hne
    rcases run_succeeds hr ha ht hne with ⟨call, pool, hc, -⟩ | ⟨pool, hans⟩
    · rw [hi.unanswered _ (.inr ⟨call, hc⟩)] at he
      cases he
    · rw [he] at hans
      cases hans

theorem init_pools (m : ℤ) (ids : List String) : (sys m).init { tables := {
    pools := ids.foldl (fun pools id => pools.set id ⟨id, 0, 0⟩) ∅ } } := by
  refine ⟨_, ?_, rfl⟩
  have hfold : ∀ (ids : List String) (pools : OrdMap String BondPool),
      (∀ id pool, pools.get id = some pool → pool = ⟨id, 0, 0⟩) →
      ∀ id pool, (ids.foldl (fun pools id => pools.set id ⟨id, 0, 0⟩) pools).get id = some pool →
        pool = ⟨id, 0, 0⟩ := by
    intro ids
    induction ids with
    | nil => exact fun _ h => h
    | cons x ids ih =>
      intro pools h
      refine ih _ fun id pool hp => ?_
      rcases OrdMap.of_get_set hp with ⟨rfl, rfl⟩ | ⟨-, hp⟩
      · rfl
      · exact h id pool hp
  exact hfold ids ∅ (by simp)

theorem memory_pools_conserve_two : ∃ h s, Run (sys maxStake) h s
    ∧ s.tables.pools.get "a" = some ⟨"a", 150, 3⟩ ∧ s.tables.pools.get "b" = some ⟨"b", 300, 1⟩
    ∧ s.answers.get 4 = some (.threw (.insufficientStake "w" "a")) ∧ Conserves maxStake h s := by
  obtain ⟨h, s, hr, hp⟩ := Sys.exists_run (S := sys maxStake)
    (init_pools maxStake ["a", "b"])
    [.stake "a" "v" 250, .reconcile "a", .unstake "a" "v" 100, .run 0, .release 0, .stake "b" "v" 300,
      .run 1, .run 3, .write 1, .release 3, .release 1, .run 2, .release 2, .unstake "a" "w" 100,
      .run 4, .release 4, .getValidatorStake "a" "v"]
    (p := fun x => x.2.tables.pools.get "a" = some ⟨"a", 150, 3⟩
      && x.2.tables.pools.get "b" = some ⟨"b", 300, 1⟩
      && x.2.answers.get 4 = some (.threw (.insufficientStake "w" "a"))
      && x.1.all fun t => x.1.all fun u => t.act.pair.all fun x => u.act.pair.all fun y =>
        stakeKey x.1 x.2 ≠ stakeKey y.1 y.2 || x = y)
    (by decide +kernel)
  simp only [Bool.and_eq_true, decide_eq_true_eq, List.all_eq_true] at hp
  obtain ⟨⟨⟨h1, h2⟩, h3⟩, hall⟩ := hp
  refine ⟨h, s, hr, h1, h2, h3, memory_pools_conserve hr fun t ht u hu x y hx hy hk => ?_⟩
  have hxy := hall t ht u hu
  simpa [hx, hy, hk] using hxy

/-- The validator `b:c` of the pool `a` and the validator `c` of the pool `a:b` have one key. -/
theorem colliding_ids_lose_stake : ∃ h s, Run (sys maxStake) h s ∧ (∀ id, ¬ Holds s id "a")
    ∧ s.tables.pools.get "a" = some ⟨"a", 100, 1⟩ ∧ sumValidatorStakes "a" s.tables.stakes = 0
    ∧ getValidatorStake "a" "b:c" s.tables = some ⟨"a:b", "c", 200⟩
    ∧ ¬ Conserves maxStake h s := by
  obtain ⟨h, s, hr, hp⟩ := Sys.exists_run (S := sys maxStake)
    (init_pools maxStake ["a", "a:b"])
    [.stake "a" "b:c" 100, .run 0, .release 0, .stake "a:b" "c" 100, .run 1, .release 1]
    (p := fun x => x.2.calls.entries.isEmpty && x.2.tables.pools.get "a" = some ⟨"a", 100, 1⟩
      && sumValidatorStakes "a" x.2.tables.stakes = 0
      && getValidatorStake "a" "b:c" x.2.tables = some ⟨"a:b", "c", 200⟩)
    (by decide +kernel)
  simp only [Bool.and_eq_true, decide_eq_true_eq, List.isEmpty_iff] at hp
  obtain ⟨⟨⟨hcalls, hpool⟩, hsum⟩, hread⟩ := hp
  have hfree : ∀ id, ¬ Holds s id "a" := by
    rintro id ⟨call, hc, -⟩
    have hmem := OrdMap.mem_entries_iff.2 hc
    rw [hcalls] at hmem
    cases hmem
  refine ⟨h, s, hr, hfree, hpool, hsum, hread, fun hcons => ?_⟩
  have hbal := hcons.balance "a" _ hpool hfree
  rw [hsum] at hbal
  cases hbal

end Runs

end MemoryPool

end VeriNode
