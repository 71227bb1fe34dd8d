import VeriNode.State.RewardLedger
import VeriNode.Proofs.Rollback
import VeriNode.Proofs.Rewards
import Mathlib.Algebra.Order.BigOperators.Group.List

/-!
# When a rollback destroys rewards

A rollback that claims a tentative row deletes every reward of the node since the row was written,
and gives nothing back. So it conserves what the node has coming and was paid exactly if there is
no such reward (`rollback_conserves_iff`). A distribution always conserves it.
-/

namespace VeriNode

namespace TwoPhase

section Deletion

variable {n key reason : String} {t : NodeStatus} {now : ℕ} {db : TwoPhaseDb} {s s' : State}
  {a : Action} {r : SweepRow}

/-- The row is not one of those that the rollback deletes. -/
def spared (tentative : OrdMap String TentativeRow) (n : String) (x : RewardTx) : Bool :=
  !(tentative.get n).any fun row =>
    row.state = .pending ∧ x.nodeId = n ∧ row.createdAt ≤ x.createdAt

theorem spared_iff {m : OrdMap String TentativeRow} {x : RewardTx} : spared m n x = true
    ↔ ∀ row, m.get n = some row → row.state = .pending → x.nodeId = n →
      x.createdAt < row.createdAt := by
  unfold spared
  rcases m.get n with _ | row
  · simp
  · simp only [Option.any_some, Bool.not_eq_true', decide_eq_false_iff_not, not_and, not_le,
      Option.some.injEq, forall_eq']

theorem execute_rewardTx : (RollbackHandler.execute n key t reason now db).2.speculative.rewardTx
    = db.speculative.rewardTx.filter (spared db.nodeStatusTentative n) := by
  unfold RollbackHandler.execute
  rcases hrow : db.nodeStatusTentative.get n with _ | row
  · exact (List.filter_eq_self.2 fun x _ => by simp [spared, hrow]).symm
  · by_cases hp : row.state = .pending
    · simp only [if_pos hp, RollbackHandler.cascade]
      refine List.filter_congr fun x _ => ?_
      simp only [spared, hrow, Option.any_some, hp, true_and, decide_not]
    · simp only [if_neg hp]
      exact (List.filter_eq_self.2 fun x _ => by simp [spared, hrow, hp]).symm

theorem Move.rolled_rewardTx (h : Move s a s') (hr : RollsRow s a r) :
    s'.db.speculative.rewardTx
      = s.db.speculative.rewardTx.filter (spared s.db.nodeStatusTentative r.nodeId) := by
  obtain ⟨reason, hdb⟩ := h.rolled hr
  rw [hdb, execute_rewardTx]

theorem Move.rewardTx (h : Move s a s')
    (ha : ∀ tables, a = .others tables → tables.rewardTx = s.db.speculative.rewardTx) :
    s'.db.speculative.rewardTx = s.db.speculative.rewardTx ∨ ∃ r, RollsRow s a r := by
  cases h with
  | rolledBack id at' message hc => exact .inr ⟨at'.row, .inl ⟨id, at', message, rfl, hc, rfl⟩⟩
  | forcedBack id row hc => exact .inr ⟨row, .inr (.inl ⟨id, rfl, hc⟩)⟩
  | sweptRow id row rest p k p' k' hc =>
    exact .inr ⟨row, .inr (.inr ⟨id, rest, p, k, rfl, hc⟩)⟩
  | others tables => exact .inl (ha tables rfl)
  | marked id at' hash ok hc =>
    left
    rcases ok
    · rfl
    · rfl
  | _ => exact .inl rfl

theorem Move.rewardTx_filter (h : Move s a s')
    (ha : ∀ tables, a = .others tables → tables.rewardTx = s.db.speculative.rewardTx) :
    ∃ p, s'.db.speculative.rewardTx = s.db.speculative.rewardTx.filter p := by
  rcases h.rewardTx ha with hsame | ⟨r, hr⟩
  · exact ⟨fun _ => true, by rw [hsame, List.filter_true]⟩
  · exact ⟨_, h.rolled_rewardTx hr⟩

end Deletion

end TwoPhase

namespace RewardLedger

open TwoPhase (RollsRow)

section Sums

variable {nodeId n : String} {rows : List LedgerRow}

def paid (nodeId : String) (rows : List LedgerRow) : ℤ :=
  ((rows.filter (·.nodeId = nodeId)).map (·.amount)).sum

theorem worth_eq (nodeId : String) (l : Ledger) : Rewards.worth nodeId l.tables
    = (l.rewardPendingAmounts.get nodeId).getD 0 + paid nodeId l.rewardTx := by
  unfold Rewards.worth paid Ledger.tables
  rw [List.filter_map, List.map_map]
  rfl

theorem paid_split (q : LedgerRow → Bool) : ∀ rows : List LedgerRow,
    paid nodeId rows = paid nodeId (rows.filter q) + paid nodeId (rows.filter fun x => !q x)
  | [] => rfl
  | x :: xs => by
    have ih := paid_split q xs
    unfold paid at ih ⊢
    by_cases hn : x.nodeId = nodeId <;> rcases hq : q x <;> simp [hn, hq, ih] <;> omega

theorem paid_nonneg (hpos : ∀ x ∈ rows, 0 < x.amount) : 0 ≤ paid nodeId rows := by
  refine List.sum_nonneg fun a ha => ?_
  obtain ⟨x, hx, rfl⟩ := List.mem_map.1 ha
  exact (hpos x (List.mem_filter.1 hx).1).le

theorem paid_pos (hpos : ∀ x ∈ rows, 0 < x.amount) {x : LedgerRow} (hx : x ∈ rows) :
    0 < paid x.nodeId rows := by
  obtain ⟨l, r, rfl⟩ := List.append_of_mem hx
  have hl : 0 ≤ paid x.nodeId l :=
    paid_nonneg fun y hy => hpos y (List.mem_append_left _ hy)
  have hr : 0 ≤ paid x.nodeId r :=
    paid_nonneg fun y hy => hpos y (List.mem_append_right _ (List.mem_cons_of_mem _ hy))
  have hx' := hpos x hx
  have heq : paid x.nodeId (l ++ x :: r) = paid x.nodeId l + (x.amount + paid x.nodeId r) := by
    simp [paid]
  omega

theorem paid_filter_iff (hpos : ∀ x ∈ rows, 0 < x.amount) (q : LedgerRow → Bool) :
    (∀ nodeId, paid nodeId (rows.filter q) = paid nodeId rows) ↔ ∀ x ∈ rows, q x = true := by
  constructor
  · intro hsame x hx
    by_contra hq
    have hdel : x ∈ rows.filter fun x => !q x :=
      List.mem_filter.2 ⟨hx, by rw [Bool.eq_false_of_not_eq_true hq]; rfl⟩
    have hlost := paid_pos (fun y hy => hpos y (List.mem_filter.1 hy).1) hdel
    have hsplit : paid x.nodeId rows = paid x.nodeId (rows.filter q)
        + paid x.nodeId (rows.filter fun y => !q y) := paid_split q rows
    have hkept := hsame x.nodeId
    omega
  · intro hall nodeId
    rw [List.filter_eq_self.2 hall]

end Sums

section Steps

variable {o : TwoPhase.Options} {s s' : State} {a : Action} {b : TwoPhase.Action}
  {r : TwoPhase.SweepRow} {h : List (Taken State Action)}

/-- The two systems have the same rewards, and each is worth something. -/
structure Inv (s : State) : Prop where
  coupled : s.twoPhase.db.speculative.rewardTx = s.ledger.rewardTx.map (·.toRewardTx)
  positive : ∀ x ∈ s.ledger.rewardTx, 0 < x.amount

theorem filter_kept (p : RewardTx → Bool) (rows : List LedgerRow) :
    (rows.filter fun x => x.toRewardTx ∈ (rows.map (·.toRewardTx)).filter p)
      = rows.filter fun x => p x.toRewardTx := by
  refine List.filter_congr fun x hx => ?_
  have hmem : x.toRewardTx ∈ rows.map (·.toRewardTx) := List.mem_map_of_mem hx
  rw [Bool.eq_iff_iff, decide_eq_true_eq, List.mem_filter, and_iff_right hmem]

theorem pay_cases (nodeId : String) (createdAt : ℕ) (allocation : Rewards.RewardAllocation)
    (l : Ledger) : pay nodeId createdAt allocation l = l
      ∨ ∃ units : ℕ, ∃ pending, 0 < units ∧ l.rewardPendingAmounts.get nodeId = some pending
        ∧ pay nodeId createdAt allocation l
          = { rewardPendingAmounts := l.rewardPendingAmounts.set nodeId (pending - units)
              rewardTx := l.rewardTx
                ++ [{ nodeId := nodeId, createdAt := createdAt, amount := units }] } := by
  unfold pay
  rcases hp : Decimal.parse 7 allocation.amount with _ | units
  · exact .inl rfl
  · rcases hg : l.rewardPendingAmounts.get nodeId with _ | pending
    · exact .inl rfl
    · simp only []
      split_ifs with hc
      · exact .inr ⟨units, pending, hc.1, rfl, rfl⟩
      · exact .inl rfl

theorem distribute_cases (nodeId : String) (createdAt : ℕ) (l : Ledger) :
    distribute nodeId createdAt l = l
      ∨ ∃ units : ℕ, ∃ pending, 0 < units ∧ l.rewardPendingAmounts.get nodeId = some pending
        ∧ distribute nodeId createdAt l
          = { rewardPendingAmounts := l.rewardPendingAmounts.set nodeId (pending - units)
              rewardTx := l.rewardTx
                ++ [{ nodeId := nodeId, createdAt := createdAt, amount := units }] } := by
  unfold distribute
  rcases Rewards.allocation nodeId (l.pendingText nodeId) with e | _ | allocation
  · exact .inl rfl
  · exact .inl rfl
  · exact pay_cases nodeId createdAt allocation l

theorem distribute_conserves (nodeId : String) (createdAt : ℕ) (l : Ledger) (other : String) :
    Rewards.worth other (distribute nodeId createdAt l).tables = Rewards.worth other l.tables := by
  rcases distribute_cases nodeId createdAt l with hd | ⟨units, pending, -, hg, hd⟩
  · rw [hd]
  · rw [hd, worth_eq, worth_eq, OrdMap.get_set]
    by_cases ho : other = nodeId
    · subst ho
      simp only [if_pos, hg, Option.getD_some, paid, List.filter_append, List.map_append,
        List.sum_append, decide_true, List.filter_cons_of_pos, List.filter_nil, List.map_cons,
        List.map_nil, List.sum_cons, List.sum_nil]
      omega
    · have hne : ¬ nodeId = other := fun he => ho he.symm
      simp [ho, hne, paid]

theorem restrict_others {rows : List RewardTx} {tables : Speculative}
    (h : restrict rows b = .others tables) : tables.rewardTx = rows := by
  cases b with
  | others tables' =>
    cases h
    rfl
  | _ => simp [restrict] at h

theorem restrict_rollsRow {rows : List RewardTx} {t : TwoPhase.State} :
    RollsRow t (restrict rows b) r ↔ RollsRow t b r := by
  cases b <;> simp [restrict, RollsRow, TwoPhase.SweepsRow]

theorem Inv.deleted {p : RewardTx → Bool} {rows : List RewardTx} (hi : Inv s)
    (hp : rows = s.twoPhase.db.speculative.rewardTx.filter p) :
    rows = (s.ledger.rewardTx.filter fun x => p x.toRewardTx).map (·.toRewardTx)
      ∧ (s.ledger.rewardTx.filter fun x => x.toRewardTx ∈ rows)
        = s.ledger.rewardTx.filter fun x => p x.toRewardTx := by
  rw [hi.coupled] at hp
  subst hp
  refine ⟨?_, filter_kept p s.ledger.rewardTx⟩
  rw [List.filter_map]
  rfl

theorem twoPhase_step (hs : step o s (.twoPhase b) = some s') :
    ∃ t, TwoPhase.step o s.twoPhase (restrict s.twoPhase.db.speculative.rewardTx b) = some t
      ∧ s' = { twoPhase := t, ledger := { s.ledger with
        rewardTx := s.ledger.rewardTx.filter fun x =>
          x.toRewardTx ∈ t.db.speculative.rewardTx } } := by
  simp only [step] at hs
  rcases ht : TwoPhase.step o s.twoPhase (restrict s.twoPhase.db.speculative.rewardTx b) with _ | t
  · simp [ht] at hs
  · simp only [ht, Option.some.injEq] at hs
    exact ⟨t, rfl, hs.symm⟩

theorem Inv.two_phase (hi : Inv s) (hs : step o s (.twoPhase b) = some s') : Inv s' := by
  obtain ⟨t, ht, rfl⟩ := twoPhase_step hs
  obtain ⟨p, hp⟩ := (TwoPhase.step_move ht).rewardTx_filter fun tables hb => restrict_others hb
  obtain ⟨hrows, hkept⟩ := hi.deleted hp
  exact ⟨by rw [hrows, ← hrows, hkept, ← hrows],
    fun x hx => hi.positive x (List.mem_filter.1 hx).1⟩

theorem Inv.rolled (hi : Inv s) (hs : step o s (.twoPhase b) = some s')
    (hr : RollsRow s.twoPhase b r) : s'.ledger = { s.ledger with
      rewardTx := s.ledger.rewardTx.filter fun x =>
        TwoPhase.spared s.twoPhase.db.nodeStatusTentative r.nodeId x.toRewardTx } := by
  obtain ⟨t, ht, rfl⟩ := twoPhase_step hs
  rw [(hi.deleted ((TwoPhase.step_move ht).rolled_rewardTx (restrict_rollsRow.2 hr))).2]

theorem Inv.distributed (hi : Inv s) {nodeId : String} {createdAt : ℕ}
    (hs : step o s (.distribute nodeId createdAt) = some s') : Inv s' := by
  simp only [step] at hs
  split_ifs at hs
  · obtain rfl := Option.some.inj hs
    refine ⟨rfl, fun x hx => ?_⟩
    rcases distribute_cases nodeId createdAt s.ledger with hd | ⟨units, pending, hu, -, hd⟩
    · exact hi.positive x (hd ▸ hx)
    · rw [hd] at hx
      rcases List.mem_append.1 hx with hx | hx
      · exact hi.positive x hx
      · obtain rfl := List.mem_singleton.1 hx
        exact Int.natCast_pos.2 hu

theorem inv_run (hr : Run (sys o) h s) : Inv s := by
  refine hr.invariant ?_ fun s a s' hi hs => ?_
  · rintro _ ⟨nodes, now, ledger, hpos, rfl⟩
    exact ⟨rfl, hpos⟩
  · rcases a with b | ⟨nodeId, createdAt⟩
    · exact hi.two_phase (o := o) hs
    · exact hi.distributed (o := o) hs

end Steps

section Rollbacks

variable {o : TwoPhase.Options} {s s' : State} {a : Action} {b : TwoPhase.Action}
  {r : TwoPhase.SweepRow} {h : List (Taken State Action)}

/-- A rollback that claims a row finds no reward of the node as young as the row. -/
def Spares (s : State) (a : Action) : Prop :=
  ∀ b r row x, a = .twoPhase b → RollsRow s.twoPhase b r →
    s.twoPhase.db.nodeStatusTentative.get r.nodeId = some row → row.state = .pending →
    x ∈ s.ledger.rewardTx → x.nodeId = r.nodeId → x.createdAt < row.createdAt

theorem worth_rolled_iff (hi : Inv s) (hs : step o s (.twoPhase b) = some s')
    (hr : RollsRow s.twoPhase b r) :
    (∀ nodeId, Rewards.worth nodeId s'.ledger.tables = Rewards.worth nodeId s.ledger.tables)
      ↔ ∀ x ∈ s.ledger.rewardTx,
        TwoPhase.spared s.twoPhase.db.nodeStatusTentative r.nodeId x.toRewardTx = true := by
  rw [← paid_filter_iff hi.positive, hi.rolled hs hr]
  simp only [worth_eq, add_right_inj]

/-- In every run: all rollbacks conserve what every node has coming and was paid exactly if each
spares the rewards. -/
theorem rollback_conserves_iff (hr : Run (sys o) h s) :
    (∀ t ∈ h, ∀ b r, t.act = .twoPhase b → RollsRow t.pre.twoPhase b r → ∀ nodeId,
        Rewards.worth nodeId t.post.ledger.tables = Rewards.worth nodeId t.pre.ledger.tables)
      ↔ Along Spares h := by
  have hstep : ∀ t ∈ h, ∀ b r, t.act = .twoPhase b → RollsRow t.pre.twoPhase b r →
      ((∀ nodeId,
        Rewards.worth nodeId t.post.ledger.tables = Rewards.worth nodeId t.pre.ledger.tables)
        ↔ ∀ x ∈ t.pre.ledger.rewardTx,
          TwoPhase.spared t.pre.twoPhase.db.nodeStatusTentative r.nodeId x.toRewardTx = true) := by
    intro t ht b r hb hrolls
    obtain ⟨hre, hs⟩ := hr.taken ht
    rw [hb] at hs
    exact hre.elim fun _ hre => worth_rolled_iff (inv_run hre) hs hrolls
  constructor
  · intro hall t ht b r row x hb hrolls hrow hp hx hn
    have hsp := (hstep t ht b r hb hrolls).1 (hall t ht b r hb hrolls) x hx
    exact TwoPhase.spared_iff.1 hsp row hrow hp hn
  · intro hall t ht b r hb hrolls
    refine (hstep t ht b r hb hrolls).2 fun x hx => TwoPhase.spared_iff.2 ?_
    exact fun row hrow hp hn => hall t ht b r row x hb hrolls hrow hp hx hn

/-- A test for `Spares`: at a rollback, every reward is older than a pending row of its node. -/
def spares (s : State) : Action → Bool
  | .twoPhase (.rollback _) | .twoPhase (.forceRollback _) | .twoPhase (.sweepNext _) =>
    s.ledger.rewardTx.all fun x =>
      TwoPhase.spared s.twoPhase.db.nodeStatusTentative x.nodeId x.toRewardTx
  | _ => true

theorem spares_of (h : spares s a = true) : Spares s a := by
  rintro b r row x rfl hr hrow hp hx hn
  have hall : s.ledger.rewardTx.all (fun x =>
      TwoPhase.spared s.twoPhase.db.nodeStatusTentative x.nodeId x.toRewardTx) = true := by
    rcases hr with ⟨id, at', message, rfl, -⟩ | ⟨id, rfl, -⟩ | ⟨id, rest, p, k, rfl, -⟩
    · exact h
    · exact h
    · exact h
  exact TwoPhase.spared_iff.1 (List.all_eq_true.1 hall x hx) row (hn ▸ hrow) hp rfl

/-- A provisioned node with twelve and a half pending. -/
def pendingNode : State where
  twoPhase := { db := { nodeStatus := OrdMap.empty.set "n" ⟨.provisioned, 0⟩ } }
  ledger := { rewardPendingAmounts := OrdMap.empty.set "n" 125000000 }

theorem init_pendingNode (o : TwoPhase.Options) : (sys o).init pendingNode :=
  ⟨_, 0, pendingNode.ledger, by simp [pendingNode], rfl⟩

/-- The reward is distributed before the attempt that is rolled back, and stays. -/
theorem rollback_conserves_iff_kept : ∃ h s, Run (sys { sha256 := id }) h s
    ∧ TwoPhase.Logged s.twoPhase "n:7:x"
    ∧ s.ledger.rewardTx = [{ nodeId := "n", createdAt := 0, amount := 125000000 }]
    ∧ ∀ t ∈ h, ∀ b r, t.act = .twoPhase b → RollsRow t.pre.twoPhase b r → ∀ nodeId,
      Rewards.worth nodeId t.post.ledger.tables = Rewards.worth nodeId t.pre.ledger.tables := by
  obtain ⟨h, s, hr, hp⟩ := Sys.exists_run (init_pendingNode { sha256 := id })
    [.distribute "n" 0, .twoPhase (.tick 1), .twoPhase (.transition "n" .pending),
      .twoPhase (.phase1 0 "7" "x"), .twoPhase (.contractAnswered 0 (.returned "h" false none)),
      .twoPhase (.rollback 0)]
    (p := fun x => decide (TwoPhase.Logged x.2.twoPhase "n:7:x"
        ∧ x.2.ledger.rewardTx = [{ nodeId := "n", createdAt := 0, amount := 125000000 }])
      && x.1.all fun t => spares t.pre t.act) (by decide +kernel)
  simp only [Bool.and_eq_true, decide_eq_true_eq, List.all_eq_true] at hp
  exact ⟨h, s, hr, hp.1.1, hp.1.2,
    (rollback_conserves_iff hr).2 fun t ht => spares_of (hp.2 t ht)⟩

/-- The reward is distributed while the attempt waits for its contract call, which fails: the
rollback deletes it, and it is nowhere. -/
theorem rollback_destroys_reward : ∃ h s t b r, Run (sys { sha256 := id }) h s ∧ t ∈ h
    ∧ t.act = .twoPhase b ∧ RollsRow t.pre.twoPhase b r
    ∧ Rewards.worth "n" t.pre.ledger.tables = 125000000
    ∧ Rewards.worth "n" t.post.ledger.tables = 0 := by
  have he : ∃ s₁ s₂ h, (sys { sha256 := id }).exec pendingNode []
      [.twoPhase (.transition "n" .pending), .twoPhase (.phase1 0 "7" "x"), .distribute "n" 0,
        .twoPhase (.contractAnswered 0 (.returned "h" false none)), .twoPhase (.rollback 0)]
      = some (⟨s₁, .twoPhase (.rollback 0), s₂⟩ :: h, s₂)
      ∧ s₁.twoPhase.calls.get 0 = some (.rollingBack ⟨"n", .provisioned, .pending, "n:7:x"⟩
        "Contract rejected the transaction")
      ∧ Rewards.worth "n" s₁.ledger.tables = 125000000
      ∧ Rewards.worth "n" s₂.ledger.tables = 0 :=
    ⟨_, _, _, rfl, rfl, rfl, rfl⟩
  obtain ⟨s₁, s₂, h, he, hc, hpre, hpost⟩ := he
  have hr := Sys.run_of_exec (Run.start (init_pendingNode { sha256 := id })) he
  exact ⟨_, s₂, _, _, _, hr, List.mem_cons_self, rfl, .inl ⟨0, _, _, rfl, hc, rfl⟩, hpre, hpost⟩

end Rollbacks

section Parts

variable {o : TwoPhase.Options} {s s' : State} {a : Action} {h : List (Taken State Action)}
  {nodeId : String} {n : ℕ} {hashtext : String → ℤ}

theorem twoPhase_reachable (hr : Run (sys o) h s) : (TwoPhase.sys o).Reachable s.twoPhase := by
  refine hr.invariant (P := fun s => (TwoPhase.sys o).Reachable s.twoPhase) ?_
    fun s a s' hi hs => ?_
  · rintro _ ⟨nodes, now, ledger, -, rfl⟩
    have hinit : (TwoPhase.sys o).init { db := { nodeStatus := nodes }, now := now } :=
      ⟨nodes, now, rfl⟩
    exact Sys.Reachable.step (a := .others { rewardTx := ledger.rewardTx.map (·.toRewardTx) })
      (Run.start hinit).reachable rfl
  · rcases a with b | ⟨nodeId, createdAt⟩
    · obtain ⟨t, ht, rfl⟩ := twoPhase_step hs
      exact hi.step ht
    · have hs' : step o s (.distribute nodeId createdAt) = some s' := hs
      simp only [step] at hs'
      split_ifs at hs'
      · obtain rfl := Option.some.inj hs'
        exact hi.step (a := .others { s.twoPhase.db.speculative with
          rewardTx := (distribute nodeId createdAt s.ledger).rewardTx.map (·.toRewardTx) }) rfl

end Parts

end RewardLedger

end VeriNode
