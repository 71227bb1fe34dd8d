import VeriNode.State.Controller

/-!
# What a step of the two-phase protocol can do

Every step is one of the moves below (`step_move`), with what its call stood at. Keys are never
made twice, so a key names one attempt for good; every call and every tentative row carries a key
that was issued, with the node and the target it was issued for (`Linked`).
-/

namespace VeriNode

namespace TwoPhase

section Moves

/-- Where `resolveTentative` stands with the row it read. -/
def Resolution.call (resolution : Resolution) (row : SweepRow) : Call :=
  match resolution with
  | .commit => .forceCommitting row
  | .rollback => .forceRollingBack row

/-- What a step may do, with what lets it. -/
inductive Move (s : State) : Action → State → Prop
  | refused (n : String) (t : NodeStatus) (message : String) :
      Move s (.transition n t) (s.startFinished (.threw message))
  | noRow (n : String) (resolution : Resolution) :
      Move s (.resolveTentative n resolution) (s.startFinished (.resolve ⟨false, .noPendingRow⟩))
  | checked (n : String) (p t : NodeStatus) : fetchCommittedStatus s.db n = some p →
      t ∈ validTransitions p → Move s (.transition n t) (s.start (.inserting n p t))
  | conflicted (id : ℕ) (seq nonce n : String) (p t : NodeStatus) :
      s.calls.get id = some (.inserting n p t) →
      Move s (.phase1 id seq nonce) (s.goOn id (.conflicted n))
  | inserted (id : ℕ) (seq nonce n key : String) (p t : NodeStatus) :
      s.calls.get id = some (.inserting n p t) → s.issued.get key = none →
      (∀ row, s.db.nodeStatusTentative.get n = some row → row.state ≠ .pending) →
      Move s (.phase1 id seq nonce) ({ s with
        db := { s.db with
          nodeStatusTentative := s.db.nodeStatusTentative.set n
            { targetStatus := t, idempotencyKey := key, state := .pending, createdAt := s.now,
              expiresAt := s.now + tentativeTtl } }
        issued := s.issued.set key ⟨n, p, t, key⟩ }.goOn id (.calling ⟨n, p, t, key⟩))
  | conflictRead (id : ℕ) (n message : String) : s.calls.get id = some (.conflicted n) →
      Move s (.readConflict id) (s.finish id (.threw message))
  | confirmed (id : ℕ) (answer : ContractAnswer) (a : Attempt) (hash : String) :
      s.calls.get id = some (.calling a) → answer.outcome = .ok hash →
      Move s (.contractAnswered id answer) (s.goOn id (.committing a hash 1))
  | failed (id : ℕ) (answer : ContractAnswer) (a : Attempt) (message : String) :
      s.calls.get id = some (.calling a) → answer.outcome = .error message →
      Move s (.contractAnswered id answer) (s.goOn id (.rollingBack a message))
  | committed (id : ℕ) (a : Attempt) (hash : String) (k : ℕ) :
      s.calls.get id = some (.committing a hash k) →
      Move s (.commit id true)
        ({ s with db := commitTx a.nodeId a.targetStatus s.now s.db }.finish id
          (.transition (a.result (some hash) true false)))
  | retried (id : ℕ) (a : Attempt) (hash : String) (k : ℕ) :
      s.calls.get id = some (.committing a hash k) →
      Move s (.commit id false) (s.goOn id (.committing a hash (k + 1)))
  | exhausted (id : ℕ) (a : Attempt) (hash : String) (k : ℕ) :
      s.calls.get id = some (.committing a hash k) →
      Move s (.commit id false) (s.goOn id (.marking a hash))
  | marked (id : ℕ) (a : Attempt) (hash : String) (ok : Bool) :
      s.calls.get id = some (.marking a hash) →
      Move s (.mark id ok)
        ({ s with db := if ok then markCommitFailed a.nodeId s.db else s.db }.finish id
          (.transition (a.result (some hash) false false)))
  | rolledBack (id : ℕ) (a : Attempt) (message : String) :
      s.calls.get id = some (.rollingBack a message) →
      Move s (.rollback id)
        ({ s with db := (RollbackHandler.execute a.nodeId a.idempotencyKey a.targetStatus message
            s.now s.db).2 }.finish id (.transition (a.result none false true)))
  | read (n : String) (resolution : Resolution) (row : TentativeRow) :
      s.db.nodeStatusTentative.get n = some row → row.state = .pending →
      Move s (.resolveTentative n resolution)
        (s.start (resolution.call ⟨n, row.idempotencyKey, row.targetStatus⟩))
  | forced (id : ℕ) (row : SweepRow) : s.calls.get id = some (.forceCommitting row) →
      Move s (.forceCommit id)
        ({ s with db := forceCommitTx row.nodeId row.targetStatus s.now s.db }.finish id
          (.resolve ⟨true, .committed⟩))
  | forcedBack (id : ℕ) (row : SweepRow) : s.calls.get id = some (.forceRollingBack row) →
      Move s (.forceRollback id)
        ({ s with db := (RollbackHandler.execute row.nodeId row.idempotencyKey row.targetStatus
            adminRollbackReason s.now s.db).2 }.finish id (.resolve ⟨true, .rolledBack⟩))
  | selected (locked : List String) (rows : List SweepRow) :
      (∀ r ∈ rows, ∃ row, s.db.nodeStatusTentative.get r.nodeId = some row
        ∧ row.idempotencyKey = r.idempotencyKey ∧ row.targetStatus = r.targetStatus) →
      Move s (.sweep locked) (s.start (.sweeping rows 0 0))
  | swept (id : ℕ) (p k : ℕ) : s.calls.get id = some (.sweeping [] p k) →
      Move s (.sweepNext id) (s.finish id (.sweep p k))
  | sweptRow (id : ℕ) (row : SweepRow) (rest : List SweepRow) (p k p' k' : ℕ) :
      s.calls.get id = some (.sweeping (row :: rest) p k) →
      Move s (.sweepNext id)
        ({ s with db := (RollbackHandler.execute row.nodeId row.idempotencyKey row.targetStatus
            sweepReason s.now s.db).2 }.goOn id (.sweeping rest p' k'))
  | aborted (id : ℕ) (call : Call) : s.calls.get id = some call →
      Move s (.abort id) { s with calls := s.calls.delete id }
  | ticked (ms : ℕ) : Move s (.tick ms) { s with now := s.now + ms }
  | others (tables : Speculative) :
      Move s (.others tables) { s with db := { s.db with speculative := tables } }

variable {o : Options} {s s' : State}

theorem transition_move (n : String) (t : NodeStatus) :
    Move s (.transition n t) (transition n t s) := by
  unfold transition
  split
  · exact .refused n t _
  · split_ifs with h
    · rename_i p hp
      exact .checked n p t hp h
    · exact .refused n t _

theorem phase1_move {id : ℕ} {n key : String} {p t : NodeStatus} (seq nonce : String)
    (hc : s.calls.get id = some (.inserting n p t)) (hk : s.issued.get key = none) :
    Move s (.phase1 id seq nonce) (phase1 id ⟨n, p, t, key⟩ s) := by
  unfold phase1 insertTentative
  split_ifs with h
  · exact .conflicted id seq nonce n p t hc
  · refine .inserted id seq nonce n key p t hc hk fun row hrow hp => h ?_
    simp [hrow, hp]

theorem resolveTentative_move (n : String) (resolution : Resolution) :
    Move s (.resolveTentative n resolution) (resolveTentative n resolution s) := by
  unfold resolveTentative
  split
  · exact .noRow n resolution
  · rename_i row hrow
    split_ifs with h
    · exact .noRow n resolution
    · have hp : row.state = .pending := not_not.1 h
      rcases resolution with _ | _
      · exact .read n .commit row hrow hp
      · exact .read n .rollback row hrow hp

theorem mem_sweepSelect {size now : ℕ} {locked : List String} {db : TwoPhaseDb} {r : SweepRow}
    (h : r ∈ sweepSelect size now locked db) :
    ∃ row, db.nodeStatusTentative.get r.nodeId = some row
      ∧ row.idempotencyKey = r.idempotencyKey ∧ row.targetStatus = r.targetStatus := by
  simp only [sweepSelect, List.mem_map] at h
  obtain ⟨e, he, rfl⟩ := h
  have hm := List.mem_of_mem_take he
  rw [List.mem_insertionSort, List.mem_filter] at hm
  exact ⟨e.2, OrdMap.mem_entries_iff.1 hm.1, rfl, rfl⟩

theorem sweepNext_move {id : ℕ} {rows : List SweepRow} {p k : ℕ}
    (hc : s.calls.get id = some (.sweeping rows p k)) :
    Move s (.sweepNext id) (sweepNext id rows p k s) := by
  unfold sweepNext
  rcases rows with _ | ⟨row, rest⟩
  · exact .swept id p k hc
  · simp only []
    split_ifs
    · exact .sweptRow id row rest p k _ _ hc
    · exact .sweptRow id row rest p k _ _ hc

/-- Every step is a move. -/
theorem step_move {a : Action} (h : step o s a = some s') : Move s a s' := by
  rcases a with ⟨n, t⟩ | ⟨id, seq, nonce⟩ | id | ⟨id, answer⟩ | ⟨id, ok⟩ | ⟨id, ok⟩ | id | ⟨n, res⟩ |
    id | id | locked | id | id | ms | tables <;> simp only [step] at h
  · cases h
    exact transition_move n t
  · split at h
    · rename_i n p t hc
      split_ifs at h with hk
      cases h
      exact phase1_move seq nonce hc (OrdMap.has_eq_false_iff.1 (by simpa using hk))
    · cases h
  · split at h
    · cases h
      exact .conflictRead id _ _ (by assumption)
    · cases h
  · split at h
    · rename_i a hc
      cases h
      unfold contractAnswered
      split
      · rename_i hash ho
        exact .confirmed id answer a hash hc ho
      · rename_i message ho
        exact .failed id answer a message hc ho
    · cases h
  · split at h
    · rename_i a hash k hc
      cases h
      unfold commit
      rcases ok with _ | _
      · simp only [Bool.false_eq_true, if_false]
        split_ifs
        · exact .retried id a hash k hc
        · exact .exhausted id a hash k hc
      · exact .committed id a hash k hc
    · cases h
  · split at h
    · rename_i a hash hc
      cases h
      exact .marked id a hash ok hc
    · cases h
  · split at h
    · rename_i a message hc
      cases h
      exact .rolledBack id a message hc
    · cases h
  · cases h
    exact resolveTentative_move n res
  · split at h
    · rename_i row hc
      cases h
      exact .forced id row hc
    · cases h
  · split at h
    · rename_i row hc
      cases h
      exact .forcedBack id row hc
    · cases h
  · cases h
    exact .selected locked _ fun r hr => mem_sweepSelect hr
  · split at h
    · rename_i rows p k hc
      cases h
      exact sweepNext_move hc
    · cases h
  · split_ifs at h with hc
    obtain ⟨call, hcall⟩ := OrdMap.has_iff.1 hc
    cases h
    exact .aborted id call hcall
  · cases h
    exact .ticked ms
  · cases h
    exact .others tables

end Moves

section Tables

variable {s s' : State} {a : Action}

theorem get_updateStatus (n n' : String) (t : NodeStatus) (now : ℕ)
    (m : OrdMap String NodeStatusRow) :
    (updateStatus n t now m).get n'
      = if n' = n then (m.get n').map fun _ => ⟨t, now⟩ else m.get n' := by
  unfold updateStatus
  split
  · split_ifs with h
    · subst h
      simp_all
    · rfl
  · rw [OrdMap.get_set]
    split_ifs with h
    · subst h
      simp_all
    · rfl

theorem get_updateTentative (n n' : String) (f : TentativeRow → TentativeRow)
    (m : OrdMap String TentativeRow) :
    (updateTentative n f m).get n' = if n' = n then (m.get n').map f else m.get n' := by
  unfold updateTentative
  split
  · split_ifs with h
    · subst h
      simp_all
    · rfl
  · rw [OrdMap.get_set]
    split_ifs with h
    · subst h
      simp_all
    · rfl

/-- What a rollback does to the row of its node. -/
def rollRow (reason : String) (now : ℕ) (row : TentativeRow) : TentativeRow :=
  if row.state = .pending then
    { row with state := .rolledBack, errorDetail := some reason, resolvedAt := some now }
  else row

theorem execute_tentative (n key : String) (t : NodeStatus) (reason : String) (now : ℕ)
    (db : TwoPhaseDb) (n' : String) :
    (RollbackHandler.execute n key t reason now db).2.nodeStatusTentative.get n'
      = if n' = n then (db.nodeStatusTentative.get n').map (rollRow reason now)
        else db.nodeStatusTentative.get n' := by
  unfold RollbackHandler.execute
  rcases hrow : db.nodeStatusTentative.get n with _ | row
  · split_ifs with h
    · rw [h, hrow]
      rfl
    · rfl
  · simp only []
    by_cases hp : row.state = .pending
    · simp only [if_pos hp]
      rw [OrdMap.get_set]
      split_ifs with h
      · rw [h, hrow]
        simp [rollRow, hp]
      · rfl
    · simp only [if_neg hp]
      split_ifs with h
      · rw [h, hrow]
        simp [rollRow, hp]
      · rfl

theorem execute_nodeStatus (n key : String) (t : NodeStatus) (reason : String) (now : ℕ)
    (db : TwoPhaseDb) :
    (RollbackHandler.execute n key t reason now db).2.nodeStatus = db.nodeStatus := by
  unfold RollbackHandler.execute
  split
  · rfl
  · split_ifs <;> rfl

theorem execute_log (n key : String) (t : NodeStatus) (reason : String) (now : ℕ)
    (db : TwoPhaseDb) (k : String) :
    (∃ r ∈ (RollbackHandler.execute n key t reason now db).2.twoPhaseRollbackLog,
        r.idempotencyKey = k)
      ↔ (∃ r ∈ db.twoPhaseRollbackLog, r.idempotencyKey = k)
        ∨ (k = key ∧ ∃ row, db.nodeStatusTentative.get n = some row ∧ row.state = .pending) := by
  unfold RollbackHandler.execute
  rcases hrow : db.nodeStatusTentative.get n with _ | row
  · simp
  · by_cases hp : row.state = .pending
    · simp [hp, or_and_right, exists_or, eq_comm]
    · simp [hp]

theorem Move.nodeStatus (h : Move s a s') :
    s'.db.nodeStatus = s.db.nodeStatus
      ∨ (∃ id at' hash k, a = .commit id true ∧ s.calls.get id = some (.committing at' hash k)
        ∧ s'.db.nodeStatus = updateStatus at'.nodeId at'.targetStatus s.now s.db.nodeStatus)
      ∨ ∃ id row, a = .forceCommit id ∧ s.calls.get id = some (.forceCommitting row)
        ∧ s'.db.nodeStatus = updateStatus row.nodeId row.targetStatus s.now s.db.nodeStatus := by
  cases h with
  | committed id at' hash k hc => exact .inr (.inl ⟨id, at', hash, k, rfl, hc, rfl⟩)
  | forced id row hc => exact .inr (.inr ⟨id, row, rfl, hc, rfl⟩)
  | marked id at' hash ok hc =>
    left
    rcases ok with _ | _ <;> rfl
  | rolledBack id at' message hc => exact .inl (execute_nodeStatus _ _ _ _ _ _)
  | forcedBack id row hc => exact .inl (execute_nodeStatus _ _ _ _ _ _)
  | sweptRow id row rest p k p' k' hc => exact .inl (execute_nodeStatus _ _ _ _ _ _)
  | _ => exact .inl rfl

/-- The rows are the same, with their keys and targets. -/
def Rewrites (m m' : OrdMap String TentativeRow) : Prop :=
  ∃ f : String → TentativeRow → TentativeRow,
    (∀ n row, (f n row).idempotencyKey = row.idempotencyKey
      ∧ (f n row).targetStatus = row.targetStatus)
    ∧ ∀ n, m'.get n = (m.get n).map (f n)

theorem rewrites_refl (m : OrdMap String TentativeRow) : Rewrites m m :=
  ⟨fun _ row => row, fun _ _ => ⟨rfl, rfl⟩, fun n => by simp⟩

theorem rewrites_at {m m' : OrdMap String TentativeRow} {n₀ : String}
    {g : TentativeRow → TentativeRow} (hg : ∀ row, (g row).idempotencyKey = row.idempotencyKey
      ∧ (g row).targetStatus = row.targetStatus)
    (hm : ∀ n, m'.get n = if n = n₀ then (m.get n).map g else m.get n) : Rewrites m m' := by
  refine ⟨fun n row => if n = n₀ then g row else row, fun n row => ?_, fun n => ?_⟩
  · by_cases h : n = n₀
    · simp only [if_pos h]
      exact hg row
    · simp only [if_neg h, and_self]
  · rw [hm n]
    by_cases h : n = n₀
    · simp only [if_pos h]
    · simp only [if_neg h, Option.map_id']

theorem rewrites_updateTentative (m : OrdMap String TentativeRow) (n : String)
    {g : TentativeRow → TentativeRow} (hg : ∀ row, (g row).idempotencyKey = row.idempotencyKey
      ∧ (g row).targetStatus = row.targetStatus) : Rewrites m (updateTentative n g m) :=
  rewrites_at hg fun n' => get_updateTentative n n' g m

theorem rewrites_execute (n key : String) (t : NodeStatus) (reason : String) (now : ℕ)
    (db : TwoPhaseDb) : Rewrites db.nodeStatusTentative
      (RollbackHandler.execute n key t reason now db).2.nodeStatusTentative := by
  refine rewrites_at (fun row => ?_) (execute_tentative n key t reason now db)
  unfold rollRow
  split_ifs <;> exact ⟨rfl, rfl⟩

theorem Move.tentative (h : Move s a s') :
    Rewrites s.db.nodeStatusTentative s'.db.nodeStatusTentative
      ∨ ∃ id seq nonce n p t key, a = .phase1 id seq nonce
        ∧ s.calls.get id = some (.inserting n p t) ∧ s.issued.get key = none
        ∧ s'.issued = s.issued.set key ⟨n, p, t, key⟩
        ∧ s'.db.nodeStatusTentative = s.db.nodeStatusTentative.set n
          { targetStatus := t, idempotencyKey := key, state := .pending, createdAt := s.now,
            expiresAt := s.now + tentativeTtl } := by
  cases h with
  | inserted id seq nonce n key p t hc hk hn =>
    exact .inr ⟨id, seq, nonce, n, p, t, key, rfl, hc, hk, rfl, rfl⟩
  | committed id at' hash k hc => exact .inl (rewrites_updateTentative _ _ fun _ => ⟨rfl, rfl⟩)
  | forced id row hc => exact .inl (rewrites_updateTentative _ _ fun _ => ⟨rfl, rfl⟩)
  | marked id at' hash ok hc =>
    left
    rcases ok with _ | _
    · exact rewrites_refl _
    · refine rewrites_updateTentative _ at'.nodeId fun row => ?_
      split_ifs <;> exact ⟨rfl, rfl⟩
  | rolledBack id at' message hc => exact .inl (rewrites_execute _ _ _ _ _ _)
  | forcedBack id row hc => exact .inl (rewrites_execute _ _ _ _ _ _)
  | sweptRow id row rest p k p' k' hc => exact .inl (rewrites_execute _ _ _ _ _ _)
  | _ => exact .inl (rewrites_refl _)

end Tables

section Linked

/-- What a call or a sweep carries of a tentative row. -/
def Attempt.row (a : Attempt) : SweepRow := ⟨a.nodeId, a.idempotencyKey, a.targetStatus⟩

/-- The key was issued, for the node and the target. -/
def Known (issued : OrdMap String Attempt) (r : SweepRow) : Prop :=
  ∃ a, issued.get r.idempotencyKey = some a ∧ a.row = r

/-- The call carries what was issued. -/
def CallOk (issued : OrdMap String Attempt) : Call → Prop
  | .inserting _ p t => t ∈ validTransitions p
  | .conflicted _ => True
  | .calling a => issued.get a.idempotencyKey = some a
  | .committing a _ _ => issued.get a.idempotencyKey = some a
  | .marking a _ => issued.get a.idempotencyKey = some a
  | .rollingBack a _ => issued.get a.idempotencyKey = some a
  | .forceCommitting r => Known issued r
  | .forceRollingBack r => Known issued r
  | .sweeping rows _ _ => ∀ r ∈ rows, Known issued r

/-- Calls and rows carry what was issued; what was issued is an edge of the state machine, for a
node that is there. -/
structure Linked (s : State) : Prop where
  issued : ∀ key a, s.issued.get key = some a → a.idempotencyKey = key
    ∧ a.targetStatus ∈ validTransitions a.previousStatus
    ∧ ∃ row, s.db.nodeStatus.get a.nodeId = some row
  inserting : ∀ id n p t, s.calls.get id = some (.inserting n p t) →
    ∃ row, s.db.nodeStatus.get n = some row
  rows : ∀ n row, s.db.nodeStatusTentative.get n = some row →
    Known s.issued ⟨n, row.idempotencyKey, row.targetStatus⟩
  calls : ∀ id call, s.calls.get id = some call → CallOk s.issued call
  fresh : ∀ id, s.nextId ≤ id → s.calls.get id = none ∧ s.answers.get id = none
  open_ : ∀ id call, s.calls.get id = some call → s.answers.get id = none

variable {o : Options} {s s' : State} {a : Action}

theorem Known.mono {issued issued' : OrdMap String Attempt} {r : SweepRow} (h : Known issued r)
    (hi : ∀ key a, issued.get key = some a → issued'.get key = some a) : Known issued' r := by
  obtain ⟨a, ha, hr⟩ := h
  exact ⟨a, hi _ _ ha, hr⟩

theorem CallOk.mono {issued issued' : OrdMap String Attempt} {call : Call}
    (h : CallOk issued call)
    (hi : ∀ key a, issued.get key = some a → issued'.get key = some a) : CallOk issued' call := by
  cases call with
  | inserting _ _ _ => exact h
  | conflicted _ => exact h
  | calling _ => exact hi _ _ h
  | committing _ _ _ => exact hi _ _ h
  | marking _ _ => exact hi _ _ h
  | rollingBack _ _ => exact hi _ _ h
  | forceCommitting _ => exact Known.mono h hi
  | forceRollingBack _ => exact Known.mono h hi
  | sweeping _ _ _ => exact fun r hr => (h r hr).mono hi

theorem get_goOn (id id' : ℕ) (call : Call) :
    (s.goOn id call).calls.get id' = if id' = id then some call else s.calls.get id' :=
  OrdMap.get_set _ _ _ _

theorem get_finish (id id' : ℕ) (answer : Answer) :
    (s.finish id answer).calls.get id' = if id' = id then none else s.calls.get id' :=
  OrdMap.get_delete _ _ _

theorem get_start (id' : ℕ) (call : Call) :
    (s.start call).calls.get id' = if id' = s.nextId then some call else s.calls.get id' :=
  OrdMap.get_set _ _ _ _

theorem Move.issued (h : Move s a s') {key : String} {at' : Attempt}
    (hk : s.issued.get key = some at') : s'.issued.get key = some at' := by
  cases h with
  | inserted id seq nonce n key' p t hc hn hp =>
    refine (OrdMap.get_set_of_ne _ _ ?_).trans hk
    rintro rfl
    rw [hn] at hk
    cases hk
  | _ => exact hk

theorem Move.nodes (h : Move s a s') {n : String}
    (hn : ∃ row, s.db.nodeStatus.get n = some row) : ∃ row, s'.db.nodeStatus.get n = some row := by
  obtain ⟨row, hrow⟩ := hn
  have hup : ∀ n' t now, ∃ row', (updateStatus n' t now s.db.nodeStatus).get n = some row' := by
    intro n' t now
    rw [get_updateStatus]
    split_ifs
    · exact ⟨_, by rw [hrow]; rfl⟩
    · exact ⟨row, hrow⟩
  rcases h.nodeStatus with h | ⟨-, at', -, -, -, -, h⟩ | ⟨-, r, -, -, h⟩ <;> rw [h]
  · exact ⟨row, hrow⟩
  · exact hup _ _ _
  · exact hup _ _ _

/-- A call is where it was, or stands at a place that carries what was issued. -/
theorem Move.call (h : Move s a s') (hl : Linked s) {id : ℕ} {call : Call}
    (hc : s'.calls.get id = some call) :
    s.calls.get id = some call ∨ (CallOk s'.issued call
      ∧ ∀ n p t, call = .inserting n p t → ∃ row, s.db.nodeStatus.get n = some row) := by
  have hset : ∀ {s₀ : State} {id₀ : ℕ} {call₀ : Call}, s₀.calls = s.calls →
      (s₀.goOn id₀ call₀).calls.get id = some call → CallOk s'.issued call₀ →
      (∀ n p t, call₀ ≠ .inserting n p t) → s.calls.get id = some call ∨ (CallOk s'.issued call
        ∧ ∀ n p t, call = .inserting n p t → ∃ row, s.db.nodeStatus.get n = some row) := by
    intro s₀ id₀ call₀ h₀ hget hok hne
    rcases OrdMap.of_get_set hget with ⟨-, rfl⟩ | ⟨-, hget⟩
    · exact .inr ⟨hok, fun n p t he => absurd he (hne n p t)⟩
    · exact .inl (h₀ ▸ hget)
  have hdel : ∀ {id₀ : ℕ}, (s.calls.delete id₀).get id = some call →
      s.calls.get id = some call := fun hget => (OrdMap.of_get_delete hget).2
  cases h with
  | refused => exact .inl hc
  | noRow => exact .inl hc
  | checked n p t hp ht =>
    rcases OrdMap.of_get_set hc with ⟨-, rfl⟩ | ⟨-, hc⟩
    · refine .inr ⟨ht, fun n' p' t' he => ?_⟩
      cases he
      obtain ⟨row, hrow, -⟩ := Option.map_eq_some_iff.1 hp
      exact ⟨row, hrow⟩
    · exact .inl hc
  | conflicted => exact hset rfl hc trivial (by simp)
  | inserted id' seq nonce n key p t hc' hk hn =>
    exact hset rfl hc (OrdMap.get_set_self _ _ _) (by simp)
  | conflictRead => exact .inl (hdel hc)
  | confirmed id' answer at' hash hc' _ =>
    have hok := hl.calls _ _ hc'
    exact hset rfl hc hok (by simp)
  | failed id' answer at' message hc' _ =>
    have hok := hl.calls _ _ hc'
    exact hset rfl hc hok (by simp)
  | committed => exact .inl (hdel hc)
  | retried id' at' hash k hc' =>
    have hok := hl.calls _ _ hc'
    exact hset rfl hc hok (by simp)
  | exhausted id' at' hash k hc' =>
    have hok := hl.calls _ _ hc'
    exact hset rfl hc hok (by simp)
  | marked => exact .inl (hdel hc)
  | rolledBack => exact .inl (hdel hc)
  | read n res row hrow hp =>
    rcases OrdMap.of_get_set hc with ⟨-, rfl⟩ | ⟨-, hc⟩
    · have hk := hl.rows n row hrow
      rcases res with _ | _
      · exact .inr ⟨hk, by simp [Resolution.call]⟩
      · exact .inr ⟨hk, by simp [Resolution.call]⟩
    · exact .inl hc
  | forced => exact .inl (hdel hc)
  | forcedBack => exact .inl (hdel hc)
  | selected locked rows hrows =>
    rcases OrdMap.of_get_set hc with ⟨-, rfl⟩ | ⟨-, hc⟩
    · refine .inr ⟨fun r hr => ?_, by simp⟩
      obtain ⟨row, hrow, hk, ht⟩ := hrows r hr
      have := hl.rows _ row hrow
      rwa [hk, ht] at this
    · exact .inl hc
  | swept => exact .inl (hdel hc)
  | sweptRow id' row rest p k p' k' hc' =>
    refine hset rfl hc (fun r hr => ?_) (by simp)
    exact hl.calls _ _ hc' r (List.mem_cons_of_mem _ hr)
  | aborted => exact .inl (hdel hc)
  | ticked => exact .inl hc
  | others => exact .inl hc

theorem Linked.numbered (hl : Linked s) : OrdMap.Numbered s.nextId s.calls s.answers :=
  ⟨hl.fresh, hl.open_⟩

theorem Move.numbered (h : Move s a s') (hn : OrdMap.Numbered s.nextId s.calls s.answers) :
    OrdMap.Numbered s'.nextId s'.calls s'.answers := by
  cases h with
  | refused => exact hn.startFinished _
  | noRow => exact hn.startFinished _
  | checked => exact hn.start _
  | conflicted _ _ _ _ _ _ hc => exact hn.goOn hc _
  | inserted _ _ _ _ _ _ _ hc => exact hn.goOn hc _
  | conflictRead _ _ _ hc => exact hn.finish hc _
  | confirmed _ _ _ _ hc => exact hn.goOn hc _
  | failed _ _ _ _ hc => exact hn.goOn hc _
  | committed _ _ _ _ hc => exact hn.finish hc _
  | retried _ _ _ _ hc => exact hn.goOn hc _
  | exhausted _ _ _ _ hc => exact hn.goOn hc _
  | marked _ _ _ _ hc => exact hn.finish hc _
  | rolledBack _ _ _ hc => exact hn.finish hc _
  | read => exact hn.start _
  | forced _ _ hc => exact hn.finish hc _
  | forcedBack _ _ hc => exact hn.finish hc _
  | selected => exact hn.start _
  | swept _ _ _ hc => exact hn.finish hc _
  | sweptRow _ _ _ _ _ _ _ hc => exact hn.goOn hc _
  | aborted id _ _ => exact hn.abort id
  | ticked => exact hn
  | others => exact hn

theorem Linked.move (hl : Linked s) (h : Move s a s') : Linked s' := by
  obtain ⟨hf, ho⟩ := h.numbered hl.numbered
  refine ⟨fun key at' hk => ?_, fun id n p t hc => ?_, fun n row hrow => ?_, fun id call hc => ?_,
    hf, ho⟩
  · have hold : s.issued.get key = some at' ∨ ∃ id n p t, s.calls.get id = some (.inserting n p t)
        ∧ at' = ⟨n, p, t, key⟩ := by
      cases h with
      | inserted id seq nonce n key' p t hc hn hp =>
        rcases OrdMap.of_get_set hk with ⟨rfl, rfl⟩ | ⟨-, hk⟩
        · exact .inr ⟨id, n, p, t, hc, rfl⟩
        · exact .inl hk
      | _ => exact .inl hk
    rcases hold with hold | ⟨id, n, p, t, hc, rfl⟩
    · obtain ⟨h1, h2, h3⟩ := hl.issued key at' hold
      exact ⟨h1, h2, h.nodes h3⟩
    · exact ⟨rfl, hl.calls _ _ hc, h.nodes (hl.inserting id n p t hc)⟩
  · rcases h.call hl hc with hc | ⟨-, hn⟩
    · exact h.nodes (hl.inserting id n p t hc)
    · exact h.nodes (hn n p t rfl)
  · rcases h.tentative with ⟨f, hf, hget⟩ | ⟨id, seq, nonce, n', p, t, key, rfl, hc, hk, hi, hset⟩
    · rw [hget n] at hrow
      obtain ⟨row₀, hrow₀, rfl⟩ := Option.map_eq_some_iff.1 hrow
      rw [(hf n row₀).1, (hf n row₀).2]
      exact (hl.rows n row₀ hrow₀).mono fun _ _ hk => h.issued hk
    · rw [hset, OrdMap.get_set] at hrow
      split_ifs at hrow with he
      · cases hrow
        subst he
        exact ⟨⟨n, p, t, key⟩, by rw [hi]; exact OrdMap.get_set_self _ _ _, rfl⟩
      · exact (hl.rows n row hrow).mono fun _ _ hk => h.issued hk
  · rcases h.call hl hc with hc | ⟨hok, -⟩
    · exact (hl.calls id call hc).mono fun _ _ hk => h.issued hk
    · exact hok

theorem linked_reachable (h : (sys o).Reachable s) : Linked s := by
  refine h.invariant (fun s hi => ?_) fun _ _ _ hl hs => hl.move (step_move hs)
  obtain ⟨nodes, now, rfl⟩ := hi
  constructor <;> simp

end Linked

end TwoPhase

end VeriNode
