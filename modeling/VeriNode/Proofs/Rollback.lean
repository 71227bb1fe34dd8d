import VeriNode.Proofs.OneOutcome

/-!
# When the answers say what happened

`transition` and `resolveTentative` answer by the path they took, without the counts of the rows
their statements reached. An answer is `Honest` if what it says happened: the answers of a run are
honest exactly if every commit and rollback finds what it was called for (`Answerable`).
-/

namespace VeriNode

namespace TwoPhase

section Honest

/-- The node's row carries the key, and is in the state. -/
def RowIs (s : State) (r : SweepRow) (state : TentativeState) : Prop :=
  ∃ row, s.db.nodeStatusTentative.get r.nodeId = some row
    ∧ row.idempotencyKey = r.idempotencyKey ∧ row.state = state

/-- The step gives the call its answer. -/
def Answers (t : Taken State Action) (id : ℕ) (answer : Answer) : Prop :=
  t.pre.answers.get id = none ∧ t.post.answers.get id = some answer

/-- The call that takes the step. -/
def Action.caller (s : State) : Action → Option ℕ
  | .transition _ _ => some s.nextId
  | .phase1 id _ _ => some id
  | .readConflict id => some id
  | .contractAnswered id _ => some id
  | .commit id _ => some id
  | .mark id _ => some id
  | .rollback id => some id
  | .resolveTentative _ _ => some s.nextId
  | .forceCommit id => some id
  | .forceRollback id => some id
  | .sweep _ => some s.nextId
  | .sweepNext id => some id
  | .abort _ => none
  | .tick _ => none
  | .others _ => none

def Resolution.state : Resolution → TentativeState
  | .commit => .committed
  | .rollback => .rolledBack

/-- The call is `resolveTentative` with the resolution, and read the row. -/
def ReadBy (e : List (Taken State Action)) (id : ℕ) (resolution : Resolution) (r : SweepRow) :
    Prop :=
  ∃ u ∈ e, ∃ row, u.act = .resolveTentative r.nodeId resolution ∧ u.pre.nextId = id
    ∧ u.pre.db.nodeStatusTentative.get r.nodeId = some row
    ∧ row.idempotencyKey = r.idempotencyKey ∧ row.targetStatus = r.targetStatus

/-- What the result of `transition` says happened; `e` is the run before the step. -/
structure HonestResult (e : List (Taken State Action)) (t : Taken State Action) (id : ℕ)
    (r : TransitionResult) : Prop where
  committed : r.committed = true → t.act = .commit id true
    ∧ fetchCommittedStatus t.post.db r.nodeId = some r.targetStatus
    ∧ RowIs t.pre ⟨r.nodeId, r.idempotencyKey, r.targetStatus⟩ .pending
    ∧ RowIs t.post ⟨r.nodeId, r.idempotencyKey, r.targetStatus⟩ .committed
  rolledBack : r.rolledBack = true → Logged t.post r.idempotencyKey
    ∧ ∀ u ∈ t :: e, u.act.caller u.pre = some id → u.post.db.nodeStatus = u.pre.db.nodeStatus
  once : ¬ (r.committed = true ∧ r.rolledBack = true)

/-- The row that `resolveTentative` read is resolved as it was asked to. -/
def HonestResolve (e : List (Taken State Action)) (t : Taken State Action) (id : ℕ) : Prop :=
  ∃ resolution r, t.pre.calls.get id = some (Resolution.call resolution r)
    ∧ ReadBy e id resolution r ∧ RowIs t.post r resolution.state

/-- The answer that the step gives, if it gives one, says what happened. -/
def Honest (e : List (Taken State Action)) (t : Taken State Action) : Prop :=
  ∀ id answer, Answers t id answer →
    (∀ r, answer = .transition r → HonestResult e t id r)
      ∧ ∀ r, answer = .resolve r → r.resolved = true → HonestResolve e t id

/-- What a step that ends a call must find: a commit its own row, pending; a rollback a row to
claim, or its key in the log; an administrator's write the row that was read, and for a rollback
not committed. -/
def Answerable (s : State) : Action → Prop
  | .commit id true => ∀ a hash k, s.calls.get id = some (.committing a hash k) →
    RowIs s a.row .pending
  | .rollback id => ∀ a message, s.calls.get id = some (.rollingBack a message) →
    Claimable s a.nodeId ∨ Logged s a.idempotencyKey
  | .forceCommit id => ∀ r, s.calls.get id = some (.forceCommitting r) →
    ∃ state, RowIs s r state
  | .forceRollback id => ∀ r, s.calls.get id = some (.forceRollingBack r) →
    RowIs s r .pending ∨ RowIs s r .rolledBack
  | _ => True

end Honest

section Steps

variable {o : Options} {s s' : State} {a : Action} {h e : List (Taken State Action)}

theorem Move.answered (hm : Move s a s') (hl : Linked s) {id : ℕ} {answer : Answer}
    (ha : s.answers.get id = some answer) : s'.answers.get id = some answer := by
  have hstart := hl.numbered.answered ha (.inl rfl)
  have hfin : ∀ {id₀ : ℕ} {call : Call}, s.calls.get id₀ = some call → ∀ answer₀,
      (s.answers.set id₀ answer₀).get id = some answer :=
    fun hc => hl.numbered.answered ha (.inr ⟨_, hc⟩)
  cases hm with
  | refused => exact hstart _
  | noRow => exact hstart _
  | conflictRead _ _ _ hc => exact hfin hc _
  | committed _ _ _ _ hc => exact hfin hc _
  | marked _ _ _ _ hc => exact hfin hc _
  | rolledBack _ _ _ hc => exact hfin hc _
  | forced _ _ hc => exact hfin hc _
  | forcedBack _ _ hc => exact hfin hc _
  | swept _ _ _ hc => exact hfin hc _
  | _ => exact ha

theorem run_answered (hr : Run (sys o) h s) {u : Taken State Action} (hu : u ∈ h) {id : ℕ}
    (hid : u.act.caller u.pre = some id) (hst : u.post.db.nodeStatus ≠ u.pre.db.nodeStatus) :
    ∃ answer, s.answers.get id = some answer := by
  induction hr with
  | start _ => cases hu
  | @next h s s' a hr hs ih =>
    have hl := linked_reachable hr.reachable
    have hm := step_move hs
    rcases List.mem_cons.1 hu with rfl | hu
    · cases hm with
      | committed id' at' hash k hc =>
        cases hid
        exact ⟨_, OrdMap.get_set_self _ _ _⟩
      | forced id' row hc =>
        cases hid
        exact ⟨_, OrdMap.get_set_self _ _ _⟩
      | marked id' at' hash ok hc =>
        refine absurd ?_ hst
        rcases ok with _ | _ <;> rfl
      | rolledBack => exact absurd (execute_nodeStatus _ _ _ _ _ _) hst
      | forcedBack => exact absurd (execute_nodeStatus _ _ _ _ _ _) hst
      | sweptRow => exact absurd (execute_nodeStatus _ _ _ _ _ _) hst
      | _ => exact absurd rfl hst
    · obtain ⟨answer, ha⟩ := ih hu
      exact ⟨answer, hm.answered hl ha⟩

/-- A call that stands before the write of a resolution stood there, or has just read the row. -/
theorem Move.resolving (hm : Move s a s') {id : ℕ} {resolution : Resolution} {r : SweepRow}
    (hc : s'.calls.get id = some (Resolution.call resolution r)) :
    s.calls.get id = some (resolution.call r) ∨ (a = .resolveTentative r.nodeId resolution
      ∧ id = s.nextId ∧ ∃ row, s.db.nodeStatusTentative.get r.nodeId = some row
        ∧ row.idempotencyKey = r.idempotencyKey ∧ row.targetStatus = r.targetStatus) := by
  have hgo : ∀ {s₀ : State} {id₀ : ℕ} {call₀ : Call}, s₀.calls = s.calls →
      (s₀.goOn id₀ call₀).calls.get id = some (resolution.call r) → call₀ ≠ resolution.call r →
      s.calls.get id = some (resolution.call r) := by
    intro s₀ id₀ call₀ h₀ hget hne
    rcases OrdMap.of_get_set hget with ⟨-, he⟩ | ⟨-, hget⟩
    · exact absurd he.symm hne
    · exact h₀ ▸ hget
  have hstart : ∀ {call₀ : Call}, (s.start call₀).calls.get id = some (resolution.call r) →
      call₀ ≠ resolution.call r → s.calls.get id = some (resolution.call r) := by
    intro call₀ hget hne
    rcases OrdMap.of_get_set hget with ⟨-, he⟩ | ⟨-, hget⟩
    · exact absurd he.symm hne
    · exact hget
  have hdel : ∀ {id₀ : ℕ}, (s.calls.delete id₀).get id = some (resolution.call r) →
      s.calls.get id = some (resolution.call r) := fun hget => (OrdMap.of_get_delete hget).2
  have hne : ∀ call : Call, (∀ row, call ≠ .forceCommitting row) →
      (∀ row, call ≠ .forceRollingBack row) → call ≠ resolution.call r := by
    intro call h1 h2
    rcases resolution with _ | _
    · exact h1 r
    · exact h2 r
  cases hm with
  | refused => exact .inl hc
  | noRow => exact .inl hc
  | ticked => exact .inl hc
  | others => exact .inl hc
  | checked => exact .inl (hstart hc (hne _ (by simp) (by simp)))
  | selected => exact .inl (hstart hc (hne _ (by simp) (by simp)))
  | read n res row hrow hp =>
    rcases OrdMap.of_get_set hc with ⟨he, hcall⟩ | ⟨-, hc⟩
    · rcases res with _ | _ <;> rcases resolution with _ | _ <;> cases hcall
      · exact .inr ⟨rfl, he, row, hrow, rfl, rfl⟩
      · exact .inr ⟨rfl, he, row, hrow, rfl, rfl⟩
    · exact .inl hc
  | conflictRead => exact .inl (hdel hc)
  | committed => exact .inl (hdel hc)
  | marked => exact .inl (hdel hc)
  | rolledBack => exact .inl (hdel hc)
  | forced => exact .inl (hdel hc)
  | forcedBack => exact .inl (hdel hc)
  | swept => exact .inl (hdel hc)
  | aborted => exact .inl (hdel hc)
  | _ => exact .inl (hgo rfl hc (hne _ (by simp) (by simp)))

theorem run_readBy (hr : Run (sys o) h s) {id : ℕ} {resolution : Resolution} {r : SweepRow}
    (hc : s.calls.get id = some (resolution.call r)) : ReadBy h id resolution r := by
  induction hr with
  | start hi =>
    obtain ⟨nodes, now, rfl⟩ := hi
    cases hc
  | @next h s s' a hr hs ih =>
    rcases (step_move hs).resolving hc with hc | ⟨rfl, rfl, row, hrow, hk, ht⟩
    · obtain ⟨u, hu, hread⟩ := ih hc
      exact ⟨u, List.mem_cons_of_mem _ hu, hread⟩
    · exact ⟨_, List.mem_cons_self, row, rfl, rfl, hrow, hk, ht⟩

theorem honest_of_answers (ha : s'.answers = s.answers) : Honest e ⟨s, a, s'⟩ := by
  intro id answer hans
  obtain ⟨hpre, hpost⟩ := hans
  simp only [ha, hpre] at hpost
  cases hpost

theorem answers_finish {s₀ : State} {id id' : ℕ} {answer answer' : Answer}
    (hans : Answers ⟨s, a, s₀.finish id answer⟩ id' answer') (h₀ : s₀.answers = s.answers) :
    id' = id ∧ answer' = answer := by
  obtain ⟨hpre, hpost⟩ := hans
  rcases OrdMap.of_get_set hpost with hnew | ⟨-, hold⟩
  · exact hnew
  · have hnone : s.answers.get id' = none := hpre
    rw [h₀, hnone] at hold
    cases hold

theorem answers_startFinished {id' : ℕ} {answer answer' : Answer}
    (hans : Answers ⟨s, a, s.startFinished answer⟩ id' answer') : answer' = answer := by
  obtain ⟨hpre, hpost⟩ := hans
  rcases OrdMap.of_get_set hpost with hnew | ⟨-, hold⟩
  · exact hnew.2
  · have hnone : s.answers.get id' = none := hpre
    rw [hnone] at hold
    cases hold

theorem honest_finish {s₀ : State} {id : ℕ} {answer : Answer} (h₀ : s₀.answers = s.answers)
    (ht : ∀ r, answer = .transition r → r.committed = false ∧ r.rolledBack = false)
    (hres : ∀ r, answer ≠ .resolve r) : Honest e ⟨s, a, s₀.finish id answer⟩ := by
  intro id' answer' hans
  obtain ⟨rfl, rfl⟩ := answers_finish hans h₀
  refine ⟨fun r hr => ?_, fun r hr => absurd hr (hres r)⟩
  obtain ⟨hc, hb⟩ := ht r hr
  constructor <;> simp [hc, hb]

theorem rowIs_update (db : TwoPhaseDb) {r : SweepRow} {state : TentativeState}
    {f : TentativeRow → TentativeRow}
    (hm : db.nodeStatusTentative = updateTentative r.nodeId f s.db.nodeStatusTentative)
    (hf : ∀ row, (f row).idempotencyKey = row.idempotencyKey ∧ (f row).state = state) :
    RowIs { s with db := db } r state ↔ ∃ state, RowIs s r state := by
  unfold RowIs
  simp only [hm, get_updateTentative, if_true]
  constructor
  · intro ⟨row', hrow', hk, hst⟩
    obtain ⟨row, hrow, rfl⟩ := Option.map_eq_some_iff.1 hrow'
    exact ⟨row.state, row, hrow, by rw [← hk, (hf row).1], rfl⟩
  · intro ⟨st, row, hrow, hk, hst⟩
    exact ⟨f row, by rw [hrow]; rfl, by rw [(hf row).1, hk], (hf row).2⟩

theorem honest_committed (hl : Linked s) {id : ℕ} {at' : Attempt} {hash : String} {k : ℕ}
    (hc : s.calls.get id = some (.committing at' hash k)) :
    Honest e ⟨s, .commit id true,
      { s with db := commitTx at'.nodeId at'.targetStatus s.now s.db }.finish id
        (.transition (at'.result (some hash) true false))⟩ ↔ RowIs s at'.row .pending := by
  constructor
  · intro hh
    have hans := (hh id _ ⟨hl.open_ _ _ hc, OrdMap.get_set_self _ _ _⟩).1 _ rfl
    exact (hans.committed rfl).2.2.1
  · intro hrow id' answer hans
    obtain ⟨rfl, rfl⟩ := answers_finish hans rfl
    refine ⟨fun r hr => ?_, fun r hr => (by cases hr)⟩
    cases hr
    refine ⟨fun _ => ⟨rfl, ?_, hrow, ?_⟩, fun hb => (by cases hb), by simp [Attempt.result]⟩
    · obtain ⟨row, hget⟩ := (hl.issued _ _ (hl.calls _ _ hc)).2.2
      show ((updateStatus at'.nodeId at'.targetStatus s.now s.db.nodeStatus).get at'.nodeId).map
        (·.status) = some at'.targetStatus
      rw [get_updateStatus, if_pos rfl, hget]
      rfl
    · exact (rowIs_update (commitTx at'.nodeId at'.targetStatus s.now s.db) (r := at'.row) rfl
        fun _ => ⟨rfl, rfl⟩).2 ⟨_, hrow⟩

theorem honest_rolledBack (hr : Run (sys o) e s) {id : ℕ} {at' : Attempt} {message : String}
    (hc : s.calls.get id = some (.rollingBack at' message)) :
    Honest e ⟨s, .rollback id,
      { s with db := (RollbackHandler.execute at'.nodeId at'.idempotencyKey at'.targetStatus message
        s.now s.db).2 }.finish id (.transition (at'.result none false true))⟩
      ↔ Claimable s at'.nodeId ∨ Logged s at'.idempotencyKey := by
  have hl := linked_reachable hr.reachable
  have hlog := execute_log at'.nodeId at'.idempotencyKey at'.targetStatus message s.now s.db
    at'.idempotencyKey
  constructor
  · intro hh
    have hans := (hh id _ ⟨hl.open_ _ _ hc, OrdMap.get_set_self _ _ _⟩).1 _ rfl
    rcases hlog.1 (hans.rolledBack rfl).1 with hold | ⟨-, hcl⟩
    · exact .inr hold
    · exact .inl hcl
  · intro hfound id' answer hans
    obtain ⟨rfl, rfl⟩ := answers_finish hans rfl
    refine ⟨fun r hr' => ?_, fun r hr' => (by cases hr')⟩
    cases hr'
    refine ⟨fun hb => (by cases hb), fun _ => ⟨?_, fun u hu hid => ?_⟩, by simp [Attempt.result]⟩
    · refine hlog.2 ?_
      rcases hfound with hcl | hold
      · exact .inr ⟨rfl, hcl⟩
      · exact .inl hold
    · rcases List.mem_cons.1 hu with rfl | hu
      · exact execute_nodeStatus _ _ _ _ _ _
      · by_contra hne
        obtain ⟨answer, ha⟩ := run_answered hr hu hid hne
        rw [hl.open_ _ _ hc] at ha
        cases ha

theorem honest_resolved (hr : Run (sys o) e s) {id : ℕ} (resolution : Resolution) {r : SweepRow}
    {db : TwoPhaseDb} {outcome : ResolveOutcome}
    (hc : s.calls.get id = some (Resolution.call resolution r)) :
    Honest e ⟨s, a, { s with db := db }.finish id (.resolve ⟨true, outcome⟩)⟩
      ↔ RowIs { s with db := db } r resolution.state := by
  have hl := linked_reachable hr.reachable
  constructor
  · intro hh
    obtain ⟨resolution', r', hc', -, hrow⟩ :=
      (hh id _ ⟨hl.open_ _ _ hc, OrdMap.get_set_self _ _ _⟩).2 _ rfl rfl
    have hcall := Option.some.inj (hc.symm.trans hc')
    rcases resolution with _ | _ <;> rcases resolution' with _ | _ <;> cases hcall
    · exact hrow
    · exact hrow
  · intro hrow id' answer hans
    obtain ⟨rfl, rfl⟩ := answers_finish hans rfl
    refine ⟨fun r hr' => (by cases hr'), fun r' _ _ => ?_⟩
    exact ⟨resolution, r, hc, run_readBy hr hc, hrow⟩

theorem rowIs_rolledBack {r : SweepRow} {reason : String} :
    RowIs { s with db := (RollbackHandler.execute r.nodeId r.idempotencyKey r.targetStatus reason
        s.now s.db).2 } r .rolledBack ↔ RowIs s r .pending ∨ RowIs s r .rolledBack := by
  unfold RowIs
  simp only [execute_tentative, if_true]
  rcases s.db.nodeStatusTentative.get r.nodeId with _ | row
  · simp
  · by_cases hp : row.state = .pending
    · simp [rollRow, hp]
    · simp [rollRow, hp]

/-- A step answers honestly exactly if it finds what it was called for. -/
theorem honest_iff (hr : Run (sys o) e s) (hs : step o s a = some s') :
    Honest e ⟨s, a, s'⟩ ↔ Answerable s a := by
  have hl := linked_reachable hr.reachable
  have hm := step_move hs
  cases hm with
  | committed id at' hash k hc =>
    rw [honest_committed hl hc]
    simp only [Answerable, hc, Option.some.injEq, Call.committing.injEq]
    exact ⟨fun h a' _ _ he => he.1 ▸ h, fun h => h at' hash k ⟨rfl, rfl, rfl⟩⟩
  | rolledBack id at' message hc =>
    rw [honest_rolledBack hr hc]
    simp only [Answerable, hc, Option.some.injEq, Call.rollingBack.injEq]
    exact ⟨fun h a' _ he => he.1 ▸ h, fun h => h at' message ⟨rfl, rfl⟩⟩
  | forced id r hc =>
    rw [honest_resolved hr .commit hc,
      show Resolution.commit.state = TentativeState.committed from rfl,
      rowIs_update (forceCommitTx r.nodeId r.targetStatus s.now s.db) rfl
        fun _ => ⟨rfl, rfl⟩]
    simp only [Answerable, hc, Option.some.injEq, Call.forceCommitting.injEq, forall_eq']
  | forcedBack id r hc =>
    rw [honest_resolved hr .rollback hc,
      show Resolution.rollback.state = TentativeState.rolledBack from rfl, rowIs_rolledBack]
    simp only [Answerable, hc, Option.some.injEq, Call.forceRollingBack.injEq, forall_eq']
  | refused n t message =>
    refine iff_of_true (fun id' answer hans => ?_) trivial
    cases answers_startFinished hans
    exact ⟨fun r hr' => (by cases hr'), fun r hr' => (by cases hr')⟩
  | noRow n resolution =>
    refine iff_of_true (fun id' answer hans => ?_) trivial
    cases answers_startFinished hans
    refine ⟨fun r hr' => (by cases hr'), fun r hr' hres => ?_⟩
    cases hr'
    cases hres
  | marked id at' hash ok hc =>
    exact iff_of_true (honest_finish rfl (fun r hr' => (by cases hr'; exact ⟨rfl, rfl⟩)) (by simp))
      trivial
  | conflictRead => exact iff_of_true (honest_finish rfl (by simp) (by simp)) trivial
  | swept => exact iff_of_true (honest_finish rfl (by simp) (by simp)) trivial
  | _ => exact iff_of_true (honest_of_answers rfl) trivial

end Steps

section Runs

variable {o : Options} {s : State} {h : List (Taken State Action)}

/-- In every run: every answer of `transition` and `resolveTentative` says what happened exactly
if every step that gives one finds what it was called for. -/
theorem answers_honest_iff (hr : Run (sys o) h s) :
    (∀ l t e, h = l ++ t :: e → Honest e t) ↔ Along Answerable h := by
  constructor
  · intro hh t ht
    obtain ⟨l, e, rfl⟩ := List.append_of_mem ht
    obtain ⟨hre, hs⟩ := hr.split rfl
    exact (honest_iff hre hs).1 (hh l t e rfl)
  · rintro ha l t e rfl
    obtain ⟨hre, hs⟩ := hr.split rfl
    exact (honest_iff hre hs).2 (ha t (by simp))

instance (s : State) (r : SweepRow) (state : TentativeState) : Decidable (RowIs s r state) :=
  decidable_of_iff ((s.db.nodeStatusTentative.get r.nodeId).any fun row =>
      row.idempotencyKey = r.idempotencyKey ∧ row.state = state)
    (by simp [RowIs, Option.any_eq_true])

/-- A commit and a rollback find the row of their attempt, and nothing is committed by force. -/
def findsRow (t : Taken State Action) : Bool :=
  match t.act with
  | .commit id _ =>
    match t.pre.calls.get id with
    | some (.committing a _ _) => RowIs t.pre a.row .pending
    | _ => true
  | .rollback id =>
    match t.pre.calls.get id with
    | some (.rollingBack a _) => Logged t.pre a.idempotencyKey
    | _ => true
  | .forceRollback id =>
    match t.pre.calls.get id with
    | some (.forceRollingBack r) => RowIs t.pre r .pending
    | _ => true
  | .forceCommit _ => false
  | _ => true

theorem answers_honest_iff_resolved : ∃ h s, Run (sys { sha256 := id }) h s
    ∧ s.answers.get 0 = some (.transition ⟨"n", .provisioned, .pending, "n:7:x", none, false, true⟩)
    ∧ s.answers.get 1 = some (.resolve ⟨true, .rolledBack⟩)
    ∧ s.answers.get 2 = some (.transition ⟨"m", .active, .archived, "m:7:y", some "h", true, false⟩)
    ∧ ∀ l t e, h = l ++ t :: e → Honest e t := by
  obtain ⟨h, s, hr, hp⟩ := Sys.exists_run (S := sys { sha256 := id })
    ⟨(OrdMap.empty.set "n" ⟨.provisioned, 0⟩).set "m" ⟨.active, 0⟩, 0, rfl⟩
    [.transition "n" .pending, .phase1 0 "7" "x", .resolveTentative "n" .rollback,
      .transition "m" .archived, .phase1 2 "7" "y", .forceRollback 1,
      .contractAnswered 0 (.threw none), .rollback 0,
      .contractAnswered 2 (.returned "h" true none), .commit 2 true]
    (p := fun x =>
      x.2.answers.get 0
        = some (.transition ⟨"n", .provisioned, .pending, "n:7:x", none, false, true⟩)
      && x.2.answers.get 1 = some (.resolve ⟨true, .rolledBack⟩)
      && x.2.answers.get 2
        = some (.transition ⟨"m", .active, .archived, "m:7:y", some "h", true, false⟩)
      && x.1.all findsRow)
    (by decide +kernel)
  simp only [Bool.and_eq_true, decide_eq_true_eq, List.all_eq_true] at hp
  obtain ⟨⟨⟨h0, h1⟩, h2⟩, hall⟩ := hp
  refine ⟨h, s, hr, h0, h1, h2, (answers_honest_iff hr).2 fun t ht => ?_⟩
  have ht' := hall t ht
  unfold findsRow at ht'
  rcases hact : t.act with _ | _ | _ | _ | ⟨id, ok⟩ | _ | id | _ | id | id | _ | _ | _ | _ | _ <;>
    try trivial
  · rcases ok with _ | _
    · trivial
    · intro a hash k hc
      simpa [hact, hc] using ht'
  · intro a message hc
    exact .inr (by simpa [hact, hc] using ht')
  · simp [hact] at ht'
  · intro r hc
    exact .inl (by simpa [hact, hc] using ht')

/-- An administrator commits the attempt while its contract call is out; the call fails, its
rollback finds nothing to claim, and the answer is that it was rolled back. -/
theorem rolled_back_without_log : ∃ h s l t e, Run (sys { sha256 := id }) h s ∧ h = l ++ t :: e
    ∧ ¬ Honest e t
    ∧ s.answers.get 0 = some (.transition ⟨"n", .provisioned, .pending, "n:7:x", none, false, true⟩)
    ∧ s.db.twoPhaseRollbackLog = [] ∧ fetchCommittedStatus s.db "n" = some .pending := by
  let at' : Attempt := ⟨"n", .provisioned, .pending, "n:7:x"⟩
  have he : ∃ s₁ s₂ e, (sys { sha256 := id }).exec
      { db := { nodeStatus := OrdMap.empty.set "n" ⟨.provisioned, 0⟩ } } []
      [.transition "n" .pending, .phase1 0 "7" "x", .resolveTentative "n" .commit, .forceCommit 1,
        .contractAnswered 0 (.threw none), .rollback 0]
      = some (⟨s₁, .rollback 0, s₂⟩ :: e, s₂)
      ∧ s₁.answers.get 0 = none
      ∧ s₂.answers.get 0 = some (.transition (at'.result none false true))
      ∧ s₂.db.twoPhaseRollbackLog = []
      ∧ fetchCommittedStatus s₂.db "n" = some .pending :=
    ⟨_, _, _, rfl, rfl, rfl, rfl, rfl⟩
  obtain ⟨s₁, s₂, e, he, hpre, hpost, hlog, hst⟩ := he
  have hr := Sys.run_of_exec (Run.start (S := sys { sha256 := id }) ⟨_, 0, rfl⟩) he
  refine ⟨_, s₂, [], _, e, hr, rfl, fun hh => ?_, hpost, hlog, hst⟩
  obtain ⟨l, hl, -⟩ := (((hh 0 _ ⟨hpre, hpost⟩).1 _ rfl).rolledBack rfl).1
  simp only [hlog] at hl
  cases hl

end Runs

end TwoPhase

end VeriNode

/-!
# What a rollback touches

A rollback claims the node's row by its state alone, and logs and takes back under the key it was
called with. Whatever it claims, it leaves the statuses, the rows of other nodes and the
adjustments of other keys (`execute_frame`). It touches its own attempt exactly if the row it
claims carries its key.
-/

namespace VeriNode

namespace TwoPhase

section Frame

/-- The rows of other nodes, the adjustments under other keys, and the statuses are the same. -/
structure OthersKept (n key : String) (db db' : TwoPhaseDb) : Prop where
  status : db'.nodeStatus = db.nodeStatus
  tentative : ∀ n', n' ≠ n → db'.nodeStatusTentative.get n' = db.nodeStatusTentative.get n'
  log : db'.twoPhaseRollbackLog.filter (·.nodeId ≠ n) = db.twoPhaseRollbackLog.filter (·.nodeId ≠ n)
  rewards : db'.speculative.rewardTx.filter (·.nodeId ≠ n)
    = db.speculative.rewardTx.filter (·.nodeId ≠ n)
  attestations : db'.speculative.nodeAttestations.filter (·.nodeId ≠ n)
    = db.speculative.nodeAttestations.filter (·.nodeId ≠ n)
  reputations : ∀ n', n' ≠ n → db'.speculative.reputations.get n' = db.speculative.reputations.get n'
  adjustments : db'.speculative.reputationAdjustments.filter
      (fun x => x.nodeId ≠ n ∨ x.idempotencyKey ≠ key)
    = db.speculative.reputationAdjustments.filter fun x => x.nodeId ≠ n ∨ x.idempotencyKey ≠ key

/-- If anything changes, the row of the node was pending under the key, and the rest is kept. -/
def TouchesOwn (r : SweepRow) (db db' : TwoPhaseDb) : Prop :=
  db' ≠ db → (∃ row, db.nodeStatusTentative.get r.nodeId = some row
      ∧ row.idempotencyKey = r.idempotencyKey ∧ row.state = .pending)
    ∧ OthersKept r.nodeId r.idempotencyKey db db'

theorem filter_filter_spared {α : Type} {p q : α → Bool} (h : ∀ x, p x = true → q x = true)
    (xs : List α) : (xs.filter q).filter p = xs.filter p := by
  rw [List.filter_filter]
  refine List.filter_congr fun x _ => ?_
  rcases hp : p x with _ | _
  · rfl
  · rw [h x hp]
    rfl

variable {n key : String} {t : NodeStatus} {reason : String} {now : ℕ} {db : TwoPhaseDb}

theorem cascade_reputations {since : ℕ} {tables : Speculative} {n' : String} (h : n' ≠ n) :
    (RollbackHandler.cascade n key t since now tables).reputations.get n'
      = tables.reputations.get n' := by
  unfold RollbackHandler.cascade
  rcases hrep : tables.reputations.get n with _ | rep
  · simp only []
  · simp only []
    exact OrdMap.get_set_of_ne _ _ h

theorem execute_frame :
    OthersKept n key db (RollbackHandler.execute n key t reason now db).2 := by
  unfold RollbackHandler.execute
  split
  · constructor <;> simp
  · split_ifs
    · constructor
      · rfl
      · intro n' h
        exact OrdMap.get_set_of_ne _ _ h
      · simp
      · exact filter_filter_spared (by simp; tauto) _
      · exact filter_filter_spared (by simp; tauto) _
      · intro n' h
        exact cascade_reputations h
      · exact filter_filter_spared (by simp) _
    · constructor <;> simp

theorem execute_ne_iff : (RollbackHandler.execute n key t reason now db).2 ≠ db
    ↔ ∃ row, db.nodeStatusTentative.get n = some row ∧ row.state = .pending := by
  unfold RollbackHandler.execute
  rcases hrow : db.nodeStatusTentative.get n with _ | row
  · simp
  · by_cases hp : row.state = .pending
    · refine iff_of_true (fun he => ?_) ⟨row, rfl, hp⟩
      have hlen := congrArg (·.twoPhaseRollbackLog.length) he
      simp [hp] at hlen
    · simp [hp]

end Frame

section Runs

variable {o : Options} {s s' : State} {a : Action} {r : SweepRow} {h : List (Taken State Action)}

theorem touchesOwn_iff (hm : Move s a s') (hr : RollsRow s a r) :
    TouchesOwn r s.db s'.db ↔ ClaimsOwn s r := by
  obtain ⟨reason, hdb⟩ := hm.rolled hr
  rw [hdb]
  unfold TouchesOwn
  rw [execute_ne_iff]
  constructor
  · intro h row hrow hp
    obtain ⟨⟨row', hrow', hk, -⟩, -⟩ := h ⟨row, hrow, hp⟩
    rw [hrow] at hrow'
    cases hrow'
    exact hk
  · rintro hown ⟨row, hrow, hp⟩
    exact ⟨⟨row, hrow, hown row hrow hp, hp⟩, execute_frame⟩

/-- In every run: all rollbacks, of transitions, administrators and the worker, touch only their
own attempt exactly if none of them finds the node's row pending under another key. -/
theorem rollback_touches_own_iff (hr : Run (sys o) h s) :
    (∀ t ∈ h, ∀ r, RollsRow t.pre t.act r → TouchesOwn r t.pre.db t.post.db)
      ↔ Along (fun s a => ∀ r, RollsRow s a r → ClaimsOwn s r) h := by
  have hstep : ∀ t ∈ h, ∀ r, RollsRow t.pre t.act r →
      (TouchesOwn r t.pre.db t.post.db ↔ ClaimsOwn t.pre r) := by
    intro t ht r hrolls
    exact touchesOwn_iff (step_move (hr.taken ht).2) hrolls
  exact ⟨fun hown t ht r hrolls => (hstep t ht r hrolls).1 (hown t ht r hrolls),
    fun hown t ht r hrolls => (hstep t ht r hrolls).2 (hown t ht r hrolls)⟩

theorem rollback_touches_own_iff_sweep : ∃ h s, Run (sys { sha256 := id }) h s
    ∧ Logged s "n:7:x" ∧ Logged s "m:7:y"
    ∧ ∀ t ∈ h, ∀ r, RollsRow t.pre t.act r → TouchesOwn r t.pre.db t.post.db := by
  obtain ⟨h, s, hr, hp⟩ := Sys.exists_run (S := sys { sha256 := id })
    ⟨(OrdMap.empty.set "n" ⟨.provisioned, 0⟩).set "m" ⟨.active, 0⟩, 0, rfl⟩
    [.transition "n" .pending, .transition "m" .archived, .phase1 0 "7" "x", .phase1 1 "7" "y",
      .contractAnswered 1 (.returned "h" false none), .rollback 1, .tick 30001, .sweep [],
      .sweepNext 2, .sweepNext 2]
    (p := fun x => Logged x.2 "n:7:x" && Logged x.2 "m:7:y" && x.1.all fun t => guards t.pre t.act)
    (by decide +kernel)
  simp only [Bool.and_eq_true, decide_eq_true_eq, List.all_eq_true] at hp
  exact ⟨h, s, hr, hp.1.1, hp.1.2,
    (rollback_touches_own_iff hr).2 fun t ht => (guarded_of_guards (hp.2 t ht)).rollback⟩

/-- The first attempt expires and is rolled back by the worker while its contract call is out; a
second one takes the row; then the call of the first fails, and its rollback claims the row of the
second. -/
theorem rollback_claims_successor : ∃ h s t r, Run (sys { sha256 := id }) h s ∧ t ∈ h
    ∧ RollsRow t.pre t.act r ∧ ¬ TouchesOwn r t.pre.db t.post.db
    ∧ (t.post.db.nodeStatusTentative.get r.nodeId).map (fun row => (row.idempotencyKey, row.state))
      = some ("n:8:y", .rolledBack) := by
  let at' : Attempt := ⟨"n", .provisioned, .pending, "n:7:x"⟩
  have he : ∃ s₁ s₂ h, (sys { sha256 := id }).exec
      { db := { nodeStatus := OrdMap.empty.set "n" ⟨.provisioned, 0⟩ } } []
      [.transition "n" .pending, .phase1 0 "7" "x", .tick 30001, .sweep [], .sweepNext 1,
        .transition "n" .pending, .phase1 2 "8" "y",
        .contractAnswered 0 (.returned "h" false none), .rollback 0]
      = some (⟨s₁, .rollback 0, s₂⟩ :: h, s₂)
      ∧ s₁.calls.get 0 = some (.rollingBack at' "Contract rejected the transaction")
      ∧ (s₁.db.nodeStatusTentative.get "n").map (fun row => (row.idempotencyKey, row.state))
        = some ("n:8:y", .pending)
      ∧ (s₂.db.nodeStatusTentative.get "n").map (fun row => (row.idempotencyKey, row.state))
        = some ("n:8:y", .rolledBack) :=
    ⟨_, _, _, rfl, rfl, rfl, rfl⟩
  obtain ⟨s₁, s₂, h, he, hc, hrow, hpost⟩ := he
  have hr := Sys.run_of_exec (Run.start (S := sys { sha256 := id }) ⟨_, 0, rfl⟩) he
  have hrolls : RollsRow s₁ (.rollback 0) at'.row := .inl ⟨0, at', _, rfl, hc, rfl⟩
  refine ⟨_, s₂, _, at'.row, hr, List.mem_cons_self, hrolls, fun hown => ?_, hpost⟩
  have hstep : step { sha256 := id } s₁ (.rollback 0) = some s₂ := (hr.taken List.mem_cons_self).2
  have hclaims := (touchesOwn_iff (step_move hstep) hrolls).1 hown
  obtain ⟨row, hget, he⟩ := Option.map_eq_some_iff.1 hrow
  obtain ⟨hkey, hst⟩ := Prod.mk.inj he
  have hk := hclaims row hget hst
  rw [hkey] at hk
  exact absurd hk (by decide)

end Runs

end TwoPhase

end VeriNode
