import VeriNode.Proofs.Controller

/-!
# When an attempt is decided once

The commit writes the node's row whatever key and state it has, and the rollback claims the node's
pending row whatever key it has, so a key may be decided twice, or by the decision of another. It
is decided once if every decision finds its own key's row, not rolled back yet (`Guarded`); the
worker spares what the contract confirmed if the marker is written and a confirmed attempt is not
lost before that. `Once` is what such runs keep.
-/

namespace VeriNode

namespace TwoPhase

section Decisions

/-- The step commits the row it carries: the transition's own, or the one an administrator read. -/
def CommitsRow (s : State) (a : Action) (r : SweepRow) : Prop :=
  (∃ id at' hash k, a = .commit id true ∧ s.calls.get id = some (.committing at' hash k)
      ∧ r = at'.row)
    ∨ ∃ id, a = .forceCommit id ∧ s.calls.get id = some (.forceCommitting r)

/-- The step of a sweep rolls back the row it carries. -/
def SweepsRow (s : State) (a : Action) (r : SweepRow) : Prop :=
  ∃ id rest p k, a = .sweepNext id ∧ s.calls.get id = some (.sweeping (r :: rest) p k)

/-- The step rolls back the row it carries. -/
def RollsRow (s : State) (a : Action) (r : SweepRow) : Prop :=
  (∃ id at' message, a = .rollback id ∧ s.calls.get id = some (.rollingBack at' message)
      ∧ r = at'.row)
    ∨ (∃ id, a = .forceRollback id ∧ s.calls.get id = some (.forceRollingBack r))
    ∨ SweepsRow s a r

/-- The contract call of the row comes back with success. -/
def ConfirmsRow (s : State) (a : Action) (r : SweepRow) : Prop :=
  ∃ id answer at' hash, a = .contractAnswered id answer ∧ s.calls.get id = some (.calling at')
    ∧ answer.outcome = .ok hash ∧ r = at'.row

/-- The node's row is pending, so that a rollback claims it. -/
def Claimable (s : State) (n : String) : Prop :=
  ∃ row, s.db.nodeStatusTentative.get n = some row ∧ row.state = .pending

/-- The log carries the key. -/
def Logged (s : State) (key : String) : Prop :=
  ∃ l ∈ s.db.twoPhaseRollbackLog, l.idempotencyKey = key

/-- The row has the `COMMIT_FAILED` marker. -/
def hasMarker (row : TentativeRow) : Bool := row.errorDetail.any likeCommitFailed

/-- The key of a call whose contract call was confirmed and which is not through yet. -/
def Call.confirmedKey : Call → Option String
  | .committing a _ _ => some a.idempotencyKey
  | .marking a _ => some a.idempotencyKey
  | _ => none

variable {s s' : State} {a : Action} {r : SweepRow} {key : String}

theorem Move.committed_row (h : Move s a s') (hc : CommitsRow s a r) {row : TentativeRow}
    (hrow : s'.db.nodeStatusTentative.get r.nodeId = some row) : row.state = .committed := by
  have hup : ∀ (m : OrdMap String TentativeRow) (f : TentativeRow → TentativeRow),
      (∀ row, (f row).state = .committed) →
      (updateTentative r.nodeId f m).get r.nodeId = some row → row.state = .committed := by
    intro m f hf hget
    rw [get_updateTentative, if_pos rfl] at hget
    obtain ⟨row₀, -, rfl⟩ := Option.map_eq_some_iff.1 hget
    exact hf row₀
  rcases hc with ⟨id, at', hash, k, rfl, hc, rfl⟩ | ⟨id, rfl, hc⟩
  · cases h with
    | committed _ at'' _ _ hc' =>
      rw [hc] at hc'
      cases hc'
      exact hup _ _ (fun _ => rfl) hrow
  · cases h with
    | forced _ row' hc' =>
      rw [hc] at hc'
      cases hc'
      exact hup _ _ (fun _ => rfl) hrow

theorem Move.rolled (h : Move s a s') (hr : RollsRow s a r) :
    ∃ reason, s'.db = (RollbackHandler.execute r.nodeId r.idempotencyKey r.targetStatus reason s.now
      s.db).2 := by
  rcases hr with ⟨id, at', message, rfl, hc, rfl⟩ | ⟨id, rfl, hc⟩ | ⟨id, rest, p, k, rfl, hc⟩
  · cases h with
    | rolledBack _ at'' m hc' =>
      rw [hc] at hc'
      cases hc'
      exact ⟨_, rfl⟩
  · cases h with
    | forcedBack _ row' hc' =>
      rw [hc] at hc'
      cases hc'
      exact ⟨_, rfl⟩
  · cases h with
    | swept _ _ _ hc' =>
      rw [hc] at hc'
      cases hc'
    | sweptRow _ row' _ _ _ _ _ hc' =>
      rw [hc] at hc'
      cases hc'
      exact ⟨_, rfl⟩

theorem Move.rolled_row (h : Move s a s') (hr : RollsRow s a r) {row : TentativeRow}
    (hrow : s'.db.nodeStatusTentative.get r.nodeId = some row) (hcl : Claimable s r.nodeId) :
    row.state = .rolledBack := by
  obtain ⟨reason, hdb⟩ := h.rolled hr
  obtain ⟨row₀, hrow₀, hp⟩ := hcl
  rw [hdb, execute_tentative, if_pos rfl, hrow₀] at hrow
  cases hrow
  simp [rollRow, hp]

/-- The keys the log carries after a step: one more if it claims a row. -/
theorem Move.logged (h : Move s a s') : Logged s' key ↔ Logged s key
    ∨ ∃ r, RollsRow s a r ∧ r.idempotencyKey = key ∧ Claimable s r.nodeId := by
  have hexec : ∀ r reason, RollsRow s a r → (∀ r', RollsRow s a r' → r' = r) →
      ((∃ l ∈ (RollbackHandler.execute r.nodeId r.idempotencyKey r.targetStatus reason s.now
        s.db).2.twoPhaseRollbackLog, l.idempotencyKey = key) ↔ Logged s key
        ∨ ∃ r, RollsRow s a r ∧ r.idempotencyKey = key ∧ Claimable s r.nodeId) := by
    intro r reason hr hu
    rw [execute_log]
    refine or_congr Iff.rfl ⟨?_, ?_⟩
    · rintro ⟨rfl, hcl⟩
      exact ⟨r, hr, rfl, hcl⟩
    · rintro ⟨r', hr', rfl, hcl⟩
      rw [hu r' hr'] at hcl ⊢
      exact ⟨rfl, hcl⟩
  have hnone : (∀ r, ¬ RollsRow s a r) → s'.db.twoPhaseRollbackLog = s.db.twoPhaseRollbackLog →
      (Logged s' key ↔ Logged s key
        ∨ ∃ r, RollsRow s a r ∧ r.idempotencyKey = key ∧ Claimable s r.nodeId) := by
    intro hn hlog
    unfold Logged
    rw [hlog]
    exact ⟨.inl, fun h => h.elim id fun ⟨r, hr, _⟩ => absurd hr (hn r)⟩
  cases h with
  | rolledBack id at' message hc =>
    refine hexec at'.row message (.inl ⟨id, at', message, rfl, hc, rfl⟩) ?_
    rintro r' (⟨id', at'', m', he, hc', rfl⟩ | ⟨id', he, -⟩ | ⟨id', _, _, _, he, -⟩) <;> cases he
    rw [hc] at hc'
    cases hc'
    rfl
  | forcedBack id row hc =>
    refine hexec row _ (.inr (.inl ⟨id, rfl, hc⟩)) ?_
    rintro r' (⟨id', at'', m', he, -⟩ | ⟨id', he, hc'⟩ | ⟨id', _, _, _, he, -⟩) <;> cases he
    rw [hc] at hc'
    cases hc'
    rfl
  | sweptRow id row rest p k p' k' hc =>
    refine hexec row _ (.inr (.inr ⟨id, rest, p, k, rfl, hc⟩)) ?_
    rintro r' (⟨id', at'', m', he, -⟩ | ⟨id', he, -⟩ | ⟨id', _, _, _, he, hc'⟩) <;> cases he
    rw [hc] at hc'
    cases hc'
    rfl
  | swept id p k hc =>
    refine hnone ?_ rfl
    rintro r' (⟨id', at'', m', he, -⟩ | ⟨id', he, -⟩ | ⟨id', _, _, _, he, hc'⟩) <;> cases he
    rw [hc] at hc'
    cases hc'
  | marked id at' hash ok hc =>
    refine hnone ?_ (by rcases ok with _ | _ <;> rfl)
    rintro r' (⟨id', at'', m', he, -⟩ | ⟨id', he, -⟩ | ⟨id', _, _, _, he, -⟩) <;> cases he
  | _ =>
    refine hnone ?_ rfl
    rintro r' (⟨id', at'', m', he, -⟩ | ⟨id', he, -⟩ | ⟨id', _, _, _, he, -⟩) <;> cases he

/-- Where a row after a step comes from: it was there, was committed, rolled back or marked in
place, or is new, under a new key. -/
theorem Move.row (h : Move s a s') {n : String} {row' : TentativeRow}
    (hrow : s'.db.nodeStatusTentative.get n = some row') :
    s.db.nodeStatusTentative.get n = some row'
      ∨ (∃ r row, CommitsRow s a r ∧ n = r.nodeId ∧ s.db.nodeStatusTentative.get n = some row
        ∧ row'.idempotencyKey = row.idempotencyKey ∧ row'.state = .committed)
      ∨ (∃ r row, RollsRow s a r ∧ n = r.nodeId ∧ s.db.nodeStatusTentative.get n = some row
        ∧ row.state = .pending ∧ row'.idempotencyKey = row.idempotencyKey
        ∧ row'.state = .rolledBack)
      ∨ (∃ row, s.db.nodeStatusTentative.get n = some row ∧ row.state = .pending
        ∧ row'.idempotencyKey = row.idempotencyKey ∧ row'.state = .pending ∧ hasMarker row' = true)
      ∨ s.issued.get row'.idempotencyKey = none := by
  have hcommit : ∀ r (f : TentativeRow → TentativeRow), CommitsRow s a r →
      (updateTentative r.nodeId f s.db.nodeStatusTentative).get n = some row' →
      (∀ row, (f row).idempotencyKey = row.idempotencyKey ∧ (f row).state = .committed) →
      s.db.nodeStatusTentative.get n = some row' ∨ (∃ r row, CommitsRow s a r ∧ n = r.nodeId
        ∧ s.db.nodeStatusTentative.get n = some row
        ∧ row'.idempotencyKey = row.idempotencyKey ∧ row'.state = .committed) := by
    intro r f hr hget hf
    rw [get_updateTentative] at hget
    split_ifs at hget with he
    · obtain ⟨row, hrow₀, rfl⟩ := Option.map_eq_some_iff.1 hget
      exact .inr ⟨r, row, hr, he, hrow₀, hf row⟩
    · exact .inl hget
  have hroll : ∀ r, RollsRow s a r → s.db.nodeStatusTentative.get n = some row'
      ∨ (∃ r row, RollsRow s a r ∧ n = r.nodeId ∧ s.db.nodeStatusTentative.get n = some row
        ∧ row.state = .pending ∧ row'.idempotencyKey = row.idempotencyKey
        ∧ row'.state = .rolledBack) := by
    intro r hr
    obtain ⟨reason, hdb⟩ := h.rolled hr
    rw [hdb, execute_tentative] at hrow
    split_ifs at hrow with he
    · obtain ⟨row, hget, rfl⟩ := Option.map_eq_some_iff.1 hrow
      by_cases hp : row.state = .pending
      · exact .inr ⟨r, row, hr, he, hget, hp, by simp [rollRow, hp], by simp [rollRow, hp]⟩
      · left
        rw [hget]
        simp [rollRow, hp]
    · exact .inl hrow
  cases h with
  | committed id at' hash k hc =>
    rcases hcommit at'.row _ (.inl ⟨id, at', hash, k, rfl, hc, rfl⟩) hrow (fun _ => ⟨rfl, rfl⟩)
      with h | h
    · exact .inl h
    · exact .inr (.inl h)
  | forced id row hc =>
    rcases hcommit row _ (.inr ⟨id, rfl, hc⟩) hrow (fun _ => ⟨rfl, rfl⟩) with h | h
    · exact .inl h
    · exact .inr (.inl h)
  | rolledBack id at' message hc =>
    rcases hroll at'.row (.inl ⟨id, at', message, rfl, hc, rfl⟩) with h | h
    · exact .inl h
    · exact .inr (.inr (.inl h))
  | forcedBack id row hc =>
    rcases hroll row (.inr (.inl ⟨id, rfl, hc⟩)) with h | h
    · exact .inl h
    · exact .inr (.inr (.inl h))
  | sweptRow id row rest p k p' k' hc =>
    rcases hroll row (.inr (.inr ⟨id, rest, p, k, rfl, hc⟩)) with h | h
    · exact .inl h
    · exact .inr (.inr (.inl h))
  | marked id at' hash ok hc =>
    rcases ok with _ | _
    · exact .inl hrow
    · have hget : (updateTentative at'.nodeId _ s.db.nodeStatusTentative).get n = some row' := hrow
      rw [get_updateTentative] at hget
      split_ifs at hget with he
      · obtain ⟨row, hrow₀, rfl⟩ := Option.map_eq_some_iff.1 hget
        have hm : likeCommitFailed commitFailedDetail = true := by decide
        by_cases hp : row.state = .pending
        · simp only [if_pos hp]
          exact .inr (.inr (.inr (.inl ⟨row, hrow₀, hp, rfl, hp, hm⟩)))
        · simp only [if_neg hp]
          exact .inl hrow₀
      · exact .inl hget
  | inserted id seq nonce n' key p t hc hk hn =>
    rcases OrdMap.of_get_set hrow with ⟨-, rfl⟩ | ⟨-, hget⟩
    · exact .inr (.inr (.inr (.inr hk)))
    · exact .inl hget
  | _ => exact .inl hrow

theorem Move.marked_row {id : ℕ} {at' : Attempt} {hash : String} (h : Move s (.mark id true) s')
    (hc : s.calls.get id = some (.marking at' hash)) {row' : TentativeRow}
    (hrow : s'.db.nodeStatusTentative.get at'.nodeId = some row') (hp : row'.state = .pending) :
    hasMarker row' = true := by
  cases h with
  | marked _ at'' hash' _ hc' =>
    rw [hc] at hc'
    cases hc'
    have hget : (updateTentative at'.nodeId _ s.db.nodeStatusTentative).get at'.nodeId
      = some row' := hrow
    rw [get_updateTentative, if_pos rfl] at hget
    obtain ⟨row, hrow₀, rfl⟩ := Option.map_eq_some_iff.1 hget
    have hm : likeCommitFailed commitFailedDetail = true := by decide
    by_cases hp' : row.state = .pending
    · simp only [if_pos hp']
      exact hm
    · simp only [if_neg hp'] at hp
      exact absurd hp hp'

theorem Move.confirmed_call (h : Move s a s') (hc : ConfirmsRow s a r) :
    ∃ id call, s'.calls.get id = some call ∧ call.confirmedKey = some r.idempotencyKey := by
  obtain ⟨id, answer, at', hash, rfl, hc, hok, rfl⟩ := hc
  cases h with
  | confirmed _ _ at'' hash' hc' hok' =>
    rw [hc] at hc'
    cases hc'
    exact ⟨id, _, by rw [get_goOn, if_pos rfl], rfl⟩
  | failed _ _ at'' message hc' hok' =>
    rw [hok] at hok'
    cases hok'

/-- A confirmed call that is not through goes on, commits, marks its row, or is aborted. -/
theorem Move.finishing (h : Move s a s') (hl : Linked s) {id : ℕ} {call : Call}
    (hc : s.calls.get id = some call) (hk : call.confirmedKey = some key) :
    (∃ id' call', s'.calls.get id' = some call' ∧ call'.confirmedKey = some key)
      ∨ (∃ r, CommitsRow s a r ∧ r.idempotencyKey = key)
      ∨ (∃ at' hash ok, a = .mark id ok ∧ s.calls.get id = some (.marking at' hash)
        ∧ at'.idempotencyKey = key)
      ∨ a = .abort id := by
  have hid : id ≠ s.nextId := by
    rintro rfl
    rw [(hl.fresh s.nextId le_rfl).1] at hc
    cases hc
  -- the step is of another call, or takes this one to a place with the same key
  have hgo : ∀ {s₀ : State} {id₀ : ℕ} {call₀ call₁ : Call}, s₀.calls = s.calls →
      s.calls.get id₀ = some call₀ → (call₀.confirmedKey = some key →
        call₁.confirmedKey = some key) →
      ∃ id' call', (s₀.goOn id₀ call₁).calls.get id' = some call'
        ∧ call'.confirmedKey = some key := by
    intro s₀ id₀ call₀ call₁ h₀ hc₀ hkey
    by_cases he : id = id₀
    · subst he
      rw [hc] at hc₀
      cases hc₀
      exact ⟨id, call₁, by rw [get_goOn, if_pos rfl], hkey hk⟩
    · exact ⟨id, call, by rw [get_goOn, if_neg he, h₀, hc], hk⟩
  have hfin : ∀ {s₀ : State} {id₀ : ℕ} {answer : Answer}, s₀.calls = s.calls → id ≠ id₀ →
      ∃ id' call', (s₀.finish id₀ answer).calls.get id' = some call'
        ∧ call'.confirmedKey = some key :=
    fun {s₀ id₀ answer} h₀ he => ⟨id, call, by rw [get_finish, if_neg he, h₀, hc], hk⟩
  have hne : ∀ {id₀ : ℕ} {call₀ : Call}, s.calls.get id₀ = some call₀ →
      call₀.confirmedKey = none → id ≠ id₀ := by
    rintro id₀ call₀ hc₀ hn rfl
    rw [hc] at hc₀
    cases hc₀
    rw [hk] at hn
    cases hn
  have hstart : ∀ call₀, ∃ id' call', (s.start call₀).calls.get id' = some call'
      ∧ call'.confirmedKey = some key :=
    fun call₀ => ⟨id, call, by rw [get_start, if_neg hid, hc], hk⟩
  have hsame : ∀ {s₀ : State}, s₀.calls = s.calls →
      ∃ id' call', s₀.calls.get id' = some call' ∧ call'.confirmedKey = some key :=
    fun h₀ => ⟨id, call, by rw [h₀, hc], hk⟩
  cases h with
  | refused => exact .inl (hsame rfl)
  | noRow => exact .inl (hsame rfl)
  | ticked => exact .inl (hsame rfl)
  | others => exact .inl (hsame rfl)
  | checked => exact .inl (hstart _)
  | read => exact .inl (hstart _)
  | selected => exact .inl (hstart _)
  | conflicted _ _ _ _ _ _ hc' => exact .inl (hgo rfl hc' (by simp [Call.confirmedKey]))
  | inserted _ _ _ _ _ _ _ hc' => exact .inl (hgo rfl hc' (by simp [Call.confirmedKey]))
  | confirmed _ _ _ _ hc' => exact .inl (hgo rfl hc' (by simp [Call.confirmedKey]))
  | failed _ _ _ _ hc' => exact .inl (hgo rfl hc' (by simp [Call.confirmedKey]))
  | sweptRow _ _ _ _ _ _ _ hc' => exact .inl (hgo rfl hc' (by simp [Call.confirmedKey]))
  | retried _ _ _ _ hc' => exact .inl (hgo rfl hc' fun h => h)
  | exhausted _ _ _ _ hc' => exact .inl (hgo rfl hc' fun h => h)
  | conflictRead _ _ _ hc' => exact .inl (hfin rfl (hne hc' rfl))
  | rolledBack _ _ _ hc' => exact .inl (hfin rfl (hne hc' rfl))
  | forced _ _ hc' => exact .inl (hfin rfl (hne hc' rfl))
  | forcedBack _ _ hc' => exact .inl (hfin rfl (hne hc' rfl))
  | swept _ _ _ hc' => exact .inl (hfin rfl (hne hc' rfl))
  | committed id₀ at' hash k hc' =>
    by_cases he : id = id₀
    · subst he
      rw [hc] at hc'
      cases hc'
      exact .inr (.inl ⟨at'.row, .inl ⟨id, at', hash, k, rfl, hc, rfl⟩, Option.some.inj hk⟩)
    · exact .inl (hfin rfl he)
  | marked id₀ at' hash ok hc' =>
    by_cases he : id = id₀
    · subst he
      rw [hc] at hc'
      cases hc'
      exact .inr (.inr (.inl ⟨at', hash, ok, rfl, hc, Option.some.inj hk⟩))
    · exact .inl (hfin rfl he)
  | aborted id₀ call₀ hc' =>
    by_cases he : id = id₀
    · subst he
      exact .inr (.inr (.inr rfl))
    · refine .inl ⟨id, call, ?_, hk⟩
      simp only [OrdMap.get_delete, if_neg he, hc]

end Decisions

section Once

/-- The node's row carries the key, and is not rolled back. -/
def Holds (s : State) (r : SweepRow) : Prop :=
  ∃ row, s.db.nodeStatusTentative.get r.nodeId = some row
    ∧ row.idempotencyKey = r.idempotencyKey ∧ row.state ≠ .rolledBack

/-- If the node's row is pending it carries the key. -/
def ClaimsOwn (s : State) (r : SweepRow) : Prop :=
  ∀ row, s.db.nodeStatusTentative.get r.nodeId = some row → row.state = .pending →
    row.idempotencyKey = r.idempotencyKey

/-- What a step must find so that no key is decided twice: a commit, and a success of the
contract, find the row of their key, not rolled back; a rollback claims no other key's row; the
worker claims no row of a call that is between success and its commit or marker, nor a marked
one; and such a call gets to its commit or marker. -/
structure Guarded (s : State) (a : Action) : Prop where
  commit : ∀ r, CommitsRow s a r → Holds s r
  confirm : ∀ r, ConfirmsRow s a r → Holds s r
  rollback : ∀ r, RollsRow s a r → ClaimsOwn s r
  worker : ∀ r, SweepsRow s a r → ∀ row, s.db.nodeStatusTentative.get r.nodeId = some row →
    row.state = .pending → hasMarker row = false
      ∧ ∀ id call, s.calls.get id = some call → call.confirmedKey ≠ some r.idempotencyKey
  marker : ∀ id, a ≠ .mark id false
  abort : ∀ id call, a = .abort id → s.calls.get id = some call → call.confirmedKey = none

/-- The rows that carry the key are in a state the predicate takes. -/
def RowsOf (s : State) (key : String) (P : TentativeRow → Prop) : Prop :=
  ∀ n row, s.db.nodeStatusTentative.get n = some row → row.idempotencyKey = key → P row

/-- A call that the contract confirmed under the key has not committed and not marked its row. -/
def Finishing (s : State) (key : String) : Prop :=
  ∃ id call, s.calls.get id = some call ∧ call.confirmedKey = some key

/-- What was decided, and what that says of the tables. -/
structure Once (h : List (Taken State Action)) (s : State) : Prop where
  logged : ∀ key, Logged s key → (∃ a, s.issued.get key = some a)
    ∧ RowsOf s key (·.state = .rolledBack)
  committed : ∀ t ∈ h, ∀ r, CommitsRow t.pre t.act r →
    (∃ a, s.issued.get r.idempotencyKey = some a) ∧ ¬ Logged s r.idempotencyKey
      ∧ RowsOf s r.idempotencyKey (·.state = .committed)
  swept : ∀ t ∈ h, ∀ r, SweepsRow t.pre t.act r → Claimable t.pre r.nodeId →
    Logged s r.idempotencyKey
  confirmed : ∀ t ∈ h, ∀ r, ConfirmsRow t.pre t.act r →
    (∃ a, s.issued.get r.idempotencyKey = some a)
      ∧ (∀ u ∈ h, ∀ r', SweepsRow u.pre u.act r' → Claimable u.pre r'.nodeId →
        r'.idempotencyKey ≠ r.idempotencyKey)
      ∧ (Finishing s r.idempotencyKey
        ∨ RowsOf s r.idempotencyKey fun row => row.state = .pending → hasMarker row = true)

variable {s s' : State} {a : Action} {r : SweepRow} {key : String} {h : List (Taken State Action)}

theorem CommitsRow.known (hc : CommitsRow s a r) (hl : Linked s) : Known s.issued r := by
  rcases hc with ⟨id, at', hash, k, -, hc, rfl⟩ | ⟨id, -, hc⟩
  · exact ⟨at', hl.calls _ _ hc, rfl⟩
  · exact hl.calls _ _ hc

theorem RollsRow.known (hr : RollsRow s a r) (hl : Linked s) : Known s.issued r := by
  rcases hr with ⟨id, at', message, -, hc, rfl⟩ | ⟨id, -, hc⟩ | ⟨id, rest, p, k, -, hc⟩
  · exact ⟨at', hl.calls _ _ hc, rfl⟩
  · exact hl.calls _ _ hc
  · exact hl.calls _ _ hc r List.mem_cons_self

theorem ConfirmsRow.known (hc : ConfirmsRow s a r) (hl : Linked s) : Known s.issued r := by
  obtain ⟨id, answer, at', hash, -, hc, -, rfl⟩ := hc
  exact ⟨at', hl.calls _ _ hc, rfl⟩

theorem Known.node {issued : OrdMap String Attempt} {r r' : SweepRow} (h : Known issued r)
    (h' : Known issued r') (he : r.idempotencyKey = r'.idempotencyKey) : r.nodeId = r'.nodeId := by
  obtain ⟨b, hb, rfl⟩ := h
  obtain ⟨b', hb', rfl⟩ := h'
  rw [he, hb'] at hb
  cases hb
  rfl

theorem Linked.node (hl : Linked s) (hr : Known s.issued r) {n : String} {row : TentativeRow}
    (hrow : s.db.nodeStatusTentative.get n = some row)
    (he : row.idempotencyKey = r.idempotencyKey) : n = r.nodeId :=
  (hl.rows n row hrow).node hr he

theorem RowsOf.move {P : TentativeRow → Prop} (hP : RowsOf s key P) (hm : Move s a s')
    (hg : Guarded s a) (hi : ∃ b, s.issued.get key = some b)
    (hcommit : ∀ row row', P row → row.state ≠ .rolledBack → row'.state = .committed → P row')
    (hroll : ∀ row row', P row → row.state = .pending → row'.state = .rolledBack → P row')
    (hmark : ∀ row row', P row → row.state = .pending → row'.state = .pending →
      hasMarker row' = true → P row') : RowsOf s' key P := by
  intro n row' hrow' he
  rcases hm.row hrow' with hold | ⟨r, row, hc, rfl, hrow, hk, hst⟩ | ⟨r, row, hr, rfl, hrow, hp, hk, hst⟩ |
    ⟨row, hrow, hp, hk, hst, hmk⟩ | hnew
  · exact hP n row' hold he
  · obtain ⟨row₁, hrow₁, -, hne⟩ := hg.commit r hc
    rw [hrow] at hrow₁
    cases hrow₁
    exact hcommit row row' (hP _ row hrow (hk ▸ he)) hne hst
  · exact hroll row row' (hP _ row hrow (hk ▸ he)) hp hst
  · exact hmark row row' (hP n row hrow (hk ▸ he)) hp hst hmk
  · obtain ⟨b, hb⟩ := hi
    rw [he, hb] at hnew
    cases hnew

theorem issued_move (hm : Move s a s') (hi : ∃ b, s.issued.get key = some b) :
    ∃ b, s'.issued.get key = some b := by
  obtain ⟨b, hb⟩ := hi
  exact ⟨b, hm.issued hb⟩

theorem Known.issued {issued : OrdMap String Attempt} (h : Known issued r) :
    ∃ b, issued.get r.idempotencyKey = some b := by
  obtain ⟨b, hb, -⟩ := h
  exact ⟨b, hb⟩

theorem not_rolls_of_commits (hc : CommitsRow s a r) {r' : SweepRow} : ¬ RollsRow s a r' := by
  rintro (⟨_, _, _, he, -⟩ | ⟨_, he, -⟩ | ⟨_, _, _, _, he, -⟩) <;>
    rcases hc with ⟨_, _, _, _, hc, -⟩ | ⟨_, hc, -⟩ <;> rw [hc] at he <;> cases he

theorem Once.move_logged (ho : Once h s) (hl : Linked s) (hl' : Linked s') (hm : Move s a s')
    (hg : Guarded s a) (hk : Logged s' key) :
    (∃ b, s'.issued.get key = some b) ∧ RowsOf s' key (·.state = .rolledBack) := by
  rcases hm.logged.1 hk with hk | ⟨r, hr, rfl, hcl⟩
  · obtain ⟨hi, hrows⟩ := ho.logged key hk
    refine ⟨issued_move hm hi, hrows.move hm hg hi ?_ ?_ ?_⟩
    · intro row row' h hne
      exact absurd h hne
    · intro row row' _ _ h
      exact h
    · intro row row' h hp
      rw [h] at hp
      cases hp
  · have hkn := hr.known hl
    refine ⟨issued_move hm hkn.issued, fun n row hrow he => ?_⟩
    have hn := hl'.node (hkn.mono fun _ _ hk => hm.issued hk) hrow he
    rw [hn] at hrow
    exact hm.rolled_row hr hrow hcl

theorem Once.move_committed (ho : Once h s) (hl : Linked s) (hl' : Linked s') (hm : Move s a s')
    (hg : Guarded s a) {t : Taken State Action} (ht : t ∈ (⟨s, a, s'⟩ : Taken State Action) :: h)
    (hc : CommitsRow t.pre t.act r) :
    (∃ b, s'.issued.get r.idempotencyKey = some b) ∧ ¬ Logged s' r.idempotencyKey
      ∧ RowsOf s' r.idempotencyKey (·.state = .committed) := by
  rcases List.mem_cons.1 ht with rfl | ht
  · have hkn := hc.known hl
    obtain ⟨row, hrow, hk, hne⟩ := hg.commit r hc
    refine ⟨issued_move hm hkn.issued, fun hlog => ?_, fun n row' hrow' he => ?_⟩
    · rcases hm.logged.1 hlog with hlog | ⟨r', hr', -⟩
      · exact hne ((ho.logged _ hlog).2 _ row hrow hk)
      · exact not_rolls_of_commits hc hr'
    · have hn := hl'.node (hkn.mono fun _ _ hk => hm.issued hk) hrow' he
      rw [hn] at hrow'
      exact hm.committed_row hc hrow'
  · obtain ⟨hi, hlog, hrows⟩ := ho.committed t ht r hc
    refine ⟨issued_move hm hi, fun hlog' => ?_, hrows.move hm hg hi ?_ ?_ ?_⟩
    · rcases hm.logged.1 hlog' with hlog' | ⟨r', hr', he, row, hrow, hp⟩
      · exact hlog hlog'
      · -- the row that is claimed carries the key, and the rows of the key are committed
        have hst : row.state = .committed :=
          hrows _ row hrow ((hg.rollback r' hr' row hrow hp).trans he)
        rw [hp] at hst
        cases hst
    · intro row row' _ _ h
      exact h
    · intro row row' h hp
      rw [h] at hp
      cases hp
    · intro row row' h hp
      rw [h] at hp
      cases hp

theorem Once.move_swept (ho : Once h s) (hm : Move s a s') {t : Taken State Action}
    (ht : t ∈ (⟨s, a, s'⟩ : Taken State Action) :: h) (hr : SweepsRow t.pre t.act r)
    (hcl : Claimable t.pre r.nodeId) : Logged s' r.idempotencyKey := by
  rcases List.mem_cons.1 ht with rfl | ht
  · exact hm.logged.2 (.inr ⟨r, .inr (.inr hr), rfl, hcl⟩)
  · exact hm.logged.2 (.inl (ho.swept t ht r hr hcl))

theorem shielded_move (hl : Linked s) (hl' : Linked s') (hm : Move s a s') (hg : Guarded s a)
    (hi : ∃ b, s.issued.get key = some b)
    (hsh : Finishing s key ∨ RowsOf s key fun row => row.state = .pending → hasMarker row = true) :
    Finishing s' key ∨ RowsOf s' key fun row => row.state = .pending → hasMarker row = true := by
  rcases hsh with ⟨id, call, hc, hk⟩ | hrows
  · rcases hm.finishing hl hc hk with hfin | ⟨r, hr, rfl⟩ | ⟨at', hash, ok, rfl, hc', rfl⟩ | rfl
    · exact .inl hfin
    · refine .inr fun n row hrow he hp => ?_
      have hn := hl'.node ((hr.known hl).mono fun _ _ hk => hm.issued hk) hrow he
      rw [hn] at hrow
      rw [hm.committed_row hr hrow] at hp
      cases hp
    · rcases ok with _ | _
      · exact absurd rfl (hg.marker id)
      · refine .inr fun n row hrow he hp => ?_
        have hkn : Known s'.issued at'.row := ⟨at', hm.issued (hl.calls _ _ hc'), rfl⟩
        have hn : n = at'.nodeId := hl'.node hkn hrow he
        exact hm.marked_row hc' (hn ▸ hrow) hp
    · rw [hg.abort id call rfl hc] at hk
      cases hk
  · refine .inr (hrows.move hm hg hi ?_ ?_ ?_)
    · intro row row' _ _ hst hp
      rw [hst] at hp
      cases hp
    · intro row row' _ _ hst hp
      rw [hst] at hp
      cases hp
    · intro row row' _ _ _ hmk _
      exact hmk

theorem Once.move_confirmed (ho : Once h s) (hl : Linked s) (hl' : Linked s') (hm : Move s a s')
    (hg : Guarded s a) {t : Taken State Action} (ht : t ∈ (⟨s, a, s'⟩ : Taken State Action) :: h)
    (hc : ConfirmsRow t.pre t.act r) :
    (∃ b, s'.issued.get r.idempotencyKey = some b)
      ∧ (∀ u ∈ (⟨s, a, s'⟩ : Taken State Action) :: h, ∀ r', SweepsRow u.pre u.act r' →
        Claimable u.pre r'.nodeId → r'.idempotencyKey ≠ r.idempotencyKey)
      ∧ (Finishing s' r.idempotencyKey ∨ RowsOf s' r.idempotencyKey fun row =>
        row.state = .pending → hasMarker row = true) := by
  rcases List.mem_cons.1 ht with rfl | ht
  · have hkn := hc.known hl
    obtain ⟨row, hrow, hk, hne⟩ := hg.confirm r hc
    refine ⟨issued_move hm hkn.issued, fun u hu r' hr' hcl he => ?_, .inl ?_⟩
    · rcases List.mem_cons.1 hu with rfl | hu
      · obtain ⟨_, _, _, _, hact, -⟩ := hc
        obtain ⟨_, _, _, _, hact', -⟩ := hr'
        rw [hact'] at hact
        cases hact
      · have hlog := ho.swept u hu r' hr' hcl
        rw [he] at hlog
        exact hne ((ho.logged _ hlog).2 _ row hrow hk)
    · exact hm.confirmed_call hc
  · obtain ⟨hi, hno, hsh⟩ := ho.confirmed t ht r hc
    refine ⟨issued_move hm hi, fun u hu r' hr' hcl he => ?_, shielded_move hl hl' hm hg hi hsh⟩
    rcases List.mem_cons.1 hu with rfl | hu
    · obtain ⟨row, hrow, hp⟩ := hcl
      obtain ⟨hmk, hlive⟩ := hg.worker r' hr' row hrow hp
      have hown := hg.rollback r' (.inr (.inr hr')) row hrow hp
      rcases hsh with ⟨id, call, hcall, hk⟩ | hrows
      · exact hlive id call hcall (he ▸ hk)
      · have hmk' := hrows _ row hrow (hown.trans he) hp
        rw [hmk] at hmk'
        cases hmk'
    · exact hno u hu r' hr' hcl he

variable {o : Options}

theorem once_run (hr : Run (sys o) h s) (hg : Along Guarded h) : Once h s := by
  induction hr with
  | start hi =>
    obtain ⟨nodes, now, rfl⟩ := hi
    constructor <;> simp [Logged]
  | @next h s s' a hr hs ih =>
    have ho := ih hg.tail
    have hl := linked_reachable hr.reachable
    have hm := step_move hs
    have hl' := hl.move hm
    exact ⟨fun key hk => ho.move_logged hl hl' hm hg.head hk,
      fun t ht r hc => ho.move_committed hl hl' hm hg.head ht hc,
      fun t ht r hr' hcl => ho.move_swept hm ht hr' hcl,
      fun t ht r hc => ho.move_confirmed hl hl' hm hg.head ht hc⟩

/-- In every run whose steps are guarded: no key is in the rollback log that a commit carried, and
the worker claims no row of a key that the contract confirmed, before or after. -/
theorem decided_once (hr : Run (sys o) h s) (hg : Along Guarded h) :
    (∀ t ∈ h, ∀ r, CommitsRow t.pre t.act r → ¬ Logged s r.idempotencyKey)
      ∧ ∀ t ∈ h, ∀ u ∈ h, ∀ r r', ConfirmsRow t.pre t.act r → SweepsRow u.pre u.act r' →
        Claimable u.pre r'.nodeId → r'.idempotencyKey ≠ r.idempotencyKey := by
  have ho := once_run hr hg
  exact ⟨fun t ht r hc => (ho.committed t ht r hc).2.1,
    fun t ht u hu r r' hc hr' hcl => (ho.confirmed t ht r hc).2.1 u hu r' hr' hcl⟩

end Once

section Checks

instance (s : State) (r : SweepRow) : Decidable (Holds s r) :=
  decidable_of_iff ((s.db.nodeStatusTentative.get r.nodeId).any fun row =>
      row.idempotencyKey = r.idempotencyKey ∧ row.state ≠ .rolledBack)
    (by simp [Holds, Option.any_eq_true])

instance (s : State) (r : SweepRow) : Decidable (ClaimsOwn s r) :=
  decidable_of_iff ((s.db.nodeStatusTentative.get r.nodeId).all fun row =>
      row.state = .pending → row.idempotencyKey = r.idempotencyKey)
    (by simp [ClaimsOwn, Option.all_eq_true, imp_iff_not_or])

instance (s : State) (key : String) : Decidable (Logged s key) :=
  inferInstanceAs (Decidable (∃ l ∈ s.db.twoPhaseRollbackLog, l.idempotencyKey = key))

/-- The guards, as a check of the step. -/
def guards (s : State) : Action → Bool
  | .commit id true =>
    match s.calls.get id with
    | some (.committing a _ _) => Holds s a.row
    | _ => true
  | .forceCommit id =>
    match s.calls.get id with
    | some (.forceCommitting r) => Holds s r
    | _ => true
  | .contractAnswered id answer =>
    match s.calls.get id, answer.outcome with
    | some (.calling a), .ok _ => Holds s a.row
    | _, _ => true
  | .rollback id =>
    match s.calls.get id with
    | some (.rollingBack a _) => ClaimsOwn s a.row
    | _ => true
  | .forceRollback id =>
    match s.calls.get id with
    | some (.forceRollingBack r) => ClaimsOwn s r
    | _ => true
  | .sweepNext id =>
    match s.calls.get id with
    | some (.sweeping (r :: _) _ _) => ClaimsOwn s r
      && (s.db.nodeStatusTentative.get r.nodeId).all (fun row => row.state ≠ .pending
        || !hasMarker row && s.calls.entries.all fun e => e.2.confirmedKey ≠ some r.idempotencyKey)
    | _ => true
  | .mark _ ok => ok
  | .abort id => (s.calls.get id).all fun call => call.confirmedKey = none
  | _ => true

variable {s : State} {a : Action}

theorem guarded_of_guards (h : guards s a = true) : Guarded s a where
  commit := by
    rintro r (⟨id, at', hash, k, rfl, hc, rfl⟩ | ⟨id, rfl, hc⟩)
    · simpa [guards, hc] using h
    · simpa [guards, hc] using h
  confirm := by
    rintro r ⟨id, answer, at', hash, rfl, hc, hok, rfl⟩
    simpa [guards, hc, hok] using h
  rollback := by
    rintro r (⟨id, at', message, rfl, hc, rfl⟩ | ⟨id, rfl, hc⟩ | ⟨id, rest, p, k, rfl, hc⟩)
    · simpa [guards, hc] using h
    · simpa [guards, hc] using h
    · simp only [guards, hc, Bool.and_eq_true, decide_eq_true_eq] at h
      exact h.1
  worker := by
    rintro r ⟨id, rest, p, k, rfl, hc⟩ row hrow hp
    simp only [guards, hc, Bool.and_eq_true, hrow, hp, Option.all_some] at h
    simp only [ne_eq, not_true_eq_false, decide_false, Bool.false_or, Bool.and_eq_true,
      Bool.not_eq_true', List.all_eq_true, decide_eq_true_eq] at h
    exact ⟨h.2.1, fun id' call hcall => h.2.2 (id', call) (OrdMap.mem_entries_iff.2 hcall)⟩
  marker := by
    rintro id rfl
    cases h
  abort := by
    rintro id call rfl hc
    simpa [guards, hc] using h

end Checks

section Runs

theorem decided_once_runs : ∃ h s, Run (sys { sha256 := id }) h s
    ∧ fetchCommittedStatus s.db "m" = some .archived ∧ Logged s "n:7:x"
    ∧ ∀ t ∈ h, ∀ r, CommitsRow t.pre t.act r → ¬ Logged s r.idempotencyKey := by
  obtain ⟨h, s, hr, hp⟩ := Sys.exists_run (S := sys { sha256 := id })
    ⟨(OrdMap.empty.set "n" ⟨.provisioned, 0⟩).set "m" ⟨.active, 0⟩, 0, rfl⟩
    [.transition "n" .pending, .transition "m" .archived, .phase1 0 "7" "x", .phase1 1 "7" "y",
      .abort 0, .contractAnswered 1 (.returned "h" true none), .commit 1 true, .tick 30001,
      .sweep [], .sweepNext 2, .sweepNext 2]
    (p := fun x => fetchCommittedStatus x.2.db "m" = some .archived && Logged x.2 "n:7:x"
      && x.1.all fun t => guards t.pre t.act)
    (by decide +kernel)
  simp only [Bool.and_eq_true, decide_eq_true_eq, List.all_eq_true] at hp
  exact ⟨h, s, hr, hp.1.1, hp.1.2,
    (decided_once hr fun t ht => guarded_of_guards (hp.2 t ht)).1⟩

/-- The attempt expires while its contract call is out; the worker rolls it back, the call comes
back with success, and the commit is written all the same. -/
theorem swept_key_committed : ∃ h s t r, Run (sys { sha256 := id }) h s ∧ t ∈ h
    ∧ CommitsRow t.pre t.act r ∧ Logged s r.idempotencyKey
    ∧ ∃ u ∈ h, ∃ v ∈ h, ConfirmsRow u.pre u.act r ∧ SweepsRow v.pre v.act r
      ∧ Claimable v.pre r.nodeId := by
  let at' : Attempt := ⟨"n", .provisioned, .pending, "n:7:x"⟩
  have he : ∃ s₁ s₂ s₃ s₄ h, (sys { sha256 := id }).exec
      { db := { nodeStatus := OrdMap.empty.set "n" ⟨.provisioned, 0⟩ } } []
      [.transition "n" .pending, .phase1 0 "7" "x", .tick 30001, .sweep [], .sweepNext 1,
        .contractAnswered 0 (.returned "h" true none), .commit 0 true]
      = some (⟨s₃, .commit 0 true, s₄⟩ :: ⟨s₂, .contractAnswered 0 (.returned "h" true none), s₃⟩
        :: ⟨s₁, .sweepNext 1, s₂⟩ :: h, s₄)
      ∧ s₁.calls.get 1 = some (.sweeping [at'.row] 0 0)
      ∧ (s₁.db.nodeStatusTentative.get "n").map (·.state) = some .pending
      ∧ s₂.calls.get 0 = some (.calling at') ∧ s₃.calls.get 0 = some (.committing at' "h" 1)
      ∧ s₄.db.twoPhaseRollbackLog = [⟨"n", "n:7:x", .pending, sweepReason, 30001⟩] :=
    ⟨_, _, _, _, _, rfl, rfl, rfl, rfl, rfl, rfl⟩
  obtain ⟨s₁, s₂, s₃, s₄, h, he, hsweep, hrow, hcall, hcommit, hlog⟩ := he
  have hr := Sys.run_of_exec (Run.start (S := sys { sha256 := id }) ⟨_, 0, rfl⟩) he
  refine ⟨_, s₄, _, at'.row, hr, List.mem_cons_self, .inl ⟨0, at', "h", 1, rfl, hcommit, rfl⟩,
    ?_, _, List.mem_cons_of_mem _ List.mem_cons_self, _,
    List.mem_cons_of_mem _ (List.mem_cons_of_mem _ List.mem_cons_self),
    ⟨0, _, at', "h", rfl, hcall, rfl, rfl⟩, ⟨1, [], 0, 0, rfl, hsweep⟩,
    Option.map_eq_some_iff.1 hrow⟩
  unfold Logged
  rw [hlog]
  exact ⟨_, List.mem_cons_self, rfl⟩

end Runs

end TwoPhase

end VeriNode
