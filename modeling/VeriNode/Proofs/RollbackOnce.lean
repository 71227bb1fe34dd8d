import VeriNode.State.Rollback

/-!
# A rollback is done once

A call throws and changes nothing, or reports that it claimed the node's pending row and has done all
that a rollback does (`Claimed`), or reports that it claimed none and has changed nothing
(`execute_cases`). The row it claims is pending no more, so it is claimed once: by the same call again
(`execute_again`), and by calls at the same time, which wait for each other at the row (`Raced`).
-/

namespace VeriNode

namespace RollbackStatements

section Once

variable {c : Call} {now now' : ℕ} {fails fails' : Point → Bool} {t t' : Tables} {claimed : Bool}

/-- The node's row, if it is pending. -/
def pendingRow (nodeId : String) (t : Tables) : Option TentativeRecord :=
  (t.nodeStatusTentative.get nodeId).filter (·.state = some "PENDING")

/-- The row as a rollback leaves it. -/
def rolledBack (c : Call) (now : ℕ) (row : TentativeRecord) : TentativeRecord :=
  { row with state := some "ROLLED_BACK", errorDetail := some c.reason, resolvedAt := some now }

/-- What a rollback does, if nothing fails in it. -/
def afterCascade (c : Call) (now : ℕ) (t : Tables) : Tables :=
  cascade.foldl (fun t s => s.run c now t) (claim c now t).2

theorem claim_of_pending {row : TentativeRecord} (h : pendingRow c.nodeId t = some row) :
    claim c now t = (1, { t with
      nodeStatusTentative := t.nodeStatusTentative.set c.nodeId (rolledBack c now row) }) := by
  obtain ⟨hrow, hp⟩ := Option.filter_eq_some_iff.1 h
  rw [decide_eq_true_iff] at hp
  unfold claim
  rw [hrow]
  exact if_pos hp

theorem claim_of_not_pending (h : pendingRow c.nodeId t = none) : claim c now t = (0, t) := by
  unfold claim
  rcases hrow : t.nodeStatusTentative.get c.nodeId with _ | row
  · rfl
  · rw [pendingRow, hrow] at h
    exact if_neg (by simpa using h)

theorem foldlM_statements : ∀ (l : List Statement) (t : Tables) {t' : Tables},
    l.foldlM (fun t s => if fails (.statement s) then none else some (s.run c now t)) t = some t' →
    t' = l.foldl (fun t s => s.run c now t) t
  | [], t, t', h => (Option.some.inj h).symm
  | s :: l, t, t', h => by
    rw [List.foldlM_cons, Option.bind_eq_bind, Option.bind_eq_some_iff] at h
    obtain ⟨t₁, ht₁, h⟩ := h
    split_ifs at ht₁
    obtain rfl := Option.some.inj ht₁
    exact foldlM_statements l _ h

theorem transaction_cases (h : transaction c now fails t = some (claimed, t')) :
    claimed = false ∧ pendingRow c.nodeId t = none ∧ t' = t
      ∨ claimed = true ∧ (pendingRow c.nodeId t).isSome ∧ t' = afterCascade c now t := by
  unfold transaction at h
  by_cases hstart : (fails .begin || fails .claim) = true
  · rw [if_pos hstart] at h
    cases h
  rw [if_neg hstart] at h
  rcases hp : pendingRow c.nodeId t with _ | row
  · rw [claim_of_not_pending hp] at h
    by_cases hcommit : fails .commit = true
    · simp [hcommit] at h
    · simp only [if_true, hcommit, Bool.false_eq_true, if_false, Option.some.injEq,
        Prod.mk.injEq] at h
      exact .inl ⟨h.1.symm, rfl, h.2.symm⟩
  · have hcount : (claim c now t).1 ≠ 0 := by simp [claim_of_pending hp]
    simp only [hcount, if_false] at h
    split at h
    · cases h
    · rename_i t₁ ht₁
      by_cases hcommit : fails .commit = true
      · simp [hcommit] at h
      · simp only [hcommit, Bool.false_eq_true, if_false, Option.some.injEq, Prod.mk.injEq] at h
        refine .inr ⟨h.1.symm, rfl, ?_⟩
        rw [← h.2]
        exact foldlM_statements cascade _ ht₁

/-- All that a rollback that claimed the row has done. -/
structure Claimed (c : Call) (now : ℕ) (t t' : Tables) : Prop where
  row : ∃ row, t.nodeStatusTentative.get c.nodeId = some row ∧ row.state = some "PENDING"
    ∧ t'.nodeStatusTentative.get c.nodeId = some (rolledBack c now row)
  others : ∀ n, n ≠ c.nodeId → t'.nodeStatusTentative.get n = t.nodeStatusTentative.get n
  log : t'.twoPhaseRollbackLog = t.twoPhaseRollbackLog ++
    [⟨c.nodeId, c.idempotencyKey, c.targetStatus, some c.reason, some now⟩]
  adjustments : ∀ x ∈ t'.reputationAdjustments,
    ¬ (x.nodeId = c.nodeId ∧ x.idempotencyKey = c.idempotencyKey)

theorem claimed_afterCascade (h : (pendingRow c.nodeId t).isSome) :
    Claimed c now t (afterCascade c now t) := by
  obtain ⟨row, hp⟩ := Option.isSome_iff_exists.1 h
  obtain ⟨hrow, hstate⟩ := Option.filter_eq_some_iff.1 hp
  have htentative : (afterCascade c now t).nodeStatusTentative
      = t.nodeStatusTentative.set c.nodeId (rolledBack c now row) := by
    rw [afterCascade, claim_of_pending hp]
    rfl
  constructor
  · exact ⟨row, hrow, of_decide_eq_true hstate, by rw [htentative, OrdMap.get_set_self]⟩
  · intro n hn
    rw [htentative, OrdMap.get_set_of_ne _ _ hn]
  · rw [afterCascade, claim_of_pending hp]
    rfl
  · intro x hx
    have hx' : x ∈ t.reputationAdjustments.filter fun x => ¬ tagged c x := by
      rw [afterCascade, claim_of_pending hp] at hx
      exact hx
    have htag := List.of_mem_filter hx'
    simp only [tagged, decide_eq_true_eq] at htag
    exact htag

theorem transaction_of_no_failure (h : ∀ p, fails p = false) :
    transaction c now fails t = if (pendingRow c.nodeId t).isSome
      then some (true, afterCascade c now t) else some (false, t) := by
  unfold transaction
  rcases hp : pendingRow c.nodeId t with _ | row
  · simp [h, claim_of_not_pending hp]
  · have hcount : (claim c now t).1 ≠ 0 := by simp [claim_of_pending hp]
    simp only [h, Bool.or_self, Bool.false_eq_true, if_false, hcount, Option.isSome_some, if_true]
    rfl

theorem exists_failure (h : transaction c now fails t = none) : ∃ p, fails p = true := by
  by_contra hno
  have hfails : ∀ p, fails p = false := fun p => eq_false_of_ne_true fun hp => hno ⟨p, hp⟩
  rw [transaction_of_no_failure hfails] at h
  split_ifs at h

/-- A call throws where something failed, claims, or finds nothing to claim, and what it does not
claim it leaves. -/
theorem execute_cases (c : Call) (now : ℕ) (fails : Point → Bool) (t : Tables) :
    ((∃ p, fails p = true) ∧ execute c now fails t = (.threw, t))
      ∨ (∃ t', execute c now fails t = (.reported true, t') ∧ Claimed c now t t')
      ∨ execute c now fails t = (.reported false, t) := by
  unfold execute
  rcases h : transaction c now fails t with _ | ⟨claimed, t'⟩
  · exact .inl ⟨exists_failure h, rfl⟩
  · rcases transaction_cases h with ⟨rfl, -, rfl⟩ | ⟨rfl, hp, rfl⟩
    · exact .inr (.inr rfl)
    · exact .inr (.inl ⟨_, rfl, claimed_afterCascade hp⟩)

theorem pendingRow_of_reported (h : execute c now fails t = (.reported claimed, t')) :
    pendingRow c.nodeId t' = none := by
  unfold execute at h
  rcases htr : transaction c now fails t with _ | ⟨claimed', t₁⟩
  · rw [htr] at h
    cases (Prod.mk.inj h).1
  · rw [htr] at h
    obtain rfl := (Prod.mk.inj h).2
    rcases transaction_cases htr with ⟨-, hp, rfl⟩ | ⟨-, hp, rfl⟩
    · exact hp
    · obtain ⟨row, -, -, hrow⟩ := (claimed_afterCascade hp : Claimed c now t _).row
      rw [pendingRow, hrow]
      rfl

theorem execute_of_not_pending (h : pendingRow c.nodeId t = none) :
    execute c now fails t = (.reported false, t)
      ∨ (∃ p, fails p = true) ∧ execute c now fails t = (.threw, t) := by
  unfold execute
  rcases htr : transaction c now fails t with _ | ⟨claimed, t'⟩
  · exact .inr ⟨exists_failure htr, rfl⟩
  · rcases transaction_cases htr with ⟨rfl, -, rfl⟩ | ⟨-, hp, -⟩
    · exact .inl rfl
    · rw [h] at hp
      cases hp

theorem execute_again (h : execute c now fails t = (.reported claimed, t')) :
    execute c now' fails' t' = (.reported false, t')
      ∨ (∃ p, fails' p = true) ∧ execute c now' fails' t' = (.threw, t') :=
  execute_of_not_pending (pendingRow_of_reported h)

end Once

section Race

variable {nodeId : String} {t₀ : Tables} {s s' : State} {a : Action} {i j : ℕ} {e e' : Execution}
  {h : List (Taken State Action)}

/-- What a step does. -/
inductive Move (s : State) : Action → State → Prop
  | claimed {i now : ℕ} {e : Execution} : s.executions[i]? = some e → e.phase = .ready →
      (∀ e' ∈ s.executions, e'.holds = false) → (pendingRow e.call.nodeId s.tables).isSome →
      Move s (.claim i now) (s.enter i e (.working now cascade (claim e.call now s.tables).2))
  | skipped {i now : ℕ} {e : Execution} : s.executions[i]? = some e → e.phase = .ready →
      pendingRow e.call.nodeId s.tables = none →
      Move s (.claim i now) (s.enter i e (.settled (.reported false)))
  | statement {i now : ℕ} {e : Execution} {st : Statement} {left : List Statement} {view : Tables} :
      s.executions[i]? = some e → e.phase = .working now (st :: left) view →
      Move s (.statement i) (s.enter i e (.working now left (st.run e.call now view)))
  | commit {i now : ℕ} {e : Execution} {view : Tables} : s.executions[i]? = some e →
      e.phase = .working now [] view →
      Move s (.commit i) { s.enter i e (.settled (.reported true)) with tables := view }
  | fail {i : ℕ} {e : Execution} : s.executions[i]? = some e → (∀ o, e.phase ≠ .settled o) →
      Move s (.fail i) (s.enter i e (.settled .threw))

theorem step_move (h : step s a = some s') : Move s a s' := by
  cases a with
  | claim i now =>
    rw [step] at h
    split at h
    · rename_i e he
      split at h
      · rename_i hready
        split_ifs at h with hholds
        rcases hp : pendingRow e.call.nodeId s.tables with _ | row
        · rw [claim_of_not_pending hp] at h
          obtain rfl := Option.some.inj h
          exact .skipped he hready hp
        · have hcount : (claim e.call now s.tables).1 ≠ 0 := by simp [claim_of_pending hp]
          simp only [hcount, if_false] at h
          obtain rfl := Option.some.inj h
          refine .claimed he hready (fun e' he' => ?_) (by rw [hp]; rfl)
          exact eq_false_of_ne_true fun hh => hholds (List.any_eq_true.2 ⟨e', he', hh⟩)
      · cases h
    · cases h
  | statement i =>
    rw [step] at h
    split at h
    · rename_i e he
      split at h
      · rename_i hphase
        obtain rfl := Option.some.inj h
        exact .statement he hphase
      · cases h
    · cases h
  | commit i =>
    rw [step] at h
    split at h
    · rename_i e he
      split at h
      · rename_i hphase
        obtain rfl := Option.some.inj h
        exact .commit he hphase
      · cases h
    · cases h
  | fail i =>
    rw [step] at h
    split at h
    · rename_i e he
      split at h
      · cases h
      · rename_i hphase
        obtain rfl := Option.some.inj h
        exact .fail he hphase
    · cases h

theorem executions_enter (he : s.executions[i]? = some e) (p : Phase) (j : ℕ) :
    (s.enter i e p).executions[j]? = if j = i then some { e with phase := p }
      else s.executions[j]? := by
  have hi : i < s.executions.length := (List.getElem?_eq_some_iff.1 he).1
  rw [State.enter, List.getElem?_set]
  by_cases hj : j = i
  · rw [if_pos hj.symm, if_pos hj, if_pos hi]
  · rw [if_neg (Ne.symm hj), if_neg hj]

/-- No call has reported. At most one has claimed the row, and with what it has left to do it will
have done all that a rollback does. -/
structure Open (t₀ : Tables) (s : State) : Prop where
  tables : s.tables = t₀
  silent : ∀ (i : ℕ) (e : Execution) (claimed : Bool), s.executions[i]? = some e →
    e.phase ≠ .settled (.reported claimed)
  one : ∀ (i j : ℕ) (e e' : Execution), s.executions[i]? = some e → s.executions[j]? = some e' →
    e.holds = true → e'.holds = true → i = j
  view : ∀ (i : ℕ) (e : Execution) (now : ℕ) (left : List Statement) (view : Tables),
    s.executions[i]? = some e → e.phase = .working now left view →
    left.foldl (fun t st => st.run e.call now t) view = afterCascade e.call now t₀

/-- One call has reported that it claimed the row and has done all that a rollback does. The others
have not claimed it and will not. -/
structure Won (t₀ : Tables) (s : State) (i : ℕ) (e : Execution) : Prop where
  winner : s.executions[i]? = some e ∧ e.phase = .settled (.reported true)
  tables : ∃ now, s.tables = afterCascade e.call now t₀
  others : ∀ (j : ℕ) (e' : Execution), s.executions[j]? = some e' → j ≠ i →
    e'.holds = false ∧ e'.phase ≠ .settled (.reported true)

/-- What is so in every state. -/
structure Raced (nodeId : String) (t₀ : Tables) (s : State) : Prop where
  node : ∀ (i : ℕ) (e : Execution), s.executions[i]? = some e → e.call.nodeId = nodeId
  law : Open t₀ s ∨ ∃ i e, Won t₀ s i e

theorem node_enter
    (hn : ∀ (i : ℕ) (e : Execution), s.executions[i]? = some e → e.call.nodeId = nodeId)
    (he : s.executions[i]? = some e) (p : Phase) (j : ℕ) (e' : Execution)
    (he' : (s.enter i e p).executions[j]? = some e') : e'.call.nodeId = nodeId := by
  rw [executions_enter he] at he'
  split_ifs at he'
  · obtain rfl := Option.some.inj he'
    exact hn i e he
  · exact hn j e' he'

theorem holds_iff : e.holds = true ↔ ∃ now left view, e.phase = .working now left view := by
  unfold Execution.holds
  split
  · rename_i now left view hp
    exact iff_of_true rfl ⟨now, left, view, hp⟩
  · rename_i hp
    refine iff_of_false Bool.false_ne_true ?_
    rintro ⟨now, left, view, he⟩
    exact hp now left view he

/-- A call that goes on without having reported leaves the race open. -/
theorem Open.enter (ho : Open t₀ s) (he : s.executions[i]? = some e) {p : Phase}
    (hsilent : ∀ claimed, p ≠ .settled (.reported claimed))
    (hone : ∀ now left view, p = .working now left view →
      e.holds = true ∨ ∀ e' ∈ s.executions, e'.holds = false)
    (hview : ∀ now left view, p = .working now left view →
      left.foldl (fun t st => st.run e.call now t) view = afterCascade e.call now t₀) :
    Open t₀ (s.enter i e p) := by
  -- whoever else holds the row held it before, and so did this call
  have hother : ∀ j e', s.executions[j]? = some e' → e'.holds = true → j ≠ i →
      ({ e with phase := p } : Execution).holds = false := by
    intro j e' he' hh hne
    refine eq_false_of_ne_true fun hp => ?_
    obtain ⟨now, left, view, hp⟩ := holds_iff.1 hp
    rcases hone now left view hp with hheld | hnone
    · exact hne (ho.one j i e' e he' he hh hheld)
    · rw [hnone e' (List.mem_of_getElem? he')] at hh
      cases hh
  constructor
  · exact ho.tables
  · intro j e' claimed he'
    rw [executions_enter he] at he'
    split_ifs at he'
    · obtain rfl := Option.some.inj he'
      exact hsilent claimed
    · exact ho.silent j e' claimed he'
  · intro j k ej ek hj hk hhj hhk
    rw [executions_enter he] at hj hk
    split_ifs at hj hk with hji hki hki
    · exact hji.trans hki.symm
    · obtain rfl := Option.some.inj hj
      rw [hother k ek hk hhk hki] at hhj
      cases hhj
    · obtain rfl := Option.some.inj hk
      rw [hother j ej hj hhj hji] at hhk
      cases hhk
    · exact ho.one j k ej ek hj hk hhj hhk
  · intro j e' now left view he'
    rw [executions_enter he] at he'
    split_ifs at he'
    · obtain rfl := Option.some.inj he'
      exact hview now left view
    · exact ho.view j e' now left view he'

theorem Won.enter {k : ℕ} {w : Execution} (hw : Won t₀ s k w) (he : s.executions[i]? = some e)
    (hne : i ≠ k) {o : Outcome} (ho : o ≠ .reported true) :
    Won t₀ (s.enter i e (.settled o)) k w := by
  constructor
  · rw [executions_enter he, if_neg (Ne.symm hne)]
    exact hw.winner
  · exact hw.tables
  · intro j e' he' hj
    rw [executions_enter he] at he'
    split_ifs at he'
    · obtain rfl := Option.some.inj he'
      exact ⟨rfl, fun hp => ho (by injection hp)⟩
    · exact hw.others j e' he' hj

theorem Won.ne {k : ℕ} {w : Execution} (hw : Won t₀ s k w) (he : s.executions[i]? = some e)
    (hphase : e.phase ≠ .settled (.reported true)) : i ≠ k := by
  rintro rfl
  rw [hw.winner.1] at he
  cases he
  exact hphase hw.winner.2

theorem Won.not_holds {k : ℕ} {w : Execution} (hw : Won t₀ s k w) (he : s.executions[i]? = some e) :
    ¬ e.holds = true := by
  intro hholds
  obtain ⟨now, left, view, hphase⟩ := holds_iff.1 hholds
  have hne := hw.ne he fun h => by rw [h] at hphase; cases hphase
  rw [(hw.others i e he hne).1] at hholds
  cases hholds

theorem Won.not_pending {k : ℕ} {w : Execution} (hw : Won t₀ s k w)
    (hp : (pendingRow w.call.nodeId t₀).isSome) : pendingRow w.call.nodeId s.tables = none := by
  obtain ⟨now, ht⟩ := hw.tables
  obtain ⟨row, -, -, hrow⟩ := (claimed_afterCascade hp : Claimed w.call now t₀ _).row
  rw [ht, pendingRow, hrow]
  rfl

theorem Raced.move (hr : Raced nodeId t₀ s) (hp : (pendingRow nodeId t₀).isSome) (hm : Move s a s') :
    Raced nodeId t₀ s' := by
  cases hm with
  | claimed he hready hnone hpending =>
    rename_i i now e
    refine ⟨node_enter hr.node he _, ?_⟩
    rcases hr.law with ho | ⟨k, w, hw⟩
    · refine .inl (ho.enter he (fun claimed hphase => by cases hphase) ?_ ?_)
      · intro now left view _
        exact .inr hnone
      · rintro now left view hphase
        cases hphase
        rw [ho.tables]
        rfl
    · have hnode : e.call.nodeId = w.call.nodeId :=
        (hr.node i e he).trans (hr.node k w hw.winner.1).symm
      rw [hnode, hw.not_pending (by rw [hr.node k w hw.winner.1]; exact hp)] at hpending
      cases hpending
  | skipped he hready hnone =>
    rename_i i now e
    refine ⟨node_enter hr.node he _, ?_⟩
    rcases hr.law with ho | ⟨k, w, hw⟩
    · rw [ho.tables, hr.node i e he] at hnone
      rw [hnone] at hp
      cases hp
    · have hne := hw.ne he fun h => by rw [h] at hready; cases hready
      exact .inr ⟨k, w, hw.enter he hne fun h => by cases h⟩
  | statement he hphase =>
    rename_i i now e st left view
    refine ⟨node_enter hr.node he _, ?_⟩
    have hholds : e.holds = true := holds_iff.2 ⟨_, _, _, hphase⟩
    rcases hr.law with ho | ⟨k, w, hw⟩
    · refine .inl (ho.enter he (fun claimed hp => by cases hp) ?_ ?_)
      · intro _ _ _ _
        exact .inl hholds
      · rintro _ _ _ hworking
        cases hworking
        exact ho.view i e now (st :: left) view he hphase
    · exact absurd hholds (hw.not_holds he)
  | commit he hphase =>
    rename_i i now e view
    refine ⟨node_enter hr.node he _, ?_⟩
    have hholds : e.holds = true := holds_iff.2 ⟨_, _, _, hphase⟩
    rcases hr.law with ho | ⟨k, w, hw⟩
    · refine .inr ⟨i, { e with phase := .settled (.reported true) }, ⟨?_, rfl⟩,
        ⟨now, ho.view i e now [] view he hphase⟩, fun j e' he' hj => ?_⟩
      · rw [executions_enter he, if_pos rfl]
      · rw [executions_enter he, if_neg hj] at he'
        refine ⟨eq_false_of_ne_true fun hh => hj (ho.one j i e' e he' he hh hholds), ?_⟩
        exact ho.silent j e' true he'
    · exact absurd hholds (hw.not_holds he)
  | fail he hphase =>
    rename_i i e
    refine ⟨node_enter hr.node he _, ?_⟩
    rcases hr.law with ho | ⟨k, w, hw⟩
    · refine .inl (ho.enter he (fun claimed hp => by cases hp) ?_ ?_)
      · intro _ _ _ hp
        cases hp
      · intro _ _ _ hp
        cases hp
    · exact .inr ⟨k, w, hw.enter he (hw.ne he (hphase _)) fun h => by cases h⟩

theorem raced_of_run (hp : (pendingRow nodeId t₀).isSome) (hr : Run (sys nodeId t₀) h s) :
    Raced nodeId t₀ s := by
  refine hr.invariant (fun s hi => ?_) fun s a s' hs hstep => hs.move hp (step_move hstep)
  obtain ⟨htables, hready⟩ := hi
  have hphase (i : ℕ) (e : Execution) (he : s.executions[i]? = some e) : e.phase = .ready :=
    (hready e (List.mem_of_getElem? he)).2
  refine ⟨fun i e he => (hready e (List.mem_of_getElem? he)).1, .inl ⟨htables, ?_, ?_, ?_⟩⟩
  · intro i e claimed he hp
    rw [hphase i e he] at hp
    cases hp
  · intro i j e e' he _ hh _
    obtain ⟨now, left, view, hp⟩ := holds_iff.1 hh
    rw [hphase i e he] at hp
    cases hp
  · intro i e now left view he hp
    rw [hphase i e he] at hp
    cases hp

theorem phase_of_enter (he : s.executions[i]? = some e) {p : Phase}
    (he' : e' ∈ (s.enter i e p).executions) : e' ∈ s.executions ∨ e'.phase = p := by
  obtain ⟨j, hj⟩ := List.mem_iff_getElem?.1 he'
  rw [executions_enter he] at hj
  split_ifs at hj
  · obtain rfl := Option.some.inj hj
    exact .inr rfl
  · exact .inl (List.mem_of_getElem? hj)

theorem Move.threw (hm : Move s a s') (ha : ∀ i, a ≠ .fail i)
    (hs : ∀ e ∈ s.executions, e.phase ≠ .settled .threw) :
    ∀ e ∈ s'.executions, e.phase ≠ .settled .threw := by
  intro e' he' hthrew
  have hset {i : ℕ} {e : Execution} {p : Phase} (he : s.executions[i]? = some e)
      (he' : e' ∈ (s.enter i e p).executions) (hp : p ≠ .settled .threw) : False := by
    rcases phase_of_enter he he' with hmem | hphase
    · exact hs e' hmem hthrew
    · exact hp (hphase.symm.trans hthrew)
  cases hm with
  | claimed he => exact hset he he' fun h => by cases h
  | skipped he => exact hset he he' fun h => by cases h
  | statement he => exact hset he he' fun h => by cases h
  | commit he => exact hset he he' fun h => by cases h
  | fail he => exact ha _ rfl

theorem not_threw_of_run (hr : Run (sys nodeId t₀) h s)
    (hfail : Along (fun _ a => ∀ i, a ≠ Action.fail i) h) :
    ∀ e ∈ s.executions, e.phase ≠ .settled .threw := by
  refine hr.invariant_of (fun s hi e he hphase => ?_)
    (fun s₁ a s₂ hs ha (hstep : step s₁ a = some s₂) => (step_move hstep).threw ha hs) hfail
  rw [(hi.2 e he).2] at hphase
  cases hphase

def Execution.over (e : Execution) : Prop := ∃ o, e.phase = .settled o

/-- Of calls for a pending row one goes on, if not all are over. -/
theorem exists_step (hn : ∃ e ∈ s.executions, ¬ e.over) : ∃ a s', step s a = some s'
    ∧ ∀ i, a ≠ .fail i := by
  by_cases hh : ∃ e ∈ s.executions, e.holds = true
  · obtain ⟨e, he, hholds⟩ := hh
    obtain ⟨i, hi⟩ := List.mem_iff_getElem?.1 he
    obtain ⟨now, left, view, hp⟩ := holds_iff.1 hholds
    rcases left with _ | ⟨st, left⟩
    · refine ⟨.commit i, { s.enter i e (.settled (.reported true)) with tables := view }, ?_,
        fun j hj => by cases hj⟩
      simp only [step, hi, hp]
    · refine ⟨.statement i, s.enter i e (.working now left (st.run e.call now view)), ?_,
        fun j hj => by cases hj⟩
      simp only [step, hi, hp]
  · obtain ⟨e, he, hover⟩ := hn
    obtain ⟨i, hi⟩ := List.mem_iff_getElem?.1 he
    have hready : e.phase = .ready := by
      rcases hp : e.phase with _ | ⟨now, left, view⟩ | o
      · rfl
      · exact absurd ⟨e, he, holds_iff.2 ⟨now, left, view, hp⟩⟩ hh
      · exact absurd ⟨o, hp⟩ hover
    have hfree : s.executions.any Execution.holds = false :=
      List.any_eq_false.2 fun e' he' hh' => hh ⟨e', he', hh'⟩
    by_cases hcount : (claim e.call 0 s.tables).1 = 0
    · refine ⟨.claim i 0, s.enter i e (.settled (.reported false)), ?_, fun j hj => by cases hj⟩
      simp [step, hi, hready, hfree, hcount]
    · refine ⟨.claim i 0, s.enter i e (.working 0 cascade (claim e.call 0 s.tables).2), ?_,
        fun j hj => by cases hj⟩
      simp [step, hi, hready, hfree, hcount]

/-- The steps that are left to a call. -/
def Phase.left : Phase → ℕ
  | .ready => cascade.length + 2
  | .working _ left _ => left.length + 1
  | .settled _ => 0

def stepsLeft : List Execution → ℕ
  | [] => 0
  | e :: l => e.phase.left + stepsLeft l

theorem stepsLeft_set_lt : ∀ {l : List Execution} {i : ℕ}, l[i]? = some e →
    e'.phase.left < e.phase.left → stepsLeft (l.set i e') < stepsLeft l
  | [], _, he, _ => by simp at he
  | x :: l, 0, he, hlt => by
    obtain rfl : x = e := by simpa using he
    simpa [stepsLeft] using hlt
  | x :: l, i + 1, he, hlt => by
    have ih := stepsLeft_set_lt (l := l) (i := i) (by simpa using he) hlt
    simpa [stepsLeft] using ih

theorem stepsLeft_of_ready : ∀ {l : List Execution}, (∀ e ∈ l, e.phase = .ready) →
    stepsLeft l = l.length * (cascade.length + 2)
  | [], _ => by simp [stepsLeft]
  | e :: l, h => by
    have ih := stepsLeft_of_ready fun e he => h e (List.mem_cons_of_mem _ he)
    rw [stepsLeft, ih, h e List.mem_cons_self, Phase.left, List.length_cons, Nat.succ_mul]
    omega

theorem Move.stepsLeft_lt (hm : Move s a s') :
    stepsLeft s'.executions < stepsLeft s.executions := by
  cases hm with
  | claimed he hready _ _ =>
    refine stepsLeft_set_lt he ?_
    simp only [hready, Phase.left]
    omega
  | skipped he hready _ =>
    refine stepsLeft_set_lt he ?_
    simp only [hready, Phase.left]
    omega
  | statement he hphase =>
    refine stepsLeft_set_lt he ?_
    simp only [hphase, Phase.left, List.length_cons]
    omega
  | commit he hphase =>
    refine stepsLeft_set_lt he ?_
    simp only [hphase, Phase.left]
    omega
  | @fail i e he hopen =>
    refine stepsLeft_set_lt he ?_
    rcases hp : e.phase with _ | ⟨now, left, view⟩ | o
    · simp [Phase.left]
    · simp [Phase.left]
    · exact absurd hp (hopen o)

theorem Move.length_eq (hm : Move s a s') : s'.executions.length = s.executions.length := by
  cases hm <;> simp [State.enter]

/-- Calls take no more steps than they have, and as long as one is not over, one goes on. -/
structure Ending : Prop where
  bounded : ∀ (nodeId : String) (t : Tables) (h : List (Taken State Action)) (s : State),
    Run (sys nodeId t) h s → h.length ≤ s.executions.length * (cascade.length + 2)
  goes_on : ∀ s : State, (∃ e ∈ s.executions, ¬ e.over) →
    ∃ a s', step s a = some s' ∧ ∀ i, a ≠ .fail i

theorem length_add_stepsLeft_le (hr : Run (sys nodeId t₀) h s) :
    h.length + stepsLeft s.executions ≤ s.executions.length * (cascade.length + 2) := by
  induction hr with
  | start hi =>
    rw [stepsLeft_of_ready fun e he => (hi.2 e he).2]
    simp
  | next hr hs ih =>
    have hm := step_move hs
    have hlt := hm.stepsLeft_lt
    rw [hm.length_eq, List.length_cons]
    omega

/-- Calls for one node come to an end, in whatever order they take their steps. -/
theorem calls_end : Ending where
  bounded _ _ _ _ hr := (Nat.le_add_right _ _).trans (length_add_stepsLeft_le hr)
  goes_on _ := exists_step

/-- Exactly one of the calls has reported that it claimed the row, and has done all that a rollback
does; the others have done nothing. -/
def OneClaimed (t₀ : Tables) (s : State) : Prop :=
  ∃ i e now, s.executions[i]? = some e ∧ e.phase = .settled (.reported true)
    ∧ Claimed e.call now t₀ s.tables
    ∧ ∀ (j : ℕ) (e' : Execution), s.executions[j]? = some e' → j ≠ i →
      e'.phase = .settled (.reported false) ∨ e'.phase = .settled .threw

theorem Raced.over (hr : Raced nodeId t₀ s) (hp : (pendingRow nodeId t₀).isSome)
    (hover : ∀ e ∈ s.executions, e.over) :
    OneClaimed t₀ s ∨ s.tables = t₀ ∧ ∀ e ∈ s.executions, e.phase = .settled .threw := by
  rcases hr.law with ho | ⟨i, e, hw⟩
  · refine .inr ⟨ho.tables, fun e he => ?_⟩
    obtain ⟨i, hi⟩ := List.mem_iff_getElem?.1 he
    obtain ⟨_ | claimed, hphase⟩ := hover e he
    · exact hphase
    · exact absurd hphase (ho.silent i e claimed hi)
  · obtain ⟨now, htables⟩ := hw.tables
    refine .inl ⟨i, e, now, hw.winner.1, hw.winner.2, ?_, fun j e' he' hj => ?_⟩
    · rw [htables]
      refine claimed_afterCascade ?_
      rw [hr.node i e hw.winner.1]
      exact hp
    · obtain ⟨_ | _ | _, hphase⟩ := hover e' (List.mem_of_getElem? he')
      · exact .inr hphase
      · exact .inl hphase
      · exact absurd hphase (hw.others j e' he' hj).2

end Race

section Tables

def Tables.reputationOf (r : Reputation) : ReputationRecord :=
  ⟨some r.score, some r.slashVersion, some r.updatedAt⟩

def Tables.adjustmentsOf (xs : List ReputationAdjustment) : List AdjustmentRecord :=
  xs.map fun x => ⟨x.nodeId, x.idempotencyKey, x.delta, some x.isSlash⟩

/-- The rows of a model that has only the statuses there are, and no NULL. -/
def Tables.ofDb (db : TwoPhaseDb) : Tables where
  nodeStatusTentative := db.nodeStatusTentative.map fun row =>
    { targetStatus := row.targetStatus.text
      idempotencyKey := row.idempotencyKey
      state := some (match row.state with
        | .pending => "PENDING"
        | .committed => "COMMITTED"
        | .rolledBack => "ROLLED_BACK")
      errorDetail := row.errorDetail
      resolvedAt := row.resolvedAt
      createdAt := some row.createdAt
      expiresAt := row.expiresAt }
  twoPhaseRollbackLog := db.twoPhaseRollbackLog.map fun x =>
    ⟨x.nodeId, x.idempotencyKey, x.targetStatus.text, some x.failureReason, some x.createdAt⟩
  rewardTx := db.speculative.rewardTx.map fun x => ⟨x.nodeId, some x.createdAt⟩
  nodeAttestations := db.speculative.nodeAttestations.map fun x =>
    ⟨x.nodeId, x.attestedStatus, some x.createdAt⟩
  reputations := db.speculative.reputations.map reputationOf
  reputationAdjustments := adjustmentsOf db.speculative.reputationAdjustments

variable {n key reason : String} {target : NodeStatus} {now : ℕ} {db : TwoPhaseDb}

theorem pendingRow_ofDb {row : TentativeRow} (hrow : db.nodeStatusTentative.get n = some row) :
    (pendingRow n (Tables.ofDb db)).isSome ↔ row.state = .pending := by
  rw [pendingRow, Tables.ofDb, OrdMap.get_map, hrow]
  cases hs : row.state <;> simp [hs]

theorem since_ofDb {t : Tables} {row : TentativeRecord} {since : ℕ} (createdAt : ℕ) {c : Call}
    (hrow : t.nodeStatusTentative.get c.nodeId = some row) (hsince : row.createdAt = some since) :
    sinceTentative c t (some createdAt) = decide (since ≤ createdAt) := by
  simp only [sinceTentative, hrow, Option.bind_some, hsince]

theorem tagged_ofDb (c : Call) (xs : List ReputationAdjustment) :
    (Tables.adjustmentsOf xs).filter (tagged c)
      = Tables.adjustmentsOf (RollbackHandler.tagged c.nodeId c.idempotencyKey xs) := by
  simp only [Tables.adjustmentsOf, RollbackHandler.tagged, List.filter_map]
  rfl

theorem revert_ofDb (c : Call) (xs : List ReputationAdjustment) (r : Reputation) :
    revert c now (Tables.adjustmentsOf xs) (Tables.reputationOf r)
      = Tables.reputationOf (RollbackHandler.revert c.nodeId c.idempotencyKey now xs r) := by
  simp only [revert, tagged_ofDb, RollbackHandler.revert, Tables.reputationOf]
  simp [Tables.adjustmentsOf, List.filter_map, Function.comp_def]

/-- The statements, none of which fails, do what the rollback does as a whole. -/
theorem execute_ofDb :
    execute ⟨n, key, target.text, reason⟩ now (fun _ => false) (Tables.ofDb db)
      = (.reported (RollbackHandler.execute n key target reason now db).1,
        Tables.ofDb (RollbackHandler.execute n key target reason now db).2) := by
  rw [execute, transaction_of_no_failure fun _ => rfl, RollbackHandler.execute]
  rcases hrow : db.nodeStatusTentative.get n with _ | row
  · have hnone : pendingRow n (Tables.ofDb db) = none := by
      rw [pendingRow, Tables.ofDb, OrdMap.get_map, hrow]
      rfl
    simp [hnone]
  · have hpending := pendingRow_ofDb hrow
    by_cases hp : row.state = .pending
    · rw [if_pos (hpending.2 hp)]
      simp only [hp, if_true]
      refine Prod.ext rfl ?_
      simp only [afterCascade, claim, Tables.ofDb, OrdMap.get_map, hrow, Option.map_some, hp, if_true,
        cascade, List.foldl_cons, List.foldl_nil, Statement.run, Tables.mk.injEq]
      refine ⟨?_, ?_, ?_, ?_, ?_, ?_⟩
      · exact OrdMap.set_map _ _ n { row with
          state := .rolledBack, errorDetail := some reason, resolvedAt := some now }
      · simp
      · rw [RollbackHandler.cascade, List.filter_map]
        refine congrArg _ (List.filter_congr fun x _ => ?_)
        simp only [Function.comp_apply]
        rw [since_ofDb _ (OrdMap.get_set_self ..) rfl]
        simp
      · rw [RollbackHandler.cascade, List.filter_map]
        refine congrArg _ (List.filter_congr fun x _ => ?_)
        simp only [Function.comp_apply]
        rw [since_ofDb _ (OrdMap.get_set_self ..) rfl]
        simp
      · rw [RollbackHandler.cascade]
        rcases hr : db.speculative.reputations.get n with _ | r
        · rfl
        · simp only [Option.map_some]
          rw [revert_ofDb, OrdMap.set_map]
      · rw [RollbackHandler.cascade, Tables.adjustmentsOf, Tables.adjustmentsOf, List.filter_map]
        refine congrArg _ (List.filter_congr fun x _ => ?_)
        simp [tagged]
    · rw [if_neg fun h => hp (hpending.1 h)]
      simp [hp]

end Tables

section Claim

/-- A rollback is all or nothing, is not done again, and is done once by calls at the same time. -/
structure DoneOnce : Prop where
  all_or_nothing : ∀ (c : Call) (now : ℕ) (fails : Point → Bool) (t : Tables),
    ((∃ p, fails p = true) ∧ execute c now fails t = (.threw, t))
      ∨ (∃ t', execute c now fails t = (.reported true, t') ∧ Claimed c now t t')
      ∨ execute c now fails t = (.reported false, t)
  again : ∀ (c : Call) (now now' : ℕ) (fails fails' : Point → Bool) (t t' : Tables) (claimed : Bool),
    execute c now fails t = (.reported claimed, t') →
    execute c now' fails' t' = (.reported false, t')
      ∨ (∃ p, fails' p = true) ∧ execute c now' fails' t' = (.threw, t')
  race : ∀ (nodeId : String) (t : Tables) (h : List (Taken State Action)) (s : State),
    (pendingRow nodeId t).isSome → Run (sys nodeId t) h s → (∀ e ∈ s.executions, e.over) →
    OneClaimed t s ∨ s.tables = t ∧ ∀ e ∈ s.executions, e.phase = .settled .threw
  race_unfailing : ∀ (nodeId : String) (t : Tables) (h : List (Taken State Action)) (s : State),
    (pendingRow nodeId t).isSome → Run (sys nodeId t) h s →
    Along (fun _ a => ∀ i, a ≠ Action.fail i) h → s.executions ≠ [] →
    (∀ e ∈ s.executions, e.over) → OneClaimed t s

theorem done_once : DoneOnce where
  all_or_nothing := execute_cases
  again _ _ _ _ _ _ _ _ h := execute_again h
  race _ _ _ _ hp hr hover := (raced_of_run hp hr).over hp hover
  race_unfailing _ _ _ _ hp hr hfail hne hover := by
    rcases (raced_of_run hp hr).over hp hover with hone | ⟨-, hthrew⟩
    · exact hone
    · obtain ⟨e, he⟩ := List.exists_mem_of_ne_nil _ hne
      exact absurd (hthrew e he) (not_threw_of_run hr hfail e he)

end Claim

end RollbackStatements

end VeriNode
