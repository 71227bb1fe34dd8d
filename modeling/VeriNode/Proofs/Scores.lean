import Mathlib.Tactic.Linarith
import Mathlib.Algebra.Order.BigOperators.Group.List
import VeriNode.Reputation.Scores

/-!
# When reputation updates are serializable

A call that has locked the row finds it, when it commits, as it was when it was locked, so what it
writes is what it would do alone (`Stands`). Only `applyRewardWithSlashCheck` writes a score from
a read it had no lock for, and its check is of the version. As far as what it writes is right
(`Keeps`), the calls take effect in the order they commit in (`scores_serializable`).
-/

namespace VeriNode

namespace Reputations

section Effects

def Row.Bounded (row : Row) : Prop := -1000 ≤ row.score ∧ row.score ≤ 1000

theorem clamp_bounds (x : ℤ) : -1000 ≤ clamp x ∧ clamp x ≤ 1000 := by
  unfold clamp
  omega

theorem toInteger_bounds {x : ℚ} (hl : -1000 ≤ x) (hu : x ≤ 1000) :
    -1000 ≤ toInteger x ∧ toInteger x ≤ 1000 := by
  unfold toInteger
  split_ifs with h
  · have h0 : 0 ≤ ⌊x + 1 / 2⌋ := Int.floor_nonneg.2 (by linarith)
    have h1 : ⌊x + 1 / 2⌋ < 1001 := Int.floor_lt.2 (by push_cast; linarith)
    omega
  · have h0 : ⌈x - 1 / 2⌉ ≤ 0 := Int.ceil_le.2 (by push_cast; linarith)
    have h1 : -1001 < ⌈x - 1 / 2⌉ := Int.lt_ceil.2 (by push_cast; linarith)
    omega

theorem effect_bounded (call : Call) {row : Row} (hb : row.Bounded) :
    (call.effect row).Bounded := by
  unfold Call.effect
  split
  · exact clamp_bounds _
  · exact clamp_bounds _
  · exact clamp_bounds _
  · exact clamp_bounds _
  · exact clamp_bounds _
  · split
    · exact hb
    · exact toInteger_bounds (le_max_left _ _) (max_le (by norm_num) (min_le_left _ _))

end Effects

section Standing

variable {α : Type*} (f : Row → α)

/-- Nothing is written. -/
def Clean (call : Call) : Prop := call.write = none ∧ call.taken = none

/-- What the call has written is what it would do alone, as far as `f` sees. -/
def Writes (row : Row) (call : Call) : Prop :=
  call.rowLock = true ∧ ∃ w, call.write = some w ∧ f w = f (call.effect row)

/-- The read of the `UPDATE` was of a row that was locked. -/
def Op.locks : Op → Bool
  | .applyRewardTransactional _ => true
  | .applySlashingTransactional _ => true
  | _ => false

def Op.rollsBack : Op → Bool
  | .rollback _ => true
  | _ => false

/-- What is known of a call at each statement. -/
def Stands (row : Row) (call : Call) : Prop :=
  match call.phase with
  | .reading => Clean call ∧ call.op.locks = false
  | .updating read =>
    Clean call ∧ (call.op.locks = true → call.rowLock = true ∧ read = row)
  | .claiming => Clean call ∧ call.op.rollsBack = true
  | .cascading => Clean call ∧ call.op.rollsBack = true
  | .summing => Clean call ∧ call.op.rollsBack = true
  | .reverting _ _ => Clean call ∧ call.op.rollsBack = true
  | .cleaning => Writes f row call
  | .committing => Writes f row call ∨ (call.write = none ∧ ∀ r, call.effect r = r)
  | .aborting => True
  | .returned => True
  | .threw => True
  | _ => Clean call

variable {f} {s s' : State} {i j : ℕ} {row row' : Row} {call call' : Call} {node : Node}

theorem Stands.mono (hst : Stands f row call) (hr : call.rowLock = true → row' = row) :
    Stands f row' call := by
  unfold Stands at hst ⊢
  cases hph : call.phase with
  | updating read =>
    simp only [hph] at hst ⊢
    refine ⟨hst.1, fun hl => ?_⟩
    obtain ⟨hlock, rfl⟩ := hst.2 hl
    exact ⟨hlock, (hr hlock).symm⟩
  | cleaning =>
    simp only [hph] at hst ⊢
    exact ⟨hst.1, by rw [hr hst.1]; exact hst.2⟩
  | committing =>
    simp only [hph] at hst ⊢
    rcases hst with hst | hst
    · exact .inl ⟨hst.1, by rw [hr hst.1]; exact hst.2⟩
    · exact .inr hst
  | aborting => trivial
  | returned => trivial
  | threw => trivial
  | _ => simpa only [hph] using hst

theorem fail_stands (hf : call.fail = some call') : Stands f row call' := by
  unfold Call.fail at hf
  split at hf
  · rw [← Option.some.inj hf]
    trivial
  · simp at hf
  · simp at hf
  · split at hf <;> rw [← Option.some.inj hf] <;> trivial

theorem fail_ends (hf : call.fail = some call') :
    call'.phase ≠ .returned ∧ (call'.rowLock = true → call.rowLock = true) := by
  unfold Call.fail at hf
  split at hf
  · rw [← Option.some.inj hf]
    exact ⟨by simp [Call.release], by simp [Call.release]⟩
  · simp at hf
  · simp at hf
  · split at hf <;> rw [← Option.some.inj hf] <;> exact ⟨by simp, id⟩

theorem fail_not_returned (hf : call.fail = some call') : call.phase ≠ .returned := by
  intro hph
  simp [Call.fail, hph] at hf

theorem succeed_not_returned {x : Call × Node} (hn : call.succeed i s = some x) :
    call.phase ≠ .returned := by
  intro hph
  simp [Call.succeed, hph] at hn

/-- A statement that leaves the row, and does not end the call well. -/
structure Goes (f : Row → α) (s : State) (i : ℕ) (call call' : Call) (node : Node) : Prop where
  row : node.row = s.node.row
  returned : call'.phase ≠ .returned
  stands : Stands f s.node.row call'
  lock : call'.rowLock = true → call.rowLock = true ∨ rowLocked s i = false

/-- The statement that ends the call well. -/
structure Ends (f : Row → α) (s : State) (i : ℕ) (call call' : Call) (node : Node) : Prop where
  row : f node.row = f (call'.effect s.node.row)
  returned : call'.phase = .returned
  lock : call'.rowLock = true → call.rowLock = true
  alone : node.row = s.node.row ∨ call.rowLock = true ∨ rowLocked s i = false

/-- What `applyRewardWithSlashCheck` writes is right, as far as `f` sees. -/
def Right (f : Row → α) (row : Row) (call : Call) : Prop :=
  ∀ read (delta : ℕ), call.phase = .waiting read → row.slashVersion = read.slashVersion →
    f { row with score := clamp (read.score + delta) } = f (reward delta row)

theorem update_outcome {read : Row} (hph : call.phase = .updating read)
    (hst : Stands f s.node.row call) (hn : call.update i s read = some (call', node)) :
    Goes f s i call call' node ∨ Ends f s i call call' node := by
  unfold Stands at hst
  simp only [hph] at hst
  obtain ⟨hclean, hread⟩ := hst
  unfold Call.update at hn
  cases hop : call.op with
  | applyReward delta =>
    simp only [hop] at hn
    split_ifs at hn with hl
    obtain ⟨rfl, rfl⟩ := Prod.mk.inj (Option.some.inj hn)
    exact .inr ⟨by simp [Call.effect], rfl, id, .inr (.inr (eq_false_of_ne_true hl))⟩
  | applySlashing delta =>
    simp only [hop] at hn
    split_ifs at hn with hl
    obtain ⟨rfl, rfl⟩ := Prod.mk.inj (Option.some.inj hn)
    exact .inr ⟨by simp [Call.effect], rfl, id, .inr (.inr (eq_false_of_ne_true hl))⟩
  | applyRewardTransactional delta =>
    simp only [hop] at hn
    obtain ⟨rfl, rfl⟩ := Prod.mk.inj (Option.some.inj hn)
    obtain ⟨hlock, rfl⟩ := hread (by rw [hop]; rfl)
    exact .inl ⟨rfl, by simp, .inl ⟨hlock, _, rfl, by simp [Call.effect, reward]⟩, .inl⟩
  | applySlashingTransactional delta =>
    simp only [hop] at hn
    split_ifs at hn
    obtain ⟨rfl, rfl⟩ := Prod.mk.inj (Option.some.inj hn)
    obtain ⟨hlock, rfl⟩ := hread (by rw [hop]; rfl)
    exact .inl ⟨rfl, by simp, .inl ⟨hlock, _, rfl, by simp [Call.effect, slash]⟩, .inl⟩
  | applyRewardWithSlashCheck delta =>
    simp only [hop] at hn
    split_ifs at hn <;> obtain ⟨rfl, rfl⟩ := Prod.mk.inj (Option.some.inj hn)
    · exact .inl ⟨rfl, by simp, hclean, .inl⟩
    · exact .inl ⟨rfl, by simp, trivial, .inl⟩
  | rollback key => simp [hop] at hn

theorem check_outcome {read : Row} (hph : call.phase = .waiting read)
    (hl : rowLocked s i = false) (hright : Right f s.node.row call)
    (hn : call.check s read = some (call', node)) : Goes f s i call call' node := by
  unfold Call.check at hn
  cases hop : call.op with
  | applyRewardWithSlashCheck delta =>
    simp only [hop] at hn
    split_ifs at hn with hv <;> obtain ⟨rfl, rfl⟩ := Prod.mk.inj (Option.some.inj hn)
    · refine ⟨rfl, by simp, .inl ⟨rfl, _, rfl, ?_⟩, fun _ => .inr hl⟩
      simpa [Call.effect, hop] using hright read delta hph hv
    · exact ⟨rfl, by simp, trivial, .inl⟩
  | _ => simp [hop] at hn

theorem commit_row (node : Node) : (call.commit node).row = call.write.getD node.row := rfl

/-- What a statement does. -/
theorem succeed_outcome (hst : Stands f s.node.row call) (hright : Right f s.node.row call)
    (hn : call.succeed i s = some (call', node)) :
    Goes f s i call call' node ∨ Ends f s i call call' node := by
  have hst' := hst
  unfold Stands at hst
  unfold Call.succeed at hn
  cases hph : call.phase with
  | beginning =>
    simp only [hph] at hn hst
    obtain ⟨rfl, rfl⟩ := Prod.mk.inj (Option.some.inj hn)
    refine .inl ⟨rfl, ?_, ?_, .inl⟩
    · cases hop : call.op <;> simp [Op.first]
    · unfold Stands
      cases hop : call.op with
      | applyRewardWithSlashCheck delta => exact ⟨hst, rfl⟩
      | rollback key => exact ⟨hst, rfl⟩
      | _ => exact hst
  | reading =>
    simp only [hph] at hn hst
    obtain ⟨rfl, rfl⟩ := Prod.mk.inj (Option.some.inj hn)
    exact .inl ⟨rfl, by simp, ⟨hst.1, by simp [hst.2]⟩, .inl⟩
  | locking =>
    simp only [hph] at hn hst
    split_ifs at hn with hl
    obtain ⟨rfl, rfl⟩ := Prod.mk.inj (Option.some.inj hn)
    exact .inl ⟨rfl, by simp, hst, fun _ => .inr (eq_false_of_ne_true hl)⟩
  | lockingAgain =>
    simp only [hph] at hn hst
    split_ifs at hn with hl
    obtain ⟨rfl, rfl⟩ := Prod.mk.inj (Option.some.inj hn)
    exact .inl ⟨rfl, by simp, ⟨hst, fun _ => ⟨rfl, rfl⟩⟩, fun _ => .inr (eq_false_of_ne_true hl)⟩
  | updating read =>
    simp only [hph] at hn
    exact update_outcome hph hst' hn
  | waiting read =>
    simp only [hph] at hn
    split_ifs at hn with hl
    exact .inl (check_outcome hph (eq_false_of_ne_true hl) hright hn)
  | claiming =>
    simp only [hph] at hn hst
    split_ifs at hn <;> obtain ⟨rfl, rfl⟩ := Prod.mk.inj (Option.some.inj hn)
    · exact .inl ⟨rfl, by simp, hst, .inl⟩
    · refine .inl ⟨rfl, by simp, .inr ⟨hst.1.1, fun r => ?_⟩, .inl⟩
      obtain ⟨⟨-, htaken⟩, hop⟩ := hst
      cases hop' : call.op <;> simp [hop', Op.rollsBack] at hop
      simp [Call.effect, htaken]
  | cascading =>
    simp only [hph] at hn hst
    obtain ⟨rfl, rfl⟩ := Prod.mk.inj (Option.some.inj hn)
    exact .inl ⟨rfl, by simp, hst, .inl⟩
  | summing =>
    simp only [hph] at hn hst
    split at hn
    · obtain ⟨rfl, rfl⟩ := Prod.mk.inj (Option.some.inj hn)
      exact .inl ⟨rfl, by simp, hst, .inl⟩
    · simp at hn
  | reverting sum slashes =>
    simp only [hph] at hn hst
    split_ifs at hn with hl
    obtain ⟨rfl, rfl⟩ := Prod.mk.inj (Option.some.inj hn)
    refine .inl ⟨rfl, by simp, ⟨rfl, _, rfl, ?_⟩, fun _ => .inr (eq_false_of_ne_true hl)⟩
    obtain ⟨-, hop⟩ := hst
    cases hop' : call.op <;> simp [hop', Op.rollsBack] at hop
    rfl
  | cleaning =>
    simp only [hph] at hn hst
    obtain ⟨rfl, rfl⟩ := Prod.mk.inj (Option.some.inj hn)
    exact .inl ⟨rfl, by simp, .inl hst, .inl⟩
  | committing =>
    simp only [hph] at hn hst
    obtain ⟨rfl, rfl⟩ := Prod.mk.inj (Option.some.inj hn)
    rcases hst with ⟨hlock, w, hw, hfw⟩ | ⟨hw, heff⟩
    · exact .inr ⟨by rw [commit_row, hw]; exact hfw, rfl, by simp [Call.release],
        .inr (.inl hlock)⟩
    · have hrow : (call.commit s.node).row = s.node.row := by rw [commit_row, hw]; rfl
      refine .inr ⟨?_, rfl, by simp [Call.release], .inl hrow⟩
      rw [hrow]
      exact congrArg f (heff s.node.row).symm
  | aborting =>
    simp only [hph] at hn
    obtain ⟨rfl, rfl⟩ := Prod.mk.inj (Option.some.inj hn)
    exact .inl ⟨rfl, by simp [Call.release], trivial, by simp [Call.release]⟩
  | returned => simp [hph] at hn
  | threw => simp [hph] at hn

theorem rowLocked_eq_false (hl : rowLocked s i = false) (hg : s.calls.get j = some call)
    (hj : j ≠ i) : call.rowLock = false := by
  have hno := OrdMap.of_any_eq_false hl hg
  simpa [hj] using hno

end Standing

section Runs

/-- What a step may do, with what lets it. -/
inductive Move (s : State) : Action → State → Prop
  | called (op : Op) : Move s (.call op) { s with
      calls := s.calls.set s.nextId { op := op, phase := op.start }
      nextId := s.nextId + 1 }
  | failed (id : ℕ) (call call' : Call) : s.calls.get id = some call → call.fail = some call' →
      Move s (.next id true) { s with calls := s.calls.set id call' }
  | succeeded (id : ℕ) (call call' : Call) (node : Node) : s.calls.get id = some call →
      call.succeed id s = some (call', node) →
      Move s (.next id false) { s with node := node, calls := s.calls.set id call' }
  | attempted : Move s .attempt { s with node := { s.node with pending := true } }
  | recorded (adjustment : ReputationAdjustment) : Move s (.record adjustment)
      { s with node := { s.node with adjustments := s.node.adjustments ++ [adjustment] } }

variable {α : Type*} {f : Row → α} {s s' : State} {a : Action} {i : ℕ} {row : Row}
  {h : List (Taken State Action)} {call call' : Call} {node : Node}

theorem step_move (hs : step s a = some s') : Move s a s' := by
  rcases a with op | ⟨id, fails⟩ | _ | adjustment
  · rw [← Option.some.inj hs]
    exact .called op
  · simp only [step] at hs
    rcases hg : s.calls.get id with _ | call <;> simp only [hg, reduceCtorEq] at hs
    rcases fails with _ | _
    · obtain ⟨⟨call', node⟩, hn, rfl⟩ := Option.map_eq_some_iff.1 hs
      exact .succeeded id call call' node hg hn
    · obtain ⟨call', hf, rfl⟩ := Option.map_eq_some_iff.1 hs
      exact .failed id call call' hg hf
  · simp only [step] at hs
    split_ifs at hs
    rw [← Option.some.inj hs]
    exact .attempted
  · rw [← Option.some.inj hs]
    exact .recorded adjustment

/-- What `applyRewardWithSlashCheck` writes is right, as far as `f` sees. -/
def Keeps (f : Row → α) (s : State) (a : Action) : Prop :=
  ∀ id call, a = .next id false → s.calls.get id = some call → Right f s.node.row call

structure Inv (f : Row → α) (s : State) : Prop where
  stands : ∀ id call, s.calls.get id = some call → Stands f s.node.row call
  exclusive : ∀ i c j c', s.calls.get i = some c → s.calls.get j = some c' → c.rowLock = true →
    c'.rowLock = true → i = j
  id : ∀ id call, s.calls.get id = some call → id < s.nextId

theorem Inv.called (hi : Inv f s) (op : Op) : Inv f { s with
    calls := s.calls.set s.nextId { op := op, phase := op.start }
    nextId := s.nextId + 1 } where
  stands i c hg := by
    rcases OrdMap.of_get_set hg with ⟨rfl, rfl⟩ | ⟨-, hg⟩
    · unfold Stands
      cases op <;> first | exact ⟨rfl, rfl⟩ | exact ⟨⟨rfl, rfl⟩, rfl⟩
    · exact hi.stands i c hg
  exclusive i c j c' hg hg' hl hl' := by
    rcases OrdMap.of_get_set hg with ⟨-, rfl⟩ | ⟨-, hc⟩
    · simp at hl
    · rcases OrdMap.of_get_set hg' with ⟨-, rfl⟩ | ⟨-, hc'⟩
      · simp at hl'
      · exact hi.exclusive i c j c' hc hc' hl hl'
  id i c hg := by
    rcases OrdMap.of_get_set hg with ⟨rfl, -⟩ | ⟨-, hg⟩
    · exact Nat.lt_succ_self _
    · exact (hi.id i c hg).trans (Nat.lt_succ_self _)

theorem Inv.stepped (hi : Inv f s) (hg : s.calls.get i = some call)
    (hst : Stands f node.row call')
    (hlock : call'.rowLock = true → call.rowLock = true ∨ rowLocked s i = false)
    (halone : node.row = s.node.row ∨ call.rowLock = true ∨ rowLocked s i = false) :
    Inv f { s with node := node, calls := s.calls.set i call' } where
  stands j c hg' := by
    rcases OrdMap.of_get_set hg' with ⟨-, rfl⟩ | ⟨hne, hc⟩
    · exact hst
    · refine (hi.stands j c hc).mono fun hl => ?_
      rcases halone with hrow | hown | hfree
      · exact hrow
      · exact absurd (hi.exclusive j c i call hc hg hl hown) hne
      · simp [rowLocked_eq_false hfree hc hne] at hl
  exclusive j c k c' hgj hgk hl hl' := by
    have hother : ∀ {j c}, s.calls.get j = some c → j ≠ i → c.rowLock = true →
        call'.rowLock = true → False := by
      intro j c hc hne hl hl'
      rcases hlock hl' with hown | hfree
      · exact hne (hi.exclusive j c i call hc hg hl hown)
      · simp [rowLocked_eq_false hfree hc hne] at hl
    rcases OrdMap.of_get_set hgj with ⟨hji, hcj⟩ | ⟨hne, hc⟩ <;>
      rcases OrdMap.of_get_set hgk with ⟨hki, hck⟩ | ⟨hne', hc'⟩
    · rw [hji, hki]
    · exact (hother hc' hne' hl' (hcj ▸ hl)).elim
    · exact (hother hc hne hl (hck ▸ hl')).elim
    · exact hi.exclusive j c k c' hc hc' hl hl'
  id j c hg' := by
    rcases OrdMap.of_get_set hg' with ⟨rfl, -⟩ | ⟨-, hc⟩
    · exact hi.id _ call hg
    · exact hi.id j c hc

theorem Inv.move (hi : Inv f s) (hk : Keeps f s a) (hm : Move s a s') : Inv f s' := by
  obtain ⟨op⟩ | ⟨id, call, call', hg, hf⟩ | ⟨id, call, call', node, hg, hn⟩ | _ | ⟨adjustment⟩ := hm
  · exact hi.called op
  · exact hi.stepped hg (fail_stands hf) (fun hl => .inl ((fail_ends hf).2 hl)) (.inl rfl)
  · rcases succeed_outcome (hi.stands id call hg) (hk id call rfl hg) hn with hgo | hend
    · refine hi.stepped hg ?_ hgo.lock (.inl hgo.row)
      rw [hgo.row]
      exact hgo.stands
    · refine hi.stepped hg ?_ (fun hl => .inl (hend.lock hl)) hend.alone
      unfold Stands
      simp only [hend.returned]
  · exact ⟨hi.stands, hi.exclusive, hi.id⟩
  · exact ⟨hi.stands, hi.exclusive, hi.id⟩

theorem inv_run (hr : Run (sys row) h s) (hk : Along (Keeps f) h) : Inv f s := by
  refine hr.invariant_of (fun s hi => ?_) (fun s a s' hi hk hs => hi.move hk (step_move hs)) hk
  obtain ⟨nodeId, adjustments, pending, rfl⟩ := hi
  exact ⟨by simp, by simp, by simp⟩

end Runs

section Serial

/-- The row with the calls run one after another. -/
def replay (calls : OrdMap ℕ Call) (order : List ℕ) (row : Row) : Row :=
  order.foldl (fun row id =>
    match calls.get id with
    | none => row
    | some call => call.effect row) row

/-- The row is that of the calls that have returned, each of them alone, in some order. -/
def Serial (row : Row) (s : State) : Prop :=
  ∃ order : List ℕ, order.Nodup
    ∧ (∀ id, id ∈ order ↔ (s.calls.get id).map (·.phase) = some .returned)
    ∧ s.node.row = replay s.calls order row

/-- When the `UPDATE` of `applyRewardWithSlashCheck` finds the version that was read, the score is
the one that was read. -/
def Unlost (s : State) (a : Action) : Prop :=
  ∀ id call read, a = .next id false → s.calls.get id = some call → call.phase = .waiting read →
    s.node.row.slashVersion = read.slashVersion → s.node.row.score = read.score

variable {s s' : State} {a : Action} {i : ℕ} {row : Row} {h : List (Taken State Action)}
  {calls calls' : OrdMap ℕ Call} {order : List ℕ} {call call' : Call}

theorem Unlost.keeps (hu : Unlost s a) : Keeps id s a := by
  intro i call ha hg read delta hph hv
  have hscore := hu i call read ha hg hph hv
  simp [reward, hscore]

theorem replay_congr (hc : ∀ id ∈ order, calls'.get id = calls.get id) :
    replay calls' order row = replay calls order row := by
  unfold replay
  refine List.foldl_ext _ _ _ fun r id hid => ?_
  rw [hc id hid]

theorem not_mem_order (hmem : ∀ id, id ∈ order ↔ (s.calls.get id).map (·.phase) = some .returned)
    (hg : s.calls.get i = some call) (hph : call.phase ≠ .returned) : i ∉ order := by
  intro hi
  have hret := (hmem i).1 hi
  rw [hg, Option.map_some] at hret
  exact hph (Option.some.inj hret)

theorem Serial.set (hs : Serial row s) (hg : s.calls.get i = some call)
    (hph : call.phase ≠ .returned) (hph' : call'.phase ≠ .returned) {node : Node}
    (hrow : node.row = s.node.row) :
    Serial row { s with node := node, calls := s.calls.set i call' } := by
  obtain ⟨order, hnd, hmem, hr⟩ := hs
  have hi : i ∉ order := not_mem_order hmem hg hph
  refine ⟨order, hnd, fun j => ?_, ?_⟩
  · show _ ↔ ((s.calls.set i call').get j).map (·.phase) = _
    rw [OrdMap.get_set]
    split_ifs with hj
    · simp [hj, hi, hph']
    · exact hmem j
  · show node.row = replay (s.calls.set i call') order row
    rw [hrow, hr]
    refine (replay_congr fun j hj => OrdMap.get_set_of_ne _ _ ?_).symm
    rintro rfl
    exact hi hj

theorem Serial.ended (hs : Serial row s) (hg : s.calls.get i = some call)
    (hph : call.phase ≠ .returned) (hph' : call'.phase = .returned) {node : Node}
    (hrow : node.row = call'.effect s.node.row) :
    Serial row { s with node := node, calls := s.calls.set i call' } := by
  obtain ⟨order, hnd, hmem, hr⟩ := hs
  have hi : i ∉ order := not_mem_order hmem hg hph
  refine ⟨order ++ [i], ?_, fun j => ?_, ?_⟩
  · exact List.nodup_append.2 ⟨hnd, List.nodup_singleton i, fun j hj k hk => by
      rintro rfl
      exact hi (List.mem_singleton.1 hk ▸ hj)⟩
  · show _ ↔ ((s.calls.set i call').get j).map (·.phase) = _
    rw [OrdMap.get_set, List.mem_append, List.mem_singleton]
    split_ifs with hj
    · simp [hj, hph']
    · rw [hmem j]
      simp [hj]
  · show node.row = replay (s.calls.set i call') (order ++ [i]) row
    have hold : replay (s.calls.set i call') order row = s.node.row := by
      rw [hr]
      refine replay_congr fun j hj => OrdMap.get_set_of_ne _ _ ?_
      rintro rfl
      exact hi hj
    unfold replay at hold ⊢
    rw [List.foldl_append, hold]
    simp [hrow]

theorem Serial.move (hs : Serial row s) (hi : Inv id s) (hk : Keeps id s a) (hm : Move s a s') :
    Serial row s' := by
  obtain ⟨op⟩ | ⟨j, call, call', hg, hf⟩ | ⟨j, call, call', node, hg, hn⟩ | _ | ⟨adjustment⟩ := hm
  · obtain ⟨order, hnd, hmem, hr⟩ := hs
    have hnew : s.calls.get s.nextId = none := by
      rcases hg : s.calls.get s.nextId with _ | call
      · rfl
      · exact absurd (hi.id _ call hg) (lt_irrefl _)
    have hnot : s.nextId ∉ order := by
      intro hm
      have hret := (hmem _).1 hm
      simp [hnew] at hret
    refine ⟨order, hnd, fun j => ?_, ?_⟩
    · show _ ↔ ((s.calls.set s.nextId _).get j).map (·.phase) = _
      rw [OrdMap.get_set]
      split_ifs with hj
      · rw [hj]
        refine iff_of_false hnot ?_
        cases op <;> simp [Op.start]
      · exact hmem j
    · refine hr.trans (replay_congr fun j hj => OrdMap.get_set_of_ne _ _ ?_).symm
      rintro rfl
      exact hnot hj
  · exact hs.set hg (fail_not_returned hf) (fail_ends hf).1 rfl
  · have hnot := succeed_not_returned hn
    rcases succeed_outcome (hi.stands j call hg) (hk j call rfl hg) hn with hgo | hend
    · exact hs.set hg hnot hgo.returned hgo.row
    · exact hs.ended hg hnot hend.returned hend.row
  · exact hs
  · exact hs

theorem keeps_bounded (s : State) (a : Action) : Keeps Row.Bounded s a := by
  intro _ _ _ _ _ delta _ _
  exact propext (iff_of_true (clamp_bounds _) (clamp_bounds _))

theorem bounded_run (hb : row.Bounded) (hr : Run (sys row) h s) : s.node.row.Bounded := by
  induction hr with
  | start hi =>
    obtain ⟨nodeId, adjustments, pending, rfl⟩ := hi
    exact hb
  | @next h s s' a hr hs ih =>
    have hi := inv_run (f := Row.Bounded) hr fun t _ => keeps_bounded t.pre t.act
    obtain ⟨op⟩ | ⟨j, call, call', hg, hf⟩ | ⟨j, call, call', node, hg, hn⟩ | _ | ⟨adjustment⟩ :=
      step_move hs
    · exact ih
    · exact ih
    · rcases succeed_outcome (hi.stands j call hg) (keeps_bounded s _ j call rfl hg) hn
        with hgo | hend
      · show node.row.Bounded
        rw [hgo.row]
        exact ih
      · exact hend.row.mpr (effect_bounded call' ih)
    · exact ih
    · exact ih

/-- The score stays within its bounds; and as long as a checked reward finds the score it read with
the version it read, the row is that of the calls that have returned, one after another in some
order. A call that has thrown has no part in it. -/
theorem scores_serializable (hb : row.Bounded) (hr : Run (sys row) h s) :
    s.node.row.Bounded ∧ (Along Unlost h → Serial row s) := by
  refine ⟨bounded_run hb hr, fun hu => ?_⟩
  have hk : Along (Keeps id) h := fun t ht => (hu t ht).keeps
  clear hb
  induction hr with
  | start hi =>
    obtain ⟨nodeId, adjustments, pending, rfl⟩ := hi
    exact ⟨[], List.nodup_nil, by simp, rfl⟩
  | next hr hs ih =>
    exact (ih hu.tail hk.tail).move (inv_run hr hk.tail) hk.head (step_move hs)

/-- The row that was read, if the `UPDATE` waits. -/
def Phase.waits : Phase → Option Row
  | .waiting read => some read
  | _ => none

theorem Phase.waits_eq_some {phase : Phase} {read : Row} :
    phase.waits = some read ↔ phase = .waiting read := by
  cases phase <;> simp [Phase.waits]

instance (s : State) (a : Action) : Decidable (Unlost s a) :=
  decidable_of_iff (∀ x ∈ s.calls.entries, a = .next x.1 false → ∀ read ∈ x.2.phase.waits,
      s.node.row.slashVersion = read.slashVersion → s.node.row.score = read.score)
    ⟨fun h id call read ha hg hph => h (id, call) (OrdMap.mem_entries_iff.2 hg) ha read
        (Phase.waits_eq_some.2 hph),
      fun h x hx ha read hr => h x.1 x.2 read ha (OrdMap.mem_entries_iff.1 hx)
        (Phase.waits_eq_some.1 hr)⟩

/-- A reward, a slash that makes a checked reward throw, and a transactional reward. -/
theorem scores_serializable_mix : ∃ h s, Run (sys ⟨0, 0⟩) h s ∧ s.node.row = ⟨-480, 1⟩
    ∧ (s.calls.get 1).map (·.phase) = some .threw ∧ s.node.row.Bounded ∧ Serial ⟨0, 0⟩ s := by
  obtain ⟨h, s, hr, ht⟩ := Sys.exists_run (S := sys ⟨0, 0⟩) ⟨"node", [], false, rfl⟩
    [.call (.applyReward 10), .call (.applyRewardWithSlashCheck 10), .call (.applySlashing 500),
      .call (.applyRewardTransactional 10), .next 0 false, .next 1 false, .next 2 false,
      .next 3 false, .next 0 false, .next 1 false, .next 2 false, .next 3 false, .next 1 false,
      .next 1 false, .next 3 false, .next 3 false, .next 3 false]
    (p := fun x => decide ((∀ t ∈ x.1, Unlost t.pre t.act) ∧ x.2.node.row = ⟨-480, 1⟩
      ∧ (x.2.calls.get 1).map (·.phase) = some .threw)) (by decide +kernel)
  obtain ⟨hu, hrow, hthrew⟩ := of_decide_eq_true ht
  have hb : Row.Bounded ⟨0, 0⟩ := ⟨by decide, by decide⟩
  obtain ⟨hbounded, hserial⟩ := scores_serializable hb hr
  exact ⟨h, s, hr, hrow, hthrew, hbounded, hserial hu⟩

/-- Two checked rewards read the score, and both write what they make of it. -/
theorem checked_reward_lost : ∃ h s, Run (sys ⟨0, 0⟩) h s ∧ s.node.row = ⟨10, 0⟩
    ∧ ¬ Serial ⟨0, 0⟩ s := by
  obtain ⟨h, s, hr, ht⟩ := Sys.exists_run (S := sys ⟨0, 0⟩) ⟨"node", [], false, rfl⟩
    [.call (.applyRewardWithSlashCheck 10), .call (.applyRewardWithSlashCheck 10), .next 0 false,
      .next 1 false, .next 0 false, .next 1 false, .next 0 false, .next 0 false, .next 0 false,
      .next 1 false, .next 1 false, .next 1 false]
    (p := fun x => decide (x.2.node.row = ⟨10, 0⟩ ∧ x.2.calls.keys = [0, 1]
      ∧ (x.2.calls.get 0).map (fun call => (call.op, call.phase))
        = some (.applyRewardWithSlashCheck 10, .returned)
      ∧ (x.2.calls.get 1).map (fun call => (call.op, call.phase))
        = some (.applyRewardWithSlashCheck 10, .returned))) (by decide +kernel)
  obtain ⟨hrow, hkeys, h0, h1⟩ := of_decide_eq_true ht
  refine ⟨h, s, hr, hrow, ?_⟩
  rintro ⟨order, hnd, hmem, hreplay⟩
  obtain ⟨c0, hg0, hc0⟩ := Option.map_eq_some_iff.1 h0
  obtain ⟨c1, hg1, hc1⟩ := Option.map_eq_some_iff.1 h1
  obtain ⟨hop0, hph0⟩ := Prod.mk.inj hc0
  obtain ⟨hop1, hph1⟩ := Prod.mk.inj hc1
  have hperm : order.Perm [0, 1] := by
    refine (List.perm_ext_iff_of_nodup hnd (by decide)).2 fun id => ?_
    rw [hmem, ← hkeys]
    constructor
    · intro hret
      by_contra hno
      simp [OrdMap.get_eq_none_iff.2 hno] at hret
    · intro hid
      rw [hkeys] at hid
      rcases List.mem_pair.1 hid with rfl | rfl
      · rw [hg0, Option.map_some, hph0]
      · rw [hg1, Option.map_some, hph1]
  obtain ⟨i, j, rfl⟩ := List.length_eq_two.1 hperm.length_eq
  have hi : i ∈ [0, 1] := hperm.subset List.mem_cons_self
  have hj : j ∈ [0, 1] := hperm.subset (by simp)
  have hij : i ≠ j := by simpa using hnd
  rw [hrow] at hreplay
  rcases List.mem_pair.1 hi with rfl | rfl <;> rcases List.mem_pair.1 hj with rfl | rfl
  · exact hij rfl
  · simp [replay, hg0, hg1, Call.effect, hop0, hop1, reward, clamp] at hreplay
  · simp [replay, hg0, hg1, Call.effect, hop0, hop1, reward, clamp] at hreplay
  · exact hij rfl

end Serial

end Reputations

end VeriNode

/-!
# When a reward does not overwrite a slash

A slash adds one to the version, and a rollback takes from it what slashes it takes back; nothing
else moves it. So between the read of a checked reward and an `UPDATE` that finds the version again,
there is a slash exactly if there is a rollback that takes slashes back
(`slashes_stand_iff`).
-/

namespace VeriNode

namespace Reputations

section Versions

def Op.isSlash : Op → Bool
  | .applySlashing _ => true
  | .applySlashingTransactional _ => true
  | _ => false

def Op.checks : Op → Bool
  | .applyRewardWithSlashCheck _ => true
  | _ => false

/-- What the call adds to the version. -/
def Call.bump (call : Call) : ℤ :=
  match call.op with
  | .applySlashing _ => 1
  | .applySlashingTransactional _ => 1
  | .rollback _ =>
    match call.taken with
    | none => 0
    | some (_, slashes) => -slashes
  | _ => 0

/-- The call that returns by the step. -/
def completed (t : Taken State Action) : Option Call :=
  match t.act with
  | .next id false => (t.post.calls.get id).filter (·.phase = .returned)
  | _ => none

/-- The step commits a slash. -/
def slashCommitted (t : Taken State Action) : Bool := (completed t).any (·.op.isSlash)

/-- The step commits a rollback that takes slashes back. -/
def takesBack (t : Taken State Action) : Bool :=
  (completed t).any fun call => call.op.rollsBack && call.taken.any (0 < ·.2)

/-- What the step adds to the version. -/
def bump (t : Taken State Action) : ℤ :=
  match completed t with
  | none => 0
  | some call => call.bump

variable {s s' : State} {a : Action} {t : Taken State Action} {row : Row}
  {h : List (Taken State Action)} {call : Call}

theorem effect_slashVersion (call : Call) (row : Row) :
    (call.effect row).slashVersion = row.slashVersion + call.bump := by
  unfold Call.effect Call.bump
  cases call.op with
  | rollback key =>
    rcases call.taken with _ | ⟨sum, slashes⟩
    · exact (add_zero _).symm
    · exact sub_eq_add_neg _ _
  | applySlashing delta => rfl
  | applySlashingTransactional delta => rfl
  | _ => exact (add_zero _).symm

theorem keeps_slashVersion (s : State) (a : Action) : Keeps Row.slashVersion s a :=
  fun _ _ _ _ _ _ _ _ => rfl

theorem slashVersion_step (hi : Inv Row.slashVersion s) (hs : step s a = some s') :
    s'.node.row.slashVersion = s.node.row.slashVersion + bump ⟨s, a, s'⟩ := by
  obtain ⟨op⟩ | ⟨j, call, call', hg, hf⟩ | ⟨j, call, call', node, hg, hn⟩ | _ | ⟨adjustment⟩ :=
    step_move hs
  · exact (add_zero _).symm
  · exact (add_zero _).symm
  · have hpost : (s.calls.set j call').get j = some call' := OrdMap.get_set_self _ _ _
    rcases succeed_outcome (hi.stands j call hg) (keeps_slashVersion s _ j call rfl hg) hn
      with hgo | hend
    · have hnone : bump ⟨s, .next j false, { s with node := node, calls := s.calls.set j call' }⟩
          = 0 := by
        simp [bump, completed, hpost, hgo.returned, Option.filter]
      rw [hnone, add_zero]
      exact congrArg Row.slashVersion hgo.row
    · have hsome : bump ⟨s, .next j false, { s with node := node, calls := s.calls.set j call' }⟩
          = call'.bump := by
        simp [bump, completed, hpost, hend.returned, Option.filter]
      rw [hsome, ← effect_slashVersion]
      exact hend.row
  · exact (add_zero _).symm
  · exact (add_zero _).symm

theorem run_inv (hr : Run (sys row) h s) : Inv Row.slashVersion s :=
  inv_run hr fun t _ => keeps_slashVersion t.pre t.act

theorem slashVersion_run : ∀ {m : List (Taken State Action)} {r : Taken State Action}
    {e : List (Taken State Action)} {s : State}, Run (sys row) (m ++ r :: e) s →
    s.node.row.slashVersion = r.post.node.row.slashVersion + (m.map bump).sum
  | [], r, e, s, hr => by
    cases hr with
    | next _ _ => exact (add_zero _).symm
  | t :: m, r, e, s, hr => by
    cases hr with
    | next hr hs =>
      rw [slashVersion_step (run_inv hr) hs, slashVersion_run hr, List.map_cons, List.sum_cons]
      omega

theorem bump_pos_iff : 0 < bump t ↔ slashCommitted t = true := by
  unfold bump slashCommitted
  rcases completed t with _ | call
  · simp
  · unfold Call.bump
    cases hop : call.op with
    | rollback key =>
      rcases htaken : call.taken with _ | ⟨sum, slashes⟩
      · simp [Op.isSlash, hop, htaken]
      · simp [Op.isSlash, hop, htaken]
    | _ => simp [hop, Op.isSlash]

theorem bump_neg_iff : bump t < 0 ↔ takesBack t = true := by
  unfold bump takesBack
  rcases completed t with _ | call
  · simp
  · unfold Call.bump
    cases hop : call.op with
    | rollback key =>
      rcases htaken : call.taken with _ | ⟨sum, slashes⟩
      · simp [Op.rollsBack, hop, htaken]
      · simp [Op.rollsBack, hop, htaken]
    | _ => simp [hop, Op.rollsBack]

theorem no_slash_iff {m : List (Taken State Action)} (hsum : (m.map bump).sum = 0) :
    (∀ t ∈ m, slashCommitted t = false) ↔ ∀ t ∈ m, takesBack t = false := by
  constructor
  · intro hno t ht
    have hneg : ((m.map bump).map Neg.neg).sum = 0 := by rw [← List.sum_neg, hsum, neg_zero]
    have hle : ∀ x ∈ (m.map bump).map Neg.neg, 0 ≤ x := by
      intro x hx
      obtain ⟨y, hy, rfl⟩ := List.mem_map.1 hx
      obtain ⟨u, hu, rfl⟩ := List.mem_map.1 hy
      have hpos : ¬ 0 < bump u := mt bump_pos_iff.1 (by simp [hno u hu])
      omega
    have h0 := List.all_zero_of_le_zero_le_of_sum_eq_zero hle hneg
      (List.mem_map_of_mem (List.mem_map_of_mem ht))
    refine eq_false_of_ne_true fun hb => ?_
    have hlt := bump_neg_iff.2 hb
    omega
  · intro hno t ht
    have hle : ∀ x ∈ m.map bump, 0 ≤ x := by
      intro x hx
      obtain ⟨u, hu, rfl⟩ := List.mem_map.1 hx
      have hneg : ¬ bump u < 0 := mt bump_neg_iff.1 (by simp [hno u hu])
      omega
    have h0 := List.all_zero_of_le_zero_le_of_sum_eq_zero hle hsum (List.mem_map_of_mem ht)
    refine eq_false_of_ne_true fun hb => ?_
    have hlt := bump_pos_iff.2 hb
    omega

end Versions

section Windows

/-- The step is the read of a checked reward. -/
def reads (id : ℕ) (t : Taken State Action) : Bool :=
  t.act = .next id false
    && (t.pre.calls.get id).any fun call => call.op.checks && call.phase = .reading

/-- The step is the `UPDATE` of a checked reward that finds the version again. -/
def updates (id : ℕ) (t : Taken State Action) : Bool :=
  t.act = .next id false
    && (t.pre.calls.get id).any fun call => call.op.checks && call.phase.waits.any fun read =>
      t.pre.node.row.slashVersion = read.slashVersion

/-- The steps between the read and the `UPDATE` of a checked reward. -/
def Window (id : ℕ) (m h : List (Taken State Action)) : Prop :=
  ∃ l u r e, h = l ++ u :: (m ++ r :: e) ∧ updates id u = true ∧ reads id r = true

/-- A checked reward that succeeds has no such step between its read and its `UPDATE`. -/
def Clear (p : Taken State Action → Bool) (h : List (Taken State Action)) (s : State) : Prop :=
  ∀ id call, s.calls.get id = some call → call.op.checks = true → call.phase = .returned →
    ∀ m, Window id m h → ∀ t ∈ m, p t = false

/-- A checked reward that has read the row. -/
def After (read : Row) (call : Call) : Prop :=
  call.op.checks = true ∧
    match call.phase with
    | .updating read' => read' = read
    | .waiting read' => read' = read
    | .committing => True
    | .aborting => True
    | .returned => True
    | .threw => True
    | _ => False

variable {s s' : State} {a : Action} {t : Taken State Action} {row read : Row} {id : ℕ}
  {h : List (Taken State Action)} {call call' : Call} {node : Node}

theorem After.fail (ha : After read call) (hf : call.fail = some call') : After read call' := by
  obtain ⟨hop, -⟩ := ha
  unfold Call.fail at hf
  split at hf
  · rw [← Option.some.inj hf]
    exact ⟨hop, trivial⟩
  · simp at hf
  · simp at hf
  · cases hop' : call.op <;> simp [hop', Op.checks] at hop
    simp only [hop'] at hf
    rw [← Option.some.inj hf]
    exact ⟨rfl, trivial⟩

theorem After.succeed (ha : After read call) (hn : call.succeed id s = some (call', node)) :
    After read call' := by
  obtain ⟨hop, hph⟩ := ha
  cases hop' : call.op <;> simp [hop', Op.checks] at hop
  unfold Call.succeed at hn
  cases hphase : call.phase with
  | updating read' =>
    simp only [hphase] at hn hph
    simp only [Call.update, hop'] at hn
    split_ifs at hn <;> obtain ⟨rfl, rfl⟩ := Prod.mk.inj (Option.some.inj hn)
    · exact ⟨rfl, hph⟩
    · exact ⟨rfl, trivial⟩
  | waiting read' =>
    simp only [hphase] at hn
    split_ifs at hn
    simp only [Call.check, hop'] at hn
    split_ifs at hn <;> obtain ⟨rfl, rfl⟩ := Prod.mk.inj (Option.some.inj hn) <;>
      exact ⟨rfl, trivial⟩
  | committing =>
    simp only [hphase] at hn
    obtain ⟨rfl, rfl⟩ := Prod.mk.inj (Option.some.inj hn)
    exact ⟨by simp [Call.release, hop', Op.checks], trivial⟩
  | aborting =>
    simp only [hphase] at hn
    obtain ⟨rfl, rfl⟩ := Prod.mk.inj (Option.some.inj hn)
    exact ⟨by simp [Call.release, hop', Op.checks], trivial⟩
  | returned => simp [hphase] at hn
  | threw => simp [hphase] at hn
  | _ => simp [hphase] at hph

theorem reads_after (hs : step s a = some s') (hr : reads id ⟨s, a, s'⟩ = true) :
    s'.node = s.node ∧ ∃ call, s'.calls.get id = some call ∧ After s.node.row call := by
  simp only [reads, Bool.and_eq_true, decide_eq_true_eq, Option.any_eq_true] at hr
  obtain ⟨rfl, call, hg, hop, hph⟩ := hr
  simp only [step, hg, Call.succeed, hph, Bool.false_eq_true, if_false, Option.map_some,
    Option.some.injEq] at hs
  subst hs
  exact ⟨rfl, _, OrdMap.get_set_self _ _ _, hop, rfl⟩

theorem After.step (hi : Inv Row.slashVersion s) (hs : step s a = some s')
    (hg : s.calls.get id = some call) (ha : After read call) :
    ∃ call', s'.calls.get id = some call' ∧ After read call' := by
  have hkeep : ∀ {j call'}, j ≠ id → (s.calls.set j call').get id = some call := fun hj =>
    (OrdMap.get_set_of_ne _ _ (Ne.symm hj)).trans hg
  obtain ⟨op⟩ | ⟨j, c, c', hgj, hf⟩ | ⟨j, c, c', node, hgj, hn⟩ | _ | ⟨adjustment⟩ :=
    step_move hs
  · have hlt := hi.id id call hg
    exact ⟨call, hkeep (by omega), ha⟩
  · by_cases hj : j = id
    · subst hj
      obtain rfl : call = c := Option.some.inj (hg.symm.trans hgj)
      exact ⟨c', OrdMap.get_set_self _ _ _, ha.fail hf⟩
    · exact ⟨call, hkeep hj, ha⟩
  · by_cases hj : j = id
    · subst hj
      obtain rfl : call = c := Option.some.inj (hg.symm.trans hgj)
      exact ⟨c', OrdMap.get_set_self _ _ _, ha.succeed hn⟩
    · exact ⟨call, hkeep hj, ha⟩
  · exact ⟨call, hg, ha⟩
  · exact ⟨call, hg, ha⟩

theorem after_run : ∀ {m : List (Taken State Action)} {r : Taken State Action}
    {e : List (Taken State Action)} {s : State}, Run (sys row) (m ++ r :: e) s →
    reads id r = true → ∃ call, s.calls.get id = some call ∧ After r.pre.node.row call
  | [], r, e, s, hr, hread => by
    cases hr with
    | next _ hs => exact (reads_after hs hread).2
  | t :: m, r, e, s, hr, hread => by
    cases hr with
    | next hr hs =>
      obtain ⟨call, hg, ha⟩ := after_run hr hread
      exact ha.step (run_inv hr) hs hg

theorem window_sum (hr : Run (sys row) h s) {m : List (Taken State Action)}
    (hw : Window id m h) : (m.map bump).sum = 0 := by
  obtain ⟨l, u, r, e, rfl, hu, hread⟩ := hw
  obtain ⟨hru, -⟩ := hr.split rfl
  obtain ⟨-, hsr⟩ := hru.split rfl
  obtain ⟨call, hg, -, hafter⟩ := after_run hru hread
  simp only [updates, Bool.and_eq_true, decide_eq_true_eq, Option.any_eq_true] at hu
  obtain ⟨-, c, hgc, -, read, hwaits, hv⟩ := hu
  obtain rfl : call = c := Option.some.inj (hg.symm.trans hgc)
  rw [Phase.waits_eq_some] at hwaits
  simp only [hwaits] at hafter
  subst hafter
  have hrow := (reads_after hsr hread).1
  have hsum := slashVersion_run hru
  rw [hrow] at hsum
  omega

/-- No slash is committed between the read and the update of a reward that succeeds, exactly if no
rollback that takes slashes back is committed there. -/
theorem slashes_stand_iff (hr : Run (sys row) h s) :
    Clear slashCommitted h s ↔ Clear takesBack h s := by
  constructor
  · intro hc id call hg hop hph m hw
    exact (no_slash_iff (window_sum hr hw)).1 (hc id call hg hop hph m hw)
  · intro hc id call hg hop hph m hw
    exact (no_slash_iff (window_sum hr hw)).2 (hc id call hg hop hph m hw)

/-- A slash is committed, and a rollback that takes nothing back, before a reward succeeds. -/
theorem slashes_stand_iff_slashed : ∃ h s, Run (sys ⟨0, 0⟩) h s ∧ s.node.row = ⟨-490, 1⟩
    ∧ Clear slashCommitted h s := by
  obtain ⟨h, s, hr, ht⟩ := Sys.exists_run (S := sys ⟨0, 0⟩) ⟨"node", [], true, rfl⟩
    [.call (.applyRewardWithSlashCheck 10), .call (.applySlashing 500), .next 0 false,
      .next 1 false, .next 1 false, .next 0 false, .call (.rollback "key"), .next 2 false,
      .next 2 false, .next 2 false, .next 2 false, .next 2 false, .next 2 false, .next 2 false,
      .next 0 false, .next 0 false, .next 0 false]
    (p := fun x => decide ((∀ t ∈ x.1, takesBack t = false) ∧ x.2.node.row = ⟨-490, 1⟩))
    (by decide +kernel)
  obtain ⟨hno, hrow⟩ := of_decide_eq_true ht
  refine ⟨h, s, hr, hrow, (slashes_stand_iff hr).2 fun id call _ _ _ m hw v hv => ?_⟩
  obtain ⟨l, u, r, e, rfl, -, -⟩ := hw
  exact hno v (by simp [hv])

/-- A slash is committed between the read and the update of a call that returned. -/
def slashedWithin : List (Taken State Action) × State → Bool
  | ([_, u, _, _, _, _, _, _, _, _, _, slashed, _, _, r, _, _], s) =>
    s.node.row = ⟨-90, 1⟩
      && (s.calls.get 0).map (fun call => (call.op, call.phase))
        = some (.applyRewardWithSlashCheck 10, .returned)
      && updates 0 u && reads 0 r && slashCommitted slashed
  | _ => false

/-- The slash of another attempt is taken back, and the version of a slash that stands with it. -/
theorem slash_overwritten : ∃ h s, Run (sys ⟨-100, 1⟩) h s ∧ s.node.row = ⟨-90, 1⟩
    ∧ ¬ Clear slashCommitted h s := by
  obtain ⟨h, s, hr, ht⟩ := Sys.exists_run (S := sys ⟨-100, 1⟩)
    ⟨"node", [⟨"node", "key", -100, true⟩], true, rfl⟩
    [.call (.applyRewardWithSlashCheck 10), .next 0 false, .next 0 false,
      .call (.applySlashing 500), .next 1 false, .next 1 false, .call (.rollback "key"),
      .next 2 false, .next 2 false, .next 2 false, .next 2 false, .next 2 false, .next 2 false,
      .next 2 false, .next 0 false, .next 0 false, .next 0 false]
    (p := slashedWithin) (by decide +kernel)
  unfold slashedWithin at ht
  split at ht
  · rename_i t16 u t14 t13 t12 t11 t10 t9 t8 t7 t6 slashed t4 t3 r t1 t0 s' heq
    obtain ⟨rfl, rfl⟩ := Prod.mk.inj heq
    simp only [Bool.and_eq_true, decide_eq_true_eq] at ht
    obtain ⟨⟨⟨⟨hrow, hcall⟩, hu⟩, hread⟩, hslash⟩ := ht
    obtain ⟨call, hg, hc⟩ := Option.map_eq_some_iff.1 hcall
    obtain ⟨hop, hph⟩ := Prod.mk.inj hc
    refine ⟨_, s, hr, hrow, fun hclear => ?_⟩
    have hw : Window 0 [t14, t13, t12, t11, t10, t9, t8, t7, t6, slashed, t4, t3]
        [t16, u, t14, t13, t12, t11, t10, t9, t8, t7, t6, slashed, t4, t3, r, t1, t0] :=
      ⟨[t16], u, r, [t1, t0], rfl, hu, hread⟩
    have hno := hclear 0 call hg (by rw [hop]; rfl) hph _ hw slashed (by simp)
    rw [hslash] at hno
    exact absurd hno (by decide)
  · cases ht

end Windows

end Reputations

end VeriNode
