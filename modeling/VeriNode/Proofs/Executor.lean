import VeriNode.Slashing.Executor
import Mathlib.Algebra.Order.Field.Basic
import Mathlib.Algebra.Order.Field.Rat
import Mathlib.Tactic.FieldSimp
import Mathlib.Tactic.Linarith
import Mathlib.Tactic.Positivity
import Mathlib.Tactic.Ring

/-!
# Every penalty matches the membership it was computed from

From its count to its commit an execution holds the lock of the registry, so no validator comes or
goes in between (`Stands`), and the event it commits has the membership of that moment. An
execution that rejects has committed nothing, and one that got a client releases it once
(`penalties_match`).
-/

namespace VeriNode

namespace SlashingExecutor

section Penalty

variable {n m : ℕ} {total : JsNumber} {calculation : PenaltyCalculation}

theorem assertValidatorCount_ok {value : JsNumber} {name : String}
    (h : assertValidatorCount value name false = .ok ()) :
    ∃ m : ℕ, value = .ofNat m ∧ 0 < m := by
  unfold assertValidatorCount at h
  rw [if_neg Bool.false_ne_true] at h
  split_ifs at h with hs h0
  simp only [Bool.not_eq_true', Bool.not_eq_false] at hs
  obtain ⟨z, rfl, -⟩ := JsNumber.isSafeInteger_iff.1 hs
  have hle : ¬ (z : ℚ) ≤ ((0 : ℕ) : ℚ) := fun hz => h0 (by
    rw [JsNumber.ofNat_eq, JsNumber.ofNat]
    exact JsNumber.le_fin.2 hz)
  have hpos : 0 < z := by
    have := not_le.1 hle
    exact_mod_cast this
  obtain ⟨m, rfl⟩ := Int.eq_ofNat_of_zero_le hpos.le
  exact ⟨m, by simp [JsNumber.ofNat], by omega⟩

/-- The penalty for a count of a total. -/
def penaltyFor (n m : ℕ) : ℚ := 500 * (2 - n / m)

theorem calculatePenalty_ok
    (h : calculatePenalty (.ofNat n) total baseSlashingPenalty = .ok calculation) :
    ∃ m : ℕ, 0 < m ∧ n ≤ m ∧ calculation.penalty = penaltyFor n m
      ∧ calculation.totalValidators = m := by
  unfold calculatePenalty at h
  rcases ht : assertValidatorCount total "totalValidators" false with e | ⟨⟩ <;>
    simp only [ht, bind, Except.bind, reduceCtorEq] at h
  rcases ha : assertValidatorCount (.ofNat n) "activeValidators" true with e | ⟨⟩ <;>
    simp only [ha, reduceCtorEq] at h
  obtain ⟨m, rfl, hm⟩ := assertValidatorCount_ok ht
  split_ifs at h with hlt
  have hbase : ¬ (500 : ℚ) ≤ 0 := by norm_num
  simp only [JsNumber.ofNat, baseSlashingPenalty, if_neg hbase, pure, Except.pure,
    Except.ok.injEq] at h
  subst h
  have hm' : (m : ℚ) ≠ 0 := by exact_mod_cast hm.ne'
  refine ⟨m, hm, ?_, ?_, rfl⟩
  · rw [JsNumber.lt_ofNat] at hlt
    omega
  · simp only [penaltyFor]
    field_simp
    ring

theorem penaltyFor_bounds (hm : 0 < m) (hn : n ≤ m) :
    500 ≤ penaltyFor n m ∧ penaltyFor n m ≤ 1000 := by
  have hm' : (0 : ℚ) < m := by exact_mod_cast hm
  have hn' : (n : ℚ) ≤ m := by exact_mod_cast hn
  have hone : (n : ℚ) / m ≤ 1 := (div_le_one hm').2 hn'
  have hzero : (0 : ℚ) ≤ n / m := by positivity
  unfold penaltyFor
  constructor <;> linarith

theorem penaltyFor_antitone (m : ℕ) : Antitone fun n => penaltyFor n m := by
  intro n n' hn
  have hn' : (n : ℚ) ≤ n' := by exact_mod_cast hn
  have hdiv : (n : ℚ) / m ≤ n' / m := by gcongr
  show penaltyFor n' m ≤ penaltyFor n m
  unfold penaltyFor
  linarith

end Penalty

section Statements

/-- What the next statement does to its call, with what lets it. -/
inductive Moves (s : State) (id : ℕ) (call : Call) : Option String → Call → Prop
  | connected : call.phase = .connecting →
      Moves s id call none { call with phase := .beginning, connected := true }
  | began : call.phase = .beginning → Moves s id call none { call with phase := .locking }
  | locked : call.phase = .locking → locked s id = false →
      Moves s id call none { call with phase := .counting, lock := true }
  | counted : call.phase = .counting → Moves s id call none
      { call with phase := afterCount call.input (activeCount s.validatorRegistry) }
  | inserted (count : ℕ) (calculation : PenaltyCalculation) :
      call.phase = .inserting count calculation →
      Moves s id call none { call with
        phase := .committing
          ⟨eventRow call.input s.nextEventId count calculation, calculation.multiplier⟩
        write := some (eventRow call.input s.nextEventId count calculation) }
  | committed (event : SlashingEvent) : call.phase = .committing event →
      Moves s id call none (call.endTx (.releasing (.ok event)))
  | rolledBack (error : String) (failure : Option String) : call.phase = .rollingBack error →
      Moves s id call failure (call.endTx (.releasing (.error error)))
  | released (outcome : Except String SlashingEvent) : call.phase = .releasing outcome →
      Moves s id call none { call with phase := .settled outcome, releases := call.releases + 1 }
  | refused (error : String) : call.phase = .connecting →
      Moves s id call (some error) { call with phase := .settled (.error error) }
  | notBegun (error : String) : call.phase = .beginning →
      Moves s id call (some error) { call with phase := .releasing (.error error) }
  | failed (error : String) : (call.phase = .locking ∨ call.phase = .counting
      ∨ (∃ count calculation, call.phase = .inserting count calculation)
      ∨ ∃ event, call.phase = .committing event) →
      Moves s id call (some error) (call.endTx (.rollingBack error))

variable {s : State} {id : ℕ} {call call' : Call} {error : Option String}

theorem next_moves (hn : call.next id s error = some call') : Moves s id call error call' := by
  rcases error with _ | e
  · unfold Call.next Call.succeed at hn
    cases hph : call.phase with
    | connecting =>
      simp only [hph, Option.some.injEq] at hn
      exact hn ▸ .connected hph
    | beginning =>
      simp only [hph, Option.some.injEq] at hn
      exact hn ▸ .began hph
    | locking =>
      simp only [hph] at hn
      split_ifs at hn with hl
      exact Option.some.inj hn ▸ .locked hph (eq_false_of_ne_true hl)
    | counting =>
      simp only [hph, Option.some.injEq] at hn
      exact hn ▸ .counted hph
    | inserting count calculation =>
      simp only [hph] at hn
      split_ifs at hn
      exact Option.some.inj hn ▸ .inserted count calculation hph
    | committing event =>
      simp only [hph, Option.some.injEq] at hn
      exact hn ▸ .committed event hph
    | rollingBack e =>
      simp only [hph, Option.some.injEq] at hn
      exact hn ▸ .rolledBack e none hph
    | releasing outcome =>
      simp only [hph, Option.some.injEq] at hn
      exact hn ▸ .released outcome hph
    | settled outcome => simp [hph] at hn
  · unfold Call.next Call.fail at hn
    cases hph : call.phase with
    | connecting =>
      simp only [hph, Option.some.injEq] at hn
      exact hn ▸ .refused e hph
    | beginning =>
      simp only [hph, Option.some.injEq] at hn
      exact hn ▸ .notBegun e hph
    | locking =>
      simp only [hph, Option.some.injEq] at hn
      exact hn ▸ .failed e (.inl hph)
    | counting =>
      simp only [hph, Option.some.injEq] at hn
      exact hn ▸ .failed e (.inr (.inl hph))
    | inserting count calculation =>
      simp only [hph, Option.some.injEq] at hn
      exact hn ▸ .failed e (.inr (.inr (.inl ⟨count, calculation, hph⟩)))
    | committing event =>
      simp only [hph, Option.some.injEq] at hn
      exact hn ▸ .failed e (.inr (.inr (.inr ⟨event, hph⟩)))
    | rollingBack e' =>
      simp only [hph, Option.some.injEq] at hn
      exact hn ▸ .rolledBack e' (some e) hph
    | releasing outcome => simp [hph] at hn
    | settled outcome => simp [hph] at hn

theorem afterCount_cases (input : ExecuteSlashingInput) (count : ℕ) :
    (∃ e, afterCount input count = .rollingBack e)
      ∨ ∃ calculation, afterCount input count = .inserting count calculation
        ∧ calculatePenalty (.ofNat count) input.totalValidators baseSlashingPenalty
          = .ok calculation := by
  unfold afterCount parseActiveCount
  split_ifs
  · rcases hc : calculatePenalty (.ofNat count) input.totalValidators baseSlashingPenalty with
      e | calculation
    · exact .inl ⟨e, by simp only [hc]⟩
    · exact .inr ⟨calculation, by simp only [hc], rfl⟩
  · exact .inl ⟨_, rfl⟩

end Statements

section Standing

structure Matches (registry : Registry) (row : SlashingEventRow) : Prop where
  count : row.validatorCountAtSlashing = activeCount registry
  penalty : ∃ m : ℕ, row.totalValidatorCount = m ∧ 0 < m ∧ row.validatorCountAtSlashing ≤ m
    ∧ row.penaltyAmount = penaltyFor row.validatorCountAtSlashing m

/-- Where a call stands: what it holds, and what it has computed. -/
def Stands (registry : Registry) (call : Call) : Prop :=
  match call.phase with
  | .connecting => (call.connected = false ∧ call.releases = 0) ∧ call.lock = false
      ∧ call.write = none
  | .beginning => (call.connected = true ∧ call.releases = 0) ∧ call.lock = false
      ∧ call.write = none
  | .locking => (call.connected = true ∧ call.releases = 0) ∧ call.lock = false
      ∧ call.write = none
  | .counting => (call.connected = true ∧ call.releases = 0) ∧ call.lock = true
      ∧ call.write = none
  | .inserting count calculation => (call.connected = true ∧ call.releases = 0)
      ∧ (call.lock = true ∧ call.write = none) ∧ count = activeCount registry
      ∧ calculatePenalty (.ofNat count) call.input.totalValidators baseSlashingPenalty
        = .ok calculation
  | .committing event => (call.connected = true ∧ call.releases = 0)
      ∧ (call.lock = true ∧ call.write = some event.row) ∧ Matches registry event.row
  | .rollingBack _ => (call.connected = true ∧ call.releases = 0) ∧ call.write = none
  | .releasing _ => (call.connected = true ∧ call.releases = 0) ∧ call.lock = false
      ∧ call.write = none
  | .settled _ => call.releases = (if call.connected then 1 else 0) ∧ call.lock = false
      ∧ call.write = none

variable {registry registry' : Registry} {s : State} {id i : ℕ} {call call' : Call}
  {error : Option String}

theorem stands_execute (input : ExecuteSlashingInput) : Stands registry (execute input) := by
  unfold execute
  split <;> simp [Stands]

theorem Stands.frame (hst : Stands registry call) (h : call.lock = true → registry' = registry) :
    Stands registry' call := by
  unfold Stands at hst ⊢
  cases hph : call.phase with
  | inserting count calculation =>
    simp only [hph] at hst ⊢
    rw [h hst.2.1.1]
    exact hst
  | committing event =>
    simp only [hph] at hst ⊢
    rw [h hst.2.1.1]
    exact hst
  | _ =>
    simp only [hph] at hst ⊢
    exact hst

/-- A call that is going on has got a client and has not released it, or has not got one. -/
theorem Stands.moves (hst : Stands s.validatorRegistry call) (hm : Moves s id call error call') :
    Stands s.validatorRegistry call' := by
  unfold Stands at hst
  cases hm with
  | connected hph =>
    simp only [hph] at hst
    exact ⟨⟨rfl, hst.1.2⟩, hst.2⟩
  | began hph =>
    simp only [hph] at hst
    exact hst
  | locked hph hl =>
    simp only [hph] at hst
    exact ⟨hst.1, rfl, hst.2.2⟩
  | counted hph =>
    simp only [hph] at hst
    unfold Stands
    rcases afterCount_cases call.input (activeCount s.validatorRegistry) with
      ⟨e, ha⟩ | ⟨calculation, ha, hc⟩ <;> simp only [ha]
    · exact ⟨hst.1, hst.2.2⟩
    · exact ⟨hst.1, hst.2, trivial, hc⟩
  | inserted count calculation hph =>
    simp only [hph] at hst
    obtain ⟨hheld, ⟨hl, -⟩, rfl, hc⟩ := hst
    obtain ⟨m, hm, hle, hp, ht⟩ := calculatePenalty_ok hc
    exact ⟨hheld, ⟨hl, rfl⟩, rfl, m, by simp [eventRow, ht], hm, hle, hp⟩
  | committed event hph =>
    simp only [hph] at hst
    exact ⟨hst.1, rfl, rfl⟩
  | rolledBack e error hph =>
    simp only [hph] at hst
    exact ⟨hst.1, rfl, rfl⟩
  | released outcome hph =>
    simp only [hph] at hst
    exact ⟨by simp [hst.1.1, hst.1.2], hst.2⟩
  | refused e hph =>
    simp only [hph] at hst
    exact ⟨by simp [hst.1.1, hst.1.2], hst.2⟩
  | notBegun e hph =>
    simp only [hph] at hst
    exact hst
  | failed e hph =>
    rcases hph with hph | hph | ⟨count, calculation, hph⟩ | ⟨event, hph⟩ <;>
      simp only [hph] at hst <;> exact ⟨hst.1, rfl⟩

theorem Moves.lock (hm : Moves s id call error call') (hl : call'.lock = true) :
    call.lock = true ∨ SlashingExecutor.locked s id = false := by
  cases hm with
  | locked hph hfree => exact .inr hfree
  | committed event hph => simp [Call.endTx] at hl
  | rolledBack e error hph => simp [Call.endTx] at hl
  | failed e hph => simp [Call.endTx] at hl
  | _ => exact .inl hl

theorem locked_eq_false (hl : locked s id = false) (hg : s.calls.get i = some call) (hi : i ≠ id) :
    call.lock = false := by
  have hno := OrdMap.of_any_eq_false hl hg
  simpa [hi] using hno

theorem tableLocked_eq_false (hl : tableLocked s = false) (hg : s.calls.get i = some call) :
    call.lock = false := OrdMap.of_any_eq_false hl hg

end Standing

section Runs

/-- The call that takes the step. -/
def Action.taker : Action → Option ℕ
  | .next id _ => some id
  | _ => none

/-- The step commits the row, and the registry has what it says. -/
structure CommitsRow (row : SlashingEventRow) (t : Taken State Action) : Prop where
  inserted : t.post.slashingEvents = t.pre.slashingEvents ++ [row]
  registry : t.post.validatorRegistry = t.pre.validatorRegistry
  counted : Matches t.pre.validatorRegistry row

/-- The call has changed no row. -/
def Quiet (id : ℕ) (h : List (Taken State Action)) : Prop :=
  ∀ t ∈ h, t.act.taker = some id → t.post.slashingEvents = t.pre.slashingEvents
    ∧ t.post.validatorRegistry = t.pre.validatorRegistry

/-- The call has not committed. -/
def Phase.uncommitted : Phase → Prop
  | .releasing (.ok _) => False
  | .settled (.ok _) => False
  | _ => True

structure Inv (h : List (Taken State Action)) (s : State) : Prop where
  stands : ∀ id call, s.calls.get id = some call → Stands s.validatorRegistry call
  exclusive : ∀ i c j c', s.calls.get i = some c → s.calls.get j = some c' → c.lock = true →
    c'.lock = true → i = j
  events : ∀ row ∈ s.slashingEvents, ∃ t ∈ h, CommitsRow row t
  quiet : ∀ id call, s.calls.get id = some call → call.phase.uncommitted → Quiet id h
  id : ∀ id call, s.calls.get id = some call → id < s.nextId
  taker : ∀ t ∈ h, ∀ id, t.act.taker = some id → id < s.nextId

variable {s s' : State} {id : ℕ} {call call' : Call} {error : Option String} {a : Action}
  {h : List (Taken State Action)} {t : Taken State Action}

theorem Quiet.cons (hq : Quiet id h) (ht : t.act.taker = some id →
    t.post.slashingEvents = t.pre.slashingEvents
      ∧ t.post.validatorRegistry = t.pre.validatorRegistry) : Quiet id (t :: h) := by
  intro u hu ha
  rcases List.mem_cons.1 hu with rfl | hu
  · exact ht ha
  · exact hq u hu ha

theorem Stands.commits (hst : Stands s.validatorRegistry call) (hm : Moves s id call error call') :
    call.commits error = none ∨ (∃ row, call.commits error = some row
      ∧ Matches s.validatorRegistry row ∧ ¬ call'.phase.uncommitted) := by
  unfold Stands at hst
  cases hm with
  | committed event hph =>
    simp only [hph] at hst
    exact .inr ⟨event.row, by simp [Call.commits, hph, hst.2.1.2], hst.2.2, by
      simp [Call.endTx, Phase.uncommitted]⟩
  | rolledBack e error hph => simp [Call.commits, hph]
  | connected hph => simp [Call.commits, hph]
  | began hph => simp [Call.commits, hph]
  | locked hph hl => simp [Call.commits, hph]
  | counted hph => simp [Call.commits, hph]
  | inserted count calculation hph => simp [Call.commits, hph]
  | released outcome hph => simp [Call.commits, hph]
  | refused e hph => simp [Call.commits, hph]
  | notBegun e hph => simp [Call.commits, hph]
  | failed e hph =>
    rcases hph with hph | hph | ⟨count, calculation, hph⟩ | ⟨event, hph⟩ <;>
      simp [Call.commits, hph]

theorem Moves.uncommitted (hm : Moves s id call error call') (h : call'.phase.uncommitted) :
    call.phase.uncommitted := by
  cases hm with
  | committed event hph => simp [hph, Phase.uncommitted]
  | released outcome hph =>
    rw [hph]
    rcases outcome with e | event
    · trivial
    · exact h
  | connected hph => simp [hph, Phase.uncommitted]
  | began hph => simp [hph, Phase.uncommitted]
  | locked hph hl => simp [hph, Phase.uncommitted]
  | counted hph => simp [hph, Phase.uncommitted]
  | inserted count calculation hph => simp [hph, Phase.uncommitted]
  | rolledBack e error hph => simp [hph, Phase.uncommitted]
  | refused e hph => simp [hph, Phase.uncommitted]
  | notBegun e hph => simp [hph, Phase.uncommitted]
  | failed e hph =>
    rcases hph with hph | hph | ⟨count, calculation, hph⟩ | ⟨event, hph⟩ <;>
      simp [hph, Phase.uncommitted]

theorem Inv.executed (hi : Inv h s) (input : ExecuteSlashingInput) (hs' : s' = { s with
      calls := s.calls.set s.nextId (execute input)
      nextId := s.nextId + 1 }) : Inv (⟨s, .execute input, s'⟩ :: h) s' := by
  subst hs'
  have hnew : (execute input).lock = false := by
    unfold execute
    split <;> rfl
  refine ⟨fun i c hg => ?_, fun i c j c' hg hg' hl hl' => ?_, fun row hrow => ?_,
    fun i c hg hu => ?_, fun i c hg => ?_, fun u hu i ha => ?_⟩
  · rcases OrdMap.of_get_set hg with ⟨rfl, rfl⟩ | ⟨-, hg⟩
    · exact stands_execute input
    · exact hi.stands i c hg
  · rcases OrdMap.of_get_set hg with ⟨-, rfl⟩ | ⟨-, hg⟩
    · simp [hnew] at hl
    · rcases OrdMap.of_get_set hg' with ⟨-, rfl⟩ | ⟨-, hg'⟩
      · simp [hnew] at hl'
      · exact hi.exclusive i c j c' hg hg' hl hl'
  · obtain ⟨t, ht, hc⟩ := hi.events row hrow
    exact ⟨t, List.mem_cons_of_mem _ ht, hc⟩
  · rcases OrdMap.of_get_set hg with ⟨rfl, rfl⟩ | ⟨-, hg⟩
    · intro u hu' ha
      rcases List.mem_cons.1 hu' with rfl | hu'
      · simp [Action.taker] at ha
      · exact absurd (hi.taker u hu' _ ha) (lt_irrefl _)
    · exact (hi.quiet i c hg hu).cons (by simp [Action.taker])
  · rcases OrdMap.of_get_set hg with ⟨rfl, -⟩ | ⟨-, hg⟩
    · exact Nat.lt_succ_self _
    · exact Nat.lt_succ_of_lt (hi.id i c hg)
  · rcases List.mem_cons.1 hu with rfl | hu
    · simp [Action.taker] at ha
    · exact (hi.taker u hu i ha).trans (Nat.lt_succ_self _)

theorem Inv.written (hi : Inv h s) {f : Registry → Except String Registry}
    (hs : write f s = some s') (ha : a.taker = none) : Inv (⟨s, a, s'⟩ :: h) s' := by
  have hcons : ∀ {i : ℕ}, Quiet i h → Quiet i (⟨s, a, s'⟩ :: h) := fun hq => hq.cons (by simp [ha])
  have htaker : ∀ u ∈ (⟨s, a, s'⟩ : Taken State Action) :: h, ∀ i, u.act.taker = some i →
      i < s.nextId := by
    intro u hu i hi'
    rcases List.mem_cons.1 hu with rfl | hu
    · simp [ha] at hi'
    · exact hi.taker u hu i hi'
  unfold write at hs
  rcases hf : f s.validatorRegistry with e | registry <;> simp only [hf] at hs
  · obtain rfl := Option.some.inj hs
    exact ⟨hi.stands, hi.exclusive, fun row hrow => (hi.events row hrow).imp fun t ht =>
      ⟨List.mem_cons_of_mem _ ht.1, ht.2⟩, fun i c hg hu => hcons (hi.quiet i c hg hu), hi.id, htaker⟩
  · split_ifs at hs with hl
    obtain rfl := Option.some.inj hs
    refine ⟨fun i c hg => (hi.stands i c hg).frame fun hlock => ?_, hi.exclusive,
      fun row hrow => (hi.events row hrow).imp fun t ht =>
        ⟨List.mem_cons_of_mem _ ht.1, ht.2⟩, fun i c hg hu => hcons (hi.quiet i c hg hu), hi.id, htaker⟩
    simp [tableLocked_eq_false (eq_false_of_ne_true hl) hg] at hlock

theorem Inv.next (hi : Inv h s) (hg : s.calls.get id = some call)
    (hm : Moves s id call error call') (hs' : s' = { s with
      slashingEvents := s.slashingEvents ++ (call.commits error).toList
      calls := s.calls.set id call'
      nextEventId := if call.inserts error then s.nextEventId + 1 else s.nextEventId }) :
    Inv (⟨s, .next id error, s'⟩ :: h) s' := by
  subst hs'
  have hst := hi.stands id call hg
  refine ⟨fun i c hget => ?_, fun i c j c' hget hget' hl hl' => ?_, fun row hrow => ?_,
    fun i c hget hu => ?_, fun i c hget => ?_, fun u hu i ha => ?_⟩
  · rcases OrdMap.of_get_set hget with ⟨rfl, rfl⟩ | ⟨-, hget⟩
    · exact hst.moves hm
    · exact hi.stands i c hget
  · have hlock : ∀ {i c}, s.calls.get i = some c → i ≠ id → c.lock = true → call'.lock = true →
        False := by
      intro i c hget hne hl hl'
      rcases hm.lock hl' with hold | hfree
      · exact hne (hi.exclusive i c id call hget hg hl hold)
      · simp [locked_eq_false hfree hget hne] at hl
    rcases OrdMap.of_get_set hget with ⟨rfl, rfl⟩ | ⟨hne, hold⟩ <;>
      rcases OrdMap.of_get_set hget' with ⟨rfl, rfl⟩ | ⟨hne', hold'⟩
    · rfl
    · exact (hlock hold' hne' hl' hl).elim
    · exact (hlock hold hne hl hl').elim
    · exact hi.exclusive i c j c' hold hold' hl hl'
  · rcases List.mem_append.1 hrow with hrow | hrow
    · obtain ⟨t, ht, hc⟩ := hi.events row hrow
      exact ⟨t, List.mem_cons_of_mem _ ht, hc⟩
    · rcases hst.commits hm with hnone | ⟨row', hsome, hmatch, -⟩
      · simp [hnone] at hrow
      · obtain rfl : row = row' := by simpa [hsome] using hrow
        exact ⟨_, List.mem_cons_self, by simp [hsome], rfl, hmatch⟩
  · rcases OrdMap.of_get_set hget with ⟨rfl, rfl⟩ | ⟨hne, hget⟩
    · refine (hi.quiet i call hg (hm.uncommitted hu)).cons fun _ => ⟨?_, rfl⟩
      rcases hst.commits hm with hnone | ⟨row, -, -, hno⟩
      · simp [hnone]
      · exact absurd hu hno
    · exact (hi.quiet i c hget hu).cons fun ha => absurd (Option.some.inj ha).symm hne
  · rcases OrdMap.of_get_set hget with ⟨rfl, -⟩ | ⟨-, hget⟩
    · exact hi.id i call hg
    · exact hi.id i c hget
  · rcases List.mem_cons.1 hu with rfl | hu
    · obtain rfl := Option.some.inj ha
      exact hi.id id call hg
    · exact hi.taker u hu i ha

theorem inv_run (hr : Run sys h s) : Inv h s := by
  induction hr with
  | start hi =>
    obtain ⟨registry, rfl⟩ := hi
    exact ⟨by simp, by simp, by simp, by simp, by simp, by simp⟩
  | @next h s s' a hr hs ih =>
    rcases a with input | ⟨id, error⟩ | ⟨v, active⟩ | v | v
    · exact ih.executed input (Option.some.inj hs).symm
    · simp only [sys, step] at hs
      rcases hg : s.calls.get id with _ | call <;> simp only [hg, reduceCtorEq] at hs
      rcases hn : call.next id s error with _ | call' <;>
        simp only [hn, Option.some.injEq, reduceCtorEq] at hs
      exact ih.next hg (next_moves hn) hs.symm
    · exact ih.written hs rfl
    · exact ih.written hs rfl
    · exact ih.written hs rfl

/-- What the events, the rejections and the clients of a run are. -/
structure Accounted (h : List (Taken State Action)) (s : State) : Prop where
  /-- Each event has the membership of the moment it was committed. -/
  events : ∀ row ∈ s.slashingEvents, ∃ t ∈ h, CommitsRow row t
  bounds : ∀ row ∈ s.slashingEvents, 500 ≤ row.penaltyAmount ∧ row.penaltyAmount ≤ 1000
  antitone : ∀ row ∈ s.slashingEvents, ∀ row' ∈ s.slashingEvents,
    row.totalValidatorCount = row'.totalValidatorCount →
    row.validatorCountAtSlashing ≤ row'.validatorCountAtSlashing →
    row'.penaltyAmount ≤ row.penaltyAmount
  rejected : ∀ id call e, s.calls.get id = some call → call.phase = .settled (.error e) → Quiet id h
  released : ∀ id call outcome, s.calls.get id = some call → call.phase = .settled outcome →
    call.releases = if call.connected then 1 else 0

/-- Every event of every run matches the membership, whatever fails and in whatever order. -/
theorem penalties_match (hr : Run sys h s) : Accounted h s := by
  have hi := inv_run hr
  have hmatch : ∀ row ∈ s.slashingEvents, ∃ m : ℕ, row.totalValidatorCount = m ∧ 0 < m
      ∧ row.validatorCountAtSlashing ≤ m
      ∧ row.penaltyAmount = penaltyFor row.validatorCountAtSlashing m := by
    intro row hrow
    obtain ⟨t, -, hc⟩ := hi.events row hrow
    exact hc.counted.penalty
  refine ⟨hi.events, fun row hrow => ?_, fun row hrow row' hrow' ht hle => ?_,
    fun id call e hg hph => hi.quiet id call hg (by simp [hph, Phase.uncommitted]),
    fun id call outcome hg hph => ?_⟩
  · obtain ⟨m, -, hm, hle, hp⟩ := hmatch row hrow
    rw [hp]
    exact penaltyFor_bounds hm hle
  · obtain ⟨m, hm, -, -, hp⟩ := hmatch row hrow
    obtain ⟨m', hm', -, -, hp'⟩ := hmatch row' hrow'
    obtain rfl : m = m' := by omega
    rw [hp, hp']
    exact penaltyFor_antitone m hle
  · have hst := hi.stands id call hg
    unfold Stands at hst
    simp only [hph] at hst
    exact hst.1

/-- One of four validators is active when the first call commits; the second call is given a total
that is too small, and rejects. -/
theorem penalties_match_two : ∃ h s, Run sys h s
    ∧ s.slashingEvents.map (fun row => (row.validatorCountAtSlashing, row.penaltyAmount)) = [(1, 875)]
    ∧ Accounted h s := by
  obtain ⟨h, s, hr, hp⟩ := Sys.exists_run (S := sys) ⟨∅, rfl⟩
    [.registerValidator "a" true, .registerValidator "b" false, .execute ⟨"b", "double-sign", 4⟩,
      .execute ⟨"a", "equivocation", 0⟩, .next 0 none, .next 1 none, .next 1 none, .next 0 none,
      .next 0 none, .next 0 none, .next 0 none, .next 0 none, .activateValidator "b", .next 1 none,
      .next 1 none, .next 1 none, .next 1 none, .next 0 none]
    (p := fun x => x.2.slashingEvents.map (fun row =>
      (row.validatorCountAtSlashing, row.penaltyAmount)) = [(1, 875)]) (by decide +kernel)
  exact ⟨h, s, hr, of_decide_eq_true hp, penalties_match hr⟩

end Runs

end SlashingExecutor

end VeriNode
