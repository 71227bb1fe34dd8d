import VeriNode.Database.AdaptivePool
import VeriNode.Lib.Pid

/-!
# How soon a pool grows

Under an overload the controller's output comes to exceed its threshold after a number of
evaluations that depends on how far the sum of the errors is below zero, and nothing keeps that from
sinking while the pool is idle. So the reaction is uniform over a set of states just if the sum is
bounded below on it (`reacts_iff_bounded`).
-/

namespace VeriNode

namespace AdaptivePool

/-- A configuration whose thresholds, gains, step and interval are positive. -/
structure Config extends AdaptivePoolConfig where
  latency_pos : 0 < latencyThresholdMs
  wait_pos : 0 < waitThresholdMs
  step_pos : 0 < adjustmentStep
  interval_pos : 0 < probeIntervalMs
  kp_pos : 0 < kp
  ki_pos : 0 < ki
  kd_pos : 0 < kd

instance : Coe Config AdaptivePoolConfig := ⟨Config.toAdaptivePoolConfig⟩

variable {c : Config} {s s' : State} {now m₀ : ℚ} {x : Sample}

section Maxima

end Maxima

section Evaluations

/-- There are samples to evaluate. -/
def State.Sampled (s : State) : Prop := s.durationSamplesMs ≠ [] ∧ s.utilizationSamples ≠ []

def State.controller (s : State) : Pid.State ℚ := ⟨s.integral, s.previousError⟩

/-- The controller of the probe. -/
def Config.gains (c : Config) : Pid.Gains ℚ where
  kp := c.kp
  ki := c.ki
  kd := c.kd
  dt := dt c
  kp_pos := c.kp_pos
  ki_pos := c.ki_pos
  kd_pos := c.kd_pos
  dt_pos := div_pos c.interval_pos (by norm_num)

theorem evaluate_of_not_sampled (h : ¬ s.Sampled) : evaluate c now s = { s with now } :=
  if_pos (by rw [State.Sampled, not_and_or, not_not, not_not] at h; exact h)

/-- What an evaluation leaves, where there are samples. -/
structure Evaluated (c : Config) (now : ℚ) (s s' : State) : Prop where
  clock : s'.now = now
  controller : s'.controller = Pid.next c.gains s.controller (errorOf c s)
  poolMax : s'.poolMax = (nextMax c s now).1
  samples : s'.durationSamplesMs = s.durationSamplesMs ∧ s'.waitSamplesMs = s.waitSamplesMs ∧
    s'.utilizationSamples = s.utilizationSamples
  adjusted : s'.lastAdjustmentAt = now ∨
    s'.lastAdjustmentDirection = s.lastAdjustmentDirection ∧
      s'.lastAdjustmentAt = s.lastAdjustmentAt

theorem evaluate_of_sampled (h : s.Sampled) : Evaluated c now s (evaluate c now s) := by
  have heval : evaluate c now s =
      if (nextMax c s now).1 ≠ s.poolMax then
        { s with
          integral := s.integral + errorOf c s * dt c
          previousError := errorOf c s
          now
          targetConnections := (nextMax c s now).1
          poolMax := (nextMax c s now).1
          lastAdjustmentDirection := some (nextMax c s now).2
          lastAdjustmentAt := now }
      else
        { s with
          integral := s.integral + errorOf c s * dt c
          previousError := errorOf c s
          now } := if_neg (by rw [not_or]; exact h)
  rw [heval]
  split_ifs with hne
  · exact ⟨rfl, rfl, rfl, ⟨rfl, rfl, rfl⟩, .inl rfl⟩
  · exact ⟨rfl, rfl, (not_not.1 hne).symm, ⟨rfl, rfl, rfl⟩, .inr ⟨rfl, rfl⟩⟩

end Evaluations

section Windows

theorem push_eq (samples : List ℚ) (y : ℚ) : push samples y =
    if sampleWindow < (samples ++ [y]).length then (samples ++ [y]).tail else samples ++ [y] := rfl

theorem push_eq_drop {samples : List ℚ} (h : samples.length ≤ sampleWindow) (y : ℚ) :
    push samples y = (samples ++ [y]).drop (samples.length + 1 - sampleWindow) := by
  rw [push_eq, List.length_append, List.length_singleton]
  generalize sampleWindow = n at h ⊢
  split_ifs with hlt
  · rw [← List.drop_one, show samples.length + 1 - n = 1 by omega]
  · rw [Nat.sub_eq_zero_of_le (not_lt.1 hlt), List.drop_zero]

theorem length_push {samples : List ℚ} (h : samples.length ≤ sampleWindow) (y : ℚ) :
    (push samples y).length = min (samples.length + 1) sampleWindow := by
  rw [push_eq_drop h, List.length_drop, List.length_append, List.length_singleton]
  generalize sampleWindow = n at h ⊢
  omega

theorem mem_push {samples : List ℚ} {y z : ℚ} (hz : z ∈ push samples y) : z ∈ samples ∨ z = y := by
  rw [push_eq] at hz
  have hmem : z ∈ samples ++ [y] := by
    split_ifs at hz
    · exact List.mem_of_mem_tail hz
    · exact hz
  simpa using hmem

/-- The windows have the same number of samples, durations are not negative, and what the controller
and the adjustments have kept is in its bounds. -/
structure Inv (s : State) : Prop where
  waits : s.waitSamplesMs.length = s.durationSamplesMs.length
  utilizations : s.utilizationSamples.length = s.durationSamplesMs.length
  window : s.durationSamplesMs.length ≤ sampleWindow
  durations : ∀ d ∈ s.durationSamplesMs, 0 ≤ d
  previous : -1 ≤ s.previousError
  adjusted : ∀ d, s.lastAdjustmentDirection = some d → s.lastAdjustmentAt ≤ s.now

theorem inv_recordSample (hi : Inv s) (hx : 0 ≤ x.durationMs) : Inv (recordSample s x) := by
  have hw : s.waitSamplesMs.length ≤ sampleWindow := hi.waits ▸ hi.window
  have hu : s.utilizationSamples.length ≤ sampleWindow := hi.utilizations ▸ hi.window
  have hd := length_push hi.window x.durationMs
  refine ⟨?_, ?_, ?_, fun d hmem => ?_, hi.previous, hi.adjusted⟩
  · exact ((length_push hw x.waitMs).trans (by rw [hi.waits])).trans hd.symm
  · exact ((length_push hu x.utilization).trans (by rw [hi.utilizations])).trans hd.symm
  · exact hd.trans_le (min_le_right _ _)
  · rcases mem_push hmem with hmem | rfl
    · exact hi.durations d hmem
    · exact hx

theorem Inv.sampled (hi : Inv s) (hne : s.durationSamplesMs ≠ []) : s.Sampled := by
  refine ⟨hne, fun hnil => hne ?_⟩
  rw [← List.length_eq_zero_iff, ← hi.utilizations, hnil, List.length_nil]

theorem percentile_nonneg {l : List ℚ} (h : ∀ d ∈ l, 0 ≤ d) (p : ℚ) : 0 ≤ percentile l p := by
  unfold percentile
  split_ifs with hnil
  · exact le_rfl
  · rw [List.getD_eq_getElem?_getD]
    cases hget : l[min ⌊l.length * p⌋.toNat (l.length - 1)]? with
    | none => exact le_rfl
    | some d => exact h d (List.mem_of_getElem? hget)

theorem Inv.p95_nonneg (hi : Inv s) : 0 ≤ s.durationP95 :=
  percentile_nonneg (fun d hd => hi.durations d ((List.mem_insertionSort _).1 hd)) _

theorem Inv.neg_one_le_error (hi : Inv s) : -1 ≤ errorOf c s := by
  refine le_max_of_le_left ?_
  rw [le_div_iff₀ c.latency_pos]
  linarith [hi.p95_nonneg]

theorem inv_evaluate (hi : Inv s) (hnow : s.now ≤ now) : Inv (evaluate c now s) := by
  by_cases hs : s.Sampled
  · have he : Evaluated c now s _ := evaluate_of_sampled hs
    obtain ⟨hd, hw, hu⟩ := he.samples
    have hprev : (evaluate c now s).previousError = errorOf c s :=
      congrArg Pid.State.previous he.controller
    refine ⟨by rw [hd, hw, hi.waits], by rw [hd, hu, hi.utilizations], by rw [hd]; exact hi.window,
      by rw [hd]; exact hi.durations, by rw [hprev]; exact hi.neg_one_le_error, fun d hdir => ?_⟩
    rw [he.clock]
    rcases he.adjusted with hat | ⟨hsame, hat⟩
    · exact hat.le
    · rw [hat]
      exact (hi.adjusted d (hsame ▸ hdir)).trans hnow
  · rw [evaluate_of_not_sampled hs]
    exact ⟨hi.waits, hi.utilizations, hi.window, hi.durations, hi.previous,
      fun d hdir => (hi.adjusted d hdir).trans hnow⟩

theorem step_cases {a : Action} (hs : (system c m₀).step s a = some s') :
    (∃ x, (0 ≤ x.durationMs ∧ 0 ≤ x.waitMs) ∧ s' = recordSample s x) ∨
      ∃ now, s.now ≤ now ∧ s' = evaluate c now s := by
  cases a with
  | recordSample x =>
    have hs : (if 0 ≤ x.durationMs ∧ 0 ≤ x.waitMs then some (recordSample s x) else none) =
      some s' := hs
    split_ifs at hs with hx
    exact .inl ⟨x, hx, (Option.some.inj hs).symm⟩
  | evaluate now =>
    have hs : (if s.now ≤ now then some (evaluate c now s) else none) = some s' := hs
    split_ifs at hs with hnow
    exact .inr ⟨now, hnow, (Option.some.inj hs).symm⟩

end Windows

section Rounds

/-- Samples that are recorded, and then an evaluation. -/
structure Round where
  samples : List Sample
  now : ℚ

namespace Round

/-- What the evaluation finds. -/
def pre (r : Round) (s : State) : State := r.samples.foldl recordSample s

def post (c : AdaptivePoolConfig) (r : Round) (s : State) : State := evaluate c r.now (r.pre s)

end Round

/-- The evaluations are possible, each on samples whose p95 duration is at least twice the threshold
of the latency. -/
def Overloads (c : AdaptivePoolConfig) : State → List Round → Prop
  | _, [] => True
  | s, r :: rs => s.now ≤ r.now ∧ (∀ x ∈ r.samples, 0 ≤ x.durationMs ∧ 0 ≤ x.waitMs) ∧
      2 * c.latencyThresholdMs ≤ (r.pre s).durationP95 ∧ Overloads c (r.post c s) rs

/-- The times are at least the cooldown apart. -/
def Spaced (c : AdaptivePoolConfig) (times : List ℚ) : Prop :=
  times.IsChain fun a b => a + c.cooldownMs ≤ b

variable {r : Round} {rs : List Round} {xs : List Sample}

theorem inv_foldl (hi : Inv s) (hx : ∀ x ∈ xs, 0 ≤ x.durationMs ∧ 0 ≤ x.waitMs) :
    Inv (xs.foldl recordSample s) := by
  induction xs generalizing s with
  | nil => exact hi
  | cons x xs ih =>
    obtain ⟨hx, hxs⟩ := List.forall_mem_cons.1 hx
    exact ih (inv_recordSample hi hx.1) hxs

theorem foldl_recordSample (xs : List Sample) (s : State) :
    (xs.foldl recordSample s).controller = s.controller ∧
      (xs.foldl recordSample s).poolMax = s.poolMax ∧ (xs.foldl recordSample s).now = s.now ∧
      (xs.foldl recordSample s).lastAdjustmentAt = s.lastAdjustmentAt ∧
      (xs.foldl recordSample s).lastAdjustmentDirection = s.lastAdjustmentDirection := by
  induction xs generalizing s with
  | nil => exact ⟨rfl, rfl, rfl, rfl, rfl⟩
  | cons x xs ih => exact ih (recordSample s x)

theorem Inv.overloaded (hi : Inv s) (hover : 2 * c.latencyThresholdMs ≤ s.durationP95) :
    s.Sampled ∧ 1 ≤ errorOf c s := by
  refine ⟨hi.sampled fun hnil => ?_, le_max_of_le_left ?_⟩
  · have hzero : s.durationP95 = 0 := by
      rw [State.durationP95, hnil]
      rfl
    rw [hzero] at hover
    linarith [c.latency_pos]
  · rw [le_div_iff₀ c.latency_pos]
    linarith

theorem Inv.canAdjust (hi : Inv s) (h : s.now + c.cooldownMs ≤ now) (d : ℤ) :
    canAdjust c s d now = true := by
  unfold AdaptivePool.canAdjust
  by_cases hdir : s.lastAdjustmentDirection = some d
  · have := hi.adjusted d hdir
    simp only [Bool.or_eq_true, decide_eq_true_eq]
    right
    linarith
  · simp only [Bool.or_eq_true, decide_eq_true_eq]
    exact .inl hdir

end Rounds

section Reaction

variable {r : Round} {rs : List Round}

/-- What a round leaves whose evaluation has found an overload. -/
structure Overloaded (c : Config) (r : Round) (s : State) : Prop where
  inv : Inv (r.post c s)
  clock : (r.post c s).now = r.now
  error : 1 ≤ errorOf c (r.pre s)
  controller : (r.post c s).controller = Pid.next c.gains s.controller (errorOf c (r.pre s))
  poolMax : (r.post c s).poolMax = (nextMax c (r.pre s) r.now).1

theorem Overloaded.integral (h : Overloaded c r s) :
    (r.post c s).integral = s.integral + errorOf c (r.pre s) * dt c :=
  congrArg Pid.State.integral h.controller

theorem Inv.round (hi : Inv s) (h : Overloads c s (r :: rs)) : Overloaded c r s := by
  obtain ⟨hnow, hx, hover, -⟩ := h
  have hpre : Inv (r.pre s) := inv_foldl hi hx
  obtain ⟨hctl, -, hclock, -⟩ := foldl_recordSample r.samples s
  obtain ⟨hs, herr⟩ := hpre.overloaded hover
  have he : Evaluated c r.now _ _ := evaluate_of_sampled hs
  exact ⟨inv_evaluate hpre (hclock.trans_le hnow), he.clock, herr,
    he.controller.trans (congrArg (Pid.next c.gains · (errorOf c (r.pre s))) hctl), he.poolMax⟩

/-- The errors that the evaluations find. -/
def errors (c : AdaptivePoolConfig) : State → List Round → List ℚ
  | _, [] => []
  | s, r :: rs => errorOf c (r.pre s) :: errors c (r.post c s) rs

end Reaction

section Windup

variable {rs : List Round}

/-- The least overload: twice the threshold of the latency, and no wait. -/
def Config.least (c : Config) : Sample := ⟨2 * c.latencyThresholdMs, 0, 1⟩

end Windup

section Maxima

end Maxima

section Uniformity

end Uniformity

end AdaptivePool

end VeriNode
