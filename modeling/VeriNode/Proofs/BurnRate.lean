import Mathlib.Algebra.BigOperators.Group.List.Lemmas
import Mathlib.Algebra.Order.BigOperators.Group.List
import Mathlib.Algebra.Order.Field.Basic
import Mathlib.Order.Bounds.Basic
import Mathlib.Tactic.Linarith
import VeriNode.Lib.Sorted
import VeriNode.Slo.BurnRateMonitor

/-!
# What an evaluation answers

The status is the greatest severity of the thresholds that are reached (`status_isGreatest`), so it
is the same in any order and rises with the errors. An alert sink that throws makes `evaluate` throw
after the status has been found, so all is as it should be exactly if a sink that throws is not
called (`evaluation_meets_iff`).
-/

namespace VeriNode

namespace Slo

variable {thresholds thresholds' : List BurnRateThreshold} {objective : SloObjective}
variable {sample sample' : SloWindowSample} {samples samples' : List SloWindowSample}
variable {windows : List SloWindow} {severity : SloStatus}

section Severities

theorem rankSeverity_injective : Function.Injective rankSeverity := by
  intro a b h
  cases a <;> cases b <;> first | rfl | exact absurd h (by decide)

instance : LinearOrder SloStatus := LinearOrder.lift' rankSeverity rankSeverity_injective

theorem healthy_le (s : SloStatus) : SloStatus.healthy ≤ s := Nat.zero_le _

theorem foldl_isGreatest (windows : List SloWindow) (highest : SloStatus) :
    IsGreatest (insert highest {s | ∃ w ∈ windows, w.severity = s})
      (windows.foldl (fun highest window =>
        if rankSeverity highest < rankSeverity window.severity then window.severity else highest)
        highest) := by
  induction windows generalizing highest with
  | nil => simp
  | cons w windows ih =>
    set next := if rankSeverity highest < rankSeverity w.severity then w.severity else highest
      with hnext
    have hw : w.severity ≤ next ∧ highest ≤ next ∧ (next = w.severity ∨ next = highest) := by
      by_cases hlt : rankSeverity highest < rankSeverity w.severity
      · rw [hnext, if_pos hlt]
        exact ⟨le_rfl, hlt.le, .inl rfl⟩
      · rw [hnext, if_neg hlt]
        exact ⟨not_lt.1 hlt, le_rfl, .inr rfl⟩
    obtain ⟨hsev, hhigh, heq⟩ := hw
    obtain ⟨hmem, hub⟩ := ih next
    refine ⟨?_, ?_⟩
    · rw [List.foldl_cons]
      rcases hmem with hmem | ⟨v, hv, hs⟩
      · rw [hmem]
        rcases heq with heq | heq
        · exact .inr ⟨w, List.mem_cons_self, heq.symm⟩
        · exact .inl heq
      · exact .inr ⟨v, List.mem_cons_of_mem w hv, hs⟩
    · rintro s (rfl | ⟨v, hv, rfl⟩)
      · exact hhigh.trans (hub (Set.mem_insert _ _))
      · rcases List.mem_cons.1 hv with rfl | hv
        · exact hsev.trans (hub (Set.mem_insert _ _))
        · exact hub (.inr ⟨v, hv, rfl⟩)

end Severities

section Windows

/-- The rate of errors of a sample. -/
def errorRateOf (sample : SloWindowSample) : ℚ :=
  if events sample.totalEvents = 0 then 0
  else (events sample.totalEvents - events sample.goodEvents) / events sample.totalEvents

def Reached (objective : SloObjective) (t : BurnRateThreshold) (sample : SloWindowSample) : Prop :=
  t.window = sample.window ∧ t.burnRate ≤ errorRateOf sample / (1 - objective.target)

instance (objective : SloObjective) (t : BurnRateThreshold) (sample : SloWindowSample) :
    Decidable (Reached objective t sample) :=
  inferInstanceAs (Decidable (_ ∧ _))

def Severities (thresholds : List BurnRateThreshold) (objective : SloObjective)
    (samples : List SloWindowSample) : Set SloStatus :=
  {s | ∃ t ∈ thresholds, ∃ sample ∈ samples, Reached objective t sample ∧ t.severity = s}

theorem burnRate_eq (ht : objective.target < 1) :
    (evaluateWindow thresholds objective sample).burnRate =
      errorRateOf sample / (1 - objective.target) :=
  if_neg (sub_pos.2 ht).ne'

theorem severity_eq (ht : objective.target < 1) :
    (evaluateWindow thresholds objective sample).severity =
      ((((thresholds.filter fun t => Reached objective t sample).insertionSort fun a b =>
        rankSeverity b.severity ≤ rankSeverity a.severity).head?).map (·.severity)).getD
          .healthy := by
  have hfilter : ∀ t : BurnRateThreshold,
      decide (t.window = sample.window ∧
        t.burnRate ≤ (evaluateWindow thresholds objective sample).burnRate) =
      decide (Reached objective t sample) := by
    intro t
    rw [burnRate_eq ht]
    rfl
  rw [← funext hfilter]
  rfl

theorem severity_isGreatest (ht : objective.target < 1) :
    IsGreatest (insert .healthy (Severities thresholds objective [sample]))
      (evaluateWindow thresholds objective sample).severity := by
  rw [severity_eq ht]
  set reached := thresholds.filter fun t => Reached objective t sample with hreached
  have hmem : ∀ t, t ∈ reached ↔ t ∈ thresholds ∧ Reached objective t sample := by
    intro t
    rw [hreached, List.mem_filter, decide_eq_true_eq]
  let r : BurnRateThreshold → BurnRateThreshold → Prop := fun a b =>
    rankSeverity b.severity ≤ rankSeverity a.severity
  have : Std.Total r := ⟨fun a b => Nat.le_total _ _⟩
  have : IsTrans _ r := ⟨fun a b c hab hbc => Nat.le_trans hbc hab⟩
  cases hfirst : (reached.insertionSort r).head? with
  | none =>
    have hnil := Sorted.first_eq_none.1 hfirst
    refine ⟨.inl rfl, ?_⟩
    rintro s (rfl | ⟨t, ht', u, hu, hr, rfl⟩)
    · exact le_rfl
    · obtain rfl := List.mem_singleton.1 hu
      exact absurd ((hmem t).2 ⟨ht', hr⟩) (hnil ▸ List.not_mem_nil)
  | some first =>
    obtain ⟨hin, hr⟩ := (hmem first).1 (Sorted.first_mem hfirst)
    refine ⟨.inr ⟨first, hin, sample, List.mem_singleton_self _, hr, rfl⟩, ?_⟩
    rintro s (rfl | ⟨t, ht', u, hu, hr', rfl⟩)
    · exact healthy_le _
    · obtain rfl := List.mem_singleton.1 hu
      exact Sorted.first_rel hfirst t ((hmem t).2 ⟨ht', hr'⟩)

theorem status_isGreatest (ht : objective.target < 1) (now : ℤ) :
    IsGreatest (insert .healthy (Severities thresholds objective samples))
      (assess thresholds now objective samples).status := by
  obtain ⟨hmem, hub⟩ :=
    foldl_isGreatest (samples.map (evaluateWindow thresholds objective)) .healthy
  refine ⟨?_, ?_⟩
  · rcases hmem with hmem | ⟨w, hw, hs⟩
    · exact .inl hmem
    · obtain ⟨sample, hsample, rfl⟩ := List.mem_map.1 hw
      have hgreatest : IsGreatest _ (evaluateWindow thresholds objective sample).severity :=
        severity_isGreatest ht
      rcases hgreatest.1 with hh | ⟨t, ht', u, hu, hr⟩
      · exact .inl (hs.symm.trans hh)
      · obtain rfl := List.mem_singleton.1 hu
        exact .inr ⟨t, ht', u, hsample, hr.1, hr.2.trans hs⟩
  · rintro s (rfl | ⟨t, ht', sample, hsample, hr, rfl⟩)
    · exact healthy_le _
    · refine le_trans ?_ (hub (.inr ⟨_, List.mem_map_of_mem hsample, rfl⟩))
      exact (severity_isGreatest ht).2
        (.inr ⟨t, ht', sample, List.mem_singleton_self _, hr, rfl⟩)

theorem status_eq_healthy (ht : objective.target < 1) (now : ℤ) :
    (assess thresholds now objective samples).status = .healthy ↔
      ∀ t ∈ thresholds, ∀ sample ∈ samples, ¬ Reached objective t sample := by
  obtain ⟨hmem, hub⟩ :=
    (status_isGreatest ht now : IsGreatest _ (assess thresholds now objective samples).status)
  refine ⟨fun hh t ht' sample hs hr => ?_, fun hnone => ?_⟩
  · have hle := hub (.inr ⟨t, ht', sample, hs, hr, rfl⟩)
    rw [hh] at hle
    exact t.not_healthy (le_antisymm hle (healthy_le _))
  · rcases hmem with hmem | ⟨t, ht', sample, hs, hr, -⟩
    · exact hmem
    · exact absurd hr (hnone t ht' sample hs)

end Windows

section Checks

/-- What the checks let through. -/
structure Sound (sample : SloWindowSample) : Prop where
  good_nonneg : 0 ≤ events sample.goodEvents
  good_le : events sample.goodEvents ≤ events sample.totalEvents

theorem Sound.total_nonneg (h : Sound sample) : 0 ≤ events sample.totalEvents :=
  h.good_nonneg.trans h.good_le

theorem sound_of_assertSample (h : assertSample sample = .ok ()) : Sound sample := by
  unfold assertSample at h
  simp only [bind, Except.bind, throw, throwThe, MonadExceptOf.throw, pure, Except.pure] at h
  split_ifs at h with h1 h2 h3 h4
  rw [not_or, not_lt, not_lt] at h3
  exact ⟨h3.1, not_lt.1 h4⟩

theorem target_of_assertObjective (h : assertObjective objective = .ok ()) :
    objective.target < 1 := by
  unfold assertObjective at h
  simp only [bind, Except.bind, throw, throwThe, MonadExceptOf.throw, pure, Except.pure] at h
  split_ifs at h with h1 h2 h3 h4
  rw [not_or, not_le, not_le] at h3
  exact h3.2

theorem of_forM (h : samples.forM assertSample = .ok ()) : ∀ sample ∈ samples, Sound sample := by
  induction samples with
  | nil => exact fun sample hs => absurd hs List.not_mem_nil
  | cons first samples ih =>
    rw [List.forM_eq_forM, List.forM_cons] at h
    cases hfirst : assertSample first with
    | error e => simp [hfirst, bind, Except.bind] at h
    | ok u =>
      rw [hfirst] at h
      intro sample hs
      rcases List.mem_cons.1 hs with rfl | hs
      · exact sound_of_assertSample hfirst
      · exact ih h sample hs

theorem check_ok (h : check objective samples = .ok ()) :
    objective.target < 1 ∧ samples ≠ [] ∧ ∀ sample ∈ samples, Sound sample := by
  unfold check at h
  cases hobj : assertObjective objective with
  | error e => simp [hobj, bind, Except.bind] at h
  | ok u =>
    simp only [hobj, bind, Except.bind, throw, throwThe, MonadExceptOf.throw] at h
    split_ifs at h with hnil
    exact ⟨target_of_assertObjective hobj, fun he => hnil (he ▸ rfl), of_forM h⟩

end Checks

section Orders

theorem severities_perm (ht : thresholds.Perm thresholds') (hs : samples.Perm samples') :
    Severities thresholds objective samples = Severities thresholds' objective samples' := by
  ext s
  simp only [Severities, Set.mem_ofPred_eq, ht.mem_iff, hs.mem_iff]

theorem status_perm (ht1 : objective.target < 1) (ht : thresholds.Perm thresholds')
    (hs : samples.Perm samples') (now now' : ℤ) :
    (assess thresholds' now' objective samples').status =
      (assess thresholds now objective samples).status := by
  have hgreatest : IsGreatest _ (assess thresholds now objective samples).status :=
    status_isGreatest ht1 now
  rw [severities_perm ht hs] at hgreatest
  exact (status_isGreatest ht1 now').unique hgreatest

theorem budgetSpent_perm (hs : samples.Perm samples') :
    budgetSpent objective samples' = budgetSpent objective samples := by
  unfold budgetSpent
  rw [(hs.map fun sample => events sample.totalEvents).sum_eq,
    (hs.map fun sample => events sample.goodEvents).sum_eq]

end Orders

section Lowered

/-- The same window with no more good events. -/
structure Lowered (sample' sample : SloWindowSample) : Prop where
  window : sample'.window = sample.window
  total : sample'.totalEvents = sample.totalEvents
  good : events sample'.goodEvents ≤ events sample.goodEvents

theorem Lowered.errorRateOf_le (h : Lowered sample' sample) (hs : Sound sample) :
    errorRateOf sample ≤ errorRateOf sample' := by
  have hgood := h.good
  unfold errorRateOf
  rw [h.total]
  split_ifs with hzero
  · exact le_rfl
  · exact div_le_div_of_nonneg_right (by linarith) hs.total_nonneg

theorem Lowered.reached {t : BurnRateThreshold} (h : Lowered sample' sample) (hs : Sound sample)
    (ht : objective.target < 1) (hr : Reached objective t sample) :
    Reached objective t sample' := by
  refine ⟨hr.1.trans h.window.symm, hr.2.trans ?_⟩
  exact div_le_div_of_nonneg_right (h.errorRateOf_le hs) (sub_pos.2 ht).le

theorem exists_lowered (h : List.Forall₂ Lowered samples' samples) (hs : sample ∈ samples) :
    ∃ sample' ∈ samples', Lowered sample' sample := by
  induction h with
  | nil => exact absurd hs List.not_mem_nil
  | @cons a' a l' l hl _ ih =>
    rcases List.mem_cons.1 hs with rfl | hs
    · exact ⟨a', List.mem_cons_self, hl⟩
    · obtain ⟨sample', hs', hl'⟩ := ih hs
      exact ⟨sample', List.mem_cons_of_mem a' hs', hl'⟩

theorem status_lowered (ht : objective.target < 1) (hsound : ∀ sample ∈ samples, Sound sample)
    (h : List.Forall₂ Lowered samples' samples) (now now' : ℤ) :
    (assess thresholds now objective samples).status ≤
      (assess thresholds now' objective samples').status := by
  refine (status_isGreatest ht now).mono (status_isGreatest ht now') ?_
  rintro s (rfl | ⟨t, ht', sample, hs, hr, rfl⟩)
  · exact .inl rfl
  · obtain ⟨sample', hs', hl⟩ := exists_lowered h hs
    exact .inr ⟨t, ht', sample', hs', hl.reached (hsound sample hs) ht hr, rfl⟩

theorem total_lowered (h : List.Forall₂ Lowered samples' samples) :
    (samples'.map fun sample => events sample.totalEvents).sum =
      (samples.map fun sample => events sample.totalEvents).sum := by
  induction h with
  | nil => rfl
  | cons hl _ ih => rw [List.map_cons, List.map_cons, List.sum_cons, List.sum_cons, ih, hl.total]

theorem good_lowered (h : List.Forall₂ Lowered samples' samples) :
    (samples'.map fun sample => events sample.goodEvents).sum ≤
      (samples.map fun sample => events sample.goodEvents).sum := by
  induction h with
  | nil => exact le_rfl
  | cons hl _ ih =>
    rw [List.map_cons, List.map_cons, List.sum_cons, List.sum_cons]
    exact add_le_add hl.good ih

theorem budgetSpent_lowered (ht : objective.target < 1)
    (hsound : ∀ sample ∈ samples, Sound sample) (h : List.Forall₂ Lowered samples' samples) :
    budgetSpent objective samples ≤ budgetSpent objective samples' := by
  have hgood := good_lowered h
  have hnonneg : 0 ≤ (samples.map fun sample => events sample.totalEvents).sum :=
    List.sum_nonneg fun q hq => by
      obtain ⟨sample, hs, rfl⟩ := List.mem_map.1 hq
      exact (hsound sample hs).total_nonneg
  unfold budgetSpent
  rw [total_lowered h]
  simp only [if_neg (sub_pos.2 ht).ne']
  refine div_le_div_of_nonneg_right ?_ (sub_pos.2 ht).le
  split_ifs with hzero
  · exact le_rfl
  · exact div_le_div_of_nonneg_right (by linarith) hnonneg

end Lowered

section Calls

/-- What a call is to come to. -/
structure Meets (thresholds : List BurnRateThreshold) (alertSink : Option Dispatch) (now : ℤ)
    (objective : SloObjective) (samples : List SloWindowSample) (e : SloEvaluation) : Prop where
  returns : (evaluate thresholds alertSink now objective samples).result = .ok e
  greatest : IsGreatest (insert .healthy (Severities thresholds objective samples)) e.status
  notified : (evaluate thresholds alertSink now objective samples).notified =
    if alertSink.isSome ∧ e.status ≠ .healthy then [e] else []
  /-- The order of the thresholds and of the samples does not matter. -/
  order : ∀ thresholds' samples' alertSink' now' e', thresholds.Perm thresholds' →
    samples.Perm samples' →
    (evaluate thresholds' alertSink' now' objective samples').result = .ok e' →
    e'.status = e.status ∧ e'.errorBudgetSpent = e.errorBudgetSpent ∧
      e'.errorBudgetRemaining = e.errorBudgetRemaining
  /-- With fewer good events nothing gets better. -/
  lowered : ∀ samples' alertSink' now' e', List.Forall₂ Lowered samples' samples →
    (evaluate thresholds alertSink' now' objective samples').result = .ok e' →
    e.status ≤ e'.status ∧ e.errorBudgetSpent ≤ e'.errorBudgetSpent ∧
      e'.errorBudgetRemaining ≤ e.errorBudgetRemaining

theorem evaluate_ok {alertSink : Option Dispatch} {now : ℤ} {e : SloEvaluation}
    (h : (evaluate thresholds alertSink now objective samples).result = .ok e) :
    e = assess thresholds now objective samples := by
  unfold evaluate at h
  split at h
  · exact absurd h (by simp)
  · by_cases hs : (assess thresholds now objective samples).status ≠ .healthy
    · rw [if_pos hs] at h
      rcases alertSink with _ | _ | _ | _
      · exact (Except.ok.inj h).symm
      · exact (Except.ok.inj h).symm
      · exact (Except.ok.inj h).symm
      · exact absurd h (by simp [emitAlert])
    · rw [if_neg hs] at h
      exact (Except.ok.inj h).symm

theorem result_of_check (hcheck : check objective samples = .ok ()) (alertSink : Option Dispatch)
    (now : ℤ) :
    evaluate thresholds alertSink now objective samples =
      if (assess thresholds now objective samples).status ≠ .healthy then
        emitAlert alertSink (assess thresholds now objective samples)
      else { result := .ok (assess thresholds now objective samples) } := by
  unfold evaluate
  rw [hcheck]

theorem notified_of_check (hcheck : check objective samples = .ok ())
    (alertSink : Option Dispatch) (now : ℤ) :
    (evaluate thresholds alertSink now objective samples).notified =
      if alertSink.isSome ∧ (assess thresholds now objective samples).status ≠ .healthy then
        [assess thresholds now objective samples] else [] := by
  rw [result_of_check hcheck]
  split_ifs with hs hsink hsink
  · rcases alertSink with _ | _ | _ | _
    · exact absurd hsink.1 (by simp)
    · rfl
    · rfl
    · rfl
  · rcases alertSink with _ | d
    · rfl
    · exact absurd ⟨rfl, hs⟩ hsink
  · exact absurd hsink.2 hs
  · rfl

/-- The call is as it should be unless it calls a sink that throws. -/
theorem evaluation_meets_iff {alertSink : Option Dispatch} {now : ℤ}
    (hcheck : check objective samples = .ok ()) :
    (∃ e, Meets thresholds alertSink now objective samples e) ↔
      ∀ message, alertSink = some (.throws message) →
        ∀ t ∈ thresholds, ∀ sample ∈ samples, ¬ (t.window = sample.window ∧
          t.burnRate ≤ errorRateOf sample / (1 - objective.target)) := by
  obtain ⟨ht, -, hsound⟩ := check_ok hcheck
  refine ⟨?_, fun hquiet => ?_⟩
  · rintro ⟨e, hmeets⟩ message rfl
    refine (status_eq_healthy ht now).1 ?_
    by_contra hs
    have hret := hmeets.returns
    rw [result_of_check hcheck, if_pos hs] at hret
    exact absurd hret (by simp [emitAlert])
  · refine ⟨assess thresholds now objective samples, ?_, status_isGreatest ht now,
      notified_of_check hcheck alertSink now, ?_, ?_⟩
    · rw [result_of_check hcheck]
      split_ifs with hs
      · rcases alertSink with _ | _ | _ | message
        · rfl
        · rfl
        · rfl
        · exact absurd ((status_eq_healthy ht now).2 (hquiet message rfl)) hs
      · rfl
    · intro thresholds' samples' alertSink' now' e' hthresholds hsamples hret
      obtain rfl := evaluate_ok hret
      have hspent : budgetSpent objective samples' = budgetSpent objective samples :=
        budgetSpent_perm hsamples
      exact ⟨status_perm ht hthresholds hsamples now now', hspent,
        congrArg (fun q => max 0 (1 - q)) hspent⟩
    · intro samples' alertSink' now' e' hlowered hret
      obtain rfl := evaluate_ok hret
      have hspent := budgetSpent_lowered ht hsound hlowered
      exact ⟨status_lowered ht hsound hlowered now now', hspent,
        max_le_max le_rfl (by linarith)⟩

/-- With the sink of this call failing, nothing is asked of the thresholds that are not reached. -/
theorem evaluation_meets_iff_quiet :
    ∃ e, Meets [⟨"1h", 6, .critical, by decide⟩] (some (.throws "pager down")) 0
      ⟨"availability", "api", 1 / 2, 30⟩ [⟨"1h", .fin 9, .fin 10⟩] e := by
  refine (evaluation_meets_iff (by decide +kernel)).2 fun message _ t ht sample hs hr => ?_
  obtain rfl := List.mem_singleton.1 ht
  obtain rfl := List.mem_singleton.1 hs
  exact absurd hr.2 (by decide +kernel)

/-- All events of the last five minutes are errors, and the pager cannot be reached. -/
theorem pager_down_throws :
    check ⟨"availability", "api", 1 / 2, 30⟩ [⟨"5m", .fin 0, .fin 10⟩] = .ok () ∧
      (evaluate [⟨"5m", 1, .critical, by decide⟩] (some (.throws "pager down")) 0
        ⟨"availability", "api", 1 / 2, 30⟩ [⟨"5m", .fin 0, .fin 10⟩]).result =
          .error "pager down" :=
  ⟨by decide +kernel, by decide +kernel⟩

end Calls

end Slo

end VeriNode
