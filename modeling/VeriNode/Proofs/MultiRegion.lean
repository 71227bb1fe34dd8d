import VeriNode.Lib.Sorted
import VeriNode.Replication.MultiRegion

/-!
# What a failover decides

The three answers of the coordinator are told apart by the number of candidates and the risks of the
primary (`evaluate_ok`), and the region promoted is a first one by priority and lag, if the
comparison orders the candidates. A policy that requires no standby lets the coordinator come to the
promotion with nobody to promote, and there it throws (`failover_meets_iff`).
-/

namespace VeriNode

namespace Replication

variable {policy : DisasterRecoveryPolicy} {now : JsNumber} {regions : List RegionStatus}
variable {sort : List RegionStatus → List RegionStatus} {primary a b : RegionStatus}

section Comparison

theorem before_iff : Before a b ↔ a.priority.lt b.priority = true ∨
    (a.priority.lt b.priority = false ∧ b.priority.lt a.priority = false) ∧
      a.replicationLagMs.lt b.replicationLagMs = true := by
  unfold Before compareRegions
  by_cases hfalsy : a.priority.lt b.priority = false ∧ b.priority.lt a.priority = false
  · simp only [if_pos (JsNumber.sub_falsy.2 hfalsy), JsNumber.sub_lt_zero]
    rw [hfalsy.1]
    simp [hfalsy.2]
  · simp only [if_neg (mt JsNumber.sub_falsy.1 hfalsy), JsNumber.sub_lt_zero]
    exact ⟨.inl, fun h => h.elim id fun h => absurd h.1 hfalsy⟩

/-- A region has the lesser priority, or the same and the lesser lag. -/
def Less (a b : RegionStatus) : Prop :=
  a.priority.lt b.priority = true ∨
    a.priority.strictEq b.priority = true ∧ a.replicationLagMs.lt b.replicationLagMs = true

theorem Less.before (h : Less a b) : Before a b := by
  refine before_iff.2 (h.imp_right fun ⟨heq, hlag⟩ => ⟨?_, hlag⟩)
  exact ⟨JsNumber.not_lt_of_strictEq heq, JsNumber.not_lt_of_strictEq (JsNumber.strictEq_symm heq)⟩

theorem before_iff_lag (ha : ¬ Less a b) (hb : ¬ Less b a) :
    Before a b ↔ a.replicationLagMs.lt b.replicationLagMs = true := by
  have hab : a.priority.lt b.priority = false := by
    rw [← Bool.not_eq_true]
    exact fun h => ha (.inl h)
  have hba : b.priority.lt a.priority = false := by
    rw [← Bool.not_eq_true]
    exact fun h => hb (.inl h)
  rw [before_iff, hab, hba]
  simp

theorem orders_of_not_less {l : List RegionStatus} (hlag : ∀ a ∈ l, a.replicationLagMs ≠ .nan)
    (h : ∀ a ∈ l, ∀ b ∈ l, ¬ Less a b) : Sorted.Orders Before l := by
  have hiff : ∀ a ∈ l, ∀ b ∈ l, Before a b ↔ a.replicationLagMs.lt b.replicationLagMs = true :=
    fun a ha b hb => before_iff_lag (h a ha b hb) (h b hb a ha)
  constructor
  · intro a ha b hb hab
    rw [hiff b hb a ha, JsNumber.lt_asymm ((hiff a ha b hb).1 hab)]
    exact Bool.false_ne_true
  · intro a ha b hb c hc hba hcb hca
    rw [hiff c hc a ha] at hca
    rcases JsNumber.lt_or_lt (hlag b hb) hca with h | h
    · exact hcb ((hiff c hc b hb).2 h)
    · exact hba ((hiff b hb a ha).2 h)

theorem orders_of_numbers {l : List RegionStatus} (hlag : ∀ a ∈ l, a.replicationLagMs ≠ .nan)
    (hpriority : ∀ a ∈ l, a.priority ≠ .nan) : Sorted.Orders Before l := by
  constructor
  · intro a ha b hb hab hba
    rw [before_iff] at hab hba
    rcases hab with hlt | ⟨⟨h1, h2⟩, hlt⟩
    · have := JsNumber.lt_asymm hlt
      simp_all
    · have := JsNumber.lt_asymm hlt
      simp_all
  · intro a ha b hb c hc hba hcb hca
    rw [before_iff, not_or, Bool.not_eq_true, not_and, Bool.not_eq_true] at hba hcb
    rcases before_iff.1 hca with hlt | ⟨⟨hca', hac⟩, hlt⟩
    · rcases JsNumber.lt_or_lt (hpriority b hb) hlt with h | h
      · exact Bool.false_ne_true (hcb.1.symm.trans h)
      · exact Bool.false_ne_true (hba.1.symm.trans h)
    · -- the three have one priority
      have hab : a.priority.lt b.priority = false := by
        rw [← Bool.not_eq_true]
        intro h
        rcases JsNumber.lt_or_lt (hpriority c hc) h with h | h
        · exact Bool.false_ne_true (hac.symm.trans h)
        · exact Bool.false_ne_true (hcb.1.symm.trans h)
      have hbc : b.priority.lt c.priority = false := by
        rw [← Bool.not_eq_true]
        intro h
        rcases JsNumber.lt_or_lt (hpriority a ha) h with h | h
        · exact Bool.false_ne_true (hba.1.symm.trans h)
        · exact Bool.false_ne_true (hac.symm.trans h)
      rcases JsNumber.lt_or_lt (hlag b hb) hlt with h | h
      · exact Bool.false_ne_true ((hcb.2 ⟨hcb.1, hbc⟩).symm.trans h)
      · exact Bool.false_ne_true ((hba.2 ⟨hba.1, hab⟩).symm.trans h)

end Comparison

section Decisions

def AtRisk (policy : DisasterRecoveryPolicy) (now : JsNumber) (primary : RegionStatus) : Prop :=
  primary.health ≠ .healthy ∨ policy.maxReplicationLagMs.lt primary.replicationLagMs = true ∨
    policy.maxCriticalPathP99Ms.lt primary.p99LatencyMs = true ∨
      policy.heartbeatTimeoutMs.lt (now.sub primary.lastHeartbeatAt) = true

theorem risks_ne_nil : findRegionRisks policy now primary ≠ [] ↔ AtRisk policy now primary := by
  unfold findRegionRisks AtRisk
  simp only [ne_eq, List.append_eq_nil_iff, ite_eq_right_iff, imp_false, not_and_or, not_not,
    List.cons_ne_nil, or_assoc]

theorem mem_candidates : a ∈ candidates policy now regions ↔
    a ∈ regions ∧ a.role = .standby ∧ isPromotionCandidate policy now a = true := by
  rw [candidates, List.mem_filter, List.mem_filter, decide_eq_true_iff, and_assoc]

theorem lag_of_candidate (ha : a ∈ candidates policy now regions) :
    a.replicationLagMs ≠ .nan := by
  have hc := (mem_candidates.1 ha).2.2
  intro hnan
  simp [isPromotionCandidate, hnan, JsNumber.le, JsNumber.lt, JsNumber.strictEq] at hc

theorem primary_mem (hone : regions.filter (·.role = .primary) = [primary]) :
    primary ∈ regions ∧ primary.role = .primary := by
  have hmem : primary ∈ regions.filter (·.role = .primary) := hone ▸ List.mem_singleton_self _
  simpa using hmem

theorem requireSinglePrimary_ok (hone : regions.filter (·.role = .primary) = [primary]) :
    requireSinglePrimary regions = .ok primary := by
  unfold requireSinglePrimary
  rw [hone]

theorem evaluate_eq (hsort : Sorted.IsSort Before sort)
    (hone : regions.filter (·.role = .primary) = [primary]) :
    evaluate sort policy now regions =
      if (candidates policy now regions).length < policy.minHealthyStandbyRegions then
        .ok {
          action := .haltWrites
          fromRegion := some primary.name
          reasons := .standbyCount (candidates policy now regions).length
            policy.minHealthyStandbyRegions :: findRegionRisks policy now primary
          writeSafe := false }
      else if findRegionRisks policy now primary ≠ [] then
        match (sort (candidates policy now regions)).head? with
        | some region =>
          .ok {
            action := .promoteStandby
            fromRegion := some primary.name
            toRegion := some region.name
            reasons := findRegionRisks policy now primary
            writeSafe := true }
        | none => .error "Cannot read properties of undefined (reading 'name')"
      else .ok { action := .none, reasons := [], writeSafe := true } := by
  unfold evaluate
  rw [requireSinglePrimary_ok hone, ← (hsort.perm (candidates policy now regions)).length_eq]
  simp only [bind, Except.bind, pure, Except.pure]
  split_ifs <;> rfl

structure Meets (sort : List RegionStatus → List RegionStatus) (policy : DisasterRecoveryPolicy)
    (now : JsNumber) (regions : List RegionStatus) (primary : RegionStatus)
    (d : FailoverDecision) : Prop where
  returns : evaluate sort policy now regions = .ok d
  halts : d.action = .haltWrites ↔
    (candidates policy now regions).length < policy.minHealthyStandbyRegions ∨
      AtRisk policy now primary ∧ candidates policy now regions = []
  promotes : d.action = .promoteStandby ↔ d.action ≠ .haltWrites ∧ AtRisk policy now primary
  rests : d.action = .none ↔ d.action ≠ .haltWrites ∧ ¬ AtRisk policy now primary
  promoted : d.action = .promoteStandby → ∃ region ∈ candidates policy now regions,
    region ≠ primary ∧ d.toRegion = some region.name ∧
      ∀ other ∈ candidates policy now regions, ¬ Less other region
  safe : d.writeSafe = false ↔ d.action = .haltWrites

theorem ne_primary (hone : regions.filter (·.role = .primary) = [primary])
    (ha : a ∈ candidates policy now regions) : a ≠ primary := by
  rintro rfl
  have hrole := (mem_candidates.1 ha).2.1
  rw [(primary_mem hone).2] at hrole
  exact absurd hrole (by decide)

theorem meets_of_halts (hsort : Sorted.IsSort Before sort)
    (hone : regions.filter (·.role = .primary) = [primary])
    (hfew : (candidates policy now regions).length < policy.minHealthyStandbyRegions) :
    ∃ d, Meets sort policy now regions primary d := by
  refine ⟨_, (evaluate_eq hsort hone).trans (if_pos hfew), ?_, ?_, ?_, ?_, ?_⟩
  · exact iff_of_true rfl (.inl hfew)
  · exact iff_of_false (by simp) fun h => h.1 rfl
  · exact iff_of_false (by simp) fun h => h.1 rfl
  · exact fun h => absurd h (by simp)
  · exact iff_of_true rfl rfl

theorem meets_of_rests (hsort : Sorted.IsSort Before sort)
    (hone : regions.filter (·.role = .primary) = [primary])
    (hfew : ¬ (candidates policy now regions).length < policy.minHealthyStandbyRegions)
    (hrisk : ¬ AtRisk policy now primary) : ∃ d, Meets sort policy now regions primary d := by
  have hnil := mt risks_ne_nil.1 hrisk
  refine ⟨_, (evaluate_eq hsort hone).trans ((if_neg hfew).trans (if_neg hnil)), ?_, ?_, ?_, ?_, ?_⟩
  · exact iff_of_false (by simp) fun h => h.elim hfew fun h => hrisk h.1
  · exact iff_of_false (by simp) fun h => hrisk h.2
  · exact iff_of_true rfl ⟨by simp, hrisk⟩
  · exact fun h => absurd h (by simp)
  · exact iff_of_false (by simp) (by simp)

theorem evaluate_promotes (hsort : Sorted.IsSort Before sort)
    (hone : regions.filter (·.role = .primary) = [primary])
    (hfew : ¬ (candidates policy now regions).length < policy.minHealthyStandbyRegions)
    (hrisk : AtRisk policy now primary)
    (hfirst : (sort (candidates policy now regions)).head? = some a) :
    evaluate sort policy now regions = .ok {
      action := .promoteStandby
      fromRegion := some primary.name
      toRegion := some a.name
      reasons := findRegionRisks policy now primary
      writeSafe := true } := by
  rw [evaluate_eq hsort hone, if_neg hfew, if_pos (risks_ne_nil.2 hrisk), hfirst]

theorem meets_of_promotes (hsort : Sorted.IsSort Before sort)
    (hone : regions.filter (·.role = .primary) = [primary])
    (hfew : ¬ (candidates policy now regions).length < policy.minHealthyStandbyRegions)
    (hrisk : AtRisk policy now primary) (hne : candidates policy now regions ≠ [])
    (hleast : ∀ c ∈ candidates policy now regions,
      (sort (candidates policy now regions)).head? = some c →
        ∃ region ∈ candidates policy now regions, region.name = c.name ∧
          ∀ other ∈ candidates policy now regions, ¬ Less other region) :
    ∃ d, Meets sort policy now regions primary d := by
  cases hfirst : (sort (candidates policy now regions)).head? with
  | none => exact absurd (hsort.head_eq_none.1 hfirst) hne
  | some c =>
    obtain ⟨region, hmem, hname, hless⟩ := hleast c (hsort.head_mem hfirst) hfirst
    refine ⟨_, evaluate_promotes hsort hone hfew hrisk hfirst, ?_, ?_, ?_, ?_, ?_⟩
    · exact iff_of_false (by simp) fun h => h.elim hfew fun h => hne h.2
    · exact iff_of_true rfl ⟨by simp, hrisk⟩
    · exact iff_of_false (by simp) fun h => h.2 hrisk
    · exact fun _ => ⟨region, hmem, ne_primary hone hmem, congrArg some hname.symm, hless⟩
    · exact iff_of_false (by simp) (by simp)

/-- However the language sorts, the decision is as it should be unless there is nobody to promote,
or the comparison does not order the candidates: one of them can then come first that has not the
name of a least one. -/
theorem failover_meets_iff (hone : regions.filter (·.role = .primary) = [primary]) :
    (∀ sort, Sorted.IsSort Before sort → ∃ d, Meets sort policy now regions primary d) ↔
      ¬ (policy.minHealthyStandbyRegions = 0 ∧ AtRisk policy now primary ∧
        candidates policy now regions = []) ∧
      (policy.minHealthyStandbyRegions ≤ (candidates policy now regions).length →
        AtRisk policy now primary → Sorted.Orders Before (candidates policy now regions) ∨
          ∀ c ∈ candidates policy now regions, ∃ region ∈ candidates policy now regions,
            region.name = c.name ∧
              ∀ other ∈ candidates policy now regions, ¬ Less other region) := by
  refine ⟨fun hmeets => ⟨?_, fun henough hrisk => ?_⟩, fun ⟨hnobody, horder⟩ sort hsort => ?_⟩
  · rintro ⟨hzero, hrisk, hnil⟩
    obtain ⟨d, hd⟩ := hmeets _ Sorted.isSort_insertionSort
    have hfew : ¬ (candidates policy now regions).length < policy.minHealthyStandbyRegions := by
      rw [hzero]
      exact Nat.not_lt_zero _
    have hret := hd.returns
    rw [evaluate_eq Sorted.isSort_insertionSort hone, if_neg hfew,
      if_pos (risks_ne_nil.2 hrisk), hnil] at hret
    exact absurd hret (by simp)
  · refine or_iff_not_imp_left.2 fun ho c hc => ?_
    obtain ⟨sort, hsort, hfirst⟩ := Sorted.exists_isSort_first hc ho
    obtain ⟨d, hd⟩ := hmeets sort hsort
    have hret := hd.returns
    rw [evaluate_promotes hsort hone henough.not_gt hrisk hfirst] at hret
    obtain rfl := Except.ok.inj hret
    obtain ⟨region, hmem, -, hname, hless⟩ := hd.promoted rfl
    exact ⟨region, hmem, (Option.some.inj hname).symm, hless⟩
  · by_cases hfew : (candidates policy now regions).length < policy.minHealthyStandbyRegions
    · exact meets_of_halts hsort hone hfew
    · by_cases hrisk : AtRisk policy now primary
      · have hne : candidates policy now regions ≠ [] := by
          intro hnil
          rw [hnil, List.length_nil, Nat.pos_iff_ne_zero, not_not] at hfew
          exact hnobody ⟨hfew, hrisk, hnil⟩
        refine meets_of_promotes hsort hone hfew hrisk hne fun c hc hfirst => ?_
        rcases horder (not_lt.1 hfew) hrisk with ho | hleast
        · exact ⟨c, hc, rfl, fun other hother hless =>
            hsort.head_first ho hfirst other hother hless.before⟩
        · exact hleast c hc
      · exact meets_of_rests hsort hone hfew hrisk

/-- A primary that is unhealthy, and a standby region that can take its place. -/
def degraded : List RegionStatus :=
  [⟨"us-east-1", .primary, .unhealthy, 100, 40, 0, 1⟩,
    ⟨"us-west-2", .standby, .healthy, 20, 40, 0, 2⟩]

theorem failover_meets_iff_degraded :
    ∃ d, Meets (fun regions => regions.insertionSort fun a b => ¬ Before b a) {} 1000 degraded
      ⟨"us-east-1", .primary, .unhealthy, 100, 40, 0, 1⟩ d := by
  refine (failover_meets_iff rfl).2 ⟨fun h => absurd h.1 (by decide), fun _ _ => .inl ?_⟩ _
    Sorted.isSort_insertionSort
  refine orders_of_numbers (fun a ha => lag_of_candidate ha) fun a ha => ?_
  have hpriority : ∀ a ∈ degraded, a.priority ≠ .nan := by decide +kernel
  exact hpriority a (mem_candidates.1 ha).1

/-- No standby is required, and there is none. -/
theorem nobody_to_promote_throws :
    evaluate (fun regions => regions.insertionSort fun a b => ¬ Before b a)
      { minHealthyStandbyRegions := 0 } 1000
      [⟨"us-east-1", .primary, .unhealthy, 100, 40, 0, 1⟩] =
        .error "Cannot read properties of undefined (reading 'name')" := by
  decide +kernel

end Decisions

end Replication

end VeriNode
