import VeriNode.Staking.SlashingSequencer

/-!
# What the metrics of the sequencer count

A submission that is over was counted as submitted, and as confirmed or failed, unless its
transaction threw when an entry was sent again (`Accounts`). The count of pending submissions is
only that of the entries sent again: a request is not counted while it waits, although it counts
down when it is over. So the metrics balance as long as no request comes to a submission and no
transaction of an entry sent again throws, and not when one does (`metrics_balance_iff`).
-/

namespace VeriNode

namespace SlashingSequencer

section Link

def Sequencer.counters (s : Sequencer) : Counters :=
  ⟨s.headPointer, s.totalSubmitted, s.totalConfirmed, s.totalFailed, s.pendingCount⟩

/-- A request that is alone, and whose store does not throw, is one that enters and settles. -/
theorem counters_onSlashingRequest (out : Outside) (tx : SlashingTx) (now : ℕ) (s : Sequencer) :
    ∃ result : TransactionResult,
      result.success = (onSlashingRequest out tx now s).result.success ∧
      settle result (request now false s.counters).2.walEntry result.hash
          { (request now false s.counters).1 with
            totalSubmitted := (request now false s.counters).1.totalSubmitted + 1 } =
        ((onSlashingRequest out tx now s).sequencer.counters,
          ⟨(onSlashingRequest out tx now s).walEntry, .settled⟩) := by
  unfold onSlashingRequest reserveNonce
  simp only []
  generalize submitWithRetry out _ _ = answered
  obtain ⟨result, w⟩ := answered
  refine ⟨result, ?_⟩
  unfold settle
  cases result.success with
  | true => exact ⟨rfl, rfl⟩
  | false => exact ⟨rfl, rfl⟩

end Link

section Balance

def Stage.waiting : Stage → Bool
  | .submitting => true
  | .resubmitting => true
  | _ => false

/-- How many submissions have been started and are not over. -/
def pending (s : History) : ℕ := s.calls.countP (·.stage.waiting)

structure Balanced (s : History) : Prop where
  pending : (getMetrics s.shared).pendingCount = pending s
  total : (getMetrics s.shared).totalSubmitted =
    (getMetrics s.shared).totalConfirmed + (getMetrics s.shared).totalFailed +
      (getMetrics s.shared).pendingCount

/-- The step starts no submission of a request, and no transaction of an entry sent again
throws. -/
def Quiet (s : History) : Calls.Action Arrival Outcome → Prop
  | .enter arrival => arrival.storeThrows = true
  | .resume call (.threw _) => ∀ t, s.calls[call]? = some t → t.stage ≠ .resubmitting
  | .resume _ (.result _) => True

/-- What is so of a history whose steps were quiet. -/
structure Inv (s : History) : Prop extends Balanced s where
  replays : ∀ t ∈ s.calls, t.stage ≠ .submitting

variable {s s' : History} {a : Calls.Action Arrival Outcome}
  {h : List (Taken History (Calls.Action Arrival Outcome))}

theorem construct_inv (waterMark : ℕ) : ∀ (l : List WalEntry) (s : History), Inv s →
    Inv (l.foldl
      (fun s entry => ⟨(resubmit entry s.shared).1, s.calls ++ [(resubmit entry s.shared).2]⟩) s)
  | [], _, hi => hi
  | entry :: l, s, hi => by
    refine construct_inv waterMark l _ ⟨⟨?_, ?_⟩, fun t ht => ?_⟩
    · have := hi.pending
      simp only [pending, getMetrics, resubmit, List.countP_append] at this ⊢
      simp [Stage.waiting, this]
    · have := hi.total
      simp only [getMetrics, resubmit] at this ⊢
      omega
    · rcases List.mem_append.1 ht with ht | ht
      · exact hi.replays t ht
      · rw [List.mem_singleton] at ht
        subst ht
        simp [resubmit]

theorem init_inv (hs : histories.init s) : Inv s := by
  obtain ⟨waterMark, unconfirmed, rfl⟩ := hs
  refine construct_inv waterMark unconfirmed _ ⟨⟨rfl, rfl⟩, by simp⟩

theorem Inv.enter_iff (hi : Inv s) (arrival : Arrival) :
    (Balanced ⟨(requests.enter arrival s.shared).1,
        s.calls ++ (requests.enter arrival s.shared).2⟩ ↔ Quiet s (.enter arrival)) ∧
    (Quiet s (.enter arrival) →
      Inv ⟨(requests.enter arrival s.shared).1,
        s.calls ++ (requests.enter arrival s.shared).2⟩) := by
  obtain ⟨now, storeThrows⟩ := arrival
  have hp := hi.pending
  have htot := hi.total
  simp only [getMetrics] at hp htot
  cases storeThrows with
  | true =>
    have hinv : Inv ⟨(requests.enter ⟨now, true⟩ s.shared).1,
        s.calls ++ (requests.enter ⟨now, true⟩ s.shared).2⟩ := by
      refine ⟨⟨?_, ?_⟩, fun t ht => ?_⟩
      · simpa [getMetrics, pending, requests, request, Stage.waiting] using hp
      · simpa [getMetrics, requests, request] using htot
      · rcases List.mem_append.1 ht with ht | ht
        · exact hi.replays t ht
        · simp only [requests, request, List.mem_singleton] at ht
          simp [ht]
    exact ⟨iff_of_true hinv.toBalanced rfl, fun _ => hinv⟩
  | false =>
    have hnot : ¬ Quiet s (.enter ⟨now, false⟩) := by simp [Quiet]
    refine ⟨iff_of_false (fun hb => ?_) hnot, fun hq => absurd hq hnot⟩
    have hp' := hb.pending
    simp only [getMetrics, pending, requests, request, List.countP_append, List.countP_singleton,
      Stage.waiting, Bool.false_eq_true, ↓reduceIte] at hp' hp
    omega

/-- A step from where the metrics balance, no request having come to a submission: they balance
after it just when it is quiet. -/
theorem Inv.step_iff (hi : Inv s) (hs : histories.step s a = some s') :
    (Balanced s' ↔ Quiet s a) ∧ (Quiet s a → Inv s') := by
  rcases Calls.step_cases hs with ⟨arrival, rfl, rfl⟩ | ⟨k, outcome, t, c, t', rfl, ht, hr, rfl⟩
  · exact hi.enter_iff arrival
  · have hw : t.stage = .resubmitting ∧ 0 < pending s := by
      have hne := hi.replays t (List.mem_of_getElem? ht)
      have hst : t.stage = .resubmitting := by
        simp only [requests, settled] at hr
        cases hst : t.stage <;> simp [hst] at hr hne ⊢
      exact ⟨hst, List.countP_pos_iff.2 ⟨t, List.mem_of_getElem? ht, by rw [hst]; rfl⟩⟩
    obtain ⟨hst, hpos⟩ := hw
    have hcount := Calls.countP_set (fun t : Submission => t.stage.waiting) t' ht
    rw [show t.stage.waiting = true by rw [hst]; rfl] at hcount
    have hp := hi.pending
    have htot := hi.total
    simp only [getMetrics] at hp htot
    simp only [requests, settled, hst] at hr
    rcases outcome with result | exception
    · -- the answer counts, and the submission is over
      simp only [Option.some.injEq] at hr
      obtain ⟨hover, hpending, htotal⟩ : t'.stage = .settled ∧
          c.pendingCount + 1 = s.shared.pendingCount ∧
          c.totalSubmitted = c.totalConfirmed + c.totalFailed + c.pendingCount := by
        unfold settle at hr
        split at hr <;> simp only [Prod.mk.injEq] at hr <;> obtain ⟨rfl, rfl⟩ := hr
        · exact ⟨rfl, by simp only []; omega, by simp only []; omega⟩
        · exact ⟨rfl, by simp only []; omega, by simp only []; omega⟩
      rw [hover] at hcount
      have hinv : Inv ⟨c, s.calls.set k t'⟩ := by
        refine ⟨⟨?_, ?_⟩, fun u hu => ?_⟩
        · simp only [getMetrics, pending, Stage.waiting, Bool.toNat_true, Bool.toNat_false] at *
          omega
        · simpa only [getMetrics] using htotal
        · rcases List.mem_or_eq_of_mem_set hu with hu | rfl
          · exact hi.replays u hu
          · simp [hover]
      exact ⟨iff_of_true hinv.toBalanced trivial, fun _ => hinv⟩
    · -- it throws: the submission is over, and goes on counting as pending
      simp only [Option.some.injEq, Prod.mk.injEq] at hr
      obtain ⟨rfl, rfl⟩ := hr
      have hnot : ¬ Quiet s (.resume k (.threw exception)) := fun hq => hq t ht hst
      refine ⟨iff_of_false (fun hb => ?_) hnot, fun hq => absurd hq hnot⟩
      have hp' := hb.pending
      simp only [getMetrics, pending, Stage.waiting, Bool.toNat_true, Bool.toNat_false] at *
      omega

theorem inv_of_run (hr : Run histories h s) (hq : Along Quiet h) : Inv s :=
  hr.invariant_of (fun _ hs => init_inv hs) (fun _ _ _ hi ha hs => (hi.step_iff hs).2 ha) hq

/-- The metrics balance when the sequencer has been made, and at every point of a history just when
no request comes to a submission and no transaction of an entry sent again throws. -/
theorem metrics_balance_iff {h : List (Taken History (Calls.Action Arrival Outcome))}
    (hr : Run histories h s) :
    (histories.init s → Balanced s) ∧ ((∀ t ∈ h, Balanced t.post) ↔ Along Quiet h) :=
  ⟨fun hs => (init_inv hs).toBalanced,
    hr.taken_iff_along fun _ _ _ _ hr hq hs => ((inv_of_run hr hq).step_iff hs).1⟩

def quiet (t : Taken History (Calls.Action Arrival Outcome)) : Bool :=
  match t.act with
  | .enter arrival => arrival.storeThrows
  | .resume call (.threw _) =>
    match t.pre.calls[call]? with
    | none => true
    | some t => t.stage ≠ .resubmitting
  | .resume _ (.result _) => true

theorem along_of_quiet (hq : h.all quiet = true) : Along Quiet h := by
  intro t ht
  have := List.all_eq_true.1 hq t ht
  unfold quiet at this
  rcases ha : t.act with arrival | ⟨call, result | exception⟩ <;> rw [ha] at this
  · exact this
  · trivial
  · intro u hu
    simp only [hu] at this
    simpa using this

/-- Two entries sent again, one confirmed and one failed, and a request whose store throws. -/
theorem metrics_balance_iff_replayed : ∃ h s, Run histories h s ∧
    (∀ t ∈ h, Balanced t.post) ∧ getMetrics s.shared = ⟨2, 1, 1, "8", 0⟩ := by
  obtain ⟨h, s, hr, hp⟩ := Sys.exists_run (S := histories)
    (s := construct 7 [⟨5, "", 1, .pending⟩, ⟨6, "", 2, .pending⟩]) ⟨7, _, rfl⟩
    [.resume 1 (.result ⟨"", false, none⟩), .enter ⟨9, true⟩,
      .resume 0 (.result ⟨"ab", true, none⟩)]
    (p := fun r => r.1.all quiet && getMetrics r.2.shared == ⟨2, 1, 1, "8", 0⟩)
    (by decide +kernel)
  simp only [Bool.and_eq_true, beq_iff_eq] at hp
  exact ⟨h, s, hr, (metrics_balance_iff hr).2.2 (along_of_quiet hp.1), hp.2⟩

/-- A request is confirmed while an entry that was sent again waits: two were submitted, one of
which waits, and the metrics say that none does. -/
theorem metrics_do_not_balance : ∃ h s, Run histories h s ∧ pending s = 1 ∧
    getMetrics s.shared = ⟨2, 1, 0, "8", 0⟩ ∧ ¬ Balanced s := by
  obtain ⟨h, s, hr, hp⟩ := Sys.exists_run (S := histories)
    (s := construct 7 [⟨5, "", 1, .pending⟩]) ⟨7, _, rfl⟩
    [.enter ⟨9, false⟩, .resume 1 (.result ⟨"ab", true, none⟩)]
    (p := fun r => pending r.2 == 1 && getMetrics r.2.shared == ⟨2, 1, 0, "8", 0⟩)
    (by decide +kernel)
  simp only [Bool.and_eq_true, beq_iff_eq] at hp
  refine ⟨h, s, hr, hp.1, hp.2, fun hb => ?_⟩
  have := hb.pending
  rw [hp.1, hp.2] at this
  exact absurd this (by decide)

end Balance

end SlashingSequencer

end VeriNode
