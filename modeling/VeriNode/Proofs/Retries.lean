import VeriNode.Proofs.Worker
import Mathlib.Data.ENat.Lattice

/-!
# When retries are honoured

`failJob` leaves a job `failed` whatever retries it has left, and no claim finds it there. So the
handler is invoked once for a job (`Stage`), and the retries of a job are honoured, for a sequence
of outcomes, exactly if the first invocation succeeds or there are no retries to make
(`retries_honoured_iff`).
-/

namespace VeriNode

namespace Jobs

namespace Worker

section Law

/-- The handler is invoked once for a claim. -/
def invocations (j : ℕ) (s : State) : ℕ :=
  (s.executions.entries.filter fun x => x.2.jobId = j).length

/-- The invocations for the job before that of the execution. -/
def before (j id : ℕ) (s : State) : ℕ :=
  (s.executions.entries.filter fun x => x.2.jobId = j && x.1 < id).length

/-- How many outcomes are failures before the first that is none. -/
noncomputable def leadingFailures (fails : ℕ → Bool) : ℕ∞ := ⨅ i ∈ {i | fails i = false}, (i : ℕ∞)

/-- The handler has the outcomes that are given, in order, for the job; its workers have a dead
letter queue or have none as the given ones do; and the lease on it has not expired. -/
structure Fair (fails : ℕ → Bool) (queues : Set Bool) (j : ℕ) (t : Taken State Action) : Prop where
  outcome : ∀ id error e, t.act = .handled id error → t.pre.executions.get id = some e →
    e.jobId = j → error.isSome = fails (before j id t.pre)
  queue : ∀ id e, t.post.executions.get id = some e → e.jobId = j → e.config.dlqManager ∈ queues
  lease : ∀ job, t.post.jobs.get j = some job → job.status = .running →
    job.unlocked t.post.now = false

def Scheduled (maxRetries : Option JsNumber) (j : ℕ) (h : List (Taken State Action)) : Prop :=
  ∃ t ∈ h, t.pre.nextJob = j ∧ ∃ jobType runAt, t.act = .schedule jobType runAt maxRetries

/-- No worker is at the job, and no claim will find it. -/
structure Finished (j : ℕ) (s : State) : Prop where
  ended : ∀ id e, s.executions.get id = some e → e.jobId = j → e.phase = .ended
  left : ∀ job, s.jobs.get j = some job → ∀ jobType now, job.claimable jobType now = false

/-- The job can be claimed as soon as it is due, or is leased, or is completed, or has failed with
all retries used. -/
def Accounted (m j : ℕ) (s : State) : Prop :=
  ∃ job, s.jobs.get j = some job ∧ (job.claimable job.jobType (max s.now job.runAt) = true
    ∨ (job.status = .running ∧ job.unlocked s.now = false) ∨ job.status = .completed
    ∨ (job.status = .failed ∧ invocations j s = m + 1))

/-- What has become of a job that is finished. -/
structure Honours (m : ℕ) (fails : ℕ → Bool) (j : ℕ) (s : State) : Prop where
  invoked : (invocations j s : ℕ∞) = min (leadingFailures fails) m + 1
  completed : leadingFailures fails ≤ m → (s.jobs.get j).map (·.status) = some .completed
  failed : m < leadingFailures fails → (s.jobs.get j).map (·.status) = some .failed
  routed : j ∈ s.routed ↔ m < leadingFailures fails

/-- Some continuation finishes the job. -/
def Finishes (fails : ℕ → Bool) (queues : Set Bool) (j : ℕ) (h : List (Taken State Action)) :
    Prop :=
  ∃ h' s', Run sys (h' ++ h) s' ∧ (∀ t ∈ h', Fair fails queues j t) ∧ Finished j s'

/-- In every run that schedules a job with these retries, it is accounted for, comes to the end
that the outcomes of the handler call for, and polling gets there. -/
def Honoured (maxRetries : Option JsNumber) (m : ℕ) (fails : ℕ → Bool) (queues : Set Bool) : Prop :=
  ∀ h s j, Run sys h s → Scheduled maxRetries j h → (∀ t ∈ h, Fair fails queues j t) →
    Accounted m j s ∧ (Finished j s → Honours m fails j s) ∧ Finishes fails queues j h

variable {fails : ℕ → Bool}

theorem leadingFailures_eq_zero (h : fails 0 = false) : leadingFailures fails = 0 :=
  le_antisymm (iInf₂_le_of_le 0 h (by simp)) bot_le

theorem one_le_leadingFailures (h : fails 0 = true) : 1 ≤ leadingFailures fails := by
  refine le_iInf₂ fun i hi => ?_
  have hpos : i ≠ 0 := by
    rintro rfl
    simp [h] at hi
  exact_mod_cast Nat.one_le_iff_ne_zero.2 hpos

end Law

section Ids

/-- What has been handed out is below the counters. -/
structure Ids (s : State) : Prop where
  job : ∀ j job, s.jobs.get j = some job → j < s.nextJob
  execution : ∀ id e, s.executions.get id = some e → id < s.nextExecution ∧ e.jobId < s.nextJob
  routed : ∀ j ∈ s.routed, j < s.nextJob

variable {s s' : State} {a : Action} {id j : ℕ} {e : Execution} {ph : Phase}

theorem Ids.goOn (hi : Ids s) (hg : s.executions.get id = some e) : Ids (s.goOn id e ph) where
  job := hi.job
  execution i e' h := by
    rcases OrdMap.of_get_set h with ⟨rfl, rfl⟩ | ⟨-, h⟩
    · exact hi.execution i e hg
    · exact hi.execution i e' h
  routed := hi.routed

theorem Ids.rows (hi : Ids s) {jobs : Table}
    (h : ∀ j job, jobs.get j = some job → ∃ job₀, s.jobs.get j = some job₀) :
    Ids { s with jobs := jobs } :=
  ⟨fun j job hj => (h j job hj).elim fun job₀ hj₀ => hi.job j job₀ hj₀, hi.execution, hi.routed⟩

theorem get_update_elim {f : Job → Job} {jobs : Table} {i : ℕ} {job : Job}
    (h : (update i f jobs).get j = some job) : ∃ job₀, jobs.get j = some job₀ := by
  rw [get_update] at h
  split_ifs at h with hj
  · obtain ⟨job₀, hj₀, -⟩ := Option.map_eq_some_iff.1 h
    exact ⟨job₀, hj ▸ hj₀⟩
  · exact ⟨job, h⟩

theorem Ids.move (hi : Ids s) (hm : Move s a s') : Ids s' := by
  obtain ⟨jt, ra, mr, job, hj⟩ | ⟨jt, c, sk, hc⟩ | ⟨jt, c, sk, j, job, hc⟩ | ⟨id, e, error, hg, hph⟩
    | ⟨id, e, hg, hph⟩ | ⟨id, e, msg, hg, hph⟩ | ⟨id, e, hg, hph⟩ | ⟨id, e, hg, hph⟩
    | ⟨now, hle⟩ := hm
  · refine ⟨fun j job' h => ?_, fun i e h => ?_, fun j h => ?_⟩
    · rcases OrdMap.of_get_set h with ⟨rfl, -⟩ | ⟨-, h⟩
      · exact Nat.lt_succ_self _
      · exact (hi.job j job' h).trans (Nat.lt_succ_self _)
    · exact ⟨(hi.execution i e h).1, (hi.execution i e h).2.trans (Nat.lt_succ_self _)⟩
    · exact (hi.routed j h).trans (Nat.lt_succ_self _)
  · exact hi
  · obtain ⟨-, job₀, hj, -⟩ := claimJob_eq_some hc
    refine ⟨fun i job' h => ?_, fun i e h => ?_, hi.routed⟩
    · rcases OrdMap.of_get_set h with ⟨rfl, -⟩ | ⟨-, h⟩
      · exact hi.job _ job₀ hj
      · exact hi.job i job' h
    · rcases OrdMap.of_get_set h with ⟨rfl, rfl⟩ | ⟨-, h⟩
      · exact ⟨Nat.lt_succ_self _, hi.job j job₀ hj⟩
      · exact ⟨(hi.execution i e h).1.trans (Nat.lt_succ_self _), (hi.execution i e h).2⟩
  · exact hi.goOn hg
  · exact (hi.rows fun _ _ => get_update_elim).goOn hg
  · exact (hi.rows fun _ _ => get_update_elim).goOn hg
  · have hr : Ids { s with routed := s.routed ++ [e.jobId] } := by
      refine ⟨hi.job, hi.execution, fun j h => ?_⟩
      rcases List.mem_append.1 h with h | h
      · exact hi.routed j h
      · obtain rfl := List.mem_singleton.1 h
        exact (hi.execution id e hg).2
    exact hr.goOn hg
  · refine hi.rows fun j job h => ?_
    rcases hc : renewable e.jobId e.config.workerId e.config.leaseDurationMs s.jobs with _ | job₀
    · simp only [renewLease, hc] at h
      exact ⟨job, h⟩
    · simp only [renewLease, hc] at h
      rcases OrdMap.of_get_set h with ⟨rfl, -⟩ | ⟨-, h⟩
      · exact ⟨job₀, (renewable_eq_some hc).2.1⟩
      · exact ⟨job, h⟩
  · exact ⟨hi.job, hi.execution, hi.routed⟩

theorem ids_run {h : List (Taken State Action)} (hr : Run sys h s) : Ids s := by
  refine hr.invariant (fun s hi => ?_) fun s a s' hi hs => hi.move (step_move hs)
  obtain ⟨now, rfl⟩ := hi
  exact ⟨by simp, by simp, by simp⟩

end Ids

section Stages

/-- The execution is the first and only one of the job. -/
structure First (m : ℕ) (queues : Set Bool) (j id : ℕ) (e : Execution) (x : OrdMap ℕ Execution) :
    Prop where
  get : x.get id = some e
  job : e.jobId = j
  only : ∀ id' e', x.get id' = some e' → e'.jobId = j → id' = id
  retryCount : e.retryCount = 0
  maxRetries : e.maxRetries = m
  queue : e.config.dlqManager ∈ queues

/-- The row of a job that was scheduled and not claimed since. -/
structure Fresh (m : ℕ) (job : Job) : Prop where
  status : job.status = .pending
  lockedUntil : job.lockedUntil = none
  retryCount : job.retryCount = 0
  maxRetries : job.maxRetries = m

/-- The phases of an execution that has not decided its job, after the outcome it has. -/
def Phase.follows (fails : Bool) : Phase → Prop
  | .handling => True
  | .completing => fails = false
  | .failing _ => fails = true
  | _ => False

/-- How far a job has come: the first failure is the end of it. -/
inductive Stage (m : ℕ) (fails : ℕ → Bool) (queues : Set Bool) (j : ℕ) (s : State) : Prop
  | pending (job : Job) : s.jobs.get j = some job → Fresh m job →
      (∀ id e, s.executions.get id = some e → e.jobId ≠ j) → j ∉ s.routed → Stage m fails queues j s
  | running (job : Job) (id : ℕ) (e : Execution) : s.jobs.get j = some job →
      job.status = .running → job.unlocked s.now = false → First m queues j id e s.executions →
      e.phase.follows (fails 0) → j ∉ s.routed → Stage m fails queues j s
  | completed (job : Job) (id : ℕ) (e : Execution) : s.jobs.get j = some job →
      job.status = .completed → First m queues j id e s.executions → e.phase = .ended →
      fails 0 = false → j ∉ s.routed → Stage m fails queues j s
  | routing (job : Job) (id : ℕ) (e : Execution) : s.jobs.get j = some job →
      job.status = .failed → First m queues j id e s.executions → e.phase = .routing →
      fails 0 = true → m = 0 ∧ e.config.dlqManager = true → j ∉ s.routed → Stage m fails queues j s
  | failed (job : Job) (id : ℕ) (e : Execution) : s.jobs.get j = some job →
      job.status = .failed → First m queues j id e s.executions → e.phase = .ended →
      fails 0 = true → (j ∈ s.routed ↔ m = 0 ∧ e.config.dlqManager = true) →
      Stage m fails queues j s

/-- Nothing about the job has changed. -/
structure Same (j : ℕ) (s s' : State) : Prop where
  row : s'.jobs.get j = s.jobs.get j
  execution : ∀ id e, e.jobId = j → (s'.executions.get id = some e ↔ s.executions.get id = some e)
  routed : j ∈ s'.routed ↔ j ∈ s.routed

variable {m : ℕ} {fails : ℕ → Bool} {queues : Set Bool} {s s' : State} {a : Action} {id i j : ℕ}
  {e e' : Execution} {ph : Phase} {x x' : OrdMap ℕ Execution} {job : Job}

theorem First.same (hf : First m queues j id e x)
    (hx : ∀ id e, e.jobId = j → (x'.get id = some e ↔ x.get id = some e)) :
    First m queues j id e x' where
  get := (hx id e hf.job).2 hf.get
  job := hf.job
  only id' e' h hj := hf.only id' e' ((hx id' e' hj).1 h) hj
  retryCount := hf.retryCount
  maxRetries := hf.maxRetries
  queue := hf.queue

theorem First.unique (hf : First m queues j id e x) (hg : x.get i = some e') (hj : e'.jobId = j) :
    i = id ∧ e' = e := by
  obtain rfl := hf.only i e' hg hj
  exact ⟨rfl, Option.some.inj (hg.symm.trans hf.get)⟩

theorem First.set_phase (hf : First m queues j id e x) (ph : Phase) :
    First m queues j id { e with phase := ph } (x.set id { e with phase := ph }) where
  get := OrdMap.get_set_self _ _ _
  job := hf.job
  only id' e' h hj := by
    rcases OrdMap.of_get_set h with ⟨rfl, -⟩ | ⟨-, h⟩
    · rfl
    · exact hf.only id' e' h hj
  retryCount := hf.retryCount
  maxRetries := hf.maxRetries
  queue := hf.queue

theorem Stage.same (hst : Stage m fails queues j s) (hs : Same j s s')
    (hl : ∀ job, s'.jobs.get j = some job → job.status = .running →
      job.unlocked s'.now = false) : Stage m fails queues j s' := by
  have hrow := hs.row
  rcases hst with ⟨job, hj, hfr, hx, hr⟩ | ⟨job, id, e, hj, hrun, -, hf, hph, hr⟩
    | ⟨job, id, e, hj, hc, hf, hph, h0, hr⟩ | ⟨job, id, e, hj, hc, hf, hph, h0, hm, hr⟩
    | ⟨job, id, e, hj, hc, hf, hph, h0, hr⟩ <;> rw [hj] at hrow
  · exact .pending job hrow hfr (fun id e hg hje => hx id e ((hs.execution id e hje).1 hg) hje)
      (mt hs.routed.1 hr)
  · exact .running job id e hrow hrun (hl job hrow hrun) (hf.same hs.execution) hph
      (mt hs.routed.1 hr)
  · exact .completed job id e hrow hc (hf.same hs.execution) hph h0 (mt hs.routed.1 hr)
  · exact .routing job id e hrow hc (hf.same hs.execution) hph h0 hm (mt hs.routed.1 hr)
  · exact .failed job id e hrow hc (hf.same hs.execution) hph h0 (hs.routed.trans hr)

theorem Same.goOn (hg : s.executions.get id = some e) (hj : e.jobId ≠ j) :
    Same j s (s.goOn id e ph) where
  row := rfl
  execution i e' hj' := by
    have hne : ∀ e'', s.executions.get i = some e'' → e''.jobId = j → i ≠ id := by
      rintro e'' hg' hj'' rfl
      obtain rfl : e = e'' := Option.some.inj (hg.symm.trans hg')
      exact hj hj''
    refine ⟨fun h => ?_, fun h => (OrdMap.get_set_of_ne _ _ (hne e' h hj')).trans h⟩
    rcases OrdMap.of_get_set h with ⟨-, rfl⟩ | ⟨-, h⟩
    · exact absurd hj' hj
    · exact h
  routed := Iff.rfl

theorem Same.rows {jobs : Table} (h : jobs.get j = s.jobs.get j) :
    Same j s { s with jobs := jobs } :=
  ⟨h, fun _ _ _ => Iff.rfl, Iff.rfl⟩

theorem Same.trans {s'' : State} (h : Same j s s') (h' : Same j s' s'') : Same j s s'' where
  row := h'.row.trans h.row
  execution id e hj := (h'.execution id e hj).trans (h.execution id e hj)
  routed := h'.routed.trans h.routed

theorem get_renewLease_of_ne {jobs : Table} {w : String} {d now : ℚ} (h : j ≠ i) :
    (renewLease i w d now jobs).get j = jobs.get j := by
  unfold renewLease
  split
  · rfl
  · exact OrdMap.get_set_of_ne _ _ h

theorem Move.same (hm : Move s a s') (hi : Ids s) (hnew : j < s.nextJob)
    (hc : ∀ jt c sk job, a = .claim jt c sk →
      claimJob jt c.workerId c.leaseDurationMs s.now sk s.jobs ≠ some (j, job))
    (he : ∀ id e, a.execution = some id → s.executions.get id = some e → e.jobId ≠ j) :
    Same j s s' := by
  obtain ⟨jt, ra, mr, job, hj⟩ | ⟨jt, c, sk, -⟩ | ⟨jt, c, sk, i, job, hcl⟩ | ⟨id, e, error, hg, hph⟩
    | ⟨id, e, hg, hph⟩ | ⟨id, e, msg, hg, hph⟩ | ⟨id, e, hg, hph⟩ | ⟨id, e, hg, hph⟩
    | ⟨now, hle⟩ := hm
  · exact ⟨OrdMap.get_set_of_ne _ _ (by omega), fun _ _ _ => Iff.rfl, Iff.rfl⟩
  · exact ⟨rfl, fun _ _ _ => Iff.rfl, Iff.rfl⟩
  · have hij : i ≠ j := by
      rintro rfl
      exact hc jt c sk job rfl hcl
    refine ⟨OrdMap.get_set_of_ne _ _ hij.symm, fun k ek hk => ⟨fun h => ?_, fun h => ?_⟩, Iff.rfl⟩
    · rcases OrdMap.of_get_set h with ⟨-, rfl⟩ | ⟨-, h⟩
      · exact absurd hk hij
      · exact h
    · have hlt := (hi.execution k ek h).1
      exact (OrdMap.get_set_of_ne _ _ (by omega)).trans h
  · exact .goOn hg (he id e rfl hg)
  · have hne := he id e rfl hg
    exact (Same.rows (by rw [completeJob, get_update, if_neg hne.symm])).trans (.goOn hg hne)
  · have hne := he id e rfl hg
    exact (Same.rows (by rw [failJob, get_update, if_neg hne.symm])).trans (.goOn hg hne)
  · have hne := he id e rfl hg
    have hr : Same j s { s with routed := s.routed ++ [e.jobId] } := by
      refine ⟨rfl, fun _ _ _ => Iff.rfl, ?_⟩
      rw [List.mem_append, List.mem_singleton, or_iff_left hne.symm]
    exact hr.trans (.goOn hg hne)
  · exact .rows (get_renewLease_of_ne (he id e rfl hg).symm)
  · exact ⟨rfl, fun _ _ _ => Iff.rfl, Iff.rfl⟩

theorem before_eq_zero (hf : First m queues j id e s.executions) : before j id s = 0 := by
  unfold before
  rw [List.length_eq_zero_iff, List.filter_eq_nil_iff]
  intro x hx hb
  simp only [Bool.and_eq_true, decide_eq_true_eq] at hb
  have hid := hf.only x.1 x.2 (OrdMap.mem_entries_iff.1 hx) hb.1
  omega

theorem invocations_eq_one (hf : First m queues j id e s.executions) : invocations j s = 1 := by
  unfold invocations
  have hmem : (id, e) ∈ s.executions.entries := OrdMap.mem_entries_iff.2 hf.get
  have hfilter : (s.executions.entries.filter fun x => x.2.jobId = j) = [(id, e)] := by
    have hnd : (s.executions.entries.filter fun x => x.2.jobId = j).Nodup :=
      (List.Nodup.of_map _ s.executions.nodup).filter _
    refine List.perm_singleton.1 ((List.perm_ext_iff_of_nodup hnd (List.nodup_singleton _)).2 ?_)
    intro y
    rw [List.mem_filter, List.mem_singleton, decide_eq_true_eq]
    refine ⟨fun ⟨hy, hj⟩ => ?_, ?_⟩
    · obtain ⟨hk, he⟩ := hf.unique (OrdMap.mem_entries_iff.1 hy) hj
      exact Prod.ext hk he
    · rintro rfl
      exact ⟨hmem, hf.job⟩
  rw [hfilter, List.length_singleton]

theorem Stage.claimed (hst : Stage m fails queues j s) {c : Config} {jt : String} {sk : List ℕ}
    (hc : claimJob jt c.workerId c.leaseDurationMs s.now sk s.jobs = some (j, job))
    (hfair : Fair fails queues j ⟨s, a, start c j job s⟩) :
    Stage m fails queues j (start c j job s) := by
  obtain ⟨-, job₀, hj₀, hcl, rfl⟩ := claimJob_eq_some hc
  obtain ⟨-, hstatus, hun, -⟩ := claimable_iff.1 hcl
  rcases hst with ⟨job, hj, hfr, hx, hr⟩ | ⟨job, id, e, hj, -, hl, -, -, -⟩
    | ⟨job, id, e, hj, hd, -, -, -, -⟩ | ⟨job, id, e, hj, hd, -, -, -, -, -⟩
    | ⟨job, id, e, hj, hd, -, -, -, -⟩ <;>
    obtain rfl : job₀ = job := Option.some.inj (hj₀.symm.trans hj)
  · have hget : (start c j { job₀ with
        status := .running
        lockedUntil := some (leaseEnd c.leaseDurationMs s.now)
        lockedBy := some c.workerId } s).executions.get s.nextExecution
        = some ⟨c, j, job₀.retryCount, job₀.maxRetries, .handling⟩ := OrdMap.get_set_self _ _ _
    refine .running _ _ _ (OrdMap.get_set_self _ _ _) rfl
      (hfair.lease _ (OrdMap.get_set_self _ _ _) rfl)
      ⟨hget, rfl, fun i e' h he => ?_, hfr.retryCount, hfr.maxRetries, hfair.queue _ _ hget rfl⟩
      trivial hr
    rcases OrdMap.of_get_set h with ⟨rfl, -⟩ | ⟨-, h⟩
    · rfl
    · exact absurd he (hx i e' h)
  · simp [hun] at hl
  · simp [hd] at hstatus
  · simp [hd] at hstatus
  · simp [hd] at hstatus

theorem Stage.working (hst : Stage m fails queues j s) (hg : s.executions.get id = some e)
    (hj : e.jobId = j) (hu : e.phase.undecided = true) :
    ∃ job, s.jobs.get j = some job ∧ job.status = .running ∧ job.unlocked s.now = false
      ∧ First m queues j id e s.executions ∧ e.phase.follows (fails 0) ∧ j ∉ s.routed := by
  rcases hst with ⟨job, hjob, -, hx, -⟩ | ⟨job, i, e', hjob, hrun, hl, hf, hph, hr⟩
    | ⟨job, i, e', -, -, hf, hph, -, -⟩ | ⟨job, i, e', -, -, hf, hph, -, -, -⟩
    | ⟨job, i, e', -, -, hf, hph, -, -⟩
  · exact absurd hj (hx id e hg)
  · obtain ⟨rfl, rfl⟩ := hf.unique hg hj
    exact ⟨job, hjob, hrun, hl, hf, hph, hr⟩
  · obtain ⟨rfl, rfl⟩ := hf.unique hg hj
    simp [hph, Phase.undecided] at hu
  · obtain ⟨rfl, rfl⟩ := hf.unique hg hj
    simp [hph, Phase.undecided] at hu
  · obtain ⟨rfl, rfl⟩ := hf.unique hg hj
    simp [hph, Phase.undecided] at hu

theorem Stage.failed_step (hst : Stage m fails queues j s) (hg : s.executions.get id = some e)
    (hj : e.jobId = j) {msg : String} (hph : e.phase = .failing msg) :
    Stage m fails queues j
      ({ s with jobs := failJob e.jobId msg s.jobs }.goOn id e (afterFail e)) := by
  obtain ⟨job, hjob, -, -, hf, hfol, hr⟩ := hst.working hg hj (by simp [hph, Phase.undecided])
  have h0 : fails 0 = true := by simpa [hph, Phase.follows] using hfol
  have hrow : (failJob e.jobId msg s.jobs).get j = some (job.fail msg) := by
    rw [failJob, get_update, hj, if_pos rfl, hjob, Option.map_some]
  have hafter : afterFail e = if m = 0 ∧ e.config.dlqManager = true then .routing else .ended := by
    unfold afterFail
    rw [hf.retryCount, hf.maxRetries]
    rcases Nat.eq_zero_or_pos m with rfl | hm
    · simp
    · have hne : m ≠ 0 := by omega
      simp [hm, hne]
  rw [hafter]
  split_ifs with hm
  · exact .routing _ id _ hrow rfl (hf.set_phase _) rfl h0 hm hr
  · exact .failed _ id _ hrow rfl (hf.set_phase _) rfl h0 (iff_of_false hr hm)

theorem Stage.renewed (hst : Stage m fails queues j s) {w : String} {d : ℚ}
    (hl : ∀ job, (renewLease j w d s.now s.jobs).get j = some job → job.status = .running →
      job.unlocked s.now = false) :
    Stage m fails queues j { s with jobs := renewLease j w d s.now s.jobs } := by
  rcases hc : renewable j w d s.jobs with _ | job
  · simpa only [renewLease, hc] using hst
  · obtain ⟨-, hj, -, hrun⟩ := renewable_eq_some hc
    have hrow : (renewLease j w d s.now s.jobs).get j
        = some { job with lockedUntil := some (leaseEnd d s.now) } := by
      simp only [renewLease, hc]
      exact OrdMap.get_set_self _ _ _
    rcases hst with ⟨job', hj', hfr, -, -⟩ | ⟨job', id, e, hj', -, -, hf, hph, hr⟩
      | ⟨job', id, e, hj', hd, -, -, -, -⟩ | ⟨job', id, e, hj', hd, -, -, -, -, -⟩
      | ⟨job', id, e, hj', hd, -, -, -, -⟩ <;>
      obtain rfl : job = job' := Option.some.inj (hj.symm.trans hj')
    · simp [hfr.status] at hrun
    · exact .running _ id e hrow hrun (hl _ hrow hrun) hf hph hr
    · simp [hd] at hrun
    · simp [hd] at hrun
    · simp [hd] at hrun

theorem Stage.move (hst : Stage m fails queues j s) (hi : Ids s) (hm : Move s a s')
    (hfair : Fair fails queues j ⟨s, a, s'⟩) : Stage m fails queues j s' := by
  have hnew : j < s.nextJob := by
    rcases hst with ⟨job, hj, -⟩ | ⟨job, id, e, hj, -⟩ | ⟨job, id, e, hj, -⟩ | ⟨job, id, e, hj, -⟩
      | ⟨job, id, e, hj, -⟩ <;> exact hi.job j job hj
  have hmove := hm
  have hsame := fun hc he => hst.same (hm.same hi hnew hc he) hfair.lease
  have hother : ∀ id e, a.execution = some id → s.executions.get id = some e → e.jobId ≠ j →
      Stage m fails queues j s' := by
    intro id e ha hg hj
    refine hsame (fun jt c sk job hc => by simp [hc, Action.execution] at ha) fun i e' ha' hg' => ?_
    obtain rfl := Option.some.inj (ha.symm.trans ha')
    exact Option.some.inj (hg.symm.trans hg') ▸ hj
  obtain ⟨jt, ra, mr, job, hj⟩ | ⟨jt, c, sk, hc⟩ | ⟨jt, c, sk, i, job, hc⟩ | ⟨id, e, error, hg, hph⟩
    | ⟨id, e, hg, hph⟩ | ⟨id, e, msg, hg, hph⟩ | ⟨id, e, hg, hph⟩ | ⟨id, e, hg, hph⟩
    | ⟨now, hle⟩ := hmove
  · exact hsame (by simp) (by simp [Action.execution])
  · exact hst
  · by_cases hij : i = j
    · subst hij
      exact hst.claimed hc hfair
    · refine hsame (fun jt' c' sk' job' ha hc' => ?_) (by simp [Action.execution])
      obtain ⟨rfl, rfl, rfl⟩ := Action.claim.inj ha
      exact hij (Prod.mk.inj (Option.some.inj (hc.symm.trans hc'))).1
  · by_cases hj : e.jobId = j
    · obtain ⟨job, hjob, hrun, hl, hf, -, hr⟩ := hst.working hg hj (by simp [hph, Phase.undecided])
      have ho := hfair.outcome id error e rfl hg hj
      rw [before_eq_zero hf] at ho
      refine .running job id _ hjob hrun hl (hf.set_phase _) ?_ hr
      rcases error with _ | msg
      · exact ho.symm
      · exact ho.symm
    · exact hother id e rfl hg hj
  · by_cases hj : e.jobId = j
    · obtain ⟨job, hjob, -, -, hf, hfol, hr⟩ := hst.working hg hj (by simp [hph, Phase.undecided])
      refine .completed job.complete id _ ?_ rfl (hf.set_phase _) rfl
        (by simpa [hph, Phase.follows] using hfol) hr
      show (completeJob e.jobId s.jobs).get j = _
      rw [completeJob, get_update, hj, if_pos rfl, hjob, Option.map_some]
    · exact hother id e rfl hg hj
  · by_cases hj : e.jobId = j
    · exact hst.failed_step hg hj hph
    · exact hother id e rfl hg hj
  · by_cases hj : e.jobId = j
    · rcases hst with ⟨job, hjob, -, hx, -⟩ | ⟨job, i, e', hjob, -, -, hf, hfol, -⟩
        | ⟨job, i, e', hjob, -, hf, hph', -, -⟩ | ⟨job, i, e', hjob, hd, hf, -, h0, hm0, -⟩
        | ⟨job, i, e', hjob, -, hf, hph', -, -⟩
      · exact absurd hj (hx id e hg)
      · obtain ⟨rfl, rfl⟩ := hf.unique hg hj
        simp [hph, Phase.follows] at hfol
      · obtain ⟨rfl, rfl⟩ := hf.unique hg hj
        simp [hph] at hph'
      · obtain ⟨rfl, rfl⟩ := hf.unique hg hj
        refine .failed job id _ hjob hd (hf.set_phase _) rfl h0 (iff_of_true ?_ hm0)
        exact List.mem_append_right _ (List.mem_singleton.2 hj.symm)
      · obtain ⟨rfl, rfl⟩ := hf.unique hg hj
        simp [hph] at hph'
    · exact hother id e rfl hg hj
  · by_cases hj : e.jobId = j
    · subst hj
      exact hst.renewed hfair.lease
    · exact hother id e rfl hg hj
  · exact hsame (by simp) (by simp [Action.execution])

theorem stage_scheduled (hi : Ids s) {jt : String} {ra : Option ℚ} {mr : Option JsNumber}
    (hm : clampInt (mr.getD 3) 0 10 = some (m : ℤ))
    (hs : sys.step s (.schedule jt ra mr) = some s') : Stage m fails queues s.nextJob s' := by
  obtain ⟨job, hj, rfl⟩ := Option.map_eq_some_iff.1 hs
  obtain ⟨k, hk, rfl⟩ := Option.map_eq_some_iff.1 hj
  obtain rfl : (m : ℤ) = k := Option.some.inj (hm.symm.trans hk)
  refine .pending _ (OrdMap.get_set_self _ _ _) ⟨rfl, rfl, rfl, rfl⟩ (fun id e hg hj => ?_)
    fun hr => ?_
  · have hlt := (hi.execution id e hg).2
    omega
  · exact absurd (hi.routed _ hr) (lt_irrefl _)

theorem stage_run {h : List (Taken State Action)} {mr : Option JsNumber} (hr : Run sys h s)
    (hm : clampInt (mr.getD 3) 0 10 = some (m : ℤ)) (hsched : Scheduled mr j h)
    (hfair : ∀ t ∈ h, Fair fails queues j t) : Stage m fails queues j s := by
  induction hr with
  | start _ => simp [Scheduled] at hsched
  | @next h s s' a hr hs ih =>
    obtain ⟨t, ht, hj, jt, ra, ha⟩ := hsched
    rcases List.mem_cons.1 ht with rfl | ht
    · simp only at hj ha
      subst hj ha
      exact stage_scheduled (ids_run hr) hm hs
    · exact (ih ⟨t, ht, hj, jt, ra, ha⟩ fun u hu => hfair u (List.mem_cons_of_mem _ hu)).move
        (ids_run hr) (step_move hs) (hfair _ List.mem_cons_self)

end Stages

section Ending

variable {m : ℕ} {fails : ℕ → Bool} {queues : Set Bool} {s s' : State} {a : Action} {id i j : ℕ}
  {e e' : Execution} {job : Job} {h : List (Taken State Action)}

theorem claimable_due (hst : job.status = .pending ∨ job.status = .running) {now : ℚ}
    (hl : job.unlocked now = true) (hr : job.runAt ≤ now) :
    job.claimable job.jobType now = true :=
  claimable_iff.2 ⟨rfl, hst, hl, hr⟩

theorem First.finished (hf : First m queues j id e s.executions) (hph : e.phase = .ended)
    (hj : s.jobs.get j = some job) (hst : job.status = .completed ∨ job.status = .failed) :
    Finished j s where
  ended i e' hg hj := by
    obtain ⟨rfl, rfl⟩ := hf.unique hg hj
    exact hph
  left job' hj' jt now := by
    obtain rfl : job = job' := Option.some.inj (hj.symm.trans hj')
    by_contra hc
    obtain ⟨-, hcl, -⟩ := claimable_iff.1 (Bool.eq_true_of_not_eq_false hc)
    rcases hst with hst | hst <;> simp [hst] at hcl

theorem Stage.accounted (hst : Stage m fails queues j s) (h0 : fails 0 = false ∨ m = 0) :
    Accounted m j s := by
  rcases hst with ⟨job, hj, hfr, -, -⟩ | ⟨job, id, e, hj, hrun, hl, -, -, -⟩
    | ⟨job, id, e, hj, hd, -, -, -, -⟩ | ⟨job, id, e, hj, hd, hf, -, hfail, hm, -⟩
    | ⟨job, id, e, hj, hd, hf, -, hfail, -⟩
  · refine ⟨job, hj, .inl (claimable_due (.inl hfr.status) ?_ (le_max_right _ _))⟩
    rw [Job.unlocked, hfr.lockedUntil]
  · exact ⟨job, hj, .inr (.inl ⟨hrun, hl⟩)⟩
  · exact ⟨job, hj, .inr (.inr (.inl hd))⟩
  · exact ⟨job, hj, .inr (.inr (.inr ⟨hd, by rw [invocations_eq_one hf, hm.1]⟩))⟩
  · have hm : m = 0 := h0.resolve_left (by simp [hfail])
    exact ⟨job, hj, .inr (.inr (.inr ⟨hd, by rw [invocations_eq_one hf, hm]⟩))⟩

theorem Stage.ended (hst : Stage m fails queues j s) (hfin : Finished j s) :
    ∃ job id e, s.jobs.get j = some job ∧ First m queues j id e s.executions
      ∧ ((job.status = .completed ∧ fails 0 = false ∧ j ∉ s.routed)
        ∨ (job.status = .failed ∧ fails 0 = true
          ∧ (j ∈ s.routed ↔ m = 0 ∧ e.config.dlqManager = true))) := by
  rcases hst with ⟨job, hj, hfr, -, -⟩ | ⟨job, id, e, hj, -, -, hf, hfol, -⟩
    | ⟨job, id, e, hj, hd, hf, -, h0, hr⟩ | ⟨job, id, e, -, -, hf, hph, -, -, -⟩
    | ⟨job, id, e, hj, hd, hf, -, h0, hr⟩
  · have hcl := claimable_due (.inl hfr.status) (by rw [Job.unlocked, hfr.lockedUntil]) le_rfl
    simp [hfin.left job hj] at hcl
  · simp [hfin.ended id e hf.get hf.job, Phase.follows] at hfol
  · exact ⟨job, id, e, hj, hf, .inl ⟨hd, h0, hr⟩⟩
  · simp [hfin.ended id e hf.get hf.job] at hph
  · exact ⟨job, id, e, hj, hf, .inr ⟨hd, h0, hr⟩⟩

theorem Stage.honours (hst : Stage m fails queues j s) (hfin : Finished j s)
    (h0 : fails 0 = false ∨ (m = 0 ∧ false ∉ queues)) : Honours m fails j s := by
  obtain ⟨job, id, e, hj, hf, ⟨hd, hok, hr⟩ | ⟨hd, hfail, hr⟩⟩ := hst.ended hfin
  · have hk := leadingFailures_eq_zero hok
    refine ⟨?_, fun _ => by rw [hj, Option.map_some, hd], fun hlt => ?_, iff_of_false hr ?_⟩
    · rw [invocations_eq_one hf, hk, zero_min]
      rfl
    · simp [hk] at hlt
    · simp [hk]
  · have hk := one_le_leadingFailures hfail
    have hm := h0.resolve_left (by simp [hfail])
    have hqueue : e.config.dlqManager = true := by
      by_contra hno
      exact hm.2 (Bool.eq_false_of_not_eq_true hno ▸ hf.queue)
    have hlt : (m : ℕ∞) < leadingFailures fails := by
      rw [hm.1]
      exact lt_of_lt_of_le (by simp) hk
    refine ⟨?_, fun hle => absurd hle (not_le.2 hlt), fun _ => by rw [hj, Option.map_some, hd],
      iff_of_true (hr.2 ⟨hm.1, hqueue⟩) hlt⟩
    rw [invocations_eq_one hf, hm.1, Nat.cast_zero, min_zero]
    rfl

/-- A job whose first invocation fails does not come to the end that its outcomes call for if there
are retries to make, or no queue to route it to. -/
theorem Stage.not_honours {b : Bool} (hst : Stage m fails {b} j s) (hfin : Finished j s)
    (hfail : fails 0 = true) (hm : ¬ (m = 0 ∧ b = true)) : ¬ Honours m fails j s := by
  intro hh
  obtain ⟨job, id, e, hj, hf, ⟨-, hok, -⟩ | ⟨-, -, hr⟩⟩ := hst.ended hfin
  · simp [hfail] at hok
  · have hk := one_le_leadingFailures hfail
    have hinv := hh.invoked
    have hm0 : m = 0 := by
      by_contra hne
      have hle : (1 : ℕ∞) ≤ min (leadingFailures fails) m :=
        le_min hk (by exact_mod_cast Nat.one_le_iff_ne_zero.2 hne)
      rw [invocations_eq_one hf] at hinv
      have htwo : (1 : ℕ∞) + 1 ≤ 1 := by
        calc (1 : ℕ∞) + 1 ≤ min (leadingFailures fails) m + 1 := add_le_add_left hle 1
          _ = ((1 : ℕ) : ℕ∞) := hinv.symm
          _ = 1 := rfl
      exact absurd htwo (by decide)
    have hlt : (m : ℕ∞) < leadingFailures fails := by
      rw [hm0]
      exact lt_of_lt_of_le (by simp) hk
    exact hm ⟨hm0, hf.queue ▸ (hr.1 (hh.routed.2 hlt)).2⟩

end Ending

section Polling

variable {m : ℕ} {fails : ℕ → Bool} {queues : Set Bool} {s s' : State} {a : Action} {id j : ℕ}
  {e : Execution} {job : Job} {h : List (Taken State Action)}

theorem finishes_of_finished (hr : Run sys h s) (hfin : Finished j s) : Finishes fails queues j h :=
  ⟨[], s, hr, by simp, hfin⟩

theorem Finishes.cons {t : Taken State Action} (hf : Finishes fails queues j (t :: h))
    (ht : Fair fails queues j t) : Finishes fails queues j h := by
  obtain ⟨h', s', hr, hall, hfin⟩ := hf
  refine ⟨h' ++ [t], s', by rwa [List.append_assoc, List.singleton_append], fun u hu => ?_, hfin⟩
  rcases List.mem_append.1 hu with hu | hu
  · exact hall u hu
  · exact List.mem_singleton.1 hu ▸ ht

theorem First.fair (hf : First m queues j id e s'.executions) (ha : ∀ i error, a ≠ .handled i error)
    (hl : ∀ job, s'.jobs.get j = some job → job.status = .running →
      job.unlocked s'.now = false) : Fair fails queues j ⟨s, a, s'⟩ where
  outcome i error e' hact _ _ := absurd hact (ha i error)
  queue i e' hg hj := by
    obtain ⟨-, rfl⟩ := hf.unique hg hj
    exact hf.queue
  lease := hl

theorem finishes_routing (hr : Run sys h s) (hj : s.jobs.get j = some job)
    (hd : job.status = .failed) (hf : First m queues j id e s.executions)
    (hph : e.phase = .routing) : Finishes fails queues j h := by
  have hs : sys.step s (.route id)
      = some ({ s with routed := s.routed ++ [e.jobId] }.goOn id e .ended) := by
    simp [sys, step, Action.execution, hf.get, perform, hph]
  have hf' := hf.set_phase .ended
  refine (finishes_of_finished (hr.next hs) (hf'.finished rfl hj (.inr hd))).cons
    (hf'.fair (by simp) fun job' hj' hrun => ?_)
  obtain rfl : job = job' := Option.some.inj (hj.symm.trans hj')
  simp [hd] at hrun

theorem finishes_completing (hr : Run sys h s) (hj : s.jobs.get j = some job)
    (hf : First m queues j id e s.executions) (hph : e.phase = .completing) :
    Finishes fails queues j h := by
  have hs : sys.step s (.complete id)
      = some ({ s with jobs := completeJob e.jobId s.jobs }.goOn id e .ended) := by
    simp [sys, step, Action.execution, hf.get, perform, hph]
  have hrow : (completeJob e.jobId s.jobs).get j = some job.complete := by
    rw [completeJob, get_update, hf.job, if_pos rfl, hj, Option.map_some]
  have hf' := hf.set_phase .ended
  refine (finishes_of_finished (hr.next hs) (hf'.finished rfl hrow (.inl rfl))).cons
    (hf'.fair (by simp) fun job' hj' hrun => ?_)
  obtain rfl : job.complete = job' := Option.some.inj (hrow.symm.trans hj')
  simp [Job.complete] at hrun

theorem finishes_failing (hr : Run sys h s) (hj : s.jobs.get j = some job)
    (hf : First m queues j id e s.executions) {msg : String} (hph : e.phase = .failing msg) :
    Finishes fails queues j h := by
  have hs : sys.step s (.fail id)
      = some ({ s with jobs := failJob e.jobId msg s.jobs }.goOn id e (afterFail e)) := by
    simp [sys, step, Action.execution, hf.get, perform, hph]
  have hrow : (failJob e.jobId msg s.jobs).get j = some (job.fail msg) := by
    rw [failJob, get_update, hf.job, if_pos rfl, hj, Option.map_some]
  have hf' := hf.set_phase (afterFail e)
  have hafter : afterFail e = .ended ∨ afterFail e = .routing := by
    unfold afterFail
    split_ifs <;> simp
  have hnext : Finishes fails queues j (⟨s, .fail id,
      { s with jobs := failJob e.jobId msg s.jobs }.goOn id e (afterFail e)⟩ :: h) := by
    rcases hafter with hafter | hafter
    · exact finishes_of_finished (hr.next hs) (hf'.finished hafter hrow (.inr rfl))
    · exact finishes_routing (hr.next hs) hrow rfl hf' hafter
  refine hnext.cons (hf'.fair (by simp) fun job' hj' hrun => ?_)
  obtain rfl : job.fail msg = job' := Option.some.inj (hrow.symm.trans hj')
  simp [Job.fail] at hrun

theorem finishes_handling (hr : Run sys h s) (hj : s.jobs.get j = some job)
    (hl : job.unlocked s.now = false) (hf : First m queues j id e s.executions)
    (hph : e.phase = .handling) : Finishes fails queues j h := by
  have hfair : ∀ (error : Option String) (ph : Phase), error.isSome = fails 0 →
      Fair fails queues j ⟨s, .handled id error, s.goOn id e ph⟩ := by
    intro error ph ho
    refine ⟨fun i error' e' hact hg he => ?_, fun i e' hg he => ?_, fun job' hj' _ => ?_⟩
    · obtain ⟨rfl, rfl⟩ := Action.handled.inj hact
      rw [before_eq_zero hf, ho]
    · obtain ⟨-, rfl⟩ := (hf.set_phase ph).unique hg he
      exact hf.queue
    · obtain rfl : job = job' := Option.some.inj (hj.symm.trans hj')
      exact hl
  rcases h0 : fails 0
  · have hs : sys.step s (.handled id none) = some (s.goOn id e .completing) := by
      simp [sys, step, Action.execution, hf.get, perform, hph]
    exact (finishes_completing (hr.next hs) hj (hf.set_phase _) rfl).cons
      (hfair none .completing (by rw [h0]; rfl))
  · have hs : sys.step s (.handled id (some "error")) = some (s.goOn id e (.failing "error")) := by
      simp [sys, step, Action.execution, hf.get, perform, hph]
    exact (finishes_failing (hr.next hs) hj (hf.set_phase _) rfl).cons
      (hfair (some "error") (.failing "error") (by rw [h0]; rfl))

theorem claimJob_of_skipped {jobs : Table} {now : ℚ} (d : ℚ) (sk : List ℕ) (w : String)
    (hi : int4 (leaseSeconds d) = true) (hj : jobs.get j = some job)
    (hc : job.claimable job.jobType now = true) (hsk : ∀ i job', jobs.get i = some job' →
      (i ∈ sk ↔ i ≠ j)) : ∃ job', claimJob job.jobType w d now sk jobs = some (j, job') := by
  have hmem : (j, job) ∈ jobs.entries.filter fun x =>
      x.2.claimable job.jobType now && x.1 ∉ sk := by
    refine List.mem_filter.2 ⟨OrdMap.mem_entries_iff.2 hj, ?_⟩
    simp [hc, hsk j job hj]
  obtain ⟨y, hy⟩ := Option.isSome_iff_exists.1 (earliest_isSome hmem)
  obtain ⟨hyj, hyc⟩ := List.mem_filter.1 (earliest_mem hy)
  have hkey : y.1 = j := by
    by_contra hne
    have hskip := (hsk y.1 y.2 (OrdMap.mem_entries_iff.1 hyj)).2 hne
    simp [hskip] at hyc
  rw [claimJob, if_pos hi, hy, Option.map_some, hkey]
  exact ⟨_, rfl⟩

theorem finishes_pending (hr : Run sys h s) (hi : Ids s) (hj : s.jobs.get j = some job)
    (hfr : Fresh m job) (hx : ∀ id e, s.executions.get id = some e → e.jobId ≠ j) {b : Bool}
    (hb : b ∈ queues) : Finishes fails queues j h := by
  set now : ℚ := max s.now job.runAt with hnow
  have hpending : ∀ job', s.jobs.get j = some job' → job'.status ≠ .running := by
    intro job' hj' hrun
    obtain rfl : job = job' := Option.some.inj (hj.symm.trans hj')
    simp [hfr.status] at hrun
  have hticked : sys.step s (.tick now) = some { s with now := now } := by
    simp [sys, step, hnow]
  refine Finishes.cons (t := ⟨s, .tick now, { s with now := now }⟩) ?_
    ⟨by simp, fun id e hg he => absurd he (hx id e hg), fun job' hj' hrun =>
      absurd hrun (hpending job' hj')⟩
  have hdue : job.claimable job.jobType now = true :=
    claimable_due (.inl hfr.status) (by rw [Job.unlocked, hfr.lockedUntil]) (le_max_right _ _)
  have hsec : leaseSeconds 1000 = 1 := by norm_num [leaseSeconds]
  obtain ⟨job', hc⟩ := claimJob_of_skipped 1000 ((List.range s.nextJob).filter (· ≠ j))
    "worker" (by rw [hsec]; rfl) hj hdue fun i job' hi' => by simp [hi.job i job' hi']
  have hclaimed : sys.step { s with now := now } (.claim job.jobType ⟨"worker", 1000, b⟩
      ((List.range s.nextJob).filter (· ≠ j)))
      = some (start ⟨"worker", 1000, b⟩ j job' { s with now := now }) := by
    simp only [sys, step, hc]
  obtain ⟨-, job₀, hj₀, -, hrow⟩ := claimJob_eq_some hc
  obtain rfl : job = job₀ := Option.some.inj (hj.symm.trans hj₀)
  have hlease : job'.unlocked now = false := by
    rw [hrow]
    simp [Job.unlocked, leaseEnd, hsec]
  have hf : First m queues j s.nextExecution
      ⟨⟨"worker", 1000, b⟩, j, job'.retryCount, job'.maxRetries, .handling⟩
      (start ⟨"worker", 1000, b⟩ j job' { s with now := now }).executions := by
    refine ⟨OrdMap.get_set_self _ _ _, rfl, fun i e' hg he => ?_, ?_, ?_, hb⟩
    · rcases OrdMap.of_get_set hg with ⟨rfl, -⟩ | ⟨-, hg⟩
      · rfl
      · exact absurd he (hx i e' hg)
    · rw [hrow]
      exact hfr.retryCount
    · rw [hrow]
      exact hfr.maxRetries
  refine (finishes_handling ((hr.next hticked).next hclaimed) (OrdMap.get_set_self _ _ _) hlease hf
    rfl).cons (hf.fair (by simp) fun job₁ hj₁ _ => ?_)
  obtain rfl : job' = job₁ := Option.some.inj ((OrdMap.get_set_self _ _ _).symm.trans hj₁)
  exact hlease

theorem Stage.finishes (hst : Stage m fails queues j s) (hr : Run sys h s)
    (hq : queues.Nonempty) : Finishes fails queues j h := by
  rcases hst with ⟨job, hj, hfr, hx, -⟩ | ⟨job, id, e, hj, hrun, hl, hf, hfol, -⟩
    | ⟨job, id, e, hj, hd, hf, hph, -, -⟩ | ⟨job, id, e, hj, hd, hf, hph, -, -, -⟩
    | ⟨job, id, e, hj, hd, hf, hph, -, -⟩
  · exact finishes_pending hr (ids_run hr) hj hfr hx hq.some_mem
  · rcases hph : e.phase with _ | _ | msg | _ | _
    · exact finishes_handling hr hj hl hf hph
    · exact finishes_completing hr hj hf hph
    · exact finishes_failing hr hj hf hph
    · simp [hph, Phase.follows] at hfol
    · simp [hph, Phase.follows] at hfol
  · exact finishes_of_finished hr (hf.finished hph hj (.inl hd))
  · exact finishes_routing hr hj hd hf hph
  · exact finishes_of_finished hr (hf.finished hph hj (.inr hd))

theorem exists_finished {mr : Option JsNumber} (hm : clampInt (mr.getD 3) 0 10 = some (m : ℤ))
    (fails : ℕ → Bool) (hq : queues.Nonempty) : ∃ h s, Run sys h s ∧ Scheduled mr 0 h
      ∧ (∀ t ∈ h, Fair fails queues 0 t) ∧ Finished 0 s := by
  have hstart : Run sys [] { now := 0 } := .start ⟨0, rfl⟩
  rcases hs : sys.step { now := 0 } (.schedule "job" none mr) with _ | s
  · simp [sys, step, scheduleJob, hm] at hs
  have hr := hstart.next hs
  have hst : Stage m fails queues 0 s := stage_scheduled (ids_run hstart) hm hs
  obtain ⟨h, s', hr', hfair, hfin⟩ := hst.finishes hr hq
  refine ⟨_, s', hr', ⟨_, List.mem_append_right _ List.mem_cons_self, rfl, "job", none, rfl⟩,
    fun t ht => ?_, hfin⟩
  rcases List.mem_append.1 ht with ht | ht
  · exact hfair t ht
  · obtain rfl := List.mem_singleton.1 ht
    obtain ⟨job, hjob, rfl⟩ := Option.map_eq_some_iff.1 hs
    refine ⟨by simp, fun id e hg => by simp at hg, fun job' hj' hrun => ?_⟩
    obtain rfl : job = job' := Option.some.inj ((OrdMap.get_set_self _ _ _).symm.trans hj')
    simp [(scheduleJob_status hjob).1] at hrun

theorem Fair.mono {queues' : Set Bool} {t : Taken State Action} (ht : Fair fails queues j t)
    (hsub : queues ⊆ queues') : Fair fails queues' j t :=
  ⟨ht.outcome, fun id e hg hj => hsub (ht.queue id e hg hj), ht.lease⟩

theorem exists_not_honours {mr : Option JsNumber} (hm : clampInt (mr.getD 3) 0 10 = some (m : ℤ))
    (fails : ℕ → Bool) {b : Bool} (hb : b ∈ queues) (hfail : fails 0 = true)
    (hno : ¬ (m = 0 ∧ b = true)) : ∃ h s, Run sys h s ∧ Scheduled mr 0 h
      ∧ (∀ t ∈ h, Fair fails queues 0 t) ∧ Finished 0 s ∧ ¬ Honours m fails 0 s := by
  obtain ⟨h, s, hr, hsched, hfair, hfin⟩ := exists_finished hm fails (Set.singleton_nonempty b)
  exact ⟨h, s, hr, hsched, fun t ht => (hfair t ht).mono (Set.singleton_subset_iff.2 hb), hfin,
    (stage_run hr hm hsched hfair).not_honours hfin hfail hno⟩

/-- The retries of a job are honoured in every run, for a sequence of outcomes, exactly if the
first invocation succeeds, or there are no retries and every worker has a queue. -/
theorem retries_honoured_iff {mr : Option JsNumber}
    (hm : clampInt (mr.getD 3) 0 10 = some (m : ℤ)) (fails : ℕ → Bool) (hq : queues.Nonempty) :
    Honoured mr m fails queues ↔ fails 0 = false ∨ (m = 0 ∧ false ∉ queues) := by
  constructor
  · intro hall
    by_contra hno
    rw [not_or, Bool.not_eq_false] at hno
    obtain ⟨b, hb, hb0⟩ : ∃ b ∈ queues, ¬ (m = 0 ∧ b = true) := by
      by_cases hf : false ∈ queues
      · exact ⟨false, hf, by simp⟩
      · exact ⟨_, hq.some_mem, fun h => hno.2 ⟨h.1, hf⟩⟩
    obtain ⟨h, s, hr, hsched, hfair, hfin, hnot⟩ := exists_not_honours hm fails hb hno.1 hb0
    exact hnot ((hall h s 0 hr hsched hfair).2.1 hfin)
  · intro h0 h s j hr hsched hfair
    have hst := stage_run hr hm hsched hfair
    exact ⟨hst.accounted (h0.imp_right And.left), fun hfin => hst.honours hfin h0,
      hst.finishes hr hq⟩

theorem default_retries :
    clampInt ((none : Option JsNumber).getD 3) 0 10 = some ((3 : ℕ) : ℤ) := by
  decide +kernel

/-- The default retries, any workers, and a handler that succeeds at once. -/
theorem retries_honoured_iff_default : Honoured none 3 (fun _ => false) Set.univ :=
  (retries_honoured_iff default_retries _ Set.univ_nonempty).2 (.inl rfl)

/-- The handler would succeed when invoked again, but the job has failed after one invocation. -/
theorem failure_not_retried : ¬ Honoured none 3 (fun i => i = 0) {true} ∧ ∃ h s, Run sys h s
    ∧ Scheduled none 0 h ∧ (∀ t ∈ h, Fair (fun i => i = 0) {true} 0 t) ∧ Finished 0 s
    ∧ invocations 0 s = 1 ∧ (s.jobs.get 0).map (·.status) = some .failed := by
  have hm := default_retries
  refine ⟨fun hall => ?_, ?_⟩
  · obtain ⟨h, s, hr, hsched, hfair, hfin, hnot⟩ := exists_not_honours hm (fun i => i = 0)
      (Set.mem_singleton true) rfl (by simp)
    exact hnot ((hall h s 0 hr hsched hfair).2.1 hfin)
  · obtain ⟨h, s, hr, hsched, hfair, hfin⟩ := exists_finished hm (fun i => i = 0)
      (Set.singleton_nonempty true)
    refine ⟨h, s, hr, hsched, hfair, hfin, ?_⟩
    have hst := stage_run hr hm hsched hfair
    obtain ⟨job, id, e, hj, hf, ⟨-, hok, -⟩ | ⟨hd, -, -⟩⟩ := hst.ended hfin
    · simp at hok
    · exact ⟨invocations_eq_one hf, by rw [hj, Option.map_some, hd]⟩

end Polling

end Worker

end Jobs

end VeriNode
