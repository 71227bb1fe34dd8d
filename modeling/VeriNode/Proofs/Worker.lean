import VeriNode.Scheduler.Worker
import VeriNode.Proofs.JobStore

/-!
# When only the lease holder decides a job

`completeJob` and `failJob` do not look at who holds the lease. Along the runs in which they are
called for the most recent claim of the job, a job that is running belongs to that claim
(`Inv`), so that only its worker changes the row, and a completed job stays completed
(`only_holder_decides`). That an execution decides at most once needs no condition
(`decisions_le_one`).
-/

namespace VeriNode

namespace Jobs

namespace Worker

section Moves

/-- What a step may do, with what lets it. -/
inductive Move (s : State) : Action → State → Prop
  | scheduled (jobType : String) (runAt : Option ℚ) (maxRetries : Option JsNumber) (job : Job) :
      scheduleJob jobType runAt maxRetries s.now = some job →
      Move s (.schedule jobType runAt maxRetries)
        { s with jobs := s.jobs.set s.nextJob job, nextJob := s.nextJob + 1 }
  | missed (jobType : String) (config : Config) (skipped : List ℕ) :
      claimJob jobType config.workerId config.leaseDurationMs s.now skipped s.jobs = none →
      Move s (.claim jobType config skipped) s
  | claimed (jobType : String) (config : Config) (skipped : List ℕ) (j : ℕ) (job : Job) :
      claimJob jobType config.workerId config.leaseDurationMs s.now skipped s.jobs = some (j, job) →
      Move s (.claim jobType config skipped) (start config j job s)
  | handled (id : ℕ) (e : Execution) (error : Option String) : s.executions.get id = some e →
      e.phase = .handling →
      Move s (.handled id error) (s.goOn id e
        (match error with
          | none => .completing
          | some errorMessage => .failing errorMessage))
  | completed (id : ℕ) (e : Execution) : s.executions.get id = some e → e.phase = .completing →
      Move s (.complete id) ({ s with jobs := completeJob e.jobId s.jobs }.goOn id e .ended)
  | failed (id : ℕ) (e : Execution) (errorMessage : String) : s.executions.get id = some e →
      e.phase = .failing errorMessage →
      Move s (.fail id)
        ({ s with jobs := failJob e.jobId errorMessage s.jobs }.goOn id e (afterFail e))
  | routed (id : ℕ) (e : Execution) : s.executions.get id = some e → e.phase = .routing →
      Move s (.route id) ({ s with routed := s.routed ++ [e.jobId] }.goOn id e .ended)
  | renewed (id : ℕ) (e : Execution) : s.executions.get id = some e → e.phase ≠ .ended →
      Move s (.renew id) { s with
        jobs := renewLease e.jobId e.config.workerId e.config.leaseDurationMs s.now s.jobs }
  | ticked (now : ℚ) : s.now ≤ now → Move s (.tick now) { s with now := now }

variable {s s' : State} {a : Action} {id : ℕ} {e : Execution}

/-- Every step of an execution is a move. -/
theorem perform_move (hg : s.executions.get id = some e) (ha : a.execution = some id)
    (h : perform id e s a = some s') : Move s a s' := by
  rcases a with ⟨jt, ra, mr⟩ | ⟨jt, c, sk⟩ | ⟨i, error⟩ | i | i | i | i | t
  · simp [Action.execution] at ha
  · simp [Action.execution] at ha
  · obtain rfl := Option.some.inj ha
    simp only [perform] at h
    split at h
    · rename_i hph
      rw [← Option.some.inj h]
      exact .handled _ e error hg hph
    · simp at h
  · obtain rfl := Option.some.inj ha
    simp only [perform] at h
    split at h
    · rename_i hph
      rw [← Option.some.inj h]
      exact .completed _ e hg hph
    · simp at h
  · obtain rfl := Option.some.inj ha
    simp only [perform] at h
    split at h
    · rename_i msg hph
      rw [← Option.some.inj h]
      exact .failed _ e msg hg hph
    · simp at h
  · obtain rfl := Option.some.inj ha
    simp only [perform] at h
    split at h
    · rename_i hph
      rw [← Option.some.inj h]
      exact .routed _ e hg hph
    · simp at h
  · obtain rfl := Option.some.inj ha
    simp only [perform] at h
    split at h
    · simp at h
    · rename_i hph
      rw [← Option.some.inj h]
      exact .renewed _ e hg hph
  · simp [Action.execution] at ha

theorem step_perform (ha : a.execution = some id) (hg : s.executions.get id = some e) :
    step s a = perform id e s a := by
  cases a <;> cases ha <;> simp only [step, Action.execution, hg]

theorem step_eq_none (ha : a.execution = some id) (hg : s.executions.get id = none) :
    step s a = none := by
  cases a <;> cases ha <;> simp only [step, Action.execution, hg]

theorem step_move (h : step s a = some s') : Move s a s' := by
  have hex : ∀ id, a.execution = some id → Move s a s' := by
    intro id ha
    rcases hg : s.executions.get id with _ | e
    · rw [step_eq_none ha hg] at h
      cases h
    · exact perform_move hg ha (step_perform ha hg ▸ h)
  rcases a with ⟨jt, ra, mr⟩ | ⟨jt, c, sk⟩ | ⟨i, error⟩ | i | i | i | i | t
  · obtain ⟨job, hj, rfl⟩ := Option.map_eq_some_iff.1 h
    exact .scheduled jt ra mr job hj
  · simp only [step] at h
    rcases hc : claimJob jt c.workerId c.leaseDurationMs s.now sk s.jobs with _ | ⟨j, job⟩ <;>
      simp only [hc] at h <;> rw [← Option.some.inj h]
    · exact .missed jt c sk hc
    · exact .claimed jt c sk j job hc
  · exact hex i rfl
  · exact hex i rfl
  · exact hex i rfl
  · exact hex i rfl
  · exact hex i rfl
  · simp only [step] at h
    split_ifs at h with ht
    rw [← Option.some.inj h]
    exact .ticked t ht

end Moves

section Holders

/-- The most recent claim of a job. -/
def Latest (executions : OrdMap ℕ Execution) (j id : ℕ) (e : Execution) : Prop :=
  executions.get id = some e ∧ e.jobId = j
    ∧ ∀ id' e', executions.get id' = some e' → e'.jobId = j → id' ≤ id

/-- It has not decided its job. -/
def Phase.undecided : Phase → Bool
  | .handling => true
  | .completing => true
  | .failing _ => true
  | .routing => false
  | .ended => false

/-- The step decides the job of the execution. -/
def decides (id : ℕ) : Action → Bool
  | .complete id' => id' = id
  | .fail id' => id' = id
  | _ => false

/-- A job that is running belongs to the worker of its most recent claim, and that claim has it
until it decides it. -/
structure Inv (s : State) : Prop where
  job : ∀ j job, s.jobs.get j = some job → j < s.nextJob
  id : ∀ id e, s.executions.get id = some e → id < s.nextExecution ∧ e.jobId < s.nextJob
  running : ∀ j job, s.jobs.get j = some job → job.status = .running →
    ∃ id e, Latest s.executions j id e ∧ job.lockedBy = some e.config.workerId
  undecided : ∀ j id e, Latest s.executions j id e → e.phase.undecided = true →
    ∃ job, s.jobs.get j = some job ∧ job.status = .running

/-- A job is decided for the most recent claim of it. -/
def Held (s : State) (a : Action) : Prop :=
  ∀ id, decides id a = true → ∀ e, s.executions.get id = some e →
    ∀ id' e', s.executions.get id' = some e' → e'.jobId = e.jobId → id' ≤ id

variable {s s' : State} {a : Action} {id i j : ℕ} {e e' : Execution} {ph : Phase}
  {x : OrdMap ℕ Execution}

theorem Latest.unique (hl : Latest x j id e) (hl' : Latest x j i e') : id = i ∧ e = e' := by
  have h := hl.2.2 i e' hl'.1 hl'.2.1
  have h' := hl'.2.2 id e hl.1 hl.2.1
  obtain rfl : id = i := by omega
  exact ⟨rfl, Option.some.inj (hl.1.symm.trans hl'.1)⟩

theorem Latest.set_phase (hl : Latest x j i e') (hg : x.get id = some e) (ph : Phase) :
    Latest (x.set id { e with phase := ph }) j i
      (if i = id then { e with phase := ph } else e') := by
  refine ⟨?_, ?_, fun k ek hk hj => ?_⟩
  · rw [OrdMap.get_set]
    split_ifs
    · rfl
    · exact hl.1
  · split_ifs with hi
    · subst hi
      obtain rfl : e = e' := Option.some.inj (hg.symm.trans hl.1)
      exact hl.2.1
    · exact hl.2.1
  · rcases OrdMap.of_get_set hk with ⟨rfl, rfl⟩ | ⟨-, hk⟩
    · exact hl.2.2 k e hg hj
    · exact hl.2.2 k ek hk hj

theorem Latest.of_set_phase (hl : Latest (x.set id { e with phase := ph }) j i e')
    (hg : x.get id = some e) :
    (i = id ∧ e' = { e with phase := ph } ∧ Latest x j id e) ∨ (i ≠ id ∧ Latest x j i e') := by
  have hmax : ∀ k ek, x.get k = some ek → ek.jobId = j → k ≤ i := by
    intro k ek hk hj
    by_cases hki : k = id
    · subst hki
      obtain rfl : e = ek := Option.some.inj (hg.symm.trans hk)
      exact hl.2.2 k _ (OrdMap.get_set_self _ _ _) hj
    · exact hl.2.2 k ek (by rw [OrdMap.get_set_of_ne _ _ hki, hk]) hj
  rcases OrdMap.of_get_set hl.1 with ⟨rfl, rfl⟩ | ⟨hi, hk⟩
  · exact .inl ⟨rfl, rfl, hg, hl.2.1, hmax⟩
  · exact .inr ⟨hi, hk, hl.2.1, hmax⟩

theorem Inv.keep (hi : Inv s) (hx : s'.executions = s.executions)
    (hn : s'.nextExecution = s.nextExecution) (hj : s'.nextJob = s.nextJob)
    (hjob : ∀ j job', s'.jobs.get j = some job' → ∃ job, s.jobs.get j = some job
      ∧ (job'.status = .running → job.status = .running ∧ job'.lockedBy = job.lockedBy))
    (hrun : ∀ j job, s.jobs.get j = some job → job.status = .running →
      ∃ job', s'.jobs.get j = some job' ∧ job'.status = .running) : Inv s' where
  job j job' h := by
    obtain ⟨job, hg, -⟩ := hjob j job' h
    rw [hj]
    exact hi.job j job hg
  id i e h := by
    rw [hn, hj]
    exact hi.id i e (hx ▸ h)
  running j job' h hr := by
    obtain ⟨job, hg, hst⟩ := hjob j job' h
    obtain ⟨hr', hl⟩ := hst hr
    rw [hx, hl]
    exact hi.running j job hg hr'
  undecided j i e hl hu := by
    obtain ⟨job, hg, hr⟩ := hi.undecided j i e (hx ▸ hl) hu
    exact hrun j job hg hr

theorem Inv.goOn (hi : Inv s) (hg : s.executions.get id = some e)
    (hu : ph.undecided = true → e.phase.undecided = true) : Inv (s.goOn id e ph) where
  job := hi.job
  id i e' h := by
    rcases OrdMap.of_get_set h with ⟨rfl, rfl⟩ | ⟨-, h⟩
    · exact hi.id i e hg
    · exact hi.id i e' h
  running j job h hr := by
    obtain ⟨i, e', hl, hlock⟩ := hi.running j job h hr
    refine ⟨i, _, hl.set_phase hg ph, ?_⟩
    split_ifs with hii
    · subst hii
      obtain rfl : e = e' := Option.some.inj (hg.symm.trans hl.1)
      exact hlock
    · exact hlock
  undecided j i e' hl hu' := by
    rcases hl.of_set_phase hg with ⟨rfl, rfl, hl₀⟩ | ⟨-, hl₀⟩
    · exact hi.undecided j _ e hl₀ (hu hu')
    · exact hi.undecided j i e' hl₀ hu'

/-- The most recent claim of a job decides it. -/
theorem Inv.decided (hi : Inv s) {f : Job → Job} (hf : ∀ job, (f job).status ≠ .running)
    (hg : s.executions.get id = some e) (hlast : Latest s.executions e.jobId id e)
    (hu : ph.undecided = false) : Inv ({ s with jobs := update e.jobId f s.jobs }.goOn id e ph) where
  job j job h := by
    have h' : (update e.jobId f s.jobs).get j = some job := h
    rw [get_update] at h'
    split_ifs at h' with hj
    · obtain ⟨job₀, hj₀, -⟩ := Option.map_eq_some_iff.1 h'
      rw [hj]
      exact hi.job _ job₀ hj₀
    · exact hi.job j job h'
  id i e' h := by
    rcases OrdMap.of_get_set h with ⟨rfl, rfl⟩ | ⟨-, h⟩
    · exact hi.id i e hg
    · exact hi.id i e' h
  running j job h hr := by
    have h' : (update e.jobId f s.jobs).get j = some job := h
    rw [get_update] at h'
    split_ifs at h' with hj
    · obtain ⟨job₀, -, rfl⟩ := Option.map_eq_some_iff.1 h'
      exact absurd hr (hf job₀)
    · obtain ⟨i, e', hl, hlock⟩ := hi.running j job h' hr
      refine ⟨i, e', ?_, hlock⟩
      have hne : i ≠ id := by
        rintro rfl
        obtain rfl : e = e' := Option.some.inj (hg.symm.trans hl.1)
        exact hj hl.2.1.symm
      have hset := hl.set_phase hg ph
      rw [if_neg hne] at hset
      exact hset
  undecided j i e' hl hu' := by
    rcases hl.of_set_phase hg with ⟨rfl, rfl, hl⟩ | ⟨hne, hl⟩
    · simp [hu] at hu'
    · have hj : j ≠ e.jobId := by
        rintro rfl
        exact hne (hl.unique hlast).1
      obtain ⟨job, hjob, hr⟩ := hi.undecided j i e' hl hu'
      refine ⟨job, ?_, hr⟩
      show (update e.jobId f s.jobs).get j = some job
      rw [get_update, if_neg hj, hjob]

theorem Inv.claimed (hi : Inv s) {c : Config} {job job₀ : Job} (hj : s.jobs.get j = some job₀)
    (hr : job.status = .running) (hw : job.lockedBy = some c.workerId) :
    Inv (start c j job s) := by
  have hnew : Latest (start c j job s).executions j s.nextExecution
      ⟨c, j, job.retryCount, job.maxRetries, .handling⟩ := by
    refine ⟨OrdMap.get_set_self _ _ _, rfl, fun k ek hk _ => ?_⟩
    rcases OrdMap.of_get_set hk with ⟨rfl, -⟩ | ⟨-, hk⟩
    · exact le_rfl
    · exact (hi.id k ek hk).1.le
  have hold : ∀ {k ek}, s.executions.get k = some ek →
      (start c j job s).executions.get k = some ek := by
    intro k ek hk
    have hlt := (hi.id k ek hk).1
    exact (OrdMap.get_set_of_ne _ _ (by omega)).trans hk
  refine ⟨fun j' job' h => ?_, fun i e' h => ?_, fun j' job' h hr' => ?_, fun j' i e' hl hu => ?_⟩
  · rcases OrdMap.of_get_set h with ⟨rfl, -⟩ | ⟨-, h⟩
    · exact hi.job _ job₀ hj
    · exact hi.job j' job' h
  · rcases OrdMap.of_get_set h with ⟨rfl, rfl⟩ | ⟨-, h⟩
    · exact ⟨Nat.lt_succ_self _, hi.job j job₀ hj⟩
    · exact ⟨(hi.id i e' h).1.trans (Nat.lt_succ_self _), (hi.id i e' h).2⟩
  · rcases OrdMap.of_get_set h with ⟨rfl, rfl⟩ | ⟨hne, h⟩
    · exact ⟨_, _, hnew, hw⟩
    · obtain ⟨i, e', hl, hlock⟩ := hi.running j' job' h hr'
      refine ⟨i, e', ⟨hold hl.1, hl.2.1, fun k ek hk hkj => ?_⟩, hlock⟩
      rcases OrdMap.of_get_set hk with ⟨rfl, rfl⟩ | ⟨-, hk⟩
      · exact absurd hkj.symm hne
      · exact hl.2.2 k ek hk hkj
  · by_cases hne : j' = j
    · subst hne
      exact ⟨job, OrdMap.get_set_self _ _ _, hr⟩
    · have hl' : Latest s.executions j' i e' := by
        refine ⟨?_, hl.2.1, fun k ek hk hkj => hl.2.2 k ek (hold hk) hkj⟩
        rcases OrdMap.of_get_set hl.1 with ⟨rfl, rfl⟩ | ⟨-, hk⟩
        · exact absurd hl.2.1.symm hne
        · exact hk
      obtain ⟨job', hj', hr'⟩ := hi.undecided j' i e' hl' hu
      exact ⟨job', (OrdMap.get_set_of_ne _ _ hne).trans hj', hr'⟩

theorem Inv.scheduled (hi : Inv s) {job : Job} (hst : job.status ≠ .running) :
    Inv { s with jobs := s.jobs.set s.nextJob job, nextJob := s.nextJob + 1 } := by
  refine ⟨fun j job' h => ?_, fun i e h => ?_, fun j job' h hr => ?_, fun j i e hl hu => ?_⟩
  · rcases OrdMap.of_get_set h with ⟨rfl, -⟩ | ⟨-, h⟩
    · exact Nat.lt_succ_self _
    · exact (hi.job j job' h).trans (Nat.lt_succ_self _)
  · exact ⟨(hi.id i e h).1, (hi.id i e h).2.trans (Nat.lt_succ_self _)⟩
  · rcases OrdMap.of_get_set h with ⟨-, rfl⟩ | ⟨-, h⟩
    · exact absurd hr hst
    · exact hi.running j job' h hr
  · obtain ⟨job', hj, hr⟩ := hi.undecided j i e hl hu
    refine ⟨job', ?_, hr⟩
    have hlt := hi.job j job' hj
    exact (OrdMap.get_set_of_ne _ _ (by omega)).trans hj

theorem scheduleJob_status {jt : String} {ra : Option ℚ} {mr : Option JsNumber} {now : ℚ}
    {job : Job} (h : scheduleJob jt ra mr now = some job) : job.status = .pending
      ∧ job.lockedUntil = none ∧ job.retryCount = 0 := by
  obtain ⟨m, -, rfl⟩ := Option.map_eq_some_iff.1 h
  exact ⟨rfl, rfl, rfl⟩

theorem Inv.renewed (hi : Inv s) (w : String) (d : ℚ) :
    Inv { s with jobs := renewLease j w d s.now s.jobs } := by
  rcases hc : renewable j w d s.jobs with _ | job
  · simpa only [renewLease, hc] using hi
  · obtain ⟨-, hj, hlock, hr⟩ := renewable_eq_some hc
    simp only [renewLease, hc]
    refine hi.keep rfl rfl rfl (fun j' job' h => ?_) fun j' job' h hr' => ?_
    · rcases OrdMap.of_get_set h with ⟨rfl, rfl⟩ | ⟨-, h⟩
      · exact ⟨job, hj, fun _ => ⟨hr, rfl⟩⟩
      · exact ⟨job', h, fun hr' => ⟨hr', rfl⟩⟩
    · by_cases hne : j' = j
      · subst hne
        exact ⟨_, OrdMap.get_set_self _ _ _, hr⟩
      · exact ⟨job', (OrdMap.get_set_of_ne _ _ hne).trans h, hr'⟩

theorem Inv.move (hi : Inv s) (hm : Move s a s') (hh : Held s a) : Inv s' := by
  obtain ⟨jt, ra, mr, job, hj⟩ | ⟨jt, c, sk, hc⟩ | ⟨jt, c, sk, j, job, hc⟩ | ⟨id, e, error, hg, hph⟩
    | ⟨id, e, hg, hph⟩ | ⟨id, e, msg, hg, hph⟩ | ⟨id, e, hg, hph⟩ | ⟨id, e, hg, hph⟩
    | ⟨now, hle⟩ := hm
  · exact hi.scheduled (by simp [(scheduleJob_status hj).1])
  · exact hi
  · obtain ⟨-, job₀, hj, -, rfl⟩ := claimJob_eq_some hc
    exact hi.claimed hj rfl rfl
  · exact hi.goOn hg fun _ => by simp [hph, Phase.undecided]
  · exact hi.decided (by simp [Job.complete]) hg ⟨hg, rfl, hh id (by simp [decides]) e hg⟩ rfl
  · refine hi.decided (by simp [Job.fail]) hg ⟨hg, rfl, hh id (by simp [decides]) e hg⟩ ?_
    unfold afterFail
    split_ifs <;> rfl
  · have hk : Inv { s with routed := s.routed ++ [e.jobId] } := hi.keep rfl rfl rfl
      (fun _ job h => ⟨job, h, fun hr => ⟨hr, rfl⟩⟩) fun _ job h hr => ⟨job, h, hr⟩
    exact hk.goOn hg (by simp [Phase.undecided])
  · exact hi.renewed e.config.workerId e.config.leaseDurationMs
  · exact hi.keep rfl rfl rfl (fun _ job h => ⟨job, h, fun hr => ⟨hr, rfl⟩⟩)
      fun _ job h hr => ⟨job, h, hr⟩

theorem inv_run {h : List (Taken State Action)} (hr : Run sys h s) (hh : Along Held h) : Inv s := by
  refine hr.invariant_of (fun s hi => ?_) (fun s a s' hi hh hs => hi.move (step_move hs) hh) hh
  obtain ⟨now, rfl⟩ := hi
  exact ⟨by simp, by simp, by simp, by simp [Latest]⟩

def fields (job : Job) : Status × ℕ × Option ℚ × Option String :=
  (job.status, job.retryCount, job.lockedUntil, job.lockedBy)

/-- If the step changes a row, it is a claim of the job after its lease expired, or the worker of
the most recent claim takes it. -/
def OnlyHolder (t : Taken State Action) : Prop :=
  ∀ j job job', t.pre.jobs.get j = some job → t.post.jobs.get j = some job' →
    fields job' ≠ fields job →
    (∃ jt c sk, t.act = .claim jt c sk ∧ job.unlocked t.pre.now = true)
      ∨ ∃ id e i e', t.act.execution = some i ∧ t.pre.executions.get i = some e'
        ∧ Latest t.pre.executions j id e ∧ e'.config.workerId = e.config.workerId

def CompletedStays (t : Taken State Action) : Prop :=
  ∀ j job, t.pre.jobs.get j = some job → job.status = .completed →
    ∃ job', t.post.jobs.get j = some job' ∧ job'.status = .completed

/-- How often an execution decided its job. -/
def decisions (id : ℕ) (h : List (Taken State Action)) : ℕ :=
  (h.filter fun t => decides id t.act).length

theorem only_holder_update (hi : Inv s) {f : Job → Job} {b : Action}
    (ha : b.execution = some id) (hg : s.executions.get id = some e)
    (hlast : Latest s.executions e.jobId id e) (hu : e.phase.undecided = true) :
    OnlyHolder ⟨s, b, { s with jobs := update e.jobId f s.jobs }.goOn id e ph⟩
      ∧ CompletedStays ⟨s, b, { s with jobs := update e.jobId f s.jobs }.goOn id e ph⟩ := by
  have hget : ∀ j, ({ s with jobs := update e.jobId f s.jobs }.goOn id e ph : State).jobs.get j
      = if j = e.jobId then (s.jobs.get e.jobId).map f else s.jobs.get j := fun j => get_update
  refine ⟨fun j job job' h h' hne => ?_, fun j job h hst => ?_⟩
  · simp only [hget] at h'
    split_ifs at h' with hj
    · subst hj
      exact .inr ⟨id, e, id, e, ha, hg, hlast, rfl⟩
    · obtain rfl := Option.some.inj (h.symm.trans h')
      exact absurd rfl hne
  · refine ⟨job, ?_, hst⟩
    simp only [hget]
    rw [if_neg]
    · exact h
    · rintro rfl
      obtain ⟨job₀, hj₀, hr⟩ := hi.undecided _ id e hlast hu
      obtain rfl : job = job₀ := Option.some.inj (h.symm.trans hj₀)
      simp [hst] at hr

theorem only_holder_same {b : Action} (hjobs : ∀ j job, s.jobs.get j = some job →
    s'.jobs.get j = some job) : OnlyHolder ⟨s, b, s'⟩ ∧ CompletedStays ⟨s, b, s'⟩ := by
  refine ⟨fun j job job' h h' hne => ?_, fun j job h hst => ⟨job, hjobs j job h, hst⟩⟩
  obtain rfl := Option.some.inj ((hjobs j job h).symm.trans h')
  exact absurd rfl hne

theorem only_holder_step (hi : Inv s) (hh : Held s a) (hm : Move s a s') :
    OnlyHolder ⟨s, a, s'⟩ ∧ CompletedStays ⟨s, a, s'⟩ := by
  obtain ⟨jt, ra, mr, job, hj⟩ | ⟨jt, c, sk, hc⟩ | ⟨jt, c, sk, j, job, hc⟩ | ⟨id, e, error, hg, hph⟩
    | ⟨id, e, hg, hph⟩ | ⟨id, e, msg, hg, hph⟩ | ⟨id, e, hg, hph⟩ | ⟨id, e, hg, hph⟩
    | ⟨now, hle⟩ := hm
  · refine only_holder_same fun i job' h => ?_
    have hlt := hi.job i job' h
    exact (OrdMap.get_set_of_ne _ _ (by omega)).trans h
  · exact only_holder_same fun _ _ h => h
  · obtain ⟨-, job₀, hj, hcl, rfl⟩ := claimJob_eq_some hc
    obtain ⟨-, hst₀, hun, -⟩ := claimable_iff.1 hcl
    refine ⟨fun i job₁ job₂ h h' hne => ?_, fun i job₁ h hst => ⟨job₁, ?_, hst⟩⟩
    · rcases OrdMap.of_get_set h' with ⟨rfl, -⟩ | ⟨-, h'⟩
      · obtain rfl : job₀ = job₁ := Option.some.inj (hj.symm.trans h)
        exact .inl ⟨jt, c, sk, rfl, hun⟩
      · obtain rfl := Option.some.inj (h.symm.trans h')
        exact absurd rfl hne
    · refine (OrdMap.get_set_of_ne _ _ ?_).trans h
      rintro rfl
      obtain rfl : job₀ = job₁ := Option.some.inj (hj.symm.trans h)
      simp [hst] at hst₀
  · exact only_holder_same fun _ _ h => h
  · exact only_holder_update hi rfl hg ⟨hg, rfl, hh id (by simp [decides]) e hg⟩
      (by simp [hph, Phase.undecided])
  · exact only_holder_update hi rfl hg ⟨hg, rfl, hh id (by simp [decides]) e hg⟩
      (by simp [hph, Phase.undecided])
  · exact only_holder_same fun _ _ h => h
  · rcases hc : renewable e.jobId e.config.workerId e.config.leaseDurationMs s.jobs with _ | job
    · refine only_holder_same fun _ _ h => ?_
      simpa only [renewLease, hc] using h
    · obtain ⟨-, hj, hlock, hr⟩ := renewable_eq_some hc
      simp only [renewLease, hc]
      refine ⟨fun i job₁ job₂ h h' hne => ?_, fun i job₁ h hst => ⟨job₁, ?_, hst⟩⟩
      · rcases OrdMap.of_get_set h' with ⟨rfl, -⟩ | ⟨-, h'⟩
        · obtain ⟨k, ek, hl, hlock'⟩ := hi.running _ job hj hr
          exact .inr ⟨k, ek, id, e, rfl, hg, hl, Option.some.inj (hlock.symm.trans hlock')⟩
        · obtain rfl := Option.some.inj (h.symm.trans h')
          exact absurd rfl hne
      · refine (OrdMap.get_set_of_ne _ _ ?_).trans h
        rintro rfl
        obtain rfl : job = job₁ := Option.some.inj (hj.symm.trans h)
        simp [hst] at hr
  · exact only_holder_same fun _ _ h => h

theorem decisions_cons (t : Taken State Action) (h : List (Taken State Action)) :
    decisions id (t :: h) = (if decides id t.act then 1 else 0) + decisions id h := by
  unfold decisions
  rw [List.filter_cons]
  split_ifs
  · rw [List.length_cons, add_comm]
  · rw [zero_add]

/-- The execution has decided its job. -/
def Decided (executions : OrdMap ℕ Execution) (id : ℕ) : Prop :=
  ∃ e, executions.get id = some e ∧ e.phase.undecided = false

theorem Decided.set (hd : Decided x i) (hg : x.get id = some e)
    (hu : e.phase.undecided = false → ph.undecided = false) :
    Decided (x.set id { e with phase := ph }) i := by
  obtain ⟨e', hg', hu'⟩ := hd
  by_cases hi : i = id
  · subst hi
    obtain rfl : e = e' := Option.some.inj (hg.symm.trans hg')
    exact ⟨_, OrdMap.get_set_self _ _ _, hu hu'⟩
  · exact ⟨e', (OrdMap.get_set_of_ne _ _ hi).trans hg', hu'⟩

theorem afterFail_decided (e : Execution) : (afterFail e).undecided = false := by
  unfold afterFail
  split_ifs <;> rfl

/-- What a step does to who has decided: a decision is the first of its execution. -/
theorem Move.decided (hm : Move s a s')
    (hid : ∀ id e, s.executions.get id = some e → id < s.nextExecution) :
    (∀ id e, s'.executions.get id = some e → id < s'.nextExecution)
      ∧ (∀ id, Decided s.executions id → Decided s'.executions id)
      ∧ ∀ id, decides id a = true → ¬ Decided s.executions id ∧ Decided s'.executions id := by
  have hset : ∀ {x : State} {id e ph}, s.executions.get id = some e →
      x.executions = s.executions.set id { e with phase := ph } →
      x.nextExecution = s.nextExecution →
      ∀ i e', x.executions.get i = some e' → i < x.nextExecution := by
    intro x id e ph hg hx hn i e' h
    rw [hx] at h
    rw [hn]
    rcases OrdMap.of_get_set h with ⟨rfl, -⟩ | ⟨-, h⟩
    · exact hid _ e hg
    · exact hid i e' h
  have hnow : ∀ {id e ph}, s.executions.get id = some e → e.phase.undecided = true →
      ph.undecided = false → ¬ Decided s.executions id
        ∧ Decided (s.executions.set id { e with phase := ph }) id := by
    intro id e ph hg hu hph
    refine ⟨?_, _, OrdMap.get_set_self _ _ _, hph⟩
    rintro ⟨e', hg', hu'⟩
    obtain rfl : e = e' := Option.some.inj (hg.symm.trans hg')
    simp [hu] at hu'
  obtain ⟨jt, ra, mr, job, hj⟩ | ⟨jt, c, sk, hc⟩ | ⟨jt, c, sk, j, job, hc⟩ | ⟨id, e, error, hg, hph⟩
    | ⟨id, e, hg, hph⟩ | ⟨id, e, msg, hg, hph⟩ | ⟨id, e, hg, hph⟩ | ⟨id, e, hg, hph⟩
    | ⟨now, hle⟩ := hm
  · exact ⟨hid, fun _ hd => hd, by simp [decides]⟩
  · exact ⟨hid, fun _ hd => hd, by simp [decides]⟩
  · refine ⟨fun i e' h => ?_, fun i ⟨e', hg', hu'⟩ => ⟨e', ?_, hu'⟩, by simp [decides]⟩
    · rcases OrdMap.of_get_set h with ⟨rfl, -⟩ | ⟨-, h⟩
      · exact Nat.lt_succ_self _
      · exact (hid i e' h).trans (Nat.lt_succ_self _)
    · have hlt := hid i e' hg'
      exact (OrdMap.get_set_of_ne _ _ (by omega)).trans hg'
  · exact ⟨hset hg rfl rfl, fun i hd => hd.set hg (by simp [hph, Phase.undecided]),
      by simp [decides]⟩
  · refine ⟨hset hg rfl rfl, fun i hd => hd.set hg fun _ => rfl, fun i hi => ?_⟩
    obtain rfl : id = i := by simpa [decides] using hi
    exact hnow hg (by simp [hph, Phase.undecided]) rfl
  · refine ⟨hset hg rfl rfl, fun i hd => hd.set hg fun _ => afterFail_decided e, fun i hi => ?_⟩
    obtain rfl : id = i := by simpa [decides] using hi
    exact hnow hg (by simp [hph, Phase.undecided]) (afterFail_decided e)
  · exact ⟨hset hg rfl rfl, fun i hd => hd.set hg fun _ => rfl, by simp [decides]⟩
  · exact ⟨hid, fun _ hd => hd, by simp [decides]⟩
  · exact ⟨hid, fun _ hd => hd, by simp [decides]⟩

theorem decisions_run {h : List (Taken State Action)} (hr : Run sys h s) :
    (∀ id e, s.executions.get id = some e → id < s.nextExecution)
      ∧ ∀ id, decisions id h = 0 ∨ (decisions id h = 1 ∧ Decided s.executions id) := by
  induction hr with
  | start hi =>
    obtain ⟨now, rfl⟩ := hi
    exact ⟨by simp, fun id => .inl rfl⟩
  | next hr hs ih =>
    obtain ⟨hid', hstay, hfirst⟩ := (step_move hs).decided ih.1
    refine ⟨hid', fun id => ?_⟩
    rw [decisions_cons]
    split_ifs with hd
    · obtain ⟨hnot, hdec⟩ := hfirst id hd
      rcases ih.2 id with h0 | ⟨-, h1⟩
      · exact .inr ⟨by omega, hdec⟩
      · exact absurd h1 hnot
    · rcases ih.2 id with h0 | ⟨h1, hdec⟩
      · exact .inl (by omega)
      · exact .inr ⟨by omega, hstay id hdec⟩

/-- If a job is only decided for the most recent claim of it, only the worker of that claim changes
the row, a completed job stays completed, and a claim leads to at most one decision. -/
theorem only_holder_decides {h : List (Taken State Action)} (hr : Run sys h s)
    (hh : Along Held h) : (∀ t ∈ h, OnlyHolder t ∧ CompletedStays t) ∧ ∀ id, decisions id h ≤ 1 := by
  refine ⟨fun t ht => ?_, fun id => ?_⟩
  · obtain ⟨e, hre, hhe, hht, hs⟩ := hr.taken_along hh ht
    exact only_holder_step (inv_run hre hhe) hht (step_move hs)
  · rcases (decisions_run hr).2 id with h0 | ⟨h1, -⟩ <;> omega

def workerA : Config := ⟨"a", 30000, true⟩

def workerB : Config := ⟨"b", 30000, true⟩

instance (s : State) (a : Action) : Decidable (Held s a) :=
  decidable_of_iff (∀ x ∈ s.executions.entries, decides x.1 a = true →
      ∀ y ∈ s.executions.entries, y.2.jobId = x.2.jobId → y.1 ≤ x.1)
    ⟨fun h id hd e hg id' e' hg' hj =>
        h (id, e) (OrdMap.mem_entries_iff.2 hg) hd (id', e') (OrdMap.mem_entries_iff.2 hg') hj,
      fun h x hx hd y hy hj =>
        h x.1 hd x.2 (OrdMap.mem_entries_iff.1 hx) y.1 y.2 (OrdMap.mem_entries_iff.1 hy) hj⟩

/-- A lease runs out, and the worker that claims the job next completes it; the first is still at
it. -/
theorem only_holder_decides_lapse : ∃ h s, Run sys h s
    ∧ (s.jobs.get 0).map (·.status) = some .completed
    ∧ (∀ t ∈ h, OnlyHolder t ∧ CompletedStays t) ∧ ∀ id, decisions id h ≤ 1 := by
  obtain ⟨h, s, hr, ht⟩ := Sys.exists_run (S := sys) ⟨0, rfl⟩
    [.schedule "job" none none, .claim "job" workerA [], .tick 30000, .claim "job" workerB [],
      .renew 1, .handled 1 none, .complete 1, .handled 0 none]
    (p := fun x => decide ((∀ t ∈ x.1, Held t.pre t.act)
      ∧ (x.2.jobs.get 0).map (·.status) = some .completed)) (by decide +kernel)
  obtain ⟨hh, hst⟩ := of_decide_eq_true ht
  exact ⟨h, s, hr, hst, only_holder_decides hr hh⟩

theorem not_onlyHolder {t : Taken State Action} {i k : ℕ} {ek : Execution} {job job' : Job}
    (hact : t.act.execution = some i) (hjob : t.pre.jobs.get j = some job)
    (hjob' : t.post.jobs.get j = some job') (hne : fields job' ≠ fields job)
    (hi : t.pre.executions.get i = some e) (hl : Latest t.pre.executions j k ek)
    (hw : e.config.workerId ≠ ek.config.workerId) : ¬ OnlyHolder t := by
  intro ho
  rcases ho j job job' hjob hjob' hne with ⟨jt, c, sk, ha, -⟩ | ⟨k', ek', i', e', ha, hi', hl', hw'⟩
  · simp [ha, Action.execution] at hact
  · obtain rfl : i = i' := Option.some.inj (hact.symm.trans ha)
    obtain rfl : e = e' := Option.some.inj (hi.symm.trans hi')
    obtain ⟨-, rfl⟩ := hl.unique hl'
    exact hw hw'

/-- The worker whose lease ran out completes the job of the other, which then fails it. -/
theorem stale_worker_decides : ∃ h s, Run sys h s ∧ (∃ t ∈ h, t.act = .complete 0 ∧ ¬ OnlyHolder t)
    ∧ ∃ t ∈ h, t.act = .fail 1 ∧ ¬ CompletedStays t := by
  obtain ⟨h, s, hr, ht⟩ := Sys.exists_run (S := sys) ⟨0, rfl⟩
    [.schedule "job" none none, .claim "job" workerA [], .tick 30000, .claim "job" workerB [],
      .handled 0 none, .complete 0, .handled 1 (some "error"), .fail 1]
    (p := fun x => decide ((∃ t ∈ x.1, t.act = .complete 0
        ∧ (t.pre.jobs.get 0).map (·.status) = some .running
        ∧ (t.post.jobs.get 0).map (·.status) = some .completed
        ∧ (t.pre.executions.get 0).map (·.config.workerId) = some "a"
        ∧ (t.pre.executions.get 1).map (fun e => (e.jobId, e.config.workerId)) = some (0, "b")
        ∧ ∀ y ∈ t.pre.executions.entries, y.1 ≤ 1)
      ∧ ∃ t ∈ x.1, t.act = .fail 1 ∧ (t.pre.jobs.get 0).map (·.status) = some .completed
        ∧ (t.post.jobs.get 0).map (·.status) = some .failed)) (by decide +kernel)
  obtain ⟨⟨t, htm, ha, hj, hj', h0, h1, hmax⟩, u, hum, hua, hu, hu'⟩ := of_decide_eq_true ht
  obtain ⟨job, hjob, hst⟩ := Option.map_eq_some_iff.1 hj
  obtain ⟨job', hjob', hst'⟩ := Option.map_eq_some_iff.1 hj'
  obtain ⟨e, he, hw⟩ := Option.map_eq_some_iff.1 h0
  obtain ⟨ek, hek, hkey⟩ := Option.map_eq_some_iff.1 h1
  obtain ⟨hkj, hkw⟩ := Prod.mk.inj hkey
  have hl : Latest t.pre.executions 0 1 ek :=
    ⟨hek, hkj, fun id' e' hg _ => hmax (id', e') (OrdMap.mem_entries_iff.2 hg)⟩
  refine ⟨h, s, hr, ⟨t, htm, ha, ?_⟩, u, hum, hua, fun hc => ?_⟩
  · exact not_onlyHolder (by rw [ha]; rfl) hjob hjob' (by simp [fields, hst, hst']) he hl
      (by rw [hw, hkw]; decide)
  · obtain ⟨job₁, hj₁, hst₁⟩ := Option.map_eq_some_iff.1 hu
    obtain ⟨job₂, hj₂, hst₂⟩ := hc 0 job₁ hj₁ hst₁
    rw [hj₂, Option.map_some, hst₂] at hu'
    simp at hu'

end Holders

end Worker

end Jobs

end VeriNode
