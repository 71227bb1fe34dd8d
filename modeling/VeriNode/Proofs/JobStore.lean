import VeriNode.Scheduler.JobStore

/-!
# When a lease is exclusive

A job that is leased cannot be claimed before the lease ends, whoever does what in the meantime,
unless it is completed or failed (`lease_stands`). The lease ends the whole seconds of its duration
after it was granted, so it is exclusive for its duration exactly if that is whole seconds, or more
than the column takes, in which case it is never granted (`exclusive_iff`).
-/

namespace VeriNode

namespace Jobs

section Rows

variable {jobs : Table} {jobType workerId : String} {d now : ℚ} {skipped : List ℕ} {id j : ℕ}
  {job job' : Job}

theorem earliest_mem : ∀ {xs : List (ℕ × Job)} {x : ℕ × Job}, earliest xs = some x → x ∈ xs
  | [], _, h => by simp [earliest] at h
  | y :: ys, x, h => by
    unfold earliest at h
    rcases he : earliest ys with _ | z <;> simp only [he] at h
    · simp [← Option.some.inj h]
    · split_ifs at h
      · obtain rfl := Option.some.inj h
        exact List.mem_cons_of_mem _ (earliest_mem he)
      · simp [← Option.some.inj h]

theorem earliest_isSome : ∀ {xs : List (ℕ × Job)} {x : ℕ × Job}, x ∈ xs → (earliest xs).isSome
  | [], _, h => by simp at h
  | y :: ys, x, _ => by
    unfold earliest
    split
    · rfl
    · split_ifs <;> rfl

theorem claimJob_eq_some (h : claimJob jobType workerId d now skipped jobs = some (id, job')) :
    int4 (leaseSeconds d) = true ∧ ∃ job, jobs.get id = some job
      ∧ job.claimable jobType now = true ∧ job' = { job with
          status := .running
          lockedUntil := some (leaseEnd d now)
          lockedBy := some workerId } := by
  unfold claimJob at h
  split_ifs at h with hi
  obtain ⟨⟨i, job⟩, he, hx⟩ := Option.map_eq_some_iff.1 h
  obtain ⟨rfl, rfl⟩ := Prod.mk.inj hx
  obtain ⟨hm, hc⟩ := List.mem_filter.1 (earliest_mem he)
  simp only [Bool.and_eq_true] at hc
  exact ⟨hi, job, OrdMap.mem_entries_iff.1 hm, hc.1, rfl⟩

theorem claimable_iff : job.claimable jobType now = true ↔ job.jobType = jobType
    ∧ (job.status = .pending ∨ job.status = .running) ∧ job.unlocked now = true
    ∧ job.runAt ≤ now := by
  simp [Job.claimable, and_assoc]

theorem get_update {f : Job → Job} :
    (update id f jobs).get j = if j = id then (jobs.get id).map f else jobs.get j := by
  unfold update
  rcases h : jobs.get id with _ | job <;> simp only []
  · split_ifs with hj
    · rw [hj, h, Option.map_none]
    · rfl
  · rw [OrdMap.get_set, Option.map_some]

theorem renewable_eq_some (h : renewable id workerId d jobs = some job) :
    int4 (leaseSeconds d) = true ∧ jobs.get id = some job ∧ job.lockedBy = some workerId
      ∧ job.status = .running := by
  unfold renewable at h
  split_ifs at h with hi
  obtain ⟨hg, hp⟩ := Option.filter_eq_some_iff.1 h
  simp only [Bool.and_eq_true, decide_eq_true_eq] at hp
  exact ⟨hi, hg, hp⟩

theorem get_purgeCompleted {olderThan : ℚ} (h : jobs.get id = some job)
    (hr : job.status = .running) : (purgeCompleted olderThan jobs).get id = some job := by
  rw [← OrdMap.mem_entries_iff] at h ⊢
  exact List.mem_filter.2 ⟨h, by simp [hr]⟩

theorem leaseEnd_mono {now' : ℚ} (h : now ≤ now') : leaseEnd d now ≤ leaseEnd d now' := by
  unfold leaseEnd
  linarith

end Rows

namespace Store

section Leases

/-- The step returns the job from a claim. -/
def Claims (d : ℚ) (s : State) (j : ℕ) : Action → Prop
  | .claim jobType workerId skipped =>
    ∃ job, claimJob jobType workerId d s.now skipped s.jobs = some (j, job)
  | _ => False

/-- The step grants a lease on the job. -/
def Grants (d : ℚ) (s : State) (j : ℕ) : Action → Prop
  | .claim jobType workerId skipped =>
    ∃ job, claimJob jobType workerId d s.now skipped s.jobs = some (j, job)
  | .renew jobId workerId => jobId = j ∧ ∃ job, renewable jobId workerId d s.jobs = some job
  | _ => False

/-- The step completes or fails the job. -/
def Ends (j : ℕ) : Action → Prop
  | .complete jobId => jobId = j
  | .fail jobId _ => jobId = j
  | _ => False

/-- After a lease is granted, no claim returns the job within the duration, unless it was
completed or failed in between. -/
def Exclusive (d : ℚ) (h : List (Taken State Action)) : Prop :=
  ∀ j later t m t₀ earlier, h = later ++ t :: (m ++ t₀ :: earlier) → Grants d t₀.pre j t₀.act →
    Claims d t.pre j t.act → t.pre.now < t₀.pre.now + d → ∃ u ∈ m, Ends j u.act

/-- What a step does, by what it finds. -/
inductive Step (d : ℚ) (s : State) : Action → State → Prop
  | scheduled {jobType : String} {runAt : Option ℚ} {maxRetries : Option JsNumber} {job : Job}
      (h : scheduleJob jobType runAt maxRetries s.now = some job) :
      Step d s (.schedule jobType runAt maxRetries)
        { s with jobs := s.jobs.set s.nextId job, nextId := s.nextId + 1 }
  | unclaimed {jobType workerId : String} {skipped : List ℕ}
      (h : claimJob jobType workerId d s.now skipped s.jobs = none) :
      Step d s (.claim jobType workerId skipped) s
  | claimed {jobType workerId : String} {skipped : List ℕ} {id : ℕ} {job : Job}
      (h : claimJob jobType workerId d s.now skipped s.jobs = some (id, job)) :
      Step d s (.claim jobType workerId skipped) { s with jobs := s.jobs.set id job }
  | completed {jobId : ℕ} :
      Step d s (.complete jobId) { s with jobs := completeJob jobId s.jobs }
  | failed {jobId : ℕ} {errorMessage : String} :
      Step d s (.fail jobId errorMessage) { s with jobs := failJob jobId errorMessage s.jobs }
  | unrenewed {jobId : ℕ} {workerId : String} (h : renewable jobId workerId d s.jobs = none) :
      Step d s (.renew jobId workerId) s
  | renewed {jobId : ℕ} {workerId : String} {job : Job}
      (h : renewable jobId workerId d s.jobs = some job) :
      Step d s (.renew jobId workerId)
        { s with jobs := s.jobs.set jobId { job with lockedUntil := some (leaseEnd d s.now) } }
  | purged {olderThan : ℚ} :
      Step d s (.purge olderThan) { s with jobs := purgeCompleted olderThan s.jobs }
  | ticked {now : ℚ} (h : s.now ≤ now) : Step d s (.tick now) { s with now := now }

/-- The job is leased until then, at least. -/
def Leased (j : ℕ) (u : ℚ) (jobs : Table) : Prop :=
  ∃ job, jobs.get j = some job ∧ job.status = .running ∧ ∃ e, job.lockedUntil = some e ∧ u ≤ e

variable {d u : ℚ} {s s' : State} {a : Action} {j : ℕ} {jobs : Table}

theorem step_of (hs : Store.step d s a = some s') : Step d s a s' := by
  rcases a with ⟨jt, ra, mr⟩ | ⟨jt, w, sk⟩ | i | ⟨i, msg⟩ | ⟨i, w⟩ | o | t <;>
    simp only [Store.step] at hs
  · rcases hn : scheduleJob jt ra mr s.now with _ | new <;> simp only [hn, reduceCtorEq] at hs
    obtain rfl := Option.some.inj hs
    exact .scheduled hn
  · rcases hc : claimJob jt w d s.now sk s.jobs with _ | ⟨i, new⟩ <;> simp only [hc] at hs
    · obtain rfl := Option.some.inj hs
      exact .unclaimed hc
    · obtain rfl := Option.some.inj hs
      exact .claimed hc
  · obtain rfl := Option.some.inj hs
    exact .completed
  · obtain rfl := Option.some.inj hs
    exact .failed
  · rcases hc : renewable i w d s.jobs with _ | new <;> simp only [renewLease, hc] at hs
    · obtain rfl := Option.some.inj hs
      exact .unrenewed hc
    · obtain rfl := Option.some.inj hs
      exact .renewed hc
  · obtain rfl := Option.some.inj hs
    exact .purged
  · split_ifs at hs with ht
    obtain rfl := Option.some.inj hs
    exact .ticked ht

theorem Leased.set_of_ne (hl : Leased j u jobs) {i : ℕ} {job : Job} (h : i ≠ j) :
    Leased j u (jobs.set i job) := by
  obtain ⟨job₀, hj, hrest⟩ := hl
  exact ⟨job₀, by rw [OrdMap.get_set_of_ne _ _ h.symm, hj], hrest⟩

theorem Leased.update_of_ne (hl : Leased j u jobs) {i : ℕ} {f : Job → Job} (h : i ≠ j) :
    Leased j u (update i f jobs) := by
  obtain ⟨job₀, hj, hrest⟩ := hl
  exact ⟨job₀, by rw [get_update, if_neg h.symm, hj], hrest⟩

theorem Leased.not_claimed (hl : Leased j u jobs) {jobType workerId : String} {now : ℚ}
    {skipped : List ℕ} {job : Job} (hu : now < u) :
    claimJob jobType workerId d now skipped jobs ≠ some (j, job) := by
  intro h
  obtain ⟨-, job₀, hj, hc, -⟩ := claimJob_eq_some h
  obtain ⟨job₁, hj', -, e, he, hle⟩ := hl
  obtain rfl : job₀ = job₁ := Option.some.inj (hj.symm.trans hj')
  have hun := (claimable_iff.1 hc).2.2.1
  simp only [Job.unlocked, he, decide_eq_true_eq] at hun
  linarith

theorem leased_claim {jobType workerId : String} {skipped : List ℕ} {now : ℚ} {job : Job}
    (h : claimJob jobType workerId d now skipped jobs = some (j, job)) :
    Leased j (leaseEnd d now) (jobs.set j job) := by
  obtain ⟨-, job₀, -, -, rfl⟩ := claimJob_eq_some h
  exact ⟨_, OrdMap.get_set_self _ _ _, rfl, _, rfl, le_rfl⟩

theorem leased_renew {workerId : String} {job : Job} (now : ℚ)
    (h : renewable j workerId d jobs = some job) :
    Leased j (leaseEnd d now)
      (jobs.set j { job with lockedUntil := some (leaseEnd d now) }) := by
  obtain ⟨-, -, -, hr⟩ := renewable_eq_some h
  exact ⟨_, OrdMap.get_set_self _ _ _, hr, _, rfl, le_rfl⟩

theorem Leased.mono {v : ℚ} (hl : Leased j u jobs) (h : v ≤ u) : Leased j v jobs := by
  obtain ⟨job, hj, hr, e, hlock, hle⟩ := hl
  exact ⟨job, hj, hr, e, hlock, h.trans hle⟩

theorem Leased.step (hl : Leased j u s.jobs)
    (hid : ∀ id job, s.jobs.get id = some job → id < s.nextId)
    (hu : u ≤ leaseEnd d s.now) (hs : Store.step d s a = some s') (he : ¬ Ends j a) :
    Leased j u s'.jobs := by
  obtain ⟨job, hj, hr, e, hlock, hle⟩ := id hl
  cases step_of hs with
  | scheduled _ =>
    have := hid j job hj
    exact hl.set_of_ne (by omega)
  | unclaimed _ => exact hl
  | @claimed _ _ _ i _ hc =>
    by_cases hij : i = j
    · subst hij
      exact (leased_claim hc).mono hu
    · exact hl.set_of_ne hij
  | completed => exact hl.update_of_ne he
  | failed => exact hl.update_of_ne he
  | unrenewed _ => exact hl
  | @renewed i _ _ hc =>
    by_cases hij : i = j
    · subst hij
      exact (leased_renew s.now hc).mono hu
    · exact hl.set_of_ne hij
  | purged => exact ⟨job, get_purgeCompleted hj hr, hr, e, hlock, hle⟩
  | ticked _ => exact hl

/-- A job that is there after a step was there before, or is the one that was scheduled. -/
theorem get_of_step (hs : Store.step d s a = some s') {i : ℕ} {job : Job}
    (hg : s'.jobs.get i = some job) :
    (∃ job₀, s.jobs.get i = some job₀) ∨ i < s'.nextId := by
  have hset : ∀ {k : ℕ} {new old : Job}, s.jobs.get k = some old →
      (s.jobs.set k new).get i = some job → ∃ job₀, s.jobs.get i = some job₀ := by
    intro k new old hk h
    rcases OrdMap.of_get_set h with ⟨rfl, -⟩ | ⟨-, h⟩
    · exact ⟨old, hk⟩
    · exact ⟨job, h⟩
  have hupdate : ∀ {k : ℕ} {f : Job → Job}, (update k f s.jobs).get i = some job →
      ∃ job₀, s.jobs.get i = some job₀ := by
    intro k f h
    rw [get_update] at h
    split_ifs at h with hi
    · obtain ⟨job₀, hj, -⟩ := Option.map_eq_some_iff.1 h
      exact ⟨job₀, by rw [hi, hj]⟩
    · exact ⟨job, h⟩
  cases step_of hs with
  | scheduled _ =>
    rcases OrdMap.of_get_set hg with ⟨rfl, -⟩ | ⟨-, hg⟩
    · exact .inr (Nat.lt_succ_self _)
    · exact .inl ⟨job, hg⟩
  | unclaimed _ => exact .inl ⟨job, hg⟩
  | claimed hc =>
    obtain ⟨-, old, hj, -⟩ := claimJob_eq_some hc
    exact .inl (hset hj hg)
  | completed => exact .inl (hupdate hg)
  | failed => exact .inl (hupdate hg)
  | unrenewed _ => exact .inl ⟨job, hg⟩
  | renewed hc => exact .inl (hset (renewable_eq_some hc).2.1 hg)
  | purged =>
    rw [← OrdMap.mem_entries_iff] at hg
    exact .inl ⟨job, OrdMap.mem_entries_iff.1 (List.mem_filter.1 hg).1⟩
  | ticked _ => exact .inl ⟨job, hg⟩

theorem step_mono (hs : Store.step d s a = some s') : s.now ≤ s'.now ∧ s.nextId ≤ s'.nextId := by
  cases step_of hs with
  | scheduled _ => exact ⟨le_rfl, Nat.le_succ _⟩
  | unclaimed _ => exact ⟨le_rfl, le_rfl⟩
  | claimed _ => exact ⟨le_rfl, le_rfl⟩
  | completed => exact ⟨le_rfl, le_rfl⟩
  | failed => exact ⟨le_rfl, le_rfl⟩
  | unrenewed _ => exact ⟨le_rfl, le_rfl⟩
  | renewed _ => exact ⟨le_rfl, le_rfl⟩
  | purged => exact ⟨le_rfl, le_rfl⟩
  | ticked ht => exact ⟨ht, le_rfl⟩

theorem id_lt (h : (sys d).Reachable s) : ∀ id job, s.jobs.get id = some job → id < s.nextId := by
  refine h.invariant (P := fun s => ∀ id job, s.jobs.get id = some job → id < s.nextId)
    (fun s hi => ?_) (fun s a s' hid hs id job hg => ?_)
  · obtain ⟨now, rfl⟩ := hi
    simp
  · rcases get_of_step hs hg with ⟨job₀, hj⟩ | hlt
    · exact (hid id job₀ hj).trans_le (step_mono hs).2
    · exact hlt

theorem leased_of_grants (hg : Grants d s j a) (hs : Store.step d s a = some s') :
    Leased j (leaseEnd d s.now) s'.jobs := by
  cases step_of hs with
  | scheduled _ => exact hg.elim
  | unclaimed hc =>
    obtain ⟨job, hg⟩ := hg
    simp [hc] at hg
  | claimed hc =>
    obtain ⟨job, hg⟩ := hg
    obtain ⟨rfl, -⟩ := Prod.mk.inj (Option.some.inj (hc.symm.trans hg))
    exact leased_claim hc
  | completed => exact hg.elim
  | failed => exact hg.elim
  | unrenewed hc =>
    obtain ⟨-, job, hg⟩ := hg
    simp [hc] at hg
  | renewed hc =>
    obtain ⟨rfl, -⟩ := hg
    exact leased_renew s.now hc
  | purged => exact hg.elim
  | ticked _ => exact hg.elim

theorem lease_stands {h : List (Taken State Action)} (hr : Run (sys d) h s) :
    ∀ {m : List (Taken State Action)} {t₀ : Taken State Action}
      {earlier : List (Taken State Action)}, h = m ++ t₀ :: earlier →
      Grants d t₀.pre j t₀.act → (∀ u ∈ m, ¬ Ends j u.act) →
      Leased j (leaseEnd d t₀.pre.now) s.jobs ∧ t₀.pre.now ≤ s.now := by
  induction hr with
  | start _ => intro m t₀ earlier he; simp at he
  | next hr hs ih =>
    intro m t₀ earlier he hg hm
    rcases m with _ | ⟨u, m⟩
    · simp only [List.nil_append, List.cons.injEq] at he
      obtain ⟨rfl, rfl⟩ := he
      exact ⟨leased_of_grants hg hs, (step_mono hs).1⟩
    · simp only [List.cons_append, List.cons.injEq] at he
      obtain ⟨rfl, he⟩ := he
      obtain ⟨hl, hle⟩ := ih he hg fun u hu => hm u (List.mem_cons_of_mem _ hu)
      exact ⟨hl.step (id_lt hr.reachable) (leaseEnd_mono hle) hs (hm _ List.mem_cons_self),
        hle.trans (step_mono hs).1⟩

theorem not_grants (hi : int4 (leaseSeconds d) = false) : ¬ Grants d s j a := by
  rcases a with ⟨jt, ra, mr⟩ | ⟨jt, w, sk⟩ | i | ⟨i, msg⟩ | ⟨i, w⟩ | o | t
  · exact id
  · rintro ⟨job, hc⟩
    simp [(claimJob_eq_some hc).1] at hi
  · exact id
  · exact id
  · rintro ⟨-, job, hc⟩
    simp [(renewable_eq_some hc).1] at hi
  · exact id
  · exact id

theorem exclusive_of_whole {h : List (Taken State Action)} (hr : Run (sys d) h s)
    (hd : (leaseSeconds d : ℚ) * 1000 = d ∨ int4 (leaseSeconds d) = false) : Exclusive d h := by
  intro j later t m t₀ earlier he hg hc hlt
  rcases hd with hd | hd
  · by_contra hno
    have hm : ∀ u ∈ m, ¬ Ends j u.act := fun u hu hend => hno ⟨u, hu, hend⟩
    obtain ⟨hl, -⟩ := lease_stands (hr.split he).1 rfl hg hm
    have hend : leaseEnd d t₀.pre.now = t₀.pre.now + d := by
      unfold leaseEnd
      linarith
    rcases ha : t.act with ⟨jt, ra, mr⟩ | ⟨jt, w, sk⟩ | i | ⟨i, msg⟩ | ⟨i, w⟩ | o | n <;>
      rw [ha] at hc
    · exact hc
    · obtain ⟨job, hc⟩ := hc
      exact hl.not_claimed (by rw [hend]; exact hlt) hc
    · exact hc
    · exact hc
    · exact hc
    · exact hc
    · exact hc
  · exact absurd hg (not_grants hd)

theorem claimJob_single (workerId : String) {jobType : String} {now : ℚ} {job : Job}
    (hi : int4 (leaseSeconds d) = true) (hc : job.claimable jobType now = true) :
    claimJob jobType workerId d now [] ((∅ : Table).set 0 job)
      = some (0, { job with
          status := .running
          lockedUntil := some (leaseEnd d now)
          lockedBy := some workerId }) := by
  have he : ((∅ : Table).set 0 job).entries = [(0, job)] := rfl
  simp [claimJob, hi, he, hc, earliest]

/-- If the duration is no whole seconds, a job claimed at time 0 can be claimed again when the
whole seconds are over. -/
theorem exists_lapse (hd : 0 < d) (hi : int4 (leaseSeconds d) = true)
    (hw : (leaseSeconds d : ℚ) * 1000 ≠ d) : ∃ h s, Run (sys d) h s ∧ ¬ Exclusive d h
      ∧ h.map (·.act) = [.claim "job" "b" [], .tick (1000 * leaseSeconds d),
        .claim "job" "a" [], .schedule "job" none none] := by
  have hsec : (0 : ℤ) ≤ leaseSeconds d := Int.floor_nonneg.2 (by positivity)
  have hle : (leaseSeconds d : ℚ) ≤ d / 1000 := Int.floor_le _
  have hlt : 1000 * (leaseSeconds d : ℚ) < d := by
    refine lt_of_le_of_ne ?_ fun he => hw (by linarith)
    linarith
  have hpos : (0 : ℚ) ≤ 1000 * leaseSeconds d := by positivity
  obtain ⟨job, hjob, hst, hrun, htype, hlock⟩ : ∃ job, scheduleJob "job" none none 0 = some job
      ∧ job.status = .pending ∧ job.runAt = 0 ∧ job.jobType = "job" ∧ job.lockedUntil = none :=
    ⟨_, rfl, rfl, rfl, rfl, rfl⟩
  have hfirst := claimJob_single "a" hi
    (claimable_iff.2 ⟨htype, .inl hst, by simp [Job.unlocked, hlock], hrun.le⟩)
  set job₁ : Job := { job with
    status := .running
    lockedUntil := some (leaseEnd d 0)
    lockedBy := some "a" } with hjob₁
  set now : ℚ := 1000 * leaseSeconds d with hnow
  have hdue : job₁.claimable "job" now = true :=
    claimable_iff.2 ⟨htype, .inr rfl, by simp [Job.unlocked, hjob₁, leaseEnd, hnow],
      hrun.trans_le hpos⟩
  have hagain := claimJob_single "b" hi hdue
  have hstart : Run (sys d) [] { now := 0 } := .start ⟨0, rfl⟩
  have hscheduled : (sys d).step { now := 0 } (.schedule "job" none none)
      = some ⟨0, (∅ : Table).set 0 job, 1⟩ := by simp [sys, Store.step, hjob]
  have hclaimed : (sys d).step ⟨0, (∅ : Table).set 0 job, 1⟩ (.claim "job" "a" [])
      = some ⟨0, (∅ : Table).set 0 job₁, 1⟩ := by
    simp only [sys, Store.step, hfirst]
    rfl
  have hticked : (sys d).step ⟨0, (∅ : Table).set 0 job₁, 1⟩ (.tick now)
      = some ⟨now, (∅ : Table).set 0 job₁, 1⟩ := by simp [sys, Store.step, hpos]
  rcases hlast : (sys d).step ⟨now, (∅ : Table).set 0 job₁, 1⟩ (.claim "job" "b" []) with _ | s
  · simp [sys, Store.step, hagain] at hlast
  refine ⟨_, s, (((hstart.next hscheduled).next hclaimed).next hticked).next hlast, fun hx => ?_,
    rfl⟩
  obtain ⟨u, hu, he⟩ := hx 0 [] _ [_] _ _ rfl ⟨_, hfirst⟩ ⟨_, hagain⟩ (by simpa using hlt)
  obtain rfl := List.mem_singleton.1 hu
  exact he

/-- A lease is exclusive for its duration, in every run, exactly if the duration is whole seconds,
or more seconds than an `INTEGER` can be. -/
theorem exclusive_iff (hd : 0 < d) : (∀ h s, Run (sys d) h s → Exclusive d h)
    ↔ (leaseSeconds d : ℚ) * 1000 = d ∨ int4 (leaseSeconds d) = false := by
  constructor
  · intro hall
    by_contra hno
    simp only [not_or, Bool.not_eq_false] at hno
    obtain ⟨h, s, hr, hx, -⟩ := exists_lapse hd hno.2 hno.1
    exact hx (hall h s hr)
  · exact fun hw h s hr => exclusive_of_whole hr hw

/-- The default duration, thirty seconds. -/
theorem exclusive_iff_default :
    (leaseSeconds 30000 : ℚ) * 1000 = 30000 ∧ ∀ h s, Run (sys 30000) h s → Exclusive 30000 h := by
  have hwhole : (leaseSeconds 30000 : ℚ) * 1000 = 30000 := by norm_num [leaseSeconds]
  exact ⟨hwhole, (exclusive_iff (by norm_num)).2 (.inl hwhole)⟩

/-- A lease of a second and a half is over after a second. -/
theorem lease_lapses : ∃ h s, Run (sys 1500) h s ∧ ¬ Exclusive 1500 h
    ∧ h.map (·.act) = [.claim "job" "b" [], .tick 1000, .claim "job" "a" [],
      .schedule "job" none none] := by
  have hsec : leaseSeconds 1500 = 1 := by norm_num [leaseSeconds]
  obtain ⟨h, s, hr, hx, ha⟩ := exists_lapse (by norm_num : (0 : ℚ) < 1500) (by rw [hsec]; rfl)
    (by rw [hsec]; norm_num)
  refine ⟨h, s, hr, hx, ?_⟩
  rw [ha, hsec]
  norm_num

end Leases

end Store

end Jobs

end VeriNode
