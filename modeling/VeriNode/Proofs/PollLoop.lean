import VeriNode.Scheduler.Worker

/-!
# How many jobs a worker has

A worker counts a job when its claim has returned, and looks at the count when it makes the next
claim. The count is right (`activeJobs_eq`), and it is within the limit where a claim is made only
while there is room for those that are still awaited; a claim that is made without that can take the
worker beyond its limit (`concurrency_exact`). A worker that was stopped makes no claims, but the
ones it awaits may still bring it jobs after the count has come to zero (`stop_drains_iff`).
-/

namespace VeriNode

namespace Jobs

namespace PollLoop

variable {maxConcurrency : ℕ} {s s' : State} {a : Action} {h : List (Taken State Action)}

/-- The step makes a claim. -/
def Claims (maxConcurrency : ℕ) (s : State) (a : Action) : Prop :=
  s.activeJobs < maxConcurrency ∧ (a = .start ∧ s.running = false ∨ a = .tick ∧ s.running = true)

/-- A claim is made while there is room for it and for those that are awaited. -/
def Spaced (maxConcurrency : ℕ) (s : State) (a : Action) : Prop :=
  Claims maxConcurrency s a → s.activeJobs + s.claiming.length < maxConcurrency

theorem poll_activeJobs (s : State) : (poll maxConcurrency s).activeJobs = s.activeJobs := by
  unfold poll tryClaimAndExecute
  split_ifs <;> rfl

theorem poll_executing (s : State) : (poll maxConcurrency s).executing = s.executing := by
  unfold poll tryClaimAndExecute
  split_ifs <;> rfl

theorem poll_claiming (s : State) : (poll maxConcurrency s).claiming
    = if s.running = true ∧ s.activeJobs < maxConcurrency then s.claiming ++ [s.nextCall]
      else s.claiming := by
  unfold poll tryClaimAndExecute
  cases hrunning : s.running with
  | false => rw [if_pos (by simp), if_neg (fun h => Bool.false_ne_true h.1)]
  | true =>
    rw [if_neg (by simp)]
    split_ifs with hactive hboth hboth
    · rfl
    · exact absurd ⟨rfl, hactive⟩ hboth
    · exact absurd hboth.2 hactive
    · rfl

/-- What a step can do: a claim is made, or returns with a job, or a job is through. -/
theorem step_cases (hs : step maxConcurrency s a = some s') :
    (s'.activeJobs = s.activeJobs ∧ s'.executing = s.executing
      ∧ (s'.claiming.length ≤ s.claiming.length
        ∨ Claims maxConcurrency s a ∧ s'.claiming = s.claiming ++ [s.nextCall]))
    ∨ (∃ call ∈ s.claiming, s'.activeJobs = s.activeJobs + 1
      ∧ s'.executing = s.executing ++ [call] ∧ s'.claiming = s.claiming.erase call)
    ∨ ∃ call ∈ s.executing, s'.activeJobs = s.activeJobs - 1
      ∧ s'.executing = s.executing.erase call ∧ s'.claiming = s.claiming := by
  cases a with
  | start =>
    obtain rfl := Option.some.inj hs
    left
    by_cases hrunning : s.running = true
    · rw [if_pos hrunning]
      exact ⟨rfl, rfl, .inl (Nat.le_refl _)⟩
    · rw [if_neg hrunning, poll_activeJobs, poll_executing, poll_claiming]
      refine ⟨rfl, rfl, ?_⟩
      split_ifs with hclaims
      · exact .inr ⟨⟨hclaims.2, .inl ⟨rfl, eq_false_of_ne_true hrunning⟩⟩, rfl⟩
      · exact .inl (Nat.le_refl _)
  | stop =>
    obtain rfl := Option.some.inj hs
    exact .inl ⟨rfl, rfl, .inl (Nat.le_refl _)⟩
  | tick =>
    simp only [step, Option.ite_none_right_eq_some, Option.some.injEq] at hs
    obtain ⟨-, rfl⟩ := hs
    left
    rw [poll_activeJobs, poll_executing, poll_claiming]
    refine ⟨rfl, rfl, ?_⟩
    split_ifs with hclaims
    · exact .inr ⟨⟨hclaims.2, .inr ⟨rfl, hclaims.1⟩⟩, rfl⟩
    · exact .inl (Nat.le_refl _)
  | claimed call =>
    simp only [step, Option.ite_none_right_eq_some, Option.some.injEq] at hs
    obtain ⟨hcall, rfl⟩ := hs
    exact .inr (.inl ⟨call, hcall, rfl, rfl, rfl⟩)
  | noJob call =>
    simp only [step, Option.ite_none_right_eq_some, Option.some.injEq] at hs
    obtain ⟨-, rfl⟩ := hs
    exact .inl ⟨rfl, rfl, .inl List.length_erase_le⟩
  | claimFailed call =>
    simp only [step, Option.ite_none_right_eq_some, Option.some.injEq] at hs
    obtain ⟨-, rfl⟩ := hs
    exact .inl ⟨rfl, rfl, .inl List.length_erase_le⟩
  | depthRead call =>
    simp only [step, Option.ite_none_right_eq_some, Option.some.injEq] at hs
    obtain ⟨-, rfl⟩ := hs
    exact .inl ⟨rfl, rfl, .inl (Nat.le_refl _)⟩
  | executed call =>
    simp only [step, Option.ite_none_right_eq_some, Option.some.injEq] at hs
    obtain ⟨hcall, rfl⟩ := hs
    exact .inr (.inr ⟨call, hcall, Nat.zero_max _, rfl, rfl⟩)

theorem activeJobs_eq (hr : Run (sys maxConcurrency) h s) : s.activeJobs = s.executing.length := by
  refine hr.invariant (P := fun s => s.activeJobs = s.executing.length) ?_ ?_
  · rintro s rfl
    rfl
  · intro s a s' heq hs
    rcases step_cases hs with ⟨hactive, hexecuting, -⟩ | ⟨call, -, hactive, hexecuting, -⟩
      | ⟨call, hcall, hactive, hexecuting, -⟩
    · rw [hactive, hexecuting, heq]
    · rw [hactive, hexecuting, heq, List.length_append, List.length_singleton]
    · rw [hactive, hexecuting, heq, List.length_erase_of_mem hcall]

theorem room_run (hr : Run (sys maxConcurrency) h s) (hspaced : Along (Spaced maxConcurrency) h) :
    s.activeJobs + s.claiming.length ≤ maxConcurrency := by
  refine hr.invariant_of (P := fun s => s.activeJobs + s.claiming.length ≤ maxConcurrency) ?_ ?_
    hspaced
  · rintro s rfl
    exact Nat.zero_le _
  · intro s a s' hroom hspaced hs
    rcases step_cases hs with ⟨hactive, -, hclaiming | ⟨hclaims, hclaiming⟩⟩
      | ⟨call, hcall, hactive, -, hclaiming⟩ | ⟨call, -, hactive, -, hclaiming⟩
    · rw [hactive]
      omega
    · have hlt := hspaced hclaims
      rw [hactive, hclaiming, List.length_append, List.length_singleton]
      omega
    · have hpos := List.length_pos_of_mem hcall
      rw [hactive, hclaiming, List.length_erase_of_mem hcall]
      omega
    · rw [hactive, hclaiming]
      omega

theorem exists_all_claimed (hr : Run (sys maxConcurrency) h s) :
    ∃ h' s', Run (sys maxConcurrency) (h' ++ h) s'
      ∧ s'.activeJobs = s.activeJobs + s.claiming.length := by
  induction hn : s.claiming.length generalizing h s with
  | zero => exact ⟨[], s, hr, rfl⟩
  | succ n ih =>
    obtain ⟨call, hcall⟩ := List.exists_mem_of_length_pos (Nat.lt_of_lt_of_eq n.succ_pos hn.symm)
    have hs : (sys maxConcurrency).step s (.claimed call) = some { s with
        claiming := s.claiming.erase call
        activeJobs := s.activeJobs + 1
        executing := s.executing ++ [call] } := if_pos hcall
    have hlen : (s.claiming.erase call).length = n := by
      rw [List.length_erase_of_mem hcall, hn, Nat.add_sub_cancel]
    obtain ⟨h', s', hr', hactive⟩ := ih (hr.next hs) hlen
    refine ⟨h' ++ [_], s', by rwa [List.append_assoc], hactive.trans ?_⟩
    change s.activeJobs + 1 + n = s.activeJobs + (n + 1)
    omega

theorem claims_step (hclaims : Claims maxConcurrency s a)
    (hs : step maxConcurrency s a = some s') :
    s'.activeJobs = s.activeJobs ∧ s'.claiming.length = s.claiming.length + 1 := by
  obtain ⟨hlt, ⟨rfl, hrunning⟩ | ⟨rfl, hrunning⟩⟩ := hclaims
  · obtain rfl := Option.some.inj hs
    rw [if_neg (by simp [hrunning]), poll_activeJobs, poll_claiming, if_pos ⟨rfl, hlt⟩]
    exact ⟨rfl, List.length_append⟩
  · simp only [step, Option.ite_none_right_eq_some, Option.some.injEq] at hs
    obtain ⟨-, rfl⟩ := hs
    rw [poll_activeJobs, poll_claiming, if_pos ⟨hrunning, hlt⟩]
    exact ⟨rfl, List.length_append⟩

/-- A worker that makes claims only while there is room for them keeps to its limit, and counts its
jobs right; and any other claim can be continued beyond the limit. -/
theorem concurrency_exact (maxConcurrency : ℕ) :
    (∀ h s, Run (sys maxConcurrency) h s → Along (Spaced maxConcurrency) h →
        s.executing.length ≤ maxConcurrency ∧ s.activeJobs = s.executing.length)
      ∧ ∀ h s a s', Run (sys maxConcurrency) h s → step maxConcurrency s a = some s' →
        ¬ Spaced maxConcurrency s a →
        ∃ h' s'', Run (sys maxConcurrency) (h' ++ ⟨s, a, s'⟩ :: h) s''
          ∧ maxConcurrency < s''.executing.length := by
  constructor
  · intro h s hr hspaced
    have hcount := activeJobs_eq hr
    have hroom := room_run hr hspaced
    exact ⟨by omega, hcount⟩
  · intro h s a s' hr hs hspaced
    rw [Spaced, Classical.not_imp] at hspaced
    obtain ⟨hactive, hlen⟩ := claims_step hspaced.1 hs
    obtain ⟨h', s'', hr', hall⟩ := exists_all_claimed (hr.next hs)
    refine ⟨h', s'', hr', ?_⟩
    have hcount := activeJobs_eq hr'
    have hfull := hspaced.2
    omega

/-- Two polls before the first claim returns. -/
theorem two_jobs_of_one : ∃ h s, Run (sys 1) h s ∧ 1 < s.executing.length := by
  obtain ⟨h, s, hr, hs⟩ := Sys.exists_run (S := sys 1) (s := {}) rfl
    [.start, .tick, .claimed 0, .claimed 1] (p := fun x => 1 < x.2.executing.length) rfl
  exact ⟨h, s, hr, of_decide_eq_true hs⟩

section Stopping

/-- The worker is not started again. -/
def NotStarted (_ : State) (a : Action) : Prop := a ≠ .start

/-- After a stop no claim is made, and no job runs that was not running or being claimed. -/
structure Drains (s s' : State) : Prop where
  running : s'.running = false
  timer : s'.timer = false
  nextCall : s'.nextCall = s.nextCall
  claiming : s'.claiming.Sublist s.claiming
  executing : ∀ call ∈ s'.executing, call ∈ s.executing ∨ call ∈ s.claiming
  fewer : s'.executing.length + s'.claiming.length ≤ s.executing.length + s.claiming.length

theorem poll_running (s : State) : (poll maxConcurrency s).running = s.running := by
  unfold poll tryClaimAndExecute
  split_ifs <;> rfl

theorem poll_timer (s : State) :
    (poll maxConcurrency s).timer = if s.running then true else s.timer := by
  unfold poll
  cases s.running <;> simp

theorem timer_eq_running (hr : Run (sys maxConcurrency) h s) : s.timer = s.running := by
  refine hr.invariant (P := fun s => s.timer = s.running) ?_ ?_
  · rintro s rfl
    rfl
  · intro s a s' heq hs
    cases a with
    | start =>
      obtain rfl := Option.some.inj hs
      split_ifs
      · exact heq
      · rw [poll_timer, poll_running]
        rfl
    | stop =>
      obtain rfl := Option.some.inj hs
      rfl
    | tick =>
      simp only [sys, step, Option.ite_none_right_eq_some, Option.some.injEq] at hs
      obtain ⟨htimer, rfl⟩ := hs
      rw [poll_timer, poll_running]
      simp [← heq, htimer]
    | claimed call | noJob call | claimFailed call | depthRead call | executed call =>
      simp only [sys, step, Option.ite_none_right_eq_some, Option.some.injEq] at hs
      obtain ⟨-, rfl⟩ := hs
      exact heq

theorem Drains.step {s₀ : State} (hd : Drains s₀ s) (ha : NotStarted s a)
    (hs : step maxConcurrency s a = some s') : Drains s₀ s' := by
  obtain ⟨hrunning, htimer, hnext, hclaiming, hexecuting, hfewer⟩ := hd
  cases a with
  | start => exact absurd rfl ha
  | stop =>
    obtain rfl := Option.some.inj hs
    exact ⟨rfl, rfl, hnext, hclaiming, hexecuting, hfewer⟩
  | tick =>
    simp only [PollLoop.step, Option.ite_none_right_eq_some, htimer] at hs
    exact absurd hs.1 Bool.false_ne_true
  | claimed call =>
    simp only [PollLoop.step, Option.ite_none_right_eq_some, Option.some.injEq] at hs
    obtain ⟨hcall, rfl⟩ := hs
    refine ⟨hrunning, htimer, hnext, List.erase_sublist.trans hclaiming, fun c hc => ?_, ?_⟩
    · rcases List.mem_append.1 hc with hc | hc
      · exact hexecuting c hc
      · rw [List.mem_singleton.1 hc]
        exact .inr (hclaiming.subset hcall)
    · have hlen := List.length_erase_of_mem hcall
      have hpos := List.length_pos_of_mem hcall
      simp only [List.length_append, List.length_singleton]
      omega
  | noJob call | claimFailed call =>
    simp only [PollLoop.step, Option.ite_none_right_eq_some, Option.some.injEq] at hs
    obtain ⟨-, rfl⟩ := hs
    have hlen := (List.erase_sublist (a := call) (l := s.claiming)).length_le
    exact ⟨hrunning, htimer, hnext, List.erase_sublist.trans hclaiming, hexecuting, by
      simp only
      omega⟩
  | depthRead call =>
    simp only [PollLoop.step, Option.ite_none_right_eq_some, Option.some.injEq] at hs
    obtain ⟨-, rfl⟩ := hs
    exact ⟨hrunning, htimer, hnext, hclaiming, hexecuting, hfewer⟩
  | executed call =>
    simp only [PollLoop.step, Option.ite_none_right_eq_some, Option.some.injEq] at hs
    obtain ⟨-, rfl⟩ := hs
    have hlen := (List.erase_sublist (a := call) (l := s.executing)).length_le
    exact ⟨hrunning, htimer, hnext, hclaiming,
      fun c hc => hexecuting c (List.erase_sublist.subset hc), by
        simp only
        omega⟩

/-- From a stop to the next start no claim is made, and the jobs that run are among those that ran
or were being claimed. So when the count that `stop` waits for is zero no job runs any more, just if
no claim is awaited then. -/
theorem stop_drains_iff (hr : Run (sys maxConcurrency) h s) (hstop : s.running = false) :
    (∀ h' s', Run ((sys maxConcurrency).onwards s) h' s' → Along NotStarted h' → Drains s s')
      ∧ (s.activeJobs = 0 →
        ((∀ h' s', Run ((sys maxConcurrency).onwards s) h' s' → Along NotStarted h' →
          s'.executing = []) ↔ s.claiming = [])) := by
  have hdrains : ∀ h' s', Run ((sys maxConcurrency).onwards s) h' s' → Along NotStarted h' →
      Drains s s' := by
    intro h' s' hr' hnot
    refine hr'.invariant_of (P := Drains s) ?_ (fun _ _ _ hd ha hs => hd.step ha hs) hnot
    rintro _ rfl
    exact ⟨hstop, (timer_eq_running hr).trans hstop, rfl, List.Sublist.refl _, fun _ hc => .inl hc,
      Nat.le_refl _⟩
  refine ⟨hdrains, fun hcount => ⟨fun hnone => ?_, fun hclaiming h' s' hr' hnot => ?_⟩⟩
  · by_contra hne
    obtain ⟨call, hcall⟩ := List.exists_mem_of_ne_nil _ hne
    have hs : ((sys maxConcurrency).onwards s).step s (.claimed call) = some { s with
        claiming := s.claiming.erase call
        activeJobs := s.activeJobs + 1
        executing := s.executing ++ [call] } := if_pos hcall
    have hlate := hnone _ _ (.next (.start rfl) hs) (by
      rw [along_cons]
      exact ⟨by simp [NotStarted], fun _ ht => by cases ht⟩)
    simp at hlate
  · rw [activeJobs_eq hr] at hcount
    have hd := hdrains h' s' hr' hnot
    refine List.eq_nil_iff_forall_not_mem.2 fun call hcall => ?_
    rcases hd.executing call hcall with hc | hc
    · rw [List.length_eq_zero_iff.1 hcount] at hc
      cases hc
    · rw [hclaiming] at hc
      cases hc

/-- A stop while a claim is awaited, and no job runs. -/
theorem stop_drains_iff_claiming : ∃ h s, Run (sys 1) h s ∧ s.activeJobs = 0 ∧ s.claiming = [0]
    ∧ ((∀ h' s', Run ((sys 1).onwards s) h' s' → Along NotStarted h' → s'.executing = [])
      ↔ s.claiming = []) := by
  have hr : Run (sys 1) _ _ := .next (a := .stop) (.next (a := .start) (.start rfl) rfl) rfl
  exact ⟨_, _, hr, rfl, rfl, (stop_drains_iff hr rfl).2 rfl⟩

end Stopping

end PollLoop

end Jobs

end VeriNode
