import VeriNode.Lib.Run
import VeriNode.Scheduler.JobStore

/-!
# The poll loop of a worker

`poll` and `tryClaimAndExecute` of one `JobWorker` in `src/scheduler/scheduler.ts`. A call is in one
of its awaits: of the claim, of the queue's depth, or of the execution of the job that it claimed,
which may also throw. What the calls do to the table is left to the job store.
-/

namespace VeriNode

namespace Jobs

namespace PollLoop

/-- Calls have numbers. Those that have claimed a job and have not finished it are `executing`. -/
structure State where
  running : Bool := false
  timer : Bool := false
  activeJobs : ℕ := 0
  claiming : List ℕ := []
  readingDepth : List ℕ := []
  executing : List ℕ := []
  nextCall : ℕ := 0
deriving DecidableEq

inductive Action
  | start
  | stop
  /-- The timer fires. -/
  | tick
  | claimed (call : ℕ)
  | noJob (call : ℕ)
  | claimFailed (call : ℕ)
  /-- The depth is read, or that fails. -/
  | depthRead (call : ℕ)
  /-- The job is through, or its execution has thrown. -/
  | executed (call : ℕ)
deriving DecidableEq

/-- A call as far as the claim. -/
def tryClaimAndExecute (s : State) : State :=
  { s with claiming := s.claiming ++ [s.nextCall], nextCall := s.nextCall + 1 }

def poll (maxConcurrency : ℕ) (s : State) : State :=
  if !s.running then s
  else { if s.activeJobs < maxConcurrency then tryClaimAndExecute s else s with timer := true }

def step (maxConcurrency : ℕ) (s : State) : Action → Option State
  | .start => some (if s.running then s else poll maxConcurrency { s with running := true })
  | .stop => some { s with running := false, timer := false }
  | .tick => if s.timer then some (poll maxConcurrency { s with timer := false }) else none
  | .claimed call =>
    if call ∈ s.claiming then
      some { s with
        claiming := s.claiming.erase call
        activeJobs := s.activeJobs + 1
        executing := s.executing ++ [call] }
    else none
  | .noJob call =>
    if call ∈ s.claiming then
      some { s with
        claiming := s.claiming.erase call
        readingDepth := s.readingDepth ++ [call] }
    else none
  | .claimFailed call =>
    if call ∈ s.claiming then some { s with claiming := s.claiming.erase call } else none
  | .depthRead call =>
    if call ∈ s.readingDepth then some { s with readingDepth := s.readingDepth.erase call } else none
  | .executed call =>
    if call ∈ s.executing then
      some { s with executing := s.executing.erase call, activeJobs := max 0 (s.activeJobs - 1) }
    else none

def sys (maxConcurrency : ℕ) : Sys State Action where
  init s := s = {}
  step := step maxConcurrency

end PollLoop

end Jobs

end VeriNode

/-!
# Job workers

Any number of `JobWorker`s of `src/scheduler/scheduler.ts` on one table, each with its own id, lease
and dead letter queue. A worker that claims a job calls the handler; when the handler is through it
completes the job, or fails it and routes it to the dead letter queue if the job it claimed has no
retries left. Until then it may renew the lease at any time. Statements of the database do not fail.
-/

namespace VeriNode

namespace Jobs

namespace Worker

section System

/-- What a worker was given. -/
structure Config where
  workerId : String
  leaseDurationMs : ℚ
  dlqManager : Bool
deriving DecidableEq

/-- Where `executeJob` stands. -/
inductive Phase
  | handling
  /-- The handler has returned. -/
  | completing
  /-- The handler has thrown. -/
  | failing (errorMessage : String)
  /-- The job has failed, and goes to the dead letter queue. -/
  | routing
  | ended
deriving DecidableEq

/-- A call of `executeJob`, with what it reads of the job that was claimed. -/
structure Execution where
  config : Config
  jobId : ℕ
  retryCount : ℕ
  maxRetries : ℤ
  phase : Phase
deriving DecidableEq

/-- `routed` has the jobs that the dead letter queue was called with. -/
structure State where
  now : ℚ
  jobs : Table := ∅
  executions : OrdMap ℕ Execution := ∅
  routed : List ℕ := []
  nextJob : ℕ := 0
  nextExecution : ℕ := 0

inductive Action
  | schedule (jobType : String) (runAt : Option ℚ) (maxRetries : Option JsNumber)
  | claim (jobType : String) (config : Config) (skipped : List ℕ)
  | handled (id : ℕ) (error : Option String)
  | complete (id : ℕ)
  | fail (id : ℕ)
  | route (id : ℕ)
  | renew (id : ℕ)
  | tick (now : ℚ)
deriving DecidableEq

def State.goOn (id : ℕ) (execution : Execution) (phase : Phase) (s : State) : State :=
  { s with executions := s.executions.set id { execution with phase := phase } }

/-- The claim of a job starts its execution. -/
def start (config : Config) (jobId : ℕ) (job : Job) (s : State) : State :=
  { s with
    jobs := s.jobs.set jobId job
    executions := s.executions.set s.nextExecution
      ⟨config, jobId, job.retryCount, job.maxRetries, .handling⟩
    nextExecution := s.nextExecution + 1 }

/-- What comes after `failJob`. -/
def afterFail (execution : Execution) : Phase :=
  if execution.retryCount < execution.maxRetries then .ended
  else if execution.config.dlqManager then .routing else .ended

/-- A step of an execution that has not ended. -/
def perform (id : ℕ) (execution : Execution) (s : State) : Action → Option State
  | .handled _ error =>
    match execution.phase with
    | .handling =>
      some (s.goOn id execution
        (match error with
          | none => .completing
          | some errorMessage => .failing errorMessage))
    | _ => none
  | .complete _ =>
    match execution.phase with
    | .completing =>
      some ({ s with jobs := completeJob execution.jobId s.jobs }.goOn id execution .ended)
    | _ => none
  | .fail _ =>
    match execution.phase with
    | .failing errorMessage =>
      some ({ s with jobs := failJob execution.jobId errorMessage s.jobs }.goOn id execution
        (afterFail execution))
    | _ => none
  | .route _ =>
    match execution.phase with
    | .routing =>
      some ({ s with routed := s.routed ++ [execution.jobId] }.goOn id execution .ended)
    | _ => none
  | .renew _ =>
    match execution.phase with
    | .ended => none
    | _ =>
      some { s with
        jobs := renewLease execution.jobId execution.config.workerId
          execution.config.leaseDurationMs s.now s.jobs }
  | _ => none

/-- The execution that takes the step. -/
def Action.execution : Action → Option ℕ
  | .handled id _ => some id
  | .complete id => some id
  | .fail id => some id
  | .route id => some id
  | .renew id => some id
  | _ => none

def step (s : State) (a : Action) : Option State :=
  match a with
  | .schedule jobType runAt maxRetries =>
    (scheduleJob jobType runAt maxRetries s.now).map fun job =>
      { s with jobs := s.jobs.set s.nextJob job, nextJob := s.nextJob + 1 }
  | .claim jobType config skipped =>
    match claimJob jobType config.workerId config.leaseDurationMs s.now skipped s.jobs with
    | none => some s
    | some (jobId, job) => some (start config jobId job s)
  | .tick now => if s.now ≤ now then some { s with now := now } else none
  | a =>
    match a.execution with
    | none => none
    | some id =>
      match s.executions.get id with
      | none => none
      | some execution => perform id execution s a

/-- The table is empty at first, at any time, and nothing runs. -/
def sys : Sys State Action where
  init s := ∃ now, s = { now := now }
  step := step

end System

end Worker

end Jobs

end VeriNode
