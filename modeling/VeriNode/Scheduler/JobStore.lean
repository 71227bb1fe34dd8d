import VeriNode.Lib.JsNumber
import VeriNode.Lib.OrdMap
import VeriNode.Lib.Run
import Mathlib.Data.Rat.Floor

/-!
# The job store

`PostgresJobStore` of `src/scheduler/job_store.ts` over the table of
`src/database/migrations/011_distributed_jobs.sql`, its statements one at a time. Times are
milliseconds. A claim takes the row that is due first among those it does not skip: the rows that
another statement has locked at the time, of which it knows nothing else.
-/

namespace VeriNode

namespace Jobs

section Rows

inductive Status
  | pending
  | running
  | completed
  | failed
deriving DecidableEq

/-- A row of `distributed_jobs`. -/
structure Job where
  jobType : String
  status : Status := .pending
  runAt : ℚ
  lockedUntil : Option ℚ := none
  lockedBy : Option String := none
  retryCount : ℕ := 0
  maxRetries : ℤ
  errorMessage : Option String := none
  createdAt : ℚ
deriving DecidableEq

abbrev Table := OrdMap ℕ Job

/-- `Math.min(max, Math.max(min, Math.trunc(value)))`, none for `NaN`. -/
def clampInt (value : JsNumber) (min max : ℤ) : Option ℤ :=
  match value with
  | .nan => none
  | .negInf => some (Min.min max min)
  | .posInf => some max
  | .fin q => some (Min.min max (Max.max min (if 0 ≤ q then ⌊q⌋ else ⌈q⌉)))

/-- What an `INTEGER` can be. -/
def int4 (x : ℤ) : Bool := -2 ^ 31 ≤ x ∧ x < 2 ^ 31

def leaseSeconds (leaseDurationMs : ℚ) : ℤ := ⌊leaseDurationMs / 1000⌋

/-- `NOW() + make_interval(secs => …)`. -/
def leaseEnd (leaseDurationMs now : ℚ) : ℚ := now + 1000 * leaseSeconds leaseDurationMs

/-- The row `scheduleJob` inserts; none if the database has an error for it. -/
def scheduleJob (jobType : String) (runAt : Option ℚ) (maxRetries : Option JsNumber) (now : ℚ) :
    Option Job :=
  (clampInt (maxRetries.getD 3) 0 10).map fun maxRetries =>
    { jobType := jobType, runAt := runAt.getD now, maxRetries := maxRetries, createdAt := now }

/-- No lease on the row is running. -/
def Job.unlocked (job : Job) (now : ℚ) : Bool :=
  match job.lockedUntil with
  | none => true
  | some lockedUntil => lockedUntil ≤ now

/-- The `WHERE` clause of a claim. -/
def Job.claimable (job : Job) (jobType : String) (now : ℚ) : Bool :=
  job.jobType = jobType && (job.status = .pending || job.status = .running) && job.unlocked now
    && decide (job.runAt ≤ now)

/-- `ORDER BY run_at ASC … LIMIT 1`. -/
def earliest : List (ℕ × Job) → Option (ℕ × Job)
  | [] => none
  | x :: xs =>
    match earliest xs with
    | none => some x
    | some y => if y.2.runAt < x.2.runAt then some y else some x

/-- The row that `claimJob` returns, as it is then; none if there is none, or the lease is no
`INTEGER`. -/
def claimJob (jobType workerId : String) (leaseDurationMs now : ℚ) (skipped : List ℕ)
    (jobs : Table) : Option (ℕ × Job) :=
  if int4 (leaseSeconds leaseDurationMs) then
    (earliest (jobs.entries.filter fun x => x.2.claimable jobType now && x.1 ∉ skipped)).map
      fun x => (x.1, { x.2 with
        status := .running
        lockedUntil := some (leaseEnd leaseDurationMs now)
        lockedBy := some workerId })
  else none

def Job.complete (job : Job) : Job :=
  { job with status := .completed, lockedUntil := none, lockedBy := none }

def Job.fail (errorMessage : String) (job : Job) : Job :=
  { job with
    status := .failed
    errorMessage := some errorMessage
    lockedUntil := none
    lockedBy := none
    retryCount := job.retryCount + 1 }

/-- `UPDATE … WHERE id = …`. -/
def update (jobId : ℕ) (f : Job → Job) (jobs : Table) : Table :=
  match jobs.get jobId with
  | none => jobs
  | some job => jobs.set jobId (f job)

def completeJob (jobId : ℕ) (jobs : Table) : Table := update jobId Job.complete jobs

def failJob (jobId : ℕ) (errorMessage : String) (jobs : Table) : Table :=
  update jobId (Job.fail errorMessage) jobs

/-- The row that `renewLease` matches. -/
def renewable (jobId : ℕ) (workerId : String) (leaseDurationMs : ℚ) (jobs : Table) : Option Job :=
  if int4 (leaseSeconds leaseDurationMs) then
    (jobs.get jobId).filter fun job => job.lockedBy = some workerId && job.status = .running
  else none

def renewLease (jobId : ℕ) (workerId : String) (leaseDurationMs now : ℚ) (jobs : Table) : Table :=
  match renewable jobId workerId leaseDurationMs jobs with
  | none => jobs
  | some job => jobs.set jobId { job with lockedUntil := some (leaseEnd leaseDurationMs now) }

def purgeCompleted (olderThan : ℚ) (jobs : Table) : Table where
  entries := jobs.entries.filter fun x =>
    !((x.2.status = .completed || x.2.status = .failed) && decide (x.2.createdAt < olderThan))
  nodup := jobs.nodup.sublist (List.Sublist.map _ List.filter_sublist)

end Rows

namespace Store

section System

structure State where
  now : ℚ
  jobs : Table := ∅
  nextId : ℕ := 0

inductive Action
  | schedule (jobType : String) (runAt : Option ℚ) (maxRetries : Option JsNumber)
  | claim (jobType workerId : String) (skipped : List ℕ)
  | complete (jobId : ℕ)
  | fail (jobId : ℕ) (errorMessage : String)
  | renew (jobId : ℕ) (workerId : String)
  | purge (olderThan : ℚ)
  | tick (now : ℚ)
deriving DecidableEq

/-- The job that the step claims, or whose lease it renews. -/
def claimed (leaseDurationMs : ℚ) (s : State) : Action → Option (ℕ × Job)
  | .claim jobType workerId skipped =>
    claimJob jobType workerId leaseDurationMs s.now skipped s.jobs
  | _ => none

def step (leaseDurationMs : ℚ) (s : State) : Action → Option State
  | .schedule jobType runAt maxRetries =>
    match scheduleJob jobType runAt maxRetries s.now with
    | none => none
    | some job => some { s with jobs := s.jobs.set s.nextId job, nextId := s.nextId + 1 }
  | .claim jobType workerId skipped =>
    match claimJob jobType workerId leaseDurationMs s.now skipped s.jobs with
    | none => some s
    | some (id, job) => some { s with jobs := s.jobs.set id job }
  | .complete jobId => some { s with jobs := completeJob jobId s.jobs }
  | .fail jobId errorMessage => some { s with jobs := failJob jobId errorMessage s.jobs }
  | .renew jobId workerId =>
    some { s with jobs := renewLease jobId workerId leaseDurationMs s.now s.jobs }
  | .purge olderThan => some { s with jobs := purgeCompleted olderThan s.jobs }
  | .tick now => if s.now ≤ now then some { s with now := now } else none

/-- The table is empty at first, at any time. -/
def sys (leaseDurationMs : ℚ) : Sys State Action where
  init s := ∃ now, s = { now := now }
  step := step leaseDurationMs

end System

end Store

end Jobs

end VeriNode
