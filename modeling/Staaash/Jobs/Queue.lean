import Mathlib.Data.List.Sort
import Staaash.Library.OrderedMap
import Staaash.Library.Runs

/-!
# Background jobs

The table of `jobs.ts` and everyone who calls its operations: workers, admins and schedulers, each as
slow as it likes between two statements. A statement is atomic. A claim finds a job before it updates
it, and a failure and the admin actions read the job, check it and then update it by its id alone.
Every statement brings its own time, in milliseconds. Progress, events and the tables of the things
that a job makes are left out: nothing here reads them.
-/

namespace Staaash.Jobs

open Staaash.Library (OrderedMap)

inductive JobStatus
  | queued
  | running
  | succeeded
  | failed
  | dead
  | cancelled
deriving DecidableEq, Repr

inductive JobKind
  | stagingCleanup
  | trashRetention
  | updateCheck
  | restoreReconcile
  | mediaDerivativeGenerate
  | mediaDerivativeCleanup
  | zipArchiveGenerate
  | zipArchiveCleanup
deriving DecidableEq, Repr

/-- What is read of a job's payload. -/
structure Payload where
  kind : Option String
  archiveId : Option String
deriving DecidableEq, Repr

/-- A row of the `BackgroundJob` table. -/
structure BackgroundJob where
  kind : JobKind
  queueName : String
  priority : Int
  status : JobStatus
  payloadJson : Payload
  dedupeKey : Option String
  runAt : Nat
  lockedAt : Option Nat
  lockedBy : Option String
  leaseExpiresAt : Option Nat
  startedAt : Option Nat
  completedAt : Option Nat
  cancelledAt : Option Nat
  cancelledByUserId : Option String
  attemptCount : Nat
  maxAttempts : Nat
  lastError : Option String
  errorCode : Option String
deriving DecidableEq, Repr

abbrev JobTable := OrderedMap String BackgroundJob

def backgroundJobLeaseMs : Nat := 60000

def smallArchivePriority : Int := 1

/-! ## Scheduling -/

/-- `buildActiveStatusFilter(now)`. -/
def BackgroundJob.active (job : BackgroundJob) (now : Nat) : Bool :=
  job.status = .queued ||
    job.status = .running &&
      match job.leaseExpiresAt with
      | some leaseExpiresAt => now ≤ leaseExpiresAt
      | none => job.lockedAt.any fun lockedAt => now ≤ lockedAt + backgroundJobLeaseMs

/-- What `ensureBackgroundJobScheduled` is called with. -/
structure Schedule where
  kind : JobKind
  runAt : Nat
  payloadJson : Payload
  maxAttempts : Nat
  windowEnd : Nat
  dedupeKey : Option String
  queueName : String
  priority : Int
deriving DecidableEq, Repr

/-- `dedupeFilter`. An empty key is no key. -/
def Schedule.matches (schedule : Schedule) (now : Nat) (job : BackgroundJob) : Bool :=
  job.kind = schedule.kind && job.active now &&
    match schedule.dedupeKey.filter (· ≠ "") with
    | some dedupeKey => job.dedupeKey = some dedupeKey
    | none => job.queueName = schedule.queueName && job.runAt ≤ schedule.windowEnd

def Schedule.job (schedule : Schedule) : BackgroundJob where
  kind := schedule.kind
  queueName := schedule.queueName
  priority := schedule.priority
  status := .queued
  payloadJson := schedule.payloadJson
  dedupeKey := schedule.dedupeKey
  runAt := schedule.runAt
  lockedAt := none
  lockedBy := none
  leaseExpiresAt := none
  startedAt := none
  completedAt := none
  cancelledAt := none
  cancelledByUserId := none
  attemptCount := 0
  maxAttempts := schedule.maxAttempts
  lastError := none
  errorCode := none

/-! ## Claims -/

inductive BackgroundJobLane
  | general
  | smallArchive
  | smallMedia
deriving DecidableEq, Repr

def BackgroundJob.smallArchive (job : BackgroundJob) : Bool :=
  job.kind = .zipArchiveGenerate && job.priority = smallArchivePriority

def BackgroundJob.smallMedia (job : BackgroundJob) : Bool :=
  job.kind = .mediaDerivativeGenerate &&
    (job.payloadJson.kind = some "thumbnail" || job.payloadJson.kind = some "poster")

def BackgroundJob.inLane (job : BackgroundJob) : BackgroundJobLane → Bool
  | .general => !job.smallArchive && !job.smallMedia
  | .smallArchive => job.smallArchive
  | .smallMedia => job.smallMedia

/-- The job may be claimed: it waits, or the lease on it has run out. -/
def BackgroundJob.due (job : BackgroundJob) (now : Nat) : Bool :=
  job.status = .queued && job.runAt ≤ now ||
    job.status = .running &&
      match job.leaseExpiresAt with
      | some leaseExpiresAt => leaseExpiresAt ≤ now
      | none => job.lockedAt.any fun lockedAt => lockedAt + backgroundJobLeaseMs ≤ now

/-- `ORDER BY priority DESC, runAt, id`. -/
def claimedBefore (a b : String × BackgroundJob) : Bool :=
  if a.2.priority ≠ b.2.priority then b.2.priority < a.2.priority
  else if a.2.runAt ≠ b.2.runAt then a.2.runAt < b.2.runAt
  else a.1 ≤ b.1

/-- The job that a claim finds. -/
def findDue (jobs : JobTable) (lane : BackgroundJobLane) (queueName : String) (now : Nat) :
    Option (String × BackgroundJob) :=
  ((jobs.entries.filter fun (_, job) =>
    job.inLane lane && job.queueName = queueName && job.due now).insertionSort
      (claimedBefore · ·)).head?

/-- The update of a claim, with the time at which the job was first started as the claim found it. -/
def BackgroundJob.claim (job : BackgroundJob) (workerId : String) (leaseMs now : Nat)
    (startedAt : Option Nat) : Option BackgroundJob :=
  if job.due now then
    some { job with
      status := .running
      lockedAt := some now
      lockedBy := some workerId
      leaseExpiresAt := some (now + leaseMs)
      startedAt := some (startedAt.getD now)
      completedAt := none
      attemptCount := job.attemptCount + 1 }
  else none

/-! ## What the holder of a lease does -/

/-- `status: "running", lockedBy: workerId`. -/
def BackgroundJob.heldBy (job : BackgroundJob) (workerId : String) : Bool :=
  job.status = .running && job.lockedBy = some workerId

def BackgroundJob.renew (job : BackgroundJob) (workerId : String) (leaseMs now : Nat) :
    Option BackgroundJob :=
  if job.heldBy workerId then
    some { job with lockedAt := some now, leaseExpiresAt := some (now + leaseMs) }
  else none

def BackgroundJob.markSucceeded (job : BackgroundJob) (workerId : String) (now : Nat) :
    Option BackgroundJob :=
  if job.heldBy workerId then
    some { job with
      status := .succeeded
      lockedAt := none
      lockedBy := none
      leaseExpiresAt := none
      completedAt := some now
      lastError := none
      errorCode := none }
  else none

/-- What a handler reports when it gives up. The message is cut to 2000 characters. -/
structure JobError where
  errorMessage : String
  errorCode : Option String
deriving DecidableEq, Repr

def truncateJobError (value : String) : String :=
  if value.length > 2000 then String.ofList (value.toList.take 2000) ++ "…" else value

def BackgroundJob.markTerminal (job : BackgroundJob) (workerId : String) (error : JobError)
    (now : Nat) : Option BackgroundJob :=
  if job.heldBy workerId then
    some { job with
      status := .failed
      lockedAt := none
      lockedBy := none
      leaseExpiresAt := none
      completedAt := some now
      lastError := some (truncateJobError error.errorMessage)
      errorCode := error.errorCode }
  else none

/-- The check that `markBackgroundJobFailed` makes on the job it has read. -/
def BackgroundJob.failsFor (job : BackgroundJob) (workerId : String) : Bool :=
  job.lockedBy = some workerId

/-- The update of `markBackgroundJobFailed`, by id alone, with the job as it was read before. The delay
until the next attempt is partly random. -/
def BackgroundJob.markFailed (job read : BackgroundJob) (error : JobError) (delayMs now : Nat) :
    BackgroundJob :=
  let shouldDeadLetter : Bool := read.maxAttempts ≤ read.attemptCount
  { job with
    status := if shouldDeadLetter then .dead else .queued
    runAt := if shouldDeadLetter then read.runAt else now + delayMs
    lockedAt := none
    lockedBy := none
    leaseExpiresAt := none
    completedAt := if shouldDeadLetter then some now else none
    lastError := some (truncateJobError error.errorMessage)
    errorCode := error.errorCode }

/-! ## What admins do -/

inductive AdminAction
  | cancel
  | retry
  | dismiss
deriving DecidableEq, Repr

/-- The statuses an action starts from. -/
def AdminAction.from : AdminAction → List JobStatus
  | .cancel => [.queued, .running]
  | .retry => [.failed, .dead, .cancelled]
  | .dismiss => [.failed, .dead]

/-- The update of an action, by id alone. -/
def AdminAction.update (action : AdminAction) (job : BackgroundJob) (actorUserId : String)
    (now : Nat) : BackgroundJob :=
  match action with
  | .cancel =>
    { job with
      status := .cancelled
      cancelledAt := some now
      cancelledByUserId := some actorUserId
      completedAt := some now
      lockedAt := none
      lockedBy := none
      leaseExpiresAt := none
      lastError := some "Cancelled by admin."
      errorCode := some "cancelled" }
  | .retry =>
    { job with
      status := .queued
      runAt := now
      lockedAt := none
      lockedBy := none
      leaseExpiresAt := none
      completedAt := none
      cancelledAt := none
      cancelledByUserId := none
      lastError := none
      errorCode := none }
  | .dismiss =>
    { job with
      status := .cancelled
      cancelledAt := some now
      cancelledByUserId := some actorUserId }

end Staaash.Jobs
