import Staaash.Jobs.Queue
import Staaash.Library.Runs

/-!
# Everyone who works on the jobs

The statements of the calls on the job table, in any order and at any time after one another, and what
makes the outcome of a job final.
-/

namespace Staaash.Jobs

open Staaash.Library

/-! ## Calls that are under way -/

/-- A claim that has found a job and not updated it yet. -/
structure Claiming where
  jobId : String
  workerId : String
  leaseMs : Nat
  now : Nat
  startedAt : Option Nat
deriving DecidableEq, Repr

/-- A failure that has read the job, found it locked by its worker, and not updated it yet. -/
structure Failing where
  jobId : String
  workerId : String
  error : JobError
  retryable : Bool
  now : Nat
  read : BackgroundJob
deriving DecidableEq, Repr

/-- An admin action that has read the job, found a status it starts from, and not updated it yet. -/
structure Acting where
  jobId : String
  action : AdminAction
  actorUserId : String
  now : Nat
deriving DecidableEq, Repr

/-- A call of a worker that is a single update. -/
inductive Deed
  | renew (leaseMs : Nat)
  | succeed
  | terminal (error : JobError)
deriving DecidableEq, Repr

def Deed.update (deed : Deed) (job : BackgroundJob) (workerId : String) (now : Nat) :
    Option BackgroundJob :=
  match deed with
  | .renew leaseMs => job.renew workerId leaseMs now
  | .succeed => job.markSucceeded workerId now
  | .terminal error => job.markTerminal workerId error now

inductive Statement
  | scheduleFind (schedule : Schedule) (now : Nat)
  | scheduleCreate (schedule : Schedule) (jobId : String)
  | claimFind (workerId : String) (lane : BackgroundJobLane) (queueName : String) (leaseMs now : Nat)
  | claimUpdate (c : Claiming)
  | byHolder (jobId workerId : String) (deed : Deed) (now : Nat)
  | failRead (jobId workerId : String) (error : JobError) (retryable : Bool) (now : Nat)
  | failUpdate (f : Failing) (delayMs : Nat)
  | adminRead (jobId : String) (action : AdminAction) (actorUserId : String) (now : Nat)
  | adminUpdate (a : Acting)
deriving DecidableEq, Repr

structure Queue where
  jobs : JobTable
  scheduling : List Schedule
  claiming : List Claiming
  failing : List Failing
  acting : List Acting
deriving DecidableEq

def Queue.empty : Queue := ⟨.empty, [], [], [], []⟩

/-- Updates one job, if the update finds it in the state it asks for. -/
def Queue.update (q : Queue) (jobId : String) (f : BackgroundJob → Option BackgroundJob) :
    Option Queue :=
  ((q.jobs.get jobId).bind f).map fun job => { q with jobs := q.jobs.set jobId job }

/-- The update that a failure ends with. -/
def Failing.update (f : Failing) (delayMs : Nat) (job : BackgroundJob) : Option BackgroundJob :=
  if f.retryable then some (job.markFailed f.read f.error delayMs f.now)
  else job.markTerminal f.workerId f.error f.now

/-- What a statement does, or nothing where it has no effect. -/
def Queue.act (q : Queue) : Statement → Option Queue
  | .scheduleFind schedule now =>
    if (q.jobs.entries.any fun (_, job) => schedule.matches now job) then none
    else some { q with scheduling := schedule :: q.scheduling }
  | .scheduleCreate schedule jobId =>
    if schedule ∈ q.scheduling && !q.jobs.has jobId then
      some { q with
        jobs := q.jobs.set jobId schedule.job
        scheduling := q.scheduling.erase schedule }
    else none
  | .claimFind workerId lane queueName leaseMs now =>
    (findDue q.jobs lane queueName now).map fun (jobId, job) =>
      { q with claiming := ⟨jobId, workerId, leaseMs, now, job.startedAt⟩ :: q.claiming }
  | .claimUpdate c =>
    if c ∈ q.claiming then
      { q with claiming := q.claiming.erase c }.update c.jobId fun job =>
        job.claim c.workerId c.leaseMs c.now c.startedAt
    else none
  | .byHolder jobId workerId deed now => q.update jobId fun job => deed.update job workerId now
  | .failRead jobId workerId error retryable now =>
    (q.jobs.get jobId).bind fun job =>
      if job.failsFor workerId then
        some { q with failing := ⟨jobId, workerId, error, retryable, now, job⟩ :: q.failing }
      else none
  | .failUpdate f delayMs =>
    if f ∈ q.failing then { q with failing := q.failing.erase f }.update f.jobId (f.update delayMs)
    else none
  | .adminRead jobId action actorUserId now =>
    (q.jobs.get jobId).bind fun job =>
      if job.status ∈ action.from then
        some { q with acting := ⟨jobId, action, actorUserId, now⟩ :: q.acting }
      else none
  | .adminUpdate a =>
    if a ∈ q.acting then
      { q with acting := q.acting.erase a }.update a.jobId fun job =>
        some (a.action.update job a.actorUserId a.now)
    else none

def Queue.step (q : Queue) (s : Statement) : Queue := (q.act s).getD q

def Queue.run (q : Queue) (statements : List Statement) : Queue := statements.foldl Queue.step q

/-! ## Outcomes -/

/-- The check that a call made on the job it had read would still pass when its update arrives. -/
def ChecksInTime (q : Queue) : Statement → Prop
  | .failUpdate f _ =>
    f ∈ q.failing → f.retryable = true → ∀ job ∈ q.jobs.get f.jobId, job.failsFor f.workerId = true
  | .adminUpdate a =>
    a ∈ q.acting → ∀ job ∈ q.jobs.get a.jobId, job.status ∈ a.action.from
  | _ => True

instance (q : Queue) (s : Statement) : Decidable (ChecksInTime q s) :=
  match s with
  | .failUpdate f _ => inferInstanceAs (Decidable (f ∈ q.failing → f.retryable = true →
      ∀ job ∈ q.jobs.get f.jobId, job.failsFor f.workerId = true))
  | .adminUpdate a => inferInstanceAs (Decidable (a ∈ q.acting →
      ∀ job ∈ q.jobs.get a.jobId, job.status ∈ a.action.from))
  | .scheduleFind _ _ | .scheduleCreate _ _ | .claimFind _ _ _ _ _ | .claimUpdate _
  | .byHolder _ _ _ _ | .failRead _ _ _ _ _ | .adminRead _ _ _ _ => isTrue trivial

def Queue.statusOf (q : Queue) (jobId : String) : Option JobStatus :=
  (q.jobs.get jobId).map (·.status)

/-- The worker whose call writes the job. -/
def Statement.worker : Statement → Option (String × String)
  | .byHolder jobId workerId _ _ => some (jobId, workerId)
  | .failUpdate f _ => some (f.jobId, f.workerId)
  | _ => none

/-- An admin asks for the job to be retried. -/
def Statement.retries (jobId : String) : Statement → Bool
  | .adminUpdate a => a.action = .retry && a.jobId = jobId
  | _ => false

/-- The worker's lease has not run out. -/
def BackgroundJob.leasedTo (job : BackgroundJob) (workerId : String) (now : Nat) : Bool :=
  job.heldBy workerId && job.leaseExpiresAt.any fun leaseExpiresAt => now < leaseExpiresAt

/-- Only the holder of a job's lease changes the job's fate, and it is not replaced before the lease
has run out. -/
structure HeldAlone (q : Queue) (s : Statement) : Prop where
  held : ∀ jobId workerId, s.worker = some (jobId, workerId) → (q.act s).isSome →
    ∃ job, q.jobs.get jobId = some job ∧ job.heldBy workerId = true
  claimed : ∀ c, s = .claimUpdate c → (q.act s).isSome →
    ∀ job workerId, q.jobs.get c.jobId = some job → job.leasedTo workerId c.now = false

/-- What holds from one moment of a run to a later one. -/
structure OutcomesFinal (older newer : List Statement) : Prop where
  succeeded : ∀ jobId, (Queue.empty.run older).statusOf jobId = some .succeeded →
    (Queue.empty.run (older ++ newer)).statusOf jobId = some .succeeded
  cancelled : ∀ jobId, (Queue.empty.run older).statusOf jobId = some .cancelled →
    (∀ s ∈ newer, s.retries jobId = false) →
    (Queue.empty.run (older ++ newer)).statusOf jobId = some .cancelled
  alone : RunMeets Queue.step HeldAlone (Queue.empty.run older) newer

/-! ## Attempts

How often a job is claimed between two retries by an admin. A claim counts the attempt; whether there
are any left is only asked when an attempt has failed.
-/

/-- The statement claims the job. -/
def Queue.claims (jobId : String) (q : Queue) (s : Statement) : Bool :=
  match s with
  | .claimUpdate c => c.jobId = jobId && (q.act s).isSome
  | _ => false

/-- The statement has the job retried, as an admin asked. -/
def Queue.retried (jobId : String) (q : Queue) (s : Statement) : Bool :=
  s.retries jobId && (q.act s).isSome

/-- How often a run has claimed a job since an admin last had it retried. -/
def attempts (jobId : String) (statements : List Statement) : Nat :=
  tally Queue.step (Queue.claims jobId) (Queue.retried jobId) Queue.empty 0 statements

/-- No job has been claimed more often than it may be attempted. After its last attempt it no longer
waits, and if that attempt fails the job is dead or failed. -/
structure AttemptsBounded (statements : List Statement) : Prop where
  bounded : ∀ jobId job, (Queue.empty.run statements).jobs.get jobId = some job →
    attempts jobId statements ≤ job.maxAttempts
  spent : ∀ jobId job, (Queue.empty.run statements).jobs.get jobId = some job →
    attempts jobId statements = job.maxAttempts → job.status ≠ .queued
  ends : ∀ older f delayMs, statements = older ++ [.failUpdate f delayMs] →
    ((Queue.empty.run older).act (.failUpdate f delayMs)).isSome →
    ∀ job, (Queue.empty.run statements).jobs.get f.jobId = some job →
    attempts f.jobId older = job.maxAttempts → job.status = .dead ∨ job.status = .failed

def BackgroundJob.attemptLeft (job : BackgroundJob) : Bool := job.attemptCount < job.maxAttempts

/-- A lease that has run out was not on the last attempt of the job, and a failure that has found an
attempt left still finds one when its update arrives. A job may be attempted at all. -/
def AttemptLeft (q : Queue) : Statement → Prop
  | .scheduleCreate schedule _ => schedule ∈ q.scheduling → 0 < schedule.maxAttempts
  | .claimUpdate c =>
    c ∈ q.claiming → ∀ job ∈ q.jobs.get c.jobId, job.status = .running → job.due c.now = true →
      job.attemptLeft = true
  | .failUpdate f _ =>
    f ∈ q.failing → f.retryable = true → f.read.attemptLeft = true →
      ∀ job ∈ q.jobs.get f.jobId, job.attemptLeft = true
  | _ => True

instance (q : Queue) (s : Statement) : Decidable (AttemptLeft q s) :=
  match s with
  | .scheduleCreate schedule _ =>
    inferInstanceAs (Decidable (schedule ∈ q.scheduling → 0 < schedule.maxAttempts))
  | .claimUpdate c => inferInstanceAs (Decidable (c ∈ q.claiming → ∀ job ∈ q.jobs.get c.jobId,
      job.status = .running → job.due c.now = true → job.attemptLeft = true))
  | .failUpdate f _ => inferInstanceAs (Decidable (f ∈ q.failing → f.retryable = true →
      f.read.attemptLeft = true → ∀ job ∈ q.jobs.get f.jobId, job.attemptLeft = true))
  | .scheduleFind _ _ | .claimFind _ _ _ _ _ | .byHolder _ _ _ _ | .failRead _ _ _ _ _
  | .adminRead _ _ _ _ | .adminUpdate _ => isTrue trivial

end Staaash.Jobs
