import Staaash.Jobs.Calls

/-!
# The handling of a job

`runClaimedJob`, `finishJob` and `handleJobError` of `runner.ts`: from the claim of a job to the update that
settles it, taking turns with everyone else who works on the jobs. What the handler does is an answer. A call
may fail before it takes effect, and the answer of one that took effect may be lost.
-/

namespace Staaash.Jobs

/-- What is thrown, with the code of a `TerminalJobError`. -/
structure Thrown where
  code : Option String
  isAbortError : Bool
  errorMessage : String
deriving DecidableEq, Repr

/-- What the handling of a job does next. -/
inductive Stage
  /-- The handler runs. -/
  | handling
  /-- `finishJob` asks for the job. -/
  | finishing
  /-- A cancellation is acknowledged, by `finishJob` or by `handleJobError`. -/
  | acking (caught : Bool)
  | succeeding
  | scheduling
  /-- `handleJobError` asks for the job. -/
  | catching (error : Thrown)
  | givingUp (error : Thrown)
  /-- `markBackgroundJobFailed` reads the job, and updates it. -/
  | failing (error : Thrown)
  | retrying (f : Failing)
  /-- What depends on the job is told of its failure. -/
  | noting
  | settled
  /-- An update has found the job in another state than it asks for. -/
  | refused
  /-- A call has failed where nothing catches. -/
  | broken
  /-- The job is left leased for restart recovery. -/
  | left
deriving DecidableEq

def Stage.ended : Stage → Bool
  | .settled | .refused | .broken | .left => true
  | _ => false

/-- What comes of a call. -/
inductive Reply
  | arrives
  | fails (error : Thrown)
  | isLost (error : Thrown)
deriving DecidableEq, Repr

structure Handling where
  q : Queue
  jobId : String
  workerId : String
  stage : Stage
  /-- Of the signal that the handler is given. -/
  aborted : Bool
  stopping : Bool

namespace Handling

def start (q : Queue) (jobId workerId : String) : Handling := ⟨q, jobId, workerId, .handling, false, false⟩

inductive Event
  | others (s : Statement)
  /-- Of the lease timer and of `updateProgress`. -/
  | renews (leaseMs now : Nat)
  /-- The job takes too long, or is found cancelled. -/
  | aborts
  | stops
  | handled (thrown : Option Thrown)
  /-- The call that the stage is at. -/
  | calls (now delayMs : Nat) (reply : Reply)
deriving DecidableEq

variable (s : Handling)

def cancelled : Bool := s.q.statusOf s.jobId = some .cancelled

/-- The `catch` of `runClaimedJob`. -/
def raise (error : Thrown) : Handling := { s with stage := if s.stopping then .left else .catching error }

def notSucceeded : Thrown :=
  ⟨none, false, "Background job " ++ s.jobId ++ " could not be marked succeeded."⟩

/-- `throwIfAborted` -/
def abortError : Thrown := ⟨none, true, "This operation was aborted"⟩

/-- The call of an update goes on as the reply and the effect say. -/
def update (deed : Statement) (reply : Reply) (done refused : Handling → Handling)
    (lost : Thrown → Handling → Handling) : Handling :=
  match reply with
  | .fails error => lost error s
  | .isLost error => lost error { s with q := s.q.step deed }
  | .arrives =>
    match s.q.act deed with
    | some q => done { s with q }
    | none => refused s

def call (now delayMs : Nat) (reply : Reply) : Handling :=
  match s.stage with
  | .finishing =>
    match reply with
    | .fails error | .isLost error => s.raise error
    | .arrives =>
      if s.cancelled then { s with stage := .acking false }
      else if s.stopping then { s with stage := .left }
      else if s.aborted then s.raise abortError
      else { s with stage := .succeeding }
  | .acking caught =>
    match reply with
    | .arrives => { s with stage := .settled }
    | .fails error | .isLost error => if caught then { s with stage := .broken } else s.raise error
  | .succeeding =>
    s.update (.byHolder s.jobId s.workerId .succeed now) reply (fun s => { s with stage := .scheduling })
      (fun s => s.raise s.notSucceeded) (fun error s => s.raise error)
  | .scheduling =>
    match reply with
    | .arrives => { s with stage := .settled }
    | .fails error | .isLost error => s.raise error
  | .catching error =>
    if reply = .arrives && s.cancelled then { s with stage := .acking true }
    else if error.code.isSome || error.isAbortError then { s with stage := .givingUp error }
    else { s with stage := .failing error }
  | .givingUp error =>
    s.update
      (.byHolder s.jobId s.workerId (.terminal ⟨error.errorMessage, some (error.code.getD "timeout")⟩) now) reply
      (fun s => { s with stage := .noting }) (fun s => { s with stage := .refused })
      (fun _ s => { s with stage := .broken })
  | .failing error =>
    match reply with
    | .fails _ | .isLost _ => { s with stage := .broken }
    | .arrives =>
      -- `markBackgroundJobFailed` throws for a job that is not there or locked by another worker
      match s.q.jobs.get s.jobId with
      | none => { s with stage := .refused }
      | some job =>
        match s.q.act (.failRead s.jobId s.workerId ⟨error.errorMessage, none⟩ true now) with
        | none => { s with stage := .refused }
        | some q =>
          { s with q, stage := .retrying ⟨s.jobId, s.workerId, ⟨error.errorMessage, none⟩, true, now, job⟩ }
  | .retrying f =>
    s.update (.failUpdate f delayMs) reply (fun s => { s with stage := .noting })
      (fun s => { s with stage := .refused }) (fun _ s => { s with stage := .broken })
  | .noting =>
    match reply with
    | .arrives => { s with stage := .settled }
    | .fails _ | .isLost _ => { s with stage := .broken }
  | .handling | .settled | .refused | .broken | .left => s

def step : Event → Handling
  | .others statement => { s with q := s.q.step statement }
  | .renews leaseMs now => { s with q := s.q.step (.byHolder s.jobId s.workerId (.renew leaseMs) now) }
  | .aborts => { s with aborted := true }
  | .stops => { s with aborted := true, stopping := true }
  | .handled thrown =>
    if s.stage = .handling then
      match thrown with
      | none => { s with stage := .finishing }
      | some error => s.raise error
    else s
  | .calls now delayMs reply => s.call now delayMs reply

end Handling

/-- The worker that a statement is made by. -/
def Statement.madeBy : Statement → Option String
  | .claimFind workerId _ _ _ _ | .byHolder _ workerId _ _ | .failRead _ workerId _ _ _ => some workerId
  | .claimUpdate c => some c.workerId
  | .failUpdate f _ => some f.workerId
  | .scheduleFind _ _ | .scheduleCreate _ _ | .adminRead _ _ _ _ | .adminUpdate _ => none

/-- Nobody else works under the name of the worker. -/
def Handling.Apart (s : Handling) : Handling.Event → Prop
  | .others statement => statement.madeBy ≠ some s.workerId
  | _ => True

instance (s : Handling) (e : Handling.Event) : Decidable (s.Apart e) :=
  match e with
  | .others statement => inferInstanceAs (Decidable (statement.madeBy ≠ some s.workerId))
  | .renews _ _ | .aborts | .stops | .handled _ | .calls _ _ _ => isTrue trivial

/-- A shutdown, or a call that failed or whose answer was lost. -/
def Handling.Event.disturbs : Handling.Event → Bool
  | .stops => true
  | .calls _ _ reply => reply ≠ .arrives
  | _ => false

/-- A worker holds the job. -/
def Queue.held (q : Queue) (jobId workerId : String) : Bool :=
  (q.jobs.get jobId).any fun job => job.heldBy workerId

end Staaash.Jobs
