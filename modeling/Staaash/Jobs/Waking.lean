import Staaash.Library.Runs

/-!
# Waking up

The loop of `WorkerRunner.start` and `JobNotifications`: a worker that has found nothing to do sleeps until it
is notified or the poll is due. A job that is queued, claimed or cancelled notifies, in the same transaction, the
sessions that listen. Time alone also makes a job one that may be claimed, when its `runAt` comes or its lease
runs out, and of that nobody is notified. What is done with a claimed job is left out, and so are the other loops
of the worker.
-/

namespace Staaash.Jobs

/-! ## Sessions -/

/-- How far `listen` has come with a session. -/
inductive Listening
  | connecting
  | opened
  /-- The server has the session listen, and its answer is on the way. -/
  | committed
  | heard
deriving DecidableEq, Repr

structure Session where
  listening : Listening
  /-- The server has not lost it. -/
  alive : Bool
  /-- Notifications that have not arrived. -/
  inFlight : Nat
  releases : Nat
deriving DecidableEq, Repr

def Session.fresh : Session := ⟨.connecting, false, 0, 0⟩

/-- A notification is sent to whoever listens. -/
def Session.notify (session : Session) : Session :=
  if session.alive && (session.listening = .committed || session.listening = .heard) then
    { session with inFlight := session.inFlight + 1 }
  else session

/-! ## The queue -/

/-- How a job has become one that may be claimed. -/
inductive Cause
  | queued
  /-- It was queued for later, and its `runAt` has come. -/
  | due
  /-- It is running, and its lease has run out. -/
  | lapsed
deriving DecidableEq, Repr

structure Waiting where
  job : String
  cause : Cause
deriving DecidableEq, Repr

/-! ## The worker -/

def minIdleDelayMs : Nat := 1000

def maxIdleDelayMs : Nat := 30000

inductive Phase
  | arming
  | claiming
  /-- `claimDueBackgroundJob` has read a job and is yet to update it. -/
  | found (job : String)
  /-- The claim was made, and its answer is on the way. -/
  | answered (job : Option String)
  | running (job : String)
  /-- The heartbeat before the sleep, after a pass that has failed or not. -/
  | beating (failed : Bool)
  | sleeping (failed : Bool)
  | left
deriving DecidableEq, Repr

structure Worker where
  /-- Jobs of the lane that may be claimed. -/
  waiting : List Waiting
  sessions : Nat → Session
  /-- How many sessions were asked for. -/
  asked : Nat
  client : Option Nat
  /-- The session of the call of `listen` that has not returned. -/
  connecting : Option Nat
  closed : Bool
  stopping : Bool
  phase : Phase
  /-- Of the signal of `idleWait`. -/
  aborted : Bool
  processed : Bool
  idleDelayMs : Nat

namespace Worker

def new : Worker where
  waiting := []
  sessions _ := .fresh
  asked := 0
  client := none
  connecting := none
  closed := false
  stopping := false
  phase := .arming
  aborted := false
  processed := false
  idleDelayMs := minIdleDelayMs

variable (s : Worker)

def wake : Worker := { s with aborted := true }

/-- `notifyBackgroundJobStateChanged`, once its transaction commits. -/
def notify : Worker := { s with sessions := fun i => (s.sessions i).notify }

/-- A job is claimed or cancelled. -/
def take (job : String) : Worker := { s with waiting := s.waiting.filter (·.job ≠ job) }

def onSession (i : Nat) (f : Session → Session) : Worker :=
  { s with sessions := fun j => if j = i then f (s.sessions j) else s.sessions j }

/-! ## `JobNotifications` -/

def release (i : Nat) : Worker :=
  s.onSession i fun session => { session with alive := false, releases := session.releases + 1 }

def connect : Worker :=
  if s.closed || s.client.isSome || s.connecting.isSome then s
  else { s with connecting := some s.asked, asked := s.asked + 1 }

def close : Worker :=
  match s.client with
  | none => { s with closed := true }
  | some i => ({ s with closed := true, client := none } : Worker).release i

def disconnect (i : Nat) : Worker :=
  if s.client = some i then ({ s with client := none } : Worker).release i else s

/-- The pool has a session for `listen`, or none. -/
def opens (ok : Bool) : Worker :=
  match s.connecting with
  | none => s
  | some i =>
    if (s.sessions i).listening ≠ .connecting then s
    else if !ok then { s with connecting := none }
    else
      let s := s.onSession i fun session => { session with listening := .opened, alive := true }
      if s.closed then ({ s with connecting := none } : Worker).release i else { s with client := some i }

/-- The server carries `LISTEN` out. -/
def commits : Worker :=
  match s.connecting with
  | none => s
  | some i =>
    if (s.sessions i).listening = .opened && (s.sessions i).alive then
      s.onSession i fun session => { session with listening := .committed }
    else s

/-- `LISTEN` is answered. -/
def hears (ok : Bool) : Worker :=
  match s.connecting with
  | none => s
  | some i =>
    match (s.sessions i).listening, ok with
    | .committed, true =>
      let s := ({ s with connecting := none } : Worker).onSession i fun session =>
        { session with listening := .heard }
      if s.client = some i then s.wake else s
    | .opened, false | .committed, false => ({ s with connecting := none } : Worker).disconnect i
    | _, _ => s

def delivers (i : Nat) : Worker :=
  if (s.sessions i).inFlight = 0 then s
  else
    let s := s.onSession i fun session => { session with inFlight := session.inFlight - 1 }
    if s.client = some i then s.wake else s

/-- The server loses a session; what it has sent may still arrive. -/
def drops (i : Nat) : Worker := s.onSession i fun session => { session with alive := false }

/-! ## The loop -/

/-- The end of `drainDueJobs`. -/
def rest (failed : Bool) : Worker :=
  { s with
    idleDelayMs :=
      if failed then s.idleDelayMs
      else if s.processed then minIdleDelayMs
      else min (s.idleDelayMs * 2) maxIdleDelayMs
    phase := if s.stopping then .left else .beating failed }

inductive Event
  /-- A job is queued, by anyone. -/
  | queues (job : String)
  /-- The `runAt` of a queued job comes. -/
  | comesDue (job : String)
  /-- The lease of a running job runs out. -/
  | lapses (job : String)
  /-- A job is claimed by another worker, or cancelled. -/
  | takes (job : String)
  /-- A running job whose lease has run out is renewed after all, or finished by a statement whose notification is
  yet to be sent. -/
  | renews (job : String)
  /-- Any other change that is notified. -/
  | changes
  | arms
  /-- The claim reads the job at a place of the queue. -/
  | finds (place : Nat)
  | updates
  | claimFails
  | claimed
  | handled (ok : Bool)
  | beats
  | wakes
  | elapses
  | opens (ok : Bool)
  | commits
  | hears (ok : Bool)
  | delivers (i : Nat)
  | drops (i : Nat)
  /-- `error` or `end`. -/
  | loses (i : Nat)
  | stops
deriving DecidableEq, Repr

def step : Event → Worker
  | .queues job => ({ s with waiting := s.waiting ++ [⟨job, .queued⟩] } : Worker).notify
  | .comesDue job => { s with waiting := s.waiting ++ [⟨job, .due⟩] }
  | .lapses job => { s with waiting := s.waiting ++ [⟨job, .lapsed⟩] }
  | .takes job => (s.take job).notify
  | .renews job => { s with waiting := s.waiting.filter (· ≠ ⟨job, .lapsed⟩) }
  | .changes => s.notify
  | .arms =>
    if s.phase ≠ .arming then s
    else if s.stopping then { s with phase := .left }
    else ({ s with aborted := false, processed := false, phase := .claiming } : Worker).connect
  | .finds place =>
    if s.phase ≠ .claiming then s
    else if s.waiting = [] then { s with phase := .answered none }
    else
      match s.waiting[place]? with
      | none => s
      | some found => { s with phase := .found found.job }
  | .updates =>
    match s.phase with
    | .found job =>
      if job ∈ s.waiting.map (·.job) then
        ({ s.take job with phase := .answered (some job) } : Worker).notify
      -- Another worker was first, or a lease was renewed, and the claim does not try a second job.
      else { s with phase := .answered none }
    | _ => s
  | .claimFails =>
    match s.phase with
    | .claiming | .found _ | .answered _ => s.rest true
    | _ => s
  | .claimed =>
    match s.phase with
    | .answered none => s.rest false
    | .answered (some job) => if s.stopping then s.rest false else { s with phase := .running job }
    | _ => s
  | .handled ok =>
    match s.phase with
    | .running _ =>
      if !ok then s.rest true
      else if s.stopping then ({ s with processed := true } : Worker).rest false
      else { s with processed := true, phase := .claiming }
    | _ => s
  | .beats =>
    match s.phase with
    | .beating failed => { s with phase := .sleeping failed }
    | _ => s
  | .wakes =>
    match s.phase with
    | .sleeping _ => if s.aborted then { s with phase := .arming } else s
    | _ => s
  | .elapses =>
    match s.phase with
    | .sleeping _ => { s with phase := .arming }
    | _ => s
  | .opens ok => s.opens ok
  | .commits => s.commits
  | .hears ok => s.hears ok
  | .delivers i => s.delivers i
  | .drops i => s.drops i
  | .loses i => (s.drops i).disconnect i
  | .stops => ({ s with stopping := true, aborted := true } : Worker).close

def run (events : List Event) : Worker := events.foldl step new

/-- No lease is renewed between the read and the update of a claim of its job. -/
def LeavesTheFound : Event → Prop
  | .renews job => s.phase ≠ .found job
  | _ => True

instance : ∀ event, Decidable (s.LeavesTheFound event)
  | .renews _ => inferInstanceAs (Decidable (_ ≠ _))
  | .queues _ | .comesDue _ | .lapses _ | .takes _ | .changes | .arms | .finds _ | .updates | .claimFails
  | .claimed | .handled _ | .beats | .wakes | .elapses | .opens _ | .commits | .hears _ | .delivers _ | .drops _
  | .loses _ | .stops => isTrue trivial

/-- The worker listens, and has had every notification. -/
def UpToDate : Prop :=
  ∃ i, s.client = some i ∧ (s.sessions i).listening = .heard ∧ (s.sessions i).alive = true ∧
    (s.sessions i).inFlight = 0

end Worker

end Staaash.Jobs
