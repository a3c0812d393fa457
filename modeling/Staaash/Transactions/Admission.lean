import Staaash.Library.TicketChains

/-!
# Admission to storage

`waitForStorageAdmission` of one process: the calls of an owner take turns, and a call whose operation is
refused tries again. Calls are numbered in order of arrival. What runs by itself between two awaits is one
event. Timers may run out, listeners of an aborted signal be told and promise reactions run at any time
after they are due; the clock may show anything.
-/

namespace Staaash.Transactions

open Staaash.Library

def admissionMs : Nat := 5000

def maxWaitingRequests : Int := 32

/-- How a wait came to its end. -/
inductive Verdict
  | passed
  | busy
  | cancelled
deriving DecidableEq, Repr

inductive Phase
  /-- It awaits `waitForOwnerTurn`. -/
  | queued (verdict : Option Verdict)
  /-- It has its owner's turn, or has no owner, and begins. -/
  | turn
  | operating (deadline attempt : Nat)
  /-- It awaits `waitForAdmissionRetry`. -/
  | pausing (deadline attempt : Nat) (verdict : Option Verdict)
  /-- `releaseOwner` comes next. -/
  | leaving
  | released
  /-- It ended without a turn. -/
  | refused (verdict : Verdict)
deriving DecidableEq, Repr

structure Call where
  signal : Option Nat
  ticket : Option (Ticket String)
  phase : Phase
  /-- `waiting`, of the waiter that is in use. -/
  waiting : Bool
deriving DecidableEq, Repr

structure Process where
  waitingRequests : Int
  /-- `ownerTails`: each tail by the call whose ticket it belongs to. -/
  ownerTails : String → Option Nat
  calls : List Call
  /-- The signals that are aborted. -/
  aborted : List Nat
  /-- The calls that were given their owner's turn, oldest first; nothing reads it. -/
  admitted : List Nat

/-- What an operation comes to. -/
inductive Result
  | success
  | failure (retryable : Bool)
deriving DecidableEq, Repr

inductive Event
  | arrive (ownerUserId : Option String) (signal : Option Nat)
  | abort (signal : Nat)
  /-- The listener of the call's signal. -/
  | onAbort (id : Nat)
  /-- The timer that the call waits for. -/
  | expire (id : Nat)
  /-- `prior.then(() => finish())`. -/
  | pass (id : Nat)
  /-- The tail of the call's ticket resolves. -/
  | settleTail (id : Nat)
  /-- `tail.then(..)`, which clears `ownerTails`. -/
  | forget (id : Nat)
  /-- The operation comes to an end. -/
  | finish (id : Nat) (result : Result) (now : Nat)
  /-- The call goes on after an await. -/
  | resume (id : Nat) (now : Nat)
deriving DecidableEq, Repr

def Call.complete (c : Call) : Call :=
  { c with ticket := c.ticket.map fun t => { t with completed := true } }

namespace Process

def init : Process := ⟨0, fun _ => none, [], [], []⟩

def signalAborted (s : Process) (signal : Option Nat) : Bool := signal.any (s.aborted.contains ·)

def ticket (s : Process) (id : Nat) : Option (Ticket String) := s.calls[id]?.bind Call.ticket

def push (s : Process) (c : Call) : Process := { s with calls := s.calls ++ [c] }

def put (s : Process) (id : Nat) (c : Call) : Process := { s with calls := s.calls.set id c }

def setTail (s : Process) (ownerUserId : String) (tail : Option Nat) : Process :=
  { s with ownerTails := Function.update s.ownerTails ownerUserId tail }

/-- `waiter.acquire()`, where the call goes on as `c`; it throws at the limit. -/
def acquire (s : Process) (id : Nat) (c : Call) : Option Process :=
  if c.waiting then some (s.put id c)
  else if s.waitingRequests ≥ maxWaitingRequests then none
  else some (put { s with waitingRequests := s.waitingRequests + 1 } id { c with waiting := true })

/-- `waiter.release()`, where the call goes on as `c`. -/
def release (s : Process) (id : Nat) (c : Call) : Process :=
  if c.waiting then put { s with waitingRequests := s.waitingRequests - 1 } id { c with waiting := false }
  else s.put id c

/-- The call up to its first await, which is in `acquireOwnerTurn` where the owner has a tail. -/
def arrive (s : Process) (ownerUserId : Option String) (signal : Option Nat) : Process :=
  let id := s.calls.length
  if s.signalAborted signal then s.push ⟨signal, none, .refused .cancelled, false⟩
  else
    match ownerUserId.filter (· ≠ "") with
    | none => s.push ⟨signal, none, .turn, false⟩
    | some owner =>
      match s.ownerTails owner with
      | none =>
        let s := s.push ⟨signal, some ⟨owner, none, false, false, false⟩, .turn, false⟩
        { s.setTail owner (some id) with admitted := s.admitted ++ [id] }
      | some prior =>
        if s.waitingRequests ≥ maxWaitingRequests then s.push ⟨signal, none, .refused .busy, false⟩
        else
          let s := s.push ⟨signal, some ⟨owner, some prior, false, false, false⟩, .queued none, true⟩
          { s.setTail owner (some id) with waitingRequests := s.waitingRequests + 1 }

/-- The rest of `acquireOwnerTurn`, after `waitForOwnerTurn`. -/
def takeTurn (s : Process) (id : Nat) (c : Call) (verdict : Verdict) : Process :=
  if verdict = .passed then
    if s.signalAborted c.signal then s.release id { c with phase := .refused .cancelled }.complete
    else { s.release id { c with phase := .turn } with admitted := s.admitted ++ [id] }
  else s.release id { c with phase := .refused verdict }.complete

/-- The loop of `retryStorageAdmission`, after `waitForAdmissionRetry`. -/
def tryAgain (s : Process) (id : Nat) (c : Call) (deadline attempt : Nat) (verdict : Verdict)
    (now : Nat) : Process :=
  if verdict ≠ .passed || decide (deadline ≤ now) || s.signalAborted c.signal then
    s.release id { c with phase := .leaving }
  else s.put id { c with phase := .operating deadline (attempt + 1) }

def resume (s : Process) (id : Nat) (c : Call) (now : Nat) : Process :=
  match c.phase with
  | .queued (some verdict) => s.takeTurn id c verdict
  | .turn =>
    if s.signalAborted c.signal then s.put id { c with phase := .leaving }
    else s.put id { c with phase := .operating (now + admissionMs) 0 }
  | .pausing deadline attempt (some verdict) => s.tryAgain id c deadline attempt verdict now
  | .leaving => s.put id { c with phase := .released }.complete
  | _ => s

/-- `retryStorageAdmission` after an attempt. -/
def finish (s : Process) (id : Nat) (c : Call) (result : Result) (now : Nat) : Process :=
  match c.phase, result with
  | .operating _ _, .success => s.release id { c with phase := .leaving }
  | .operating deadline attempt, .failure retryable =>
    if !retryable || decide (deadline ≤ now) then s.release id { c with phase := .leaving }
    else
      -- the retry's promise is rejected at once where the signal is aborted
      let verdict := if s.signalAborted c.signal then some .cancelled else none
      match s.acquire id { c with phase := .pausing deadline attempt verdict } with
      | none => s.release id { c with phase := .leaving }
      | some s => s
  | _, _ => s

/-- The first one to settle a wait settles it. -/
def decideWait (s : Process) (id : Nat) (c : Call) (queue pause : Option Verdict) : Process :=
  match c.phase with
  | .queued none => s.put id { c with phase := .queued queue }
  | .pausing deadline attempt none => s.put id { c with phase := .pausing deadline attempt pause }
  | _ => s

def isResolved (s : Process) (id : Nat) : Bool := (s.ticket id).any Ticket.resolved

def pass (s : Process) (id : Nat) (c : Call) : Process :=
  match c.ticket with
  | some ⟨_, some prior, _, _, _⟩ =>
    if s.isResolved prior then s.decideWait id c (some .passed) none else s
  | _ => s

def settleTail (s : Process) (id : Nat) (c : Call) : Process :=
  match c.ticket with
  | some t =>
    if t.completed && t.prior.all s.isResolved then
      s.put id { c with ticket := some { t with resolved := true } }
    else s
  | none => s

def forget (s : Process) (id : Nat) (c : Call) : Process :=
  match c.ticket with
  | some t =>
    if t.resolved then
      let s := s.put id { c with ticket := some { t with forgotten := true } }
      if s.ownerTails t.owner = some id then s.setTail t.owner none else s
    else s
  | none => s

def onCall (s : Process) (id : Nat) (f : Call → Process) : Process :=
  match s.calls[id]? with
  | none => s
  | some c => f c

def step (s : Process) : Event → Process
  | .arrive ownerUserId signal => s.arrive ownerUserId signal
  | .abort signal => { s with aborted := signal :: s.aborted }
  | .onAbort id => s.onCall id fun c =>
    if s.signalAborted c.signal then s.decideWait id c (some .cancelled) (some .cancelled) else s
  | .expire id => s.onCall id fun c => s.decideWait id c (some .busy) (some .passed)
  | .pass id => s.onCall id (s.pass id)
  | .settleTail id => s.onCall id (s.settleTail id)
  | .forget id => s.onCall id (s.forget id)
  | .finish id result now => s.onCall id fun c => s.finish id c result now
  | .resume id now => s.onCall id fun c => s.resume id c now

def run (s : Process) (events : List Event) : Process := events.foldl step s

end Process

/-! ## What admission is for -/

/-- The call waits: for its owner's turn, or to get its operation through after a refusal. -/
def Phase.waits : Phase → Bool
  | .queued _ | .pausing _ _ _ => true
  | .operating _ attempt => decide (0 < attempt)
  | _ => false

/-- Between admission and release. -/
def Phase.isAdmitted : Phase → Bool
  | .turn | .operating _ _ | .pausing _ _ _ | .leaving => true
  | _ => false

def Phase.isOver : Phase → Bool
  | .released | .refused _ => true
  | _ => false

namespace Process

def ownerOf (s : Process) (id : Nat) : Option String := (s.ticket id).map Ticket.owner

/-- The call of the ticket is between admission and release. -/
def Holds (s : Process) (id : Nat) (t : Ticket String) : Prop :=
  ∃ c, s.calls[id]? = some c ∧ c.ticket = some t ∧ c.phase.isAdmitted = true

/-- The call of the ticket has released its turn, or ended without one: it waited too long, or was
aborted. -/
def HasEnded (s : Process) (id : Nat) : Prop :=
  ∃ c, s.calls[id]? = some c ∧
    (c.phase = .released ∧ id ∈ s.admitted ∨ c.phase = .refused .busy ∨
      c.phase = .refused .cancelled ∧ s.signalAborted c.signal = true)

/-- The ticket is not completed, or a reaction that follows its completion is still to run. -/
def Unfinished (s : Process) (id : Nat) (t : Ticket String) : Prop :=
  s.ticket id = some t ∧
    (t.completed = false ∨ (t.resolved = false ∧ t.prior.all s.isResolved = true) ∨
      (t.resolved = true ∧ t.forgotten = false))

end Process

end Staaash.Transactions
