import Mathlib.Data.List.Basic

/-!
# The transfer pool

`pool` of the desktop client, at the grain of its promises: a worker runs from one `await` to the next in
one step, and a work promise that settles queues the turn of the worker that awaits it behind the turns
already queued. Items are told apart by their lane and their place in it.
-/

namespace Staaash.Transfers

/-- A lane as the caller passes it. -/
structure Items (α : Type) where
  items : List α
  size : Nat
deriving Repr

/-- How a work promise settles. -/
inductive Outcome (ε : Type)
  | resolved
  | rejected (error : ε)
deriving DecidableEq, Repr

/-- How far a worker is. -/
inductive Turn (ε : Type)
  | fresh
  /-- It awaits the work on an item of its lane. -/
  | awaiting (item : Nat)
  /-- What it awaited has settled. -/
  | queued
  | ended
  /-- Its own promise is rejected. -/
  | threw (error : ε)
deriving DecidableEq, Repr

/-- What an observer of the calls sees. -/
inductive Event (ε : Type)
  | started (lane item : Nat)
  | settled (lane item : Nat) (outcome : Outcome ε)
  /-- A worker is given a rejection. -/
  | caught (error : ε)
  | onFatal
deriving DecidableEq, Repr

/-- The workers in the order in which they are called, each by its lane. -/
def workersFrom {α : Type} : Nat → List (Items α) → List Nat
  | _, [] => []
  | i, lane :: rest => List.replicate (min lane.size lane.items.length) i ++ workersFrom (i + 1) rest

structure Pool (α ε : Type) where
  lanes : List (Items α)
  workers : List Nat
  /-- `next`, of each lane. -/
  next : Nat → Nat
  failure : Option ε
  turn : Nat → Turn ε
  /-- How many workers were called. -/
  launched : Nat
  /-- The turns that are queued. -/
  jobs : List (Nat × Outcome ε)
  /-- What the promise of `pool` came to. -/
  result : Option (Except ε Unit)
  /-- What happened, oldest first; nothing reads it. -/
  log : List (Event ε)

inductive Act (ε : Type)
  /-- The next worker is called. -/
  | launch
  /-- The work that the worker awaits settles. -/
  | settle (worker : Nat) (outcome : Outcome ε)
  /-- The turn that is first in the queue runs. -/
  | resume
  /-- `Promise.all` has settled. -/
  | finish
deriving DecidableEq, Repr

namespace Pool

variable {α ε : Type}

def start (lanes : List (Items α)) : Pool α ε where
  lanes := lanes
  workers := workersFrom 0 lanes
  next := fun _ => 0
  failure := none
  turn := fun _ => .fresh
  launched := 0
  jobs := []
  result := none
  log := []

/-- `items.length`, of a lane. -/
def width (s : Pool α ε) (lane : Nat) : Nat := (s.lanes[lane]?.map fun l => l.items.length).getD 0

def setTurn (s : Pool α ε) (worker : Nat) (turn : Turn ε) : Pool α ε :=
  { s with turn := fun w => if w = worker then turn else s.turn w }

/-- `while (!failure && next < items.length) await work(items[next++]);`, up to the `await`. -/
def goOn (s : Pool α ε) (worker lane : Nat) : Pool α ε :=
  if s.failure.isNone && decide (s.next lane < s.width lane) then
    { s.setTurn worker (.awaiting (s.next lane)) with
      next := fun l => if l = lane then s.next lane + 1 else s.next l
      log := s.log ++ [.started lane (s.next lane)] }
  else s.setTurn worker .ended

/-- `catch (error) { if (failure) return; failure = { error }; onFatal(); }`, where `onFatal` throws or
returns. -/
def catchError (onFatal : Option ε) (s : Pool α ε) (worker : Nat) (error : ε) : Pool α ε :=
  if s.failure.isSome then { s.setTurn worker .ended with log := s.log ++ [.caught error] }
  else
    { s.setTurn worker (match onFatal with | none => .ended | some thrown => .threw thrown) with
      failure := some error
      log := s.log ++ [.caught error, .onFatal] }

def threw? : Turn ε → Option ε
  | .threw error => some error
  | _ => none

def hasEnded : Turn ε → Bool
  | .ended | .threw _ => true
  | _ => false

/-- The lane whose work the worker awaits, and the item. -/
def awaits (s : Pool α ε) (worker : Nat) : Option (Nat × Nat) :=
  match s.workers[worker]?, s.turn worker with
  | some lane, .awaiting item => some (lane, item)
  | _, _ => none

def launch (s : Pool α ε) : Pool α ε :=
  match s.workers[s.launched]? with
  | none => s
  | some lane => { s with launched := s.launched + 1 }.goOn s.launched lane

def settle (s : Pool α ε) (worker : Nat) (outcome : Outcome ε) : Pool α ε :=
  match s.awaits worker with
  | none => s
  | some (lane, item) =>
    { s.setTurn worker .queued with
      jobs := s.jobs ++ [(worker, outcome)]
      log := s.log ++ [.settled lane item outcome] }

/-- No turn runs before every worker was called. -/
def resume (onFatal : Option ε) (s : Pool α ε) : Pool α ε :=
  if s.launched < s.workers.length then s
  else
    match s.jobs with
    | [] => s
    | (worker, .rejected error) :: rest => catchError onFatal { s with jobs := rest } worker error
    | (worker, .resolved) :: rest =>
      match s.workers[worker]? with
      | none => s
      | some lane => goOn { s with jobs := rest } worker lane

/-- `Promise.all` rejects with the first worker that does, and else waits for all of them. -/
def finish (s : Pool α ε) : Pool α ε :=
  if s.launched < s.workers.length || s.result.isSome then s
  else
    match (List.range s.workers.length).findSome? fun w => threw? (s.turn w) with
    | some thrown => { s with result := some (.error thrown) }
    | none =>
      if (List.range s.workers.length).all fun w => hasEnded (s.turn w) then
        { s with result := some (match s.failure with | none => .ok () | some error => .error error) }
      else s

/-- `onFatal` is what the callback throws, if it does; it is called once at most. -/
def step (onFatal : Option ε) (s : Pool α ε) : Act ε → Pool α ε
  | .launch => s.launch
  | .settle worker outcome => s.settle worker outcome
  | .resume => s.resume onFatal
  | .finish => s.finish

def run (onFatal : Option ε) (s : Pool α ε) (acts : List (Act ε)) : Pool α ε :=
  acts.foldl (step onFatal) s

/-! ## What a pool is for -/

def started? : Event ε → Option (Nat × Nat)
  | .started lane item => some (lane, item)
  | _ => none

def settled? : Event ε → Option (Nat × Nat)
  | .settled lane item _ => some (lane, item)
  | _ => none

def rejection? : Event ε → Option ε
  | .settled _ _ (.rejected error) => some error
  | _ => none

def isCaught : Event ε → Bool
  | .caught _ => true
  | _ => false

def isOnFatal : Event ε → Bool
  | .onFatal => true
  | _ => false

/-- The items that were started, in order. -/
def starts (s : Pool α ε) : List (Nat × Nat) := s.log.filterMap started?

/-- The items whose work has settled, in order. -/
def settles (s : Pool α ε) : List (Nat × Nat) := s.log.filterMap settled?

/-- The errors of the work promises that were rejected, in order. -/
def rejections (s : Pool α ε) : List ε := s.log.filterMap rejection?

/-- The items whose work runs. -/
def running (s : Pool α ε) : List (Nat × Nat) := s.starts.filter fun item => !s.settles.contains item

/-- Nothing runs, and no turn is queued. -/
def Idle (s : Pool α ε) : Prop :=
  s.workers.length ≤ s.launched ∧ s.jobs = [] ∧ ∀ w, s.awaits w = none

/-- What the caller relies on. -/
structure EndsCleanly (s : Pool α ε) : Prop where
  startedOnce : s.starts.Nodup
  atMostSize : ∀ i lane, s.lanes[i]? = some lane → (s.running.filter (·.1 = i)).length ≤ lane.size
  /-- Once a rejection has reached the pool, no item is started. -/
  stops : s.log.Pairwise fun earlier later => isCaught earlier = true → started? later = none
  fatalOnce : s.log.countP isOnFatal ≤ 1
  fatal : s.result.isSome → (s.log.countP isOnFatal = 1 ↔ s.rejections ≠ [])
  waits : s.result.isSome → s.running = []
  resolves : s.result = some (.ok ()) → s.rejections = [] ∧
    ∀ i lane, s.lanes[i]? = some lane → ∀ k < lane.items.length, (i, k) ∈ s.settles
  rejects : ∀ error, s.result = some (.error error) → s.rejections.head? = some error
  settles : s.Idle → s.finish.result.isSome

end Pool

end Staaash.Transfers
