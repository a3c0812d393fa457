import Mathlib.Algebra.Ring.Nat
import Staaash.Library.Runs

/-!
# The sync engine's queue

`SyncEngine`: the works that wait for one another, the wake-ups, and the calls that reach the engine at any
time. What a pass does to the folders is left out, all but what decides the next wake-up. Times are
milliseconds. The callbacks of the host do not throw, and neither does what `status` reads of the store.
-/

namespace Staaash.Engine

def pollMs : Nat := 60000
def fullPassMs : Nat := 10 * 60000
def debounceMs : Nat := 1500
def retrySoonMs : Nat := 5000

structure SyncPair where
  id : String
  localPath : String
deriving DecidableEq, Repr

/-- `EngineConfig`. The number tells two objects apart that say the same, as `!==` does. -/
structure Config where
  object : Nat
  serverUrl : String
  token : String
  pairs : List SyncPair
  paused : Bool
deriving DecidableEq, Repr

inductive Failure
  | offline
  | problem
deriving DecidableEq, Repr

/-- What `exclusive` is asked to run, and the end of `shutDown`. -/
inductive Work
  | pass
  | settings
  | choice
  | close
deriving DecidableEq, Repr

/-- How far the running work is. -/
inductive Stage
  | settings
  | choice
  | pulling (config : Config)
  /-- The first of the remaining pairs is with `syncPair`. -/
  | syncing (config : Config) (rest : List SyncPair) (retrySoon pullAgain : Bool)
  /-- `recordFailure` asks the server, for a pair before the remaining ones or for the whole pass. -/
  | asking (config : Config) (rest : Option (List SyncPair)) (retrySoon pullAgain : Bool)
  | closing
deriving DecidableEq, Repr

/-- A call of `configure` that has not returned. -/
inductive Call
  | watching
  | waiting (work : Nat)
  | going
deriving DecidableEq, Repr

structure SyncEngine where
  now : Nat
  config : Option Config
  stopped : Bool
  signedOut : Bool
  liveConnected : Bool
  failure : Option Failure
  refusedPasses : Nat
  /-- The number of the pass whose promise is kept in `passWaiting`. -/
  passWaiting : Option Nat
  /-- When the timer is due. -/
  timer : Option Nat
  queue : List (Nat × Work)
  running : Option (Nat × Stage)
  calls : List Call
  /-- How many works were asked for. -/
  asked : Nat
  /-- The works whose promise is settled, oldest first; nothing reads it. -/
  settled : List Nat
  /-- The works that have begun, oldest first; nothing reads it. -/
  begun : List Nat
  /-- How often the store was closed; nothing reads it. -/
  closed : Nat
deriving DecidableEq, Repr

namespace SyncEngine

def new : SyncEngine :=
  { now := 0, config := none, stopped := false, signedOut := false, liveConnected := false
    failure := none, refusedPasses := 0, passWaiting := none, timer := none, queue := [], running := none
    calls := [], asked := 0, settled := [], begun := [], closed := 0 }

variable (s : SyncEngine)

/-! ## Asking -/

/-- `this.queue.then(..)` -/
def enqueue (w : Work) : SyncEngine :=
  { s with queue := s.queue ++ [(s.asked, w)], asked := s.asked + 1 }

def request (delay : Nat) : SyncEngine :=
  if s.stopped then s else { s with timer := some (s.now + delay) }

/-- The engine, and the pass that the caller waits for. -/
def syncNow : SyncEngine × Nat :=
  match s.passWaiting with
  | some n => (s, n)
  | none => ({ s.enqueue .pass with passWaiting := some s.asked }, s.asked)

/-- The last part of `configure` up to its wait. -/
def exclusiveSettings : SyncEngine := { s.enqueue .settings with calls := s.calls ++ [.waiting s.asked] }

/-- `configure` up to its first wait. -/
def configure (config : Config) : SyncEngine :=
  let previous := s.config
  let s := { s with config := some config }
  let s := if previous.map (·.serverUrl) ≠ some config.serverUrl || previous.map (·.token) ≠ some config.token
    then { s with signedOut := false } else s
  if previous.map (·.pairs.map (·.localPath)) ≠ some (config.pairs.map (·.localPath)) then
    { s with calls := s.calls ++ [.watching] }
  else s.exclusiveSettings

/-- `stop`, which shuts the engine down once. -/
def stop : SyncEngine :=
  if s.stopped then s else { s.enqueue .close with stopped := true, timer := none }

def signOut : SyncEngine := { s with signedOut := true }

/-! ## Works -/

/-- The promise of the running work, or of one that was refused, is settled. -/
def settle (n : Nat) (resolved : Bool) : SyncEngine :=
  { s with
    running := none
    settled := s.settled ++ [n]
    calls := if resolved then s.calls.map fun c => if c = .waiting n then .going else c
      else s.calls.filter (· ≠ .waiting n) }

def enter (n : Nat) (stage : Stage) : SyncEngine := { s with running := some (n, stage) }

/-- How long a pass that has ended lets the next one wait. -/
def nextDelay (retrySoon pullAgain : Bool) : Nat :=
  if pullAgain then
    if s.refusedPasses ≤ 2 then 0 else min pollMs (1000 * 2 ^ (s.refusedPasses - 2))
  else if s.failure.isSome || !s.liveConnected then pollMs
  else if retrySoon then retrySoonMs
  else fullPassMs

/-- The end of `pass`, from its `finally` on. -/
def endPass (n : Nat) (retrySoon pullAgain : Bool) : SyncEngine :=
  let s := { s with refusedPasses := if pullAgain then s.refusedPasses + 1 else 0 }
  (s.request (s.nextDelay retrySoon pullAgain)).settle n true

/-- The loop over the pairs, from its head. -/
def nextPair (n : Nat) (config : Config) (rest : List SyncPair) (retrySoon pullAgain : Bool) : SyncEngine :=
  match rest with
  | [] => s.endPass n retrySoon pullAgain
  | _ :: rest =>
    if s.config ≠ some config then s.endPass n retrySoon pullAgain
    else s.enter n (.syncing config rest retrySoon pullAgain)

/-- `pass` up to its first wait. -/
def pass (n : Nat) : SyncEngine :=
  match s.config with
  | none => s.settle n true
  | some config =>
    if s.signedOut || s.stopped then s.settle n true
    else if config.paused then s.settle n true
    else s.enter n (.pulling config)

/-- The first work of the queue has its turn. -/
def start : SyncEngine :=
  match s.running, s.queue with
  | none, (n, work) :: queue =>
    let s := { s with queue }
    if s.stopped && work ≠ .close then s.settle n false
    else
      let s := { s with begun := s.begun ++ [n] }
      match work with
      | .pass => { s with passWaiting := none }.pass n
      | .settings => s.enter n .settings
      | .choice => s.enter n .choice
      | .close => s.enter n .closing
  | _, _ => s

/-- What the running work was waiting for. -/
inductive Answer
  /-- The settings are written down, or the store has failed. -/
  | stored (ok : Bool)
  /-- A choice is made, and whether it asks for a pass. -/
  | chosen (ok asks : Bool)
  | pulled
  | synced (retrySoon pullAgain : Bool)
  | signedOut
  | fails
  /-- Whether a server answers. -/
  | answers (ok : Bool)
  | closed
deriving DecidableEq, Repr

/-- The running work goes on. -/
def advance (answer : Answer) : SyncEngine :=
  match s.running, answer with
  | some (n, .settings), .stored ok => s.settle n ok
  | some (n, .choice), .chosen ok asks => (if asks then s.request 0 else s).settle n ok
  | some (n, .pulling config), .pulled =>
    if s.config ≠ some config then s.settle n true
    else { s with failure := none }.nextPair n config config.pairs false false
  | some (n, .pulling _), .signedOut => s.signOut.endPass n false false
  | some (n, .pulling config), .fails =>
    if s.stopped then s.endPass n false false else s.enter n (.asking config none false false)
  | some (n, .syncing config rest retrySoon pullAgain), .synced soon again =>
    s.nextPair n config rest (retrySoon || soon) (pullAgain || again)
  | some (n, .syncing _ _ retrySoon pullAgain), .signedOut => s.signOut.endPass n retrySoon pullAgain
  | some (n, .syncing config rest retrySoon pullAgain), .fails =>
    if s.stopped then s.endPass n retrySoon pullAgain
    else s.enter n (.asking config (some rest) retrySoon pullAgain)
  | some (n, .asking config rest retrySoon pullAgain), .answers ok =>
    let s := { s with failure := some (if ok then .problem else .offline) }
    match rest with
    | some rest =>
      if ok then s.nextPair n config rest retrySoon pullAgain else s.endPass n retrySoon pullAgain
    | none => s.endPass n retrySoon pullAgain
  | some (n, .closing), .closed => { s with closed := s.closed + 1 }.settle n true
  | _, _ => s

/-! ## Events -/

inductive Event
  | configure (config : Config)
  /-- `watchPairs` of a call of `configure` is through. -/
  | watched
  /-- A call of `configure` goes on to its last line. -/
  | goesOn
  /-- Something has changed in a watched folder. -/
  | changed
  /-- The host asks for a pass. -/
  | asked
  | choose
  /-- The server says that something has changed. -/
  | liveUpdate
  | liveEnds
  /-- The live updates are refused with a 401. -/
  | refused
  | stop
  | fire
  | start
  | advance (answer : Answer)
  | tick (ms : Nat)
deriving DecidableEq, Repr

def step : Event → SyncEngine
  | .configure config => s.configure config
  | .watched =>
    if .watching ∈ s.calls then { s with calls := s.calls.erase .watching }.exclusiveSettings else s
  | .goesOn => if .going ∈ s.calls then { s with calls := s.calls.erase .going }.request 0 else s
  | .changed => s.request debounceMs
  | .asked => s.request 0
  | .choose => s.enqueue .choice
  | .liveUpdate => { s with liveConnected := true }.request 250
  | .liveEnds => { s with liveConnected := false }
  | .refused => s.signOut
  | .stop => s.stop
  | .fire =>
    match s.timer with
    | some due => if due ≤ s.now then { s with timer := none }.syncNow.1 else s
    | none => s
  | .start => s.start
  | .advance answer => s.advance answer
  | .tick ms => { s with now := s.now + ms }

def run (events : List Event) : SyncEngine := events.foldl step new

/-! ## What the engine is for -/

/-- The engine is to keep the folders in sync. -/
def Awake : Prop :=
  s.stopped = false ∧ s.signedOut = false ∧ ∃ config, s.config = some config ∧ config.paused = false

/-- Nothing runs or waits to run, and no call of `configure` is about to go on. -/
def AtRest : Prop := s.running = none ∧ s.queue = [] ∧ .watching ∉ s.calls ∧ .going ∉ s.calls

/-- The store fails no settings. -/
def Event.stores : Event → Bool
  | .advance (.stored false) => false
  | _ => true

/-- The works that have had their turn, oldest first, and the one that has it. -/
def turned : List Nat := s.settled ++ s.running.toList.map Prod.fst

/-- Works are settled one at a time, in the order they were asked for. Once the engine is stopped only the
work that closes the store begins, after all that was asked for before, and then none. -/
structure Orderly : Prop where
  order : s.turned ++ s.queue.map Prod.fst = List.range s.asked
  begun : s.begun.Sublist s.turned
  shutDown : s.stopped = true → ∃ n < s.asked, ∀ more : List Event, let t := more.foldl step s
    (∀ k ∈ t.begun, k ∈ s.begun ∨ k = n) ∧ t.closed ≤ 1 ∧
      (t.closed = 1 → t.running = none ∧ ∀ k ≤ n, k ∈ t.settled)

/-- The pass that a caller waits for has not begun, is the only one in the queue, and is what later callers
wait for until it begins. -/
structure Shares (s' : SyncEngine) (n : Nat) : Prop where
  fresh : n ∉ s.begun
  queued : (n, .pass) ∈ s'.queue
  only : ∀ m, (m, .pass) ∈ s'.queue → m = n
  shared : ∀ more : List Event, let t := more.foldl step s'
    n ∈ t.turned ∨ t.syncNow.2 = n

end SyncEngine

end Staaash.Engine
