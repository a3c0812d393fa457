import Mathlib.Data.List.Basic

/-!
# The transfer request queue

The `Lane` that upload and poll requests of the browser go through: a number of slots, and the requests
that wait for one. Requests are numbered in order of arrival. The listeners of a signal run at any time
after its abort, so that whatever else the abort sets off may come between.
-/

namespace Staaash.Transfers

/-- What the promise of `acquire` came to. -/
inductive Answer
  | pending
  | resolved
  | rejected
deriving DecidableEq, Repr

/-- One call of `acquire`. -/
structure Request where
  signal : Option Nat
  answer : Answer
  /-- `onAbort` is registered with the signal. -/
  listening : Bool
  /-- The flag that the `release` of this request closes over. -/
  released : Bool
deriving DecidableEq, Repr

structure Lane where
  concurrency : Nat
  running : Int
  pending : List Nat
  requests : List Request
  /-- The signals that are aborted. -/
  aborted : List Nat
  /-- Who took a slot, oldest first; nothing reads it. -/
  taken : List Nat
  /-- Who gave a slot back, oldest first; nothing reads it. -/
  returned : List Nat
deriving DecidableEq, Repr

namespace Lane

def new (concurrency : Nat) : Lane := ⟨concurrency, 0, [], [], [], [], []⟩

def answer (s : Lane) (id : Nat) : Option Answer := s.requests[id]?.map Request.answer

def signalAborted (s : Lane) (signal : Option Nat) : Bool := signal.any (s.aborted.contains ·)

/-- `signal?.aborted`, of the request's signal. -/
def isAborted (s : Lane) (id : Nat) : Bool := s.requests[id]?.any fun r => s.signalAborted r.signal

def isReleased (s : Lane) (id : Nat) : Bool := s.requests[id]?.any Request.released

/-- The first answer of a promise is its last. -/
def settle (s : Lane) (id : Nat) (a : Answer) : Lane :=
  { s with
    requests := s.requests.modify id fun r => if r.answer = .pending then { r with answer := a } else r }

def listen (s : Lane) (id : Nat) (listening : Bool) : Lane :=
  { s with requests := s.requests.modify id fun r => { r with listening } }

/-- `released = true;` -/
def spend (s : Lane) (id : Nat) : Lane :=
  { s with requests := s.requests.modify id fun r => { r with released := true } }

def tryStart (s : Lane) (id : Nat) : Bool × Lane :=
  if s.running < s.concurrency then
    (true, settle { s with running := s.running + 1, taken := s.taken ++ [id] } id .resolved)
  else (false, s)

/-- `const next = this.pending.shift(); if (next) next();`, with the slots that an aborted one goes on
to. -/
def promote (s : Lane) : List Nat → Lane
  | [] => s
  | next :: rest =>
    let s := { s with pending := rest }
    if s.isAborted next then (s.settle next .rejected).promote rest
    else ((s.listen next false).tryStart next).2

/-- The `release` of a request, which has one once its promise is resolved. -/
def release (s : Lane) (id : Nat) : Lane :=
  if s.answer id = some .resolved && !s.isReleased id then
    let s := { s.spend id with running := s.running - 1, returned := s.returned ++ [id] }
    s.promote s.pending
  else s

def acquire (s : Lane) (signal : Option Nat) : Lane :=
  let id := s.requests.length
  let (started, s) := tryStart { s with requests := s.requests ++ [⟨signal, .pending, false, false⟩] } id
  if started then s
  else if s.signalAborted signal then s.settle id .rejected
  else { s.listen id signal.isSome with pending := s.pending ++ [id] }

/-- The listener `onAbort`, which runs once. -/
def onAbort (s : Lane) (id : Nat) : Lane :=
  if s.isAborted id && s.requests[id]?.any Request.listening then
    settle { s.listen id false with pending := s.pending.erase id } id .rejected
  else s

inductive Act
  | acquire (signal : Option Nat)
  | abort (signal : Nat)
  | onAbort (id : Nat)
  | release (id : Nat)
deriving DecidableEq, Repr

def step (s : Lane) : Act → Lane
  | .acquire signal => s.acquire signal
  | .abort signal => { s with aborted := signal :: s.aborted }
  | .onAbort id => s.onAbort id
  | .release id => s.release id

def run (s : Lane) (acts : List Act) : Lane := acts.foldl step s

/-! ## What a lane is for -/

/-- The request waits for a slot. -/
def Waits (s : Lane) (id : Nat) : Prop := s.answer id = some .pending

/-- The requests that hold a slot. -/
def holders (s : Lane) : List Nat := s.taken.filter fun id => !s.returned.contains id

end Lane

end Staaash.Transfers
