import Staaash.Library.Runs
import Staaash.Reconciliation.Mutations

/-!
# Requests for durable mutations

`runDurableStorageMutation`, statement by statement, for any number of requests, and the mutations that
they prepare. A transaction that was sent takes effect at any time or never, and its answer may say
nothing about that. Executions are steps of whoever holds a mutation, a request or the worker; leases are
left out.
-/

namespace Staaash.Durable

open Staaash.Journal (Status)
open Staaash.Library
open Staaash.Reconciliation (Deed)

/-! ## The journal -/

/-- What a replay is compared by. -/
structure Payload where
  kind : String
  ownerUserId : String
  requestHash : String
deriving DecidableEq, Repr

structure Input where
  mutationId : String
  idempotencyKey : Option String
  payload : Payload
  /-- The staged upload that the first step renames. -/
  stagedKey : Option String
deriving DecidableEq, Repr

/-- The key to look up: an empty one counts as none. -/
def Input.key (input : Input) : Option String := input.idempotencyKey.filter (· ≠ "")

structure Mutation where
  /-- As it was prepared. -/
  input : Input
  idempotencyKey : Option String
  status : Status
  committed : Bool
  /-- Its forward steps are applied. -/
  applied : Bool
deriving DecidableEq, Repr

def Mutation.prepared (input : Input) : Mutation :=
  ⟨input, input.idempotencyKey, .prepared, false, false⟩

/-- What a deed makes of a mutation, where it has an effect. -/
def Mutation.after (m : Mutation) : Deed → Option Mutation
  | .claim =>
    if m.status ∈ [Status.prepared, .running, .retrying] then some { m with status := .running }
    else none
  | .rename => if m.status = .running && !m.applied then some { m with applied := true } else none
  | .undo => if m.status = .running && m.applied then some { m with applied := false } else none
  | .commit =>
    if m.status = .running && m.applied then
      some { m with status := .metadataCommitted, committed := true }
    else none
  | .beginFinalization =>
    if m.status = .metadataCommitted then some { m with status := .finalizing } else none
  | .cleanup _ => none
  | .complete => if m.status = .finalizing then some { m with status := .succeeded } else none
  | .retry => if m.status = .running then some { m with status := .retrying } else none
  | .requireRecovery =>
    if m.status ∈ [Status.running, .metadataCommitted, .finalizing] then
      some { m with status := .recoveryRequired }
    else none
  | .abort =>
    if m.status = .running && !m.applied then
      some { m with status := .aborted, idempotencyKey := none }
    else none

/-! ## Requests -/

/-- The errors that are told apart. -/
inductive Failure
  /-- `FilesError` or `RevisionConflictError`. -/
  | refused
  | rejected
  | busy
  | cancelled
  | unavailable
  /-- `STORAGE_MUTATION_IN_PROGRESS`. -/
  | inProgress
  /-- Any other `StorageMutationConflictError`. -/
  | conflict
  | other
deriving DecidableEq, Repr

/-- `uploadFiles` removes the staged file after such an error. -/
def Failure.removes : Failure → Bool
  | .refused | .rejected | .busy | .cancelled => true
  | .unavailable | .inProgress | .conflict | .other => false

/-- The answer says nothing about the transaction. -/
def Failure.uncertain : Failure → Bool
  | .busy | .unavailable | .other => true
  | .refused | .rejected | .cancelled | .inProgress | .conflict => false

def mutationStateConflict (m : Mutation) : Failure :=
  if m.status = .aborted then .rejected else .conflict

/-- What a request does next. -/
inductive Stage
  /-- `replayExistingIdempotentMutation`. -/
  | replaying
  /-- Checks, and the wait for the owner's turn. -/
  | starting
  /-- `findPreparedMutationReplay`, before the transaction. -/
  | preparing
  | sending
  | sent (attempt : Nat)
  /-- `findPreparedMutationReplay`, after a unique violation. -/
  | duplicated
  /-- The lookup of `resolveDurablePreparationFailure`. -/
  | resolving (failure : Failure)
  /-- `waitForStorageAdmission`, after a busy attempt. -/
  | waiting
  | executing (mutationId : String)
  /-- The lookup of `resolveInterruptedExecution`. -/
  | interrupted (mutationId : String)
  | succeeded (mutationId : String)
  | failed (failure : Failure)
deriving DecidableEq, Repr

structure Request where
  input : Input
  stage : Stage
  /-- `retriedUncommittedPreparation`. -/
  retried : Bool
  attempts : Nat
  /-- The staged upload was removed. -/
  removed : Bool
deriving DecidableEq, Repr

def Request.fresh (input : Input) : Request := ⟨input, .replaying, false, 0, false⟩

inductive Answer
  | committed
  | uniqueViolation
  | failed (failure : Failure)
deriving DecidableEq, Repr

inductive RequestStep
  | lookUp
  /-- The journal cannot be read. -/
  | lookUpFails
  | start
  | fail (failure : Failure)
  | send
  | answer (answer : Answer)
  | retry
  | giveUp (failure : Failure)
  | returns
  /-- A rejection of the execution, which has rolled back and aborted, or has found metadata committed. -/
  | rejects
  /-- A rejection that is thrown on although the rollback or the abort did not go through. -/
  | rethrows
  | breaks
  | cleanUp
deriving DecidableEq, Repr

structure World where
  mutations : OrderedMap String Mutation
  requests : OrderedMap Nat Request
  /-- Transactions that may still take effect: of a request, and which of its attempts. -/
  inFlight : List (Nat × Nat)
  effective : List (Nat × Nat)

def World.empty : World := ⟨.empty, .empty, [], []⟩

inductive Event
  | begin (i : Nat) (input : Input)
  | request (i : Nat) (step : RequestStep)
  | takeEffect (i attempt : Nat)
  | rollBack (i attempt : Nat)
  /-- A step of an execution, by a request or by the worker. -/
  | deed (executor : Option Nat) (mutationId : String) (deed : Deed)

/-! ## Statements -/

namespace World

variable (s : World)

/-- `findStorageMutationByIdempotencyKey`. -/
def byKey (key : String) : Option (String × Mutation) :=
  s.mutations.entries.find? fun e => e.2.idempotencyKey = some key

/-- `findConflictingMutation`. -/
def existing (input : Input) : Option (String × Mutation) :=
  match input.key with
  | some key => s.byKey key
  | none => (s.mutations.get input.mutationId).map fun m => (input.mutationId, m)

/-- The index on the key is unique. -/
def keyTaken (input : Input) : Bool :=
  input.idempotencyKey.any fun key => (s.byKey key).isSome

end World

namespace Request

variable (r : Request) (s : World)

/-- A mutation that a lookup has found is a replay. -/
def replay (id : String) (m : Mutation) : Request :=
  if m.status = .prepared then { r with stage := .executing id }
  else if m.status = .succeeded then { r with stage := .succeeded id }
  else { r with stage := .failed (mutationStateConflict m) }

/-- The attempt ends with an error that is not about an uncommitted preparation. -/
def throw (failure : Failure) : Request :=
  if failure = .busy then { r with stage := .waiting } else { r with stage := .failed failure }

/-- Neither the key nor the id is in the journal. -/
def throwUncommitted (failure : Failure) : Request :=
  if failure = .inProgress then { r with stage := .waiting }
  else if failure = .unavailable then
    if r.retried then { r with stage := .failed .unavailable }
    else { r with stage := .preparing, retried := true }
  else r.throw failure

def lookUp : Option Request :=
  match r.stage with
  | .replaying =>
    match r.input.key.bind s.byKey with
    | none => some { r with stage := .starting }
    | some (id, m) =>
      if m.input.payload ≠ r.input.payload then some { r with stage := .failed .conflict }
      else if m.status = .succeeded then some { r with stage := .succeeded id }
      else some { r with stage := .failed (mutationStateConflict m) }
  | .preparing =>
    match r.input.key.bind s.byKey with
    | none => some { r with stage := .sending }
    | some (id, m) =>
      if m.input.payload = r.input.payload then some (r.replay id m)
      else some { r with stage := .resolving .conflict }
  | .duplicated =>
    match r.input.key.bind s.byKey with
    | none => some { r with stage := .resolving .inProgress }
    | some (id, m) =>
      if m.input.payload = r.input.payload then some (r.replay id m)
      else some { r with stage := .resolving .conflict }
  | .resolving failure =>
    match s.existing r.input with
    | none => some (r.throwUncommitted failure)
    | some (id, m) =>
      if m.input.payload = r.input.payload then some (r.replay id m)
      else if r.input.key.isSome then some { r with stage := .failed .conflict }
      else some (r.throw failure)
  | .interrupted id =>
    match s.mutations.get id with
    | none => some { r with stage := .failed .conflict }
    | some m =>
      if m.status = .succeeded then some { r with stage := .succeeded id }
      else some { r with stage := .failed (mutationStateConflict m) }
  | _ => none

def lookUpFails : Option Request :=
  match r.stage with
  | .replaying => some { r with stage := .failed .other }
  | .preparing | .duplicated => some { r with stage := .resolving .other }
  | .resolving _ | .interrupted _ => some { r with stage := .failed .conflict }
  | .executing _ => some { r with stage := .failed .other }
  | _ => none

/-- An answer that is not uncertain says that the transaction is over. -/
def answered (i attempt : Nat) : Answer → Option Request
  | .committed =>
    if (i, attempt) ∈ s.effective then some { r with stage := .executing r.input.mutationId }
    else none
  | .uniqueViolation =>
    if (i, attempt) ∉ s.inFlight ∧ (i, attempt) ∉ s.effective then
      some { r with stage := .duplicated }
    else none
  | .failed failure =>
    if failure.uncertain = true ∨ ((i, attempt) ∉ s.inFlight ∧ (i, attempt) ∉ s.effective) then
      some { r with stage := .resolving failure }
    else none

def after (i : Nat) : RequestStep → Option Request
  | .lookUp => r.lookUp s
  | .lookUpFails => r.lookUpFails
  | .start => if r.stage = .starting then some { r with stage := .preparing } else none
  | .fail failure =>
    match r.stage with
    | .starting => some { r with stage := .failed failure }
    | .sending =>
      if failure ∈ [Failure.busy, .cancelled] then some { r with stage := .resolving failure }
      else none
    | _ => none
  | .send =>
    if r.stage = .sending then
      some { r with stage := .sent r.attempts, attempts := r.attempts + 1 }
    else none
  | .answer answer =>
    match r.stage with
    | .sent attempt => r.answered s i attempt answer
    | _ => none
  | .retry => if r.stage = .waiting then some { r with stage := .preparing } else none
  | .giveUp failure =>
    if r.stage = .waiting && failure ∈ [Failure.busy, .cancelled] then
      some { r with stage := .failed failure }
    else none
  | .returns =>
    match r.stage with
    | .executing id =>
      if (s.mutations.get id).any fun m => m.status = .succeeded then
        some { r with stage := .succeeded id }
      else none
    | _ => none
  | .rejects =>
    match r.stage with
    | .executing id =>
      if (s.mutations.get id).any fun m => m.status = .aborted || m.committed then
        some { r with stage := .failed .rejected }
      else none
    | _ => none
  | .rethrows =>
    match r.stage with
    | .executing id =>
      if (s.mutations.get id).any fun m => m.status ≠ .prepared then
        some { r with stage := .failed .rejected }
      else none
    | _ => none
  | .breaks =>
    match r.stage with
    | .executing id => some { r with stage := .interrupted id }
    | _ => none
  | .cleanUp =>
    match r.stage with
    | .succeeded _ => if r.input.stagedKey.isSome then some { r with removed := true } else none
    | .failed failure =>
      if r.input.stagedKey.isSome && failure.removes then some { r with removed := true } else none
    | _ => none

end Request

namespace World

variable (s : World)

/-- A staged upload belongs to one request, under a mutation id of its own. -/
def admits (input : Input) : Bool :=
  s.requests.entries.all fun e =>
    (input.stagedKey.isNone && e.2.input.stagedKey.isNone) ||
      (input.mutationId ≠ e.2.input.mutationId && input.stagedKey ≠ e.2.input.stagedKey)

def act : Event → Option World
  | .begin i input =>
    if !s.requests.has i && s.admits input then
      some { s with requests := s.requests.set i (.fresh input) }
    else none
  | .request i step =>
    (s.requests.get i).bind fun r => (r.after s i step).map fun r' =>
      { s with
        requests := s.requests.set i r'
        inFlight := if step = .send then (i, r.attempts) :: s.inFlight else s.inFlight }
  | .takeEffect i attempt =>
    if (i, attempt) ∈ s.inFlight then
      (s.requests.get i).map fun r =>
        let s' := { s with inFlight := s.inFlight.erase (i, attempt) }
        if s.mutations.has r.input.mutationId || s.keyTaken r.input then s'
        else { s' with
          mutations := s.mutations.set r.input.mutationId (.prepared r.input)
          effective := (i, attempt) :: s.effective }
    else none
  | .rollBack i attempt =>
    if (i, attempt) ∈ s.inFlight then
      some { s with inFlight := s.inFlight.erase (i, attempt) }
    else none
  | .deed executor id deed =>
    if executor.all fun i => (s.requests.get i).any fun r => r.stage = .executing id then
      (s.mutations.get id).bind fun m => (m.after deed).map fun m' =>
        { s with mutations := s.mutations.set id m' }
    else none

def step (e : Event) : World := (s.act e).getD s

end World

/-! ## What an idempotency key and a staged file are promised

Each promise is about every state of every run, and the second one comes with the condition on the steps
of a run that the code leaves unchecked.
-/

/-! ## Idempotency keys -/

/-- Of the mutations that were prepared under a key at most one is committed, and a request has
succeeded with a committed mutation of its payload. -/
structure OncePerKey (s : World) : Prop where
  once : ∀ id₁ m₁ id₂ m₂ key, s.mutations.get id₁ = some m₁ → s.mutations.get id₂ = some m₂ →
    m₁.input.idempotencyKey = some key → m₂.input.idempotencyKey = some key →
    m₁.committed = true → m₂.committed = true → id₁ = id₂
  succeeded : ∀ i r id, s.requests.get i = some r → r.stage = .succeeded id →
    ∃ m, s.mutations.get id = some m ∧ m.committed = true ∧ m.input.payload = r.input.payload

/-- The event is a step of a request, an effect of its transactions, or a step of its execution. -/
def Event.isOf (i : Nat) : Event → Bool
  | .request j _ => j = i
  | .takeEffect j _ => j = i
  | .deed executor _ _ => executor = some i
  | .begin _ _ | .rollBack _ _ => false

/-- The journal has the key of a request with another payload. -/
def World.KeyOfOther (s : World) (i : Nat) : Prop :=
  ∃ r key id m, s.requests.get i = some r ∧ r.input.key = some key ∧ s.mutations.get id = some m ∧
    m.idempotencyKey = some key ∧ m.input.payload ≠ r.input.payload

/-- A request has no effect on the journal while its key is in use for another payload. -/
def ReusesNothing (s : World) (e : Event) : Prop :=
  ∀ i, e.isOf i = true → s.KeyOfOther i → (s.step e).mutations = s.mutations

/-! ## Staged files -/

/-- No mutation in the journal still needs a staged file that was removed. -/
def StagedKept (s : World) : Prop :=
  ∀ i r, s.requests.get i = some r → r.removed = true →
    ∀ id m, s.mutations.get id = some m → m.input.stagedKey = r.input.stagedKey →
      m.status = .aborted ∨ m.applied = true

/-- A transaction of the request may still take effect. -/
def World.undecided (s : World) (i : Nat) : Bool := s.inFlight.any fun call => call.1 = i

def World.tookEffect (s : World) (i : Nat) : Bool := s.effective.any fun call => call.1 = i

def World.quiet (s : World) (i : Nat) : Bool := !s.undecided i && !s.tookEffect i

/-- A step that does not end with an error while an earlier transaction is undecided. Where the journal
has been asked for the mutation of another request, or was asked before the last wait, a transaction
that has taken effect since counts too. -/
def Request.decides (r : Request) (s : World) (i : Nat) : RequestStep → Bool
  | .lookUp =>
    match r.stage with
    | .resolving failure =>
      failure ∉ [Failure.refused, .rejected, .cancelled] || (s.existing r.input).isSome ||
        s.tookEffect i || !s.undecided i
    | .interrupted id =>
      id = r.input.mutationId || s.quiet i || (s.mutations.get id).all fun m => m.status ≠ .aborted
    | _ => true
  | .giveUp _ => s.quiet i
  | .rejects =>
    match r.stage with
    | .executing id => id = r.input.mutationId || s.quiet i
    | _ => true
  | .rethrows =>
    match r.stage with
    | .executing id => id ≠ r.input.mutationId && s.quiet i
    | _ => true
  | _ => true

/-- Uploads end with an error once their transactions are decided, and none with a rejection that was
not followed by an abort of its mutation. A transaction may take effect at any time. -/
def EndsDecided (s : World) : Event → Prop
  | .request i step =>
    ∀ r ∈ s.requests.get i, r.input.stagedKey.isSome = true → r.decides s i step = true
  | _ => True

instance (s : World) : (e : Event) → Decidable (EndsDecided s e)
  | .request i step => inferInstanceAs (Decidable (∀ r ∈ _, _ → Request.decides r s i step = true))
  | .begin _ _ | .takeEffect _ _ | .rollBack _ _ | .deed _ _ _ => isTrue trivial

/-! ## Small runs -/

/-- An upload without an idempotency key. -/
def upload : Input := ⟨"m", none, ⟨"upload_create", "u", "h"⟩, some "tmp/a"⟩

end Staaash.Durable
