import Staaash.Journal.World

/-!
# The journal's operations on a mutation

The guarded row updates of `storage-mutations.ts`, each with the new row, or nothing where no row
matches, and the calls that make them. What a call checks and what it writes happens in one
transaction.
-/

namespace Staaash.Journal

open Staaash.Library (Proc)

/-! ## The row updates

`Row.renew` and `Row.commit` are beside the row itself. -/

/-- The columns a claim sets besides the status. -/
def Row.claim (row : Row) (status : Status) (leaseOwner : Text) (now : Nat) : Row :=
  { row with
    status
    leaseOwner := some leaseOwner
    leaseToken := row.leaseToken + 1
    leaseExpiresAt := some (now + leaseMs)
    attemptCount := row.attemptCount + 1
    nextAttemptAt := none }

/-- A nullable time that is not in the future. -/
def notAfter (t : Option Nat) (now : Nat) : Bool :=
  match t with
  | none => true
  | some t => t ≤ now

/-- A time that is set and not in the future. -/
def reached (t : Option Nat) (now : Nat) : Bool :=
  match t with
  | none => false
  | some t => t ≤ now

/-- The update of `claimStorageMutation`. -/
def Row.claimForward (row : Row) (leaseOwner : Text) (now : Nat) : Option Row :=
  if ((row.status = .prepared || row.status = .retrying) &&
        notAfter row.nextAttemptAt now && notAfter row.leaseExpiresAt now) ||
      (row.status = .running && reached row.leaseExpiresAt now) then
    some (row.claim .running leaseOwner now)
  else none

/-- The update of `claimStorageMutationFinalization`. -/
def Row.claimFinalization (row : Row) (leaseOwner : Text) (now : Nat) : Option Row :=
  if (row.status = .metadataCommitted || row.status = .finalizing) &&
      notAfter row.nextAttemptAt now && notAfter row.leaseExpiresAt now then
    some (row.claim .finalizing leaseOwner now)
  else none

def Row.beginFinalization (row : Row) (lease : Lease) (now : Nat) : Option Row :=
  if row.fenced lease now && row.status = .metadataCommitted then
    some { row with status := .finalizing }
  else none

def Row.complete (row : Row) (lease : Lease) (now : Nat) : Option Row :=
  if row.fenced lease now then
    some { row with status := .succeeded, leaseOwner := none, leaseExpiresAt := none }
  else none

def retryStatusForMutation (row : Row) : Status :=
  if row.metadataCommittedAt.isSome then .finalizing
  else if row.status = .metadataCommitted || row.status = .finalizing then .finalizing
  else .retrying

/-- The owner, the token and the time agree; the status is not looked at. -/
def Row.heldBy (row : Row) (lease : Lease) (now : Nat) : Bool :=
  row.leaseOwner = some lease.owner && row.leaseToken = lease.token && row.unexpired now

/-- The update of `retryStorageMutation`, with the row as it was read before. -/
def Row.retry (row read : Row) (lease : Lease) (now : Nat) : Option Row :=
  if row.heldBy lease now then
    some { row with
      status := retryStatusForMutation read
      leaseOwner := none
      leaseExpiresAt := none
      nextAttemptAt := some (now + 2 ^ min read.attemptCount 10 * 1000) }
  else none

def Row.requireRecovery (row : Row) (lease : Lease) (now : Nat) : Option Row :=
  if row.heldBy lease now then
    some { row with
      status := .recoveryRequired
      leaseOwner := none
      leaseExpiresAt := none
      nextAttemptAt := none }
  else none

def Row.abort (row : Row) (lease : Lease) (now : Nat) : Option Row :=
  if row.fenced lease now && row.status = .running && row.metadataCommittedAt = none then
    some { row with
      status := .aborted
      leaseOwner := none
      leaseExpiresAt := none
      nextAttemptAt := none }
  else none

/-! ## Calls -/

/-- A call that makes an update of the row, and fails with a fence error where no row matches. -/
def updateCall (event : Event) (update : Row → Nat → Option Row) : M Unit :=
  rowCall event fun w => (update w.row w.now).map fun row => { w with row }

/-- What an executor holds of a claimed mutation besides its steps. -/
structure Claimed where
  lease : Lease
  attemptCount : Nat

/-- The read that follows a claim: the record, with the durable status of its steps. -/
def findClaimed (leaseOwner : Text) : M (Option Claimed) :=
  call fun w =>
    if w.row.leaseOwner = some leaseOwner && w.row.leaseExpiresAt.isSome then
      .ok (some { lease := ⟨leaseOwner, w.row.leaseToken⟩, attemptCount := w.row.attemptCount })
        { w with memory := w.applied }
    else .ok none w

/-- The update of a claim, with its new token. -/
def claimCall (event : Nat → Event) (update : Row → Nat → Option Row) : M Bool :=
  call fun w =>
    match update w.row w.now with
    | some row => .ok true ({ w with row }.emit (event row.leaseToken))
    | none => .ok false w

def claimStorageMutation (leaseOwner : Text) : M (Option Claimed) := do
  let claimed ← claimCall .claimed (·.claimForward leaseOwner)
  if claimed then findClaimed leaseOwner else pure none

def claimStorageMutationFinalization (leaseOwner : Text) : M (Option Claimed) := do
  let claimed ← claimCall .claimedFinalization (·.claimFinalization leaseOwner)
  if claimed then findClaimed leaseOwner else pure none

def renewStorageMutationLease (lease : Lease) : M Unit :=
  call fun w =>
    match w.row.renew lease w.now with
    | some row => .ok () { w with row }
    | none => .error (.thrown .fence) w

def markStorageMutationStepApplied (stepId : Nat) (lease : Lease) : M Unit :=
  rowCall (.marked stepId) fun w =>
    if w.row.fenced lease w.now then some { w with applied := stepId :: w.applied } else none

/-- Only the step's error columns change, which nothing reads back. -/
def markStorageMutationStepFailed (lease : Lease) : M Unit :=
  readCall fun w => if w.row.fenced lease w.now then .ok () else .error .fence

/-- The commit of the metadata. A call that ends early may leave its transaction on its way. -/
def commitStorageMutationMetadata (lease : Lease) : M Unit :=
  callWith (fun took w => if took = .later then { w with inFlight := some lease } else w) fun w =>
    match w.row.commit lease w.now with
    | some row => .ok () ({ w with row }.emit .committed)
    | none => .error (.thrown .fence) w

def beginStorageMutationFinalization (lease : Lease) : M Unit :=
  updateCall .finalizing (·.beginFinalization lease)

def completeStorageMutation (lease : Lease) : M Unit := updateCall .completed (·.complete lease)

/-- Two statements: the status to fall back to comes from a read of its own. -/
def retryStorageMutation (lease : Lease) : M Unit := do
  let mutation ← readCall fun w => .ok w.row
  updateCall .retried (·.retry mutation lease)

def requireStorageMutationRecovery (lease : Lease) : M Unit :=
  updateCall .recoveryRequired (·.requireRecovery lease)

/-- Terminal outcome for a mutation rolled back before metadata commit. -/
def abortStorageMutation (lease : Lease) : M Unit := updateCall .aborted (·.abort lease)

end Staaash.Journal
