import Mathlib.Algebra.Ring.Nat
import Staaash.Journal.Database

/-!
# One mutation and everyone who works on it

Any number of executors call the journal's operations on one mutation, each of them as slow as it
likes between two statements. A statement is atomic. Two operations are more than one statement: a
claim updates the row and then reads the record back, and a retry reads the row before it updates
it. Every statement brings its own time, so that no clock is trusted.
-/

namespace Staaash.Journal

/-- The fence in front of a write to another table. -/
def Row.assertFence (row : Row) (lease : Lease) (now : Nat) : Option Row :=
  if row.fenced lease now then some row else none

/-- `retryStorageMutationNow`, an operator's request. -/
def Row.retryNow (row : Row) (now : Nat) : Option Row :=
  if (row.status = .retrying || row.status = .finalizing) && row.leaseOwner = none then
    some { row with nextAttemptAt := some now }
  else none

/-! ## Statements -/

/-- A claim that has updated the row, to the lease token `token`, and not read the record yet. -/
structure Claiming where
  leaseOwner : Text
  token : Nat
deriving DecidableEq, Repr

/-- What a claim hands to its executor: the lease of the record it read, and the token that its own
update had set. -/
structure Holding where
  lease : Lease
  claimed : Nat
deriving DecidableEq, Repr

/-- A retry that has read the row and not updated it yet. -/
structure Retrying where
  holding : Holding
  read : Row
deriving DecidableEq, Repr

/-- What an executor does with what it holds, in one statement or transaction. -/
inductive Deed
  | renew
  | markApplied (stepId : Nat)
  | markFailed
  | commit
  | beginFinalization
  | complete
  | requireRecovery
  | abort
deriving DecidableEq, Repr

inductive Statement
  | claim (leaseOwner : Text) (now : Nat)
  | claimFinalization (leaseOwner : Text) (now : Nat)
  | readBack (c : Claiming)
  | byHolder (h : Holding) (deed : Deed) (now : Nat)
  | retryRead (h : Holding)
  | retryWrite (r : Retrying) (now : Nat)
  | retryNow (now : Nat)
deriving DecidableEq, Repr

/-- What took effect. -/
inductive Act
  | claimed (token : Nat)
  | claimedFinalization (token : Nat)
  | handedOut (h : Holding)
  | lost
  | did (h : Holding) (deed : Deed)
  | retryRead
  | retried (h : Holding)
  | retriedNow
deriving DecidableEq, Repr

structure Docket where
  row : Row
  applied : List Nat
  claiming : List Claiming
  holdings : List Holding
  retrying : List Retrying
  /-- What took effect, newest first. -/
  log : List Act
deriving DecidableEq, Repr

/-- A mutation that was just prepared. -/
def Docket.prepared : Docket where
  row :=
    { status := .prepared
      leaseOwner := none
      leaseToken := 0
      leaseExpiresAt := none
      attemptCount := 0
      nextAttemptAt := none
      metadataCommittedAt := none }
  applied := []
  claiming := []
  holdings := []
  retrying := []
  log := []

/-- The row update of a deed. -/
def Deed.update (deed : Deed) (row : Row) (lease : Lease) (now : Nat) : Option Row :=
  match deed with
  | .renew => row.renew lease now
  | .markApplied _ => row.assertFence lease now
  | .markFailed => row.assertFence lease now
  | .commit => row.commit lease now
  | .beginFinalization => row.beginFinalization lease now
  | .complete => row.complete lease now
  | .requireRecovery => row.requireRecovery lease now
  | .abort => row.abort lease now

/-- The applied steps after a deed. -/
def Deed.marks (deed : Deed) (applied : List Nat) : List Nat :=
  match deed with
  | .markApplied stepId => stepId :: applied
  | _ => applied

/-- What a statement does, or nothing where it has no effect. An executor only has what it was
handed. -/
def Docket.act (d : Docket) : Statement → Option (Act × Docket)
  | .claim leaseOwner now =>
    (d.row.claimForward leaseOwner now).map fun row =>
      (.claimed row.leaseToken,
        { d with row, claiming := ⟨leaseOwner, row.leaseToken⟩ :: d.claiming })
  | .claimFinalization leaseOwner now =>
    (d.row.claimFinalization leaseOwner now).map fun row =>
      (.claimedFinalization row.leaseToken,
        { d with row, claiming := ⟨leaseOwner, row.leaseToken⟩ :: d.claiming })
  | .readBack c =>
    if c ∈ d.claiming then
      if d.row.leaseOwner = some c.leaseOwner && d.row.leaseExpiresAt.isSome then
        let h : Holding := ⟨⟨c.leaseOwner, d.row.leaseToken⟩, c.token⟩
        some (.handedOut h,
          { d with claiming := d.claiming.erase c, holdings := h :: d.holdings })
      else some (.lost, { d with claiming := d.claiming.erase c })
    else none
  | .byHolder h deed now =>
    if h ∈ d.holdings then
      (deed.update d.row h.lease now).map fun row =>
        (.did h deed, { d with row, applied := deed.marks d.applied })
    else none
  | .retryRead h =>
    if h ∈ d.holdings then some (.retryRead, { d with retrying := ⟨h, d.row⟩ :: d.retrying })
    else none
  | .retryWrite r now =>
    if r ∈ d.retrying then
      (d.row.retry r.read r.holding.lease now).map fun row =>
        (.retried r.holding, { d with row, retrying := d.retrying.erase r })
    else none
  | .retryNow now => (d.row.retryNow now).map fun row => (.retriedNow, { d with row })

def Docket.step (d : Docket) (s : Statement) : Docket :=
  match d.act s with
  | none => d
  | some (a, d') => { d' with log := a :: d'.log }

def Docket.run (d : Docket) (statements : List Statement) : Docket := statements.foldl Docket.step d

/-! ## Status and commit stamp -/

/-- The commit stamp is only set with a status that follows a commit. -/
def StampAgrees (row : Row) : Prop :=
  row.metadataCommittedAt.isSome → row.status ∈
    [Status.metadataCommitted, .finalizing, .succeeded, .recoveryRequired]

instance (row : Row) : Decidable (StampAgrees row) :=
  inferInstanceAs (Decidable (row.metadataCommittedAt.isSome → row.status ∈ _))

/-- The metadata was committed. -/
def Act.commits : Act → Bool
  | .did _ .commit => true
  | _ => false

/-- The mutation begins again from the prepared state, runs its metadata callback to the end, or is
given up. -/
def Act.undecided : Act → Bool
  | .claimed _ => true
  | .did _ .commit => true
  | .did _ .abort => true
  | _ => false

/-- Nothing of that kind comes after a commit. -/
def DecidedOnce : List Act → Prop
  | [] => True
  | a :: older => (a.undecided = true → older.any Act.commits = false) ∧ DecidedOnce older

/-- The row still has the commit stamp that the retry has read, or still has none. -/
def RetriesInTime (d : Docket) : Statement → Prop
  | .retryWrite r now =>
    r ∈ d.retrying → d.row.heldBy r.holding.lease now = true →
      r.read.metadataCommittedAt.isSome = d.row.metadataCommittedAt.isSome
  | _ => True

instance (d : Docket) (s : Statement) : Decidable (RetriesInTime d s) :=
  match s with
  | .retryWrite r now =>
    inferInstanceAs (Decidable (r ∈ d.retrying → d.row.heldBy r.holding.lease now = true →
      r.read.metadataCommittedAt.isSome = d.row.metadataCommittedAt.isSome))
  | .claim _ _ | .claimFinalization _ _ | .readBack _ | .byHolder _ _ _ | .retryRead _
  | .retryNow _ => isTrue trivial

/-- Every statement of the run meets a condition on the state before it. -/
def Throughout (ok : Docket → Statement → Prop) : Docket → List Statement → Prop
  | _, [] => True
  | d, s :: rest => ok d s ∧ Throughout ok (d.step s) rest

instance decidableThroughout (ok : Docket → Statement → Prop) [∀ d s, Decidable (ok d s)] :
    (d : Docket) → (statements : List Statement) → Decidable (Throughout ok d statements)
  | _, [] => isTrue trivial
  | d, s :: rest =>
    haveI := decidableThroughout ok (d.step s) rest
    inferInstanceAs (Decidable (ok d s ∧ _))

/-! ## Fencing -/

/-- The tokens of the claims, newest first. -/
def claimedTokens (log : List Act) : List Nat :=
  log.filterMap fun
    | .claimed token => some token
    | .claimedFinalization token => some token
    | _ => none

/-- The tokens that were handed to an executor, newest first. -/
def handedTokens (log : List Act) : List Nat :=
  log.filterMap fun
    | .handedOut h => some h.lease.token
    | _ => none

/-- Who did it, for what only the holder may do. -/
def Act.holder : Act → Option Holding
  | .did h _ => some h
  | .retried h => some h
  | _ => none

/-- Whatever was done was done by the holder of the latest token, whose own claim was the latest. -/
def DoneByLatest : List Act → Prop
  | [] => True
  | a :: older =>
    (∀ h, a.holder = some h →
      ∀ token ∈ claimedTokens older, token ≤ h.lease.token ∧ token ≤ h.claimed) ∧
    DoneByLatest older

structure Fencing (log : List Act) : Prop where
  /-- Newest first, so a later token is a greater one. -/
  increasing : (handedTokens log).Pairwise (· > ·)
  once : log.countP Act.commits ≤ 1
  latest : DoneByLatest log

/-- A claim that finds its own owner in the record also finds the token it has set. -/
def ReadsOwnClaim (d : Docket) : Statement → Prop
  | .readBack c =>
    c ∈ d.claiming → d.row.leaseOwner = some c.leaseOwner → d.row.leaseExpiresAt.isSome →
      d.row.leaseToken = c.token
  | _ => True

instance (d : Docket) (s : Statement) : Decidable (ReadsOwnClaim d s) :=
  match s with
  | .readBack c =>
    inferInstanceAs (Decidable (c ∈ d.claiming → d.row.leaseOwner = some c.leaseOwner →
      d.row.leaseExpiresAt.isSome → d.row.leaseToken = c.token))
  | .claim _ _ | .claimFinalization _ _ | .retryWrite _ _ | .byHolder _ _ _ | .retryRead _
  | .retryNow _ => isTrue trivial

end Staaash.Journal
