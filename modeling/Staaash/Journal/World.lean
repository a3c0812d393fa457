import Mathlib.Algebra.Ring.Nat
import Staaash.Library.Interrupted
import Staaash.Journal.Filesystem

/-!
# Mutations and the world they run in

The durable row of a mutation and its steps, the files root, and the faults a run can meet. Every
call of the executor takes the next entry of a schedule: time passes, the lease timer may fire, a
commit that was given up may still take effect, and the call succeeds, fails or is cut off, with or
without its effect. A log keeps what took effect, newest first, with the tree it left.
-/

namespace Staaash.Journal

open Staaash.Library (Proc Stop)

/-! ## Mutations -/

inductive MutationKind
  | folderCreate | fileRename | fileMove | fileTrash | fileRestore | folderRename | folderMove
  | folderTrash | folderRestore | uploadCreate | uploadReplace | fileKeepMine | filePurge
  | folderPurge | clearTrash | trashRetention | batchMove | derivativePublish | derivativePurge
  | archivePublish | archivePurge | legacyRecovery
deriving DecidableEq, Repr

/-- `USER_STORAGE_MUTATION_KINDS`: single user operations, which may be rolled back. -/
def userStorageMutationKinds : List MutationKind :=
  [.folderCreate, .fileRename, .fileMove, .fileTrash, .fileRestore, .folderRename, .folderMove,
    .folderTrash, .folderRestore, .uploadCreate, .uploadReplace, .fileKeepMine]

inductive Action
  | mkdir
  | rename
  | deleteFile
  | deleteTree
  | removeEmptyDirectory
deriving DecidableEq, Repr

/-- One step as it was prepared. Its `status` column is kept apart, as the set of applied ids. -/
structure Step where
  id : Nat
  action : Action
  sourceKey : Option Text
  targetKey : Option Text
  expectedNodeType : Option NodeType
  expectedSizeBytes : Option Nat
  expectedChecksum : Option Text
  treeManifestDigest : Option Text
deriving DecidableEq, Repr

/-- What a prepared mutation never changes, with its steps in order. -/
structure Mutation where
  kind : MutationKind
  parentId : Option Text
  steps : List Step
  /-- Step ids are unique in the database. -/
  distinct : (steps.map Step.id).Nodup

inductive Status
  | preparing
  | prepared
  | running
  | metadataCommitted
  | finalizing
  | succeeded
  | aborted
  | retrying
  | recoveryRequired
deriving DecidableEq, Repr

/-- The columns of the mutation row that decide what may happen to it. Times are in milliseconds. -/
structure Row where
  status : Status
  leaseOwner : Option Text
  leaseToken : Nat
  leaseExpiresAt : Option Nat
  attemptCount : Nat
  nextAttemptAt : Option Nat
  metadataCommittedAt : Option Nat
deriving DecidableEq, Repr

/-- Who holds the mutation, and since which claim. -/
structure Lease where
  owner : Text
  token : Nat
deriving DecidableEq, Repr

/-! ## What can go wrong -/

/-- How much of a call's effect took place when the call did not return. -/
inductive Took
  | no
  | yes
  /-- Only for the metadata commit: its transaction is still on its way. -/
  | later
  /-- Only for a recursive removal: these entries were left, with the folders above them. -/
  | partly (left : List Key)
deriving DecidableEq, Repr

inductive Outcome
  | done
  | failed (took : Took) (e : Err)
  | crashed (took : Took)
deriving DecidableEq, Repr

/-- What the interval timer did since the last call. -/
inductive Renewal
  | idle
  | due
  | fails (e : Err)
deriving DecidableEq, Repr

/-- What happens around and to one call. -/
structure Fault where
  delay : Nat
  renewal : Renewal
  deliver : Bool
  outcome : Outcome
deriving DecidableEq, Repr

/-- A call that meets no fault. -/
def Fault.none : Fault := { delay := 0, renewal := .idle, deliver := false, outcome := .done }

/-! ## The log -/

/-- What the executor is doing when it changes the tree. -/
inductive Phase
  | forward
  | undo
  | cleanup
deriving DecidableEq, Repr

inductive FsOp
  | mkdir (k : Key)
  | rename (source target : Key)
  | unlink (k : Key)
  | removeTree (k : Key)
  | rmdir (k : Key)
deriving DecidableEq, Repr

inductive Event
  | claimed (token : Nat)
  | claimedFinalization (token : Nat)
  | changed (phase : Phase) (op : FsOp)
  | synced (k : Key)
  | marked (stepId : Nat)
  /-- A rollback read the mutation and goes on; `memory` are the steps it knows as applied. -/
  | rollback (memory : List Nat)
  | committed
  | finalizing
  | completed
  | retried
  | recoveryRequired
  | aborted
deriving DecidableEq, Repr

structure World where
  now : Nat
  fs : Fs
  row : Row
  /-- The ids of the steps whose durable status is `applied`. -/
  applied : List Nat
  /-- The same in the attempt's own copy of the mutation. -/
  memory : List Nat
  /-- The lease the attempt's interval timer renews, while it runs. -/
  timer : Option Lease
  /-- The first failure of the timer, for the attempt to see at its next lease check. -/
  leaseFailure : Option Err
  /-- A commit whose call ended before its transaction did. -/
  inFlight : Option Lease
  schedule : List Fault
  log : List (Event × Fs)
deriving DecidableEq

abbrev M := Proc World Err

def World.emit (w : World) (e : Event) : World := { w with log := (e, w.fs) :: w.log }

/-! ## The row between two calls -/

/-- `STORAGE_MUTATION_LEASE_MS` -/
def leaseMs : Nat := 30000

/-- The lease has a moment of expiry, and it has not come yet. -/
def Row.unexpired (row : Row) (now : Nat) : Bool :=
  match row.leaseExpiresAt with
  | none => false
  | some t => now < t

/-- The predicate of `assertFence` and of `renewStorageMutationLease`. -/
def Row.fenced (row : Row) (lease : Lease) (now : Nat) : Bool :=
  row.leaseOwner = some lease.owner && row.leaseToken = lease.token && row.unexpired now &&
    (row.status = .running || row.status = .metadataCommitted || row.status = .finalizing)

/-- The row update of `renewStorageMutationLease`, or nothing where no row matches. -/
def Row.renew (row : Row) (lease : Lease) (now : Nat) : Option Row :=
  if row.fenced lease now then some { row with leaseExpiresAt := some (now + leaseMs) } else none

/-- The transaction of `commitStorageMutationMetadata`. -/
def Row.commit (row : Row) (lease : Lease) (now : Nat) : Option Row :=
  if row.fenced lease now && row.status = .running then
    some { row with status := .metadataCommitted, metadataCommittedAt := some now }
  else none

def World.timerFires (w : World) : Renewal → World
  | .idle => w
  | .due =>
    match w.timer with
    | none => w
    | some lease =>
      match w.row.renew lease w.now with
      | some row => { w with row }
      | none => { w with leaseFailure := some .fence }
  | .fails e => if w.timer.isSome then { w with leaseFailure := some e } else w

/-- The commit in flight reaches the database. -/
def World.delivered (w : World) : World :=
  match w.inFlight with
  | none => w
  | some lease =>
    match w.row.commit lease w.now with
    | some row => { w with row, inFlight := none }.emit .committed
    | none => { w with inFlight := none }

/-- Time passes up to the next call. -/
def World.tick (w : World) : Fault × World :=
  match w.schedule with
  | [] => (.none, w)
  | f :: schedule =>
    let passed := { w with now := w.now + f.delay, schedule }.timerFires f.renewal
    (f, if f.deliver then passed.delivered else passed)

/-! ## Calls -/

/-- One call with the effect `effect`; `early` is what a call that did not return can leave behind
other than the whole effect or nothing. -/
def callWith {α : Type} (early : Took → World → World) (effect : M α) : M α := fun w =>
  let (fault, w) := w.tick
  match fault.outcome with
  | .done => effect w
  | .failed .yes e =>
    match effect w with
    | .ok _ w' => .error (.thrown e) w'
    | .error s w' => .error s w'
  | .failed took e => .error (.thrown e) (early took w)
  | .crashed .yes =>
    match effect w with
    | .ok _ w' => .error .crash w'
    | .error _ w' => .error .crash w'
  | .crashed took => .error .crash (early took w)

def call {α : Type} (effect : M α) : M α := callWith (fun _ w => w) effect

/-- A call that only reads. -/
def readCall {α : Type} (f : World → Except Err α) : M α :=
  call fun w =>
    match f w with
    | .ok a => .ok a w
    | .error e => .error (.thrown e) w

/-- A pure check of the executor. -/
def check {α : Type} (x : Except Err α) : M α := fun w =>
  match x with
  | .ok a => .ok a w
  | .error e => .error (.thrown e) w

/-- A call that changes the row where a condition on it holds, and fails with a fence error where it
does not. -/
def rowCall (event : Event) (f : World → Option World) : M Unit :=
  call fun w =>
    match f w with
    | some w' => .ok () (w'.emit event)
    | none => .error (.thrown .fence) w

end Staaash.Journal
