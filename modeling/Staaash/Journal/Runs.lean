import Staaash.Journal.Effects

/-!
# Runs

A mutation is claimed again and again, by an executor or by the recovery worker, until it is done.
A run is any number of such attempts, one after the other, each with a schedule of faults of its
own. What is said about a run is said about the log it leaves.
-/

namespace Staaash.Journal

open Staaash.Library (Proc)

abbrev Log := List (Event × Fs)

/-- The rename and mkdir steps, in order. -/
def Mutation.forward (m : Mutation) : List Step := m.steps.filter fun s => !isCleanup s.action

/-- The delete steps, in order. -/
def Mutation.cleanup (m : Mutation) : List Step := m.steps.filter fun s => isCleanup s.action

/-! ## Attempts -/

structure Attempt where
  /-- The recovery worker only finishes the cleanup. -/
  cleanupOnly : Bool
  leaseOwner : Text
  /-- How long after the end of the attempt before. -/
  wait : Nat
  schedule : List Fault

/-- A process starts with nothing in memory. -/
def World.begin (w : World) (a : Attempt) : World :=
  { w with
    now := w.now + a.wait
    memory := []
    timer := none
    leaseFailure := none
    schedule := a.schedule }

variable (H : Host) (m : Mutation)

def Attempt.program (a : Attempt) : M Unit :=
  if a.cleanupOnly then do
    let _ ← recoverStorageMutationCleanup H m a.leaseOwner
  else claimAndExecuteStorageMutation H m a.leaseOwner

/-- What an attempt leaves, however it ends. -/
def runAttempt (w : World) (a : Attempt) : World := Proc.after (a.program H m) (w.begin a)

def run (w : World) (attempts : List Attempt) : World := attempts.foldl (runAttempt H m) w

/-- A mutation that was just prepared, on the tree `fs`. -/
def prepared (fs : Fs) : World where
  now := 0
  fs := fs
  row :=
    { status := .prepared
      leaseOwner := none
      leaseToken := 0
      leaseExpiresAt := none
      attemptCount := 0
      nextAttemptAt := none
      metadataCommittedAt := none }
  applied := []
  memory := []
  timer := none
  leaseFailure := none
  inFlight := none
  schedule := []
  log := []

/-- The only thing that happens to a call is that the process dies. -/
def Fault.crashOnly (f : Fault) : Bool :=
  (match f.outcome with
    | .failed _ _ => false
    | _ => true) &&
  (match f.renewal with
    | .fails _ => false
    | _ => true)

/-! ## What a log says -/

/-- An undo has changed the tree. -/
def undone (log : Log) : Bool :=
  log.any fun e =>
    match e.1 with
    | .changed .undo _ => true
    | _ => false

/-- The commit took effect. -/
def committed (log : Log) : Bool := log.any fun e => e.1 = .committed

/-- How often the commit took effect. -/
def commits (log : Log) : Nat := log.countP fun e => e.1 = .committed

/-- A rollback was begun. -/
def rolledBack (log : Log) : Bool :=
  log.any fun e =>
    match e.1 with
    | .rollback _ => true
    | _ => false

/-- The last claim was followed by a rollback. -/
def rollingBack : Log → Bool
  | [] => false
  | (e, _) :: older =>
    match e with
    | .rollback _ => true
    | .claimed _ => false
    | _ => rollingBack older

/-! ## What should hold at a commit -/

/-- A forward step is in effect: the node with the recorded fingerprint is at the target and the
source is empty, or the folder is there. -/
def InEffect (step : Step) (fs : Fs) : Prop :=
  match step.work with
  | some (.rename source target) =>
    fs.get source = none ∧ checkExpectedNode H fs target step = .ok ()
  | some (.mkdir target _) => fs.get target = some .directory
  | none => False

/-- Every step is in effect once it is its turn, and the later ones lead to `fs`. -/
def AllInEffect (steps : List Step) (start fs : Fs) : Prop :=
  runSteps H steps start = some fs ∧
    ∀ done step later, steps = done ++ step :: later →
      ∃ mid, runSteps H (done ++ [step]) start = some mid ∧ InEffect H step mid ∧
        runSteps H later mid = some fs

end Staaash.Journal
