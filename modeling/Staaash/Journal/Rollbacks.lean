import Staaash.Journal.Docket
import Staaash.Journal.Runs
import Staaash.Library.Runs

/-!
# Rollbacks beside everyone else

The executors of one mutation and the tree they work on. Each is as slow as it likes between two steps, and
none sees the others but through the row. A rollback reads the row, renews its lease before each change, makes
the change, and aborts. A commit is a statement that may take effect long after its executor gave it up, and
also when nobody hears of it.
-/

namespace Staaash.Journal

open Staaash.Library (RunMeets)

/-! ## Changes of the tree -/

/-- The system call of a forward step. -/
def Step.redo (step : Step) (fs : Fs) : Option Fs :=
  match step.work with
  | some (.rename source target) => fs.rename source target
  | some (.mkdir target _) => fs.mkdir target
  | none => none

/-- The system call that undoes a forward step. -/
def Step.undo (step : Step) (fs : Fs) : Option Fs :=
  match step.work with
  | some (.rename source target) => fs.rename target source
  | some (.mkdir target _) =>
    if fs.get target = some .directory && !fs.hasEntries target then some (fs.removeUnder target [])
    else none
  | none => none

/-! ## Executors -/

/-- A rollback that is under way. -/
structure Reversal where
  holding : Holding
  /-- The applied forward steps that are still to be undone, newest first. -/
  todo : List Step
  /-- The lease was renewed for the next change. -/
  checked : Bool
deriving DecidableEq, Repr

/-- It makes its next change without another look at the row. -/
def Reversal.poised (r : Reversal) : Bool := r.checked && r.todo ≠ []

structure Executors where
  docket : Docket
  fs : Fs
  rollbacks : List Reversal
  /-- The leases under which a rollback began that had something to undo, newest first. -/
  begun : List Lease
  /-- The leases under which a forward step was undone, newest first. -/
  undone : List Lease

/-- What happens next. -/
inductive Turn
  | statement (s : Statement)
  /-- An executor makes the change of a forward step. -/
  | forward (h : Holding) (step : Step)
  /-- Whatever else changes the tree: folders on the way, cleanup steps, other mutations. -/
  | elsewhere (fs : Fs)
  /-- An executor that failed with `error` reads the row and goes on to undo the steps it knows as
  applied. -/
  | rollBack (h : Holding) (error : Err) (known : List Nat)
  | renew (r : Reversal) (now : Nat)
  | undo (r : Reversal)
  /-- The next step turns out to be undone. -/
  | pass (r : Reversal)
  /-- The rollback is through, or fails, or its process dies. -/
  | leave (r : Reversal)

namespace Executors

variable (m : Mutation) (s : Executors)

/-- The rollback `r` has become `r'`. -/
def putReversal (r r' : Reversal) : Executors := { s with rollbacks := r' :: s.rollbacks.erase r }

def act : Turn → Option Executors
  | .statement statement => some { s with docket := s.docket.step statement }
  | .forward h step =>
    if h ∈ s.docket.holdings ∧ step ∈ m.forward then (step.redo s.fs).map fun fs => { s with fs }
    else none
  | .elsewhere fs => some { s with fs }
  -- the row counts the executor's attempt, and maybe later ones
  | .rollBack h error known =>
    if h ∈ s.docket.holdings ∧ (abortReasonFor m error s.docket.row.attemptCount).isSome ∧
        s.docket.row.metadataCommittedAt = none ∧ s.docket.row.status = .running ∧
        ∀ id ∈ known, id ∈ s.docket.applied then
      let todo := m.forward.reverse.filter fun step => step.id ∈ known
      some { s with
        rollbacks := ⟨h, todo, false⟩ :: s.rollbacks
        begun := if todo = [] then s.begun else h.lease :: s.begun }
    else none
  | .renew r now =>
    if r ∈ s.rollbacks then
      (s.docket.row.renew r.holding.lease now).map fun row =>
        { s.putReversal r { r with checked := true } with docket := { s.docket with row } }
    else none
  | .undo r =>
    match r.todo with
    | [] => none
    | step :: rest =>
      if r ∈ s.rollbacks ∧ r.checked = true then
        (step.undo s.fs).map fun fs =>
          { s.putReversal r { r with todo := rest, checked := false } with
            fs, undone := r.holding.lease :: s.undone }
      else none
  | .pass r =>
    if r ∈ s.rollbacks then some (s.putReversal r { r with todo := r.todo.tail, checked := false })
    else none
  | .leave r => some { s with rollbacks := s.rollbacks.erase r }

def step (t : Turn) : Executors := (s.act m t).getD s

/-- A mutation that was just prepared, on the tree `fs`. -/
def prepared (fs : Fs) : Executors where
  docket := .prepared
  fs
  rollbacks := []
  begun := []
  undone := []

/-- The metadata transaction took effect. -/
def committed : Bool := s.docket.log.any Act.commits

/-- No claim takes effect once a forward step was undone, nor while a rollback is poised to undo one; and no
commit takes effect whose transaction was still on its way when the rollback of its own executor began. -/
def RollsBackInPeace (s : Executors) : Turn → Prop
  | .statement (.claim leaseOwner now) =>
    (s.docket.row.claimForward leaseOwner now).isSome →
      s.undone = [] ∧ ∀ r ∈ s.rollbacks, r.poised = false
  | .statement (.byHolder h .commit now) =>
    h ∈ s.docket.holdings → (s.docket.row.commit h.lease now).isSome → h.lease ∉ s.begun
  | _ => True

instance (s : Executors) (t : Turn) : Decidable (s.RollsBackInPeace t) := by
  unfold RollsBackInPeace
  split <;> infer_instance

end Executors

end Staaash.Journal
