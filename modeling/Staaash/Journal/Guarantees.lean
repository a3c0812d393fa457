import Staaash.Journal.Runs

/-!
# What is promised of runs

A mutation's steps are durable before they are recorded, a rollback restores the tree, and a run in which
the process only ever dies rolls forward. A change of a folder is volatile until the folder is synced. A
process that dies leaves volatile changes in place; a loss of power can drop them. The log of a run says
which entries are volatile, and so whether a step was recorded before its entries were synced.
-/

namespace Staaash.Journal

/-! ## Volatile entries -/

/-- An entry below a folder that is renamed moves along with it. -/
def moveEntry (source target e : Key) : Key := if e = source then e else moveKey source target e

/-- The volatile entries after a change that gave the tree `fs`. Where the folder of an entry is
gone, the entry is lost or kept with the one that was removed above it. -/
def FsOp.unsettles (fs : Fs) (entries : List Key) : FsOp → List Key
  | .mkdir k => k :: entries
  | .rename source target => source :: target :: entries.map (moveEntry source target)
  | .unlink k | .removeTree k | .rmdir k =>
    k :: entries.map fun e => if fs.IsDirectory (dirname e) then e else k

/-- The entries that were changed and not synced since. -/
def volatile : Log → List Key
  | [] => []
  | (e, fs) :: older =>
    match e with
    | .changed _ op => op.unsettles fs (volatile older)
    | .synced k => (volatile older).filter fun entry => dirname entry ≠ k
    | _ => volatile older

/-! ## Steps -/

/-- A claim, or the record of a step: what follows is the work on the next one. -/
def Event.begins : Event → Bool
  | .claimed _ | .claimedFinalization _ | .marked _ => true
  | _ => false

/-- The log when the step that is under way was begun. -/
def begun : Log → Log
  | [] => []
  | (e, fs) :: older => if e.begins then (e, fs) :: older else begun older

/-- The parts of its effect that a forward step finds in place in the tree `fs` and does not sync
again: a rename that was made, the folder of a mkdir, or a folder on the way. Folders beside the
source of a rename that is still to be made are synced with it. -/
def Work.InPlace (fs : Fs) (e : Key) : Work → Prop
  | .rename source target =>
    (e = source ∧ fs.get source = none) ∨
      (e ∈ prefixes target ∧ fs.get e ≠ none ∧
        (fs.get source = none ∨ dirname e ≠ dirname source))
  | .mkdir target _ => e ∈ prefixes target ∧ fs.get e ≠ none

/-- The entries the effect of a step consists of, in the tree `fs` after it: both names of a rename,
the folders on the way, and of a delete whatever is gone of its path. -/
def Step.Touches (step : Step) (fs : Fs) (e : Key) : Prop :=
  match step.work with
  | some (.rename source target) => e = source ∨ e ∈ prefixes target
  | some (.mkdir target _) => e ∈ prefixes target
  | none => ∃ key target, step.victim = some (key, target) ∧ e ∈ prefixes target ∧ fs.get e = none

/-- The step, begun at the log `start`, has found nothing volatile in place. -/
def FoundSettled (step : Step) (start : Log) : Prop :=
  ∀ work, step.work = some work → ∀ event fs older, start = (event, fs) :: older →
    ∀ e, work.InPlace fs e → e ∉ volatile start

/-- The step is on record. -/
def IsMarked (log : Log) (id : Nat) : Prop := ∃ fs, (Event.marked id, fs) ∈ log

variable (m : Mutation)

/-- No step that was recorded had found a volatile part of its effect in place. -/
def FindsSettled (log : Log) : Prop :=
  ∀ newer older id fs, log = newer ++ (.marked id, fs) :: older →
    ∀ step ∈ m.steps, step.id = id → FoundSettled step (begun older)

/-- What is on record is durable, and what is committed is on record. -/
structure DurableBeforeRecorded (log : Log) : Prop where
  recorded : ∀ newer older id fs, log = newer ++ (.marked id, fs) :: older →
    ∀ step ∈ m.steps, step.id = id → ∀ e, step.Touches fs e → e ∉ volatile older
  committed : ∀ newer older fs, log = newer ++ (.committed, fs) :: older →
    ∀ step ∈ m.forward, IsMarked older step.id

/-! ## What a rollback should restore

Where the nodes of the start are once some of the steps have had their effect, with whatever folders
were made on the way left out of account; and the two things a rollback relies on without checking
them: that the steps it has in memory are the ones that took effect, and that a step looks done only
after it was done.
-/

section Restore

/-- Which nodes are where. -/
abbrev Places := Key → Option Node

/-- The places a work needs are not taken. -/
def Work.Free (F : Places) : Work → Prop
  | .rename _ target => ∀ rest, F (target ++ rest) = none
  | .mkdir target _ => F target = none

/-- The places after a work. -/
def Work.shift (F : Places) : Work → Places
  | .rename source target => fun k =>
    if target <+: k then F (source ++ k.drop target.length)
    else if source <+: k then none
    else F k
  | .mkdir target _ => fun k => if k = target then some .directory else F k

/-- The places once the steps of the list have had their effect on `start`, in order. -/
inductive Displaced (start : Fs) : List Step → Places → Prop
  | start : Displaced start [] start.get
  | step {done : List Step} {F : Places} {s : Step} {work : Work} (h : Displaced start done F)
      (hw : s.work = some work) (hfree : work.Free F) : Displaced start (done ++ [s]) (work.shift F)

/-- The folders around the paths of a work. -/
def Work.around : Work → List Key
  | .rename source target => prefixes (dirname source) ++ prefixes (dirname target)
  | .mkdir target _ => prefixes (dirname target)

/-- A folder that a mutation may leave: one on the way to a path of a step, or carried along with a
rename there or back. -/
inductive Scaffold (m : Mutation) : Key → Prop
  | onTheWay {s : Step} {work : Work} {k : Key} (hs : s ∈ m.forward) (hw : s.work = some work)
      (hk : k ∈ work.around) : Scaffold m k
  | moved {s : Step} {source target rest : Key} (hs : s ∈ m.forward)
      (hw : s.work = some (.rename source target)) (h : Scaffold m (source ++ rest)) :
      Scaffold m (target ++ rest)
  | movedBack {s : Step} {source target rest : Key} (hs : s ∈ m.forward)
      (hw : s.work = some (.rename source target)) (h : Scaffold m (target ++ rest)) :
      Scaffold m (source ++ rest)

/-- The tree has exactly the nodes of `F`, but for empty scaffolding. -/
def Holds (m : Mutation) (F : Places) (fs : Fs) : Prop :=
  ∀ k, fs.get k = F k ∨ (F k = none ∧ fs.get k = some .directory ∧ Scaffold m k)

/-- Every node is back where it was before the mutation, and nothing else is there but scaffolding. -/
def Restored (m : Mutation) (start fs : Fs) : Prop := Holds m start.get fs

/-! ## What a rollback relies on -/

/-- At a rollback, the first forward step that is not in memory has not taken effect. -/
def Covers (m : Mutation) (memory : List Nat) (fs : Fs) : Prop :=
  ∀ s work, m.forward.find? (fun s => !memory.contains s.id) = some s → s.work = some work →
    ¬ work.AtTarget fs

variable (H : Host)

/-- A node of the type and the checksum the step has recorded. -/
def Alike (step : Step) (n : Node) : Prop :=
  step.expectedNodeType = some n.type ∧ assertExpectedNodeChecksum H n step = .ok ()

/-- The step looks done: its source is missing and its target there, with the recorded type and
checksum, or its folder exists. -/
def LooksDone (F : Places) (step : Step) : Prop :=
  match step.action with
  | .rename => ∃ source target, step.work = some (.rename source target) ∧ F source = none ∧
      (∃ rest, F (target ++ rest) ≠ none) ∧ ∀ n, F target = some n → Alike H step n
  | .mkdir => ∃ key target, truthy step.targetKey = some key ∧
      resolveMutationStoragePath key = .ok target ∧ F target = some .directory
  | _ => False

/-- Whichever steps before it have had their effect, no step looks done before it was done. -/
def NeverForestalled (m : Mutation) (start : Fs) : Prop :=
  ∀ before s after done F, m.forward = before ++ s :: after → done.Sublist before →
    Displaced start done F → ¬ LooksDone H F s

end Restore

/-! ## Rolling forward

What a run in which the process only ever dies should leave behind: the tree of some of the steps,
each with its effect once, and every node of the start where the renames have carried it, unless a
delete step of the committed mutation has removed it.
-/

section RollForward

/-! ## Where the nodes are -/

/-- Where a node at `k` is after the work. -/
def Work.carry : Work → Key → Key
  | .rename source target, k => moveKey source target k
  | .mkdir _ _, k => k

/-- Where a node at `k` is after the step. -/
def Step.carry (step : Step) (k : Key) : Key :=
  match step.work with
  | some work => work.carry k
  | none => k

/-- Where a node at `k` is after the steps. -/
def carried (steps : List Step) (k : Key) : Key := steps.foldl (fun k step => step.carry k) k

/-- Every node of `start` is where the steps have carried it. -/
def Carried (steps : List Step) (start fs : Fs) : Prop :=
  ∀ k n, start.get k = some n → fs.get (carried steps k) = some n

/-- A delete step removes the node `n` at `k`: the node is at or below what the step names, or a
folder of its artifact. -/
def Discarded (steps : List Step) (k : Key) (n : Node) : Prop :=
  ∃ s ∈ steps, ∃ key target, s.victim = some (key, target) ∧
    (target <+: k ∨ (n = .directory ∧ k ∈ artifactFolders key target))

/-! ## What a run leaves -/

/-- A first attempt that meets no fault. -/
def firstAttempt (leaseOwner : Text) : Attempt where
  cleanupOnly := false
  leaseOwner := leaseOwner
  wait := 0
  schedule := []

/-- Whether a tree delete of `step` may find a part of the tree gone, once all forward steps are
recorded. -/
def ownedDelete (m : Mutation) (step : Step) : Bool :=
  (isOwnedQuarantineTreeDelete m (m.forward.map Step.id) step).toOption.getD false

variable (H : Host) (m : Mutation) (start : Fs)

/-- The first `k` forward steps have had their effect, and the next one at most a part of it. -/
def ForwardTo (k : Nat) (fs : Fs) : Prop :=
  ∃ X, runSteps H (m.forward.take k) start = some X ∧
    (fs = X ∨ ∃ s, m.forward[k]? = some s ∧ Between H s X fs)

/-- All forward steps and the first `c` delete steps have had their effect, and the next one at most
a part of it. -/
def SweptTo (c : Nat) (fs : Fs) : Prop :=
  ∃ F G, runSteps H m.forward start = some F ∧
    SweptAll H (ownedDelete m) (m.cleanup.take c) F G ∧
    (fs = G ∨ ∃ s, m.cleanup[c]? = some s ∧ Sweeping H s (ownedDelete m s) G fs)

/-- Before the commit every node is at its source or at its target. -/
def BeforeCommit (w : World) : Prop :=
  commits w.log = 0 ∧ (∃ k, ForwardTo H m start k w.fs) ∧ ∃ k, Carried (m.forward.take k) start w.fs

/-- After the commit every node is at its target, unless a delete step has removed it. -/
def AfterCommit (w : World) : Prop :=
  commits w.log = 1 ∧ ∃ c, SweptTo H m start c w.fs ∧
    ∀ k n, start.get k = some n → w.fs.get (carried m.forward k) = some n ∨
      Discarded (m.cleanup.take (c + 1)) (carried m.forward k) n

/-- The run has done what one attempt without faults does, which succeeds. -/
def AsWithoutFaults (w : World) : Prop :=
  SweptTo H m start m.cleanup.length w.fs ∧ ∀ leaseOwner,
    (run H m (prepared start) [firstAttempt leaseOwner]).row.status = .succeeded ∧
      w.fs = (run H m (prepared start) [firstAttempt leaseOwner]).fs ∧
      commits w.log = 1 ∧ commits (run H m (prepared start) [firstAttempt leaseOwner]).log = 1

/-- A mutation that was only ever rolled forward. -/
def RolledForward (w : World) : Prop :=
  (w.row.status = .succeeded ∧ AsWithoutFaults H m start w) ∨
    (w.row.status ≠ .succeeded ∧ w.row.status ≠ .aborted ∧
      (BeforeCommit H m start w ∨ AfterCommit H m start w))

end RollForward

end Staaash.Journal
