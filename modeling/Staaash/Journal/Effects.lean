import Staaash.Journal.Executor

/-!
# What a step does to the tree

The effect of a step without interruptions, as a function of the tree, and the trees an interrupted
step can leave. The executor's functions are compared with these.
-/

namespace Staaash.Journal

/-! ## Forward steps -/

/-- A folder at `k`, made if there is nothing. -/
def Fs.ensureDirectory (fs : Fs) (k : Key) : Option Fs :=
  match fs.get k with
  | some .directory => some fs
  | some _ => none
  | none => fs.mkdir k

/-- Folders at all of `ks`, one after the other. -/
def Fs.ensureDirectories (fs : Fs) (ks : List Key) : Option Fs := ks.foldlM Fs.ensureDirectory fs

/-- A forward step with its keys resolved. -/
inductive Work
  | rename (source target : Key)
  | mkdir (target : Key) (digest : Text)
deriving DecidableEq

/-- The work of a forward step, if the step is well formed. -/
def Step.work (step : Step) : Option Work :=
  match step.action with
  | .rename =>
    if (assertRenameStepIntent step).isOk then do
      let source ← (resolveMutationStoragePath (step.sourceKey.getD [])).toOption
      let target ← (resolveMutationStoragePath (step.targetKey.getD [])).toOption
      return .rename source target
    else none
  | .mkdir => do
    let targetKey ← truthy step.targetKey
    let digest ← truthy step.treeManifestDigest
    let target ← (resolveMutationStoragePath targetKey).toOption
    return .mkdir target digest
  | _ => none

/-- The folders the work makes where they are missing, outermost first. -/
def Work.way : Work → List Key
  | .rename _ target => prefixes (dirname target)
  | .mkdir target _ => prefixes target

/-- What the work does once its folders are there. -/
def Work.finish : Work → Fs → Option Fs
  | .rename source target, fs => fs.rename source target
  | .mkdir _ _, fs => some fs

variable (H : Host)

/-- The work is to be done: the node is still at its source, or the folder missing. -/
def Work.Ready (step : Step) (fs : Fs) : Work → Prop
  | .rename source target =>
    safeAncestors fs (prefixes (dirname source)) = true ∧
      safeAncestors fs (prefixes (dirname target)) = true ∧
      fs.get source ≠ none ∧ fs.get target = none ∧ (checkExpectedNode H fs source step).isOk = true
  | .mkdir target _ =>
    safeAncestors fs (prefixes (dirname target)) = true ∧ fs.get target = none

/-- The work counts as done: the node is at its target, or the folder is the captured one. -/
def Work.Done (step : Step) (fs : Fs) : Work → Prop
  | .rename source target =>
    safeAncestors fs (prefixes (dirname source)) = true ∧
      safeAncestors fs (prefixes (dirname target)) = true ∧
      fs.get source = none ∧ fs.get target ≠ none ∧ (checkExpectedNode H fs target step).isOk = true
  | .mkdir target digest =>
    safeAncestors fs (prefixes (dirname target)) = true ∧ fs.get target = some .directory ∧
      (treeManifestMatches H fs target digest).toOption = some true

instance (step : Step) (fs : Fs) : (work : Work) → Decidable (work.Ready H step fs)
  | .rename _ _ => inferInstanceAs (Decidable (_ ∧ _ ∧ _ ∧ _ ∧ _))
  | .mkdir _ _ => inferInstanceAs (Decidable (_ ∧ _))

instance (step : Step) (fs : Fs) : (work : Work) → Decidable (work.Done H step fs)
  | .rename _ _ => inferInstanceAs (Decidable (_ ∧ _ ∧ _ ∧ _ ∧ _))
  | .mkdir _ _ => inferInstanceAs (Decidable (_ ∧ _ ∧ _))

/-- The target of a finished work is there. -/
def Work.AtTarget (fs : Fs) : Work → Prop
  | .rename source target => fs.get source = none ∧ fs.get target ≠ none
  | .mkdir target _ => fs.get target = some .directory

instance (fs : Fs) : (work : Work) → Decidable (work.AtTarget fs)
  | .rename _ _ => inferInstanceAs (Decidable (_ ∧ _))
  | .mkdir _ _ => inferInstanceAs (Decidable (_ = _))

/-- The tree after a forward step; none where the step is refused. -/
def effectOf (step : Step) (fs : Fs) : Option Fs :=
  match step.work with
  | none => none
  | some work =>
    if work.Ready H step fs then (fs.ensureDirectories work.way).bind work.finish
    else if work.Done H step fs then some fs
    else none

/-- The tree after some forward steps, in order. -/
def runSteps (steps : List Step) (fs : Fs) : Option Fs :=
  steps.foldlM (fun fs step => effectOf H step fs) fs

/-- A tree that `step` can leave when it starts from `before` and is interrupted anywhere. -/
def Between (step : Step) (before fs : Fs) : Prop :=
  fs = before ∨
    (∃ work, step.work = some work ∧ work.Ready H step before ∧
      ∃ j, before.ensureDirectories (work.way.take j) = some fs) ∨
    effectOf H step before = some fs

/-! ## Undoing -/

/-- Undoing `step` takes `fs` to `after`: a rename goes the other way, a folder goes if empty. -/
def UndoOf (step : Step) (fs after : Fs) : Prop :=
  match step.action with
  | .rename => effectOf H step.swapped fs = some after
  | .mkdir =>
    (truthy step.targetKey = none ∧ after = fs) ∨
      ∃ key target, truthy step.targetKey = some key ∧ resolveMutationStoragePath key = .ok target ∧
        ((fs.get target = none ∧ after = fs) ∨
          (fs.get target = some .directory ∧ fs.hasEntries target = false ∧
            after = fs.removeUnder target []))
  | _ => after = fs

/-- A tree that undoing `step` can leave when it starts from `before` and is interrupted. -/
def UndoBetween (step : Step) (before fs : Fs) : Prop :=
  match step.action with
  | .rename => Between H step.swapped before fs
  | _ => fs = before ∨ UndoOf H step before fs

/-! ## Cleanup steps -/

/-- Empty folders go, in the order given, up to the first one that has entries. -/
def Fs.prune (fs : Fs) : List Key → Option Fs
  | [] => some fs
  | k :: ks =>
    match fs.get k with
    | none => fs.prune ks
    | some .directory => if fs.hasEntries k then some fs else (fs.removeUnder k []).prune ks
    | some _ => none

/-- The storage key a cleanup step names, and where it is. -/
def Step.victim (step : Step) : Option (Text × Key) := do
  let key ← truthy (step.targetKey.or step.sourceKey)
  let target ← (resolveMutationStoragePath key).toOption
  return (key, target)

/-- The folders that go with the last node of an artifact, innermost first. -/
def artifactFolders (key : Text) (target : Key) : List Key :=
  match getOwnedArtifactRoot key with
  | .ok (some (artifactRoot, _)) =>
    (prefixes (dirname target)).reverse.takeWhile (artifactRoot <+: ·)
  | _ => []

/-- The checks before a node is removed. `owned` allows a tree that has lost entries. -/
def Deletable (step : Step) (owned : Bool) (fs : Fs) (target : Key) (node : Node) : Prop :=
  match step.action with
  | .deleteFile => truthy step.expectedChecksum ≠ none ∧
      (checkExpectedNode H fs target step).isOk = true ∧ node ≠ .directory
  | .deleteTree => node = .directory ∧ ∃ digest, truthy step.treeManifestDigest = some digest ∧
      ∃ same, treeManifestMatches H fs target digest = .ok same ∧ (same || owned) = true
  | _ => node = .directory ∧ fs.hasEntries target = false

/-- The tree once the node at the target is gone. -/
def Gone (step : Step) (owned : Bool) (fs : Fs) (target : Key) (gone : Fs) : Prop :=
  (fs.get target = none ∧ gone = fs) ∨
    ∃ node, fs.get target = some node ∧ Deletable H step owned fs target node ∧
      gone = fs.removeUnder target []

/-- The folders a cleanup step syncs at its end are there: the one of the artifact's kind once the
artifact is gone, else the one the missing node was in. -/
def Sealed (key : Text) (target : Key) (fs after : Fs) : Prop :=
  match getOwnedArtifactRoot key with
  | .ok (some (_, kindRoot)) =>
    if ∀ k ∈ artifactFolders key target, after.get k = none then after.IsDirectory kindRoot
    else fs.get target = none → after.IsDirectory (dirname target)
  | .ok none => fs.get target = none → after.IsDirectory (dirname target)
  | .error _ => False

/-- A cleanup step takes `fs` to `after`. -/
def Swept (step : Step) (owned : Bool) (fs after : Fs) : Prop :=
  ∃ key target, step.victim = some (key, target) ∧
    safeAncestors fs (prefixes (dirname target)) = true ∧
    (∃ gone, Gone H step owned fs target gone ∧
      gone.prune (artifactFolders key target) = some after) ∧ Sealed key target fs after

/-- Cleanup steps take `fs` to `after`, in order. -/
def SweptAll (owned : Step → Bool) : List Step → Fs → Fs → Prop
  | [], fs, after => after = fs
  | step :: rest, fs, after =>
    ∃ mid, Swept H step (owned step) fs mid ∧ SweptAll owned rest mid after

/-- Some entries at or below `target` have gone. -/
def Thinned (target : Key) (before fs : Fs) : Prop :=
  ∃ keep : Key → Bool, fs.nodes.entries = before.nodes.entries.filter fun e =>
    !(target <+: e.1) || keep e.1

/-- A tree that a cleanup step can leave when it starts from `before` and is interrupted. -/
def Sweeping (step : Step) (owned : Bool) (before fs : Fs) : Prop :=
  fs = before ∨ ∃ key target, step.victim = some (key, target) ∧
    ((∃ node, before.get target = some node ∧ Deletable H step owned before target node ∧
        Thinned target before fs) ∨
      ∃ gone j, Gone H step owned before target gone ∧
        gone.prune ((artifactFolders key target).take j) = some fs)

end Staaash.Journal
