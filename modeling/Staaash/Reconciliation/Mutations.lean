import Mathlib.Logic.Function.Basic
import Staaash.Journal.World

/-!
# The mutations of one file

What a run looks like from one file: its row, the places where its bytes can be, and the mutations that
it is an entity of. A rename of a folder above the file counts as one of the file; renames that other
bytes than the file's are the matter of are left out. The steps of a mutation are taken by whoever holds
it: leases are left out.
-/

namespace Staaash.Reconciliation

open Staaash.Journal (Status)
open Staaash.Library (OrderedMap)

/-- Where bytes can be: under a storage key, or in the staging, backup or quarantine of a mutation. -/
inductive Place
  | storage (storageKey : String)
  | artifact (mutationId name : String)
deriving DecidableEq, Repr

/-- The checksum of the regular file at a place. -/
abbrev Disk := Place → Option String

structure FileRow where
  storageKey : String
  contentChecksum : Option String
  storageRevision : Nat
deriving DecidableEq, Repr

/-- Neither missing nor mismatched, as `collectOriginalIntegrityIssues` finds it. -/
def FileRow.intact (row : FileRow) (disk : Disk) : Bool :=
  (disk (.storage row.storageKey)).any fun checksum => row.contentChecksum.all (· = checksum)

/-- A file that is not there has no bytes to miss. -/
def intact (row : Option FileRow) (disk : Disk) : Bool := row.all (·.intact disk)

/-! ## Renames -/

structure Rename where
  source : Place
  target : Place
  /-- None where a folder is renamed, which goes by its manifest. -/
  expectedChecksum : Option String
deriving DecidableEq, Repr

def Rename.apply (rename : Rename) (disk : Disk) : Option Disk :=
  (disk rename.source).bind fun checksum =>
    if disk rename.target = none && rename.expectedChecksum.all (· = checksum) then
      some (Function.update (Function.update disk rename.source none) rename.target (some checksum))
    else none

def Rename.swapped (rename : Rename) : Rename :=
  { rename with source := rename.target, target := rename.source }

def renameAll (renames : List Rename) (disk : Disk) : Option Disk :=
  renames.foldlM (fun disk rename => rename.apply disk) disk

/-! ## Plans -/

/-- What the metadata operations do to the row of the file. -/
inductive RowWrite
  | keep
  | put (storageKey : String) (contentChecksum : Option String)
  | delete
deriving DecidableEq, Repr

def RowWrite.row (write : RowWrite) (before : Option FileRow) : Option FileRow :=
  match write with
  | .keep => before
  | .put storageKey contentChecksum =>
    some ⟨storageKey, contentChecksum, before.elim 0 (·.storageRevision + 1)⟩
  | .delete => none

/-- A place that is not an artifact of another mutation. -/
def Place.openTo (mutationId : String) : Place → Bool
  | .storage _ => true
  | .artifact id _ => id = mutationId

/-- A mutation as it was prepared, as far as it concerns the file. -/
structure Plan where
  mutationId : String
  /-- The row that it was planned from. -/
  before : Option FileRow
  renames : List Rename
  write : RowWrite
  own : ∀ rename ∈ renames,
    rename.source.openTo mutationId = true ∧ rename.target.openTo mutationId = true
  /-- All renames together bring the bytes to where the new row says. -/
  lands : ∀ disk disk', intact before disk = true → renameAll renames disk = some disk' →
    intact (write.row before) disk' = true
  still : write = .keep → renames = []

/-- A rename, a move, a trash or a restore. -/
def Plan.move (mutationId : String) (row : FileRow) (storageKey : String) : Plan where
  mutationId
  before := some row
  renames := [⟨.storage row.storageKey, .storage storageKey, row.contentChecksum⟩]
  write := .put storageKey row.contentChecksum
  own := by
    intro rename hrename
    rw [List.mem_singleton.1 hrename]
    exact ⟨rfl, rfl⟩
  lands := by
    intro disk disk' hintact hrename
    obtain ⟨checksum, hsource, htarget⟩ := Option.bind_eq_some_iff.1
      (show Rename.apply _ disk = some disk' by simpa [renameAll] using hrename)
    obtain ⟨-, hdisk⟩ := Option.ite_none_right_eq_some.1 htarget
    obtain rfl := Option.some.inj hdisk
    have hsame : row.intact disk = true := hintact
    unfold FileRow.intact at hsame
    rw [hsource] at hsame
    simpa [intact, RowWrite.row, FileRow.intact] using hsame
  still := nofun

/-! ## Mutations -/

structure FileMutation where
  plan : Plan
  status : Status
  committed : Bool
  /-- Its resources were released. -/
  released : Bool
  /-- How many of the renames are made. -/
  applied : Nat

/-- The statuses of `mutationFiles` in `loadReconciliationContext`. -/
def unfinishedStatuses : List Status :=
  [.preparing, .prepared, .running, .retrying, .metadataCommitted, .finalizing, .recoveryRequired]

/-- The statuses of `mutationSteps` in `loadReconciliationContext`. -/
def trackedStatuses : List Status :=
  [.prepared, .running, .retrying, .metadataCommitted, .finalizing, .recoveryRequired]

def FileMutation.unfinished (m : FileMutation) : Bool := m.status ∈ unfinishedStatuses

/-- One of its steps names the key. -/
def FileMutation.names (m : FileMutation) (storageKey : String) : Bool :=
  m.status ∈ trackedStatuses && m.plan.renames.any fun rename =>
    rename.source = .storage storageKey || rename.target = .storage storageKey

/-- What the holder of a mutation does, or an executor that claims it. -/
inductive Deed
  | claim
  | rename
  | undo
  | commit
  | beginFinalization
  | cleanup (name : String)
  | complete
  | retry
  | requireRecovery
  | abort
deriving DecidableEq, Repr

/-- The part of a deed that is the mutation's own, where it has an effect. -/
def FileMutation.after (m : FileMutation) : Deed → Option FileMutation
  | .claim =>
    if m.status ∈ [Status.prepared, .running, .retrying] then some { m with status := .running }
    else none
  | .rename =>
    if m.status = .running && m.applied < m.plan.renames.length then
      some { m with applied := m.applied + 1 }
    else none
  | .undo =>
    if m.status = .running && 0 < m.applied then some { m with applied := m.applied - 1 } else none
  | .commit =>
    if m.status = .running && m.applied = m.plan.renames.length then
      some { m with status := .metadataCommitted, committed := true }
    else none
  | .beginFinalization =>
    if m.status = .metadataCommitted then some { m with status := .finalizing, released := true }
    else none
  | .cleanup _ => if m.status = .finalizing then some m else none
  | .complete => if m.status = .finalizing then some { m with status := .succeeded } else none
  | .retry => if m.status = .running then some { m with status := .retrying } else none
  | .requireRecovery =>
    if m.status ∈ [Status.running, .metadataCommitted, .finalizing] then
      some { m with status := .recoveryRequired }
    else none
  | .abort =>
    if m.status = .running && m.applied = 0 then
      some { m with status := .aborted, released := true }
    else none

/-- What it does to the disk. -/
def FileMutation.disk (m : FileMutation) (disk : Disk) : Deed → Option Disk
  | .rename => (m.plan.renames[m.applied]?).bind fun rename => rename.apply disk
  | .undo => (m.plan.renames[m.applied - 1]?).bind fun rename => rename.swapped.apply disk
  | .cleanup name => some (Function.update disk (.artifact m.plan.mutationId name) none)
  | _ => some disk

/-- What it does to the row: a commit finds it with the revision that the plan has read. -/
def FileMutation.row (m : FileMutation) (row : Option FileRow) : Deed → Option (Option FileRow)
  | .commit =>
    if m.plan.write = .keep then some row
    else if m.plan.before = row then some (m.plan.write.row row)
    else none
  | _ => some row

end Staaash.Reconciliation
