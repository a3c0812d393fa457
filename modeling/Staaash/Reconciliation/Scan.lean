import Staaash.Library.Runs
import Staaash.Reconciliation.Mutations

/-!
# The scan

`handleRestoreReconciliation`, as far as it concerns one file. It reads the journal and then the rows,
looks at the disk, reads the journal and the rows again, and marks the file. Every read is a statement of
its own, and any step of a mutation may come between two of them.
-/

namespace Staaash.Reconciliation

open Staaash.Library

inductive StorageStatus
  | available
  | missing
deriving DecidableEq, Repr

/-- What was found when the scan looked for the bytes of the file. -/
structure Look where
  /-- Missing, or with another checksum. -/
  issue : Bool
  /-- The unfinished mutations that had made some of their renames at that moment. No code reads
  this. -/
  underway : List String
deriving DecidableEq, Repr

/-- What a scan has read so far. -/
structure Scan where
  busy : Option Bool
  record : Option (Option FileRow)
  look : Option Look
  busyAgain : Option Bool
  trackedAgain : Option Bool
  recordAgain : Option (Option FileRow)
deriving DecidableEq, Repr

def Scan.fresh : Scan := ⟨none, none, none, none, none, none⟩

inductive ScanStep
  | readMutations
  | readFile
  | look
  | readMutationsAgain
  /-- Whether a step of a mutation of other entities names the key, or a folder above it. -/
  | readStepsAgain (others : Bool)
  | readFileAgain
  | mark
  | fail
deriving DecidableEq, Repr

/-- `unchanged` of `confirmIssues`. -/
def Scan.unchanged (scan : Scan) (file : FileRow) : Bool :=
  (scan.recordAgain.getD none).any (fun row =>
    row.storageKey = file.storageKey && row.storageRevision = file.storageRevision) &&
  scan.busyAgain = some false && scan.trackedAgain = some false

/-- What `markReconciledStorageStatus` writes. -/
def Scan.marks (scan : Scan) : Option StorageStatus :=
  match scan.busy, scan.record, scan.look, scan.recordAgain with
  | some busy, some (some file), some look, some _ =>
    if look.issue then if scan.unchanged file then some .missing else none
    else if busy then none
    else some .available
  | _, _, _, _ => none

/-! ## Runs -/

structure World where
  row : Option FileRow
  storageStatus : StorageStatus
  disk : Disk
  /-- The file was there once. Its id is not given again. -/
  existed : Bool
  mutations : OrderedMap String FileMutation
  scan : Scan

/-- Before anything happens: no mutation of the file is unfinished. -/
def World.start (row : Option FileRow) (storageStatus : StorageStatus) (disk : Disk) : World where
  row
  storageStatus
  disk
  existed := row.isSome
  mutations := .empty
  scan := .fresh

inductive Event
  | prepare (plan : Plan)
  | deed (mutationId : String) (deed : Deed)
  | scan (step : ScanStep)

namespace World

variable (s : World)

/-- The file is an entity of an unfinished mutation. -/
def busy : Bool := s.mutations.entries.any fun e => e.2.unfinished

def underway : List String :=
  (s.mutations.entries.filter fun e => e.2.unfinished && decide (0 < e.2.applied)).map Prod.fst

/-- No other mutation holds the keys of the file. A plan without steps for it needs none. A child of a batch
asks for none either, but it finds nothing at the key while another mutation has the file elsewhere, and
commits on the revision it was planned from only: it is taken as prepared once the other one is over. -/
def admits (plan : Plan) : Bool :=
  plan.before = s.row && !s.mutations.has plan.mutationId && (plan.before.isSome || !s.existed) &&
    (plan.write = .keep ||
      s.mutations.entries.all fun e => e.2.released || e.2.plan.write = .keep)

/-- `collectOriginalIntegrityIssues`: busy files are ignored. -/
def lookFor (busy : Bool) (record : Option FileRow) : Look where
  issue := !busy && !intact record s.disk
  underway := s.underway

/-- A step of the scan, where it is its turn. -/
def scanned : ScanStep → Option Scan
  | .readMutations =>
    if s.scan.busy = none then some { s.scan with busy := some s.busy } else none
  | .readFile =>
    if s.scan.busy.isSome && s.scan.record = none then
      some { s.scan with record := some s.row }
    else none
  | .look =>
    match s.scan.busy, s.scan.record, s.scan.look with
    | some busy, some record, none =>
      some { s.scan with look := some (s.lookFor busy record) }
    | _, _, _ => none
  | .readMutationsAgain =>
    if s.scan.look.isSome && s.scan.busyAgain = none then
      some { s.scan with busyAgain := some s.busy }
    else none
  | .readStepsAgain others =>
    if s.scan.look.isSome && s.scan.trackedAgain = none then
      let tracked := (s.scan.record.getD none).any fun file =>
        s.mutations.entries.any fun e => e.2.names file.storageKey
      some { s.scan with trackedAgain := some (others || tracked) }
    else none
  | .readFileAgain =>
    if s.scan.busyAgain.isSome && s.scan.trackedAgain.isSome && s.scan.recordAgain = none then
      some { s.scan with recordAgain := some s.row }
    else none
  | .mark => if s.scan.recordAgain.isSome then some .fresh else none
  | .fail => some .fresh

/-- The status that an event writes. -/
def marks : Event → Option StorageStatus
  | .scan .mark => s.scan.marks
  | _ => none

def act : Event → Option World
  | .prepare plan =>
    if s.admits plan then
      some { s with
        mutations := s.mutations.set plan.mutationId ⟨plan, .prepared, false, false, 0⟩ }
    else none
  | .deed mutationId deed =>
    (s.mutations.get mutationId).bind fun m =>
      (m.after deed).bind fun m' => (m.disk s.disk deed).bind fun disk =>
        (m.row s.row deed).map fun row =>
          { s with
            row, disk
            existed := s.existed || row.isSome
            mutations := s.mutations.set mutationId m' }
  | .scan step =>
    (s.scanned step).map fun scan =>
      { s with
        scan
        storageStatus := if s.row.isSome then (s.marks (.scan step)).getD s.storageStatus
          else s.storageStatus }

def step (e : Event) : World := (s.act e).getD s

end World

/-! ## Healthy files -/

/-- Outside of unfinished mutations, the bytes of the file are where its row says. -/
def World.Healthy (s : World) : Prop := s.busy = false → intact s.row s.disk = true

/-- Between the look and the second read of the journal, no mutation is given up whose renames were
underway at the look; but where the first read had found the file busy, it may be. -/
def RollsBackInTime (s : World) : Event → Prop
  | .deed mutationId .abort =>
    s.scan.busy = some false → s.scan.busyAgain = none →
      ∀ look ∈ s.scan.look, mutationId ∉ look.underway
  | _ => True

/-- A step of the scan that finds no step of other mutations on the way. -/
def Event.undisturbed : Event → Bool
  | .scan (.readStepsAgain others) => !others
  | .scan _ => true
  | _ => false

/-- One scan from its first read to its end. -/
def wholeScan : List Event :=
  [.scan .readMutations, .scan .readFile, .scan .look, .scan .readMutationsAgain,
    .scan (.readStepsAgain false), .scan .readFileAgain, .scan .mark]

instance (s : World) : Decidable s.Healthy := inferInstanceAs (Decidable (_ → _))

instance (s : World) (e : Event) : Decidable (RollsBackInTime s e) := by
  unfold RollsBackInTime
  split <;> infer_instance

/-! ## Reading a file

`downloadPrivateFile`, `createFileDownloadResponse` and `createInlineOriginalContentResponse`, as far as
they concern one file. Each loads the row, asks whether a mutation of the file is in the way, opens the
path of the key it has loaded, and marks the file missing where there is nothing to open. Steps of
mutations, of scans and of other reads come between.
-/

section Reading

open Staaash.Journal (Status)

/-- The statuses of `findBlockingStorageMutationForEntity`. -/
def blockingStatuses : List Status :=
  [.prepared, .running, .retrying, .metadataCommitted, .finalizing, .recoveryRequired]

def World.blocked (s : World) : Bool :=
  s.mutations.entries.any fun e => e.2.status ∈ blockingStatuses

/-- The file, and the reads of it that are under way, each with the row it has loaded. -/
structure Readers where
  world : World
  loaded : List FileRow
  /-- `open` comes next. -/
  checked : List FileRow
  /-- `open` has found nothing, and `markFileStorageMissing` comes next. -/
  missed : List FileRow

def Readers.start (world : World) : Readers := ⟨world, [], [], []⟩

inductive ReadEvent
  | other (e : Event)
  | findFileById
  | assertStorageEntityReadable (file : FileRow)
  | openStoragePath (file : FileRow)
  | markFileStorageMissing (file : FileRow)

namespace Readers

variable (r : Readers)

/-- The event is an update of the file's row to missing. -/
def hides : ReadEvent → Bool
  | .markFileStorageMissing file => file ∈ r.missed && r.world.row.isSome
  | _ => false

def step : ReadEvent → Readers
  | .other e => { r with world := r.world.step e }
  | .findFileById => { r with loaded := r.world.row.toList ++ r.loaded }
  | .assertStorageEntityReadable file =>
    if file ∈ r.loaded then
      { r with
        loaded := r.loaded.erase file
        checked := if r.world.blocked then r.checked else file :: r.checked }
    else r
  | .openStoragePath file =>
    if file ∈ r.checked then
      { r with
        checked := r.checked.erase file
        missed := if r.world.disk (.storage file.storageKey) = none then file :: r.missed
          else r.missed }
    else r
  | .markFileStorageMissing file =>
    if file ∈ r.missed then
      { r with
        missed := r.missed.erase file
        world := { r.world with
          storageStatus := if r.hides (.markFileStorageMissing file) then .missing
            else r.world.storageStatus } }
    else r

end Readers

/-- Renames of a mutation that has not committed are made. -/
def World.midway (s : World) : Bool :=
  s.mutations.entries.any fun e => e.2.unfinished && !e.2.committed && decide (0 < e.2.applied)

/-- Where a read opens the path, the row still has the key that it has loaded, and no mutation is on its
way with the file. -/
def OpensInTime (r : Readers) : ReadEvent → Prop
  | .openStoragePath file => file ∈ r.checked → ∀ row ∈ r.world.row,
    row.storageKey = file.storageKey ∧ r.world.midway = false
  | _ => True

instance (r : Readers) (e : ReadEvent) : Decidable (OpensInTime r e) := by
  unfold OpensInTime
  split <;> infer_instance

end Reading

end Staaash.Reconciliation
