import Staaash.Artifacts.Publishing
import Staaash.Artifacts.Sources
import Staaash.Library.Runs

/-!
# Generating an archive

`handleZipArchiveGenerate`, called any number of times for one archive, every call as slow as it likes
between two of its steps, with everything else that happens to the archive and to the owner's files. The children
of a batch are left out, though they hold nothing and may run beside a publication: they only take files
away from their keys, so what a call reads at a key meanwhile is the file or nothing.
-/

namespace Staaash.Archives

open Staaash.Library Staaash.Artifacts

/-! ## The row -/

inductive ZipArchiveStatus
  | queued
  | processing
  | ready
  | failed
deriving DecidableEq, Repr

structure ZipArchiveRecord where
  id : String
  userId : String
  contentKey : String
  /-- `idsJson`, as it was parsed. -/
  fileIds : List String
  folderIds : List String
  status : ZipArchiveStatus
  storageKey : Option String
  fileName : Option String
  sizeBytes : Option Nat
  fileCount : Option Nat
  error : Option String
  expiresAt : Nat
  storageRevision : Nat
deriving DecidableEq, Repr

/-- What a publication writes to the row. -/
structure ReadyData where
  storageKey : String
  fileName : String
  sizeBytes : Nat
  fileCount : Nat
deriving DecidableEq, Repr

namespace ZipArchiveRecord

def publishMutationId (archive : ZipArchiveRecord) (jobId : String) : String :=
  "archive-publish-" ++ archive.id ++ "-" ++ jobId

def tmpKey (archive : ZipArchiveRecord) : String := "tmp/archives/" ++ (archive.id ++ ".zip.tmp")

def archiveKey (archive : ZipArchiveRecord) : String := "archives/" ++ (archive.id ++ ".zip")

/-- Keys of released jobs have only the ids. -/
def hasContentKey (archive : ZipArchiveRecord) : Bool := "v2:".toList.isPrefixOf archive.contentKey.toList

/-- `assertContentMatches`. -/
def contentMatches (archive : ZipArchiveRecord) (contentKey : String) : Bool :=
  !(archive.hasContentKey && contentKey ≠ archive.contentKey)

def publish (archive : ZipArchiveRecord) (data : ReadyData) : ZipArchiveRecord :=
  { archive with
    status := .ready
    storageKey := some data.storageKey
    fileName := some data.fileName
    sizeBytes := some data.sizeBytes
    fileCount := some data.fileCount
    error := none
    storageRevision := archive.storageRevision + 1 }

end ZipArchiveRecord

/-! ## The stream -/

/-- A source is opened when the stream is created, sampled for the level of compression if it is large, and
read. -/
inductive Use
  | opened
  | sampled
  | streamed
deriving DecidableEq, Repr

structure Reading (Body : Type) where
  entry : ArchiveEntry
  use : Use
  body : Body
deriving DecidableEq, Repr

/-- What the libraries make of what they read: the bytes that follow a reading, and the end of the archive.
Both may depend on the time of the call, on the directories and on the readings before, the newest first. -/
structure Packer (Body Byte : Type) where
  piece : Nat → List String → List (Reading Body) → Reading Body → List Byte
  close : Nat → List String → List (Reading Body) → List Byte

variable {Body Byte : Type}

/-- The stream after some readings. -/
def Packer.stream (packer : Packer Body Byte) (calledAt : Nat) (directories : List String) :
    List (Reading Body) → List Byte
  | [] => []
  | r :: before => packer.stream calledAt directories before ++ packer.piece calledAt directories before r

/-- All that the stream gives. -/
def Packer.output (packer : Packer Body Byte) (calledAt : Nat) (directories : List String)
    (readings : List (Reading Body)) : List Byte :=
  packer.stream calledAt directories readings ++ packer.close calledAt directories readings

/-- The entries that have been read for a use, the oldest first. -/
def entriesRead (use : Use) (readings : List (Reading Body)) : List ArchiveEntry :=
  ((readings.filter (·.use = use)).map (·.entry)).reverse

def entriesRemaining (use : Use) (entries : List ArchiveEntry) (readings : List (Reading Body)) :
    List ArchiveEntry :=
  entries.drop (entriesRead use readings).length

/-! ## Calls of the handler -/

/-- A selection, and the revisions of its folders. -/
structure Loaded where
  selection : ArchiveSelection
  folderRevision : String → Nat

structure Writing (Body Byte : Type) where
  loaded : Loaded
  calledAt : Nat
  output : Output Nat Byte
  readings : List (Reading Body)
  /-- The stream has come to its end. -/
  closed : Bool
  /-- What the stream has given and is not written yet. -/
  pending : List Byte

structure Measured where
  sizeBytes : Nat
  checksum : String
  oldChecksum : Option String
deriving DecidableEq, Repr

inductive Stage (Body Byte : Type)
  | found
  | starting
  | loading
  | loaded (loaded : Loaded)
  | opening (loaded : Loaded) (readings : List (Reading Body))
  | writing (writing : Writing Body Byte)
  | written (writing : Writing Body Byte)
  | compared (writing : Writing Body Byte)
  | measured (writing : Writing Body Byte) (measured : Measured)
  /-- The publication belongs to the journal. -/
  | handedOver (writing : Writing Body Byte)
  | failing
  | over

structure Call (Body Byte : Type) where
  jobId : String
  /-- The row as the call has found it. -/
  archive : ZipArchiveRecord
  stage : Stage Body Byte

/-- What the call has written, where it can still publish it or has done so. -/
def Stage.output? : Stage Body Byte → Option (Output Nat Byte)
  | .writing x | .written x | .compared x | .measured x _ | .handedOver x => some x.output
  | _ => none

/-- The readings of a call that can still publish what it makes of them. -/
def Stage.readings : Stage Body Byte → List (Reading Body)
  | .opening _ readings => readings
  | .writing x | .written x | .compared x | .measured x _ => x.readings
  | _ => []

/-! ## The world -/

/-- The parts that the code does not decide. -/
structure Host (Body Byte : Type) where
  runtime : Runtime
  packer : Packer Body Byte
  /-- Of a file, in a publication. -/
  checksum : List Byte → String
  /-- The bytes that a row describes, by its checksum or its revision. -/
  bodyOf : StoredFileRecord → Body

structure World (Body Byte : Type) where
  sources : Sources Body
  now : Nat
  archive : Option ZipArchiveRecord
  desk : Desk Byte ReadyData
  calls : List (Call Body Byte)

inductive WorkerEvent
  | mayStart
  | setProcessing
  | load
  | reconsider
  | openSource
  | openOutput (calledAt : Nat)
  | sample (index : Nat)
  | stream
  | close
  | write (length : Nat)
  | finish
  | compare
  | measure
  | prepare
  | stop
  /-- With the beginning of the message. -/
  | setFailed (error : String)
deriving DecidableEq, Repr

inductive Event (Body : Type)
  | source (event : SourceEvent Body)
  | find (jobId : String)
  | worker (call : Nat) (event : WorkerEvent)
  | validate (mutationId : String)
  | apply (mutationId : String)
  | commit (mutationId : String)
  | cancel
  | purge
  | wait (now : Nat)

namespace World

def setStage (w : World Body Byte) (i : Nat) (stage : Stage Body Byte) : World Body Byte :=
  { w with calls := w.calls.modify i fun call => { call with stage } }

/-- An entity of the selection has an unfinished mutation. -/
def blocked (w : World Body Byte) (selection : ArchiveSelection) : Bool :=
  w.sources.mutations.any fun m =>
    selection.filesToZip.any (m.fileIds.contains ·.id) || selection.allFolders.any (m.folderIds.contains ·.id)

/-- `validatePreparedEntityRevisions`, with the rows of a publication. -/
def guarded (w : World Body Byte) (archive : ZipArchiveRecord) (loaded : Loaded) : Bool :=
  loaded.selection.filesToZip.all (fun file =>
      w.sources.rows.files.any fun row => row.id = file.id && row.storageRevision = file.storageRevision) &&
    loaded.selection.allFolders.all (fun folder =>
      w.sources.rows.folders.any (·.id = folder.id) &&
        w.sources.folderRevision folder.id = loaded.folderRevision folder.id) &&
    w.archive.any (·.storageRevision = archive.storageRevision)

end World

/-- What lies at the key of an entry. -/
def readEntry (src : Sources Body) (use : Use) (entry : ArchiveEntry) : Option (Reading Body) :=
  (src.disk entry.file.storageKey).map fun body => { entry, use, body }

/-- The entries are opened and read in their order. -/
def readNext (src : Sources Body) (use : Use) (entries : List ArchiveEntry) (readings : List (Reading Body)) :
    Option (Reading Body) :=
  (entriesRemaining use entries readings).head?.bind (readEntry src use)

/-- The temporary file is measured by its name. -/
def measureOutput (checksum : List Byte → String) (files : ArtifactFiles Byte) (archive : ZipArchiveRecord) :
    Option Measured := do
  let node ← files.get archive.tmpKey
  some
    { sizeBytes := node.bytes.length
      checksum := checksum node.bytes
      oldChecksum := (files.get archive.archiveKey).map fun old => checksum old.bytes }

def Writing.readyData (x : Writing Body Byte) (archive : ZipArchiveRecord) (m : Measured) : ReadyData :=
  { storageKey := archive.archiveKey
    fileName := x.loaded.selection.fileName
    sizeBytes := m.sizeBytes
    fileCount := x.loaded.selection.filesToZip.length }

def Call.publication (call : Call Body Byte) (x : Writing Body Byte) (m : Measured) : Publication ReadyData :=
  let archive := call.archive
  let mutationId := archive.publishMutationId call.jobId
  .prepared mutationId x.output.writer archive.storageRevision (x.readyData archive m)
    (buildArtifactPublishSteps mutationId archive.tmpKey archive.archiveKey m.sizeBytes m.checksum m.oldChecksum)

variable (host : Host Body Byte)

/-- `readArchiveSelection` with the ids of the row. -/
def Call.select (call : Call Body Byte) (src : Sources Body) :
    Except ArchiveSelectionUnavailableError ArchiveSelection :=
  readArchiveSelection host.runtime src.rows call.archive.userId call.archive.fileIds call.archive.folderIds

/-- The stream is there, with the directories. -/
def Writing.begin (loaded : Loaded) (calledAt : Nat) (output : Output Nat Byte)
    (readings : List (Reading Body)) : Writing Body Byte :=
  { loaded, calledAt, output, readings
    closed := false
    pending := host.packer.stream calledAt loaded.selection.directories readings }

/-- A reading, and what the stream gives after it. -/
def Writing.take (x : Writing Body Byte) (r : Reading Body) : Writing Body Byte :=
  { x with
    readings := r :: x.readings
    pending := x.pending ++ host.packer.piece x.calledAt x.loaded.selection.directories x.readings r }

def Writing.end (x : Writing Body Byte) : Writing Body Byte :=
  { x with
    closed := true
    pending := x.pending ++ host.packer.close x.calledAt x.loaded.selection.directories x.readings }

variable [Inhabited Byte]

/-- A step of one call, where it is at that step. An error leads to `stop`, from wherever it is thrown. -/
def workerAct (w : World Body Byte) (i : Nat) (call : Call Body Byte) :
    WorkerEvent → Option (World Body Byte)
  | .mayStart =>
    match call.stage with
    | .found =>
      some (w.setStage i
        (if (w.desk.publication (call.archive.publishMutationId call.jobId)).isNone then .starting else .over))
    | _ => none
  | .setProcessing =>
    match call.stage, w.archive with
    | .starting, some archive =>
      some { w.setStage i .loading with archive := some { archive with status := .processing } }
    | _, _ => none
  | .load =>
    match call.stage, call.select host w.sources with
    | .loading, .ok selection => some (w.setStage i (.loaded ⟨selection, w.sources.folderRevision⟩))
    | _, _ => none
  | .reconsider =>
    match call.stage with
    | .loaded loaded =>
      if w.blocked loaded.selection then some (w.setStage i .loading)
      else if call.archive.contentMatches loaded.selection.contentKey then
        some (w.setStage i (.opening loaded []))
      else none
    | _ => none
  | .openSource =>
    match call.stage with
    | .opening loaded readings =>
      (readNext w.sources .opened loaded.selection.entries readings).map fun r =>
        w.setStage i (.opening loaded (r :: readings))
    | _ => none
  | .openOutput calledAt =>
    match call.stage with
    | .opening loaded readings =>
      if entriesRemaining .opened loaded.selection.entries readings = [] then
        let opened := w.desk.openOutput call.archive.tmpKey
        some { w.setStage i (.writing (Writing.begin host loaded calledAt opened.2 readings)) with
          desk := opened.1 }
      else none
    | _ => none
  | .sample index =>
    match call.stage with
    | .writing x =>
      if x.closed then none
      else
        (x.loaded.selection.entries[index]?.bind (readEntry w.sources .sampled)).map fun r =>
          w.setStage i (.writing (x.take host r))
    | _ => none
  | .stream =>
    match call.stage with
    | .writing x =>
      if x.closed then none
      else
        (readNext w.sources .streamed x.loaded.selection.entries x.readings).map fun r =>
          w.setStage i (.writing (x.take host r))
    | _ => none
  | .close =>
    match call.stage with
    | .writing x =>
      if x.closed = false ∧ entriesRemaining .streamed x.loaded.selection.entries x.readings = [] then
        some (w.setStage i (.writing (x.end host)))
      else none
    | _ => none
  | .write length =>
    match call.stage with
    | .writing x =>
      let wrote := w.desk.write x.output (x.pending.take length)
      some { w.setStage i (.writing { x with output := wrote.2, pending := x.pending.drop length }) with
        desk := wrote.1 }
    | _ => none
  | .finish =>
    match call.stage with
    | .writing x => if x.closed ∧ x.pending.isEmpty then some (w.setStage i (.written x)) else none
    | _ => none
  | .compare =>
    match call.stage, call.select host w.sources with
    | .written x, .ok selection =>
      if call.archive.contentMatches selection.contentKey then some (w.setStage i (.compared x)) else none
    | _, _ => none
  | .measure =>
    match call.stage with
    | .compared x =>
      (measureOutput host.checksum w.desk.files call.archive).map fun m => w.setStage i (.measured x m)
    | _ => none
  | .prepare =>
    match call.stage with
    | .measured x m =>
      let p := call.publication x m
      if (w.desk.publication p.mutationId).isNone ∧ w.desk.publishing = false ∧ w.sources.mutations = [] ∧
          w.guarded call.archive x.loaded then
        some { w.setStage i (.handedOver x) with desk := w.desk.prepare p }
      else none
    | _ => none
  | .stop =>
    match call.stage with
    | .loading | .loaded _ | .opening _ _ => some (w.setStage i .failing)
    | .writing _ | .written _ | .compared _ | .measured _ _ =>
      some { w.setStage i .failing with desk := w.desk.remove call.archive.tmpKey }
    | _ => none
  | .setFailed error =>
    match call.stage, w.archive with
    | .failing, some archive =>
      some { w.setStage i .over with
        archive := some { archive with status := .failed, error := some error } }
    | _, _ => none

variable [DecidableEq Body]

def act (w : World Body Byte) : Event Body → Option (World Body Byte)
  | .source event =>
    match event with
    | .prepare _ =>
      if w.desk.publishing then none else (w.sources.act host.bodyOf event).map fun sources => { w with sources }
    | _ => (w.sources.act host.bodyOf event).map fun sources => { w with sources }
  | .find jobId =>
    w.archive.map fun archive =>
      { w with calls := w.calls ++ [⟨jobId, archive, if archive.status = .ready then .over else .found⟩] }
  | .worker i event => (w.calls[i]?).bind fun call => workerAct host w i call event
  | .validate mutationId => (w.desk.validate host.checksum mutationId).map fun desk => { w with desk }
  | .apply mutationId => (w.desk.apply mutationId).map fun desk => { w with desk }
  | .commit mutationId =>
    match w.desk.publication mutationId, w.archive with
    | some p, some archive =>
      if p.committed = false ∧ p.forwardDone ∧ archive.storageRevision = p.preRevision then
        some { w with desk := w.desk.commit p, archive := some (archive.publish p.data) }
      else none
    | _, _ => none
  | .cancel =>
    match w.archive with
    | some archive =>
      if archive.status = .queued ∨ archive.status = .processing then
        some { w with archive := some { archive with status := .failed, error := some "Cancelled by admin." } }
      else none
    | none => none
  | .purge =>
    match w.archive with
    | some archive =>
      if archive.expiresAt ≤ w.now ∧ archive.storageKey.isSome ∧ w.desk.publishing = false ∧
          w.sources.mutations = [] then
        some { w with archive := none, desk := w.desk.remove archive.archiveKey }
      else none
    | none => none
  | .wait now => if w.now ≤ now then some { w with now } else none

def step (w : World Body Byte) (e : Event Body) : World Body Byte := (act host w e).getD w

/-- An archive is asked for. -/
def World.requested (sources : Sources Body) (now : Nat) (archive : ZipArchiveRecord) : World Body Byte where
  sources := sources
  now := now
  archive := some { archive with
    status := .queued, storageKey := none, fileName := none, sizeBytes := none, fileCount := none
    error := none, storageRevision := 0 }
  desk := .empty
  calls := []

/-! ## Archives that stay ready

What it means that a ready archive is the whole archive of its content key and stays ready until it
expires, and what the calls of the handler and the mutations of its sources must not do to it.
-/

section Wholeness

variable {Body Byte : Type} (host : Host Body Byte)

/-- The readings of one stream of the entries, each of which found what the row of the selection describes. -/
structure Faithful (entries : List ArchiveEntry) (readings : List (Reading Body)) : Prop where
  opened : entriesRead .opened readings = entries
  streamed : entriesRead .streamed readings = entries
  listed : ∀ r ∈ readings, r.entry ∈ entries
  described : ∀ r ∈ readings, r.body = host.bodyOf r.entry.file

/-- The bytes at the storage key are all that one stream has given for a selection with the content key. -/
structure IsWhole (w : World Body Byte) (archive : ZipArchiveRecord) : Prop where
  whole : ∃ key node rows selection calledAt readings, archive.storageKey = some key ∧
    w.desk.files.get key = some node ∧
    readArchiveSelection host.runtime rows archive.userId archive.fileIds archive.folderIds = .ok selection ∧
    selection.contentKey = archive.contentKey ∧ Faithful host selection.entries readings ∧
    node.bytes = host.packer.output calledAt selection.directories readings

/-- The archive may be downloaded. -/
def World.isReady (w : World Body Byte) : Bool := w.archive.any (·.status = .ready)

/-- It has not expired, and is ready. -/
def World.servable (w : World Body Byte) : Bool :=
  w.archive.any fun archive => archive.status = .ready && w.now < archive.expiresAt

/-! ## Calls that keep out of each other's way -/

/-- The next event of the call writes a status. -/
def Stage.setsStatus : Stage Body Byte → WorkerEvent → Bool
  | .starting, .setProcessing | .failing, .setFailed _ => true
  | _, _ => false

/-- The output that the event adds to. -/
def Stage.writesTo : Stage Body Byte → WorkerEvent → Option (Output Nat Byte)
  | .writing x, .write _ => some x.output
  | _, _ => none

/-- No call sets the status of an archive that is ready and not expired. A call writes to its temporary file
only while no other call has opened it since, and only such a file is published. No mutation is rolled back
after a call that goes on has read from a file what its row does not describe. -/
def Orderly (w : World Body Byte) : Event Body → Prop
  | .worker i event => ∀ call ∈ w.calls[i]?,
    (call.stage.setsStatus event = true → w.servable = false) ∧
      ∀ o ∈ call.stage.writesTo event, w.desk.OwnsOutput o
  | .apply mutationId => w.desk.FindsOutput mutationId
  | .source (.abort id) => ∀ m ∈ w.sources.mutations.find? (·.id = id), ∀ call ∈ w.calls,
    ∀ r ∈ call.stage.readings, r.entry.file.id ∈ m.changed → r.body = host.bodyOf r.entry.file
  | _ => True

instance [DecidableEq Body] (w : World Body Byte) (e : Event Body) : Decidable (Orderly host w e) :=
  match e with
  | .worker i event => inferInstanceAs (Decidable (∀ call ∈ w.calls[i]?,
      (call.stage.setsStatus event = true → w.servable = false) ∧
        ∀ o ∈ call.stage.writesTo event, w.desk.OwnsOutput o))
  | .apply mutationId => inferInstanceAs (Decidable (w.desk.FindsOutput mutationId))
  | .source (.abort id) => inferInstanceAs (Decidable (∀ m ∈ w.sources.mutations.find? (·.id = id),
      ∀ call ∈ w.calls, ∀ r ∈ call.stage.readings, r.entry.file.id ∈ m.changed →
        r.body = host.bodyOf r.entry.file))
  | .source (.prepare _) | .source (.place _ _) | .source (.commit _ _ _) | .find _ | .validate _ | .commit _
  | .cancel | .purge | .wait _ => isTrue trivial

variable [Inhabited Byte] [DecidableEq Body]

def World.run (w : World Body Byte) (events : List (Event Body)) : World Body Byte := events.foldl (step host) w

/-- Whenever a run has the archive ready, it is whole, and it stays ready until it expires. -/
def ReadyIsWhole (w : World Body Byte) (events : List (Event Body)) : Prop :=
  ∀ older newer archive, events = older ++ newer → (w.run host older).archive = some archive →
    archive.status = .ready →
    IsWhole host (w.run host older) archive ∧
      ((w.run host events).now < archive.expiresAt → (w.run host events).isReady = true)

end Wholeness

end Staaash.Archives
