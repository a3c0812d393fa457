import Staaash.Journal.Docket
import Staaash.Library.Runs
import Staaash.Uploads.Session

/-!
# One upload session and everyone who works on it

Requests, the cleanup job and the executors of the commit work on one session, its staging file and
its mutation, each as slow as it likes between two statements. A statement is one transaction or one
call of the file system, and a call may stop before any of its statements. One clock serves them all.
The id of the mutation is made from the id of the session, so there is one mutation at most, and the
path of the staging file belongs to this session alone. A chunk holds the session's advisory lock while
it is written and recorded; what takes the lock for itself waits for it.
-/

namespace Staaash.Uploads

open Staaash.Journal (Docket Holding)
open Staaash.Library

/-- What of the staging file is looked at. Its bytes only show in the checksum that a reader finds. -/
structure StagedFile where
  sizeBytes : Nat
  modifiedAt : Nat
deriving DecidableEq, Repr

/-- What a call that is under way does next. -/
inductive Call
  | allocating (now : Nat)
  | activating (now : Nat)
  | sending (chunk : CompletedUploadChunk) (now : Nat)
  | writing (chunk : CompletedUploadChunk) (now : Nat)
  | recording (chunk : CompletedUploadChunk) (now : Nat)
  | sendingLegacy (range : UploadByteRange)
  | progressing (receivedBytes : Nat)
  | completing (expectedChecksum : Option String)
  | verifying (expectedChecksum : Option String)
  | committing
  | executing
  | restoring
  | ending (status : SessionStatus)
  | cleaning
  | marking
  | recovering (now : Nat)
  | expiring (now : Nat)
  | dropping
  | sweeping (now ttlMs : Nat)
deriving DecidableEq, Repr

/-- The mutation that commits the upload, and the file its metadata operations write. -/
structure Commit where
  docket : Docket
  fileId : String
deriving DecidableEq

/-- It has neither committed its metadata nor been aborted. -/
def Commit.undecided (c : Commit) : Bool :=
  c.docket.row.metadataCommittedAt = none && c.docket.row.status ≠ .aborted

structure Upload where
  sessionId : String
  clock : Nat
  reserved : Bool
  session : Option UploadSession
  staged : Option StagedFile
  /-- The staging file after a step of the mutation has renamed it. -/
  taken : Option StagedFile
  commit : Option Commit
  /-- The file that the metadata commit wrote. -/
  committed : Option String
  calls : List Call
deriving DecidableEq

def Upload.empty (sessionId : String) : Upload where
  sessionId
  clock := 0
  reserved := false
  session := none
  staged := none
  taken := none
  commit := none
  committed := none
  calls := []

/-- `resumable-${uploadSessionId}` -/
def Upload.mutationId (u : Upload) : String := "resumable-" ++ u.sessionId

/-- The session is linked to a mutation that has neither committed nor been aborted. -/
def Upload.bound (u : Upload) : Bool := u.commit.any Commit.undecided

/-- The advisory lock of the session is held by a chunk. -/
def Upload.chunkLocked (u : Upload) : Bool :=
  u.calls.any fun
    | .writing _ _ => true
    | .recording _ _ => true
    | _ => false

/-! ## Statements -/

/-- What a request asks for. -/
inductive Request
  | chunk (range : UploadByteRange)
  | complete (expectedChecksum : Option String)
  | cancel
deriving DecidableEq, Repr

/-- What a phase of the cleanup job looks for. -/
inductive Finding
  | staleCommitting
  | staleActive
  | unreleased
  | retained
  | unprotected (retentionHours : Nat)
deriving DecidableEq, Repr

inductive Statement
  | pass (ms : Nat)
  | stop (c : Call)
  | reserve (new : NewSession)
  | allocate (now : Nat) (succeeds : Bool)
  | activate (now : Nat)
  | read (request : Request)
  | lockChunk (chunk : CompletedUploadChunk) (now : Nat)
  | writeChunk (chunk : CompletedUploadChunk) (now : Nat)
  | recordChunk (chunk : CompletedUploadChunk) (now : Nat)
  | writeLegacy (range : UploadByteRange)
  | recordLegacy (receivedBytes : Nat)
  | beginCommit (expectedChecksum : Option String)
  /-- `none` is a staging file that cannot be read. -/
  | verify (expectedChecksum actualChecksum : Option String)
  | prepare (fileId : String)
  /-- The name or the revision was refused before the preparation. -/
  | reject
  /-- No room for the mutation, or it is found prepared by another call. -/
  | refuse
  /-- The execution failed, and the mutation is found as it was prepared. -/
  | interrupted
  | restore
  | finish (status : SessionStatus)
  | removeStaging
  | markReleased
  | find (finding : Finding) (now : Nat)
  | recoverStale (now : Nat)
  | expire (now : Nat)
  | dropRow
  | sweep (now ttlMs : Nat)
  | journal (s : Journal.Statement)
  | takeStaged (h : Holding)
  | putBack (h : Holding)
deriving DecidableEq, Repr

/-- The statement is one of the mutation's own. -/
def Statement.ofMutation : Statement → Bool
  | .journal _ | .takeStaged _ | .putBack _ => true
  | _ => false

/-! ## What the statements do -/

namespace Upload

variable (u : Upload)

/-- A call goes on to another statement. -/
def goOn (c next : Call) : Upload := { u with calls := next :: u.calls.erase c }

/-- A call ends. -/
def leave (c : Call) : Upload := { u with calls := u.calls.erase c }

/-- Updates the row, if it is there and in the state that the update asks for. -/
def update (f : UploadSession → Option UploadSession) : Option Upload :=
  (u.session.bind f).map fun session => { u with session := some session }

/-- The call that a request makes after it has found the session, if it goes on. -/
def requested (session : UploadSession) : Request → Option Call
  | .chunk range =>
    match session.parallel with
    | some chunkSizeBytes =>
      (getUploadChunkIndex range session.totalSizeBytes chunkSizeBytes).map fun chunkIndex =>
        .sending (range.chunk chunkIndex) u.clock
    | none =>
      if range.start ≤ range.end && range.end < session.totalSizeBytes &&
          range.start = session.receivedBytes then
        some (.sendingLegacy range)
      else none
  | .complete expectedChecksum =>
    if session.uploadIsComplete then
      some (.completing (session.resolveExpectedChecksum expectedChecksum))
    else none
  | .cancel => some (.ending .cancelled)

/-- No session that still has its staging file, and no mutation that may still need it. -/
def unprotected : Bool :=
  u.session.all (·.stagingReleasedAt.isSome) &&
    u.commit.all fun c => c.docket.row.status = .succeeded || c.docket.row.status = .aborted

/-- The call that a phase of the cleanup job makes after it has found the session. -/
def found (now : Nat) : Finding → Option Call
  | .staleCommitting =>
    if u.session.any fun session =>
        session.staleCommitting now && session.conflictStrategy ≠ .replace then
      some (.recovering now)
    else none
  | .staleActive => if u.session.any (·.staleActive now) then some (.expiring now) else none
  | .unreleased => if u.session.any (·.unreleased) then some .cleaning else none
  | .retained => if u.session.any (·.retained now) then some .dropping else none
  | .unprotected retentionHours =>
    if u.unprotected && 0 < retentionHours then
      some (.sweeping now (retentionHours * 60 * 60 * 1000))
    else none

/-- A parallel chunk is written into the file that is there. -/
def writeAt (chunk : CompletedUploadChunk) : Option StagedFile :=
  u.staged.map fun file => ⟨max file.sizeBytes (chunk.endByte + 1), u.clock⟩

/-- A chunk of the older protocol replaces the file or cuts it off before it is written. -/
def writeLegacy (range : UploadByteRange) : Option StagedFile :=
  if range.start = 0 || u.staged.isSome then some ⟨range.end + 1, u.clock⟩ else none

/-- What the transaction of a journal statement does to the session. -/
def inTransaction (fileId : String) : Journal.Statement → Option Upload
  | .byHolder _ .commit now =>
    (u.update fun session => session.complete now u.mutationId fileId).map fun u =>
      { u with committed := some fileId }
  | .byHolder _ .abort now =>
    if u.taken = none then
      some { u with session := u.session.map fun session => session.abort now u.mutationId }
    else none
  | _ => some u

/-- An executor of the mutation. -/
def heldBy (h : Holding) : Bool := u.commit.any fun c => decide (h ∈ c.docket.holdings)

/-- What a statement does, or nothing where it has no effect. -/
def act : Statement → Option Upload
  | .pass ms => some { u with clock := u.clock + ms }
  | .stop c => some (u.leave c)
  | .reserve new =>
    if u.reserved then none
    else some { u with
      reserved := true
      session := some (new.row u.clock)
      calls := .allocating u.clock :: u.calls }
  | .allocate now succeeds =>
    if .allocating now ∈ u.calls then
      if succeeds && u.staged.isNone then
        some { u.goOn (.allocating now) (.activating now) with staged := some ⟨0, u.clock⟩ }
      else some (u.goOn (.allocating now) (.ending .failed))
    else none
  | .activate now =>
    if .activating now ∈ u.calls then
      some (((u.leave (.activating now)).update fun session => session.activate now).getD
        (u.goOn (.activating now) (.ending .failed)))
    else none
  | .read request =>
    u.session.bind fun session =>
      if session.receivable u.clock then
        (u.requested session request).map fun c => { u with calls := c :: u.calls }
      else none
  | .lockChunk chunk now =>
    u.session.bind fun session =>
      if .sending chunk now ∈ u.calls && session.receivable now &&
          session.completedChunks.all (·.chunkIndex ≠ chunk.chunkIndex) then
        some (u.goOn (.sending chunk now) (.writing chunk now))
      else none
  | .writeChunk chunk now =>
    if .writing chunk now ∈ u.calls then
      (u.writeAt chunk).map fun file =>
        { u.goOn (.writing chunk now) (.recording chunk now) with staged := some file }
    else none
  | .recordChunk chunk now =>
    if .recording chunk now ∈ u.calls then
      (u.leave (.recording chunk now)).update fun session => session.recordChunk now chunk
    else none
  | .writeLegacy range =>
    if .sendingLegacy range ∈ u.calls then
      (u.writeLegacy range).map fun file =>
        { u.goOn (.sendingLegacy range) (.progressing (range.end + 1)) with staged := some file }
    else none
  | .recordLegacy receivedBytes =>
    if .progressing receivedBytes ∈ u.calls then
      (u.leave (.progressing receivedBytes)).update fun session =>
        session.updateProgress u.clock receivedBytes
    else none
  | .beginCommit expectedChecksum =>
    if .completing expectedChecksum ∈ u.calls && !u.chunkLocked then
      (u.goOn (.completing expectedChecksum) (.verifying expectedChecksum)).update fun session =>
        session.beginCommit u.clock expectedChecksum
    else none
  | .verify expectedChecksum actualChecksum =>
    if .verifying expectedChecksum ∈ u.calls then
      match expectedChecksum.filter (· ≠ "") with
      | none => some (u.goOn (.verifying expectedChecksum) .committing)
      | some expected =>
        match u.staged.bind fun _ => actualChecksum with
        | none => some (u.goOn (.verifying expectedChecksum) .restoring)
        | some actual =>
          some (u.goOn (.verifying expectedChecksum)
            (if actual = expected then .committing else .ending .failed))
    else none
  | .prepare fileId =>
    if .committing ∈ u.calls then
      match u.commit with
      | none =>
        ({ u.goOn .committing .executing with commit := some ⟨.prepared, fileId⟩ }).update
          fun session => session.link u.mutationId
      | some c =>
        if c.docket.row.status = .prepared then some (u.goOn .committing .executing) else none
    else none
  | .reject => if .committing ∈ u.calls then some (u.goOn .committing (.ending .failed)) else none
  | .refuse =>
    if .committing ∈ u.calls && u.commit.all (·.docket.row.status = .prepared) then
      some (u.goOn .committing .restoring)
    else none
  | .interrupted =>
    if .executing ∈ u.calls && u.commit.any (·.docket.row.status = .prepared) then
      some (u.goOn .executing .restoring)
    else none
  | .restore =>
    if .restoring ∈ u.calls then
      (u.leave .restoring).update fun session => session.restoreAfterRollback u.clock
    else none
  | .finish status =>
    if .ending status ∈ u.calls && !u.chunkLocked then
      let u' := u.goOn (.ending status) .cleaning
      some ((u'.update fun session => session.toTerminal u.clock status).getD u')
    else none
  | .removeStaging =>
    if .cleaning ∈ u.calls then some { u.goOn .cleaning .marking with staged := none } else none
  | .markReleased =>
    if .marking ∈ u.calls then
      (u.leave .marking).update fun session => session.markReleased u.clock
    else none
  | .find finding now =>
    if now ≤ u.clock then (u.found now finding).map fun c => { u with calls := c :: u.calls }
    else none
  | .recoverStale now =>
    if .recovering now ∈ u.calls && u.staged.isSome then
      (u.leave (.recovering now)).update fun session => session.recoverStale now
    else none
  | .expire now =>
    if .expiring now ∈ u.calls && !u.chunkLocked then
      (u.leave (.expiring now)).update fun session => session.expire now
    else none
  | .dropRow => if .dropping ∈ u.calls then some { u.leave .dropping with session := none } else none
  | .sweep now ttlMs =>
    if .sweeping now ttlMs ∈ u.calls && u.staged.any (·.modifiedAt + ttlMs ≤ now) then
      some { u.leave (.sweeping now ttlMs) with staged := none }
    else none
  | .journal s =>
    u.commit.bind fun c =>
      if (c.docket.act s).isSome then
        (u.inTransaction c.fileId s).map fun u =>
          { u with commit := some { c with docket := c.docket.step s } }
      else none
  | .takeStaged h =>
    if u.heldBy h && u.staged.isSome && u.taken.isNone then
      some { u with staged := none, taken := u.staged }
    else none
  | .putBack h =>
    if u.heldBy h && u.taken.isSome && u.staged.isNone then
      some { u with staged := u.taken, taken := none }
    else none

def step (s : Statement) : Upload := (u.act s).getD u

def run (statements : List Statement) : Upload := statements.foldl step u

end Upload

/-! ## A commit belongs to its mutation -/

/-- What ends a session or puts it back, and what writes to its staging file by the older protocol,
comes while the session is not linked to a mutation that is still undecided. -/
def ChecksInTime (u : Upload) : Statement → Prop
  | .finish _ | .restore | .writeLegacy _ => u.bound = false
  | _ => True

instance (u : Upload) (s : Statement) : Decidable (ChecksInTime u s) := by
  unfold ChecksInTime
  split <;> infer_instance

/-- What holds of a state, and of the statement that comes next. -/
structure CommitBelongs (u : Upload) (s : Statement) : Prop where
  committing : u.bound = true → ∃ session, u.session = some session ∧
    session.status = .committing ∧ session.storageMutationId = some u.mutationId
  /-- No other operation changes the row or the staging file. -/
  untouched : u.bound = true → s.ofMutation = false →
    (u.step s).session = u.session ∧ ∀ file, u.staged = some file → (u.step s).staged = some file
  completed : ∀ session, u.session = some session → session.status = .completed →
    ∃ fileId, session.committedFileId = some fileId ∧ u.committed = some fileId
  uncommitted : ∀ session, u.session = some session →
    session.status ∈ [.cancelled, .failed, .expired] →
    session.committedFileId = none ∧ u.committed = none

end Staaash.Uploads
