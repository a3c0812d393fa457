import Mathlib.Data.List.Basic
import Mathlib.Algebra.Ring.Nat

/-!
# Upload sessions

The row of an upload session and the guarded updates of `session-service.ts`, `staging-cleanup.ts`
and `storage-mutations.ts` on it. An update is atomic; it gives the new row, or nothing where the row
does not match. The names and the folder of the file to be are left out, as are the columns that only
count cleanup attempts: no check reads them. Times are in milliseconds.
-/

namespace Staaash.Uploads

inductive SessionStatus
  | allocating
  | created
  | receiving
  | committing
  | completed
  | failed
  | cancelled
  | expired
deriving DecidableEq, Repr

def receivableUploadSessionStatuses : List SessionStatus := [.created, .receiving]

def activeUploadSessionStatuses : List SessionStatus := [.allocating, .created, .receiving]

def terminalUploadSessionStatuses : List SessionStatus := [.completed, .failed, .cancelled, .expired]

def uploadSessionTtlMs : Nat := 24 * 60 * 60 * 1000

def uploadAllocationLeaseMs : Nat := 10 * 60 * 1000

def uploadTerminalRetentionMs : Nat := 24 * 60 * 60 * 1000

inductive ConflictStrategy
  | fail
  | safeRename
  | replace
deriving DecidableEq, Repr

structure CompletedUploadChunk where
  chunkIndex : Nat
  startByte : Nat
  endByte : Nat
  sizeBytes : Nat
deriving DecidableEq, Repr

/-- A row of the `UploadSession` table, with its chunks in the order of their indices. -/
structure UploadSession where
  totalSizeBytes : Nat
  receivedBytes : Nat
  expectedChecksum : Option String
  protocolVersion : Nat
  chunkSizeBytes : Option Nat
  conflictStrategy : ConflictStrategy
  status : SessionStatus
  expiresAt : Nat
  terminalAt : Option Nat
  stagingReleasedAt : Option Nat
  committedFileId : Option String
  storageMutationId : Option String
  completedChunks : List CompletedUploadChunk
deriving DecidableEq, Repr

/-- What `createResumableSession` is called with. -/
structure NewSession where
  totalSizeBytes : Nat
  expectedChecksum : Option String
  protocolVersion : Nat
  chunkSizeBytes : Option Nat
  conflictStrategy : ConflictStrategy
deriving DecidableEq, Repr

/-! ## Chunks -/

structure UploadByteRange where
  start : Nat
  «end» : Nat
deriving DecidableEq, Repr

/-- The last byte of the chunk that starts at `start`. -/
def expectedEnd (start totalSizeBytes chunkSizeBytes : Nat) : Nat :=
  min (start + chunkSizeBytes) totalSizeBytes - 1

def getUploadChunkIndex (range : UploadByteRange) (totalSizeBytes chunkSizeBytes : Nat) :
    Option Nat :=
  if range.start ≤ range.end && range.end < totalSizeBytes && range.start % chunkSizeBytes = 0 &&
      range.end = expectedEnd range.start totalSizeBytes chunkSizeBytes then
    some (range.start / chunkSizeBytes)
  else none

/-- The chunk that a range is recorded as. -/
def UploadByteRange.chunk (range : UploadByteRange) (chunkIndex : Nat) : CompletedUploadChunk where
  chunkIndex
  startByte := range.start
  endByte := range.end
  sizeBytes := range.end - range.start + 1

def getExpectedUploadChunkCount (totalSizeBytes chunkSizeBytes : Nat) : Nat :=
  (totalSizeBytes + chunkSizeBytes - 1) / chunkSizeBytes

def hasCompleteUploadChunkSet (completedChunks : List CompletedUploadChunk)
    (totalSizeBytes chunkSizeBytes : Nat) : Bool :=
  completedChunks.length = getExpectedUploadChunkCount totalSizeBytes chunkSizeBytes &&
    completedChunks.zipIdx.all fun (chunk, chunkIndex) =>
      let startByte := chunkIndex * chunkSizeBytes
      let endByte := expectedEnd startByte totalSizeBytes chunkSizeBytes
      chunk.chunkIndex = chunkIndex && chunk.startByte = startByte && chunk.endByte = endByte &&
        chunk.sizeBytes = endByte - startByte + 1

def insertChunk (chunk : CompletedUploadChunk) (chunks : List CompletedUploadChunk) :
    List CompletedUploadChunk :=
  chunks.takeWhile (·.chunkIndex < chunk.chunkIndex) ++
    chunk :: chunks.dropWhile (·.chunkIndex < chunk.chunkIndex)

/-! ## What the checks read -/

namespace UploadSession

variable (session : UploadSession) (now : Nat)

def terminal : Bool := session.status ∈ terminalUploadSessionStatuses

def receivable : Bool := session.status ∈ receivableUploadSessionStatuses && now < session.expiresAt

/-- Chunks of the current protocol are written in parallel and recorded one by one. -/
def parallel : Option Nat := if 2 ≤ session.protocolVersion then session.chunkSizeBytes else none

def uploadIsComplete : Bool :=
  session.receivedBytes = session.totalSizeBytes &&
    match session.parallel with
    | none => true
    | some chunkSizeBytes =>
      hasCompleteUploadChunkSet session.completedChunks session.totalSizeBytes chunkSizeBytes

/-- The checksum that a completion verifies. -/
def resolveExpectedChecksum (expectedChecksum : Option String) : Option String :=
  if session.protocolVersion < 2 then session.expectedChecksum else expectedChecksum

/-- What `recoverStaleCommittingSessions` looks for, and looks for again when it updates. -/
def staleCommitting : Bool :=
  session.status = .committing && session.expiresAt ≤ now && session.stagingReleasedAt = none &&
    session.committedFileId = none && session.storageMutationId = none

/-- What `expireStaleSessions` looks for, and looks for again when it updates. -/
def staleActive : Bool := session.status ∈ activeUploadSessionStatuses && session.expiresAt ≤ now

/-- What `releaseTerminalStaging` looks for. -/
def unreleased : Bool := session.terminal && session.stagingReleasedAt = none

/-- What `deleteRetainedTerminalSessions` looks for. -/
def retained : Bool :=
  session.terminal && session.stagingReleasedAt.isSome &&
    session.terminalAt.any fun terminalAt => terminalAt + uploadTerminalRetentionMs ≤ now

/-! ## The updates -/

/-- `recordWrittenUploadChunk`. -/
def recordChunk (chunk : CompletedUploadChunk) : Option UploadSession :=
  if session.receivable now && session.completedChunks.all (·.chunkIndex ≠ chunk.chunkIndex) then
    some { session with
      receivedBytes := session.receivedBytes + chunk.sizeBytes
      status := .receiving
      completedChunks := insertChunk chunk session.completedChunks }
  else none

/-- `updateSessionProgress`. -/
def updateProgress (receivedBytes : Nat) : Option UploadSession :=
  if session.receivable now then some { session with receivedBytes, status := .receiving } else none

/-- `activateResumableSession`. -/
def activate : Option UploadSession :=
  if session.status = .allocating then
    some { session with status := .created, expiresAt := now + uploadSessionTtlMs }
  else none

/-- `beginSessionCommit`. -/
def beginCommit (expectedChecksum : Option String) : Option UploadSession :=
  if session.receivable now then
    some { session with
      status := .committing
      expectedChecksum
      expiresAt := now + uploadSessionTtlMs }
  else none

/-- `restoreResumableSessionAfterCommitRollback`. -/
def restoreAfterRollback : Option UploadSession :=
  if session.status = .committing && session.stagingReleasedAt = none &&
      session.committedFileId = none then
    some { session with status := .receiving, expiresAt := now + uploadSessionTtlMs }
  else none

/-- `transitionResumableSessionToTerminal`, for a failure or a cancellation. -/
def toTerminal (status : SessionStatus) : Option UploadSession :=
  if session.terminal then none
  else some { session with status, terminalAt := some now, completedChunks := [] }

/-- `markResumableStagingReleased`. -/
def markReleased : Option UploadSession :=
  if session.stagingReleasedAt = none then some { session with stagingReleasedAt := some now }
  else none

/-- The update of `recoverStaleCommittingSessions`. -/
def recoverStale : Option UploadSession :=
  if session.staleCommitting now then
    some { session with status := .receiving, expiresAt := now + uploadSessionTtlMs }
  else none

/-- The update of `expireStaleSessions`. -/
def expire : Option UploadSession :=
  if session.staleActive now then
    some { session with status := .expired, terminalAt := some now, completedChunks := [] }
  else none

/-- `linkPreparedUploadSession`. -/
def link (mutationId : String) : Option UploadSession :=
  if session.status = .committing && session.storageMutationId = none then
    some { session with storageMutationId := some mutationId }
  else none

/-- The metadata operation `complete_upload_session`. -/
def complete (mutationId fileId : String) : Option UploadSession :=
  if session.status = .committing && session.stagingReleasedAt = none &&
      session.storageMutationId = some mutationId then
    some { session with
      status := .completed
      terminalAt := some now
      stagingReleasedAt := some now
      committedFileId := some fileId
      completedChunks := [] }
  else none

/-- What `abortStorageMutation` does to the sessions of the mutation. -/
def abort (mutationId : String) : UploadSession :=
  if session.storageMutationId = some mutationId then
    { session with status := .failed, terminalAt := some now, storageMutationId := none }
  else session

end UploadSession

/-- The row that `reserveResumableSession` inserts. -/
def NewSession.row (new : NewSession) (now : Nat) : UploadSession where
  totalSizeBytes := new.totalSizeBytes
  receivedBytes := 0
  expectedChecksum := new.expectedChecksum
  protocolVersion := new.protocolVersion
  chunkSizeBytes := new.chunkSizeBytes
  conflictStrategy := new.conflictStrategy
  status := .allocating
  expiresAt := now + uploadAllocationLeaseMs
  terminalAt := none
  stagingReleasedAt := none
  committedFileId := none
  storageMutationId := none
  completedChunks := []

end Staaash.Uploads
