import Staaash.Library.Runs
import Staaash.Uploads.Calls

/-!
# The chunks of a file

What the desktop client sends of a file, what the server takes for a chunk, and when it has all of
them.
-/

namespace Staaash.Uploads

open Staaash.Library

/-! ## The client -/

/-- `for (let start = 0; start < input.size; start += chunkSize)`, at most `rounds` times. -/
def startsFrom (size chunkSize : Nat) : Nat → Nat → List Nat
  | 0, _ => []
  | rounds + 1, start =>
    if start < size then start :: startsFrom size chunkSize rounds (start + chunkSize) else []

/-- The range of the request that `uploadChunk` makes for the `length` bytes from `start`. -/
def uploadChunk (start length : Nat) : UploadByteRange := ⟨start, start + length - 1⟩

/-- What `sendFile` sends: all the chunks but those that the session has done. -/
def sendFileRanges (size : Nat) (chunkSizeBytes : Option Nat) (done : List Nat) :
    List UploadByteRange :=
  let chunkSize := chunkSizeBytes.getD size
  ((startsFrom size chunkSize size 0).filter (· ∉ done)).map fun start =>
    uploadChunk start (min chunkSize (size - start))

/-! ## The chunks of a session -/

/-- The chunk is what the server records of some range. -/
def CompletedUploadChunk.Accepted (chunk : CompletedUploadChunk)
    (totalSizeBytes chunkSizeBytes : Nat) : Prop :=
  ∃ range, getUploadChunkIndex range totalSizeBytes chunkSizeBytes = some chunk.chunkIndex ∧
    chunk = range.chunk chunk.chunkIndex

/-- The byte is in the chunk. -/
def CompletedUploadChunk.has (chunk : CompletedUploadChunk) (byte : Nat) : Prop :=
  chunk.startByte ≤ byte ∧ byte ≤ chunk.endByte

/-- The chunks are accepted and disjoint, and together they are the whole file. -/
structure Tiles (chunks : List CompletedUploadChunk) (totalSizeBytes chunkSizeBytes : Nat) :
    Prop where
  accepted : ∀ chunk ∈ chunks, chunk.Accepted totalSizeBytes chunkSizeBytes
  disjoint : chunks.Pairwise fun a b => ∀ byte, ¬(a.has byte ∧ b.has byte)
  whole : ∀ byte, byte < totalSizeBytes ↔ ∃ chunk ∈ chunks, chunk.has byte

/-- What a chunk has of the bytes of a file. -/
def CompletedUploadChunk.of {α : Type} (chunk : CompletedUploadChunk) (bytes : List α) : List α :=
  (bytes.drop chunk.startByte).take chunk.sizeBytes

/-- The bytes of a session that is still open are those of its chunks. -/
structure Counted (session : UploadSession) : Prop where
  received : session.terminal = false →
    session.receivedBytes = (session.completedChunks.map (·.sizeBytes)).sum
  nodup : (session.completedChunks.map (·.chunkIndex)).Nodup
  complete : session.status = .committing ∨ session.status = .completed →
    session.receivedBytes = session.totalSizeBytes

/-- A statement of a request with a chunk, or no statement of a request at all. -/
def Statement.ofChunk : Statement → Bool
  | .pass _ | .stop _ | .read (.chunk _) | .lockChunk _ _ | .writeChunk _ _ | .recordChunk _ _
  | .writeLegacy _ | .recordLegacy _ => true
  | _ => false

/-- The statement records the chunk. -/
def Upload.records (chunkIndex : Nat) (u : Upload) (s : Statement) : Bool :=
  match s with
  | .recordChunk chunk _ => chunk.chunkIndex = chunkIndex && (u.act s).isSome
  | _ => false

/-- How often a run records the chunk. -/
def recordings (chunkIndex : Nat) (sessionId : String) (statements : List Statement) : Nat :=
  tally Upload.step (Upload.records chunkIndex) (fun _ _ => false) (Upload.empty sessionId) 0
    statements

/-- A file of a size is sent, accepted, counted and assembled in chunks of a size. -/
structure CoversFile (totalSizeBytes chunkSizeBytes : Nat) : Prop where
  /-- The client sends exactly the ranges that the server takes, except those that are done. -/
  sent : ∀ done range, range ∈ sendFileRanges totalSizeBytes (some chunkSizeBytes) done ↔
    (getUploadChunkIndex range totalSizeBytes chunkSizeBytes).isSome ∧ range.start ∉ done
  distinct : ∀ range range' chunkIndex,
    getUploadChunkIndex range totalSizeBytes chunkSizeBytes = some chunkIndex →
    getUploadChunkIndex range' totalSizeBytes chunkSizeBytes = some chunkIndex → range = range'
  complete : ∀ chunks : List CompletedUploadChunk,
    chunks.Pairwise (fun a b => a.chunkIndex ≤ b.chunkIndex) →
    (hasCompleteUploadChunkSet chunks totalSizeBytes chunkSizeBytes = true ↔
      Tiles chunks totalSizeBytes chunkSizeBytes)
  assembled : ∀ (chunks : List CompletedUploadChunk) (α : Type) (bytes : List α),
    hasCompleteUploadChunkSet chunks totalSizeBytes chunkSizeBytes = true →
    bytes.length = totalSizeBytes → chunks.flatMap (·.of bytes) = bytes
  counted : ∀ sessionId statements session,
    ((Upload.empty sessionId).run statements).session = some session →
    session.totalSizeBytes = totalSizeBytes → session.parallel = some chunkSizeBytes →
    Counted session
  once : ∀ sessionId statements chunkIndex, recordings chunkIndex sessionId statements ≤ 1
  /-- Requests with chunks leave a session open. -/
  stays : ∀ (u : Upload) (s : Statement) (session : UploadSession), s.ofChunk = true →
    u.session = some session → session.terminal = false →
    ∃ session', (u.step s).session = some session' ∧ session'.terminal = false

end Staaash.Uploads
