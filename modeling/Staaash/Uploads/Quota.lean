import Staaash.Journal.Docket
import Staaash.Library.OrderedSums
import Staaash.Library.Runs
import Staaash.Uploads.Session

/-!
# The quota of an owner

The three ledgers that count against an owner's storage limit: the committed bytes, which triggers keep
beside the rows of `File`, the sizes of the open upload sessions, and the reservations of direct uploads
in the journal. A statement is one transaction, and brings the time at which its call or its transaction
began where the code uses that one. What admission checks besides the quota (sizes, counts, staging and
disk space, also of other owners) is an input.
-/

namespace Staaash.Uploads

open Staaash.Journal (Docket)
open Staaash.Library

/-- A row of the `File` table. Files in the trash count as well. -/
structure StoredFile where
  sizeBytes : Nat
  storageRevision : Nat
deriving DecidableEq, Repr

/-- A file that an upload has found under its name, and is going to replace. -/
structure FoundFile where
  fileId : String
  storageRevision : Nat
  sizeBytes : Nat
deriving DecidableEq, Repr

/-- A mutation that commits an upload: a direct one, or that of a session. -/
structure UploadMutation where
  docket : Docket
  fileId : String
  sizeBytes : Nat
  replaces : Option FoundFile
  sessionId : Option String
  reservedBytes : Option Nat
deriving DecidableEq

/-- The size that the new file takes the place of. -/
def UploadMutation.replacedBytes (m : UploadMutation) : Nat := (m.replaces.map (·.sizeBytes)).getD 0

structure Account where
  clock : Nat
  storageLimitBytes : Option Nat
  /-- `none` quarantines the account. -/
  committedStorageBytes : Option Nat
  files : OrderedMap String StoredFile
  /-- Ids are not given twice. -/
  fileIds : List String
  sessions : OrderedMap String UploadSession
  mutations : OrderedMap String UploadMutation
  found : List FoundFile
deriving DecidableEq

def Account.empty : Account where
  clock := 0
  storageLimitBytes := none
  committedStorageBytes := some 0
  files := .empty
  fileIds := []
  sessions := .empty
  mutations := .empty
  found := []

/-! ## The sum and its check -/

/-- What a session holds of the quota. -/
def UploadSession.held (session : UploadSession) (now : Nat) : Nat :=
  if session.status ∈ activeUploadSessionStatuses && now < session.expiresAt ||
      session.status = .committing then
    session.totalSizeBytes
  else 0

def UploadMutation.held (m : UploadMutation) : Nat := m.reservedBytes.getD 0

namespace Account

variable (a : Account)

def reservedAt (now : Nat) : Nat :=
  a.sessions.sum (·.held now) + a.mutations.sum UploadMutation.held

/-- What counts against the limit. -/
def used : Nat := a.committedStorageBytes.getD 0 + a.reservedAt a.clock

/-- `hasEnforcedStorageLimit`. -/
def enforcedLimit : Option Nat := a.storageLimitBytes.filter (0 < ·)

/-- `assertUserQuotaCapacity` and `assertOwnerQuotaAvailable`: new bytes that take the place of old
ones fit beside what counts at a time. A quarantined account has no room. -/
def roomFor (now newBytes oldBytes : Nat) : Bool :=
  a.committedStorageBytes.any fun committed =>
    a.enforcedLimit.all fun limit => committed + a.reservedAt now + newBytes ≤ limit + oldBytes

/-! ## The triggers on `File` -/

/-- `staaash_add_file_storage_usage`, `staaash_update_file_storage_usage` and
`staaash_remove_file_storage_usage`: a statement adds its new sizes and takes its old ones away. -/
def addUsage (newBytes oldBytes : Nat) : Option Account :=
  a.committedStorageBytes.bind fun committed =>
    if oldBytes ≤ committed + newBytes then
      some { a with committedStorageBytes := some (committed + newBytes - oldBytes) }
    else none

/-- The metadata operation that creates the file or updates the one it replaces. -/
def writeFile (m : UploadMutation) : Option Account :=
  match m.replaces with
  | none =>
    if m.fileId ∈ a.fileIds then none
    else ({ a with
      files := a.files.set m.fileId ⟨m.sizeBytes, 0⟩
      fileIds := m.fileId :: a.fileIds }).addUsage m.sizeBytes 0
  | some found =>
    (a.files.get m.fileId).bind fun file =>
      if file.storageRevision = found.storageRevision then
        ({ a with files := a.files.set m.fileId ⟨m.sizeBytes, file.storageRevision + 1⟩ }).addUsage
          m.sizeBytes file.sizeBytes
      else none

end Account

/-! ## Statements -/

/-- An update of a session that is already there, with the time its call began where it uses that. -/
inductive SessionCall
  | activate (now : Nat)
  | recordChunk (chunk : CompletedUploadChunk) (now : Nat)
  | updateProgress (receivedBytes : Nat)
  | beginCommit (expectedChecksum : Option String) (now : Nat)
  | restore
  | fail
  | cancel
  | markReleased
  | recoverStale (now : Nat)
  | expire (now : Nat)
deriving DecidableEq, Repr

def SessionCall.update (call : SessionCall) (session : UploadSession) (clock : Nat) :
    Option UploadSession :=
  match call with
  | .activate now => if now ≤ clock then session.activate now else none
  | .recordChunk chunk now => if now ≤ clock then session.recordChunk now chunk else none
  | .updateProgress receivedBytes => session.updateProgress clock receivedBytes
  | .beginCommit expectedChecksum now =>
    if now ≤ clock then session.beginCommit now expectedChecksum else none
  | .restore => session.restoreAfterRollback clock
  | .fail => session.toTerminal clock .failed
  | .cancel => session.toTerminal clock .cancelled
  | .markReleased => session.markReleased clock
  | .recoverStale now => if now ≤ clock then session.recoverStale now else none
  | .expire now => if now ≤ clock then session.expire now else none

inductive QuotaStatement
  | pass (ms : Nat)
  | setLimit (storageLimitBytes : Option Nat)
  | reserve (sessionId : String) (new : NewSession) (startedAt now : Nat) (admits : Bool)
  | session (sessionId : String) (call : SessionCall)
  | dropSession (sessionId : String)
  | findFile (fileId : String)
  | prepareDirect (mutationId fileId : String) (sizeBytes : Nat) (replaces : Option FoundFile)
  | prepareResumable (sessionId fileId : String) (replaces : Option FoundFile)
  | journal (mutationId : String) (s : Journal.Statement)
  /-- A rename, a move, a trash or a restore. -/
  | reviseFile (fileId : String)
  | deleteFiles (fileIds : List String)
  | audit
deriving DecidableEq, Repr

/-- It only gives space back, or changes no sum at all. -/
def QuotaStatement.frees : QuotaStatement → Bool
  | .pass _ | .session _ _ | .dropSession _ | .reviseFile _ | .deleteFiles _ => true
  | .journal _ (.byHolder _ .abort _) => true
  | _ => false

/-- The transaction is the metadata commit or the abort of the mutation. -/
def decides : Journal.Statement → Bool
  | .byHolder _ .commit _ | .byHolder _ .abort _ => true
  | _ => false

/-- The row of the mutation after the statement. -/
def UploadMutation.after (m : UploadMutation) (s : Journal.Statement) : UploadMutation :=
  { m with
    docket := m.docket.step s
    reservedBytes := if decides s then none else m.reservedBytes }

namespace Account

variable (a : Account)

/-- `validatePreparedEntityRevisions`: the file is as it was found, or there is none yet. -/
def asFound (fileId : String) : Option FoundFile → Bool
  | none => !a.files.has fileId
  | some found => found ∈ a.found && found.fileId = fileId &&
    (a.files.get fileId).any fun file => file.storageRevision = found.storageRevision

/-- The rest of the transaction, after the row of the mutation. -/
def callback (mutationId : String) (m : UploadMutation) : Journal.Statement → Option Account
  | .byHolder _ .commit now =>
    match m.sessionId with
    | none =>
      if a.roomFor a.clock m.sizeBytes m.replacedBytes then a.writeFile m else none
    | some sessionId =>
      (a.writeFile m).bind fun a =>
        ((a.sessions.get sessionId).bind fun session =>
          session.complete now mutationId m.fileId).map fun session =>
            { a with sessions := a.sessions.set sessionId session }
  | .byHolder _ .abort now =>
    match m.sessionId.bind fun sessionId => (a.sessions.get sessionId).map (sessionId, ·) with
    | none => some a
    | some (sessionId, session) =>
      some { a with sessions := a.sessions.set sessionId (session.abort now mutationId) }
  | _ => some a

/-- What a statement does, or nothing where it has no effect. -/
def act : QuotaStatement → Option Account
  | .pass ms => some { a with clock := a.clock + ms }
  | .setLimit storageLimitBytes => some { a with storageLimitBytes }
  | .reserve sessionId new startedAt now admits =>
    if startedAt ≤ a.clock && now ≤ a.clock && admits && !a.sessions.has sessionId &&
        a.roomFor startedAt new.totalSizeBytes 0 then
      some { a with sessions := a.sessions.set sessionId (new.row now) }
    else none
  | .session sessionId call =>
    ((a.sessions.get sessionId).bind fun session => call.update session a.clock).map fun session =>
      { a with sessions := a.sessions.set sessionId session }
  | .dropSession sessionId =>
    if (a.sessions.get sessionId).any (·.retained a.clock) then
      some { a with sessions := a.sessions.filterKeys (· ≠ sessionId) }
    else none
  | .findFile fileId =>
    (a.files.get fileId).map fun file =>
      { a with found := ⟨fileId, file.storageRevision, file.sizeBytes⟩ :: a.found }
  | .prepareDirect mutationId fileId sizeBytes replaces =>
    let m : UploadMutation := ⟨.prepared, fileId, sizeBytes, replaces, none, none⟩
    let reservedBytes := sizeBytes - m.replacedBytes
    if (reservedBytes = 0 || a.roomFor a.clock reservedBytes 0) && !a.mutations.has mutationId &&
        a.asFound fileId replaces then
      some { a with
        mutations := a.mutations.set mutationId { m with reservedBytes := some reservedBytes } }
    else none
  | .prepareResumable sessionId fileId replaces =>
    let mutationId := "resumable-" ++ sessionId
    (a.sessions.get sessionId).bind fun session =>
      if !a.mutations.has mutationId && a.asFound fileId replaces then
        (session.link mutationId).map fun linked =>
          { a with
            sessions := a.sessions.set sessionId linked
            mutations := a.mutations.set mutationId
              ⟨.prepared, fileId, session.totalSizeBytes, replaces, some sessionId, none⟩ }
      else none
  | .journal mutationId s =>
    (a.mutations.get mutationId).bind fun m =>
      if (m.docket.act s).isSome then
        ({ a with mutations := a.mutations.set mutationId (m.after s) }).callback mutationId m s
      else none
  | .reviseFile fileId =>
    (a.files.get fileId).map fun file =>
      { a with files := a.files.set fileId { file with storageRevision := file.storageRevision + 1 } }
  | .deleteFiles fileIds =>
    ({ a with files := a.files.filterKeys (· ∉ fileIds) }).addUsage 0
      ((a.files.filterKeys (· ∈ fileIds)).sum (·.sizeBytes))
  | .audit =>
    if a.committedStorageBytes = some (a.files.sum (·.sizeBytes)) then none
    else some { a with committedStorageBytes := none }

def step (s : QuotaStatement) : Account := (a.act s).getD a

def run (statements : List QuotaStatement) : Account := statements.foldl step a

end Account

/-! ## Safety -/

/-- A session that is activated, or whose commit begins, has not expired by then. -/
def LeasesInTime (a : Account) : QuotaStatement → Prop
  | .session sessionId (.activate _) =>
    ∀ session, a.sessions.get sessionId = some session → session.status = .allocating →
      a.clock < session.expiresAt
  | .session sessionId (.beginCommit _ now) =>
    ∀ session, a.sessions.get sessionId = some session → session.receivable now = true →
      a.clock < session.expiresAt
  | _ => True

instance (a : Account) (s : QuotaStatement) : Decidable (LeasesInTime a s) := by
  unfold LeasesInTime
  split <;> infer_instance

structure QuotaSafe (a : Account) (s : QuotaStatement) : Prop where
  within : a.used < (a.step s).used → ∀ limit, (a.step s).enforcedLimit = some limit →
    (a.step s).used ≤ limit
  /-- What only frees space does not ask for the limit. -/
  freeing : s.frees = true → ∀ storageLimitBytes,
    ({ a with storageLimitBytes } : Account).act s =
      (a.act s).map fun a' => { a' with storageLimitBytes }
  total : a.committedStorageBytes = some (a.files.sum (·.sizeBytes))

end Staaash.Uploads
