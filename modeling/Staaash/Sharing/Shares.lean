import Staaash.Sharing.Files

/-!
# Links

The `ShareLink` table, the tokens and the cookies that open a link, and what the owner of a link can do
with it. A call is one step: it reads and writes between two steps of anyone else.
-/

namespace Staaash.Sharing

open Staaash.Library
open Staaash.Planner (ItemType)

/-! ## Secrets -/

/-- Base64url text, of which the formats use that it has neither of their separators. -/
structure Base64url where
  text : String
  plain : ∀ c ∈ text.toList, c ≠ ':' ∧ c ≠ '.'
deriving DecidableEq

structure ShareCookiePayload where
  shareId : String
  tokenLookupKey : String
  accessFingerprint : String
deriving DecidableEq, Repr

/-- What the code uses of `node:crypto`, of JSON and of base64url. The key of `hmac` is the secret. -/
structure Runtime where
  secret : String
  sha256 : String → Base64url
  hmac : String → Base64url
  scrypt : (password salt : String) → Base64url
  serializePayload : ShareCookiePayload → Base64url
  deserializePayload : String → Option ShareCookiePayload

namespace Runtime

variable (rt : Runtime)

def signShareLookupKey (tokenLookupKey : String) : Base64url :=
  rt.sha256 (rt.secret ++ ":share-token:" ++ tokenLookupKey)

def buildShareToken (tokenLookupKey : Base64url) : String :=
  tokenLookupKey.text ++ "." ++ (rt.signShareLookupKey tokenLookupKey.text).text

def hashOpaqueToken (token : String) : Base64url := rt.sha256 (rt.secret ++ ":" ++ token)

def hashPassword (password : String) (salt : Base64url) : String :=
  "s1:" ++ salt.text ++ ":" ++ (rt.scrypt password salt.text).text

def verifyPassword (password passwordHash : String) : Bool :=
  match passwordHash.toList.splitOn ':' with
  | version :: salt :: expectedHash :: _ =>
    version = "s1".toList && salt ≠ [] && expectedHash ≠ [] &&
      (rt.scrypt password (String.ofList salt)).text.toList = expectedHash
  | _ => false

def signValue (value : String) : Base64url := rt.hmac (":share-access:" ++ value)

def buildShareAccessFingerprint (shareId tokenLookupKey passwordHash : String) : Base64url :=
  rt.hmac (":share-access-fingerprint:" ++ shareId ++ ":" ++ tokenLookupKey ++ ":" ++ passwordHash)

/-- The value of `buildShareAccessCookie`. -/
def cookieValue (payload : ShareCookiePayload) : String :=
  (rt.serializePayload payload).text ++ "." ++ (rt.signValue (rt.serializePayload payload).text).text

end Runtime

/-- The text up to `lastIndexOf(".")`, and after it. -/
def cutAtLastDot (value : List Char) : Option (List Char × List Char) :=
  match value.reverse.span (· ≠ '.') with
  | (_, []) => none
  | (after, _ :: upTo) => some (upTo.reverse, after.reverse)

def Runtime.verifyShareAccessCookie (rt : Runtime) (cookieValue : Option String)
    (shareId tokenLookupKey passwordHash : String) : Bool :=
  (cookieValue.bind fun value => cutAtLastDot value.toList).any fun (payloadValue, signature) =>
    payloadValue ≠ [] && (rt.signValue (String.ofList payloadValue)).text.toList = signature &&
      (rt.deserializePayload (String.ofList payloadValue)).any fun payload =>
        payload.shareId = shareId && payload.tokenLookupKey = tokenLookupKey &&
          payload.accessFingerprint = (rt.buildShareAccessFingerprint shareId tokenLookupKey passwordHash).text

def getShareLookupKey (token : String) : Option String :=
  match token.toList.span (· ≠ '.') with
  | ([], _) => none
  | (_, []) => none
  | (tokenLookupKey, _ :: _) => some (String.ofList tokenLookupKey)

/-! ## Rows -/

/-- `StoredShareLink`. -/
structure ShareLink where
  id : String
  createdByUserId : String
  targetType : ItemType
  fileId : Option String
  folderId : Option String
  tokenLookupKey : Base64url
  tokenHash : Base64url
  passwordHash : Option String
  downloadDisabled : Bool
  expiresAt : Nat
  revokedAt : Option Nat
deriving DecidableEq

abbrev ShareTable := List ShareLink

namespace ShareTable

variable (shares : ShareTable)

/-- The unique columns. A null is never equal. -/
def admits (share : ShareLink) : Bool :=
  shares.all fun other => other.id = share.id ||
    (other.tokenLookupKey ≠ share.tokenLookupKey && other.tokenHash ≠ share.tokenHash &&
      (share.fileId = none || other.fileId ≠ share.fileId) &&
      (share.folderId = none || other.folderId ≠ share.folderId))

def create (share : ShareLink) : Option ShareTable :=
  if !(shares.any fun other => other.id = share.id) && shares.admits share then some (shares ++ [share])
  else none

def update (share : ShareLink) : Option ShareTable :=
  if shares.admits share then some (shares.map fun other => if other.id = share.id then share else other)
  else none

def findShareById (id : String) : Option ShareLink := shares.find? fun share => share.id = id

def findShareByFileId (fileId : String) : Option ShareLink :=
  shares.find? fun share => share.fileId = some fileId

def findShareByFolderId (folderId : String) : Option ShareLink :=
  shares.find? fun share => share.folderId = some folderId

def findShareByTokenLookupKey (tokenLookupKey : String) : Option ShareLink :=
  shares.find? fun share => share.tokenLookupKey.text = tokenLookupKey

end ShareTable

inductive ShareErrorCode
  | accessDenied
  | downloadDisabled
  | expired
  | invalid
  | notFound
  | passwordInvalid
  | passwordRequired
  | targetUnavailable
deriving DecidableEq, Repr

/-- What a call throws. -/
inductive Failure
  | share (code : ShareErrorCode)
  | storageEntityUnavailable (state : StorageMutationState)
  | storageProtocolNotReady
  /-- A constraint of the table. -/
  | constraint
deriving DecidableEq, Repr

abbrev Outcome := Except Failure

/-- What is missing is a failure. -/
def Failure.unless {α : Type} (failure : Failure) : Option α → Outcome α
  | none => .error failure
  | some a => .ok a

/-- A value that is not the empty string. -/
def truthy (value : Option String) : Option String := value.filter (· ≠ "")

/-! ## The world -/

/-- A cookie that an unlock gave out: the link as it was, and the password that was entered for it. -/
structure Issued where
  share : ShareLink
  accessFingerprint : Base64url
  password : String
deriving DecidableEq

def Issued.payload (issued : Issued) : ShareCookiePayload where
  shareId := issued.share.id
  tokenLookupKey := issued.share.tokenLookupKey.text
  accessFingerprint := issued.accessFingerprint.text

structure World where
  files : Files
  shares : ShareTable
  issued : List Issued
  shareMaxAgeDays : Nat
  now : Nat

namespace World

variable (rt : Runtime) (w : World)

def getValidatedPublicShare (token : String) : Outcome ShareLink := do
  let tokenLookupKey ← (Failure.share .invalid).unless (getShareLookupKey token)
  let share ← (Failure.share .notFound).unless (w.shares.findShareByTokenLookupKey tokenLookupKey)
  if rt.hashOpaqueToken token ≠ share.tokenHash then .error (.share .invalid)
  else if share.revokedAt.isSome then .error (.share .invalid)
  else if share.expiresAt ≤ w.now then .error (.share .expired)
  else .ok share

/-! ## The owner's calls -/

/-- The folders of `resolveFilesState`. -/
def resolveFilesState (ownerUserId : String) : Outcome FolderMap := do
  let _ ← Failure.storageProtocolNotReady.unless (w.files.findFilesRoot ownerUserId)
  .ok (buildFolderMap (w.files.foldersOf ownerUserId))

def assertCanManageTarget (actorUserId : String) (ownerUserId : Option String) : Outcome Unit :=
  if ownerUserId = some actorUserId then .ok () else .error (.share .targetUnavailable)

def assertActiveTarget (targetType : ItemType) (file : Option File) (folder : Option Folder)
    (folderMap : FolderMap) : Outcome Unit :=
  if targetType = .file && file.all (isFileDeletedInTree · folderMap) then
    .error (.share .targetUnavailable)
  else if targetType = .folder && folder.all (isFolderDeletedInTree · folderMap) then
    .error (.share .targetUnavailable)
  else .ok ()

/-- The file of a link to a file, and the folder of a link to a folder. -/
def findTarget (targetType : ItemType) (fileId folderId : Option String) : Option File × Option Folder :=
  match targetType with
  | .file => ((truthy fileId).bind w.files.findFileById, none)
  | .folder => (none, (truthy folderId).bind w.files.findFolderById)

/-- `ShareLink_fileId_fkey` and `ShareLink_folderId_fkey`. -/
def targetsKnown (share : ShareLink) : Bool :=
  (share.fileId.all fun id => w.files.owners.keys.any fun owner => (w.files.fileOf owner id).isSome) &&
    share.folderId.all fun id => (w.files.findFolderById id).isSome

/-- The row with the target, found by the id that goes with its type. -/
def findExisting (share : ShareLink) : Option ShareLink :=
  match share.targetType with
  | .file => (truthy share.fileId).bind w.shares.findShareByFileId
  | .folder => (truthy share.folderId).bind w.shares.findShareByFolderId

def saveShareForTarget (share : ShareLink) : Option ShareTable :=
  match w.findExisting share with
  | some existing =>
    w.shares.update { existing with
      tokenLookupKey := share.tokenLookupKey
      tokenHash := share.tokenHash
      passwordHash := share.passwordHash
      downloadDisabled := share.downloadDisabled
      expiresAt := share.expiresAt
      revokedAt := share.revokedAt }
  | none => if w.targetsKnown share then w.shares.create share else none

/-- A request to share, with what is made up for it. -/
structure CreateShare where
  actorUserId : String
  targetType : ItemType
  fileId : Option String
  folderId : Option String
  expiresAt : Option Nat
  downloadDisabled : Bool
  password : Option String
  id : String
  tokenLookupKey : Base64url
  salt : Base64url

def shareMaxAge : Nat := w.shareMaxAgeDays * 24 * 60 * 60 * 1000

def createOrReissueShare (input : CreateShare) : Outcome ShareTable := do
  let effectiveExpiresAt := input.expiresAt.getD (w.now + w.shareMaxAge)
  if effectiveExpiresAt ≤ w.now then .error (.share .invalid)
  let folderMap ← w.resolveFilesState input.actorUserId
  let (file, folder) := w.findTarget input.targetType input.fileId input.folderId
  assertCanManageTarget input.actorUserId ((file.map (·.ownerUserId)).or (folder.map (·.ownerUserId)))
  assertActiveTarget input.targetType file folder folderMap
  Failure.constraint.unless (w.saveShareForTarget
    { id := input.id
      createdByUserId := input.actorUserId
      targetType := input.targetType
      fileId := input.fileId
      folderId := input.folderId
      tokenLookupKey := input.tokenLookupKey
      tokenHash := rt.hashOpaqueToken (rt.buildShareToken input.tokenLookupKey)
      passwordHash := (truthy input.password).map (rt.hashPassword · input.salt)
      downloadDisabled := input.downloadDisabled
      expiresAt := effectiveExpiresAt
      revokedAt := none })

def getManagedShare (actorUserId shareId : String) : Outcome ShareLink := do
  let share ← (Failure.share .notFound).unless (w.shares.findShareById shareId)
  if share.createdByUserId = actorUserId then .ok share else .error (.share .notFound)

def updateShare (actorUserId shareId : String) (expiresAt : Nat) (downloadDisabled : Bool) :
    Outcome ShareTable := do
  if expiresAt ≤ w.now then .error (.share .invalid)
  let share ← w.getManagedShare actorUserId shareId
  Failure.constraint.unless (w.shares.update { share with expiresAt, downloadDisabled })

def updateSharePassword (actorUserId shareId : String) (password : Option String) (salt : Base64url) :
    Outcome ShareTable := do
  let share ← w.getManagedShare actorUserId shareId
  Failure.constraint.unless (w.shares.update { share with
    passwordHash := (truthy password).map (rt.hashPassword · salt) })

def reissueShare (actorUserId shareId : String) (tokenLookupKey : Base64url) : Outcome ShareTable := do
  let share ← w.getManagedShare actorUserId shareId
  let folderMap ← w.resolveFilesState actorUserId
  let (file, folder) := w.findTarget share.targetType share.fileId share.folderId
  assertActiveTarget share.targetType file folder folderMap
  Failure.constraint.unless (w.shares.update { share with
    tokenLookupKey
    tokenHash := rt.hashOpaqueToken (rt.buildShareToken tokenLookupKey)
    expiresAt := if share.expiresAt ≤ w.now then w.now + w.shareMaxAge else share.expiresAt
    revokedAt := none })

def revokeShare (actorUserId shareId : String) : Outcome ShareTable := do
  let share ← w.getManagedShare actorUserId shareId
  Failure.constraint.unless (w.shares.update { share with revokedAt := some w.now })

def deleteShare (actorUserId shareId : String) : Outcome ShareTable := do
  let _ ← w.getManagedShare actorUserId shareId
  .ok (w.shares.filter (·.id ≠ shareId))

/-! ## A visitor's password -/

/-- The link and the fingerprint that the visitor's cookie is made from. -/
def unlockShare (token password : String) : Outcome (ShareLink × Base64url) := do
  let share ← w.getValidatedPublicShare rt token
  let passwordHash ← (Failure.share .invalid).unless share.passwordHash
  if rt.verifyPassword password passwordHash then
    .ok (share, rt.buildShareAccessFingerprint share.id share.tokenLookupKey.text passwordHash)
  else .error (.share .passwordInvalid)

/-! ## Runs -/

inductive Event
  | createOrReissueShare (input : CreateShare)
  | updateShare (actorUserId shareId : String) (expiresAt : Nat) (downloadDisabled : Bool)
  | updateSharePassword (actorUserId shareId : String) (password : Option String) (salt : Base64url)
  | reissueShare (actorUserId shareId : String) (tokenLookupKey : Base64url)
  | revokeShare (actorUserId shareId : String)
  | deleteShare (actorUserId shareId : String)
  | unlockShare (token password : String)
  /-- Something happens to the files and folders of an owner. -/
  | tree (ownerUserId : String) (event : Service.Event)
  /-- Uploads, previews and checks write what is recorded beside the trees. -/
  | record (records : Records)
  | setMaxAge (days : Nat)
  | wait (milliseconds : Nat)

/-- `ON DELETE CASCADE` of the links whose file or folder is gone. -/
def cascade : World := { w with shares := w.shares.filter w.targetsKnown }

def withShares (shares : ShareTable) : World := { w with shares }

def act : Event → Outcome World
  | .createOrReissueShare input => (w.createOrReissueShare rt input).map w.withShares
  | .updateShare actorUserId shareId expiresAt downloadDisabled =>
    (w.updateShare actorUserId shareId expiresAt downloadDisabled).map w.withShares
  | .updateSharePassword actorUserId shareId password salt =>
    (w.updateSharePassword rt actorUserId shareId password salt).map w.withShares
  | .reissueShare actorUserId shareId tokenLookupKey =>
    (w.reissueShare rt actorUserId shareId tokenLookupKey).map w.withShares
  | .revokeShare actorUserId shareId => (w.revokeShare actorUserId shareId).map w.withShares
  | .deleteShare actorUserId shareId => (w.deleteShare actorUserId shareId).map w.withShares
  | .unlockShare token password =>
    (w.unlockShare rt token password).map fun (share, accessFingerprint) =>
      { w with issued := w.issued ++ [⟨share, accessFingerprint, password⟩] }
  | .tree ownerUserId event =>
    .ok (match w.files.owners.get ownerUserId with
      | none => w
      | some s =>
        { w with files := { w.files with owners := w.files.owners.set ownerUserId (s.step event) } }.cascade)
  | .record records => .ok { w with files := { w.files with records } }
  | .setMaxAge days => .ok { w with shareMaxAgeDays := days }
  | .wait milliseconds => .ok { w with now := w.now + milliseconds }

/-- A call that throws leaves everything as it was. -/
def step (e : Event) : World :=
  match w.act rt e with
  | .ok w' => w'
  | .error _ => w

/-- Everyone's files, and no link. -/
def start (files : Files) (shareMaxAgeDays now : Nat) : World where
  files
  shares := []
  issued := []
  shareMaxAgeDays
  now

end World

end Staaash.Sharing
