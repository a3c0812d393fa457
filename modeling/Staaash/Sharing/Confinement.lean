import Staaash.Sharing.Public

/-!
# What a link may give

The files that an answer is made from, where they have to lie, and what the link has to be like at the
time of the request.
-/

namespace Staaash.Sharing

open Staaash.Library
open Staaash.Planner (ItemType)

/-! ## Files in a shared folder -/

namespace Files

variable (fs : Files) (ownerUserId : String)

/-- A folder and all above it are live. -/
def WayLive (folderId : String) : Prop :=
  ∀ folder above, fs.folderOf ownerUserId folderId = some folder → AtOrAbove fs.parent folder above →
    above.item.live = true

/-- The folder is the root or lies below it, and it is live as are those between. -/
inductive Inside (rootFolderId : String) : String → Prop
  | root {folder : Folder} : fs.folderOf ownerUserId rootFolderId = some folder → folder.item.live = true →
    Inside rootFolderId rootFolderId
  | child {id parentId : String} {folder : Folder} : fs.folderOf ownerUserId id = some folder →
    folder.item.live = true → folder.item.parentId = some parentId → Inside rootFolderId parentId →
    Inside rootFolderId id

end Files

/-- `fileId` or `folderId`. -/
def ShareLink.targetId (share : ShareLink) : String :=
  (match share.targetType with
    | .file => share.fileId
    | .folder => share.folderId).getD ""

/-- The shared item and all its ancestors are live. -/
def Files.TargetLive (fs : Files) (share : ShareLink) : Prop :=
  match share.targetType with
  | .file => ∃ file, fs.fileOf share.createdByUserId share.targetId = some file ∧ file.item.live = true ∧
    ∀ folderId, file.item.parentId = some folderId → fs.WayLive share.createdByUserId folderId
  | .folder => (fs.folderOf share.createdByUserId share.targetId).isSome = true ∧
    fs.WayLive share.createdByUserId share.targetId

/-- A live file of the link's owner: the shared one, or one inside the shared folder. -/
def Files.Confined (fs : Files) (share : ShareLink) (fileId : String) : Prop :=
  ∃ file, fs.fileOf share.createdByUserId fileId = some file ∧ file.item.live = true ∧
    match share.targetType with
    | .file => fileId = share.targetId
    | .folder => ∃ folderId, file.item.parentId = some folderId ∧
      fs.Inside share.createdByUserId share.targetId folderId

/-! ## Files in an answer -/

def PublicShareView.fileIds : PublicShareView → Option (List String)
  | .locked => none
  | .file _ f => some [f.id]
  | .folder _ listing => some (listing.files.map PublicFile.id)

/-- The files that an answer is made from. A list, maybe empty, where it gives anything inside a link. -/
def Answer.fileIds : Answer → Option (List String)
  | .content file _ => some [file.id]
  | .download file => some [file.id]
  | .archive _ _ files => some (files.map File.id)
  | .image file _ _ => some [file.id]
  | .view resolution _ _ => resolution.fileIds
  | .fileView _ file _ _ => some [file.id]
  | .page (.file file _ _) => some [file.id]
  | .page (.folder _) => some []
  | _ => none

/-! ## Secrets -/

/-- The hash functions have no collisions, and a payload can be read back. -/
structure Runtime.CollisionFree (rt : Runtime) : Prop where
  sha256 : Function.Injective rt.sha256
  hmac : Function.Injective rt.hmac
  scrypt : ∀ salt, Function.Injective fun password => rt.scrypt password salt
  payload : ∀ payload, rt.deserializePayload (rt.serializePayload payload).text = some payload

/-- The visitor has no signature but those of cookies that were given out. -/
def World.Genuine (rt : Runtime) (w : World) (cookie : Option String) : Prop :=
  ∀ payloadValue, cookie = some (payloadValue ++ "." ++ (rt.signValue payloadValue).text) →
    ∃ issued ∈ w.issued, payloadValue = (rt.serializePayload issued.payload).text

def ShareLink.HasPassword (rt : Runtime) (share : ShareLink) (password : String) : Prop :=
  ∃ salt, share.passwordHash = some (rt.hashPassword password salt)

/-- The link is the one of the token, it is in force, and the visitor has what it asks for. -/
structure World.Opens (rt : Runtime) (w : World) (visit : Visit) (share : ShareLink) : Prop where
  listed : share ∈ w.shares
  token : visit.token = rt.buildShareToken share.tokenLookupKey
  notRevoked : share.revokedAt = none
  notExpired : w.now < share.expiresAt
  targetLive : w.files.TargetLive share
  unlocked : share.passwordHash = none ∨ ∃ issued ∈ w.issued,
    visit.cookie = some (rt.cookieValue issued.payload) ∧ issued.share.id = share.id ∧
      issued.share.tokenLookupKey = share.tokenLookupKey ∧ issued.share.passwordHash = share.passwordHash ∧
      share.HasPassword rt issued.password

/-! ## What a locked link says

The answers of a link whose password a visitor has not entered, as a function of the link and of the request
alone, and the requests that are answered from what lies inside.
-/

/-- No mutation is in the way of the item or of a folder above it. -/
def Files.Readable (fs : Files) (item : SharedItem) : Prop :=
  fs.state item.id = none ∧
    ∀ folder ∈ fs.listFolderAncestors item.ownerUserId item.ancestorId.toList, fs.state folder.id = none

/-- The shared item is there, live and readable. -/
structure Files.Ready (fs : Files) (share : ShareLink) : Prop where
  readable : ∃ item, fs.findPublicTarget share = some item ∧ item.ownerUserId = share.createdByUserId ∧
    fs.Readable item
  live : fs.TargetLive share

/-- A request for the shared item, or for something inside it. -/
def lockedFile (share : ShareLink) (type : ItemType) : Answer :=
  .failure (.share (if share.targetType = type then .passwordRequired else .accessDenied))

def requestedType (fileId : Option String) : ItemType := if truthy fileId = none then .file else .folder

def lockedAnswer (share : ShareLink) : Route → Answer
  | .content => lockedFile share .file
  | .nestedContent fileId => lockedFile share (requestedType (some fileId))
  | .download => lockedFile share .file
  | .nestedDownload _ => lockedFile share .folder
  | .archive => lockedFile share .folder
  | .poster => .posterUnavailable
  | .nestedPoster _ => .posterUnavailable
  | .thumbnail _ => if share.targetType = .file then .thumbnailUnavailable else .posterUnavailable
  | .preview => lockedFile share .file
  | .nestedPreview _ => lockedFile share .folder
  | .storageUnavailable fileId _ => if truthy fileId = none then .toLink else lockedFile share .folder
  | .view _ => .view .locked false 0
  | .fileView _ => if share.targetType = .file then .failure (.share .accessDenied) else .lockedFile
  | .page => .page .generic
  | .folderPage _ => .page .generic
  | .filePage _ => .page .generic

/-- The request names another folder than the shared one. -/
def NamesFolder (share : ShareLink) (folderId : Option String) : Prop :=
  share.targetType = .folder ∧ ∃ id, folderId = some id ∧ id ≠ share.targetId

/-- The view of a file says whether a browser can show it, and the view of a folder and the check of its
storage look for the folder that they are asked for, before the password. -/
def LooksInside (share : ShareLink) : Route → Prop
  | .view folderId => share.targetType = .file ∨ NamesFolder share folderId
  | .storageUnavailable fileId folderId => truthy fileId = none ∧ NamesFolder share folderId
  | _ => False

/-- Whatever the files are, the answer is the same, while the link is valid and its item there. -/
def SaysOnlyLocked (rt : Runtime) (share : ShareLink) (visit : Visit) : Prop :=
  ∀ (w : World) (files : Files), w.getValidatedPublicShare rt visit.token = .ok share →
    w.files.Ready share → files.Ready share →
    w.answer rt visit = World.answer rt { w with files } visit

end Staaash.Sharing
