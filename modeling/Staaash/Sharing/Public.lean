import Staaash.Sharing.MediaTypes
import Staaash.Sharing.Shares

/-!
# What a visitor gets

The requests that need no session: everything under `/s/{token}`. An answer says which rows a response is
made from; the bytes, ranges and headers are left out, and so are addresses that say no more than the
request does.
-/

namespace Staaash.Sharing

open Staaash.Planner (ItemType)

def File.viewerKind (file : File) : Option ViewerKind := resolveViewerKind file.columns.mimeType file.item.name

/-! ## Rows of a view -/

structure PublicShare where
  downloadDisabled : Bool
  expiresAt : Nat
deriving DecidableEq, Repr

structure PublicFile where
  id : String
  name : String
  mimeType : String
  sizeBytes : Nat
  viewerKind : Option ViewerKind
  updatedAt : Nat
deriving DecidableEq, Repr

structure PublicFolder where
  id : String
  name : String
  updatedAt : Nat
deriving DecidableEq, Repr

structure PublicListing where
  rootFolderId : String
  currentFolder : String × String
  breadcrumbs : List (String × String)
  childFolders : List PublicFolder
  files : List PublicFile
deriving DecidableEq, Repr

inductive PublicShareView
  | locked
  | file (share : PublicShare) (file : PublicFile)
  | folder (share : PublicShare) (listing : PublicListing)
deriving DecidableEq, Repr

def toPublicShare (share : ShareLink) : PublicShare := ⟨share.downloadDisabled, share.expiresAt⟩

def toPublicFile (file : File) : PublicFile where
  id := file.id
  name := file.item.name
  mimeType := file.columns.mimeType
  sizeBytes := file.columns.sizeBytes
  viewerKind := file.viewerKind
  updatedAt := file.columns.updatedAt

inductive ShareLinkStatus
  | active
  | expired
  | revoked
  | targetUnavailable
deriving DecidableEq, Repr

def getShareStatus (share : ShareLink) (targetUnavailable : Bool) (now : Nat) : ShareLinkStatus :=
  if share.revokedAt.isSome then .revoked
  else if share.expiresAt ≤ now then .expired
  else if targetUnavailable then .targetUnavailable
  else .active

/-! ## What a link stands for -/

inductive SharedItem
  | file (file : File)
  | folder (folder : Folder)
deriving DecidableEq

def SharedItem.id : SharedItem → String
  | .file f => f.id
  | .folder f => f.id

def SharedItem.ownerUserId : SharedItem → String
  | .file f => f.ownerUserId
  | .folder f => f.ownerUserId

/-- The folder whose ancestors are read. -/
def SharedItem.ancestorId : SharedItem → Option String
  | .file f => f.item.parentId
  | .folder f => some f.id

def SharedItem.isDeletedInTree (folderMap : FolderMap) : SharedItem → Bool
  | .file f => isFileDeletedInTree f folderMap
  | .folder f => isFolderDeletedInTree f folderMap

structure PublicTarget where
  share : ShareLink
  isUnlocked : Bool
  item : SharedItem
  folderMap : FolderMap

/-- One page of a link: the file, or a folder with the one that the link is for. -/
inductive ContextItem
  | file (file : File)
  | folder (rootFolder currentFolder : Folder)

structure PublicShareContext where
  share : ShareLink
  status : ShareLinkStatus
  isUnlocked : Bool
  item : ContextItem
  folderMap : FolderMap

structure SharedFolderListing where
  rootFolder : Folder
  currentFolder : Folder
  breadcrumbs : List Folder
  childFolders : List Folder
  files : List File

inductive ResolvedItem
  | file (file : File)
  | folder (listing : SharedFolderListing)

structure PublicShareResolution where
  share : ShareLink
  status : ShareLinkStatus
  isUnlocked : Bool
  item : ResolvedItem

/-! ## Resolving -/

namespace Files

variable (fs : Files)

def assertStorageEntityReadable (id : String) : Outcome Unit :=
  match fs.state id with
  | none => .ok ()
  | some state => .error (.storageEntityUnavailable state)

def assertReadable (ids : List String) : Outcome Unit :=
  match fs.firstState ids with
  | none => .ok ()
  | some state => .error (.storageEntityUnavailable state)

def assertFoldersReadable (folders : List Folder) : Outcome Unit := fs.assertReadable (folders.map Folder.id)

def findPublicTarget (share : ShareLink) : Option SharedItem :=
  match share.targetType with
  | .file => (fs.findFileById (share.fileId.getD "")).map .file
  | .folder => (fs.findFolderById (share.folderId.getD "")).map .folder

def findSharedNestedFile (ownerUserId rootFolderId fileId : String) : Outcome File := do
  let file ← (Failure.share .accessDenied).unless
    ((fs.findFileById fileId).filter fun file => file.ownerUserId = ownerUserId)
  let folderId ← (Failure.share .accessDenied).unless file.item.parentId
  let ancestors := fs.listFolderAncestors ownerUserId [folderId]
  let folderMap := buildFolderMap ancestors
  if isFileDeletedInTree file folderMap || !isFolderWithinRoot folderId rootFolderId folderMap then
    .error (.share .accessDenied)
  fs.assertFoldersReadable ancestors
  fs.assertStorageEntityReadable file.id
  .ok file

/-- The folder, and the map with its ancestors. -/
def findPublicFolder (rootFolder : Folder) (folderMap : FolderMap) (requestedFolderId : Option String) :
    Outcome (Folder × FolderMap) := do
  let currentFolderId := requestedFolderId.getD rootFolder.id
  let folderMap :=
    if currentFolderId = rootFolder.id then folderMap
    else (fs.listFolderAncestors rootFolder.ownerUserId [currentFolderId]).foldl
      (fun folderMap folder => folderMap.set folder.id folder) folderMap
  let currentFolder ← (Failure.share .accessDenied).unless (folderMap.get currentFolderId)
  if isFolderDeletedInTree currentFolder folderMap ||
      !isFolderWithinRoot currentFolder.id rootFolder.id folderMap then
    .error (.share .accessDenied)
  fs.assertFoldersReadable (folderMap.entries.map Prod.snd)
  .ok (currentFolder, folderMap)

def findSharedFolders (ownerUserId rootFolderId : String) : List Folder :=
  let folders := fs.listFolderSubtree ownerUserId rootFolderId
  let folderMap := buildFolderMap folders
  folders.filter fun folder =>
    !isFolderDeletedInTree folder folderMap && isFolderWithinRoot folder.id rootFolderId folderMap

end Files

/-- From the root down: the way up ends with it. -/
def buildPublicBreadcrumbs (rootFolder currentFolder : Folder) (folderMap : FolderMap) : List Folder :=
  let way := folderMap.above currentFolder
  (way.takeWhile (·.id ≠ rootFolder.id) ++ (way.find? (·.id = rootFolder.id)).toList).reverse

namespace World

variable (rt : Runtime) (w : World) (token : String) (cookie : Option String)

def isUnlocked (share : ShareLink) : Bool :=
  share.passwordHash.all fun passwordHash =>
    rt.verifyShareAccessCookie cookie share.id share.tokenLookupKey.text passwordHash

def resolvePublicTarget : Outcome PublicTarget := do
  let share ← w.getValidatedPublicShare rt token
  let _ ← Failure.storageProtocolNotReady.unless (w.files.findFilesRoot share.createdByUserId)
  let item ← (Failure.share .targetUnavailable).unless
    ((w.files.findPublicTarget share).filter fun item => item.ownerUserId = share.createdByUserId)
  let folders := w.files.listFolderAncestors share.createdByUserId item.ancestorId.toList
  let folderMap := buildFolderMap folders
  if item.isDeletedInTree folderMap then .error (.share .targetUnavailable)
  w.files.assertStorageEntityReadable item.id
  w.files.assertFoldersReadable folders
  .ok { share, isUnlocked := isUnlocked rt cookie share, item, folderMap }

/-- With the id of a file inside for a shared folder. -/
def resolvePublicFile (fileId : Option String) (download : Bool) : Outcome (File × ShareLink) := do
  let resolved ← w.resolvePublicTarget rt token cookie
  if resolved.share.targetType ≠ (if fileId = none then .file else .folder) then
    .error (.share .accessDenied)
  if !resolved.isUnlocked then .error (.share .passwordRequired)
  if download && resolved.share.downloadDisabled then .error (.share .downloadDisabled)
  match resolved.item, fileId with
  | .folder folder, some fileId =>
    let file ← w.files.findSharedNestedFile resolved.share.createdByUserId folder.id fileId
    .ok (file, resolved.share)
  | .file file, _ => .ok (file, resolved.share)
  -- not with the type that the link has
  | .folder _, none => .error (.share .accessDenied)

def resolvePublicContext (requestedFolderId : Option String) : Outcome PublicShareContext := do
  let rootState ← w.resolvePublicTarget rt token cookie
  let share := rootState.share
  let status := getShareStatus share false w.now
  let isUnlocked := rootState.isUnlocked
  match rootState.item with
  | .file file => .ok { share, status, isUnlocked, item := .file file, folderMap := rootState.folderMap }
  | .folder rootFolder =>
    let (currentFolder, folderMap) ← w.files.findPublicFolder rootFolder rootState.folderMap requestedFolderId
    .ok { share, status, isUnlocked, item := .folder rootFolder currentFolder, folderMap }

def resolvePublicShare (requestedFolderId : Option String) : Outcome PublicShareResolution := do
  let context ← w.resolvePublicContext rt token cookie requestedFolderId
  let share := context.share
  let status := context.status
  let isUnlocked := context.isUnlocked
  match context.item with
  | .file file => .ok { share, status, isUnlocked, item := .file file }
  | .folder rootFolder currentFolder =>
    let breadcrumbs := buildPublicBreadcrumbs rootFolder currentFolder context.folderMap
    let childFolders :=
      if isUnlocked then w.files.listChildFolders share.createdByUserId currentFolder.id else []
    let files := if isUnlocked then w.files.listChildFiles share.createdByUserId currentFolder.id else []
    if isUnlocked then
      w.files.assertReadable ((breadcrumbs ++ childFolders).map Folder.id)
      w.files.assertReadable (files.map File.id)
    .ok { share, status, isUnlocked
          item := .folder { rootFolder, currentFolder, breadcrumbs, childFolders, files } }

def createFolderArchive : Outcome (Folder × List Folder × List File) := do
  let resolved ← w.resolvePublicTarget rt token cookie
  match resolved.item with
  | .file _ => .error (.share .accessDenied)
  | .folder rootFolder =>
    if !resolved.isUnlocked then .error (.share .passwordRequired)
    if resolved.share.downloadDisabled then .error (.share .downloadDisabled)
    let ownerUserId := resolved.share.createdByUserId
    let folders := w.files.findSharedFolders ownerUserId rootFolder.id
    let files := w.files.listFilesInFolders ownerUserId (folders.map Folder.id)
    w.files.assertStorageEntityReadable rootFolder.id
    w.files.assertFoldersReadable folders
    w.files.assertReadable (files.map File.id)
    .ok (rootFolder, folders, files)

end World

/-! ## Answers -/

structure EmbedMetadata where
  type : String
  width : Nat
  height : Nat
deriving DecidableEq, Repr

inductive ShareMetadataTarget
  | generic
  | file (file : PublicFile) (video poster : Option EmbedMetadata)
  | folder (folderName : String)
deriving DecidableEq, Repr

inductive Answer
  | failure (failure : Failure)
  /-- `createPosterErrorResponse`, which hides why. -/
  | posterUnavailable
  | thumbnailUnavailable
  | derivativeUnavailable
  | content (file : File) (downloadDisabled : Bool)
  | download (file : File)
  | archive (rootFolder : Folder) (folders : List Folder) (files : List File)
  | image (file : File) (derivative : Derivative) (downloadDisabled : Bool)
  | notPreviewable
  | toContent
  /-- Readable again, or a page that says that it is not. -/
  | toLink
  | unavailablePage (state : StorageMutationState)
  | view (resolution : PublicShareView) (nativeInline : Bool) (folderSizeBytes : Nat)
  | lockedFile
  | fileNotFound
  /-- The way back leads to the folder, or to the link where it is for the folder. -/
  | fileView (back : Option String) (file : PublicFile) (nativeInline : Bool) (share : PublicShare)
  | page (target : ShareMetadataTarget)
deriving DecidableEq

inductive Route
  | content
  | nestedContent (fileId : String)
  | download
  | nestedDownload (fileId : String)
  | archive
  | poster
  | nestedPoster (fileId : String)
  | thumbnail (fileId : String)
  | preview
  | nestedPreview (fileId : String)
  | storageUnavailable (fileId folderId : Option String)
  | view (folderId : Option String)
  | fileView (fileId : String)
  | page
  | folderPage (folderId : String)
  | filePage (fileId : String)
deriving DecidableEq, Repr

structure Visit where
  token : String
  cookie : Option String
  route : Route
deriving DecidableEq, Repr

def Answer.of : Outcome Answer → Answer
  | .ok answer => answer
  | .error e => .failure e

/-- `imageError`. -/
def Answer.ofImage : Outcome Answer → Answer
  | .ok answer => answer
  | .error (.storageEntityUnavailable state) => .failure (.storageEntityUnavailable state)
  | .error _ => .posterUnavailable

/-- The answer of `storageUnavailable`. -/
def Answer.ofCheck : Outcome Unit → Answer
  | .ok () => .toLink
  | .error (.storageEntityUnavailable state) => .unavailablePage state
  | .error e => .failure e

/-- `createPublicReadyDerivativeContentResponse`. -/
def Files.serveDerivative (fs : Files) (file : File) (derivative : Derivative) (downloadDisabled : Bool) :
    Outcome Answer :=
  match fs.records.derivativeState derivative.id with
  | some state => .error (.storageEntityUnavailable state)
  | none =>
    if derivative.storageKey.isSome && derivative.sizeBytes.isSome then
      .ok (.image file derivative downloadDisabled)
    else .ok .derivativeUnavailable

/-- The `safeInlineMimeType` of a preview, where there is one. -/
def Files.getPublicShareFilePreview (fs : Files) (file : File) : Outcome (Option (Option String)) := do
  if file.viewerKind ≠ some .video then .ok none
  else
    fs.assertStorageEntityReadable file.id
    match fs.records.findReadyDerivative file.id .preview with
    | none => .ok none
    | some derivative =>
      match derivative.storageKey, derivative.sizeBytes, fs.records.derivativeState derivative.id with
      | some _, some _, some state => .error (.storageEntityUnavailable state)
      | some storageKey, some _, none =>
        if fs.records.isReadableDerivativeFile storageKey then
          .ok (some (getPublicShareSafeInlineMimeType (derivative.mimeType.getD "")))
        else .ok none
      | _, _, _ => .ok none

/-- `getReadyVideoEmbedMetadata` and `getReadyPosterImageMetadata`. -/
def Files.getReadyEmbedMetadata (fs : Files) (file : File) (kind : DerivativeKind) (mimeType : String) :
    Option EmbedMetadata :=
  if file.viewerKind ≠ some .video then none
  else (fs.records.findReadyDerivative file.id kind).bind fun derivative =>
    let width := derivative.width.getD 0
    let height := derivative.height.getD 0
    if (truthy derivative.storageKey).isSome &&
        normalizeMimeType (derivative.mimeType.getD "") = mimeType.toList && 0 < width && 0 < height then
      some ⟨mimeType, width, height⟩
    else none

def Files.fileMetadata (fs : Files) (file : File) : ShareMetadataTarget :=
  .file (toPublicFile file) (fs.getReadyEmbedMetadata file .preview "video/mp4")
    (fs.getReadyEmbedMetadata file .poster "image/jpeg")

def isNativeViewSafe (file : File) (preview : Option (Option String)) : Bool :=
  isPublicShareFileNativeViewSafe file.columns.mimeType file.item.name preview

/-- A locked link says only that it is locked. -/
def toPublicShareView (resolution : PublicShareResolution) : PublicShareView :=
  if resolution.share.passwordHash.isSome && !resolution.isUnlocked then .locked
  else
    match resolution.item with
    | .file file => .file (toPublicShare resolution.share) (toPublicFile file)
    | .folder listing =>
      .folder (toPublicShare resolution.share)
        { rootFolderId := listing.rootFolder.id
          currentFolder := (listing.currentFolder.id, listing.currentFolder.item.name)
          breadcrumbs := listing.breadcrumbs.map fun folder => (folder.id, folder.item.name)
          childFolders := listing.childFolders.map fun folder =>
            ⟨folder.id, folder.item.name, folder.updatedAt⟩
          files := listing.files.map toPublicFile }

namespace World

variable (rt : Runtime) (w : World) (token : String) (cookie : Option String)

/-- `createPublicShareContentRouteResponse`. An empty id counts as none. -/
def contentAnswer (fileId : Option String) : Outcome Answer := do
  let (file, share) ← w.resolvePublicFile rt token cookie (truthy fileId) false
  .ok (.content file share.downloadDisabled)

/-- `createFileDownloadResponse` of a file to download. -/
def downloadAnswer (fileId : Option String) : Outcome Answer := do
  let (file, _) ← w.resolvePublicFile rt token cookie fileId true
  w.files.assertStorageEntityReadable file.id
  .ok (.download file)

def archiveAnswer : Outcome Answer := do
  let (rootFolder, folders, files) ← w.createFolderArchive rt token cookie
  .ok (.archive rootFolder folders files)

def createSharePosterResponse (fileId : Option String) : Outcome Answer := do
  let (file, share) ← w.resolvePublicFile rt token cookie (truthy fileId) false
  if share.passwordHash.isSome || file.viewerKind ≠ some .video then .ok .posterUnavailable
  else
    w.files.assertStorageEntityReadable file.id
    match w.files.records.findReadyDerivative file.id .poster with
    | none => .ok .posterUnavailable
    | some derivative => w.files.serveDerivative file derivative share.downloadDisabled

def createShareThumbnailResponse (fileId : String) : Outcome Answer := do
  let resolution ← w.resolvePublicShare rt token cookie none
  match resolution.item with
  | .file _ => .ok .thumbnailUnavailable
  | .folder _ =>
    if resolution.status ≠ .active then .ok .thumbnailUnavailable
    else
      let (file, share) ← w.resolvePublicFile rt token cookie (some fileId) false
      w.files.assertStorageEntityReadable file.id
      match w.files.records.findReadyDerivative file.id .thumbnail with
      | none => .ok .thumbnailUnavailable
      | some derivative => w.files.serveDerivative file derivative share.downloadDisabled

def previewAnswer (fileId : Option String) : Outcome Answer := do
  let (file, _) ← w.resolvePublicFile rt token cookie fileId false
  .ok (if file.viewerKind.isNone then .notPreviewable else .toContent)

def checkStorage (fileId folderId : Option String) : Outcome Unit := do
  match truthy fileId with
  | some fileId =>
    let _ ← w.resolvePublicFile rt token cookie (some fileId) false
    .ok ()
  | none =>
    let _ ← w.resolvePublicShare rt token cookie folderId
    .ok ()

def viewAnswer (folderId : Option String) : Outcome Answer := do
  let resolution ← w.resolvePublicShare rt token cookie folderId
  match resolution.item with
  | .file file =>
    let filePreview ← (if resolution.isUnlocked then w.files.getPublicShareFilePreview file else .ok none)
    .ok (.view (toPublicShareView resolution) (isNativeViewSafe file filePreview) 0)
  | .folder listing =>
    .ok (.view (toPublicShareView resolution) false
      (if resolution.isUnlocked then w.files.records.getFolderSizeBytes listing.currentFolder.id else 0))

def fileViewAnswer (fileId : String) : Outcome Answer := do
  let resolution ← w.resolvePublicContext rt token cookie none
  match resolution.item with
  | .file _ => .error (.share .accessDenied)
  | .folder rootFolder _ =>
    if resolution.share.passwordHash.isSome && !resolution.isUnlocked then .ok .lockedFile
    else
      let (file, share) ← w.resolvePublicFile rt token cookie (some fileId) false
      if file.viewerKind.isNone then .ok .fileNotFound
      else
        let preview ← w.files.getPublicShareFilePreview file
        .ok (.fileView (file.item.parentId.filter (· ≠ rootFolder.id)) (toPublicFile file)
          (isNativeViewSafe file preview) (toPublicShare share))

/-- `getSharePageMetadata`. -/
def metadata (fileId folderId : Option String) : Outcome ShareMetadataTarget := do
  let resolution ← w.resolvePublicContext rt token cookie folderId
  if resolution.status ≠ .active || resolution.share.passwordHash.isSome then .ok .generic
  else
    match truthy fileId, resolution.item with
    | some _, .file _ => .ok .generic
    | some fileId, .folder _ _ =>
      let (file, _) ← w.resolvePublicFile rt token cookie (some fileId) false
      .ok (w.files.fileMetadata file)
    | none, .file file => .ok (w.files.fileMetadata file)
    | none, .folder _ currentFolder => .ok (.folder currentFolder.item.name)

/-- A page is shown without details where anything fails. -/
def pageAnswer (fileId folderId : Option String) : Answer :=
  match w.metadata rt token cookie fileId folderId with
  | .ok target => .page target
  | .error _ => .page .generic

end World

def World.answer (rt : Runtime) (w : World) (visit : Visit) : Answer :=
  let token := visit.token
  let cookie := visit.cookie
  match visit.route with
  | .content => .of (w.contentAnswer rt token cookie none)
  | .nestedContent fileId => .of (w.contentAnswer rt token cookie (some fileId))
  | .download => .of (w.downloadAnswer rt token cookie none)
  | .nestedDownload fileId => .of (w.downloadAnswer rt token cookie (some fileId))
  | .archive => .of (w.archiveAnswer rt token cookie)
  | .poster => .ofImage (w.createSharePosterResponse rt token cookie none)
  | .nestedPoster fileId => .ofImage (w.createSharePosterResponse rt token cookie (some fileId))
  | .thumbnail fileId => .ofImage (w.createShareThumbnailResponse rt token cookie fileId)
  | .preview => .of (w.previewAnswer rt token cookie none)
  | .nestedPreview fileId => .of (w.previewAnswer rt token cookie (some fileId))
  | .storageUnavailable fileId folderId => .ofCheck (w.checkStorage rt token cookie fileId folderId)
  | .view folderId => .of (w.viewAnswer rt token cookie folderId)
  | .fileView fileId => .of (w.fileViewAnswer rt token cookie fileId)
  | .page => w.pageAnswer rt token cookie none none
  | .folderPage folderId => w.pageAnswer rt token cookie none (some folderId)
  | .filePage fileId => w.pageAnswer rt token cookie (some fileId) none

end Staaash.Sharing
