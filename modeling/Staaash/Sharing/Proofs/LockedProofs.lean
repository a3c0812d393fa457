import Staaash.Sharing.Confinement
import Staaash.Sharing.Proofs.AccessProofs

/-!
# Locked links

When the shared item is there, `resolvePublicTarget` succeeds, and what follows stops at the password.
-/

namespace Staaash.Sharing

open Staaash.Library
open Staaash.Planner (ItemType)

variable {rt : Runtime} {w : World} {fs : Files} {token : String} {cookie : Option String}
  {share : ShareLink}

/-! ## The shared item -/

theorem firstState_eq_none {ids : List String} (h : ∀ id ∈ ids, fs.state id = none) :
    fs.firstState ids = none := by
  unfold Files.firstState
  rw [Option.or_eq_none_iff, List.findSome?_eq_none_iff, List.findSome?_eq_none_iff]
  exact ⟨fun id hid => (Option.or_eq_none_iff.1 (h id hid)).1,
    fun id hid => (Option.or_eq_none_iff.1 (h id hid)).2⟩

theorem state_eq_none_of_firstState {ids : List String} (h : fs.firstState ids = none) {id : String}
    (hid : id ∈ ids) : fs.state id = none := by
  unfold Files.firstState at h
  rw [Option.or_eq_none_iff, List.findSome?_eq_none_iff, List.findSome?_eq_none_iff] at h
  exact Option.or_eq_none_iff.2 ⟨h.1 id hid, h.2 id hid⟩

theorem assertStorageEntityReadable_eq_ok {id : String} :
    fs.assertStorageEntityReadable id = .ok () ↔ fs.state id = none := by
  unfold Files.assertStorageEntityReadable
  cases fs.state id with
  | none => exact ⟨fun _ => rfl, fun _ => rfl⟩
  | some state => exact ⟨fun h => (nomatch h), fun h => (nomatch h)⟩

theorem assertFoldersReadable_eq_ok {folders : List Folder} :
    fs.assertFoldersReadable folders = .ok () ↔ ∀ folder ∈ folders, fs.state folder.id = none := by
  unfold Files.assertFoldersReadable Files.assertReadable
  constructor
  · intro h folder hfolder
    cases hstate : fs.firstState (folders.map Folder.id) with
    | none => exact state_eq_none_of_firstState hstate (List.mem_map_of_mem hfolder)
    | some state =>
      rw [hstate] at h
      cases h
  · intro h
    rw [firstState_eq_none]
    intro id hid
    obtain ⟨folder, hfolder, rfl⟩ := List.mem_map.1 hid
    exact h folder hfolder

/-- The item of a link that is ready. -/
structure Files.Target (fs : Files) (share : ShareLink) (item : SharedItem) : Prop where
  found : fs.findPublicTarget share = some item
  owner : item.ownerUserId = share.createdByUserId
  readable : fs.Readable item
  live : fs.TargetLive share

theorem Files.Ready.target (h : fs.Ready share) : ∃ item, fs.Target share item := by
  obtain ⟨item, hfound, howner, hreadable⟩ := h.readable
  exact ⟨item, hfound, howner, hreadable, h.live⟩

theorem Files.Target.ready {item : SharedItem} (h : fs.Target share item) : fs.Ready share :=
  ⟨⟨item, h.found, h.owner, h.readable⟩, h.live⟩

/-- The folder map of a request. -/
def Files.targetMap (fs : Files) (item : SharedItem) : FolderMap :=
  buildFolderMap (fs.listFolderAncestors item.ownerUserId item.ancestorId.toList)

theorem findFilesRoot_isSome {item : SharedItem} (h : item.IsRow fs share) :
    ∃ root, fs.findFilesRoot share.createdByUserId = some root := by
  unfold SharedItem.IsRow at h
  have hdatabase : ∃ db, fs.database share.createdByUserId = some db := by
    cases item with
    | file f =>
      obtain ⟨db, hdb, -⟩ := Option.bind_eq_some_iff.1 h.2
      exact ⟨db, hdb⟩
    | folder f =>
      obtain ⟨db, hdb, -⟩ := Option.bind_eq_some_iff.1 h.2
      exact ⟨db, hdb⟩
  obtain ⟨db, hdb⟩ := hdatabase
  exact ⟨db.filesRoot, by rw [Files.findFilesRoot, hdb, Option.map_some]⟩

theorem Files.Target.isRow {item : SharedItem} (h : fs.Target share item) : item.IsRow fs share :=
  isRow_of_findPublicTarget h.found h.owner

theorem resolvePublicTarget_eq {item : SharedItem} (hvalid : w.getValidatedPublicShare rt token = .ok share)
    (h : w.files.Target share item) : w.resolvePublicTarget rt token cookie =
      .ok ⟨share, World.isUnlocked rt cookie share, item, w.files.targetMap item⟩ := by
  obtain ⟨root, hroot⟩ := findFilesRoot_isSome h.isRow
  have hlive := (targetLive_iff h.isRow).2 h.live
  unfold World.resolvePublicTarget
  simp only [bind_eq_ok, unless_eq_ok, guard_eq_ok]
  refine ⟨share, hvalid, root, hroot, item, ?_, ?_, (), ?_, (), ?_, ?_⟩
  · exact Option.filter_eq_some_iff.2 ⟨h.found, decide_eq_true h.owner⟩
  · rw [hlive]
    exact Bool.false_ne_true
  · exact assertStorageEntityReadable_eq_ok.2 h.readable.1
  · exact assertFoldersReadable_eq_ok.2 (h.owner ▸ h.readable.2)
  · unfold Files.targetMap
    rw [h.owner]

/-! ## The folder of a page -/

variable {rootFolder folder : Folder} {folderMap : FolderMap} {requestedFolderId : Option String}

/-- The map that `findPublicFolder` looks in. -/
def Files.searched (fs : Files) (rootFolder : Folder) (folderMap : FolderMap)
    (requestedFolderId : Option String) : FolderMap :=
  if requestedFolderId.getD rootFolder.id = rootFolder.id then folderMap
  else folderMap.add (fs.listFolderAncestors rootFolder.ownerUserId [requestedFolderId.getD rootFolder.id])

theorem findPublicFolder_eq {searched : FolderMap}
    (hsearched : fs.searched rootFolder folderMap requestedFolderId = searched)
    (hget : searched.get (requestedFolderId.getD rootFolder.id) = some folder)
    (hlive : isFolderDeletedInTree folder searched = false)
    (hwithin : isFolderWithinRoot folder.id rootFolder.id searched = true)
    (hreadable : ∀ entry ∈ searched.entries, fs.state entry.2.id = none) :
    fs.findPublicFolder rootFolder folderMap requestedFolderId = .ok (folder, searched) := by
  subst hsearched
  unfold Files.findPublicFolder
  simp only [bind_eq_ok, unless_eq_ok, guard_eq_ok]
  refine ⟨folder, hget, ?_, (), ?_, rfl⟩
  · show ¬(isFolderDeletedInTree folder (fs.searched rootFolder folderMap requestedFolderId) ||
      !isFolderWithinRoot folder.id rootFolder.id (fs.searched rootFolder folderMap requestedFolderId)) = true
    rw [hlive, hwithin]
    exact Bool.false_ne_true
  · refine assertFoldersReadable_eq_ok.2 ?_
    intro folder hfolder
    obtain ⟨entry, hentry, rfl⟩ := List.mem_map.1 hfolder
    exact hreadable entry hentry

theorem findPublicFolder_absent
    (hget : (fs.searched rootFolder folderMap requestedFolderId).get (requestedFolderId.getD rootFolder.id) =
      none) : fs.findPublicFolder rootFolder folderMap requestedFolderId = .error (.share .accessDenied) := by
  have hfind : fs.findPublicFolder rootFolder folderMap requestedFolderId =
      ((Failure.share .accessDenied).unless ((fs.searched rootFolder folderMap requestedFolderId).get
        (requestedFolderId.getD rootFolder.id)) >>= _) := rfl
  rw [hfind, hget]
  rfl

theorem Files.Target.get_targetMap (h : fs.Target share (.folder rootFolder)) :
    (fs.targetMap (.folder rootFolder)).get rootFolder.id = some rootFolder := by
  have hrow := h.isRow.2
  have howner : rootFolder.ownerUserId = share.createdByUserId := h.owner
  refine get_ancestors.2 ?_
  show fs.folderOf rootFolder.ownerUserId rootFolder.id = some rootFolder
  rw [howner, (folderOf_eq_some hrow).1]
  exact hrow

theorem targetMap_covers : (fs.targetMap (.folder rootFolder)).Covers fs rootFolder.ownerUserId :=
  ancestors_cover _ _ _

theorem Files.Target.readable_of_mem (h : fs.Target share (.folder rootFolder)) :
    ∀ entry ∈ (fs.targetMap (.folder rootFolder)).entries, fs.state entry.2.id = none := by
  intro entry hentry
  have hget := (OrderedMap.get_eq_some_iff _ entry.1 entry.2).2 hentry
  exact h.readable.2 entry.2 ((get_buildFolderMap fun _ hmem => has_of_mem_ancestors hmem).1 hget).1

theorem Files.Target.isLive {item : SharedItem} (h : fs.Target share item) :
    item.isDeletedInTree (fs.targetMap item) = false := by
  unfold Files.targetMap
  rw [h.owner]
  exact (targetLive_iff h.isRow).2 h.live

theorem not_namesFolder_none : ¬ NamesFolder share none := fun h => (nomatch h.2)

/-- The page that a request asks for is there. -/
def Files.Finds (fs : Files) (item : SharedItem) (requestedFolderId : Option String) : Prop :=
  match item with
  | .file _ => True
  | .folder rootFolder =>
    ∃ found, fs.findPublicFolder rootFolder (fs.targetMap (.folder rootFolder)) requestedFolderId = .ok found

/-- The shared item itself always is. -/
theorem finds_of_not_namesFolder {item : SharedItem} (h : fs.Target share item)
    (hnames : ¬ NamesFolder share requestedFolderId) : fs.Finds item requestedFolderId := by
  cases item with
  | file f => trivial
  | folder rootFolder =>
    have hrow := h.isRow
    have hid := (folderOf_eq_some hrow.2).1
    have hroot : requestedFolderId.getD rootFolder.id = rootFolder.id := by
      cases requestedFolderId with
      | none => rfl
      | some id =>
        by_contra hne
        exact hnames ⟨hrow.1, id, rfl, fun heq => hne (heq.trans hid.symm)⟩
    refine ⟨_, findPublicFolder_eq (if_pos hroot) ?_ h.isLive ?_ h.readable_of_mem⟩
    · rw [hroot]
      exact h.get_targetMap
    · exact targetMap_covers.isFolderWithinRoot_iff.2 ⟨rootFolder, rootFolder, h.get_targetMap, .refl, rfl⟩

/-- So is a folder in the shared one. -/
theorem finds_child {id : String} (h : fs.Target share (.folder rootFolder)) (hne : id ≠ rootFolder.id)
    (hrow : fs.folderOf rootFolder.ownerUserId id = some folder) (hlive : folder.item.live = true)
    (hparent : folder.item.parentId = some rootFolder.id) (hstate : fs.state folder.id = none) :
    fs.Finds (.folder rootFolder) (some id) := by
  have hid := (folderOf_eq_some hrow).1
  have hhas := has_of_folderOf hrow
  have hroot : fs.Has rootFolder.ownerUserId rootFolder :=
    targetMap_covers.row rootFolder.id rootFolder h.get_targetMap
  have hup : fs.parent folder = some rootFolder := (parent_eq_some hhas).2 ⟨hparent, hroot⟩
  -- what lies above the child is the child, or lies above the root
  have hway : ∀ {above}, AtOrAbove fs.parent folder above → above = folder ∨
      AtOrAbove fs.parent rootFolder above := by
    intro above habove
    rcases Relation.ReflTransGen.cases_head habove with rfl | ⟨next, hnext, habove⟩
    · exact .inl rfl
    · have hnext : fs.parent folder = some next := hnext
      rw [hup] at hnext
      cases hnext
      exact .inr habove
  have hadded : ∀ x ∈ fs.listFolderAncestors rootFolder.ownerUserId [id],
      fs.Has rootFolder.ownerUserId x := fun x hx => has_of_mem_ancestors hx
  have hcovers := targetMap_covers.add hadded fun x hx y hy => ancestors_closed hx hy
  have hget : ((fs.targetMap (.folder rootFolder)).add
      (fs.listFolderAncestors rootFolder.ownerUserId [id])).get id = some folder := by
    refine (FolderMap.get_add targetMap_covers.row hadded).2 (.inl ⟨?_, hid⟩)
    exact mem_listFolderAncestors.2 ⟨folder, hrow, .refl⟩
  have hself := (hcovers.self hget).2
  refine ⟨_, findPublicFolder_eq (if_neg hne) hget ?_ ?_ ?_⟩
  · refine (hcovers.isFolderDeletedInTree_eq_false hself).2 ?_
    intro above habove
    rcases hway habove with rfl | habove
    · exact hlive
    · exact (targetMap_covers.isFolderDeletedInTree_eq_false h.get_targetMap).1 h.isLive above habove
  · exact hcovers.isFolderWithinRoot_iff.2 ⟨folder, rootFolder, hself, .single hup, rfl⟩
  · intro entry hentry
    have hmem := (OrderedMap.get_eq_some_iff _ entry.1 entry.2).2 hentry
    rcases (FolderMap.get_add targetMap_covers.row hadded).1 hmem with ⟨hmem, -⟩ | hmem
    · obtain ⟨start, hstart, habove⟩ := mem_listFolderAncestors.1 hmem
      rw [hrow] at hstart
      cases hstart
      rcases hway habove with heq | habove
      · rw [heq]
        exact hstate
      · refine h.readable.2 entry.2 (mem_listFolderAncestors.2 ⟨rootFolder, hroot, habove⟩)
    · exact h.readable_of_mem entry ((OrderedMap.get_eq_some_iff _ entry.1 entry.2).1 hmem)

/-- A folder that the owner does not have is not there. -/
theorem findPublicFolder_missing {id : String} (hne : id ≠ rootFolder.id)
    (hrow : fs.folderOf rootFolder.ownerUserId id = none) :
    fs.findPublicFolder rootFolder (fs.targetMap (.folder rootFolder)) (some id) =
      .error (.share .accessDenied) := by
  refine findPublicFolder_absent ?_
  unfold Files.searched
  rw [Option.getD_some, if_neg hne]
  cases hget : ((fs.targetMap (.folder rootFolder)).add
      (fs.listFolderAncestors rootFolder.ownerUserId [id])).get id with
  | none => rfl
  | some folder =>
    have hcovers : ((fs.targetMap (.folder rootFolder)).add
        (fs.listFolderAncestors rootFolder.ownerUserId [id])).Covers fs rootFolder.ownerUserId :=
      targetMap_covers.add (fun x hx => has_of_mem_ancestors hx) fun x hx y hy => ancestors_closed hx hy
    rw [hcovers.row id folder hget] at hrow
    cases hrow

/-! ## Every answer of a locked link -/

/-- The pages of the shared item. -/
def ContextItem.Of (page : ContextItem) (item : SharedItem) : Prop :=
  match item with
  | .file f => page = .file f
  | .folder rootFolder => ∃ currentFolder, page = .folder rootFolder currentFolder

theorem status_eq_active (h : w.getValidatedPublicShare rt token = .ok share) :
    getShareStatus share false w.now = .active := by
  obtain ⟨-, -, -, -, hrevoked, hexpired⟩ := getValidatedPublicShare_eq_ok.1 h
  unfold getShareStatus
  simp [hrevoked, Nat.not_le.2 hexpired]

section Locked

variable {item : SharedItem} (hvalid : w.getValidatedPublicShare rt token = .ok share)
  (htarget : w.files.Target share item) (hlocked : World.isUnlocked rt cookie share = false)

include hvalid htarget hlocked

theorem resolvePublicFile_locked (fileId : Option String) (download : Bool) :
    w.resolvePublicFile rt token cookie fileId download = .error (.share
      (if share.targetType = (if fileId = none then .file else .folder) then .passwordRequired
        else .accessDenied)) := by
  unfold World.resolvePublicFile
  rw [resolvePublicTarget_eq hvalid htarget]
  by_cases htype : share.targetType = (if fileId = none then .file else .folder)
  · simp [bind, Except.bind, htype, hlocked]
  · simp [bind, Except.bind, htype]

theorem archive_locked : Answer.of (w.archiveAnswer rt token cookie) = lockedFile share .folder := by
  have hrow := htarget.isRow
  unfold World.archiveAnswer World.createFolderArchive lockedFile
  rw [resolvePublicTarget_eq hvalid htarget]
  cases item with
  | file f => simp [bind, Except.bind, Answer.of, hrow.1]
  | folder f => simp [bind, Except.bind, Answer.of, hrow.1, hlocked]

theorem resolvePublicContext_locked {requestedFolderId : Option String}
    (hfinds : w.files.Finds item requestedFolderId) : ∃ page folderMap, page.Of item ∧
      w.resolvePublicContext rt token cookie requestedFolderId =
        .ok ⟨share, .active, false, page, folderMap⟩ := by
  unfold World.resolvePublicContext
  rw [resolvePublicTarget_eq hvalid htarget]
  cases item with
  | file f =>
    refine ⟨.file f, w.files.targetMap (.file f), rfl, ?_⟩
    simp only [bind, Except.bind, status_eq_active hvalid, hlocked]
  | folder rootFolder =>
    obtain ⟨⟨currentFolder, folderMap⟩, hfound⟩ := hfinds
    refine ⟨.folder rootFolder currentFolder, folderMap, ⟨currentFolder, rfl⟩, ?_⟩
    simp only [bind, Except.bind, hfound, status_eq_active hvalid, hlocked]

theorem resolvePublicShare_locked {requestedFolderId : Option String}
    (hfinds : w.files.Finds item requestedFolderId) :
    ∃ resolved, w.resolvePublicShare rt token cookie requestedFolderId =
      .ok ⟨share, .active, false, resolved⟩ ∧
      match item with
      | .file f => resolved = .file f
      | .folder _ => ∃ listing, resolved = .folder listing := by
  obtain ⟨page, folderMap, hpage, hcontext⟩ := resolvePublicContext_locked hvalid htarget hlocked hfinds
  unfold World.resolvePublicShare
  rw [hcontext]
  cases item with
  | file f =>
    obtain rfl := hpage
    exact ⟨_, rfl, rfl⟩
  | folder rootFolder =>
    obtain ⟨currentFolder, rfl⟩ := hpage
    exact ⟨_, rfl, _, rfl⟩

omit hvalid htarget in
theorem hasPassword_of_locked : share.passwordHash.isSome = true := by
  cases hhash : share.passwordHash with
  | none =>
    unfold World.isUnlocked at hlocked
    rw [hhash] at hlocked
    cases hlocked
  | some passwordHash => rfl

theorem thumbnail_locked (fileId : String) :
    Answer.ofImage (w.createShareThumbnailResponse rt token cookie fileId) =
      if share.targetType = .file then .thumbnailUnavailable else .posterUnavailable := by
  obtain ⟨resolved, hresolved, hitem⟩ := resolvePublicShare_locked hvalid htarget hlocked
    (finds_of_not_namesFolder htarget not_namesFolder_none)
  have hrow := htarget.isRow
  unfold World.createShareThumbnailResponse
  rw [hresolved]
  cases item with
  | file f =>
    obtain rfl := hitem
    rw [hrow.1]
    rfl
  | folder f =>
    obtain ⟨listing, rfl⟩ := hitem
    have hfile := resolvePublicFile_locked hvalid htarget hlocked (some fileId) false
    simp only [bind, Except.bind, hfile, hrow.1]
    rfl

theorem viewAnswer_locked {requestedFolderId : Option String}
    (hfinds : w.files.Finds item requestedFolderId) : w.viewAnswer rt token cookie requestedFolderId =
      .ok (.view .locked (match item with
        | .file f => isNativeViewSafe f none
        | .folder _ => false) 0) := by
  obtain ⟨resolved, hresolved, hitem⟩ := resolvePublicShare_locked hvalid htarget hlocked hfinds
  have hpassword := hasPassword_of_locked hlocked
  unfold World.viewAnswer
  rw [hresolved]
  cases item with
  | file f =>
    obtain rfl := hitem
    simp [bind, Except.bind, toPublicShareView, hpassword]
  | folder rootFolder =>
    obtain ⟨listing, rfl⟩ := hitem
    simp [bind, Except.bind, toPublicShareView, hpassword]

theorem checkStorage_locked {fileId folderId : Option String}
    (hfinds : truthy fileId = none → w.files.Finds item folderId) :
    Answer.ofCheck (w.checkStorage rt token cookie fileId folderId) =
      if truthy fileId = none then .toLink else lockedFile share .folder := by
  unfold World.checkStorage
  cases htruthy : truthy fileId with
  | none =>
    obtain ⟨resolved, hresolved, -⟩ := resolvePublicShare_locked hvalid htarget hlocked (hfinds htruthy)
    rw [hresolved]
    rfl
  | some id =>
    show Answer.ofCheck (w.resolvePublicFile rt token cookie (some id) false >>= fun _ => .ok ()) = _
    rw [resolvePublicFile_locked hvalid htarget hlocked]
    rfl

theorem fileViewAnswer_locked (fileId : String) : Answer.of (w.fileViewAnswer rt token cookie fileId) =
    if share.targetType = .file then .failure (.share .accessDenied) else .lockedFile := by
  obtain ⟨page, folderMap, hpage, hcontext⟩ := resolvePublicContext_locked hvalid htarget hlocked
    (finds_of_not_namesFolder htarget not_namesFolder_none)
  have hpassword := hasPassword_of_locked hlocked
  have hrow := htarget.isRow
  unfold World.fileViewAnswer
  rw [hcontext]
  cases item with
  | file f =>
    obtain rfl := hpage
    simp [bind, Except.bind, Answer.of, hrow.1]
  | folder rootFolder =>
    obtain ⟨currentFolder, rfl⟩ := hpage
    simp [bind, Except.bind, Answer.of, hrow.1, hpassword]

/-- Where the folder is not to be had, the page has no details either. -/
theorem pageAnswer_locked (fileId folderId : Option String) :
    w.pageAnswer rt token cookie fileId folderId = .page .generic := by
  unfold World.pageAnswer World.metadata
  cases hcontext : w.resolvePublicContext rt token cookie folderId with
  | error e => rfl
  | ok context =>
    obtain ⟨target, hres, hshare, -, -⟩ := resolvePublicContext_spec hcontext
    have hvalid' := hres.valid
    rw [hvalid] at hvalid'
    cases hvalid'
    have hpassword : context.share.passwordHash.isSome = true := hshare ▸ hasPassword_of_locked hlocked
    simp [bind, Except.bind, hpassword]

end Locked

theorem answer_of_locked {visit : Visit} {item : SharedItem}
    (hvalid : w.getValidatedPublicShare rt visit.token = .ok share) (htarget : w.files.Target share item)
    (hlocked : World.isUnlocked rt visit.cookie share = false) (hlooks : ¬ LooksInside share visit.route) :
    w.answer rt visit = lockedAnswer share visit.route := by
  have hfile := resolvePublicFile_locked hvalid htarget hlocked
  unfold World.answer
  cases hroute : visit.route <;> rw [hroute] at hlooks <;> unfold lockedAnswer <;> simp only
  case content =>
    unfold World.contentAnswer
    rw [hfile]
    rfl
  case nestedContent fileId =>
    unfold World.contentAnswer
    rw [hfile]
    rfl
  case download =>
    unfold World.downloadAnswer
    rw [hfile]
    rfl
  case nestedDownload fileId =>
    unfold World.downloadAnswer
    rw [hfile]
    rfl
  case archive => exact archive_locked hvalid htarget hlocked
  case poster =>
    unfold World.createSharePosterResponse
    rw [hfile]
    rfl
  case nestedPoster fileId =>
    unfold World.createSharePosterResponse
    rw [hfile]
    rfl
  case thumbnail fileId => exact thumbnail_locked hvalid htarget hlocked fileId
  case preview =>
    unfold World.previewAnswer
    rw [hfile]
    rfl
  case nestedPreview fileId =>
    unfold World.previewAnswer
    rw [hfile]
    rfl
  case storageUnavailable fileId folderId =>
    exact checkStorage_locked hvalid htarget hlocked fun htruthy =>
      finds_of_not_namesFolder htarget fun hnames => hlooks ⟨htruthy, hnames⟩
  case view folderId =>
    rw [viewAnswer_locked hvalid htarget hlocked (finds_of_not_namesFolder htarget
      fun hnames => hlooks (.inr hnames))]
    cases item with
    | file f => exact absurd (.inl htarget.isRow.1) hlooks
    | folder rootFolder => rfl
  case fileView fileId => exact fileViewAnswer_locked hvalid htarget hlocked fileId
  case page => exact pageAnswer_locked hvalid htarget hlocked none none
  case folderPage folderId => exact pageAnswer_locked hvalid htarget hlocked none (some folderId)
  case filePage fileId => exact pageAnswer_locked hvalid htarget hlocked (some fileId) none

end Staaash.Sharing
