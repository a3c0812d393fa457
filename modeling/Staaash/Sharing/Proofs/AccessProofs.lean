import Staaash.Sharing.Proofs.TreesProofs

/-!
# Access

What it takes to get past each check. `resolvePublicTarget` settles the link and the shared item, the other
functions where a requested item lies.
-/

namespace Staaash.Sharing

open Staaash.Library
open Staaash.Planner (ItemType)

variable {rt : Runtime} {w : World} {fs : Files} {token : String} {cookie : Option String}
  {share : ShareLink} {owner : String}

/-! ## Calls that may fail -/

section Outcomes

variable {α β : Type} {x : Outcome α} {f : α → Outcome β} {e : Failure} {b : β}

theorem bind_eq_ok : (x >>= f) = .ok b ↔ ∃ a, x = .ok a ∧ f a = .ok b := by
  cases x with
  | error e =>
    constructor
    · intro h
      cases h
    · rintro ⟨a, ha, -⟩
      cases ha
  | ok a =>
    constructor
    · exact fun h => ⟨a, rfl, h⟩
    · rintro ⟨a', ha, h⟩
      cases ha
      exact h

theorem unless_eq_ok {o : Option β} : e.unless o = .ok b ↔ o = some b := by
  cases o with
  | none => exact ⟨fun h => (by cases h), fun h => (by cases h)⟩
  | some b' =>
    show Except.ok b' = .ok b ↔ _
    rw [Except.ok.injEq, Option.some.injEq]

theorem guard_eq_ok {c : Prop} [Decidable c] {y : Outcome β} :
    (if c then Except.error e >>= f else y) = .ok b ↔ ¬ c ∧ y = .ok b := by
  by_cases hc : c
  · rw [if_pos hc]
    exact ⟨fun h => (by cases h), fun h => absurd hc h.1⟩
  · rw [if_neg hc]
    exact ⟨fun h => ⟨hc, h⟩, And.right⟩

theorem else_eq_ok {c : Prop} [Decidable c] {y : Outcome β} :
    (if c then Except.error e else y) = .ok b ↔ ¬ c ∧ y = .ok b := by
  by_cases hc : c
  · rw [if_pos hc]
    exact ⟨fun h => (by cases h), fun h => absurd hc h.1⟩
  · rw [if_neg hc]
    exact ⟨fun h => ⟨hc, h⟩, And.right⟩

end Outcomes

/-! ## The link and its item -/

theorem getValidatedPublicShare_eq_ok : w.getValidatedPublicShare rt token = .ok share ↔
    ∃ tokenLookupKey, getShareLookupKey token = some tokenLookupKey ∧
      w.shares.findShareByTokenLookupKey tokenLookupKey = some share ∧
      rt.hashOpaqueToken token = share.tokenHash ∧ share.revokedAt = none ∧ w.now < share.expiresAt := by
  unfold World.getValidatedPublicShare
  simp only [bind_eq_ok, unless_eq_ok, else_eq_ok]
  constructor
  · rintro ⟨key, hkey, share', hfind, hhash, hrevoked, hexpired, heq⟩
    cases heq
    exact ⟨key, hkey, hfind, Decidable.not_not.1 hhash, by simpa using hrevoked, by omega⟩
  · rintro ⟨key, hkey, hfind, hhash, hrevoked, hexpired⟩
    exact ⟨key, hkey, share, hfind, Decidable.not_not.2 hhash, by simp [hrevoked], by omega, rfl⟩

/-- The row of the shared item. -/
def SharedItem.IsRow (item : SharedItem) (fs : Files) (share : ShareLink) : Prop :=
  match item with
  | .file f => share.targetType = .file ∧ fs.fileOf share.createdByUserId share.targetId = some f
  | .folder f => share.targetType = .folder ∧ fs.folderOf share.createdByUserId share.targetId = some f

theorem isRow_of_findPublicTarget {item : SharedItem} (h : fs.findPublicTarget share = some item)
    (howner : item.ownerUserId = share.createdByUserId) : item.IsRow fs share := by
  unfold Files.findPublicTarget at h
  unfold SharedItem.IsRow ShareLink.targetId
  cases htype : share.targetType with
  | file =>
    rw [htype] at h
    obtain ⟨f, hfind, rfl⟩ := Option.map_eq_some_iff.1 h
    exact ⟨rfl, howner ▸ fileOf_of_findFileById hfind⟩
  | folder =>
    rw [htype] at h
    obtain ⟨f, hfind, rfl⟩ := Option.map_eq_some_iff.1 h
    exact ⟨rfl, howner ▸ folderOf_of_findFolderById hfind⟩

/-- What `resolvePublicTarget` has made sure of. -/
structure World.Resolves (rt : Runtime) (w : World) (token : String) (cookie : Option String)
    (target : PublicTarget) : Prop where
  valid : w.getValidatedPublicShare rt token = .ok target.share
  isUnlocked : target.isUnlocked = World.isUnlocked rt cookie target.share
  isRow : target.item.IsRow w.files target.share
  folderMap : target.folderMap =
    buildFolderMap (w.files.listFolderAncestors target.share.createdByUserId target.item.ancestorId.toList)
  live : target.item.isDeletedInTree target.folderMap = false

theorem resolves_of_resolvePublicTarget {target : PublicTarget}
    (h : w.resolvePublicTarget rt token cookie = .ok target) : w.Resolves rt token cookie target := by
  unfold World.resolvePublicTarget at h
  simp only [bind_eq_ok, unless_eq_ok, guard_eq_ok] at h
  obtain ⟨share, hvalid, root, -, item, hitem, hlive, -, -, -, -, heq⟩ := h
  cases heq
  obtain ⟨hfind, howner⟩ := Option.filter_eq_some_iff.1 hitem
  exact ⟨hvalid, rfl, isRow_of_findPublicTarget hfind (by simpa using howner), rfl, by simpa using hlive⟩

theorem wayLive_iff {id : String} {folder : Folder} (h : fs.folderOf owner id = some folder) :
    isFolderDeletedInTree folder (buildFolderMap (fs.listFolderAncestors owner [id])) = false ↔
      fs.WayLive owner id := by
  have hid := (folderOf_eq_some h).1
  have hget : (buildFolderMap (fs.listFolderAncestors owner [id])).get folder.id = some folder := by
    rw [hid]
    exact get_ancestors.2 h
  rw [(ancestors_cover owner id fs).isFolderDeletedInTree_eq_false hget]
  constructor
  · intro hlive folder' above hrow hup
    rw [h] at hrow
    cases hrow
    exact hlive above hup
  · exact fun hlive above hup => hlive folder above h hup

theorem isFileDeletedInTree_iff {file : File} :
    isFileDeletedInTree file (buildFolderMap (fs.listFolderAncestors owner file.item.parentId.toList)) = false ↔
      file.item.live = true ∧ ∀ folderId, file.item.parentId = some folderId → fs.WayLive owner folderId := by
  unfold isFileDeletedInTree
  rw [Bool.or_eq_false_iff, Bool.not_eq_false']
  refine and_congr_right fun _ => ?_
  cases hparent : file.item.parentId with
  | none => simp
  | some folderId =>
    rw [Option.bind_some, Option.any_eq_false, Option.toList_some]
    constructor
    · rintro h folderId' ⟨⟩
      intro folder above hrow hup
      exact (wayLive_iff hrow).1 (by simpa using h folder (get_ancestors.2 hrow)) folder above hrow hup
    · intro h folder hget
      have hrow := get_ancestors.1 hget
      rw [(wayLive_iff hrow).2 (h folderId rfl)]

theorem targetLive_iff {item : SharedItem} (h : item.IsRow fs share) :
    item.isDeletedInTree
      (buildFolderMap (fs.listFolderAncestors share.createdByUserId item.ancestorId.toList)) = false ↔
      fs.TargetLive share := by
  unfold SharedItem.IsRow at h
  unfold Files.TargetLive SharedItem.isDeletedInTree SharedItem.ancestorId
  cases item with
  | file f =>
    obtain ⟨htype, hrow⟩ := h
    rw [htype]
    show isFileDeletedInTree f _ = false ↔ _
    rw [isFileDeletedInTree_iff]
    constructor
    · exact fun hlive => ⟨f, hrow, hlive⟩
    · rintro ⟨f', hrow', hlive⟩
      rw [hrow] at hrow'
      cases hrow'
      exact hlive
  | folder f =>
    obtain ⟨htype, hrow⟩ := h
    rw [htype]
    show isFolderDeletedInTree f (buildFolderMap (fs.listFolderAncestors _ [f.id])) = false ↔ _
    rw [(folderOf_eq_some hrow).1, wayLive_iff hrow, hrow]
    exact ⟨fun hlive => ⟨rfl, hlive⟩, And.right⟩

/-! ## What is inside -/

variable {rootFolderId : String}

theorem inside_of_isFolderWithinRoot {id : String} {folder : Folder} {folderMap : FolderMap}
    (hcovers : folderMap.Covers fs owner) (hget : folderMap.get id = some folder)
    (hlive : isFolderDeletedInTree folder folderMap = false)
    (hwithin : isFolderWithinRoot id rootFolderId folderMap = true) : fs.Inside owner rootFolderId id := by
  obtain ⟨folder', rootFolder, hget', hway, rfl⟩ := hcovers.isFolderWithinRoot_iff.1 hwithin
  rw [hget] at hget'
  cases hget'
  obtain ⟨hhas, hself⟩ := hcovers.self hget
  rw [← (folderOf_eq_some (hcovers.row id folder hget)).1]
  exact inside_of_live hhas ((hcovers.isFolderDeletedInTree_eq_false hself).1 hlive) hway

theorem findSharedNestedFile_spec {fileId : String} {file : File}
    (h : fs.findSharedNestedFile owner rootFolderId fileId = .ok file) :
    fs.fileOf owner fileId = some file ∧ file.item.live = true ∧
      ∃ folderId, file.item.parentId = some folderId ∧ fs.Inside owner rootFolderId folderId := by
  unfold Files.findSharedNestedFile at h
  simp only [bind_eq_ok, unless_eq_ok, guard_eq_ok] at h
  obtain ⟨file', hfind, folderId, hparent, hkept, -, -, -, -, heq⟩ := h
  cases heq
  obtain ⟨hfind, howner⟩ := Option.filter_eq_some_iff.1 hfind
  have howner : file.ownerUserId = owner := by simpa using howner
  have hrow := howner ▸ fileOf_of_findFileById hfind
  rw [Bool.or_eq_true, not_or, Bool.not_eq_true, Bool.not_eq_true, Bool.not_eq_false'] at hkept
  obtain ⟨hlive, hwithin⟩ := hkept
  have hdeleted : isFileDeletedInTree file
      (buildFolderMap (fs.listFolderAncestors owner file.item.parentId.toList)) = false := by
    rw [hparent]
    exact hlive
  obtain ⟨hfile, hway⟩ := isFileDeletedInTree_iff.1 hdeleted
  obtain ⟨folder, above, hget, -, -⟩ := (ancestors_cover owner folderId fs).isFolderWithinRoot_iff.1 hwithin
  have hfolder := (wayLive_iff (get_ancestors.1 hget)).2 (hway folderId hparent)
  exact ⟨hrow, hfile, folderId, hparent,
    inside_of_isFolderWithinRoot (ancestors_cover owner folderId fs) hget hfolder hwithin⟩

theorem findPublicFolder_spec {rootFolder folder : Folder} {folderMap folderMap' : FolderMap}
    {requestedFolderId : Option String} (hcovers : folderMap.Covers fs rootFolder.ownerUserId)
    (h : fs.findPublicFolder rootFolder folderMap requestedFolderId = .ok (folder, folderMap')) :
    fs.Inside rootFolder.ownerUserId rootFolder.id folder.id := by
  unfold Files.findPublicFolder at h
  simp only [bind_eq_ok, unless_eq_ok, guard_eq_ok] at h
  obtain ⟨current, hget, hkept, -, -, heq⟩ := h
  cases heq
  rw [Bool.or_eq_true, not_or, Bool.not_eq_true, Bool.not_eq_true, Bool.not_eq_false'] at hkept
  have hcovers' : FolderMap.Covers (if requestedFolderId.getD rootFolder.id = rootFolder.id then folderMap
      else folderMap.add (fs.listFolderAncestors rootFolder.ownerUserId
        [requestedFolderId.getD rootFolder.id])) fs rootFolder.ownerUserId := by
    split
    · exact hcovers
    · exact hcovers.add (fun _ h => has_of_mem_ancestors h) fun _ h _ hup => ancestors_closed h hup
  exact inside_of_isFolderWithinRoot hcovers' (hcovers'.self hget).2 hkept.1 hkept.2

/-! ## What is given -/

/-- The link is open to the visitor, and the files lie where they may. -/
def World.Gives (rt : Runtime) (w : World) (token : String) (cookie : Option String) (ids : List String) :
    Prop :=
  ∃ target, w.Resolves rt token cookie target ∧ target.isUnlocked = true ∧
    ∀ id ∈ ids, w.files.Confined target.share id

theorem World.Resolves.covers {target : PublicTarget} (h : w.Resolves rt token cookie target) {folder : Folder}
    (hitem : target.item = .folder folder) : target.folderMap.Covers w.files folder.ownerUserId ∧
      folder.ownerUserId = target.share.createdByUserId ∧ folder.id = target.share.targetId ∧
      target.share.targetType = .folder := by
  have hrow := h.isRow
  rw [hitem] at hrow
  obtain ⟨hid, howner⟩ := folderOf_eq_some hrow.2
  rw [h.folderMap, hitem, howner]
  exact ⟨ancestors_cover _ _ _, rfl, hid, hrow.1⟩

theorem World.Resolves.confined_item {target : PublicTarget} (h : w.Resolves rt token cookie target)
    {file : File} (hitem : target.item = .file file) : w.files.Confined target.share file.id := by
  have hrow := h.isRow
  have hlive := (targetLive_iff h.isRow).1 (h.folderMap ▸ h.live)
  rw [hitem] at hrow
  obtain ⟨htype, hfile⟩ := hrow
  unfold Files.TargetLive at hlive
  rw [htype] at hlive
  obtain ⟨file', hfile', hitemLive, -⟩ := hlive
  rw [hfile] at hfile'
  cases hfile'
  have hid := (fileOf_eq_some hfile).1
  unfold Files.Confined
  rw [htype, hid]
  exact ⟨file, hfile, hitemLive, rfl⟩

theorem confined_of_inside {file : File} (htype : share.targetType = .folder)
    (hfile : fs.fileOf share.createdByUserId file.id = some file) (hlive : file.item.live = true)
    {folderId : String} (hparent : file.item.parentId = some folderId)
    (hinside : fs.Inside share.createdByUserId share.targetId folderId) : fs.Confined share file.id := by
  unfold Files.Confined
  rw [htype]
  exact ⟨file, hfile, hlive, folderId, hparent, hinside⟩

theorem resolvePublicFile_spec {fileId : Option String} {download : Bool} {file : File}
    (h : w.resolvePublicFile rt token cookie fileId download = .ok (file, share)) :
    w.Gives rt token cookie [file.id] := by
  unfold World.resolvePublicFile at h
  simp only [bind_eq_ok, guard_eq_ok] at h
  obtain ⟨target, htarget, -, hunlocked, -, hitem⟩ := h
  have hres := resolves_of_resolvePublicTarget htarget
  refine ⟨target, hres, by simpa using hunlocked, ?_⟩
  rw [List.forall_mem_singleton]
  cases heq : target.item with
  | file f =>
    rw [heq] at hitem
    cases fileId <;> cases hitem <;> exact hres.confined_item heq
  | folder rootFolder =>
    rw [heq] at hitem
    cases fileId with
    | none => cases hitem
    | some fileId =>
      obtain ⟨file', hfind, hpair⟩ := bind_eq_ok.1 hitem
      cases hpair
      obtain ⟨hrow, hlive, folderId, hparent, hinside⟩ := findSharedNestedFile_spec hfind
      obtain ⟨-, -, hid, htype⟩ := hres.covers heq
      rw [hid] at hinside
      exact confined_of_inside htype ((fileOf_eq_some hrow).1 ▸ hrow) hlive hparent hinside

theorem createFolderArchive_spec {rootFolder : Folder} {folders : List Folder} {files : List File}
    (h : w.createFolderArchive rt token cookie = .ok (rootFolder, folders, files)) :
    w.Gives rt token cookie (files.map File.id) := by
  unfold World.createFolderArchive at h
  obtain ⟨target, htarget, h⟩ := bind_eq_ok.1 h
  have hres := resolves_of_resolvePublicTarget htarget
  cases heq : target.item with
  | file f => rw [heq] at h; cases h
  | folder root =>
    rw [heq] at h
    simp only [bind_eq_ok, guard_eq_ok] at h
    obtain ⟨hunlocked, -, -, -, -, -, -, -, hpair⟩ := h
    cases hpair
    refine ⟨target, hres, by simpa using hunlocked, ?_⟩
    intro id hid
    obtain ⟨file, hfile, rfl⟩ := List.mem_map.1 hid
    obtain ⟨hrow, hkept⟩ := List.mem_filter.1 hfile
    obtain ⟨hlive, hfolder⟩ := Bool.and_eq_true_iff.1 hkept
    obtain ⟨folderId, hparent, hcontains⟩ := (Option.any_eq_true _ _).1 hfolder
    obtain ⟨folder, hmem, rfl⟩ := List.mem_map.1 (List.contains_iff_mem.1 hcontains)
    obtain ⟨-, -, hroot, htype⟩ := hres.covers heq
    have hinside := inside_of_mem_sharedFolders hmem
    rw [hroot] at hinside
    exact confined_of_inside htype (mem_filesOf.1 hrow) hlive hparent hinside

/-- A page of the link shows the shared file, or a folder inside the shared one. -/
def ContextItem.Within (item : ContextItem) (fs : Files) (target : PublicTarget) : Prop :=
  match item with
  | .file f => target.item = .file f
  | .folder rootFolder currentFolder => target.item = .folder rootFolder ∧
    fs.Inside target.share.createdByUserId target.share.targetId currentFolder.id

theorem resolvePublicContext_spec {requestedFolderId : Option String} {context : PublicShareContext}
    (h : w.resolvePublicContext rt token cookie requestedFolderId = .ok context) :
    ∃ target, w.Resolves rt token cookie target ∧ context.share = target.share ∧
      context.isUnlocked = target.isUnlocked ∧ context.item.Within w.files target := by
  unfold World.resolvePublicContext at h
  obtain ⟨target, htarget, h⟩ := bind_eq_ok.1 h
  have hres := resolves_of_resolvePublicTarget htarget
  cases heq : target.item with
  | file f =>
    rw [heq] at h
    cases h
    exact ⟨target, hres, rfl, rfl, heq⟩
  | folder rootFolder =>
    rw [heq] at h
    obtain ⟨⟨currentFolder, folderMap⟩, hfind, hcontext⟩ := bind_eq_ok.1 h
    cases hcontext
    obtain ⟨hcovers, howner, hid, -⟩ := hres.covers heq
    have hinside := findPublicFolder_spec hcovers hfind
    rw [howner, hid] at hinside
    exact ⟨target, hres, rfl, rfl, heq, hinside⟩

/-- The same with the files of a listing, which lie in the folder. -/
def ResolvedItem.Within (item : ResolvedItem) (fs : Files) (target : PublicTarget) : Prop :=
  match item with
  | .file f => target.item = .file f
  | .folder listing => target.share.targetType = .folder ∧
    fs.Inside target.share.createdByUserId target.share.targetId listing.currentFolder.id ∧
    ∀ file ∈ listing.files, file ∈ fs.listChildFiles target.share.createdByUserId listing.currentFolder.id

theorem resolvePublicShare_spec {requestedFolderId : Option String} {resolution : PublicShareResolution}
    (h : w.resolvePublicShare rt token cookie requestedFolderId = .ok resolution) :
    ∃ target, w.Resolves rt token cookie target ∧ resolution.share = target.share ∧
      resolution.isUnlocked = target.isUnlocked ∧ resolution.item.Within w.files target := by
  unfold World.resolvePublicShare at h
  obtain ⟨context, hcontext, h⟩ := bind_eq_ok.1 h
  obtain ⟨target, hres, hshare, hunlocked, hwithin⟩ := resolvePublicContext_spec hcontext
  refine ⟨target, hres, ?_⟩
  unfold ContextItem.Within at hwithin
  cases heq : context.item with
  | file f =>
    rw [heq] at h hwithin
    cases h
    exact ⟨hshare, hunlocked, hwithin⟩
  | folder rootFolder currentFolder =>
    rw [heq] at h hwithin
    obtain ⟨hroot, hinside⟩ := hwithin
    obtain ⟨-, -, -, htype⟩ := hres.covers hroot
    cases hlocked : context.isUnlocked with
    | true =>
      rw [hlocked] at h hunlocked
      simp only [if_true, bind_eq_ok] at h
      obtain ⟨-, -, -, -, hresolution⟩ := h
      cases hresolution
      refine ⟨hshare, hunlocked, htype, hinside, ?_⟩
      rw [← hshare]
      exact fun file hfile => hfile
    | false =>
      rw [hlocked] at h hunlocked
      simp only [if_false, Bool.false_eq_true] at h
      cases h
      exact ⟨hshare, hunlocked, htype, hinside, fun file hfile => nomatch hfile⟩

theorem confined_of_mem_listChildFiles {file : File} {folderId : String} (htype : share.targetType = .folder)
    (hinside : fs.Inside share.createdByUserId share.targetId folderId)
    (h : file ∈ fs.listChildFiles share.createdByUserId folderId) : fs.Confined share file.id := by
  obtain ⟨hrow, hkept⟩ := List.mem_filter.1 h
  obtain ⟨hlive, hparent⟩ := Bool.and_eq_true_iff.1 hkept
  exact confined_of_inside htype (mem_filesOf.1 hrow) hlive (by simpa using hparent) hinside

/-! ## Every answer -/

/-- A link without a password is open. -/
theorem isUnlocked_of_not_locked {target : PublicTarget} (hres : w.Resolves rt token cookie target)
    (h : (target.share.passwordHash.isSome && !target.isUnlocked) = false) : target.isUnlocked = true := by
  cases hhash : target.share.passwordHash with
  | none =>
    rw [hres.isUnlocked]
    unfold World.isUnlocked
    rw [hhash]
    rfl
  | some passwordHash =>
    rw [hhash] at h
    simpa using h

theorem gives_of_view {requestedFolderId : Option String} {resolution : PublicShareResolution}
    (h : w.resolvePublicShare rt token cookie requestedFolderId = .ok resolution) {ids : List String}
    (hids : (toPublicShareView resolution).fileIds = some ids) : w.Gives rt token cookie ids := by
  obtain ⟨target, hres, hshare, hunlocked, hwithin⟩ := resolvePublicShare_spec h
  unfold toPublicShareView at hids
  rw [hshare, hunlocked] at hids
  split at hids
  · cases hids
  · rename_i hopen
    refine ⟨target, hres, isUnlocked_of_not_locked hres (by simpa using hopen), ?_⟩
    unfold ResolvedItem.Within at hwithin
    cases heq : resolution.item with
    | file f =>
      rw [heq] at hids hwithin
      cases hids
      rw [List.forall_mem_singleton]
      exact hres.confined_item hwithin
    | folder listing =>
      rw [heq] at hids hwithin
      cases hids
      obtain ⟨htype, hinside, hfiles⟩ := hwithin
      intro id hid
      simp only [List.map_map, List.mem_map] at hid
      obtain ⟨file, hfile, rfl⟩ := hid
      exact confined_of_mem_listChildFiles htype hinside (hfiles file hfile)

theorem fileIds_of {x : Outcome Answer} {ids : List String} (h : (Answer.of x).fileIds = some ids) :
    ∃ answer, x = .ok answer ∧ answer.fileIds = some ids := by
  cases x with
  | error e => cases h
  | ok answer => exact ⟨answer, rfl, h⟩

theorem fileIds_ofImage {x : Outcome Answer} {ids : List String} (h : (Answer.ofImage x).fileIds = some ids) :
    ∃ answer, x = .ok answer ∧ answer.fileIds = some ids := by
  cases x with
  | error e => cases e <;> cases h
  | ok answer => exact ⟨answer, rfl, h⟩

theorem fileIds_ofCheck {x : Outcome Unit} : (Answer.ofCheck x).fileIds = none := by
  cases x with
  | error e => cases e <;> rfl
  | ok => rfl

theorem fileIds_of_serveDerivative {file : File} {derivative : Derivative} {downloadDisabled : Bool}
    {answer : Answer} {ids : List String}
    (h : fs.serveDerivative file derivative downloadDisabled = .ok answer) (hids : answer.fileIds = some ids) :
    ids = [file.id] := by
  unfold Files.serveDerivative at h
  split at h
  · cases h
  · split at h
    · cases h
      cases hids
      rfl
    · cases h
      cases hids

section Answers

variable {answer : Answer} {ids : List String} (hids : answer.fileIds = some ids)

include hids

theorem gives_of_content {fileId : Option String} (h : w.contentAnswer rt token cookie fileId = .ok answer) :
    w.Gives rt token cookie ids := by
  obtain ⟨⟨file, share⟩, hfile, hanswer⟩ := bind_eq_ok.1 h
  cases hanswer
  cases hids
  exact resolvePublicFile_spec hfile

theorem gives_of_download {fileId : Option String} (h : w.downloadAnswer rt token cookie fileId = .ok answer) :
    w.Gives rt token cookie ids := by
  obtain ⟨⟨file, share⟩, hfile, hanswer⟩ := bind_eq_ok.1 h
  obtain ⟨-, -, hanswer⟩ := bind_eq_ok.1 hanswer
  cases hanswer
  cases hids
  exact resolvePublicFile_spec hfile

theorem gives_of_archive (h : w.archiveAnswer rt token cookie = .ok answer) :
    w.Gives rt token cookie ids := by
  obtain ⟨⟨rootFolder, folders, files⟩, harchive, hanswer⟩ := bind_eq_ok.1 h
  cases hanswer
  cases hids
  exact createFolderArchive_spec harchive

theorem gives_of_poster {fileId : Option String}
    (h : w.createSharePosterResponse rt token cookie fileId = .ok answer) : w.Gives rt token cookie ids := by
  obtain ⟨⟨file, share⟩, hfile, hanswer⟩ := bind_eq_ok.1 h
  simp only at hanswer
  split at hanswer
  · cases hanswer
    cases hids
  · obtain ⟨-, -, hanswer⟩ := bind_eq_ok.1 hanswer
    split at hanswer
    · cases hanswer
      cases hids
    · rw [fileIds_of_serveDerivative hanswer hids]
      exact resolvePublicFile_spec hfile

theorem gives_of_thumbnail {fileId : String}
    (h : w.createShareThumbnailResponse rt token cookie fileId = .ok answer) :
    w.Gives rt token cookie ids := by
  obtain ⟨resolution, -, h⟩ := bind_eq_ok.1 h
  split at h
  · cases h
    cases hids
  · split at h
    · cases h
      cases hids
    · obtain ⟨⟨file, share⟩, hfile, hanswer⟩ := bind_eq_ok.1 h
      obtain ⟨-, -, hanswer⟩ := bind_eq_ok.1 hanswer
      split at hanswer
      · cases hanswer
        cases hids
      · rw [fileIds_of_serveDerivative hanswer hids]
        exact resolvePublicFile_spec hfile

theorem gives_of_preview {fileId : Option String} (h : w.previewAnswer rt token cookie fileId = .ok answer) :
    w.Gives rt token cookie ids := by
  obtain ⟨⟨file, share⟩, -, hanswer⟩ := bind_eq_ok.1 h
  simp only at hanswer
  split at hanswer <;> cases hanswer <;> cases hids

theorem gives_of_viewAnswer {folderId : Option String}
    (h : w.viewAnswer rt token cookie folderId = .ok answer) : w.Gives rt token cookie ids := by
  obtain ⟨resolution, hresolution, h⟩ := bind_eq_ok.1 h
  split at h
  · obtain ⟨preview, -, hanswer⟩ := bind_eq_ok.1 h
    cases hanswer
    exact gives_of_view hresolution hids
  · cases h
    exact gives_of_view hresolution hids

theorem gives_of_fileView {fileId : String} (h : w.fileViewAnswer rt token cookie fileId = .ok answer) :
    w.Gives rt token cookie ids := by
  obtain ⟨resolution, -, h⟩ := bind_eq_ok.1 h
  split at h
  · cases h
  · split at h
    · cases h
      cases hids
    · obtain ⟨⟨file, share⟩, hfile, h⟩ := bind_eq_ok.1 h
      simp only at h
      split at h
      · cases h
        cases hids
      · obtain ⟨preview, -, hanswer⟩ := bind_eq_ok.1 h
        cases hanswer
        cases hids
        exact resolvePublicFile_spec hfile

omit hids in
theorem gives_of_metadata {fileId folderId : Option String} {target : ShareMetadataTarget}
    (h : w.metadata rt token cookie fileId folderId = .ok target)
    (hids : (Answer.page target).fileIds = some ids) : w.Gives rt token cookie ids := by
  obtain ⟨context, hcontext, h⟩ := bind_eq_ok.1 h
  split at h
  · cases h
    cases hids
  · rename_i hopen
    obtain ⟨resolved, hres, hshare, -, hwithin⟩ := resolvePublicContext_spec hcontext
    have hunlocked : resolved.isUnlocked = true := by
      refine isUnlocked_of_not_locked hres ?_
      rw [hshare, Bool.or_eq_true, not_or] at hopen
      simp [hopen.2]
    unfold ContextItem.Within at hwithin
    split at h
    · cases h
      cases hids
    · obtain ⟨⟨file, share⟩, hfile, hanswer⟩ := bind_eq_ok.1 h
      cases hanswer
      cases hids
      exact resolvePublicFile_spec hfile
    · rename_i hitem
      rw [hitem] at hwithin
      cases h
      cases hids
      exact ⟨resolved, hres, hunlocked, fun id hid => List.mem_singleton.1 hid ▸ hres.confined_item hwithin⟩
    · cases h
      cases hids
      exact ⟨resolved, hres, hunlocked, fun id hid => nomatch hid⟩

omit hids in
theorem gives_of_page {fileId folderId : Option String}
    (hids : (w.pageAnswer rt token cookie fileId folderId).fileIds = some ids) :
    w.Gives rt token cookie ids := by
  unfold World.pageAnswer at hids
  split at hids
  · rename_i hmetadata
    exact gives_of_metadata hmetadata hids
  · cases hids

omit hids in
theorem gives_of_answer {visit : Visit} (hids : (w.answer rt visit).fileIds = some ids) :
    w.Gives rt visit.token visit.cookie ids := by
  unfold World.answer at hids
  cases hroute : visit.route <;> simp only [hroute] at hids
  case content => obtain ⟨answer, h, hids⟩ := fileIds_of hids; exact gives_of_content hids h
  case nestedContent => obtain ⟨answer, h, hids⟩ := fileIds_of hids; exact gives_of_content hids h
  case download => obtain ⟨answer, h, hids⟩ := fileIds_of hids; exact gives_of_download hids h
  case nestedDownload => obtain ⟨answer, h, hids⟩ := fileIds_of hids; exact gives_of_download hids h
  case archive => obtain ⟨answer, h, hids⟩ := fileIds_of hids; exact gives_of_archive hids h
  case poster => obtain ⟨answer, h, hids⟩ := fileIds_ofImage hids; exact gives_of_poster hids h
  case nestedPoster => obtain ⟨answer, h, hids⟩ := fileIds_ofImage hids; exact gives_of_poster hids h
  case thumbnail => obtain ⟨answer, h, hids⟩ := fileIds_ofImage hids; exact gives_of_thumbnail hids h
  case preview => obtain ⟨answer, h, hids⟩ := fileIds_of hids; exact gives_of_preview hids h
  case nestedPreview => obtain ⟨answer, h, hids⟩ := fileIds_of hids; exact gives_of_preview hids h
  case storageUnavailable => rw [fileIds_ofCheck] at hids; cases hids
  case view => obtain ⟨answer, h, hids⟩ := fileIds_of hids; exact gives_of_viewAnswer hids h
  case fileView => obtain ⟨answer, h, hids⟩ := fileIds_of hids; exact gives_of_fileView hids h
  case page => exact gives_of_page hids
  case folderPage => exact gives_of_page hids
  case filePage => exact gives_of_page hids

end Answers

end Staaash.Sharing
