import Staaash.Sharing.Proofs.ConfinementProofs
import Staaash.Sharing.Proofs.LockedProofs

/-!
# Requests that look inside

For each request that looks inside, two states of one owner's files in which a locked link answers it
differently.
-/

namespace Staaash.Sharing

open Staaash.Library
open Staaash.Planner (ItemType)
open Staaash.Service (Item)

variable {rt : Runtime} {w : World} {fs : Files} {share : ShareLink} {root id : String}

/-! ## Files with nothing in the way -/

structure Files.Quiet (fs : Files) : Prop where
  mutations : ∀ owner s, fs.owners.get owner = some s → s.mutations = .empty
  legacyRecovery : fs.records.legacyRecovery = []
  folders : ∀ owner id folder, fs.folderOf owner id = some folder → folder.item.live = true

theorem Files.Quiet.state_eq_none (h : fs.Quiet) (id : String) : fs.state id = none := by
  refine Option.or_eq_none_iff.2 ⟨?_, ?_⟩
  · refine List.findSome?_eq_none_iff.2 ?_
    rintro ⟨owner, s⟩ hentry
    show Files.blockedBy id s.mutations = none
    rw [h.mutations owner s ((OrderedMap.get_eq_some_iff _ owner s).2 hentry)]
    rfl
  · unfold Files.legacyState
    rw [h.legacyRecovery]
    refine Option.bind_eq_none_iff.2 fun _ _ => rfl

theorem Files.Quiet.wayLive (h : fs.Quiet) (owner id : String) : fs.WayLive owner id := by
  intro folder above hrow hup
  have habove := (has_of_folderOf hrow).atOrAbove hup
  exact h.folders owner above.id above habove

theorem Files.Quiet.target_file (h : fs.Quiet) {file : File} (htype : share.targetType = .file)
    (hfound : fs.findPublicTarget share = some (.file file)) (howner : file.ownerUserId = share.createdByUserId)
    (hlive : file.item.live = true) : fs.Target share (.file file) where
  found := hfound
  owner := howner
  readable := ⟨h.state_eq_none _, fun _ _ => h.state_eq_none _⟩
  live := by
    have hrow := (isRow_of_findPublicTarget hfound howner).2
    unfold Files.TargetLive
    rw [htype]
    exact ⟨file, hrow, hlive, fun folderId _ => h.wayLive _ folderId⟩

theorem Files.Quiet.target_folder (h : fs.Quiet) {folder : Folder} (htype : share.targetType = .folder)
    (hfound : fs.findPublicTarget share = some (.folder folder))
    (howner : folder.ownerUserId = share.createdByUserId) : fs.Target share (.folder folder) where
  found := hfound
  owner := howner
  readable := ⟨h.state_eq_none _, fun _ _ => h.state_eq_none _⟩
  live := by
    have hrow := (isRow_of_findPublicTarget hfound howner).2
    unfold Files.TargetLive
    rw [htype, hrow]
    exact ⟨rfl, h.wayLive _ _⟩

/-! ## One owner -/

def itemIn (parentId : Option String) (type : ItemType) (name : String) : Item :=
  ⟨type, parentId, name, none, none, none, none, 0⟩

def ownerFiles (ownerUserId root mimeType : String) (items : OrderedMap String Item) : Files where
  owners := OrderedMap.empty.set ownerUserId (Service.World.start ⟨items, .empty, root⟩)
  records :=
    { columns := fun _ => ⟨mimeType, 1, true, 0⟩
      folderUpdatedAt := fun _ => 0
      findReadyDerivative := fun _ _ => none
      derivativeState := fun _ => none
      legacyRecovery := []
      isReadableDerivativeFile := fun _ => false
      getFolderSizeBytes := fun _ => 1 }

/-- The shared item in the files root. -/
def sharedItems (share : ShareLink) (root : String) : OrderedMap String Item :=
  (OrderedMap.empty.set root (itemIn none .folder "Files")).set share.targetId
    (itemIn (some root) share.targetType "shared")

/-- With a folder in it. -/
def nestedItems (share : ShareLink) (root id : String) : OrderedMap String Item :=
  (sharedItems share root).set id (itemIn (some share.targetId) .folder "nested")

variable {items : OrderedMap String Item} {item : Item}

theorem database_ownerFiles (owner root mimeType : String) (items : OrderedMap String Item) :
    (ownerFiles owner root mimeType items).database owner = some ⟨items, .empty, root⟩ := by
  unfold Files.database ownerFiles
  rw [OrderedMap.get_set, if_pos rfl]
  rfl

theorem folderOf_ownerFiles (owner root mimeType : String) (hitem : items.get id = some item)
    (htype : item.type = .folder) :
    (ownerFiles owner root mimeType items).folderOf owner id = some ⟨id, owner, item, 0⟩ := by
  unfold Files.folderOf Service.Database.folder
  rw [database_ownerFiles, Option.bind_some, hitem, Option.filter_some, if_pos (decide_eq_true htype)]
  rfl

theorem fileOf_ownerFiles (owner root mimeType : String) (hitem : items.get id = some item)
    (htype : item.type = .file) : (ownerFiles owner root mimeType items).fileOf owner id =
      some ⟨id, owner, item, ⟨mimeType, 1, true, 0⟩⟩ := by
  unfold Files.fileOf Service.Database.file
  rw [database_ownerFiles, Option.bind_some, hitem, Option.filter_some, if_pos (decide_eq_true htype)]
  rfl

theorem folderOf_ownerFiles_missing (owner root mimeType : String) (hitem : items.get id = none) :
    (ownerFiles owner root mimeType items).folderOf owner id = none := by
  unfold Files.folderOf Service.Database.folder
  rw [database_ownerFiles, Option.bind_some, hitem]
  rfl

theorem quiet_ownerFiles (owner root mimeType : String)
    (hlive : ∀ id item, items.get id = some item → item.live = true) :
    (ownerFiles owner root mimeType items).Quiet where
  mutations := by
    intro owner' s hget
    rcases OrderedMap.get_set_eq_some.1 hget with ⟨-, rfl⟩ | ⟨-, hget⟩
    · rfl
    · cases hget
  legacyRecovery := rfl
  folders := by
    intro owner' id folder hrow
    obtain ⟨db, hdb, hrow⟩ := Option.bind_eq_some_iff.1 hrow
    obtain ⟨s, hs, rfl⟩ := Option.map_eq_some_iff.1 hdb
    obtain ⟨item, hitem, rfl⟩ := Option.map_eq_some_iff.1 hrow
    rcases OrderedMap.get_set_eq_some.1 hs with ⟨-, rfl⟩ | ⟨-, hs⟩
    · exact hlive id item (Option.filter_eq_some_iff.1 hitem).1
    · cases hs

theorem target_ownerFiles_file (root mimeType : String) (htype : share.targetType = .file)
    (hlive : ∀ id item, items.get id = some item → item.live = true)
    (hitem : items.get share.targetId = some item) (hfile : item.type = .file) :
    (ownerFiles share.createdByUserId root mimeType items).Target share
      (.file ⟨share.targetId, share.createdByUserId, item, ⟨mimeType, 1, true, 0⟩⟩) := by
  have hquiet := quiet_ownerFiles share.createdByUserId root mimeType hlive
  refine hquiet.target_file htype ?_ rfl (hlive _ item hitem)
  have hkeys : (ownerFiles share.createdByUserId root mimeType items).owners.keys =
      [share.createdByUserId] := rfl
  have hid : share.fileId.getD "" = share.targetId := by
    unfold ShareLink.targetId
    rw [htype]
  unfold Files.findPublicTarget Files.findFileById
  rw [htype, hkeys]
  show Option.map SharedItem.file (List.findSome? _ [_]) = _
  rw [List.findSome?_singleton, hid, fileOf_ownerFiles _ root mimeType hitem hfile]
  rfl

theorem target_ownerFiles_folder (root mimeType : String) (htype : share.targetType = .folder)
    (hlive : ∀ id item, items.get id = some item → item.live = true)
    (hitem : items.get share.targetId = some item) (hfolder : item.type = .folder) :
    (ownerFiles share.createdByUserId root mimeType items).Target share
      (.folder ⟨share.targetId, share.createdByUserId, item, 0⟩) := by
  have hquiet := quiet_ownerFiles share.createdByUserId root mimeType hlive
  refine hquiet.target_folder htype ?_ rfl
  have hkeys : (ownerFiles share.createdByUserId root mimeType items).owners.keys =
      [share.createdByUserId] := rfl
  have hid : share.folderId.getD "" = share.targetId := by
    unfold ShareLink.targetId
    rw [htype]
  unfold Files.findPublicTarget Files.findFolderById
  rw [htype, hkeys]
  show Option.map SharedItem.folder (List.findSome? _ [_]) = _
  rw [List.findSome?_singleton, hid, folderOf_ownerFiles _ root mimeType hitem hfolder]
  rfl

/-! ## The shared item, and a folder in it -/

theorem sharedItems_live (id : String) (item : Item) (h : (sharedItems share root).get id = some item) :
    item.live = true := by
  rcases OrderedMap.get_set_eq_some.1 h with ⟨-, rfl⟩ | ⟨-, h⟩
  · rfl
  · rcases OrderedMap.get_set_eq_some.1 h with ⟨-, rfl⟩ | ⟨-, h⟩
    · rfl
    · cases h

theorem get_sharedItems : (sharedItems share root).get share.targetId =
    some (itemIn (some root) share.targetType "shared") := by
  unfold sharedItems
  rw [OrderedMap.get_set, if_pos rfl]

theorem nestedItems_live {nested : String} (id : String) (item : Item)
    (h : (nestedItems share root nested).get id = some item) : item.live = true := by
  rcases OrderedMap.get_set_eq_some.1 h with ⟨-, rfl⟩ | ⟨-, h⟩
  · rfl
  · exact sharedItems_live id item h

theorem get_nestedItems (hne : id ≠ share.targetId) : (nestedItems share root id).get share.targetId =
    some (itemIn (some root) share.targetType "shared") := by
  unfold nestedItems
  rw [OrderedMap.get_set, if_neg (Ne.symm hne), get_sharedItems]

/-- An id that neither of two others is. -/
theorem exists_id (id id' : String) : ∃ root : String, root ≠ id ∧ root ≠ id' := by
  have hlength : (id ++ id' ++ "/").length = id.length + id'.length + 1 := by
    rw [String.length_append, String.length_append]
    rfl
  refine ⟨id ++ id' ++ "/", ?_, ?_⟩
  · intro heq
    rw [heq] at hlength
    omega
  · intro heq
    rw [heq] at hlength
    omega

/-! ## Different answers -/

variable {token : String} {cookie : Option String}

def sharedFiles (share : ShareLink) (root mimeType : String) : Files :=
  ownerFiles share.createdByUserId root mimeType (sharedItems share root)

def nestedFiles (share : ShareLink) (root id : String) : Files :=
  ownerFiles share.createdByUserId root "" (nestedItems share root id)

def sharedFolder (share : ShareLink) (root : String) : Folder :=
  ⟨share.targetId, share.createdByUserId, itemIn (some root) share.targetType "shared", 0⟩

def sharedFile (share : ShareLink) (root mimeType : String) : File :=
  ⟨share.targetId, share.createdByUserId, itemIn (some root) share.targetType "shared", ⟨mimeType, 1, true, 0⟩⟩

theorem target_sharedFile (root mimeType : String) (htype : share.targetType = .file) :
    (sharedFiles share root mimeType).Target share (.file (sharedFile share root mimeType)) :=
  target_ownerFiles_file root mimeType htype sharedItems_live get_sharedItems htype

theorem target_sharedFolder (root : String) (htype : share.targetType = .folder) :
    (sharedFiles share root "").Target share (.folder (sharedFolder share root)) :=
  target_ownerFiles_folder root "" htype sharedItems_live get_sharedItems htype

theorem target_nested (root : String) (htype : share.targetType = .folder) (hne : id ≠ share.targetId) :
    (nestedFiles share root id).Target share (.folder (sharedFolder share root)) :=
  target_ownerFiles_folder root "" htype nestedItems_live (get_nestedItems hne) htype

/-- A folder that is in the shared folder only in one of the states. -/
theorem nested_finds (root : String) (htype : share.targetType = .folder) (hne : id ≠ share.targetId) :
    (nestedFiles share root id).Finds (.folder (sharedFolder share root)) (some id) := by
  have hnested : (nestedItems share root id).get id = some (itemIn (some share.targetId) .folder "nested") := by
    unfold nestedItems
    rw [OrderedMap.get_set, if_pos rfl]
  have hrow := folderOf_ownerFiles share.createdByUserId root "" hnested rfl
  have hquiet : (nestedFiles share root id).Quiet :=
    quiet_ownerFiles share.createdByUserId root "" nestedItems_live
  exact finds_child (target_nested root htype hne) hne hrow rfl rfl (hquiet.state_eq_none _)

theorem shared_missing {root : String} (hne : id ≠ share.targetId) (hroot : id ≠ root) :
    (sharedFiles share root "").folderOf share.createdByUserId id = none := by
  refine folderOf_ownerFiles_missing share.createdByUserId root "" ?_
  unfold sharedItems
  rw [OrderedMap.get_set, if_neg hne, OrderedMap.get_set, if_neg hroot]
  rfl

section Missing

variable {rootFolder : Folder}
  (hvalid : w.getValidatedPublicShare rt token = .ok share)
  (htarget : w.files.Target share (.folder rootFolder)) (hne : id ≠ rootFolder.id)
  (hrow : w.files.folderOf rootFolder.ownerUserId id = none)

include hvalid htarget hne hrow

theorem resolvePublicContext_missing : w.resolvePublicContext rt token cookie (some id) =
    .error (.share .accessDenied) := by
  unfold World.resolvePublicContext
  rw [resolvePublicTarget_eq hvalid htarget]
  simp only [bind, Except.bind, findPublicFolder_missing hne hrow]

theorem resolvePublicShare_missing : w.resolvePublicShare rt token cookie (some id) =
    .error (.share .accessDenied) := by
  unfold World.resolvePublicShare
  rw [resolvePublicContext_missing hvalid htarget hne hrow]
  rfl

end Missing

/-- A locked link says whether a folder is inside. -/
theorem answers_differ_folder (hvalid : w.getValidatedPublicShare rt token = .ok share)
    (hlocked : World.isUnlocked rt cookie share = false) (htype : share.targetType = .folder)
    (hne : id ≠ share.targetId) : ∃ files files' : Files, files.Ready share ∧ files'.Ready share ∧
      Answer.of (World.viewAnswer rt { w with files } token cookie (some id)) = .view .locked false 0 ∧
      Answer.of (World.viewAnswer rt { w with files := files' } token cookie (some id)) =
        .failure (.share .accessDenied) ∧
      ∀ fileId, truthy fileId = none →
        Answer.ofCheck (World.checkStorage rt { w with files } token cookie fileId (some id)) = .toLink ∧
        Answer.ofCheck (World.checkStorage rt { w with files := files' } token cookie fileId (some id)) =
          .failure (.share .accessDenied) := by
  obtain ⟨root, -, hroot⟩ := exists_id share.targetId id
  have htarget := target_nested root htype hne
  have htarget' := target_sharedFolder root htype
  have hfinds := nested_finds root htype hne
  have hmissing : World.resolvePublicShare rt { w with files := sharedFiles share root "" } token cookie
      (some id) = .error (.share .accessDenied) :=
    resolvePublicShare_missing hvalid htarget' hne (shared_missing hne (Ne.symm hroot))
  refine ⟨nestedFiles share root id, sharedFiles share root "", htarget.ready, htarget'.ready, ?_, ?_, ?_⟩
  · rw [viewAnswer_locked (w := { w with files := nestedFiles share root id }) hvalid htarget hlocked hfinds]
    rfl
  · unfold World.viewAnswer
    rw [hmissing]
    rfl
  · intro fileId hfileId
    refine ⟨?_, ?_⟩
    · rw [checkStorage_locked (w := { w with files := nestedFiles share root id }) hvalid htarget hlocked
        fun _ => hfinds, if_pos hfileId]
    · unfold World.checkStorage
      rw [hfileId]
      show Answer.ofCheck (World.resolvePublicShare rt _ token cookie (some id) >>= fun _ => .ok ()) = _
      rw [hmissing]
      rfl

/-- And whether a browser can show a file. -/
theorem viewAnswer_file (hvalid : w.getValidatedPublicShare rt token = .ok share)
    (hlocked : World.isUnlocked rt cookie share = false) (htype : share.targetType = .file)
    (folderId : Option String) (mimeType : String) : ∃ files : Files, files.Ready share ∧
      Answer.of (World.viewAnswer rt { w with files } token cookie folderId) =
        .view .locked (isPublicShareFileNativeViewSafe mimeType "shared" none) 0 := by
  obtain ⟨root, -, -⟩ := exists_id share.targetId share.targetId
  have htarget := target_sharedFile root mimeType htype
  refine ⟨sharedFiles share root mimeType, htarget.ready, ?_⟩
  rw [viewAnswer_locked (w := { w with files := sharedFiles share root mimeType }) hvalid htarget hlocked
    trivial]
  rfl

/-! ## Which requests say only that a link is locked -/

theorem differs_of_looksInside {visit : Visit} (hvalid : w.getValidatedPublicShare rt visit.token = .ok share)
    (hlocked : World.isUnlocked rt visit.cookie share = false) (hlooks : LooksInside share visit.route) :
    ¬ SaysOnlyLocked rt share visit := by
  intro hsays
  unfold SaysOnlyLocked World.answer at hsays
  cases hroute : visit.route <;> rw [hroute] at hlooks <;> simp only [hroute] at hsays
  case view folderId =>
    rcases hlooks with hfile | ⟨hfolder, id, rfl, hne⟩
    · obtain ⟨files, hready, hanswer⟩ := viewAnswer_file hvalid hlocked hfile folderId "text/plain"
      obtain ⟨files', hready', hanswer'⟩ := viewAnswer_file hvalid hlocked hfile folderId "application/zip"
      have heq := hsays { w with files } files' hvalid hready hready'
      rw [hanswer, hanswer'] at heq
      revert heq
      decide
    · obtain ⟨files, files', hready, hready', hanswer, hanswer', -⟩ :=
        answers_differ_folder hvalid hlocked hfolder hne
      have heq := hsays { w with files } files' hvalid hready hready'
      rw [hanswer, hanswer'] at heq
      cases heq
  case storageUnavailable fileId folderId =>
    obtain ⟨hfileId, hfolder, id, rfl, hne⟩ := hlooks
    obtain ⟨files, files', hready, hready', -, -, hchecks⟩ := answers_differ_folder hvalid hlocked hfolder hne
    obtain ⟨hanswer, hanswer'⟩ := hchecks fileId hfileId
    have heq := hsays { w with files } files' hvalid hready hready'
    rw [hanswer, hanswer'] at heq
    cases heq
  all_goals exact hlooks

/-- The answer to a visitor without the password is the same whatever the files are, if and only if the
request does not look inside. -/
theorem saysOnlyLocked_iff {visit : Visit} (hvalid : w.getValidatedPublicShare rt visit.token = .ok share)
    (hlocked : World.isUnlocked rt visit.cookie share = false) :
    SaysOnlyLocked rt share visit ↔ ¬ LooksInside share visit.route := by
  constructor
  · exact fun hsays hlooks => differs_of_looksInside hvalid hlocked hlooks hsays
  · intro hlooks w files hvalid hready hready'
    obtain ⟨item, htarget⟩ := hready.target
    obtain ⟨item', htarget'⟩ := hready'.target
    rw [answer_of_locked hvalid htarget hlocked hlooks]
    exact (answer_of_locked (w := { w with files }) hvalid htarget' hlocked hlooks).symm

/-! ## A folder with a password -/

theorem saysOnlyLocked_iff_content :
    SaysOnlyLocked codeRuntime lockedShare ⟨holidaysToken, none, .content⟩ ↔
      ¬ LooksInside lockedShare .content :=
  saysOnlyLocked_iff lockedShare_valid (by decide)

/-- Without the password, a visitor learns that a folder is inside. -/
theorem view_tells_inside :
    lockedWorld.getValidatedPublicShare codeRuntime holidaysToken = .ok lockedShare ∧
      World.isUnlocked codeRuntime none lockedShare = false ∧
      ¬ SaysOnlyLocked codeRuntime lockedShare ⟨holidaysToken, none, .view (some "inner")⟩ := by
  refine ⟨lockedShare_valid, by decide, fun hsays => ?_⟩
  have heq := hsays { lockedWorld with files := nestedFiles lockedShare "root" "inner" }
    (sharedFiles lockedShare "root" "") lockedShare_valid (target_nested "root" rfl (by decide)).ready
    (target_sharedFolder "root" rfl).ready
  revert heq
  decide +kernel

end Staaash.Sharing
