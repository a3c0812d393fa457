import Staaash.Sharing.Confinement

/-!
# Walks over what a request has read

The loops over a folder map see all that lies above a folder, when the map holds, with each folder, those
above it.
-/

namespace Staaash.Sharing

open Staaash.Library

variable {fs : Files} {owner id : String} {folder above : Folder}

/-! ## Rows -/

theorem folderOf_eq_some (h : fs.folderOf owner id = some folder) :
    folder.id = id ∧ folder.ownerUserId = owner := by
  obtain ⟨db, -, h⟩ := Option.bind_eq_some_iff.1 h
  obtain ⟨item, -, rfl⟩ := Option.map_eq_some_iff.1 h
  exact ⟨rfl, rfl⟩

theorem fileOf_eq_some {file : File} (h : fs.fileOf owner id = some file) :
    file.id = id ∧ file.ownerUserId = owner := by
  obtain ⟨db, -, h⟩ := Option.bind_eq_some_iff.1 h
  obtain ⟨item, -, rfl⟩ := Option.map_eq_some_iff.1 h
  exact ⟨rfl, rfl⟩

theorem folderOf_of_findFolderById (h : fs.findFolderById id = some folder) :
    fs.folderOf folder.ownerUserId id = some folder := by
  obtain ⟨o, -, h⟩ := List.exists_of_findSome?_eq_some h
  obtain ⟨-, rfl⟩ := folderOf_eq_some h
  exact h

theorem fileOf_of_findFileById {file : File} (h : fs.findFileById id = some file) :
    fs.fileOf file.ownerUserId id = some file := by
  obtain ⟨o, -, h⟩ := List.exists_of_findSome?_eq_some h
  have hfile := (Option.filter_eq_some_iff.1 h).1
  obtain ⟨-, rfl⟩ := fileOf_eq_some hfile
  exact hfile

theorem mem_itemsOf {type : Planner.ItemType} {item : Service.Item} :
    (id, item) ∈ fs.itemsOf owner type ↔
      ∃ db, fs.database owner = some db ∧ db.items.get id = some item ∧ item.type = type := by
  unfold Files.itemsOf
  cases hdb : fs.database owner with
  | none => simp
  | some db =>
    rw [Option.map_some, Option.getD_some, List.mem_filter]
    simp [OrderedMap.get_eq_some_iff]

theorem mem_foldersOf : folder ∈ fs.foldersOf owner ↔ fs.folderOf owner folder.id = some folder := by
  unfold Files.foldersOf Files.folderOf Service.Database.folder
  constructor
  · intro h
    obtain ⟨⟨id, item⟩, hitem, rfl⟩ := List.mem_map.1 h
    obtain ⟨db, hdb, hget, htype⟩ := mem_itemsOf.1 hitem
    simp [hdb, hget, htype, Files.toFolder]
  · intro h
    obtain ⟨db, hdb, h⟩ := Option.bind_eq_some_iff.1 h
    obtain ⟨item, hitem, hfolder⟩ := Option.map_eq_some_iff.1 h
    obtain ⟨hget, htype⟩ := Option.filter_eq_some_iff.1 hitem
    exact List.mem_map.2 ⟨(folder.id, item), mem_itemsOf.2 ⟨db, hdb, hget, by simpa using htype⟩, hfolder⟩

theorem mem_filesOf {file : File} : file ∈ fs.filesOf owner ↔ fs.fileOf owner file.id = some file := by
  unfold Files.filesOf Files.fileOf Service.Database.file
  constructor
  · intro h
    obtain ⟨⟨id, item⟩, hitem, rfl⟩ := List.mem_map.1 h
    obtain ⟨db, hdb, hget, htype⟩ := mem_itemsOf.1 hitem
    simp [hdb, hget, htype, Files.toFile]
  · intro h
    obtain ⟨db, hdb, h⟩ := Option.bind_eq_some_iff.1 h
    obtain ⟨item, hitem, hfile⟩ := Option.map_eq_some_iff.1 h
    obtain ⟨hget, htype⟩ := Option.filter_eq_some_iff.1 hitem
    exact List.mem_map.2 ⟨(file.id, item), mem_itemsOf.2 ⟨db, hdb, hget, by simpa using htype⟩, hfile⟩

/-! ## Above a folder -/

/-- The folder is a row of the owner. -/
def Files.Has (fs : Files) (owner : String) (folder : Folder) : Prop := fs.folderOf owner folder.id = some folder

theorem has_of_folderOf (h : fs.folderOf owner id = some folder) : fs.Has owner folder := by
  unfold Files.Has
  rw [(folderOf_eq_some h).1]
  exact h

theorem Files.Has.unique {other : Folder} (h : fs.Has owner folder) (h' : fs.Has owner other)
    (hid : folder.id = other.id) : folder = other := by
  unfold Files.Has at h h'
  rw [hid, h'] at h
  exact (Option.some.inj h).symm

theorem parent_eq_some (h : fs.Has owner folder) : fs.parent folder = some above ↔
    folder.item.parentId = some above.id ∧ fs.Has owner above := by
  unfold Files.parent
  rw [(folderOf_eq_some h).2]
  constructor
  · intro hup
    obtain ⟨parentId, hparent, hrow⟩ := Option.bind_eq_some_iff.1 hup
    rw [(folderOf_eq_some hrow).1]
    exact ⟨hparent, has_of_folderOf hrow⟩
  · rintro ⟨hparent, hrow⟩
    rw [hparent]
    exact hrow

theorem Files.Has.keep {x y : Folder} (h : fs.Has owner x) (hup : fs.parent x = some y) : fs.Has owner y :=
  ((parent_eq_some h).1 hup).2

theorem Files.Has.atOrAbove (h : fs.Has owner folder) (habove : AtOrAbove fs.parent folder above) :
    fs.Has owner above :=
  habove.keeps (fun _ _ hx => hx.keep) h

theorem mem_above (h : fs.Has owner folder) : above ∈ fs.above folder ↔ AtOrAbove fs.parent folder above := by
  unfold Files.above
  rw [(folderOf_eq_some h).2]
  have hdom : ∀ x, fs.Has owner x → x.id ∈ (fs.foldersOf owner).map Folder.id :=
    fun x hx => List.mem_map.2 ⟨x, mem_foldersOf.2 hx, rfl⟩
  exact mem_ascent (fun _ _ hx => hx.keep) (fun _ _ hx hy => hx.unique hy) hdom h (by rw [List.length_map])

/-- `readFolderAncestorIds` of one folder. -/
theorem mem_listFolderAncestors : above ∈ fs.listFolderAncestors owner [id] ↔
    ∃ folder, fs.folderOf owner id = some folder ∧ AtOrAbove fs.parent folder above := by
  unfold Files.listFolderAncestors
  rw [List.mem_filter, mem_foldersOf]
  cases hrow : fs.folderOf owner id with
  | none => simp [hrow]
  | some folder =>
    have hhas := has_of_folderOf hrow
    simp only [List.filterMap_cons, hrow, List.filterMap_nil, List.flatMap_cons, List.flatMap_nil,
      List.append_nil, List.contains_iff_mem, List.mem_map, Option.some.injEq, exists_eq_left']
    constructor
    · rintro ⟨habove, folder', hmem, hid⟩
      have hlead := (mem_above hhas).1 hmem
      rwa [(hhas.atOrAbove hlead).unique habove hid] at hlead
    · intro hlead
      exact ⟨hhas.atOrAbove hlead, above, (mem_above hhas).2 hlead, rfl⟩

/-! ## Folder maps -/

/-- The map holds rows of the owner, and with each folder those above it. -/
structure FolderMap.Covers (folderMap : FolderMap) (fs : Files) (owner : String) : Prop where
  row : ∀ id folder, folderMap.get id = some folder → fs.folderOf owner id = some folder
  closed : ∀ id folder above, folderMap.get id = some folder → fs.parent folder = some above →
    folderMap.get above.id = some above

variable {folderMap : FolderMap}

theorem FolderMap.Covers.self (h : folderMap.Covers fs owner) (hget : folderMap.get id = some folder) :
    fs.Has owner folder ∧ folderMap.get folder.id = some folder := by
  have hrow := h.row id folder hget
  rw [(folderOf_eq_some hrow).1]
  exact ⟨has_of_folderOf hrow, hget⟩

/-- The map's way up is the owner's. -/
theorem FolderMap.Covers.up (h : folderMap.Covers fs owner) (hget : folderMap.get folder.id = some folder) :
    folder.item.parentId.bind folderMap.get = some above ↔ fs.parent folder = some above := by
  have hhas := (h.self hget).1
  rw [parent_eq_some hhas]
  constructor
  · intro hup
    obtain ⟨parentId, hparent, hrow⟩ := Option.bind_eq_some_iff.1 hup
    have hrow := h.row parentId above hrow
    rw [(folderOf_eq_some hrow).1]
    exact ⟨hparent, has_of_folderOf hrow⟩
  · rintro ⟨hparent, habove⟩
    rw [hparent]
    exact h.closed folder.id folder above hget ((parent_eq_some hhas).2 ⟨hparent, habove⟩)

theorem FolderMap.Covers.mem_above (h : folderMap.Covers fs owner)
    (hget : folderMap.get folder.id = some folder) :
    above ∈ folderMap.above folder ↔ AtOrAbove fs.parent folder above := by
  have hstep : ∀ x y, folderMap.get x.id = some x →
      (x.item.parentId.bind folderMap.get = some y ↔ fs.parent x = some y) := fun x y hx => h.up hx
  have hkeep : ∀ x y, folderMap.get x.id = some x → fs.parent x = some y → folderMap.get y.id = some y :=
    fun x y hx => h.closed x.id x y hx
  have hmem : above ∈ folderMap.above folder ↔
      AtOrAbove (fun folder => folder.item.parentId.bind folderMap.get) folder above := by
    have hdom : ∀ x, folderMap.get x.id = some x → x.id ∈ folderMap.entries.map Prod.fst :=
      fun x hx => (OrderedMap.mem_keys_iff folderMap x.id).2 ⟨x, hx⟩
    refine mem_ascent (fun x y hx hy => hkeep x y hx ((hstep x y hx).1 hy)) ?_ hdom hget (by simp)
    intro x y hx hy hid
    rw [hid, hy] at hx
    exact (Option.some.inj hx).symm
  rw [hmem]
  constructor
  · intro hup
    exact hup.transfer (fun x y hx hy => ⟨(hstep x y hx).1 hy, hkeep x y hx ((hstep x y hx).1 hy)⟩) hget
  · intro hup
    exact hup.transfer (fun x y hx hy => ⟨(hstep x y hx).2 hy, hkeep x y hx hy⟩) hget

theorem FolderMap.Covers.isFolderDeletedInTree_eq_false (h : folderMap.Covers fs owner)
    (hget : folderMap.get folder.id = some folder) : isFolderDeletedInTree folder folderMap = false ↔
      ∀ above, AtOrAbove fs.parent folder above → above.item.live = true := by
  unfold isFolderDeletedInTree
  rw [List.any_eq_false]
  constructor
  · intro hall above hup
    simpa using hall above ((h.mem_above hget).2 hup)
  · intro hall above hmem
    simpa using hall above ((h.mem_above hget).1 hmem)

theorem FolderMap.Covers.isFolderWithinRoot_iff {rootFolderId : String} (h : folderMap.Covers fs owner) :
    isFolderWithinRoot id rootFolderId folderMap = true ↔ ∃ folder above, folderMap.get id = some folder ∧
      AtOrAbove fs.parent folder above ∧ above.id = rootFolderId := by
  unfold isFolderWithinRoot
  rw [Option.any_eq_true]
  constructor
  · rintro ⟨folder, hget, hany⟩
    obtain ⟨above, hmem, hid⟩ := List.any_eq_true.1 hany
    have hid' := (folderOf_eq_some (h.row id folder hget)).1
    exact ⟨folder, above, hget, (h.mem_above (hid'.symm ▸ hget)).1 hmem, by simpa using hid⟩
  · rintro ⟨folder, above, hget, hup, hid⟩
    have hid' := (folderOf_eq_some (h.row id folder hget)).1
    exact ⟨folder, hget, List.any_eq_true.2 ⟨above, (h.mem_above (hid'.symm ▸ hget)).2 hup, by simpa using hid⟩⟩

/-! ## The maps that requests read -/

theorem get_buildFolderMap {folders : List Folder} (h : ∀ folder ∈ folders, fs.Has owner folder) :
    (buildFolderMap folders).get id = some folder ↔ folder ∈ folders ∧ folder.id = id := by
  unfold buildFolderMap
  constructor
  · intro hget
    have hmem := OrderedMap.mem_of_get_ofList hget
    obtain ⟨folder', hfolder, heq⟩ := List.mem_map.1 hmem
    cases heq
    exact ⟨hfolder, rfl⟩
  · rintro ⟨hmem, rfl⟩
    have hentry : (folder.id, folder) ∈ folders.map fun folder => (folder.id, folder) :=
      List.mem_map.2 ⟨folder, hmem, rfl⟩
    obtain ⟨folder', hget⟩ := OrderedMap.exists_get_ofList hentry
    obtain ⟨other, hother, heq⟩ := List.mem_map.1 (OrderedMap.mem_of_get_ofList hget)
    obtain ⟨hid, rfl⟩ := Prod.mk.inj heq
    rw [hget, (h other hother).unique (h folder hmem) hid]

theorem covers_of_mem {folders : List Folder} (h : ∀ folder ∈ folders, fs.Has owner folder)
    (hup : ∀ folder ∈ folders, ∀ above, fs.parent folder = some above → above ∈ folders) :
    (buildFolderMap folders).Covers fs owner where
  row := by
    intro id folder hget
    obtain ⟨hmem, rfl⟩ := (get_buildFolderMap h).1 hget
    exact h folder hmem
  closed := by
    intro id folder above hget hparent
    obtain ⟨hmem, -⟩ := (get_buildFolderMap h).1 hget
    exact (get_buildFolderMap h).2 ⟨hup folder hmem above hparent, rfl⟩

theorem has_of_mem_ancestors (h : above ∈ fs.listFolderAncestors owner [id]) : fs.Has owner above := by
  obtain ⟨folder, hrow, hup⟩ := mem_listFolderAncestors.1 h
  exact (has_of_folderOf hrow).atOrAbove hup

theorem ancestors_closed {next : Folder} (h : above ∈ fs.listFolderAncestors owner [id])
    (hup : fs.parent above = some next) : next ∈ fs.listFolderAncestors owner [id] := by
  obtain ⟨folder, hrow, habove⟩ := mem_listFolderAncestors.1 h
  exact mem_listFolderAncestors.2 ⟨folder, hrow, habove.tail hup⟩

theorem ancestors_cover (owner id : String) (fs : Files) :
    (buildFolderMap (fs.listFolderAncestors owner [id])).Covers fs owner :=
  covers_of_mem (fun _ h => has_of_mem_ancestors h) fun _ h _ hup => ancestors_closed h hup

theorem get_ancestors : (buildFolderMap (fs.listFolderAncestors owner [id])).get id = some folder ↔
    fs.folderOf owner id = some folder := by
  rw [get_buildFolderMap fun _ h => has_of_mem_ancestors h, mem_listFolderAncestors]
  constructor
  · rintro ⟨⟨start, hrow, hup⟩, rfl⟩
    exact (has_of_folderOf hrow).atOrAbove hup
  · intro hrow
    exact ⟨⟨folder, hrow, .refl⟩, (folderOf_eq_some hrow).1⟩

/-- The map of `findPublicFolder`. -/
def FolderMap.add (folderMap : FolderMap) (folders : List Folder) : FolderMap :=
  folders.foldl (fun folderMap folder => folderMap.set folder.id folder) folderMap

theorem FolderMap.get_add {folders : List Folder}
    (hrow : ∀ id folder, folderMap.get id = some folder → fs.folderOf owner id = some folder)
    (hhas : ∀ folder ∈ folders, fs.Has owner folder) : (folderMap.add folders).get id = some folder ↔
      folder ∈ folders ∧ folder.id = id ∨ folderMap.get id = some folder := by
  induction folders generalizing folderMap with
  | nil => simp [FolderMap.add]
  | cons first rest ih =>
    have hfirst := hhas first List.mem_cons_self
    have hrow' : ∀ id folder, (OrderedMap.set folderMap first.id first).get id = some folder →
        fs.folderOf owner id = some folder := by
      intro id folder hget
      rcases OrderedMap.get_set_eq_some.1 hget with ⟨rfl, rfl⟩ | ⟨-, hget⟩
      · exact hfirst
      · exact hrow id folder hget
    show (FolderMap.add (OrderedMap.set folderMap first.id first) rest).get id = some folder ↔ _
    rw [ih hrow' fun folder hfolder => hhas folder (List.mem_cons_of_mem _ hfolder),
      OrderedMap.get_set_eq_some, List.mem_cons]
    constructor
    · rintro (⟨hmem, hid⟩ | ⟨rfl, rfl⟩ | ⟨-, hget⟩)
      · exact .inl ⟨.inr hmem, hid⟩
      · exact .inl ⟨.inl rfl, rfl⟩
      · exact .inr hget
    · rintro (⟨rfl | hmem, rfl⟩ | hget)
      · exact .inr (.inl ⟨rfl, rfl⟩)
      · exact .inl ⟨hmem, rfl⟩
      · by_cases hid : id = first.id
        · subst hid
          have heq := hrow first.id folder hget
          rw [hfirst] at heq
          exact .inr (.inl ⟨rfl, (Option.some.inj heq).symm⟩)
        · exact .inr (.inr ⟨hid, hget⟩)

theorem FolderMap.Covers.add (h : folderMap.Covers fs owner) {folders : List Folder}
    (hhas : ∀ folder ∈ folders, fs.Has owner folder)
    (hup : ∀ folder ∈ folders, ∀ above, fs.parent folder = some above → above ∈ folders) :
    (folderMap.add folders).Covers fs owner where
  row := by
    intro id folder hget
    rcases (FolderMap.get_add h.row hhas).1 hget with ⟨hmem, rfl⟩ | hget
    · exact hhas folder hmem
    · exact h.row id folder hget
  closed := by
    intro id folder above hget hparent
    rcases (FolderMap.get_add h.row hhas).1 hget with ⟨hmem, -⟩ | hget
    · exact (FolderMap.get_add h.row hhas).2 (.inl ⟨hup folder hmem above hparent, rfl⟩)
    · exact (FolderMap.get_add h.row hhas).2 (.inr (h.closed id folder above hget hparent))

/-! ## Inside a shared folder -/

/-- A way over live rows of the owner leads from inside to the root. -/
theorem inside_of_way {up : Folder → Option Folder} {P : Folder → Prop} {rootFolder : Folder}
    (hup : ∀ x y, P x → up x = some y → x.item.parentId = some y.id ∧ P y)
    (hrow : ∀ x, P x → fs.Has owner x ∧ x.item.live = true) (h : P folder)
    (hway : AtOrAbove up folder rootFolder) : fs.Inside owner rootFolder.id folder.id := by
  induction hway using Relation.ReflTransGen.head_induction_on with
  | refl => exact .root (hrow rootFolder h).1 (hrow rootFolder h).2
  | @head x y hs _ ih =>
    obtain ⟨hparent, hy⟩ := hup x y h hs
    exact .child (hrow x h).1 (hrow x h).2 hparent (ih hy)

theorem inside_of_live {rootFolder : Folder} (h : fs.Has owner folder)
    (hlive : ∀ above, AtOrAbove fs.parent folder above → above.item.live = true)
    (hway : AtOrAbove fs.parent folder rootFolder) : fs.Inside owner rootFolder.id folder.id := by
  refine inside_of_way (P := fun x => fs.Has owner x ∧ AtOrAbove fs.parent folder x) ?_ ?_ ⟨h, .refl⟩ hway
  · rintro x y ⟨hx, hbelow⟩ hs
    obtain ⟨hparent, hy⟩ := (parent_eq_some hx).1 hs
    exact ⟨hparent, hy, hbelow.tail hs⟩
  · exact fun x hx => ⟨hx.1, hlive x hx.2⟩

/-- What the archive of a folder walks over. -/
theorem inside_of_mem_sharedFolders {rootFolderId : String}
    (h : folder ∈ fs.findSharedFolders owner rootFolderId) : fs.Inside owner rootFolderId folder.id := by
  obtain ⟨hmem, hkept⟩ := List.mem_filter.1 h
  obtain ⟨-, hwithin⟩ := Bool.and_eq_true_iff.1 hkept
  have hsub : ∀ x ∈ fs.listFolderSubtree owner rootFolderId, fs.Has owner x ∧ x.item.live = true := by
    intro x hx
    obtain ⟨hrow, hlive⟩ := List.mem_filter.1 hx
    exact ⟨mem_foldersOf.1 hrow, (Bool.and_eq_true_iff.1 hlive).1⟩
  have hget : ∀ {id x}, (buildFolderMap (fs.listFolderSubtree owner rootFolderId)).get id = some x ↔
      x ∈ fs.listFolderSubtree owner rootFolderId ∧ x.id = id := get_buildFolderMap fun y hy => (hsub y hy).1
  obtain ⟨start, hstart, hany⟩ := (Option.any_eq_true _ _).1 hwithin
  obtain ⟨rootFolder, habove, hroot⟩ := List.any_eq_true.1 hany
  obtain ⟨hstart, hid⟩ := hget.1 hstart
  have hroot : rootFolder.id = rootFolderId := by simpa using hroot
  have hup : ∀ x y, x ∈ fs.listFolderSubtree owner rootFolderId →
      x.item.parentId.bind (buildFolderMap (fs.listFolderSubtree owner rootFolderId)).get = some y →
      x.item.parentId = some y.id ∧ y ∈ fs.listFolderSubtree owner rootFolderId := by
    intro x y _ hs
    obtain ⟨parentId, hparent, hy⟩ := Option.bind_eq_some_iff.1 hs
    obtain ⟨hmem', rfl⟩ := hget.1 hy
    exact ⟨hparent, hmem'⟩
  have hinside := inside_of_way hup hsub hstart (atOrAbove_of_mem_ascent habove)
  rwa [hroot, hid] at hinside

end Staaash.Sharing
