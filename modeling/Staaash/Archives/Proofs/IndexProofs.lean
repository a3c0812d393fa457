import Staaash.Archives.Contents
import Staaash.Layout.Proofs.KeysProofs
import Staaash.Library.Ascent

/-!
# Proofs: the folder index

What `readArchiveSelection` reads is what is selected, and the descendants that the index has of a root are
the folders inside it.
-/

namespace Staaash.Archives

open Relation
open Staaash.Library

/-! ## Lists of rows -/

section Folders

variable {folders : List FolderRecord} {folder folder' : FolderRecord} {id : String}

/-- Rows with one id are one row. -/
theorem eq_of_id {α : Type} {l : List α} {key : α → String} (hnodup : (l.map key).Nodup) {a b : α}
    (ha : a ∈ l) (hb : b ∈ l) (hkey : key a = key b) : a = b :=
  List.inj_on_of_nodup_map hnodup ha hb hkey

def folderMapOf (folders : List FolderRecord) : FolderMap := .ofList (folders.map fun f => (f.id, f))

theorem folderMap_get (hnodup : (folders.map (·.id)).Nodup) :
    (folderMapOf folders).get id = some folder ↔ folder ∈ folders ∧ folder.id = id := by
  refine ⟨OrderedMap.of_get_indexed, ?_⟩
  rintro ⟨hmem, rfl⟩
  exact OrderedMap.get_indexed_of_nodup hnodup hmem

theorem getD_foldl_addChild (folders : List FolderRecord) (m : OrderedMap String (List FolderRecord)) :
    ((folders.foldl addChild m).get id).getD [] =
      (m.get id).getD [] ++ folders.filter fun f => f.parentId = some id := by
  induction folders generalizing m with
  | nil => simp
  | cons folder folders ih =>
    rw [List.foldl_cons, ih]
    unfold addChild
    cases hparent : folder.parentId with
    | none => simp [hparent]
    | some parentId =>
      by_cases hid : parentId = id
      · subst hid
        simp [hparent, OrderedMap.get_set]
      · simp [hparent, OrderedMap.get_set, hid, Ne.symm hid]

def childrenOf (folders : List FolderRecord) (id : String) : List String :=
  childIds (folders.foldl addChild .empty) id

theorem mem_childrenOf {child : String} :
    child ∈ childrenOf folders id ↔ ∃ f ∈ folders, f.parentId = some id ∧ f.id = child := by
  unfold childrenOf childIds
  rw [getD_foldl_addChild]
  simp [and_assoc]

theorem nodup_childrenOf (hnodup : (folders.map (·.id)).Nodup) (id : String) : (childrenOf folders id).Nodup := by
  unfold childrenOf childIds
  rw [getD_foldl_addChild]
  exact hnodup.sublist (by simpa using List.filter_sublist.map _)

/-- `collectDescendantFolderIds` over a list of folders. -/
def descendantsIn (folders : List FolderRecord) (rootId : String) : List String :=
  collectDescendantFolderIds (folders.length + 1) rootId (folders.foldl addChild .empty)

theorem descendantsIn_spec (hnodup : (folders.map (·.id)).Nodup) (rootId : String) :
    (descendantsIn folders rootId).Nodup ∧
      ∀ id, id ∈ descendantsIn folders rootId ↔ Reaches (childrenOf folders) rootId id := by
  have hup : ∀ x, ∀ y ∈ childrenOf folders x, ((folderMapOf folders).get y).bind (·.parentId) = some x := by
    intro x y hy
    obtain ⟨f, hmem, hparent, hid⟩ := mem_childrenOf.1 hy
    rw [(folderMap_get hnodup).2 ⟨hmem, hid⟩]
    exact hparent
  have hdom : ∀ x, childrenOf folders x ⊆ folders.map (·.id) := by
    intro x y hy
    obtain ⟨f, hmem, -, hid⟩ := mem_childrenOf.1 hy
    exact List.mem_map.2 ⟨f, hmem, hid⟩
  have hrounds : (folders.map (·.id)).length < folders.length + 1 := by
    rw [List.length_map]
    exact Nat.lt_succ_self _
  exact ⟨nodup_visits hup (nodup_childrenOf hnodup) hdom hrounds rootId,
    fun _ => mem_visits hup (nodup_childrenOf hnodup) hdom hrounds⟩

end Folders

/-! ## What is read -/

section Reading

variable {rows : Rows} {userId : String} {fileIds folderIds : List String}

theorem Inside.live {rootId : String} {folder : FolderRecord} (h : Inside rows userId rootId folder) :
    LiveFolder rows userId folder := by
  cases h with
  | root hlive _ => exact hlive
  | child _ hlive _ => exact hlive

theorem SelectedFolder.live {folder : FolderRecord} (h : SelectedFolder rows userId folderIds folder) :
    LiveFolder rows userId folder := by
  obtain ⟨rootId, -, hinside⟩ := h
  exact hinside.live

theorem SelectedFolder.child {folder child : FolderRecord} (h : SelectedFolder rows userId folderIds folder)
    (hlive : LiveFolder rows userId child) (hparent : child.parentId = some folder.id) :
    SelectedFolder rows userId folderIds child := by
  obtain ⟨rootId, hroot, hinside⟩ := h
  exact ⟨rootId, hroot, hinside.child hlive hparent⟩

theorem mem_readChildIds {id child : String} :
    child ∈ rows.readChildIds userId id ↔
      ∃ f, LiveFolder rows userId f ∧ f.parentId = some id ∧ f.id = child := by
  unfold Rows.readChildIds LiveFolder
  simp [and_assoc]

theorem mem_readFolderSubtreeIds {id : String} :
    id ∈ rows.readFolderSubtreeIds userId folderIds ↔
      ∃ folder, SelectedFolder rows userId folderIds folder ∧ folder.id = id := by
  have hdom : ∀ x, rows.readChildIds userId x ⊆ (rows.folders.map (·.id)).toFinset := by
    intro x y hy
    obtain ⟨f, hlive, -, rfl⟩ := mem_readChildIds.1 hy
    exact List.mem_toFinset.2 (List.mem_map.2 ⟨f, hlive.1, rfl⟩)
  have hcard : (rows.folders.map (·.id)).toFinset.card ≤ rows.folders.length :=
    (List.toFinset_card_le _).trans (List.length_map _).le
  unfold Rows.readFolderSubtreeIds
  rw [mem_saturate hdom hcard]
  constructor
  · rintro ⟨seed, hseed, hpath⟩
    induction hpath with
    | refl =>
      have hseed : ∃ f, LiveFolder rows userId f ∧ f.id ∈ folderIds ∧ f.id = seed := by
        unfold LiveFolder
        simpa [and_assoc, and_left_comm, and_comm] using hseed
      obtain ⟨f, hlive, hmem, rfl⟩ := hseed
      exact ⟨f, ⟨f.id, hmem, .root hlive rfl⟩, rfl⟩
    | tail _ hs ih =>
      obtain ⟨folder, hselected, rfl⟩ := ih
      obtain ⟨child, hlive, hparent, rfl⟩ := mem_readChildIds.1 hs
      exact ⟨child, hselected.child hlive hparent, rfl⟩
  · rintro ⟨folder, ⟨rootId, hroot, hinside⟩, rfl⟩
    refine ⟨rootId, ?_, ?_⟩
    · have hseed : ∃ f, LiveFolder rows userId f ∧ f.id ∈ folderIds ∧ f.id = rootId := by
        clear hdom hcard
        induction hinside with
        | @root f hlive hid => exact ⟨f, hlive, hid ▸ hroot, hid⟩
        | child _ _ _ ih => exact ih
      unfold LiveFolder at hseed
      simpa [and_assoc, and_left_comm, and_comm] using hseed
    · clear hdom hcard
      induction hinside with
      | @root f hlive hid => rw [hid]
      | child _ hlive hparent ih => exact ih.tail (mem_readChildIds.2 ⟨_, hlive, hparent, rfl⟩)

/-- The folders that `readArchiveSelection` finds. -/
def foldersRead (rows : Rows) (userId : String) (folderIds : List String) : List FolderRecord :=
  rows.folders.filter fun folder =>
    folder.id ∈ (if folderIds = [] then ∅ else rows.readFolderSubtreeIds userId folderIds)

def filesRead (rows : Rows) (userId : String) (fileIds folderIds : List String) : List StoredFileRecord :=
  rows.files.filter fun file =>
    file.ownerUserId = userId && file.deletedAt.isNone &&
      (file.id ∈ fileIds ||
        file.folderId.any (· ∈ (if folderIds = [] then ∅ else rows.readFolderSubtreeIds userId folderIds)))

theorem readArchiveSelection_eq (rt : Runtime) :
    readArchiveSelection rt rows userId fileIds folderIds =
      describeArchiveSelection rt userId fileIds folderIds (foldersRead rows userId folderIds)
        (filesRead rows userId fileIds folderIds) := rfl

theorem mem_subtree {id : String} :
    id ∈ (if folderIds = [] then ∅ else rows.readFolderSubtreeIds userId folderIds) ↔
      ∃ folder, SelectedFolder rows userId folderIds folder ∧ folder.id = id := by
  by_cases hnil : folderIds = []
  · subst hnil
    simp [SelectedFolder]
  · rw [if_neg hnil]
    exact mem_readFolderSubtreeIds

theorem mem_foldersRead (hnodup : (rows.folders.map (·.id)).Nodup) {folder : FolderRecord} :
    folder ∈ foldersRead rows userId folderIds ↔ SelectedFolder rows userId folderIds folder := by
  unfold foldersRead
  rw [List.mem_filter, decide_eq_true_iff, mem_subtree]
  constructor
  · rintro ⟨hmem, selected, hselected, hid⟩
    rwa [eq_of_id hnodup hmem hselected.live.1 hid.symm]
  · intro h
    exact ⟨h.live.1, folder, h, rfl⟩

theorem mem_filesRead {file : StoredFileRecord} :
    file ∈ filesRead rows userId fileIds folderIds ↔ SelectedFile rows userId fileIds folderIds file := by
  unfold filesRead SelectedFile LiveFile
  rw [List.mem_filter]
  simp only [Bool.and_eq_true, Bool.or_eq_true, decide_eq_true_iff, Option.isNone_iff_eq_none,
    Option.any_eq_true, mem_subtree]
  constructor
  · rintro ⟨hmem, ⟨howner, hlive⟩, hid | ⟨folderId, hfolder, folder, hselected, rfl⟩⟩
    · exact ⟨⟨hmem, howner, hlive⟩, .inl hid⟩
    · exact ⟨⟨hmem, howner, hlive⟩, .inr ⟨folder, hselected, hfolder⟩⟩
  · rintro ⟨⟨hmem, howner, hlive⟩, hid | ⟨folder, hselected, hfolder⟩⟩
    · exact ⟨hmem, ⟨howner, hlive⟩, .inl hid⟩
    · exact ⟨hmem, ⟨howner, hlive⟩, .inr ⟨folder.id, hfolder, folder, hselected, rfl⟩⟩

theorem nodup_foldersRead (hnodup : (rows.folders.map (·.id)).Nodup) :
    ((foldersRead rows userId folderIds).map (·.id)).Nodup :=
  hnodup.sublist (List.filter_sublist.map _)

theorem nodup_filesRead (hnodup : (rows.files.map (·.id)).Nodup) :
    ((filesRead rows userId fileIds folderIds).map (·.id)).Nodup :=
  hnodup.sublist (List.filter_sublist.map _)

/-- The descendants of a root that is selected and there. -/
theorem mem_descendants (hnodup : (rows.folders.map (·.id)).Nodup) {rootId id : String}
    (hroot : rootId ∈ folderIds) (hread : ∃ f ∈ foldersRead rows userId folderIds, f.id = rootId) :
    id ∈ descendantsIn (foldersRead rows userId folderIds) rootId ↔
      ∃ folder, Inside rows userId rootId folder ∧ folder.id = id := by
  rw [(descendantsIn_spec (nodup_foldersRead hnodup) rootId).2]
  constructor
  · intro h
    induction h with
    | refl =>
      obtain ⟨f, hmem, hid⟩ := hread
      exact ⟨f, .root ((mem_foldersRead hnodup).1 hmem).live hid, hid⟩
    | tail _ hs ih =>
      obtain ⟨folder, hinside, rfl⟩ := ih
      obtain ⟨child, hmem, hparent, rfl⟩ := mem_childrenOf.1 hs
      exact ⟨child, hinside.child ((mem_foldersRead hnodup).1 hmem).live hparent, rfl⟩
  · rintro ⟨folder, hinside, rfl⟩
    induction hinside with
    | root hlive hid =>
      rw [hid]
      exact .refl
    | child hinside hlive hparent ih =>
      have hselected := SelectedFolder.child ⟨rootId, hroot, hinside⟩ hlive hparent
      exact ih.tail (mem_childrenOf.2 ⟨_, (mem_foldersRead hnodup).2 hselected, hparent, rfl⟩)

end Reading

end Staaash.Archives
