import Staaash.Archives.Proofs.IndexProofs

/-!
# Proofs: paths in an archive

Each selected thing stands where its names lead from the first root that it is in, and there is one
directory for each folder.
-/

namespace Staaash.Archives

open Staaash.Layout (posixJoin)
open Staaash.Library

/-! ## The first root -/

section FirstRoots

variable {rows : Rows} {userId : String} {fileIds folderIds : List String} {folder : FolderRecord}

theorem Inside.of_child {rootId : String} {child : FolderRecord} (hnodup : (rows.folders.map (·.id)).Nodup)
    (h : Inside rows userId rootId child) (hid : child.id ≠ rootId) (hlive : LiveFolder rows userId folder)
    (hparent : child.parentId = some folder.id) : Inside rows userId rootId folder := by
  cases h with
  | root _ heq => exact absurd heq hid
  | @child parent _ hinside _ hparent' =>
    rw [hparent, Option.some.injEq] at hparent'
    rwa [eq_of_id hnodup hlive.1 hinside.live.1 hparent']

theorem FirstRoot.selected {rootId : String} (h : FirstRoot rows userId folderIds rootId folder) :
    SelectedFolder rows userId folderIds folder := by
  obtain ⟨hinside, before, after, rfl, -⟩ := h
  exact ⟨rootId, by simp, hinside⟩

theorem FirstRoot.unique {rootId rootId' : String} (h : FirstRoot rows userId folderIds rootId folder)
    (h' : FirstRoot rows userId folderIds rootId' folder) : rootId = rootId' := by
  obtain ⟨hinside, before, after, rfl, hbefore⟩ := h
  obtain ⟨hinside', before', after', heq, hbefore'⟩ := h'
  rcases List.append_eq_append_iff.1 heq with ⟨middle, rfl, hrest⟩ | ⟨middle, rfl, hrest⟩
  · cases middle with
    | nil => exact (List.cons.inj hrest).1
    | cons id middle =>
      obtain ⟨rfl, -⟩ := List.cons.inj hrest
      exact absurd hinside (hbefore' rootId (by simp))
  · cases middle with
    | nil => exact (List.cons.inj hrest).1.symm
    | cons id middle =>
      obtain ⟨rfl, -⟩ := List.cons.inj hrest
      exact absurd hinside' (hbefore rootId' (by simp))

/-- The folders between a folder and its first root have the same one. -/
theorem FirstRoot.parent {rootId : String} {child : FolderRecord} (hnodup : (rows.folders.map (·.id)).Nodup)
    (h : FirstRoot rows userId folderIds rootId child) (hid : child.id ≠ rootId)
    (hlive : LiveFolder rows userId folder) (hparent : child.parentId = some folder.id) :
    FirstRoot rows userId folderIds rootId folder := by
  obtain ⟨hinside, before, after, hsplit, hbefore⟩ := h
  refine ⟨hinside.of_child hnodup hid hlive hparent, before, after, hsplit, fun id hmem hfolder => ?_⟩
  exact hbefore id hmem (hfolder.child hinside.live hparent)

/-- The root that the code takes for a folder. -/
def rootOf (folders : List FolderRecord) (folderIds : List String) (id : String) : Option String :=
  folderIds.find? fun rootId => (descendantsIn folders rootId).contains id

variable (hnodup : (rows.folders.map (·.id)).Nodup)
  (hroots : ∀ id ∈ folderIds, ∃ f ∈ foldersRead rows userId folderIds, f.id = id)

include hnodup hroots

theorem contains_descendants (hfolder : LiveFolder rows userId folder) {rootId : String}
    (hroot : rootId ∈ folderIds) :
    (descendantsIn (foldersRead rows userId folderIds) rootId).contains folder.id = true ↔
      Inside rows userId rootId folder := by
  rw [List.contains_iff_mem, mem_descendants hnodup hroot (hroots rootId hroot)]
  constructor
  · rintro ⟨folder', hinside, hid⟩
    rwa [eq_of_id hnodup hfolder.1 hinside.live.1 hid.symm]
  · exact fun h => ⟨folder, h, rfl⟩

theorem rootOf_eq_some (hfolder : LiveFolder rows userId folder) {rootId : String} :
    rootOf (foldersRead rows userId folderIds) folderIds folder.id = some rootId ↔
      FirstRoot rows userId folderIds rootId folder := by
  have hmem : ∀ {rootId}, rootId ∈ folderIds → _ := contains_descendants hnodup hroots hfolder
  unfold rootOf FirstRoot
  rw [List.find?_eq_some_iff_append]
  constructor
  · rintro ⟨hroot, before, after, hsplit, hbefore⟩
    refine ⟨(hmem (by simp [hsplit])).1 hroot, before, after, hsplit, fun id hid hinside => ?_⟩
    have hcontains := (hmem (by simp [hsplit, hid])).2 hinside
    have hnot := hbefore id hid
    rw [hcontains] at hnot
    cases hnot
  · rintro ⟨hroot, before, after, hsplit, hbefore⟩
    refine ⟨(hmem (by simp [hsplit])).2 hroot, before, after, hsplit, fun id hid => ?_⟩
    have hnot := mt (hmem (by simp [hsplit, hid])).1 (hbefore id hid)
    simpa using hnot

theorem exists_firstRoot (h : SelectedFolder rows userId folderIds folder) :
    ∃ root ∈ foldersRead rows userId folderIds, FirstRoot rows userId folderIds root.id folder := by
  obtain ⟨rootId, hroot, hinside⟩ := h
  have hfind : (rootOf (foldersRead rows userId folderIds) folderIds folder.id).isSome := by
    unfold rootOf
    rw [List.find?_isSome]
    exact ⟨rootId, hroot, (contains_descendants hnodup hroots hinside.live hroot).2 hinside⟩
  obtain ⟨first, hfirst⟩ := Option.isSome_iff_exists.1 hfind
  have hfirst := (rootOf_eq_some hnodup hroots hinside.live).1 hfirst
  have hmem : first ∈ folderIds := by
    obtain ⟨-, before, after, hsplit, -⟩ := hfirst
    simp [hsplit]
  obtain ⟨root, hread, rfl⟩ := hroots first hmem
  exact ⟨root, hread, hfirst⟩

end FirstRoots

/-! ## Paths from the root -/

section Placing

variable {rows : Rows} {userId : String} {fileIds folderIds : List String}

/-- A selected thing is in a selected folder. -/
def Under (rows : Rows) (userId : String) (fileIds folderIds : List String) (x y : Node) : Prop :=
  Selected rows userId fileIds folderIds x ∧
    ∃ folder, y = .folder folder ∧ SelectedFolder rows userId folderIds folder ∧ x.parentId = some folder.id

abbrev IsPlaced (rows : Rows) (userId : String) (fileIds folderIds : List String) (x : Node)
    (path : List String) : Prop :=
  Placed (Under rows userId fileIds folderIds) Node.name (Top rows userId fileIds folderIds) x path

/-- The names from the root down, as long as the loop comes to the root. -/
theorem placed_segmentsFrom (hnodup : (rows.folders.map (·.id)).Nodup) {root folder : FolderRecord}
    (hroot : root ∈ foldersRead rows userId folderIds)
    (hfirst : FirstRoot rows userId folderIds root.id folder) {rounds : Nat} {s : List String}
    (hascent : root ∈ ascent FolderRecord.id
      (fun f => f.parentId.bind (folderMapOf (foldersRead rows userId folderIds)).get) rounds s folder) :
    IsPlaced rows userId fileIds folderIds (.folder folder)
      (root.name :: segmentsFrom (folderMapOf (foldersRead rows userId folderIds)) root.id rounds folder) := by
  have hread : ((foldersRead rows userId folderIds).map (·.id)).Nodup := nodup_foldersRead hnodup
  induction rounds generalizing s folder with
  | zero => cases hascent
  | succ rounds ih =>
    rw [ascent] at hascent
    split at hascent
    · cases hascent
    unfold segmentsFrom
    by_cases hid : folder.id = root.id
    · obtain rfl := eq_of_id hnodup hfirst.1.live.1 ((mem_foldersRead hnodup).1 hroot).live.1 hid
      rw [if_pos rfl]
      exact .atTop hfirst
    · rw [if_neg hid]
      have htail := (List.mem_cons.1 hascent).resolve_left fun heq => hid (congrArg FolderRecord.id heq.symm)
      cases hup : folder.parentId.bind (folderMapOf (foldersRead rows userId folderIds)).get with
      | none =>
        rw [hup] at htail
        cases htail
      | some parent =>
        rw [hup] at htail
        obtain ⟨parentId, hparentId, hget⟩ := Option.bind_eq_some_iff.1 hup
        obtain ⟨hmem, rfl⟩ := (folderMap_get hread).1 hget
        have hselected := (mem_foldersRead hnodup).1 hmem
        have hplaced := ih (hfirst.parent hnodup hid hselected.live hparentId) htail
        refine Placed.inside (x := Node.folder folder) (fun htop => hid (FirstRoot.unique htop hfirst))
          ⟨hfirst.selected, parent, rfl, hselected, hparentId⟩ hplaced

theorem placed_folderPath (hnodup : (rows.folders.map (·.id)).Nodup) {root folder : FolderRecord}
    (hroot : root ∈ foldersRead rows userId folderIds)
    (hfirst : FirstRoot rows userId folderIds root.id folder) :
    IsPlaced rows userId fileIds folderIds (.folder folder)
      (folderPath (folderMapOf (foldersRead rows userId folderIds)) root folder) := by
  have hread : ((foldersRead rows userId folderIds).map (·.id)).Nodup := nodup_foldersRead hnodup
  have hget : ∀ {id f}, (folderMapOf (foldersRead rows userId folderIds)).get id = some f ↔ _ :=
    folderMap_get hread
  refine placed_segmentsFrom (s := []) hnodup hroot hfirst ?_
  have hup : ∀ f g, f ∈ foldersRead rows userId folderIds →
      f.parentId.bind (folderMapOf (foldersRead rows userId folderIds)).get = some g →
        g ∈ foldersRead rows userId folderIds := by
    intro f g _ hg
    obtain ⟨id, -, hg⟩ := Option.bind_eq_some_iff.1 hg
    exact (hget.1 hg).1
  have hkeys : ∀ f, f ∈ foldersRead rows userId folderIds →
      f.id ∈ (folderMapOf (foldersRead rows userId folderIds)).keys := by
    intro f hf
    exact (OrderedMap.mem_keys_iff _ _).2 ⟨f, hget.2 ⟨hf, rfl⟩⟩
  refine (mem_ascent hup (fun f g hf hg => eq_of_id hread hf hg) hkeys
    ((mem_foldersRead hnodup).2 hfirst.selected) le_rfl).2 ?_
  obtain ⟨hinside, before, after, hsplit, -⟩ := hfirst
  have hselected : ∀ {f}, Inside rows userId root.id f → SelectedFolder rows userId folderIds f :=
    fun h => ⟨root.id, by simp [hsplit], h⟩
  induction hinside with
  | root hlive hid =>
    rw [eq_of_id hnodup hlive.1 ((mem_foldersRead hnodup).1 hroot).live.1 hid]
    exact .refl
  | @child folder child hinside hlive hparent ih =>
    refine .head ?_ ih
    show child.parentId.bind _ = some folder
    rw [hparent]
    exact hget.2 ⟨(mem_foldersRead hnodup).2 (hselected hinside), rfl⟩

end Placing

end Staaash.Archives
