import Staaash.Archives.Proofs.SelectionProofs

/-!
# Proofs: an archive is complete when its top is unambiguous

The paths of an archive are the paths of a tree of names. They are different where the names at the top are,
and two things at the top with one name are in one place.
-/

namespace Staaash.Archives

open Staaash.Layout (OwnerTree segment_of_validateSegment)
open Staaash.Library
open Staaash.Library.PosixPath (Plain)

variable {forest : Forest} {fileIds folderIds : List String} {rt : Runtime} {archive : ArchiveSelection}

namespace Forest

def folders (forest : Forest) (folderIds : List String) : List FolderRecord :=
  foldersRead forest.rows forest.userId folderIds

def files (forest : Forest) (fileIds folderIds : List String) : List StoredFileRecord :=
  filesRead forest.rows forest.userId fileIds folderIds

def index (forest : Forest) (folderIds : List String) : ArchiveFolderIndex :=
  buildArchiveFolderIndex (forest.folders folderIds) folderIds

/-- The path that the code gives a file. -/
def filePath (forest : Forest) (folderIds : List String) (file : StoredFileRecord) : String :=
  if file.folderId.any (forest.index folderIds).allDescendantFolderIds.contains then
    buildFileArchivePath file (forest.index folderIds).folderMap (forest.index folderIds).descendantsByRootId
  else file.originalName

def directoryOf (forest : Forest) (folderIds : List String) (folder : FolderRecord) : String :=
  (directoryAt (forest.folders folderIds) folderIds folder.id).headD ""

def pathOf (forest : Forest) (folderIds : List String) : Node → String
  | .folder folder => forest.directoryOf folderIds folder
  | .file file => forest.filePath folderIds file

def nodes (forest : Forest) (fileIds folderIds : List String) : List Node :=
  (forest.files fileIds folderIds).map .file ++ (forest.folders folderIds).map .folder

/-- All folders that are asked for are there. -/
def Found (forest : Forest) (folderIds : List String) : Prop :=
  ∀ id ∈ folderIds, ∃ f ∈ forest.folders folderIds, f.id = id

theorem mem_folders {folder : FolderRecord} :
    folder ∈ forest.folders folderIds ↔ SelectedFolder forest.rows forest.userId folderIds folder :=
  mem_foldersRead forest.folders_nodup

theorem mem_nodes {x : Node} :
    x ∈ forest.nodes fileIds folderIds ↔ Selected forest.rows forest.userId fileIds folderIds x := by
  unfold nodes
  cases x with
  | folder folder =>
    rw [List.mem_append, List.mem_map, List.mem_map]
    simp only [Node.folder.injEq, exists_eq_right, reduceCtorEq, and_false, exists_false, false_or]
    exact forest.mem_folders
  | file file =>
    rw [List.mem_append, List.mem_map, List.mem_map]
    simp only [Node.file.injEq, exists_eq_right, reduceCtorEq, and_false, exists_false, or_false]
    exact mem_filesRead

theorem nodup_nodes : (forest.nodes fileIds folderIds).Nodup := by
  have hfiles : (forest.files fileIds folderIds).Nodup := (nodup_filesRead forest.files_nodup).of_map
  have hfolders : (forest.folders folderIds).Nodup := (nodup_foldersRead forest.folders_nodup).of_map
  refine List.nodup_append.2 ⟨hfiles.map fun a b h => Node.file.inj h,
    hfolders.map fun a b h => Node.folder.inj h, ?_⟩
  intro x hx y hy heq
  obtain ⟨file, -, rfl⟩ := List.mem_map.1 hx
  obtain ⟨folder, -, rfl⟩ := List.mem_map.1 hy
  cases heq

theorem selected_live {x : Node} (h : Selected forest.rows forest.userId fileIds folderIds x) :
    Live forest.rows forest.userId x := by
  cases x with
  | folder folder => exact SelectedFolder.live h
  | file file => exact h.1

/-- A name without dots is a segment of a path. -/
theorem plain_name {x : Node} (h : Selected forest.rows forest.userId fileIds folderIds x)
    (hdots : x.name ≠ "." ∧ x.name ≠ "..") : Plain x.name.toList := by
  refine OwnerTree.plain_of_name ?_ hdots
  cases x with
  | folder folder =>
    obtain ⟨raw, hraw⟩ := forest.folderNames folder (SelectedFolder.live h)
    exact segment_of_validateSegment hraw
  | file file =>
    obtain ⟨raw, hraw⟩ := forest.fileNames file h.1
    exact segment_of_validateSegment hraw

/-! ## Where things stand -/

variable (hfound : forest.Found folderIds)

include hfound

theorem directoryOf_eq {root folder : FolderRecord} (hroot : root ∈ forest.folders folderIds)
    (hfirst : FirstRoot forest.rows forest.userId folderIds root.id folder) :
    directoryAt (forest.folders folderIds) folderIds folder.id =
      [directoryPath (folderMapOf (forest.folders folderIds)) root folder] := by
  have hread : ((forest.folders folderIds).map (·.id)).Nodup := nodup_foldersRead forest.folders_nodup
  have hof : rootOf (forest.folders folderIds) folderIds folder.id = some root.id :=
    (rootOf_eq_some forest.folders_nodup hfound hfirst.1.live).2 hfirst
  have hget : (folderMapOf (forest.folders folderIds)).get root.id = some root :=
    (folderMap_get hread).2 ⟨hroot, rfl⟩
  have hgetFolder : (folderMapOf (forest.folders folderIds)).get folder.id = some folder :=
    (folderMap_get hread).2 ⟨forest.mem_folders.2 hfirst.selected, rfl⟩
  unfold directoryAt
  rw [hof, Option.bind_some, hget, Option.bind_some, hgetFolder]
  rfl

theorem mem_allDescendants {folder : FolderRecord}
    (hlive : LiveFolder forest.rows forest.userId folder) :
    (forest.index folderIds).allDescendantFolderIds.contains folder.id = true ↔
      SelectedFolder forest.rows forest.userId folderIds folder := by
  have hall : (forest.index folderIds).allDescendantFolderIds =
      (folderIds.flatMap (descendantsIn (forest.folders folderIds))).foldl insertLast [] := rfl
  have hmem : ∀ {rootId}, rootId ∈ folderIds → _ := contains_descendants forest.folders_nodup hfound hlive
  rw [hall, List.contains_iff_mem, mem_foldl_insertLast, List.mem_flatMap]
  constructor
  · rintro (hnil | ⟨rootId, hroot, hin⟩)
    · cases hnil
    · exact ⟨rootId, hroot, (hmem hroot).1 (List.contains_iff_mem.2 hin)⟩
  · rintro ⟨rootId, hroot, hinside⟩
    exact .inr ⟨rootId, hroot, List.contains_iff_mem.1 ((hmem hroot).2 hinside)⟩

/-- A file in a selected folder comes after the folder's path from the folder's first root. -/
theorem filePath_inside {file : StoredFileRecord} {root folder : FolderRecord}
    (hroot : root ∈ forest.folders folderIds)
    (hfirst : FirstRoot forest.rows forest.userId folderIds root.id folder)
    (hfolder : file.folderId = some folder.id) :
    forest.filePath folderIds file =
      Layout.posixJoin (folderPath (folderMapOf (forest.folders folderIds)) root folder ++
        [file.originalName]) := by
  have hread : ((forest.folders folderIds).map (·.id)).Nodup := nodup_foldersRead forest.folders_nodup
  have hget : (folderMapOf (forest.folders folderIds)).get folder.id = some folder :=
    (folderMap_get hread).2 ⟨forest.mem_folders.2 hfirst.selected, rfl⟩
  have hgetRoot : (folderMapOf (forest.folders folderIds)).get root.id = some root :=
    (folderMap_get hread).2 ⟨hroot, rfl⟩
  have hof : rootOf (forest.folders folderIds) folderIds folder.id = some root.id :=
    (rootOf_eq_some forest.folders_nodup hfound hfirst.1.live).2 hfirst
  have hentries : (forest.index folderIds).descendantsByRootId.entries.find?
      (fun e => e.2.contains folder.id) =
        some (root.id, descendantsIn (forest.folders folderIds) root.id) := by
    have hfind := OrderedMap.find?_entries_ofList_map (descendantsIn (forest.folders folderIds))
      (fun e => e.2.contains folder.id) folderIds
    rw [List.find?_map] at hfind
    exact hfind.trans (congrArg (Option.map _) hof)
  have hcontains := (forest.mem_allDescendants hfound hfirst.1.live).2 hfirst.selected
  unfold filePath
  rw [hfolder, Option.any_some, if_pos hcontains]
  unfold buildFileArchivePath
  have hmap : (forest.index folderIds).folderMap = folderMapOf (forest.folders folderIds) := rfl
  rw [hfolder, Option.bind_some, hmap, hget]
  simp only [hentries, hgetRoot]

theorem filePath_loose {file : StoredFileRecord}
    (hloose : ∀ folder, SelectedFolder forest.rows forest.userId folderIds folder →
      file.folderId ≠ some folder.id) : forest.filePath folderIds file = file.originalName := by
  unfold filePath
  refine if_neg fun hany => ?_
  obtain ⟨folderId, hfolder, hcontains⟩ := (Option.any_eq_true _ _).1 hany
  have hall : (forest.index folderIds).allDescendantFolderIds =
      (folderIds.flatMap (descendantsIn (forest.folders folderIds))).foldl insertLast [] := rfl
  rw [hall, List.contains_iff_mem, mem_foldl_insertLast, List.mem_flatMap] at hcontains
  obtain hnil | ⟨rootId, hroot, hin⟩ := hcontains
  · cases hnil
  · obtain ⟨folder, hinside, rfl⟩ := (mem_descendants forest.folders_nodup hroot (hfound rootId hroot)).1 hin
    exact hloose folder ⟨rootId, hroot, hinside⟩ hfolder

variable (hdots : ∀ x, Selected forest.rows forest.userId fileIds folderIds x → x.name ≠ "." ∧ x.name ≠ "..")

omit hfound in
include hdots in
theorem plain_path {x : Node} {path : List String} (hx : Selected forest.rows forest.userId fileIds folderIds x)
    (h : IsPlaced forest.rows forest.userId fileIds folderIds x path) : ∀ name ∈ path, Plain name.toList := by
  refine h.forall_mem (P := fun name => Plain name.toList)
    (Q := Selected forest.rows forest.userId fileIds folderIds) ?_ ?_ hx
  · exact fun y hy => forest.plain_name hy (hdots y hy)
  · rintro y z ⟨-, folder, rfl, hfolder, -⟩
    exact hfolder

include hdots in
/-- A selected thing stands where its path leads. -/
theorem location_pathOf {x : Node} (hx : Selected forest.rows forest.userId fileIds folderIds x) :
    ∃ path, IsPlaced forest.rows forest.userId fileIds folderIds x path ∧
      location (forest.pathOf folderIds x) = path.map String.toList := by
  cases x with
  | folder folder =>
    obtain ⟨root, hroot, hfirst⟩ := exists_firstRoot forest.folders_nodup hfound hx
    have hplaced : IsPlaced forest.rows forest.userId fileIds folderIds (.folder folder)
        (folderPath (folderMapOf (forest.folders folderIds)) root folder) :=
      placed_folderPath forest.folders_nodup hroot hfirst
    refine ⟨_, hplaced, ?_⟩
    show location ((directoryAt (forest.folders folderIds) folderIds folder.id).headD "") = _
    rw [forest.directoryOf_eq hfound hroot hfirst]
    exact location_directory hplaced.ne_nil (forest.plain_path hdots hx hplaced)
  | file file =>
    by_cases hinside : ∃ folder, SelectedFolder forest.rows forest.userId folderIds folder ∧
        file.folderId = some folder.id
    · obtain ⟨folder, hselected, hfolder⟩ := hinside
      obtain ⟨root, hroot, hfirst⟩ := exists_firstRoot forest.folders_nodup hfound hselected
      have hplaced : IsPlaced forest.rows forest.userId fileIds folderIds (.file file)
          (folderPath (folderMapOf (forest.folders folderIds)) root folder ++ [file.originalName]) :=
        Placed.inside (x := Node.file file) (fun htop => htop.2 folder hselected hfolder)
          ⟨hx, folder, rfl, hselected, hfolder⟩ (placed_folderPath forest.folders_nodup hroot hfirst)
      refine ⟨_, hplaced, ?_⟩
      show location (forest.filePath folderIds file) = _
      rw [forest.filePath_inside hfound hroot hfirst hfolder]
      exact location_join hplaced.ne_nil (forest.plain_path hdots hx hplaced)
    · have hloose : ∀ folder, SelectedFolder forest.rows forest.userId folderIds folder →
          file.folderId ≠ some folder.id := fun folder hselected heq => hinside ⟨folder, hselected, heq⟩
      have hplaced : IsPlaced forest.rows forest.userId fileIds folderIds (.file file) [file.originalName] :=
        Placed.atTop (x := Node.file file) ⟨hx, hloose⟩
      refine ⟨_, hplaced, ?_⟩
      show location (forest.filePath folderIds file) = _
      rw [forest.filePath_loose hfound hloose]
      exact location_name (forest.plain_name hx (hdots _ hx))

end Forest

/-! ## Selections that are accepted -/

section Accepted

variable (h : readArchiveSelection rt forest.rows forest.userId fileIds folderIds = .ok archive)

include h

theorem accepted :
    forest.Found folderIds ∧
      archive.entries = ((forest.files fileIds folderIds).map fun file =>
        ⟨file, forest.filePath folderIds file⟩).mergeSort (entryLe rt) ∧
      archive.directories = sortStrings (listDirectories (forest.index folderIds) folderIds) := by
  rw [readArchiveSelection_eq] at h
  unfold describeArchiveSelection at h
  simp only at h
  split at h
  · cases h
  · rename_i hok
    obtain rfl := Except.ok.inj h
    refine ⟨fun id hid => ?_, rfl, rfl⟩
    have hany : (folderIds.any fun id => !(folderMapOf (forest.folders folderIds)).has id) = false := by
      simp only [Bool.or_eq_true, not_or, Bool.not_eq_true] at hok
      exact hok.1.2
    have hhas := List.any_eq_false.1 hany id hid
    rw [Bool.not_eq_true, Bool.not_eq_false'] at hhas
    exact OrderedMap.has_indexed_iff.1 hhas

theorem found : forest.Found folderIds := (accepted h).1

theorem entries_perm : archive.entries.Perm
    ((forest.files fileIds folderIds).map fun file => ⟨file, forest.filePath folderIds file⟩) := by
  rw [(accepted h).2.1]
  exact List.mergeSort_perm _ _

/-- Each folder has its directory. -/
theorem directories_perm :
    archive.directories.Perm ((forest.folders folderIds).map (forest.directoryOf folderIds)) := by
  have hread : ((forest.folders folderIds).map (·.id)).Nodup := nodup_foldersRead forest.folders_nodup
  obtain ⟨placed, hnodup, hmem, hlist⟩ := listDirectories_eq (forest.folders folderIds) folderIds
  have hids : placed.Perm ((forest.folders folderIds).map (·.id)) := by
    refine (List.perm_ext_iff_of_nodup hnodup hread).2 fun id => ?_
    rw [hmem, List.mem_map]
    constructor
    · rintro ⟨rootId, hroot, hin⟩
      obtain ⟨folder, hinside, rfl⟩ :=
        (mem_descendants forest.folders_nodup hroot (found h rootId hroot)).1 hin
      exact ⟨folder, forest.mem_folders.2 ⟨rootId, hroot, hinside⟩, rfl⟩
    · rintro ⟨folder, hfolder, rfl⟩
      obtain ⟨rootId, hroot, hinside⟩ := forest.mem_folders.1 hfolder
      exact ⟨rootId, hroot,
        (mem_descendants forest.folders_nodup hroot (found h rootId hroot)).2 ⟨folder, hinside, rfl⟩⟩
  have hone : ∀ folder ∈ forest.folders folderIds,
      directoryAt (forest.folders folderIds) folderIds folder.id = [forest.directoryOf folderIds folder] := by
    intro folder hfolder
    obtain ⟨root, hroot, hfirst⟩ :=
      exists_firstRoot forest.folders_nodup (found h) (forest.mem_folders.1 hfolder)
    unfold Forest.directoryOf
    rw [forest.directoryOf_eq (found h) hroot hfirst]
    rfl
  have hflat : ((forest.folders folderIds).map (·.id)).flatMap
      (directoryAt (forest.folders folderIds) folderIds) =
        (forest.folders folderIds).map (forest.directoryOf folderIds) := by
    rw [List.flatMap_map, List.flatMap_congr hone, List.map_eq_flatMap]
  rw [(accepted h).2.2]
  refine (List.mergeSort_perm _ _).trans ?_
  show (listDirectories (buildArchiveFolderIndex (forest.folders folderIds) folderIds) folderIds).Perm _
  rw [hlist, ← hflat]
  exact hids.flatMap_right _

/-- Together they stand where the selected things do. -/
theorem locations_perm : (archive.entries.map (fun entry => location entry.archivePath) ++
    archive.directories.map location).Perm
      ((forest.nodes fileIds folderIds).map fun x => location (forest.pathOf folderIds x)) := by
  have hentries := (entries_perm h).map fun entry => location entry.archivePath
  have hdirectories := (directories_perm h).map location
  unfold Forest.nodes
  rw [List.map_append, List.map_map, List.map_map]
  rw [List.map_map] at hentries hdirectories
  exact hentries.append hdirectories

theorem mem_entries {entry : ArchiveEntry} :
    entry ∈ archive.entries ↔ SelectedFile forest.rows forest.userId fileIds folderIds entry.file ∧
      entry.archivePath = forest.filePath folderIds entry.file := by
  rw [(entries_perm h).mem_iff, List.mem_map]
  constructor
  · rintro ⟨file, hfile, rfl⟩
    exact ⟨mem_filesRead.1 hfile, rfl⟩
  · rintro ⟨hfile, hpath⟩
    exact ⟨entry.file, mem_filesRead.2 hfile, by rw [← hpath]⟩

end Accepted

/-! ## Completeness -/

section Complete

theorem under_unique {x y z : Node} (h : Under forest.rows forest.userId fileIds folderIds x y)
    (h' : Under forest.rows forest.userId fileIds folderIds x z) : y = z := by
  obtain ⟨-, folder, rfl, hfolder, hparent⟩ := h
  obtain ⟨-, folder', rfl, hfolder', hparent'⟩ := h'
  rw [hparent, Option.some.injEq] at hparent'
  rw [eq_of_id forest.folders_nodup hfolder.live.1 hfolder'.live.1 hparent']

theorem under_siblings {x y z : Node} (h : Under forest.rows forest.userId fileIds folderIds x z)
    (h' : Under forest.rows forest.userId fileIds folderIds y z) (hname : x.name = y.name) : x = y := by
  obtain ⟨hx, folder, rfl, -, hparent⟩ := h
  obtain ⟨hy, folder', heq, -, hparent'⟩ := h'
  obtain rfl := Node.folder.inj heq
  exact forest.siblings x y folder.id (forest.selected_live hx) (forest.selected_live hy) hparent hparent'
    hname

theorem placed_unique {x : Node} {path path' : List String}
    (h : IsPlaced forest.rows forest.userId fileIds folderIds x path)
    (h' : IsPlaced forest.rows forest.userId fileIds folderIds x path') : path = path' := by
  refine Placed.unique ?_ h h'
  intro x y z hy hz
  exact under_unique hy hz

theorem placed_injective (hclear : Unambiguous forest.rows forest.userId fileIds folderIds) {x y : Node}
    {path : List String} (h : IsPlaced forest.rows forest.userId fileIds folderIds x path)
    (h' : IsPlaced forest.rows forest.userId fileIds folderIds y path) : x = y := by
  refine Placed.injective ?_ ?_ h h'
  · intro x y hx hy hname
    exact hclear.topNames x y hx hy hname
  · intro x y z hx hy hname
    exact under_siblings hx hy hname

theorem Top.selected {x : Node} (h : Top forest.rows forest.userId fileIds folderIds x) :
    Selected forest.rows forest.userId fileIds folderIds x := by
  cases x with
  | folder folder => exact FirstRoot.selected h
  | file file => exact h.1

theorem map_toList_injective {path path' : List String} (h : path.map String.toList = path'.map String.toList) :
    path = path' :=
  List.map_injective_iff.2 (fun _ _ => String.toList_inj.1) h

variable (h : readArchiveSelection rt forest.rows forest.userId fileIds folderIds = .ok archive)

include h

theorem nodup_locations (hclear : Unambiguous forest.rows forest.userId fileIds folderIds) :
    ((forest.nodes fileIds folderIds).map fun x => location (forest.pathOf folderIds x)).Nodup := by
  refine List.Nodup.map_on (fun x hx y hy heq => ?_) forest.nodup_nodes
  obtain ⟨path, hpath, hlocation⟩ := forest.location_pathOf (found h) hclear.noDots (forest.mem_nodes.1 hx)
  obtain ⟨path', hpath', hlocation'⟩ := forest.location_pathOf (found h) hclear.noDots (forest.mem_nodes.1 hy)
  rw [hlocation, hlocation'] at heq
  obtain rfl := map_toList_injective heq
  exact placed_injective hclear hpath hpath'

theorem losesNothing (hclear : Unambiguous forest.rows forest.userId fileIds folderIds) :
    LosesNothing forest.rows forest.userId fileIds folderIds archive (forest.directoryOf folderIds) := by
  have hplaced : ∀ {x}, Selected forest.rows forest.userId fileIds folderIds x → _ :=
    forest.location_pathOf (found h) hclear.noDots
  have hdistinct := (locations_perm h).nodup_iff.2 (nodup_locations h hclear)
  have hnamed : ∀ {x}, Selected forest.rows forest.userId fileIds folderIds x →
      x.name.toList ∈ (location (forest.pathOf folderIds x)).getLast? := by
    intro x hx
    obtain ⟨path, hpath, hlocation⟩ := hplaced hx
    obtain ⟨above, rfl⟩ := hpath.named
    rw [hlocation, List.map_append]
    simp
  refine ⟨?_, fun file => ?_, ?_, hdistinct, ?_, ?_, ?_, ?_, ?_⟩
  · have hfiles : (forest.files fileIds folderIds).Nodup := (nodup_filesRead forest.files_nodup).of_map
    rw [((entries_perm h).map _).nodup_iff, List.map_map]
    exact hfiles.map fun a b heq => heq
  · rw [((entries_perm h).map _).mem_iff, List.map_map]
    show file ∈ (forest.files fileIds folderIds).map id ↔ _
    rw [List.map_id]
    exact mem_filesRead
  · exact ⟨forest.folders folderIds, (nodup_foldersRead forest.folders_nodup).of_map,
      fun folder => forest.mem_folders, directories_perm h⟩
  · intro path hpath seg hseg
    obtain ⟨x, hx, rfl⟩ : ∃ x, Selected forest.rows forest.userId fileIds folderIds x ∧
        forest.pathOf folderIds x = path := by
      rcases List.mem_append.1 hpath with hpath | hpath
      · obtain ⟨entry, hentry, rfl⟩ := List.mem_map.1 hpath
        obtain ⟨hfile, hfilePath⟩ := (mem_entries h).1 hentry
        exact ⟨.file entry.file, hfile, hfilePath.symm⟩
      · rw [(directories_perm h).mem_iff] at hpath
        obtain ⟨folder, hfolder, rfl⟩ := List.mem_map.1 hpath
        exact ⟨.folder folder, forest.mem_folders.1 hfolder, rfl⟩
    obtain ⟨names, hnames, hlocation⟩ := hplaced hx
    rw [hlocation] at hseg
    obtain ⟨name, hname, rfl⟩ := List.mem_map.1 hseg
    exact forest.plain_path hclear.noDots hx hnames name hname
  · exact fun folder hfolder => hnamed (x := .folder folder) hfolder
  · intro entry hentry
    obtain ⟨hfile, hpath⟩ := (mem_entries h).1 hentry
    rw [hpath]
    exact hnamed (x := .file entry.file) hfile
  · intro entry hentry folder hfolder hparent
    obtain ⟨hfile, hpath⟩ := (mem_entries h).1 hentry
    obtain ⟨names, hnames, hlocation⟩ := hplaced (x := .file entry.file) hfile
    obtain ⟨above, habove, hdirectory⟩ := hplaced (x := .folder folder) hfolder
    have hbelow : IsPlaced forest.rows forest.userId fileIds folderIds (.file entry.file)
        (above ++ [entry.file.originalName]) :=
      Placed.inside (x := Node.file entry.file) (fun htop => htop.2 folder hfolder hparent)
        ⟨hfile, folder, rfl, hfolder, hparent⟩ habove
    rw [hpath]
    show location (forest.pathOf folderIds (.file entry.file)) =
      location (forest.pathOf folderIds (.folder folder)) ++ _
    rw [hlocation, hdirectory, placed_unique hnames hbelow, List.map_append]
    rfl
  · intro entry hentry
    refine OrderedMap.get_ofList_of_nodup ?_ (List.mem_append_right _ (List.mem_map.2 ⟨entry, hentry, rfl⟩))
    rw [List.map_append, List.map_map, List.map_map]
    exact List.nodup_append_comm.1 hdistinct

/-- A directory and an entry that keep their names have names without dots. -/
theorem unambiguous_of_complete
    (hcomplete : Complete forest.rows forest.userId fileIds folderIds archive) :
    Unambiguous forest.rows forest.userId fileIds folderIds := by
  obtain ⟨directoryOf, hlost⟩ := hcomplete
  have hplain : ∀ {name : String}, Plain name.toList → name ≠ "." ∧ name ≠ ".." := by
    intro name hname
    refine ⟨?_, ?_⟩
    · rintro rfl
      exact hname.2.1 rfl
    · rintro rfl
      exact hname.2.2.1 rfl
  have hdots : ∀ x, Selected forest.rows forest.userId fileIds folderIds x → x.name ≠ "." ∧ x.name ≠ ".." := by
    intro x hx
    cases x with
    | folder folder =>
      obtain ⟨folders, -, hmem, hperm⟩ := hlost.directories
      have hdirectory : directoryOf folder ∈ archive.directories :=
        hperm.mem_iff.2 (List.mem_map.2 ⟨folder, (hmem folder).2 hx, rfl⟩)
      exact hplain (hlost.plain _ (List.mem_append_right _ hdirectory) _
        (List.mem_of_getLast? (hlost.folder_named folder hx)))
    | file file =>
      obtain ⟨entry, hentry, rfl⟩ := List.mem_map.1 ((hlost.mem_files file).2 hx)
      have hpath : entry.archivePath ∈ archive.entries.map (·.archivePath) :=
        List.mem_map.2 ⟨entry, hentry, rfl⟩
      exact hplain (hlost.plain _ (List.mem_append_left _ hpath) _
        (List.mem_of_getLast? (hlost.file_named entry hentry)))
  refine ⟨hdots, fun x y hx hy hname => ?_⟩
  have hnodup := (locations_perm h).nodup_iff.1 hlost.distinct
  have htop : ∀ {z}, Top forest.rows forest.userId fileIds folderIds z →
      location (forest.pathOf folderIds z) = [z.name.toList] := by
    intro z hz
    obtain ⟨path, hpath, hlocation⟩ := forest.location_pathOf (found h) hdots hz.selected
    rw [hlocation, placed_unique hpath (.atTop hz)]
    rfl
  refine List.inj_on_of_nodup_map hnodup (forest.mem_nodes.2 hx.selected) (forest.mem_nodes.2 hy.selected) ?_
  show location (forest.pathOf folderIds x) = location (forest.pathOf folderIds y)
  rw [htop hx, htop hy, hname]

/-- Two things at the top with one name are all that can be lost, but for names that are dots. -/
theorem complete_iff_unambiguous :
    Complete forest.rows forest.userId fileIds folderIds archive ↔
      Unambiguous forest.rows forest.userId fileIds folderIds :=
  ⟨unambiguous_of_complete h, fun hclear => ⟨_, losesNothing h hclear⟩⟩

end Complete

/-! ## Two files with one name -/

def liveFolder (id : String) (parentId : Option String) (name : String) : FolderRecord :=
  ⟨id, "owner", parentId, name, none⟩

def notes (id folderId checksum : String) : StoredFileRecord :=
  ⟨id, "owner", some folderId, "notes.txt", 4, some checksum, .available, "files/owner/" ++ id, none, 1⟩

def workNotes : StoredFileRecord :=
  notes "f1" "work" "00e13ed7af55b27622f1d6eab5bec0147e68efe28dc2b12461117afa1a5ed40e"

def homeNotes : StoredFileRecord :=
  notes "f2" "home" "4ea140588150773ce3aace786aeef7f4049ce100fa649c94fbbddb960f1da942"

def notesRows : Rows where
  folders := [liveFolder "root" none "Files", liveFolder "work" (some "root") "work",
    liveFolder "home" (some "root") "home"]
  files := [workNotes, homeNotes]

def notesNodes : List Node := notesRows.folders.map .folder ++ notesRows.files.map .file

theorem mem_notesNodes {x : Node} (h : Live notesRows "owner" x) : x ∈ notesNodes := by
  unfold notesNodes
  cases x with
  | folder folder => exact List.mem_append_left _ (List.mem_map.2 ⟨folder, h.1, rfl⟩)
  | file file => exact List.mem_append_right _ (List.mem_map.2 ⟨file, h.1, rfl⟩)

/-- Notes in two folders. -/
def notesForest : Forest where
  rows := notesRows
  userId := "owner"
  folders_nodup := by decide
  files_nodup := by decide
  folderNames := by
    have hnames : ∀ folder ∈ notesRows.folders, Layout.normalizeFolderName folder.name = .ok folder.name := by
      decide
    exact fun folder hlive => ⟨_, hnames folder hlive.1⟩
  fileNames := by
    have hnames : ∀ file ∈ notesRows.files, Layout.normalizeFileName file.originalName = .ok file.originalName := by
      decide
    exact fun file hlive => ⟨_, hnames file hlive.1⟩
  siblings := by
    have hnodes : ∀ x ∈ notesNodes, ∀ y ∈ notesNodes, x.parentId = y.parentId → x.name = y.name → x = y := by
      decide
    intro x y parentId hx hy hparent hparent' hname
    exact hnodes x (mem_notesNodes hx) y (mem_notesNodes hy) (hparent.trans hparent'.symm) hname

/-- The digests of the two selections that are made below. -/
def notesRuntime : Runtime where
  localeCompare := compare
  sha256 contents :=
    if contents.folderIds = [] then "a8f99d12f52022a4551993a7831ac426d133aee7246858b0079abc5d4ffbdcfa"
    else "88f47fb68d0cb1a6cfb3c738d3a694c08b72e7c364c607cf8d0640941250ae5f"

theorem notes_accepted :
    ∃ archive, readArchiveSelection notesRuntime notesForest.rows notesForest.userId ["f1", "f2"] [] =
      .ok archive := by
  rw [readArchiveSelection_eq]
  unfold describeArchiveSelection
  dsimp only
  rw [if_neg (by decide)]
  exact ⟨_, rfl⟩

theorem withFolder_accepted :
    ∃ archive, readArchiveSelection notesRuntime notesForest.rows notesForest.userId ["f2"] ["work"] =
      .ok archive := by
  rw [readArchiveSelection_eq]
  unfold describeArchiveSelection
  dsimp only
  rw [if_neg (by decide)]
  exact ⟨_, rfl⟩

/-- One of the files is selected with its folder, and only the other one comes to stand at the top. -/
theorem unambiguous_withFolder :
    Unambiguous notesForest.rows notesForest.userId ["f2"] ["work"] := by
  have hwork : ∀ {folder}, SelectedFolder notesForest.rows notesForest.userId ["work"] folder →
      folder = liveFolder "work" (some "root") "work" := by
    rintro folder ⟨rootId, hroot, hinside⟩
    obtain rfl := List.mem_singleton.1 hroot
    induction hinside with
    | root hlive hid => exact (by decide : ∀ folder ∈ notesRows.folders, folder.id = "work" →
        folder = liveFolder "work" (some "root") "work") _ hlive.1 hid
    | child hinside hlive hparent ih =>
      subst ih
      exact absurd hparent ((by decide : ∀ folder ∈ notesRows.folders,
        folder.parentId ≠ some "work") _ hlive.1)
  have hselected : SelectedFolder notesForest.rows notesForest.userId ["work"]
      (liveFolder "work" (some "root") "work") :=
    ⟨"work", List.mem_singleton.2 rfl, .root ⟨by decide, rfl, rfl⟩ rfl⟩
  have htop : ∀ {x}, Top notesForest.rows notesForest.userId ["f2"] ["work"] x →
      x = .folder (liveFolder "work" (some "root") "work") ∨ x = .file homeNotes := by
    intro x hx
    cases x with
    | folder folder =>
      exact .inl (congrArg Node.folder (hwork hx.selected))
    | file file =>
      have hfolder := hx.2 _ hselected
      exact .inr (congrArg Node.file ((by decide : ∀ file ∈ notesRows.files,
        file.folderId ≠ some "work" → file = homeNotes) file hx.1.1.1 hfolder))
  refine ⟨fun x hx => ?_, fun x y hx hy hname => ?_⟩
  · cases x with
    | folder folder => exact hwork hx ▸ by decide
    | file file =>
      exact (by decide : ∀ file ∈ notesRows.files,
        (Node.file file).name ≠ "." ∧ (Node.file file).name ≠ "..") file hx.1.1
  · rcases htop hx with rfl | rfl
    · rcases htop hy with rfl | rfl
      · rfl
      · exact absurd hname (by decide)
    · rcases htop hy with rfl | rfl
      · exact absurd hname (by decide)
      · rfl

/-- A selection with two files of one name at its top, and one that loses nothing. -/
theorem complete_iff_unambiguous_notes :
    (∃ archive, readArchiveSelection notesRuntime notesForest.rows notesForest.userId ["f1", "f2"] [] =
        .ok archive ∧
      (Complete notesForest.rows notesForest.userId ["f1", "f2"] [] archive ↔
        Unambiguous notesForest.rows notesForest.userId ["f1", "f2"] [])) ∧
    ∃ archive, readArchiveSelection notesRuntime notesForest.rows notesForest.userId ["f2"] ["work"] =
        .ok archive ∧
      Complete notesForest.rows notesForest.userId ["f2"] ["work"] archive := by
  obtain ⟨archive, haccepted⟩ := notes_accepted
  obtain ⟨archive', haccepted'⟩ := withFolder_accepted
  exact ⟨⟨archive, haccepted, complete_iff_unambiguous haccepted⟩,
    archive', haccepted', (complete_iff_unambiguous haccepted').2 unambiguous_withFolder⟩

/-- Both files are selected, and both come to stand at `notes.txt`. -/
theorem sameNames_collide :
    ∃ archive, readArchiveSelection notesRuntime notesForest.rows notesForest.userId ["f1", "f2"] [] =
        .ok archive ∧
      ¬Complete notesForest.rows notesForest.userId ["f1", "f2"] [] archive := by
  obtain ⟨archive, haccepted⟩ := notes_accepted
  have htop : ∀ file ∈ notesForest.rows.files, file.id ∈ ["f1", "f2"] → file.ownerUserId = "owner" →
      file.deletedAt = none → Top notesForest.rows notesForest.userId ["f1", "f2"] [] (.file file) := by
    intro file hmem hid howner hlive
    refine ⟨⟨⟨hmem, howner, hlive⟩, .inl hid⟩, ?_⟩
    rintro folder ⟨rootId, hroot, -⟩
    cases hroot
  refine ⟨archive, haccepted, fun hcomplete => ?_⟩
  have hclear := unambiguous_of_complete haccepted hcomplete
  have heq := hclear.topNames _ _ (htop workNotes (by decide) (by decide) rfl rfl)
    (htop homeNotes (by decide) (by decide) rfl rfl) rfl
  exact absurd heq (by decide)

end Staaash.Archives
