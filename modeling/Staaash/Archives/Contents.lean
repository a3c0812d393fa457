import Staaash.Archives.Selection
import Staaash.Library.NamedTrees

/-!
# What an archive should hold

The things that a selection asks for, in the words of the owner's tree, and what it takes that nothing of
them is lost: every folder and every file has a place of its own in the archive.
-/

namespace Staaash.Archives

open Staaash.Library
open Staaash.Layout (normalizeFileName normalizeFolderName)

/-! ## The tree of an owner -/

inductive Node
  | folder (folder : FolderRecord)
  | file (file : StoredFileRecord)
deriving DecidableEq, Repr

def Node.name : Node → String
  | .folder f => f.name
  | .file f => f.originalName

def Node.parentId : Node → Option String
  | .folder f => f.parentId
  | .file f => f.folderId

variable (rows : Rows) (userId : String) (fileIds folderIds : List String)

def LiveFolder (folder : FolderRecord) : Prop :=
  folder ∈ rows.folders ∧ folder.ownerUserId = userId ∧ folder.deletedAt = none

def LiveFile (file : StoredFileRecord) : Prop :=
  file ∈ rows.files ∧ file.ownerUserId = userId ∧ file.deletedAt = none

def Live : Node → Prop
  | .folder folder => LiveFolder rows userId folder
  | .file file => LiveFile rows userId file

/-- Ids are keys, live names came out of the checks, and live siblings have different names. -/
structure Forest where
  rows : Rows
  userId : String
  folders_nodup : (rows.folders.map (·.id)).Nodup
  files_nodup : (rows.files.map (·.id)).Nodup
  folderNames : ∀ folder, LiveFolder rows userId folder → ∃ raw, normalizeFolderName raw = .ok folder.name
  fileNames : ∀ file, LiveFile rows userId file → ∃ raw, normalizeFileName raw = .ok file.originalName
  siblings : ∀ x y parentId, Live rows userId x → Live rows userId y → x.parentId = some parentId →
    y.parentId = some parentId → x.name = y.name → x = y

/-! ## What is selected -/

/-- The live folders of a subtree, through live folders. -/
inductive Inside (rootId : String) : FolderRecord → Prop
  | root {folder : FolderRecord} (hlive : LiveFolder rows userId folder) (hid : folder.id = rootId) :
    Inside rootId folder
  | child {folder child : FolderRecord} (hinside : Inside rootId folder)
      (hlive : LiveFolder rows userId child) (hparent : child.parentId = some folder.id) : Inside rootId child

def SelectedFolder (folder : FolderRecord) : Prop := ∃ rootId ∈ folderIds, Inside rows userId rootId folder

def SelectedFile (file : StoredFileRecord) : Prop :=
  LiveFile rows userId file ∧
    (file.id ∈ fileIds ∨ ∃ folder, SelectedFolder rows userId folderIds folder ∧ file.folderId = some folder.id)

def Selected : Node → Prop
  | .folder folder => SelectedFolder rows userId folderIds folder
  | .file file => SelectedFile rows userId fileIds folderIds file

/-- The first selected folder that a folder is in. -/
def FirstRoot (rootId : String) (folder : FolderRecord) : Prop :=
  Inside rows userId rootId folder ∧
    ∃ before after, folderIds = before ++ rootId :: after ∧ ∀ id ∈ before, ¬Inside rows userId id folder

/-- A selected folder that is in none before it, or a selected file that is in none. -/
def Top : Node → Prop
  | .folder folder => FirstRoot rows userId folderIds folder.id folder
  | .file file => SelectedFile rows userId fileIds folderIds file ∧
      ∀ folder, SelectedFolder rows userId folderIds folder → file.folderId ≠ some folder.id

/-- What is selected has names that a path keeps, and what comes to stand at the top has different ones. -/
structure Unambiguous : Prop where
  noDots : ∀ x, Selected rows userId fileIds folderIds x → x.name ≠ "." ∧ x.name ≠ ".."
  topNames : ∀ x y, Top rows userId fileIds folderIds x → Top rows userId fileIds folderIds y →
    x.name = y.name → x = y

/-! ## What an archive gives back -/

/-- Where a path leads, below the folder that the archive is unpacked in. -/
def location (path : String) : List PosixPath.Segment := (PosixPath.segments path.toList).filter (· ≠ [])

inductive Unpacked
  | directory
  | file (file : StoredFileRecord)
deriving DecidableEq, Repr

/-- The directories come first, and what comes later takes the place of what is there. -/
def unpack (archive : ArchiveSelection) : OrderedMap (List PosixPath.Segment) Unpacked :=
  .ofList (archive.directories.map (fun directory => (location directory, .directory)) ++
    archive.entries.map fun entry => (location entry.archivePath, .file entry.file))

/-- With the directory that each folder has. -/
structure LosesNothing (archive : ArchiveSelection) (directoryOf : FolderRecord → String) : Prop where
  files_nodup : (archive.entries.map (·.file)).Nodup
  mem_files : ∀ file, file ∈ archive.entries.map (·.file) ↔ SelectedFile rows userId fileIds folderIds file
  directories : ∃ folders : List FolderRecord, folders.Nodup ∧
    (∀ folder, folder ∈ folders ↔ SelectedFolder rows userId folderIds folder) ∧
    archive.directories.Perm (folders.map directoryOf)
  /-- No two entries, no two directories, and no entry and directory are in one place. -/
  distinct : (archive.entries.map (fun entry => location entry.archivePath) ++
    archive.directories.map location).Nodup
  /-- Nothing is put outside, and nothing loses its name. -/
  plain : ∀ path ∈ archive.entries.map (·.archivePath) ++ archive.directories,
    ∀ seg ∈ location path, PosixPath.Plain seg
  folder_named : ∀ folder, SelectedFolder rows userId folderIds folder →
    folder.name.toList ∈ (location (directoryOf folder)).getLast?
  file_named : ∀ entry ∈ archive.entries,
    entry.file.originalName.toList ∈ (location entry.archivePath).getLast?
  file_below : ∀ entry ∈ archive.entries, ∀ folder, SelectedFolder rows userId folderIds folder →
    entry.file.folderId = some folder.id →
      location entry.archivePath = location (directoryOf folder) ++ [entry.file.originalName.toList]
  unpacks : ∀ entry ∈ archive.entries,
    (unpack archive).get (location entry.archivePath) = some (.file entry.file)

def Complete (archive : ArchiveSelection) : Prop :=
  ∃ directoryOf, LosesNothing rows userId fileIds folderIds archive directoryOf

end Staaash.Archives
