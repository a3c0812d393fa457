import Staaash.Layout.Names
import Staaash.Library.PosixPath
import Staaash.Service.Admission

/-!
# Storage keys

The keys of what is not in the trash, as the strings that `storage-layout.ts` and `storage.ts` build, and
the trees that they are built for.
-/

namespace Staaash.Layout

open Staaash.Library
open Staaash.Service (Database Item)

/-! ## Storage ids -/

/-- `toLowerCase`. Two other characters have a lower case that begins with a letter of ASCII; a storage id
keeps no others. -/
def lowerCase (c : Char) : List Char :=
  if c = '\u212a' then ['k'] else if c = '\u0130' then ['i', '\u0307'] else [c.toLower]

def isStorageIdCharacter (c : Char) : Bool :=
  ('a' ≤ c && c ≤ 'z') || c.isDigit || c ∈ ['.', '_', '-']

/-- `replace(/[^a-z0-9._-]+/g, "-")`. -/
def replaceRuns : Bool → List Char → List Char
  | _, [] => []
  | inRun, c :: rest =>
    if isStorageIdCharacter c then c :: replaceRuns false rest
    else if inRun then replaceRuns true rest else '-' :: replaceRuns true rest

def isDotOrDash (c : Char) : Bool := c ∈ ['.', '-']

/-- `replace(/^[.-]+|[.-]+$/g, "")`. -/
def stripEnds (chars : List Char) : List Char :=
  ((chars.dropWhile isDotOrDash).reverse.dropWhile isDotOrDash).reverse

def getEmailStorageBase (email : String) : String :=
  let localPart := email.toList.takeWhile (· ≠ '@')
  let sanitized := stripEnds (replaceRuns false (localPart.flatMap lowerCase))
  if sanitized = [] then "user" else String.ofList sanitized

/-- With six random characters in the attempts after the first one. -/
def generateStorageId (email : String) (suffix : Option String) : String :=
  match suffix with
  | none => getEmailStorageBase email
  | some token => getEmailStorageBase email ++ "-" ++ token

/-! ## Keys -/

/-- `path.posix.join`. -/
def posixJoin (parts : List String) : String := String.ofList (PosixPath.join (parts.map String.toList))

def getUserFilesRootStorageKey (storageId : String) : String := posixJoin ["files", storageId]

def getActiveCommittedStorageKey (storageId : String) (folderPathSegments : List String)
    (fileName : String) : String :=
  posixJoin (getUserFilesRootStorageKey storageId :: folderPathSegments ++ [fileName])

def getActiveFolderStorageKey (storageId : String) (folderPathSegments : List String) : String :=
  posixJoin (getUserFilesRootStorageKey storageId :: folderPathSegments)

/-- Of a folder that is not in the trash. -/
def buildFolderStorageKey (storageId : String) (db : Database) (folderId : String) : String :=
  getActiveFolderStorageKey storageId (db.buildFolderPathSegments (some folderId))

/-- Of a file that is not in the trash. -/
def buildFileStorageKey (storageId : String) (db : Database) (file : Item) : String :=
  getActiveCommittedStorageKey storageId (db.buildFolderPathSegments file.parentId) file.name

def buildStorageKey (storageId : String) (db : Database) (id : String) (item : Item) : String :=
  match item.type with
  | .folder => buildFolderStorageKey storageId db id
  | .file => buildFileStorageKey storageId db item

/-! ## Paths on disk -/

def IsPathPrefix (key key' : String) : Prop :=
  PosixPath.segments key.toList <+: PosixPath.segments key'.toList

/-- The key names something in the directory or deeper, by plain segments alone. -/
def StrictlyBelow (directory key : String) : Prop :=
  IsPathPrefix directory key ∧ directory ≠ key ∧
    ∀ seg ∈ PosixPath.segments key.toList, PosixPath.Plain seg

/-! ## Trees -/

/-- The tree of an owner: every live item is below the files root through live folders, with a name that
came out of the check, and no other one beside it has its name. -/
structure OwnerTree where
  storageId : String
  db : Database
  storageId_plain : PosixPath.Plain storageId.toList
  filesRoot_top : ∀ root, db.items.get db.filesRoot = some root → root.parentId = none
  rooted : ∀ id item, db.items.get id = some item → item.live = true → id ≠ db.filesRoot →
    item.parentId.isSome = true ∧ ∃ n path, db.livePath n item.parentId = some path
  normalized : ∀ id item, db.items.get id = some item → item.live = true → id ≠ db.filesRoot →
    ∃ raw, validateSegment raw item.type = .ok item.name
  distinct : db.UniqueNames

namespace OwnerTree

variable (t : OwnerTree)

/-- The live items below the files root. -/
def IsItem (id : String) (item : Item) : Prop :=
  t.db.items.get id = some item ∧ item.live = true ∧ id ≠ t.db.filesRoot

def key (id : String) (item : Item) : String := buildStorageKey t.storageId t.db id item

/-- An item is in a folder, or in one below it. -/
inductive Above : String → String → Prop
  | parent {id folderId : String} {item : Item} (hget : t.db.items.get id = some item)
      (hparent : item.parentId = some folderId) : Above folderId id
  | deeper {above id folderId : String} {item : Item} (habove : Above above folderId)
      (hget : t.db.items.get id = some item) (hparent : item.parentId = some folderId) : Above above id

/-- No live item is called `.` or `..`. -/
def NoDots : Prop := ∀ id item, t.IsItem id item → item.name ≠ "." ∧ item.name ≠ ".."

/-- The keys of the live items say where they are. -/
structure KeysConfined : Prop where
  below : ∀ id item, t.IsItem id item →
    StrictlyBelow (getUserFilesRootStorageKey t.storageId) (t.key id item)
  injective : ∀ id item id' item', t.IsItem id item → t.IsItem id' item' →
    t.key id item = t.key id' item' → id = id'
  prefix_iff : ∀ id item id' item', t.IsItem id item → t.IsItem id' item' → id ≠ id' →
    (IsPathPrefix (t.key id item) (t.key id' item') ↔ t.Above id id')
  otherOwners : ∀ id item storageId, t.IsItem id item → PosixPath.Plain storageId.toList →
    storageId ≠ t.storageId → ¬IsPathPrefix (getUserFilesRootStorageKey storageId) (t.key id item) ∧
      ¬IsPathPrefix (t.key id item) (getUserFilesRootStorageKey storageId)

end OwnerTree

end Staaash.Layout
