import Staaash.Journal.Effects
import Staaash.Library.PosixPath

/-!
# Tree manifests

The walk of `readTreeManifestRecords` through the disk, name by name, and the digest that is captured
from the database rows of the same tree. A recorded tree says what both are to agree on.
-/

namespace Staaash.Journal

open Staaash.Library (OrderedMap PosixPath.join PosixPath.relative PosixPath.Plain)

/-! ## Reading the disk -/

/-- `readdir`, in the order the disk has the names in. -/
def readdir (fs : Fs) (directoryPath : Key) : List (Text × Node) :=
  fs.nodes.entries.filterMap fun (k, node) =>
    if dirname k = directoryPath then k.getLast?.map (·, node) else none

variable (H : Host)

/-- What `visit` pushes for the sorted entries of a directory; `inside` visits one of its directories. -/
def visitEntries (inside : Text → Text → Option (Except Err (List Text))) (pathPrefix : Text) :
    List (Text × Node) → Option (Except Err (List Text))
  | [] => some (.ok [])
  | (name, node) :: rest =>
    let relative := PosixPath.join [pathPrefix, name]
    match node with
    | .directory =>
      match inside name relative with
      | none => none
      | some (.error e) => some (.error e)
      | some (.ok below) =>
        (visitEntries inside pathPrefix rest).map
          (·.map fun records => ("D ".toList ++ relative) :: below ++ records)
    | .file bytes =>
      (visitEntries inside pathPrefix rest).map
        (·.map fun records => ("F ".toList ++ relative ++ ' ' :: Nat.toDigits 10 bytes.length ++
          ' ' :: H.sha256 bytes) :: records)
    | .other => some (.error (.ambiguity "Tree manifest contains unsupported node."))

/-- `visit`, at most `fuel` directories deep; `none` says that it has not ended yet. -/
def visit (fs : Fs) : Nat → Key → Text → Option (Except Err (List Text))
  | 0, _, _ => none
  | fuel + 1, directoryPath, pathPrefix =>
    visitEntries H (fun name relative => visit fs fuel (directoryPath ++ [name]) relative) pathPrefix
      ((readdir fs directoryPath).mergeSort fun left right => textLe left.1 right.1)

/-! ## Capturing the database -/

inductive CapturedEntry
  | directory (relativeKey : Text)
  | file (relativeKey : Text) (sizeBytes : Nat) (checksum : Text)
deriving DecidableEq, Repr

def CapturedEntry.relativeKey : CapturedEntry → Text
  | .directory relativeKey => relativeKey
  | .file relativeKey _ _ => relativeKey

/-- `left < right` on strings. -/
def textLt (a b : Text) : Bool := Decidable.decide (a.flatMap utf16Units < b.flatMap utf16Units)

/-- The parts that both keys have are compared one by one; of the rest only the number counts. -/
def compareParts : List Text → List Text → Int
  | left :: lefts, right :: rights =>
    if textLt left right then -1 else if textLt right left then 1 else compareParts lefts rights
  | lefts, rights => lefts.length - rights.length

def compareKeys (left right : Text) : Int := compareParts (left.splitOn '/') (right.splitOn '/')

def CapturedEntry.record : CapturedEntry → Text
  | .directory relativeKey => "D ".toList ++ relativeKey
  | .file relativeKey sizeBytes checksum =>
    "F ".toList ++ relativeKey ++ ' ' :: Nat.toDigits 10 sizeBytes ++ ' ' :: checksum

def capturedRecords (entries : List CapturedEntry) : List Text :=
  (entries.mergeSort fun left right => compareKeys left.relativeKey right.relativeKey ≤ 0).map
    CapturedEntry.record

def calculateCapturedTreeManifestDigest (entries : List CapturedEntry) : Text :=
  hashTreeManifestRecords H (capturedRecords entries)

/-- What `hashTreeManifestRecords` gives the hash to read. -/
def manifestInput (records : List Text) : List UInt8 :=
  records.flatMap fun record =>
    utf8 (Nat.toDigits 10 (utf8 record).length) ++ utf8 [':'] ++ utf8 record

/-- A file's row, as far as its tree is captured from it. -/
structure StoredFile where
  id : String
  storageKey : Text
  sizeBytes : Nat
  contentChecksum : Option Text
deriving DecidableEq, Repr

def calculateStorageFileChecksum (fs : Fs) (storageKey : Text) : Except Err Text := do
  let candidate ← resolveMutationStoragePath storageKey
  if !safeAncestors fs (prefixes (dirname candidate)) then .error unsafeAncestor
  match fs.get candidate with
  | some (.file bytes) => .ok (H.sha256 bytes)
  | _ => .error (.ambiguity "Cannot fingerprint missing or non-file storage entry.")

/-- The path of a member below the root of the captured tree. -/
def relativeKey (cwd : List Text) (rootStorageKey storageKey : Text) : Except Err Text :=
  let relative := PosixPath.relative cwd rootStorageKey storageKey
  if relative = [] || relative = "..".toList || "../".toList <+: relative then
    .error (.ambiguity "Folder member storage path escapes captured tree.")
  else .ok relative

/-- One round of the loop over the files: the entry, with the checksum it was given. -/
def captureFile (cwd : List Text) (fs : Fs) (rootStorageKey : Text) (file : StoredFile) :
    Except Err (CapturedEntry × String × Text) := do
  let checksum ← match file.contentChecksum with
    | some checksum => .ok checksum
    | none => calculateStorageFileChecksum H fs file.storageKey
  return (.file (← relativeKey cwd rootStorageKey file.storageKey) file.sizeBytes checksum, file.id,
    checksum)

structure CapturedManifest where
  digest : Text
  checksums : OrderedMap String Text

def captureFolderTreeManifest (cwd : List Text) (fs : Fs) (rootStorageKey : Text)
    (folderStorageKeys : List Text) (files : List StoredFile) : Except Err CapturedManifest := do
  let directories ← folderStorageKeys.mapM (relativeKey cwd rootStorageKey)
  let captured ← files.mapM (captureFile H cwd fs rootStorageKey)
  return {
    digest := calculateCapturedTreeManifestDigest H
      (directories.map .directory ++ captured.map Prod.fst)
    checksums := .ofList (captured.map Prod.snd) }

/-! ## Recorded trees -/

inductive Item
  | directory
  | file (sizeBytes : Nat) (checksum : Text)
deriving DecidableEq, Repr

/-- A finite tree of directories, and of files with their sizes and checksums. -/
structure Tree where
  items : OrderedMap Key Item
  /-- Every path is made of names that a directory can hold. -/
  named : ∀ k ∈ items.keys, k ≠ [] ∧ ∀ name ∈ k, PosixPath.Plain name
  closed : ∀ k ∈ items.keys, dirname k = [] ∨ items.get (dirname k) = some .directory
  /-- Checksums are hexadecimal digits; it matters only that none has a space in it. -/
  spaceless : ∀ k size checksum, items.get k = some (.file size checksum) → ' ' ∉ checksum

def Item.captured (k : Key) : Item → CapturedEntry
  | .directory => .directory (joinKey k)
  | .file sizeBytes checksum => .file (joinKey k) sizeBytes checksum

namespace Tree

def entries (tree : Tree) : List CapturedEntry :=
  tree.items.entries.map fun (k, item) => item.captured k

/-- The trees are the same, whatever order their entries are listed in. -/
def Same (a b : Tree) : Prop := ∀ k, a.items.get k = b.items.get k

end Tree

/-- What a manifest says of a node, if it can say anything. -/
def Node.item : Node → Option Item
  | .file bytes => some (.file bytes.length (H.sha256 bytes))
  | .directory => some .directory
  | .other => none

namespace Fs

/-- At the key stands a directory, and below it the recorded tree with nothing else. -/
def Holds (fs : Fs) (root : Key) (tree : Tree) : Prop :=
  fs.get root = some .directory ∧
    ∀ k, k ≠ [] → (fs.get (root ++ k)).map (Node.item H) = (tree.items.get k).map some

/-- The names on the disk are names that a directory can hold. -/
def Named (fs : Fs) : Prop := ∀ k ∈ fs.nodes.keys, ∀ name ∈ k, PosixPath.Plain name

end Fs

/-! ## Rows of a tree -/

/-- The storage key of a member of the tree. -/
def memberKey (rootStorageKey : Text) (k : Key) : Text := rootStorageKey ++ '/' :: joinKey k

/-- The file's row records the file of a tree. A checksum that the row lacks is the disk's. -/
def StoredFile.Records (file : StoredFile) (fs : Fs) (rootStorageKey : Text) (k : Key) (item : Item) :
    Prop :=
  file.storageKey = memberKey rootStorageKey k ∧ ∃ checksum, item = .file file.sizeBytes checksum ∧
    (file.contentChecksum = some checksum ∨ file.contentChecksum = none ∧
      calculateStorageFileChecksum H fs file.storageKey = .ok checksum)

/-- The rows record the tree, each of its members once. -/
def Tree.RecordedBy (tree : Tree) (fs : Fs) (rootStorageKey : Text) (folderStorageKeys : List Text)
    (files : List StoredFile) : Prop :=
  ∃ directories : List Key, ∃ listed : List (Key × Item),
    (directories.map (·, Item.directory) ++ listed).Perm tree.items.entries ∧
    folderStorageKeys = directories.map (memberKey rootStorageKey) ∧
    List.Forall₂ (fun file entry => file.Records H fs rootStorageKey entry.1 entry.2) files listed

/-! ## Steps on folders -/

/-- The step carries a captured digest as its only fingerprint, as the steps on folders do. -/
structure Step.Fingerprint (step : Step) (digest : Text) : Prop where
  type : step.expectedNodeType = some .directory
  size : step.expectedSizeBytes = none
  checksum : step.expectedChecksum = none
  digest : step.treeManifestDigest = some digest

/-- What a rename needs besides the tree it moves. -/
structure RenameClear (fs : Fs) (source target : Key) (after : Fs) : Prop where
  safeSource : safeAncestors fs (prefixes (dirname source)) = true
  safeTarget : safeAncestors fs (prefixes (dirname target)) = true
  free : fs.get target = none
  moved : (fs.ensureDirectories (prefixes (dirname target))).bind (·.rename source target) = some after

/-- What a delete needs besides the tree it removes. -/
structure DeleteClear (fs : Fs) (key : Text) (target : Key) (after : Fs) : Prop where
  safe : safeAncestors fs (prefixes (dirname target)) = true
  pruned : (fs.removeUnder target []).prune (artifactFolders key target) = some after
  closed : Sealed key target fs after

end Staaash.Journal
