import Staaash.Library.Ascent
import Staaash.Library.OrderedMap
import Staaash.Library.Visits

/-!
# Folder picks

Ticking folders of the drive, as the desktop client's chooser does it. A folder's name and size play no
part in it and are left out, and so is the tree's root.
-/

namespace Staaash.Chooser

open Staaash.Library

structure ServerFolder where
  id : String
  parentId : Option String
deriving DecidableEq, Repr

structure FolderTree where
  childrenOf : OrderedMap String (List ServerFolder)
  byId : OrderedMap String ServerFolder

/-- An id as a condition reads it: the empty one counts as none. -/
def truthy (id : Option String) : Option String := id.filter (· ≠ "")

def buildMoveTree (folders : List ServerFolder) : FolderTree where
  childrenOf := folders.foldl
    (fun m folder =>
      match truthy folder.parentId with
      | none => m
      | some parentId => m.set parentId ((m.get parentId).getD [] ++ [folder]))
    .empty
  byId := .ofList (folders.map fun folder => (folder.id, folder))

/-- What is ticked: folders picked to sync with all they hold, and folders left out of a picked folder
above them. The sets keep the order in which their members came. -/
structure Picks where
  included : List String
  skipped : List String
deriving DecidableEq, Repr

namespace FolderTree

/-- `byId.get(at)?.parentId`, where the loop of `lineage` goes on with it. -/
def parentOf (tree : FolderTree) (id : String) : Option String :=
  truthy ((tree.byId.get id).bind ServerFolder.parentId)

/-- The folder and every folder above it, nearest first. The loop stops at an id that it has seen. -/
def lineage (tree : FolderTree) (id : String) : List String :=
  if id = "" then [] else ascent (·) tree.parentOf (tree.byId.keys.length + 1) [] id

/-- `below`, at most `depth` folders deep. -/
def belowFrom (tree : FolderTree) : Nat → String → List String
  | 0, _ => []
  | depth + 1, id =>
    ((tree.childrenOf.get id).getD []).flatMap fun child => child.id :: tree.belowFrom depth child.id

/-- Every folder under `id`. No folder lies deeper than there are folders. -/
def below (tree : FolderTree) (id : String) : List String := tree.belowFrom tree.byId.keys.length id

end FolderTree

/-- The loop of `pickHolding`. -/
def holdingIn (picks : Picks) : List String → Option String
  | [] => none
  | at' :: rest =>
    if at' ∈ picks.skipped then none
    else if at' ∈ picks.included then some at'
    else holdingIn picks rest

/-- The picked folder that holds `id`, unless a skip lies between them. -/
def pickHolding (tree : FolderTree) (picks : Picks) (id : String) : Option String :=
  holdingIn picks (tree.lineage id)

inductive Tick
  | on
  | part
  | off
deriving DecidableEq, Repr

def tickOf (tree : FolderTree) (picks : Picks) (id : String) : Tick :=
  if (truthy (pickHolding tree picks id)).isSome then
    if (tree.below id).any (· ∈ picks.skipped) then .part else .on
  else if (tree.below id).any (· ∈ picks.included) then .part else .off

def toggleTick (tree : FolderTree) (picks : Picks) (id : String) : Picks :=
  let included := picks.included.filter (· ∉ tree.below id)
  let skipped := picks.skipped.filter (· ∉ tree.below id)
  if tickOf tree picks id = .on then
    if id ∈ included then ⟨included.filter (· ≠ id), skipped⟩
    else ⟨included, insertLast skipped id⟩
  else if id ∈ skipped then ⟨included, skipped.filter (· ≠ id)⟩
  else if (truthy (pickHolding tree picks id)).isNone then ⟨insertLast included id, skipped⟩
  else ⟨included, skipped⟩

/-- The picked folders, each with the folders it leaves out. -/
def pickedFolders (tree : FolderTree) (picks : Picks) : List (ServerFolder × List ServerFolder) :=
  ((tree.byId.entries.map Prod.snd).filter fun folder => folder.id ∈ picks.included).map fun folder =>
    (folder, picks.skipped.filterMap fun id =>
      (tree.byId.get id).filter fun skip =>
        (truthy skip.parentId).any fun parentId => pickHolding tree picks parentId = some folder.id)

/-! ## What the ticks show -/

/-- The folders of a drive: each has its own id, and none lies inside itself. -/
structure IsForest (folders : List ServerFolder) : Prop where
  ids : (folders.map ServerFolder.id).Nodup
  named : ∀ folder ∈ folders, folder.id ≠ ""
  acyclic : Acyclic (buildMoveTree folders).parentOf

/-- The folders that lie at `id` or below it. -/
def Subtree (tree : FolderTree) (id x : String) : Prop :=
  tree.byId.has x = true ∧ AtOrAbove tree.parentOf x id

/-- The folders that are synced. -/
def Synced (tree : FolderTree) (picks : Picks) (x : String) : Prop :=
  tree.byId.has x = true ∧ pickHolding tree picks x ≠ none

/-- What a pair of a picked folder and its skips syncs. -/
def InPair (tree : FolderTree) (pair : ServerFolder × List ServerFolder) (x : String) : Prop :=
  Subtree tree pair.1.id x ∧ ∀ skip ∈ pair.2, ¬ Subtree tree skip.id x

/-- The picks after ticking and unticking some folders, from nothing ticked. -/
def ticked (tree : FolderTree) (ids : List String) : Picks := ids.foldl (toggleTick tree) ⟨[], []⟩

end Staaash.Chooser
