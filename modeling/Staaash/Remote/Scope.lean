import Staaash.Pair.LocalScan
import Staaash.Remote.Tree

/-!
# What a walk through a pair folder leaves behind

The planner takes the lists of `scope` for the whole of the server's side: an item that is in none of
them, nor below one that is left out, has been deleted. So every item below the pair folder has to
have one place, and the items that are kept have to have keys and folders of their own.
-/

namespace Staaash.Remote

open Staaash.Library
open Staaash.Planner

namespace RemoteTree

/-- The trees that the constructor and the methods of `RemoteTree` make. -/
inductive Made : RemoteTree → Prop
  | ofStore (remoteItems : List RemoteItem) (roots : List String) : Made (ofStore remoteItems roots)
  | clear {t : RemoteTree} : Made t → Made t.clear
  | setRoots {t : RemoteTree} (roots : List String) : Made t → Made (t.setRoots roots)
  | replaceUnder {t t' : RemoteTree} {fuel : Nat} {rootId : String} {items : List RemoteItem} :
      Made t → t.replaceUnder fuel rootId items = some t' → Made t'
  | addUnder {t : RemoteTree} (items : List RemoteItem) : Made t → Made (t.addUnder items)
  | apply {t t' : RemoteTree} {fuel : Nat} {change : StorageChange} {folderId : Option String} :
      Made t → t.apply fuel change = some (t', folderId) → Made t'
  | set {t t' : RemoteTree} {fuel : Nat} {item : RemoteItem} :
      Made t → t.set fuel item = some t' → Made t'

/-- What the server sees to: below the folder every name is there and no slash divides it, and what
holds an item is a folder. -/
structure Named (t : RemoteTree) (rootId : String) : Prop where
  name : ∀ x item, t.items.get x = some item → Above t.up x rootId →
    item.name ≠ [] ∧ '/' ∉ item.name
  inFolder : ∀ x y item, t.up x = some y → Above t.up y rootId → t.items.get y = some item →
    item.type = .folder

/-- Where an item below the pair folder can be. -/
inductive Place
  | items
  | skipped
  | ignored
  /-- Below an item that is skipped or ignored. -/
  | below
deriving DecidableEq

namespace Scoped

/-- What is left out, for a reason or quietly. -/
def leftOut (s : Scoped) : List ScopedItem :=
  s.skipped.map (fun each => ⟨each.rel, each.item⟩) ++ s.ignored

def listed (s : Scoped) : List ScopedItem := s.items ++ s.leftOut

/-- The item `x` is at the place. -/
def Puts (s : Scoped) (t : RemoteTree) (x : String) : Place → Prop
  | .items => ∃ each ∈ s.items, each.item.id = x
  | .skipped => ∃ each ∈ s.skipped, each.item.id = x
  | .ignored => ∃ each ∈ s.ignored, each.item.id = x
  | .below => ∃ each ∈ s.leftOut, Above t.up x each.item.id

/-- The lists tell the items below the pair folder apart, and lose none. -/
structure Partitions (s : Scoped) (P : Platform) (t : RemoteTree) (rootId : String) : Prop where
  /-- Only items of the tree below the pair folder are listed, none of them twice. -/
  known : ∀ each ∈ s.listed, t.items.get each.item.id = some each.item ∧
    Above t.up each.item.id rootId
  once : (s.listed.map (·.item.id)).Nodup
  placed : ∀ x item, t.items.get x = some item → Above t.up x rootId →
    ∃! place, s.Puts t x place
  keys : (s.items.map fun each => P.pathKey each.rel).Nodup
  /-- In paths, and in the keys that the planner compares. -/
  apart : ∀ each ∈ s.items, ∀ out ∈ s.leftOut, ¬Below out.rel each.rel
  keysApart : ∀ each ∈ s.items, ∀ out ∈ s.leftOut,
    ¬AtOrBelow (P.pathKey out.rel) (P.pathKey each.rel)
  parents : ∀ each ∈ s.items,
    (each.item.parentId = some rootId ∧ parentRel each.rel = []) ∨
      ∃ folder ∈ s.items, folder.item.type = .folder ∧ each.item.parentId = some folder.item.id ∧
        parentRel each.rel = folder.rel

end Scoped

/-! ## The rounds of the walk -/

/-- What a round does with an item. -/
inductive Fate
  | kept
  | skipped (reason : String)
  | ignored
deriving DecidableEq

/-- A round of the walk's loop. -/
structure Visit where
  rel : Rel
  item : RemoteItem
  fate : Fate

def fateOf (R : Reading) (rel : Rel) (entry : RemoteItem × Nat) : Fate :=
  if R.ignore entry.1.name || R.leftOut entry.1.id rel then .ignored
  else
    match (invalidNameReason R.windows entry.1.name).or
        (if entry.2 > 1 then some ("Another item here has the same name in different letter case, " ++
          "which this computer treats as the same name.") else none) with
    | some reason => .skipped reason
    | none => .kept

/-- The round for an item, and the rounds below it when the walk goes there. -/
def block (R : Reading) (walk : String → Rel → List Visit) (parentRel : Rel)
    (entry : RemoteItem × Nat) : List Visit :=
  let rel := joinRel parentRel entry.1.name
  ⟨rel, entry.1, fateOf R rel entry⟩ ::
    if fateOf R rel entry = .kept ∧ entry.1.type = .folder then walk entry.1.id rel else []

/-- The rounds of `scopeFrom`. -/
def visits (t : RemoteTree) (R : Reading) : Nat → String → Rel → List Visit
  | 0, _, _ => []
  | fuel + 1, parentId, parentRel =>
    (t.entriesOf R.platform parentId).flatMap (block R (t.visits R fuel) parentRel)

/-- What the rounds add to the lists. -/
def resultOf (vs : List Visit) : Scoped where
  items := vs.filterMap fun v => match v.fate with
    | .kept => some ⟨v.rel, v.item⟩
    | _ => none
  skipped := vs.filterMap fun v => match v.fate with
    | .skipped reason => some ⟨v.rel, v.item, reason⟩
    | _ => none
  ignored := vs.filterMap fun v => match v.fate with
    | .ignored => some ⟨v.rel, v.item⟩
    | _ => none

end RemoteTree

end Staaash.Remote
