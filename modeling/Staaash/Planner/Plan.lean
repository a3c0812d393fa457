import Staaash.Library.OrderedMap
import Staaash.Planner.Types
import Mathlib.Data.List.Sort

/-!
# The sync planner

What to do with every path of one pair, from the computer, the server and the base. The planner is
pure: the engine reads both sides, asks for a plan, runs its actions and plans again.
-/

namespace Staaash.Planner

open Staaash.Library (OrderedMap)

/-- Below this many synced files an emptied side is taken at its word. -/
def EMPTIED_HOLD_FILES : Nat := 10

/-- Some server files have no checksum; only their revision can show a change. -/
def sameOnServer (previous : BaseEntry) (item : RemoteItem) : Bool :=
  match item.checksum with
  | none => previous.rev = item.rev
  | some _ => item.checksum = previous.checksum

/-- Whether `key` or one of its folders is in one of the sets. -/
def covered (key : Rel) (sets : List (List Rel)) : Bool :=
  (upwards key).any fun each => sets.any fun set => set.contains each

/-- Add the folders of a walk upwards, stopping at the first one that is known already. -/
def markDirty (dirty : List Rel) : List Rel → List Rel
  | [] => dirty
  | parent :: rest => if dirty.contains parent then dirty else markDirty (parent :: dirty) rest

/-- Folders whose subtree differs from the base on one side. -/
def dirtyFolders (keys : List Rel) (isClean : Rel → Bool) : List Rel :=
  keys.foldl
    (fun dirty key => if isClean key then dirty else markDirty dirty (upwards (parentRel key))) []

/-- Excluded paths, and the inodes and server ids behind them. -/
structure Hidden where
  keys : List Rel
  inos : List String
  ids : List String

/-- One set of paths for each side. -/
structure BySide where
  onLocal : List Rel
  onRemote : List Rel

/-- Both sides and the base, indexed the ways the planner looks them up. -/
structure View where
  mode : SyncMode
  locals : OrderedMap Rel LocalFile
  remote : OrderedMap Rel ScopedItem
  base : OrderedMap Rel BaseEntry
  remoteById : OrderedMap String ScopedItem
  /-- Local entries the base does not know, by inode: candidates for moves. -/
  localByIno : OrderedMap String LocalFile
  hidden : Hidden
  /-- Folders with an excluded path inside, by side; they are never trashed. -/
  hiddenUnder : BySide

/-- One path, as each side and the base see it. -/
structure Cell where
  key : Rel
  rel : Rel
  here : Option LocalFile
  there : Option ScopedItem
  previous : Option BaseEntry

/-- The excluded paths together with the server items this computer cannot hold. -/
def PlanInput.allExcluded (input : PlanInput) : List Excluded :=
  input.excluded ++ input.skipped.map fun skip =>
    { side := .onRemote, rel := skip.rel, ino := none, remoteId := some skip.item.id }

variable (P : Platform)

/-- The folders above the excluded paths of one side. -/
def hiddenUnderOf (excluded : List Excluded) (side : Side) : List Rel :=
  dirtyFolders ((excluded.filter fun each => each.side = side).map fun each => P.pathKey each.rel)
    fun _ => false

def view (input : PlanInput) : View :=
  let base := OrderedMap.ofList (input.base.map fun entry => (P.pathKey entry.rel, entry))
  let excluded := input.allExcluded
  { mode := input.mode
    locals := OrderedMap.ofList (input.locals.map fun entry => (P.pathKey entry.rel, entry))
    remote := OrderedMap.ofList (input.remote.map fun each => (P.pathKey each.rel, each))
    base
    remoteById := OrderedMap.ofList (input.remote.map fun each => (each.item.id, each))
    localByIno := OrderedMap.ofList
      ((input.locals.filter fun entry =>
          entry.ino ≠ UNKNOWN_INO && !base.has (P.pathKey entry.rel)).map
        fun entry => (entry.ino, entry))
    hidden :=
      { keys := excluded.map fun each => P.pathKey each.rel
        inos := excluded.filterMap fun each => each.ino
        ids := excluded.filterMap fun each => each.remoteId }
    hiddenUnder :=
      { onLocal := hiddenUnderOf P excluded .onLocal
        onRemote := hiddenUnderOf P excluded .onRemote } }

/-- Synced folders renamed on either side to a name sync leaves alone. Their old paths, and
everything under them, are forgotten, never deleted. -/
def vanishedFolders (v : View) : List Rel :=
  (v.base.entries.filter fun (key, entry) =>
    entry.type = .folder && !covered key [v.hidden.keys] &&
      ((entry.ino ≠ UNKNOWN_INO && v.hidden.inos.contains entry.ino) ||
        v.hidden.ids.contains entry.remoteId)).map Prod.fst

/-- The server item still exists somewhere, so a missing local path is not a delete. -/
def stillOnServer (v : View) (previous : BaseEntry) : Bool :=
  v.remoteById.has previous.remoteId || v.hidden.ids.contains previous.remoteId

/-- The local file or folder still exists somewhere, so a missing path is not a delete. -/
def stillHere (v : View) (previous : BaseEntry) : Bool :=
  previous.ino ≠ UNKNOWN_INO &&
    (v.localByIno.has previous.ino || v.hidden.inos.contains previous.ino)

/-- An unmounted drive often leaves an empty mount folder behind. Emptying a small folder on
purpose is normal; emptying a big one needs a yes. -/
def holdFor (input : PlanInput) : Option Hold :=
  if input.allowEmptied then none
  else if (input.base.filter fun entry => entry.type = .file).length < EMPTIED_HOLD_FILES then none
  else if input.locals.length = 0 && input.mode = .twoWay then some .emptiedLocal
  else if input.remote.length = 0 && input.mode ≠ .upload then some .emptiedServer
  else none

/-- A recognised move; there is no action while the folder it goes to is missing. -/
structure Move where
  target : Rel
  action : Option Action

/-- A server move this computer can repeat; no action while its folder is missing. -/
def serverMove (v : View) (entry : BaseEntry) : Option Move :=
  let key := P.pathKey entry.rel
  match v.remoteById.get entry.remoteId with
  | none => none
  | some onServer =>
    let target := P.pathKey onServer.rel
    if v.mode = .upload || target = key then none
    else match v.locals.get key with
    | none => none
    | some here =>
      -- Following a rename moves no bytes, so an unknown id need not block it.
      let known := if entry.ino = UNKNOWN_INO then { entry with ino := here.ino } else entry
      if here.type ≠ entry.type || v.locals.has target then none
      else if entry.type = .file && !sameStat here known then none
      else
        let ready := parentRel target = [] ||
          (v.locals.get (parentRel target)).map (·.type) = some .folder
        some { target
               action := if ready then some (.moveLocal here.rel onServer.rel onServer.item)
                 else none }

/-- A move and rename is two server calls. A stop between them leaves the server item with the new
folder and the old name, or the other way round. -/
def halfway (moveFrom there moveTo : Rel) : Bool :=
  (parentRel there = parentRel moveTo && baseName there = baseName moveFrom) ||
    (parentRel there = parentRel moveFrom && baseName there = baseName moveTo)

/-- A local move, found by inode, that the server can repeat. -/
def localMove (v : View) (entry : BaseEntry) : Option Move :=
  let key := P.pathKey entry.rel
  if v.mode = .download || v.locals.has key || entry.ino = UNKNOWN_INO then none
  else match v.remoteById.get entry.remoteId, v.localByIno.get entry.ino with
  | some onServer, some moved =>
    let target := P.pathKey moved.rel
    let there := P.pathKey onServer.rel
    if moved.type ≠ entry.type then none
    else if entry.type = .file && !sameStat moved entry then none
    else if there ≠ key && !halfway key there target then none
    else if there ≠ target && v.remote.has target then none
    else
      let ready := parentRel target = [] ||
        (v.remote.get (parentRel target)).map (·.item.type) = some .folder
      some { target
             action := if ready then some (.moveRemote entry.rel moved.rel entry moved) else none }
  | _, _ => none

/-- The moves found so far and the paths they leave out of the rest of the plan. -/
structure Moves where
  moves : List Action
  pending : List Rel

/-- One base entry of `planMoves`. -/
def planMove (v : View) (acc : Moves) (entry : BaseEntry) : Moves :=
  let key := P.pathKey entry.rel
  if covered key [acc.pending, v.hidden.keys] then acc
  else match (serverMove P v entry).or (localMove P v entry) with
  | none => acc
  | some move =>
    if covered move.target [acc.pending, v.hidden.keys] then acc
    else { moves := acc.moves ++ move.action.toList
           pending := move.target :: key :: acc.pending }

/-- Moves come first and alone. Paths that are mid-move are left out of the rest of the plan, so a
move is never mistaken for a delete plus a new file. -/
def planMoves (v : View) (base : List BaseEntry) : Moves :=
  (base.insertionSort fun a b => depth a.rel ≤ depth b.rel).foldl (planMove P v)
    { moves := [], pending := [] }

/-- A local path holds what the base says. -/
def cleanLocal (v : View) (key : Rel) : Bool :=
  match v.locals.get key with
  | none => true
  | some here =>
    match v.base.get key with
    | none => false
    | some previous =>
      previous.type = here.type && (here.type = .folder || sameStat here previous)

/-- A server path holds what the base says. -/
def cleanRemote (v : View) (key : Rel) : Bool :=
  match v.remote.get key with
  | none => true
  | some there =>
    match v.base.get key with
    | none => false
    | some previous =>
      previous.remoteId = there.item.id &&
        (there.item.type = .folder || sameOnServer previous there.item)

/-- Folders whose contents changed on a side since the base, so they stay. -/
def dirtySides (v : View) : BySide :=
  { onLocal := v.hiddenUnder.onLocal ++ dirtyFolders v.locals.keys (cleanLocal v)
    onRemote := v.hiddenUnder.onRemote ++ dirtyFolders v.remote.keys (cleanRemote v) }

/-- What to do about one path; `gone` when everything below it goes with it. -/
structure Decision where
  action : Option Action
  gone : Bool

/-- A decision that leaves the paths below to themselves. -/
def Decision.only (action : Option Action) : Decision := { action, gone := false }

/-- The saved id was unknown and the disk now gives one worth saving. -/
def idToSave (previous : Option BaseEntry) (here : LocalFile) : Bool :=
  previous.map (·.ino) = some UNKNOWN_INO && here.ino ≠ UNKNOWN_INO

/-- Forget a path the base still has. -/
def forgetIfKnown (cell : Cell) : Option Action :=
  cell.previous.map fun _ => .forget cell.rel

def folderOnBothSides (cell : Cell) (here : LocalFile) (there : ScopedItem) : Decision :=
  if cell.previous.map (·.remoteId) ≠ some there.item.id || idToSave cell.previous here then
    .only (some (.link cell.rel here there.item))
  else .only none

/-- A folder only the server has: new there, or deleted here. -/
def folderOnlyThere (v : View) (cell : Cell) (there : ScopedItem) (dirty : List Rel) : Decision :=
  -- Upload-only works like a backup: nothing is deleted on the server.
  let deletedHere : Bool := match cell.previous with
    | none => false
    | some previous =>
      v.mode = .twoWay && !dirty.contains cell.key && !stillHere v previous
  if deletedHere then { action := some (.trashRemote cell.rel there.item), gone := true }
  else if v.mode ≠ .upload then .only (some (.mkdir there.rel there.item))
  else .only (forgetIfKnown cell)

/-- A folder only this computer has: new here, or deleted on the server. -/
def folderOnlyHere (v : View) (cell : Cell) (here : LocalFile) (dirty : List Rel) : Decision :=
  let deletedThere : Bool := match cell.previous with
    | none => false
    | some previous =>
      v.mode ≠ .upload && !dirty.contains cell.key && !stillOnServer v previous
  if deletedThere then { action := some (.trashLocal cell.rel here), gone := true }
  else if v.mode ≠ .download then .only (some (.createRemoteFolder cell.rel here))
  else .only (forgetIfKnown cell)

def planFolder (v : View) (cell : Cell) (dirty : BySide) : Decision :=
  match cell.here, cell.there with
  | some here, some there => folderOnBothSides cell here there
  | none, some there => folderOnlyThere v cell there dirty.onRemote
  | some here, none => folderOnlyHere v cell here dirty.onLocal
  | none, none => .only (forgetIfKnown cell)

/-- The local checksum when it is known without reading the file; the outer `none` is "unknown",
the inner one a base entry without a checksum. -/
def checksumOf (entry : LocalFile) (previous : Option BaseEntry) : Option (Option String) :=
  match previous with
  | some previous =>
    if sameStat entry previous then some previous.checksum else entry.checksum.map some
  | none => entry.checksum.map some

/-- This computer changed the file since the base. -/
def localChanged (previous : Option BaseEntry) (mine : Option String) : Bool :=
  match previous with
  | none => true
  | some previous => mine ≠ previous.checksum

/-- The server changed the file since the base. -/
def remoteChanged (previous : Option BaseEntry) (there : ScopedItem) : Bool :=
  match previous with
  | none => true
  | some previous => previous.remoteId ≠ there.item.id || !sameOnServer previous there.item

/-- Both sides have the file; `mine` is the local checksum. -/
def fileOnBothSides (v : View) (cell : Cell) (here : LocalFile) (there : ScopedItem)
    (mine : Option String) : Option Action :=
  let theirs := there.item.checksum
  let localChanged := localChanged cell.previous mine
  let remoteChanged := remoteChanged cell.previous there
  if mine = theirs then
    let fresh : Bool := match cell.previous with
      | none => false
      | some previous =>
        previous.remoteId = there.item.id && previous.rev = there.item.rev && sameStat here previous
    if fresh then none else some (.link cell.rel here there.item)
  else if !localChanged && !remoteChanged then none
  else if localChanged && remoteChanged then
    if v.mode = .upload then some (.keepMine cell.rel here there.item)
    else some (.conflictCopy cell.rel here (v.mode = .download)
      (if theirs = none then some { remote := there.item, checksum := mine } else none))
  else if localChanged then
    if v.mode = .download then some (.conflictCopy cell.rel here true none)
    else some (.upload cell.rel here (some { remoteId := there.item.id, rev := there.item.rev }))
  else if v.mode = .upload then none
  else some (.download cell.rel there.item (some here))

/-- Only this computer has the file: new here, or deleted on the server. -/
def fileOnlyHere (v : View) (cell : Cell) (here : LocalFile) : Option Action :=
  -- The server item moved somewhere this computer could not follow. Keep the local file; it syncs
  -- as a new one.
  if (cell.previous.map (stillOnServer v)).getD false then some (.forget cell.rel)
  else
    let unchanged : Bool := match cell.previous with
      | none => false
      | some previous =>
        sameStat here previous ||
          (idToSave cell.previous here && here.checksum.map some = some previous.checksum)
    if v.mode = .upload || (v.mode = .twoWay && !unchanged) then
      some (.upload cell.rel here none)
    else if unchanged then some (.trashLocal cell.rel here)
    else forgetIfKnown cell

/-- Only the server has the file: new there, or deleted here. -/
def fileOnlyThere (v : View) (cell : Cell) (there : ScopedItem) : Option Action :=
  let unchanged : Bool := match cell.previous with
    | none => false
    | some previous => previous.remoteId = there.item.id && sameOnServer previous there.item
  if v.mode = .download || (v.mode = .twoWay && !unchanged) then
    some (.download there.rel there.item none)
  -- Moved on this computer in a way the server could not follow.
  else if (cell.previous.map (stillHere v)).getD false then some (.forget cell.rel)
  else if unchanged && v.mode = .twoWay then some (.trashRemote cell.rel there.item)
  else forgetIfKnown cell

/-- One branch per combination of local, server and base. A file that must be hashed first is added
to `needsHash` and decided in a later plan. -/
def decide (v : View) (cell : Cell) (dirty : BySide) (needsHash : List LocalFile) :
    Decision × List LocalFile :=
  let typeClash : Bool := match cell.here, cell.there with
    | some here, some there => here.type ≠ there.item.type
    | _, _ => false
  let type := (cell.here.map (·.type)).or
    ((cell.there.map (·.item.type)).or (cell.previous.map (·.type)))
  match cell.here, cell.there with
  | some here, some there =>
    if typeClash then
      (.only (if v.mode = .upload then none
        else some (.conflictCopy cell.rel here (v.mode = .download) none)), needsHash)
    else if type = some .folder then (planFolder v cell dirty, needsHash)
    else match checksumOf here cell.previous with
    | none => (.only none, needsHash ++ [here])
    | some mine => (.only (fileOnBothSides v cell here there mine), needsHash)
  | some here, none =>
    if type = some .folder then (planFolder v cell dirty, needsHash)
    -- Size and time can't prove an edit away, and an edit beats a delete.
    else if idToSave cell.previous here && here.checksum = none then
      (.only none, needsHash ++ [here])
    else (.only (fileOnlyHere v cell here), needsHash)
  | none, some there =>
    if type = some .folder then (planFolder v cell dirty, needsHash)
    else (.only (fileOnlyThere v cell there), needsHash)
  | none, none =>
    if type = some .folder then (planFolder v cell dirty, needsHash)
    else (.only (forgetIfKnown cell), needsHash)

/-- The path `key` as both sides and the base see it. -/
def cellAt (v : View) (key : Rel) : Cell :=
  let here := v.locals.get key
  let there := v.remote.get key
  let previous := v.base.get key
  { key
    rel := ((here.map (·.rel)).or ((there.map (·.rel)).or (previous.map (·.rel)))).getD key
    here
    there
    previous }

/-- What the walk over all paths has collected. -/
structure Walk where
  actions : List Action
  needsHash : List LocalFile
  gone : List Rel

/-- One path of the walk. -/
def walkKey (v : View) (dirty : BySide) (vanished pending : List Rel) (acc : Walk) (key : Rel) :
    Walk :=
  if covered key [pending, acc.gone, v.hidden.keys] then acc
  else if covered key [vanished] then
    -- Renamed out of sight; the other side's copy syncs again as new.
    { acc with
      actions := acc.actions ++ ((v.base.get key).map fun previous => .forget previous.rel).toList }
  else
    let (decision, needsHash) := decide v (cellAt v key) dirty acc.needsHash
    { actions := acc.actions ++ decision.action.toList
      needsHash
      gone := if decision.gone then key :: acc.gone else acc.gone }

/-- Every path of either side or the base, folders before what they hold. -/
def planKeys (v : View) : List Rel :=
  (v.locals.keys ++ v.remote.keys ++ v.base.keys).eraseDups.insertionSort
    fun a b => depth a ≤ depth b

/-- The walk over all paths once no move is left to make. -/
def walk (v : View) (pending : List Rel) : Walk :=
  (planKeys v).foldl (walkKey v (dirtySides v) (vanishedFolders v) pending)
    { actions := [], needsHash := [], gone := [] }

/-- Decides what to do with every path in one pair: hold, moves, then every path, in that order. -/
def plan (input : PlanInput) : Plan :=
  let issues := input.skipped.map fun skip =>
    { pairId := input.pairId, rel := skip.rel, source := .scan, kind := .invalidName
      message := skip.reason, remoteId := some skip.item.id }
  match holdFor input with
  | some hold => { actions := [], issues, hold := some hold, needsHash := [] }
  | none =>
    let v := view P input
    let found := planMoves P v input.base
    if found.moves ≠ [] then { actions := found.moves, issues, hold := none, needsHash := [] }
    else
      let result := walk v found.pending
      { actions := result.actions, issues, hold := none, needsHash := result.needsHash }

end Staaash.Planner
