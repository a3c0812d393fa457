import Staaash.Planner.Plan

/-!
# What a plan may do

The promises of a plan, stated about its input and its actions only: when it may delete, what it may
overwrite, what it must leave alone, and when two sides agree.
-/

namespace Staaash.Planner

variable (P : Platform) (input : PlanInput)

/-- No two local entries, and no two server items, collide on a path key. -/
structure PlanInput.DistinctKeys : Prop where
  onLocal : (input.locals.map fun entry => P.pathKey entry.rel).Nodup
  onRemote : (input.remote.map fun each => P.pathKey each.rel).Nodup

/-- The base entry the planner sees at a key: the last one saved under it. -/
def BaseAt (k : Rel) (previous : BaseEntry) : Prop := (view P input).base.get k = some previous

/-- A local entry with an id to go by whose key no base entry has. -/
def Unsynced (here : LocalFile) : Prop :=
  here ∈ input.locals ∧ here.ino ≠ UNKNOWN_INO ∧
    ∀ each ∈ input.base, P.pathKey each.rel ≠ P.pathKey here.rel

/-- The inode is known, and found at a local path that is not synced or that sync leaves alone. -/
def InodeElsewhere (ino : String) : Prop :=
  ino ≠ UNKNOWN_INO ∧
    ((∃ here, Unsynced P input here ∧ here.ino = ino) ∨
      ∃ each ∈ input.allExcluded, each.ino = some ino)

/-- The item is in the pair, or behind a path sync leaves alone. -/
def OnServer (id : String) : Prop :=
  (∃ each ∈ input.remote, each.item.id = id) ∨
    ∃ each ∈ input.allExcluded, each.remoteId = some id

/-- The local file is the one last synced, by its stat or, without a saved id, by its bytes. -/
def UnchangedHere (here : LocalFile) (previous : BaseEntry) : Prop :=
  sameStat here previous = true ∨
    (idToSave (some previous) here = true ∧ here.checksum.map some = some previous.checksum)

/-- The server still holds the item last synced, with the content last synced. -/
def UnchangedThere (there : ScopedItem) (previous : BaseEntry) : Prop :=
  previous.remoteId = there.item.id ∧ sameOnServer previous there.item = true

/-- No excluded path is the path `k` or a folder above it. -/
def NotExcluded (k : Rel) : Prop :=
  ∀ each ∈ input.allExcluded, P.pathKey each.rel ≠ [] →
    P.pathKey each.rel ≠ k ∧ ¬ Below (P.pathKey each.rel) k

/-! ## Deletions -/

/-- What must hold for a plan to trash the local entry `here` at the key `k`. -/
structure MayTrashLocal (k : Rel) (here : LocalFile) : Prop where
  mode : input.mode ≠ .upload
  notExcluded : NotExcluded P input k
  present : here ∈ input.locals ∧ P.pathKey here.rel = k
  missing : ∀ each ∈ input.remote, P.pathKey each.rel ≠ k
  synced : ∃ previous, BaseAt P input k previous ∧ ¬ OnServer input previous.remoteId ∧
    (here.type = .file → UnchangedHere here previous)
  filesBelow : here.type = .folder → ∀ each ∈ input.locals, each.type = .file →
    Below k (P.pathKey each.rel) →
    ∃ previous, BaseAt P input (P.pathKey each.rel) previous ∧ previous.type = .file ∧
      sameStat each previous = true
  foldersBelow : here.type = .folder → ∀ each ∈ input.locals, each.type = .folder →
    Below k (P.pathKey each.rel) →
    ∃ previous, BaseAt P input (P.pathKey each.rel) previous ∧ previous.type = .folder
  excludedBelow : here.type = .folder → ∀ each ∈ input.allExcluded, each.side = .onLocal →
    ¬ Below k (P.pathKey each.rel)

/-- What must hold for a plan to trash the server item `remote` at the key `k`. -/
structure MayTrashRemote (k : Rel) (remote : RemoteItem) : Prop where
  mode : input.mode = .twoWay
  notExcluded : NotExcluded P input k
  present : ∃ each ∈ input.remote, P.pathKey each.rel = k ∧ each.item = remote
  missing : ∀ each ∈ input.locals, P.pathKey each.rel ≠ k
  synced : ∃ previous, BaseAt P input k previous ∧ ¬ InodeElsewhere P input previous.ino ∧
    (remote.type = .file → previous.remoteId = remote.id ∧ sameOnServer previous remote = true)
  itemsBelow : remote.type = .folder → ∀ each ∈ input.remote, Below k (P.pathKey each.rel) →
    ∃ previous, BaseAt P input (P.pathKey each.rel) previous ∧
      previous.remoteId = each.item.id ∧
      (each.item.type = .file → sameOnServer previous each.item = true)
  excludedBelow : remote.type = .folder → ∀ each ∈ input.allExcluded, each.side = .onRemote →
    ¬ Below k (P.pathKey each.rel)

/-! ## Overwrites -/

/-- The path an action is about: where it happens, or where a move starts. -/
def Action.rel : Action → Rel
  | .moveLocal moveFrom _ _ => moveFrom
  | .moveRemote moveFrom _ _ _ => moveFrom
  | .mkdir rel _ => rel
  | .createRemoteFolder rel _ => rel
  | .download rel _ _ => rel
  | .upload rel _ _ => rel
  | .keepMine rel _ _ => rel
  | .conflictCopy rel _ _ _ => rel
  | .trashLocal rel _ => rel
  | .trashRemote rel _ => rel
  | .link rel _ _ => rel
  | .forget rel => rel

/-- No local entry has the key of `rel`. -/
def FreeHere (rel : Rel) : Prop := ∀ each ∈ input.locals, P.pathKey each.rel ≠ P.pathKey rel

/-- No server item has the key of `rel`. -/
def FreeThere (rel : Rel) : Prop := ∀ each ∈ input.remote, P.pathKey each.rel ≠ P.pathKey rel

instance (rel : Rel) : Decidable (FreeHere P input rel) :=
  inferInstanceAs (Decidable (∀ each ∈ input.locals, P.pathKey each.rel ≠ P.pathKey rel))

instance (rel : Rel) : Decidable (FreeThere P input rel) :=
  inferInstanceAs (Decidable (∀ each ∈ input.remote, P.pathKey each.rel ≠ P.pathKey rel))

/-- What an action would overwrite is nothing, or something both sides have synced. -/
def OverwritesOnlySynced : Action → Prop
  | .download rel _ (some expect) =>
    expect ∈ input.locals ∧ P.pathKey expect.rel = P.pathKey rel ∧ expect.type = .file ∧
      ∃ previous, BaseAt P input (P.pathKey rel) previous ∧
        checksumOf expect (some previous) = some previous.checksum
  | .download rel _ none => FreeHere P input rel
  | .mkdir rel _ => FreeHere P input rel
  | .upload rel _ (some replace) =>
    ∃ each ∈ input.remote, P.pathKey each.rel = P.pathKey rel ∧ each.item.type = .file ∧
      each.item.id = replace.remoteId ∧ each.item.rev = replace.rev ∧
      ∃ previous, BaseAt P input (P.pathKey rel) previous ∧
        previous.remoteId = replace.remoteId ∧ sameOnServer previous each.item = true
  | .upload rel _ none => FreeThere P input rel
  | .createRemoteFolder rel _ => FreeThere P input rel
  | .moveLocal _ moveTo _ => FreeHere P input moveTo
  | .moveRemote _ moveTo base _ =>
    ∀ each ∈ input.remote, P.pathKey each.rel = P.pathKey moveTo → each.item.id = base.remoteId
  | _ => True

/-- The file is on both sides at the key `k`, and both sides changed it since the base. -/
structure ChangedOnBothSides (k : Rel) (here : LocalFile) (there : ScopedItem)
    (mine : Option String) : Prop where
  here_mem : here ∈ input.locals ∧ P.pathKey here.rel = k ∧ here.type = .file
  there_mem : there ∈ input.remote ∧ P.pathKey there.rel = k ∧ there.item.type = .file
  known : checksumOf here ((view P input).base.get k) = some mine
  localChanged : localChanged ((view P input).base.get k) mine = true
  remoteChanged : remoteChanged ((view P input).base.get k) there = true

/-- The answers to a file changed on both sides. -/
def ResolvesConflict (there : ScopedItem) (mine : Option String) : Action → Prop
  | .link _ _ _ => mine = there.item.checksum
  | .conflictCopy _ _ _ _ => input.mode ≠ .upload
  | .keepMine _ _ _ => input.mode = .upload
  | _ => False

/-- A server rename the planner repeats on a file without a saved id, or whose base entry is not the
one it goes by: it has only the size and the time to tell that the file is still the same. -/
def FollowsRename (k : Rel) (here : LocalFile) : Action → Prop
  | .moveLocal moveFrom moveTo remote =>
    moveFrom = here.rel ∧ P.pathKey moveTo ≠ k ∧
      ∃ entry ∈ input.base, P.pathKey entry.rel = k ∧ entry.remoteId = remote.id ∧
        here.size = entry.size ∧ here.mtimeMs = entry.mtimeMs ∧
        (BaseAt P input k entry → entry.ino = UNKNOWN_INO)
  | _ => False

/-- The key `k` is, or lies below, a synced folder that was renamed to a path sync leaves alone. -/
def OutOfSight (k : Rel) : Prop :=
  ∃ p folder, p ≠ [] ∧ (p = k ∨ Below p k) ∧ BaseAt P input p folder ∧ folder.type = .folder ∧
    ((folder.ino ≠ UNKNOWN_INO ∧ ∃ each ∈ input.allExcluded, each.ino = some folder.ino) ∨
      ∃ each ∈ input.allExcluded, each.remoteId = some folder.remoteId)

/-- The path is forgotten with a folder that went out of sight. -/
def ForgottenWithFolder (k : Rel) : Action → Prop
  | .forget _ => OutOfSight P input k
  | _ => False

/-! ## Moves -/

/-- The path is the folder `k` itself or lies below it. -/
def AtOrBelow (k t : Rel) : Prop := t = k ∨ Below k t

/-! ## Agreement -/

/-- The move the planner recognises for a base entry. -/
def recognisedMove (v : View) (entry : BaseEntry) : Option Move :=
  (serverMove P v entry).or (localMove P v entry)

/-- Every entry lies directly in the pair's folder or in a folder of its own side. -/
structure PlanInput.ParentClosed : Prop where
  onLocal : ∀ each ∈ input.locals, parentRel (P.pathKey each.rel) ≠ [] →
    ∃ folder ∈ input.locals, P.pathKey folder.rel = parentRel (P.pathKey each.rel) ∧
      folder.type = .folder
  onRemote : ∀ each ∈ input.remote, parentRel (P.pathKey each.rel) ≠ [] →
    ∃ folder ∈ input.remote, P.pathKey folder.rel = parentRel (P.pathKey each.rel) ∧
      folder.item.type = .folder

/-- The plan has nothing to do, nothing to ask and nothing to hash. -/
structure Quiescent : Prop where
  hold : (plan P input).hold = none
  actions : (plan P input).actions = []
  needsHash : (plan P input).needsHash = []

/-- The local file holds what the server has: the checksum where the server has one, else the
content of the base at the revision of the base. -/
def SameContent (here : LocalFile) (there : ScopedItem) (previous : BaseEntry) : Prop :=
  match there.item.checksum with
  | some checksum => checksumOf here (some previous) = some (some checksum)
  | none => previous.rev = there.item.rev ∧
      checksumOf here (some previous) = some previous.checksum

/-- Both sides and the base have the same paths, with the same types, ids and contents. -/
structure Agreement : Prop where
  onServer : ∀ here ∈ input.locals, ∃ there ∈ input.remote,
    P.pathKey there.rel = P.pathKey here.rel
  onLocal : ∀ there ∈ input.remote, ∃ here ∈ input.locals,
    P.pathKey here.rel = P.pathKey there.rel
  inBase : ∀ here ∈ input.locals, ∃ previous ∈ input.base,
    P.pathKey previous.rel = P.pathKey here.rel
  fromBase : ∀ previous ∈ input.base, ∃ here ∈ input.locals,
    P.pathKey here.rel = P.pathKey previous.rel
  types : ∀ here ∈ input.locals, ∀ there ∈ input.remote,
    P.pathKey here.rel = P.pathKey there.rel → here.type = there.item.type
  ids : ∀ there ∈ input.remote, ∀ previous, BaseAt P input (P.pathKey there.rel) previous →
    previous.remoteId = there.item.id
  contents : ∀ here ∈ input.locals, here.type = .file → ∀ there ∈ input.remote,
    P.pathKey here.rel = P.pathKey there.rel →
    ∀ previous, BaseAt P input (P.pathKey here.rel) previous → SameContent here there previous

/-! ## Small inputs -/

/-- A disk that tells all names apart, with names in composed form. -/
def linux : Platform := { caseInsensitive := false, normalizeNfc := id, toLowerCase := id }

def smallFile (rel ino : String) (checksum : Option String) : LocalFile :=
  { rel := rel.toList, type := .file, size := 3, mtimeMs := 1000, ino, checksum }

def smallFolder (rel ino : String) : LocalFile :=
  { rel := rel.toList, type := .folder, size := 0, mtimeMs := 1, ino, checksum := none }

def serverFile (rel id : String) (checksum : Option String) (rev : Nat) : ScopedItem :=
  { rel := rel.toList
    item := { id, type := .file, parentId := none, name := baseName rel.toList, size := some 3,
              checksum, rev, modifiedAt := none } }

def serverFolder (rel id : String) : ScopedItem :=
  { rel := rel.toList
    item := { id, type := .folder, parentId := none, name := baseName rel.toList, size := none,
              checksum := none, rev := 1, modifiedAt := none } }

/-- What the base records once `here` was synced with the server item `id`. -/
def syncedAs (here : LocalFile) (id : String) (checksum : Option String) : BaseEntry :=
  { pairId := "p", rel := here.rel, type := here.type, remoteId := id, rev := 1, checksum
    size := here.size, mtimeMs := here.mtimeMs, ino := here.ino }

/-- A pair with nothing excluded. -/
def smallPair (mode : SyncMode) (locals : List LocalFile) (remote : List ScopedItem)
    (base : List BaseEntry) : PlanInput :=
  { pairId := "p", mode, locals, remote, skipped := [], excluded := [], base
    allowEmptied := false }

end Staaash.Planner
