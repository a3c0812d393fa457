import Staaash.Library.Interrupted
import Staaash.Planner.Types

/-!
# The handlers of a pair's actions

One handler for each kind of action, as `pair-sync.ts` runs them. A handler looks at the disk and at
what it knows of the server, changes the one or the other, and writes down what both sides agree on.
What a call finds and how it ends comes from a list of answers, so that whatever is said here is said
about every answer: a call returns, throws, or is never come back from, with or without its effect.
-/

namespace Staaash.Pair

open Staaash.Library (Proc Stop)
open Staaash.Planner

/-! ## What a handler changes -/

/-- A change on this computer. -/
inductive LocalChange
  | rename (source target : Rel)
  /-- The folder, and the folders above it that are missing. -/
  | mkdir (rel : Rel)
  /-- A temporary file beside `rel`. -/
  | writeTemp (rel : Rel)
  | removeTemp (rel : Rel)
  /-- The temporary file beside `rel` becomes `rel`. -/
  | moveIntoPlace (rel : Rel)
  /-- To the computer's trash, with everything below. -/
  | trash (rel : Rel)
deriving DecidableEq, Repr

/-- A change on the server. -/
inductive ServerChange
  | move (id : String) (rev : Nat) (parentId : String)
  | rename (id : String) (rev : Nat) (name : Rel)
  | createFolder (parentId : String) (name : Rel)
  /-- A new file, or new bytes for the file it replaces, which keeps its id. -/
  | upload (parentId : String) (name : Rel) (checksum : String) (replace : Option Replace)
  /-- The file takes the copy's bytes; its own go to the trash, and the copy is used up. -/
  | keepMine (id : String) (rev : Nat) (copyId : String)
  | trash (id : String) (rev : Nat)
deriving DecidableEq, Repr

/-- A change of what the engine remembers. -/
inductive StoreChange
  | putBase (entry : BaseEntry)
  | deleteBase (rel : Rel)
  | deleteBaseTree (rel : Rel)
  | moveBaseTree (source target : Rel)
  | addConflict (rel copyRel : Rel)
deriving DecidableEq, Repr

/-- A change of the server tree in memory. -/
inductive TreeChange
  | set (item : RemoteItem)
  | removeSubtree (id : String)
deriving DecidableEq, Repr

inductive Change
  | onLocal (c : LocalChange)
  | onServer (c : ServerChange)
  | inStore (c : StoreChange)
  | inTree (c : TreeChange)
deriving DecidableEq, Repr

/-! ## The base table -/

/-- `rel` is the path itself or lies below it, spelled exactly so. -/
def atOrBelow (folder rel : Rel) : Bool := rel = folder || (folder ++ ['/']).isPrefixOf rel

/-- `INSERT OR REPLACE`: the primary key is the pair and the path as it is spelled. -/
def putBase (base : List BaseEntry) (entry : BaseEntry) : List BaseEntry :=
  entry :: base.filter fun row => row.rel ≠ entry.rel

def deleteBase (base : List BaseEntry) (rel : Rel) : List BaseEntry :=
  base.filter fun row => row.rel ≠ rel

/-- Removes a folder's entry and everything under it. -/
def deleteBaseTree (base : List BaseEntry) (rel : Rel) : List BaseEntry :=
  base.filter fun row => !atOrBelow rel row.rel

/-- The path of a row after a move. -/
def movedRel (source target rel : Rel) : Rel := target ++ rel.drop source.length

/-- Renames a path and everything under it after a move on either side. -/
def moveBaseTree (base : List BaseEntry) (source target : Rel) : List BaseEntry :=
  (base.filter fun row => atOrBelow source row.rel).foldl
    (fun acc row => putBase acc { row with rel := movedRel source target row.rel })
    (deleteBaseTree base source)

/-- The rows of the pair after a change of the store. -/
def StoreChange.apply (base : List BaseEntry) : StoreChange → List BaseEntry
  | .putBase entry => Pair.putBase base entry
  | .deleteBase rel => Pair.deleteBase base rel
  | .deleteBaseTree rel => Pair.deleteBaseTree base rel
  | .moveBaseTree source target => Pair.moveBaseTree base source target
  | .addConflict _ _ => base

/-! ## Calls -/

/-- How a call ends. -/
inductive Ends
  | returns
  /-- The server refuses, the disk fails or the connection is lost. -/
  | throws (took : Bool)
  /-- The app is stopped. -/
  | stops (took : Bool)
deriving DecidableEq, Repr

/-- How a call ends and what it finds; each call reads the part that it asks for. -/
structure Answer where
  ends : Ends
  stat : Option LocalFile
  item : Option RemoteItem
  id : Option String
  checksum : String
  name : Rel
  yes : Bool
deriving DecidableEq, Repr

structure Desk where
  pairId : String
  base : List BaseEntry
  answers : List Answer
  /-- What was changed, newest first. -/
  changes : List Change
deriving DecidableEq, Repr

abbrev H := Proc Desk Unit

def Desk.change (d : Desk) (c : Change) : Desk :=
  { d with
    changes := c :: d.changes
    base :=
      match c with
      | .inStore s => s.apply d.base
      | _ => d.base }

/-- One call that makes the change `c`, if it makes any. Without an answer the app is stopped. -/
def callFor (c : Option Change) : H Answer := fun d =>
  match d.answers with
  | [] => .error .crash d
  | a :: answers =>
    let before := { d with answers }
    let after := c.elim before before.change
    match a.ends with
    | .returns => .ok a after
    | .throws took => .error (.thrown ()) (if took then after else before)
    | .stops took => .error .crash (if took then after else before)

/-- A call that only looks. -/
def ask : H Answer := callFor none

def change (c : Change) : H Answer := callFor (some c)

/-- `statLocal` -/
def statLocal : H (Option LocalFile) := do
  return (← ask).stat

/-- `remoteIdAt`: the server's folder at a path, as it was at the last plan. -/
def remoteIdAt : H (Option String) := do
  return (← ask).id

/-- `sameStat` on two local entries. -/
def sameEntry (a b : LocalFile) : Bool := a.size = b.size && a.mtimeMs = b.mtimeMs && a.ino = b.ino

def store (c : StoreChange) : H Unit := do
  let _ ← change (.inStore c)

def tree (c : TreeChange) : H Unit := do
  let _ ← change (.inTree c)

/-- What both sides agree on at `rel`. -/
def record (rel : Rel) (here : LocalFile) (remote : RemoteItem) (checksum : Option String) :
    H Unit := do
  let pairId := (← get).pairId
  store (.putBase
    { pairId, rel, type := remote.type, remoteId := remote.id, rev := remote.rev, checksum
      size := here.size, mtimeMs := here.mtimeMs, ino := here.ino })

/-- A call to the server that answers with the item; `current` stands in where it says nothing. -/
def onServer (c : ServerChange) (current : RemoteItem) : H RemoteItem := do
  return ((← change (.onServer c)).item).getD current

/-- A folder of the server that only its answer describes. -/
def unknownFolder (name : Rel) : RemoteItem :=
  { id := "", type := .folder, parentId := none, name, size := none, checksum := none, rev := 0
    modifiedAt := none }

/-! ## The handlers -/

def moveLocal (source target : Rel) (remote : RemoteItem) : H Unit := do
  if (← statLocal).isSome then return
  let _ ← change (.onLocal (.rename source target))
  store (.moveBaseTree source target)
  let moved ← statLocal
  let previous := (← get).base.find? fun entry => entry.rel = target
  match moved, previous with
  | some moved, some previous => record target moved remote previous.checksum
  | _, _ => return

/-- The move, where the folder changes. -/
def moveItem (current : RemoteItem) (parentId : String) : H RemoteItem := do
  if current.parentId = some parentId then return current
  let item ← onServer (.move current.id current.rev parentId) current
  tree (.set item)
  return item

/-- The rename, where the name changes. -/
def renameItem (current item : RemoteItem) (name : Rel) : H RemoteItem := do
  if current.name = name then return item
  let item ← onServer (.rename item.id item.rev name) item
  tree (.set item)
  return item

/-- A move and a rename are separate server calls. -/
def moveRemote (source target : Rel) (base : BaseEntry) (here : LocalFile) : H Unit := do
  let some current := (← ask).item | return
  let some parentId ← remoteIdAt | return
  let item ← moveItem current parentId
  let item ← renameItem current item (baseName target)
  store (.moveBaseTree source target)
  record target here item base.checksum

def mkdir (rel : Rel) (remote : RemoteItem) : H Unit := do
  let _ ← change (.onLocal (.mkdir rel))
  match ← statLocal with
  | some made => record rel made remote none
  | none => return

def createRemoteFolder (rel : Rel) (here : LocalFile) : H Unit := do
  let some parentId ← remoteIdAt | return
  let item ← onServer (.createFolder parentId (baseName rel)) (unknownFolder (baseName rel))
  tree (.set item)
  record rel here item none

/-- A download to a temporary file beside the target; a failed one is removed again. -/
def downloadToTemp (rel : Rel) : H String := do
  let body ← ask
  let _ ← change (.onLocal (.writeTemp rel))
  if body.yes then return body.checksum
  else do
    let _ ← change (.onLocal (.removeTemp rel))
    Proc.throw ()

/-- Without a checksum on the server the bytes are compared first. -/
def verify (rel : Rel) : Option Unverified → H (Option (RemoteItem × String))
  | none => pure none
  | some u => do
    let checksum ← downloadToTemp rel
    let _ ← change (.onLocal (.removeTemp rel))
    return if some checksum = u.checksum then some (u.remote, checksum) else none

/-- The clock, the device's name and a scan of the pair give the copy its name. -/
def setAside (rel : Rel) (here : LocalFile) (localOnly : Bool) : H Unit := do
  let copyRel := (← ask).name
  let _ ← change (.onLocal (.rename rel copyRel))
  if !localOnly && here.type = .file then store (.addConflict rel copyRel)

def conflictCopy (rel : Rel) (here : LocalFile) (localOnly : Bool)
    (unverified : Option Unverified) : H Unit := do
  let some now ← statLocal | return
  if !sameEntry now here then return
  match ← verify rel unverified with
  | some (remote, checksum) => record rel now remote (some checksum)
  | none => setAside rel here localOnly

def download (rel : Rel) (remote : RemoteItem) (expect : Option LocalFile) : H Unit := do
  if (← ask).yes then
    -- almost out of space
    return
  let _ ← change (.onLocal (.mkdir (parentRel rel)))
  let checksum ← downloadToTemp rel
  let now ← statLocal
  let asPlanned : Bool :=
    match expect, now with
    | some expect, some now => sameEntry now expect
    | some _, none => false
    | none, now => now.isNone
  if !asPlanned then
    let _ ← change (.onLocal (.removeTemp rel))
    return
  let _ ← change (.onLocal (.moveIntoPlace rel))
  match ← statLocal with
  | some written => record rel written remote (some checksum)
  | none => return

def upload (rel : Rel) (here : LocalFile) (replace : Option Replace) : H Unit := do
  if (← ask).yes then
    -- written to a moment ago
    return
  let some parentId ← remoteIdAt | return
  let checksum := (← ask).checksum
  let some now ← statLocal | return
  if !sameEntry now here then return
  let item ← onServer (.upload parentId (baseName rel) checksum replace)
    { id := "", type := .file, parentId := some parentId, name := baseName rel
      size := some here.size, checksum := some checksum, rev := 0, modifiedAt := none }
  tree (.set item)
  record rel here item (some checksum)

def keepMine (rel : Rel) (here : LocalFile) (remote : RemoteItem) : H Unit := do
  if (← ask).yes then return
  let checksum := (← ask).checksum
  let parentId ← (match remote.parentId with
    | some parentId => pure (some parentId)
    | none => remoteIdAt : H (Option String))
  let some parentId := parentId | return
  let copyName := (← ask).name
  let copy ← onServer (.upload parentId copyName checksum none) remote
  let item ← onServer (.keepMine remote.id remote.rev copy.id) remote
  tree (.removeSubtree copy.id)
  tree (.set item)
  record rel here item (some checksum)

def trashLocal (rel : Rel) (here : LocalFile) : H Unit := do
  match ← statLocal with
  | none => store (.deleteBaseTree rel)
  | some now =>
    if now.type = .file && !sameEntry now here then return
    let _ ← change (.onLocal (.trash rel))
    store (.deleteBaseTree rel)

def trashRemote (rel : Rel) (remote : RemoteItem) : H Unit := do
  if (← statLocal).isSome then
    -- back since the scan: not a delete after all
    return
  let _ ← change (.onServer (.trash remote.id remote.rev))
  tree (.removeSubtree remote.id)
  store (.deleteBaseTree rel)

def handler : Action → H Unit
  | .moveLocal source target remote => moveLocal source target remote
  | .moveRemote source target base here => moveRemote source target base here
  | .mkdir rel remote => mkdir rel remote
  | .createRemoteFolder rel here => createRemoteFolder rel here
  | .download rel remote expect => download rel remote expect
  | .upload rel here replace => upload rel here replace
  | .keepMine rel here remote => keepMine rel here remote
  | .conflictCopy rel here localOnly unverified => conflictCopy rel here localOnly unverified
  | .trashLocal rel here => trashLocal rel here
  | .trashRemote rel remote => trashRemote rel remote
  | .link rel here remote => record rel here remote remote.checksum
  | .forget rel => store (.deleteBase rel)

/-- What a handler leaves, however it ends. -/
def Desk.execute (d : Desk) (a : Action) (answers : List Answer) : Desk :=
  Proc.after (handler a) { d with answers }

/-- The handlers of some actions, each with the answers it gets. -/
def Desk.executeAll (d : Desk) (runs : List (Action × List Answer)) : Desk :=
  runs.foldl (fun d run => d.execute run.1 run.2) d

/-- Nothing was changed yet. -/
def Desk.fresh (pairId : String) (base : List BaseEntry) : Desk where
  pairId := pairId
  base := base
  answers := []
  changes := []

end Staaash.Pair
