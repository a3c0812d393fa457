import Staaash.Planner.Names

/-!
# What the planner reads and what it answers

The two sides of a pair, the base both sides last agreed on, the paths sync leaves alone, and the
actions of a plan. Ids, inodes and checksums are only ever compared, so they are plain strings.
-/

namespace Staaash.Planner

/-- Whether an item is a folder or a file. -/
inductive ItemType
  | folder
  | file
deriving DecidableEq, Repr

/-- Two-way, server to computer only, or computer to server only. -/
inductive SyncMode
  | twoWay
  | download
  | upload
deriving DecidableEq, Repr

/-- A local entry, with its checksum when the planner needs it. -/
structure LocalFile where
  rel : Rel
  type : ItemType
  size : Nat
  /-- The modified time, in any fixed unit: it is only compared for equality. -/
  mtimeMs : Int
  /-- The disk's id for this file; survives renames. -/
  ino : String
  checksum : Option String
deriving DecidableEq, Repr

/-- No id to go by: some disks have none, and older saved ids were rounded. -/
def UNKNOWN_INO : String := "0"

/-- A server item as the change feed last described it. -/
structure RemoteItem where
  id : String
  type : ItemType
  parentId : Option String
  name : Rel
  size : Option Nat
  checksum : Option String
  rev : Nat
  modifiedAt : Option Int
deriving DecidableEq, Repr

/-- A server item with its path in the pair. -/
structure ScopedItem where
  rel : Rel
  item : RemoteItem
deriving DecidableEq, Repr

/-- A server item this computer cannot hold, and why. -/
structure SkippedItem where
  rel : Rel
  item : RemoteItem
  reason : String
deriving DecidableEq, Repr

/-- The last state both sides agreed on, for one path in one pair. -/
structure BaseEntry where
  pairId : String
  rel : Rel
  type : ItemType
  remoteId : String
  rev : Nat
  checksum : Option String
  size : Nat
  mtimeMs : Int
  ino : String
deriving DecidableEq, Repr

/-- `sameStat(entry, base)`: size, time and inode all agree. -/
def sameStat (a : LocalFile) (b : BaseEntry) : Bool :=
  a.size = b.size && a.mtimeMs = b.mtimeMs && a.ino = b.ino

/-- The side of a pair a path was left out on. -/
inductive Side
  | onLocal
  | onRemote
deriving DecidableEq, Repr

/-- A path sync leaves alone this pass: an ignored name, a link, something that could not be read,
or a server name this computer cannot hold. Its absence from the side lists is never a deletion. -/
structure Excluded where
  side : Side
  rel : Rel
  /-- The local inode, so a rename to an ignored name is not a delete. -/
  ino : Option String
  /-- The server id, so a server rename to an ignored name is not a delete. -/
  remoteId : Option String
deriving DecidableEq, Repr

/-- Which version an upload replaces. -/
structure Replace where
  remoteId : String
  rev : Nat
deriving DecidableEq, Repr

/-- What a conflict copy must compare first when the server has no checksum. -/
structure Unverified where
  remote : RemoteItem
  checksum : Option String
deriving DecidableEq, Repr

/-- One thing to do for a pair. -/
inductive Action
  /-- A server move or rename, repeated on this computer. -/
  | moveLocal (moveFrom moveTo : Rel) (remote : RemoteItem)
  /-- A move or rename on this computer, repeated on the server. -/
  | moveRemote (moveFrom moveTo : Rel) (base : BaseEntry) (here : LocalFile)
  | mkdir (rel : Rel) (remote : RemoteItem)
  | createRemoteFolder (rel : Rel) (here : LocalFile)
  /-- `expect` is the local file being replaced, `none` when there is none. -/
  | download (rel : Rel) (remote : RemoteItem) (expect : Option LocalFile)
  | upload (rel : Rel) (here : LocalFile) (replace : Option Replace)
  /-- Upload-only folders: this computer wins, the server's version goes to trash. -/
  | keepMine (rel : Rel) (here : LocalFile) (remote : RemoteItem)
  /-- Renames the local version aside so both versions survive. -/
  | conflictCopy (rel : Rel) (here : LocalFile) (localOnly : Bool) (unverified : Option Unverified)
  | trashLocal (rel : Rel) (here : LocalFile)
  | trashRemote (rel : Rel) (remote : RemoteItem)
  /-- Both sides agree; record it without moving bytes. -/
  | link (rel : Rel) (here : LocalFile) (remote : RemoteItem)
  | forget (rel : Rel)
deriving DecidableEq, Repr

/-- The kinds of problem a pair can report. -/
inductive IssueKind
  | invalidName
  | quota
  | diskFull
  | folderMissing
  | folderEmptied
  | serverFolderGone
  | error
deriving DecidableEq, Repr

/-- Where a problem was found. -/
inductive IssueSource
  | scan
  | operation
deriving DecidableEq, Repr

/-- Something that stops one item or one pair from syncing. -/
structure Issue where
  pairId : String
  rel : Rel
  source : IssueSource
  kind : IssueKind
  message : String
  remoteId : Option String
deriving DecidableEq, Repr

/-- Everything on one side of a pair disappeared; this needs a person. -/
inductive Hold
  | emptiedLocal
  | emptiedServer
deriving DecidableEq, Repr

/-- What the planner decides from. -/
structure PlanInput where
  pairId : String
  mode : SyncMode
  locals : List LocalFile
  remote : List ScopedItem
  skipped : List SkippedItem
  excluded : List Excluded
  base : List BaseEntry
  /-- Set once the person said an emptied side is what they meant. -/
  allowEmptied : Bool

/-- The planner's answer. -/
structure Plan where
  actions : List Action
  issues : List Issue
  hold : Option Hold
  /-- Local files whose checksum the planner needs before it can decide. -/
  needsHash : List LocalFile
deriving DecidableEq, Repr

end Staaash.Planner
