import Staaash.Library.Ascent
import Staaash.Library.Ranking

/-!
# Windows of lists

`list-window.ts`: the statement behind the lists of the browser, which counts all that matches and returns
a window of it. The rows of the common table expression `items` are given, with the paths of `paths`. What
the database makes of texts, and whether an item can be read, are parameters.
-/

namespace Staaash.Lists

open Staaash.Library

/-! ## Items -/

inductive ItemKind
  | file
  | folder
deriving DecidableEq, Repr

/-- A row of `items`. -/
structure ListItem where
  id : String
  kind : ItemKind
  name : String
  mime : String
  size : Int
  created : Nat
  modified : Nat
  deleted : Option Nat
  favoriteAt : Option Nat
  pinnedAt : Option Nat
  recentAt : Option Nat
  parentId : Option String
  action : Option String
  path : String
  trashEntry : Option String
  available : Bool
deriving DecidableEq, Repr

/-- A row of the table of folders. -/
structure FolderRow where
  id : String
  ownerUserId : String
  parentId : Option String
  deletedAt : Option Nat
  trashEntryId : Option String
deriving DecidableEq, Repr

/-- The rows that a user's statement reads. An id names one item. -/
structure Tables where
  userId : String
  items : List ListItem
  distinct : (items.map (·.id)).Nodup
  folders : List FolderRow

/-! ## Queries -/

inductive ListScope
  | folder
  | favorites
  | recent
  | added
  | trash
deriving DecidableEq, Repr

inductive SortKey
  | name
  | size
  | path
  | at
  | favoritedAt
  | deletedAt
  | left
  | modified
deriving DecidableEq, Repr

inductive TypeFilter
  | all
  | archive
  | audio
  | folder
  | image
  | pdf
  | text
  | video
deriving DecidableEq, Repr

def listBatchSize : Nat := 100

/-- What `parseListQuery` returns. -/
structure ListQuery where
  offset : Nat
  limit : Nat
  sort : Option SortKey
  ascending : Bool
  filter : Option TypeFilter
  find : String
  pinnedOnly : Bool
  liveOnly : Bool
  filesOnly : Bool
  usableOnly : Bool
  viewerOnly : Bool
  limit_pos : 1 ≤ limit
  limit_le : limit ≤ 1000
deriving DecidableEq, Repr

/-- `ListQuery`, with what may be left out. -/
structure ListQueryInput where
  offset : Option Int
  limit : Option Int
  sort : Option SortKey
  ascending : Option Bool
  filter : Option TypeFilter
  find : Option String
  pinnedOnly : Option Bool
  liveOnly : Option Bool
  filesOnly : Option Bool
  usableOnly : Option Bool
  viewerOnly : Option Bool
deriving DecidableEq, Repr

def parseListQuery (query : ListQueryInput) : Option ListQuery :=
  let offset := query.offset.getD 0
  let limit := query.limit.getD listBatchSize
  let find := query.find.getD ""
  if hlimit : 0 ≤ offset ∧ (1 ≤ limit ∧ limit ≤ 1000) ∧ find.length ≤ 1024 then
    some
      { offset := offset.toNat, limit := limit.toNat, sort := query.sort
        ascending := query.ascending.getD false, filter := query.filter, find
        pinnedOnly := query.pinnedOnly.getD false, liveOnly := query.liveOnly.getD false
        filesOnly := query.filesOnly.getD false, usableOnly := query.usableOnly.getD false
        viewerOnly := query.viewerOnly.getD false
        limit_pos := by omega, limit_le := by omega }
  else none

/-! ## Matches -/

/-- A collation may take different texts for the same one. -/
structure Collations where
  natural : Comparison String
  icu : Comparison String
  text : Comparison String
  icu_eq : ∀ a b, icu.compare a b = .eq → a = b
  text_eq : ∀ a b, text.compare a b = .eq → a = b

/-- What the database computes. -/
structure Database extends Collations where
  /-- `staaash_list_search_text` -/
  searchText : String → String
  /-- `storageReadPredicate` -/
  readable : String → String → ItemKind → Bool

variable (db : Database) (t : Tables)

/-- `position(.. in ..) > 0` -/
def positionIn (part text : String) : Bool := decide (part.toList <:+: text.toList)

/-- `LIKE '..%'` -/
def startsWith (mime start : String) : Bool := start.toList.isPrefixOf mime.toList

/-- The `CASE` of `listTypeFilter`. -/
def listType (item : ListItem) : TypeFilter :=
  if item.kind = .folder then .folder
  else if startsWith item.mime "image/" then .image
  else if startsWith item.mime "video/" then .video
  else if startsWith item.mime "audio/" then .audio
  else if positionIn "pdf" item.mime then .pdf
  else if startsWith item.mime "text/" || positionIn "typescript" item.mime || positionIn "json" item.mime ||
    positionIn "document" item.mime then .text
  else if positionIn "zip" item.mime || positionIn "archive" item.mime || positionIn "tar" item.mime ||
    positionIn "gzip" item.mime then .archive
  else .all

def listTypeFilter (filter : Option TypeFilter) (item : ListItem) : Bool :=
  match filter with
  | none | some .all => true
  | some filter => listType item = filter

/-- The folder that a row of `ancestors` adds. -/
def FolderRow.above (t : Tables) (folder : FolderRow) : Option FolderRow :=
  folder.parentId.bind fun id => t.folders.find? fun row => row.id = id && row.ownerUserId = t.userId

/-- The rows of `ancestors`, nearest first. -/
def ancestors (item : ListItem) : List FolderRow :=
  match item.parentId.bind fun id => t.folders.find? fun row => row.id = id && row.ownerUserId = t.userId with
  | none => []
  | some folder => ascent (·.id) (FolderRow.above t) t.folders.length [] folder

/-- The last condition of `matches`, for the trash. -/
def trashRoot (item : ListItem) : Bool :=
  item.deleted.isSome &&
    match item.kind with
    | .folder => !t.folders.any fun parent =>
        some parent.id = item.parentId && parent.deletedAt.isSome && parent.trashEntryId = item.trashEntry
    | .file => !(ancestors t item).any fun folder =>
        folder.deletedAt.isSome && folder.trashEntryId = item.trashEntry

def matchesQuery (scope : ListScope) (q : ListQuery) (folderId : Option String) (item : ListItem) : Bool :=
  listTypeFilter q.filter item &&
    (scope ≠ .folder || (folderId.isSome && item.parentId = folderId && item.available)) &&
    (!(scope = .folder || scope = .favorites || q.liveOnly) || item.deleted.isNone) &&
    (scope ≠ .favorites || item.favoriteAt.isSome) &&
    (scope ≠ .recent || item.recentAt.isSome) &&
    (!q.pinnedOnly || item.pinnedAt.isSome) &&
    (!q.filesOnly || item.kind = .file) &&
    (!q.viewerOnly || (item.kind = .file && (startsWith item.mime "image/" || startsWith item.mime "video/" ||
      startsWith item.mime "audio/" || startsWith item.mime "text/" ||
      startsWith item.mime "application/pdf"))) &&
    (q.find = "" || positionIn (db.searchText q.find) (db.searchText item.name)) &&
    (!q.usableOnly || db.readable t.userId item.id item.kind) &&
    (scope ≠ .trash || trashRoot t item)

/-- The rows of `matches`. -/
def listMatches (scope : ListScope) (q : ListQuery) (folderId : Option String) : List ListItem :=
  t.items.filter (matchesQuery db t scope q folderId)

/-! ## Orders -/

/-- Of numbers and dates. -/
def byNumber : Comparison Int := .ofOrd

def byDate : Comparison Nat := .ofOrd

def byId : Comparison ListItem := db.text.on ListItem.id

def byKind : Comparison ListItem := byDate.on fun item => if item.kind = .folder then 1 else 0

def byName : Comparison ListItem := db.natural.on ListItem.name

def column : SortKey → Comparison ListItem
  | .name => byName db
  | .size => byNumber.on ListItem.size
  | .path => db.natural.on ListItem.path
  | .modified => byDate.on ListItem.modified
  | .favoritedAt => byDate.nullable.on ListItem.favoriteAt
  | .deletedAt | .left => byDate.nullable.on ListItem.deleted
  | .at => byDate.on ListItem.created

def byRecent : Comparison ListItem := (byDate.nullable.on ListItem.recentAt).reverse

/-- `recentListOrder`, with the condition on which the texts are compared. -/
def recentListOrder (tied : ListItem → Bool) : Comparison ListItem :=
  let texts := fun text : ListItem → String =>
    db.icu.nullable.on fun item => if tied item then some (db.searchText (text item)) else none
  byRecent.andThen <|
    (texts fun item => item.path ++ " / " ++ item.name).andThen <|
      (texts ListItem.name).andThen (db.icu.on ListItem.id)

def listOrder (scope : ListScope) (q : ListQuery) : Comparison ListItem :=
  let defaults := match scope with
    | .folder => SortKey.name
    | .favorites => .favoritedAt
    | .recent | .added => .at
    | .trash => .deletedAt
  let key := (column db (q.sort.getD defaults)).directed q.ascending
  let natural := (byName db).directed q.ascending
  let id := (byId db).directed q.ascending
  match scope with
  | .folder => byKind.reverse.andThen (key.andThen (natural.andThen id))
  | .favorites | .added | .trash => key.andThen (natural.andThen ((byKind.directed q.ascending).andThen id))
  | .recent => recentListOrder db fun _ => true

/-! ## Windows -/

structure ListWindow where
  items : List (String × ItemKind)
  total : Nat
  start : Option Nat
deriving DecidableEq, Repr

/-- A row of the statement; all is null where the page is empty. -/
structure WindowRow where
  item : Option (String × ItemKind)
  total : Nat
  position : Option Nat
deriving DecidableEq, Repr

/-- `totals LEFT JOIN LATERAL (..) page ON TRUE` -/
def windowRows (total : Nat) (page : List (ListItem × Nat)) : List WindowRow :=
  if page = [] then [⟨none, total, none⟩]
  else page.map fun (item, position) => ⟨some (item.id, item.kind), total, some position⟩

/-- `recentWindowCutoff`: the rows of `matches` that the window can need. -/
def recentWindowCutoff (scope : ListScope) (all : Bool) (q : ListQuery) (rows : List ListItem) : List ListItem :=
  if scope = .recent && !all then
    match (byDate.nullable.reverse.rank (rows.map ListItem.recentAt))[q.offset + q.limit - 1]? with
    | none => rows
    | some cutoff => rows.filter fun item => (byDate.nullable.compare cutoff item.recentAt).isLE
  else rows

def getListWindow (scope : ListScope) (q : ListQuery) (folderId : Option String) (all : Bool)
    (aroundId : Option String) : ListWindow :=
  let found := listMatches db t scope q folderId
  let order := listOrder db scope q
  let around := aroundId.filter (· ≠ "")
  let page := match around with
    | some id =>
      let ordered := (order.rank found).zipIdx
      let position := ((ordered.find? fun row => row.1.id = id).map Prod.snd).getD 0
      (ordered.filter fun row => position - 10 ≤ row.2).take q.limit
    | none =>
      let rows := (order.rank (recentWindowCutoff scope all q found)).drop q.offset
      (if all then rows else rows.take q.limit).map fun item => (item, 0)
  let rows := windowRows found.length page
  { items := rows.filterMap WindowRow.item
    total := (rows.head?.map WindowRow.total).getD 0
    start := around.map fun _ => (rows.head?.bind WindowRow.position).getD 0 }

/-! ## What a window is of -/

/-- All that matches, in order. -/
def fullList (scope : ListScope) (q : ListQuery) (folderId : Option String) : List (String × ItemKind) :=
  ((listOrder db scope q).rank (listMatches db t scope q folderId)).map fun item => (item.id, item.kind)

end Staaash.Lists
