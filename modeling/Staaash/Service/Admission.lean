import Staaash.Journal.World
import Staaash.Library.Runs
import Staaash.Service.Requests

/-!
# Admission

How mutations of one owner come into the tables: a request is planned, its plan is prepared in one
transaction, maybe much later or again with the same plan, and what was prepared commits its metadata in
another one. A mutation of its own holds the keys of its steps. The items of a batch hold nothing, and they
are prepared beside everything else: emptying the trash and the retention hold the whole account for theirs,
but a batch of moves does not. The work on disk is left out.
-/

namespace Staaash.Service

open Staaash.Library
open Staaash.Journal (Status)

/-! ## Names -/

/-- `NamespaceTarget`. -/
structure NamespaceTarget where
  entityId : String
  parentId : Option String
  name : String
deriving DecidableEq, Repr

def ItemData.isNamespaceChanging (data : ItemData) : Bool :=
  data.deletedAt = some none || data.name.isSome || data.parentId.isSome

/-- `collectPreparedNamespaceOperation`. -/
def Change.target (change : Change) (db : Database) : Option NamespaceTarget :=
  match change with
  | .create id item => some ⟨id, item.parentId, item.name⟩
  | .update id _ data =>
    if data.isNamespaceChanging then
      (db.items.get id).bind fun item =>
        if (data.write item).live then some ⟨id, (data.write item).parentId, (data.write item).name⟩
        else none
    else none
  | .delete _ _ => none

def Plan.targets (plan : Plan) (db : Database) : List NamespaceTarget :=
  plan.changes.filterMap (·.target db)

def NamespaceTarget.place (target : NamespaceTarget) : Option String × String :=
  (target.parentId, target.name)

/-- A live row other than the target's own has its place. -/
def Database.taken (db : Database) (target : NamespaceTarget) : Bool :=
  db.items.entries.any fun (id, item) =>
    id ≠ target.entityId && item.live && item.parentId = target.parentId && item.name = target.name

/-- `validatePreparedTargets`. -/
def Database.targetsFree (db : Database) (plan : Plan) : Bool :=
  ((plan.targets db).map NamespaceTarget.place).Nodup && (plan.targets db).all fun target =>
    !db.taken target

/-! ## Mutations -/

structure Mutation where
  plan : Plan
  /-- The batch that it is an item of. -/
  parentId : Option String
  status : Status
  committed : Bool
  released : Bool

/-- Its metadata may still be committed. -/
def Mutation.isOpen (m : Mutation) : Bool := !m.committed && m.status ≠ .aborted

/-- Without any key, a mutation of its own holds the whole account. -/
def Mutation.holdsAccount (m : Mutation) : Bool := m.parentId = none && m.plan.resourceKeys = []

def StorageKey.overlaps (key key' : StorageKey) : Bool := key.contains key' || key'.contains key

/-- They work at different keys. -/
def Mutation.apart (m m' : Mutation) : Bool :=
  !m.holdsAccount && !m'.holdsAccount &&
    !m.plan.stepKeys.any fun key => m'.plan.stepKeys.any key.overlaps

inductive Deed
  | claim
  | commit
  | beginFinalization
  | complete
  | retry
  | requireRecovery
  | abort
deriving DecidableEq, Repr

/-- The row of the mutation after a deed that has an effect. -/
def Mutation.after (m : Mutation) : Deed → Option Mutation
  | .claim =>
    if m.status ∈ [Status.prepared, .running, .retrying] then some { m with status := .running }
    else none
  | .commit =>
    if m.status = .running then some { m with status := .metadataCommitted, committed := true }
    else none
  | .beginFinalization =>
    if m.status = .metadataCommitted then some { m with status := .finalizing, released := true }
    else none
  | .complete => if m.status = .finalizing then some { m with status := .succeeded } else none
  | .retry => if m.status = .running then some { m with status := .retrying } else none
  | .requireRecovery =>
    if m.status ∈ [Status.running, .metadataCommitted, .finalizing] then
      some { m with status := .recoveryRequired }
    else none
  | .abort =>
    if m.status = .running then some { m with status := .aborted, released := true } else none

/-! ## Runs -/

structure World where
  db : Database
  /-- Every id that a row ever had. An id is not given again. -/
  ids : List String
  planned : List Plan
  mutations : OrderedMap String Mutation
  /-- What empties the trash or purges it by age. It holds the account for its items. -/
  batch : Option String

inductive Event
  /-- A request reads the rows and plans. -/
  | plan (request : Request)
  /-- A plan is prepared, on its own or as an item of a batch. -/
  | prepare (planned : Nat) (mutationId : String) (parentId : Option String)
  | deed (mutationId : String) (deed : Deed)
  /-- A batch that holds the account. One of moves has no keys, and it is no event. -/
  | beginBatch (mutationId : String)
  | endBatch

namespace World

variable (s : World)

/-- With these rows and nothing going on. -/
def start (db : Database) : World where
  db
  ids := db.items.keys
  planned := []
  mutations := .empty
  batch := none

/-- `validatePreparedEntityRevisions` on one entity. -/
def entityValid (entity : String × Option Nat) : Bool :=
  match entity.2 with
  | none => !s.db.items.has entity.1 && !s.ids.contains entity.1
  | some preRevision => (s.db.items.get entity.1).any (·.storageRevision = preRevision)

/-- No entity of the plan needs recovery. -/
def noRecoveryRequired (plan : Plan) : Bool :=
  s.mutations.entries.all fun (_, m) => m.status ≠ .recoveryRequired ||
    plan.entities.all fun entity => !(m.plan.entities.map Prod.fst).contains entity.1

/-- `acquireStorageMutationResources`. An item of a batch asks for nothing. -/
def acquires (plan : Plan) (parentId : Option String) : Bool :=
  parentId.isSome || s.batch = none && s.mutations.entries.all fun (_, m) =>
    m.released || m.parentId.isSome ||
      !(m.plan.resourceKeys = [] || plan.resourceKeys = [] ||
        plan.resourceKeys.any fun key => m.plan.resourceKeys.any key.overlaps)

/-- `prepareStorageMutationTransaction`. An entity is listed once. -/
def admits (plan : Plan) (parentId : Option String) : Bool :=
  (plan.entities.map Prod.fst).Nodup && s.acquires plan parentId && s.noRecoveryRequired plan &&
    plan.entities.all s.entityValid && s.db.targetsFree plan &&
    plan.createdTrashEntry.all fun (_, entry) =>
      s.db.trashEntries.entries.all fun (_, other) => other.storageRootKey ≠ entry.storageRootKey

/-- The rows after a deed. -/
def rowsAfter (plan : Plan) : Deed → Option (Database × List String)
  | .commit =>
    if plan.newIds.any s.ids.contains then none
    else (s.db.commit plan).map fun db => (db, plan.newIds ++ s.ids)
  | _ => some (s.db, s.ids)

def act : Event → Option World
  | .plan request =>
    match s.db.plan request with
    | .ok plan => some { s with planned := s.planned ++ [plan] }
    | .error _ => none
  | .prepare planned mutationId parentId =>
    (s.planned[planned]?).bind fun plan =>
      if !s.mutations.has mutationId && s.admits plan parentId then
        some { s with
          mutations := s.mutations.set mutationId ⟨plan, parentId, .prepared, false, false⟩ }
      else none
  | .deed mutationId deed =>
    (s.mutations.get mutationId).bind fun m =>
      (m.after deed).bind fun m' => (s.rowsAfter m.plan deed).map fun (db, ids) =>
        { s with db, ids, mutations := s.mutations.set mutationId m' }
  | .beginBatch mutationId =>
    if s.batch = none && s.mutations.entries.all fun (_, m) => m.released || m.parentId.isSome then
      some { s with batch := some mutationId }
    else none
  | .endBatch => some { s with batch := none }

def step (e : Event) : World := (s.act e).getD s

end World

/-! ## Unique names -/

/-- No two live items have the same parent and the same name. -/
def Database.UniqueNames (db : Database) : Prop :=
  ∀ id id' item item', db.items.get id = some item → db.items.get id' = some item' →
    item.live = true → item'.live = true → item.parentId = item'.parentId →
    item.name = item'.name → id = id'

theorem uniqueNames_iff {db : Database} : db.UniqueNames ↔ ∀ e ∈ db.items.entries, ∀ e' ∈ db.items.entries,
    e.2.live = true → e'.2.live = true → e.2.parentId = e'.2.parentId → e.2.name = e'.2.name →
      e.1 = e'.1 := by
  constructor
  · exact fun h e he e' he' => h e.1 e'.1 e.2 e'.2 ((OrderedMap.get_eq_some_iff _ _ _).2 he)
      ((OrderedMap.get_eq_some_iff _ _ _).2 he')
  · exact fun h id id' item item' hget hget' => h (id, item)
      ((OrderedMap.get_eq_some_iff _ _ _).1 hget) (id', item') ((OrderedMap.get_eq_some_iff _ _ _).1 hget')

instance (db : Database) : Decidable db.UniqueNames := decidable_of_iff' _ uniqueNames_iff

/-- The path of a folder, where every folder on the way up is live. -/
def Database.livePath (db : Database) : Nat → Option String → Option (List String)
  | _, none => some []
  | 0, some _ => none
  | n + 1, some id =>
    (db.folder id).bind fun folder =>
      if !folder.live then none
      else if id = db.filesRoot then some []
      else (db.livePath n folder.parentId).map (· ++ [folder.name])

/-- The path that a folder has after the plan. -/
def Plan.livePath (plan : Plan) (db : Database) : Nat → Option String → Option (List String)
  | _, none => some []
  | 0, some _ => none
  | n + 1, some id =>
    if plan.writes id then
      (plan.rowAfter db id).bind fun folder =>
        if folder.live then (plan.livePath db n folder.parentId).map (· ++ [folder.name]) else none
    else db.livePath (n + 1) (some id)

/-- Whether a key is one that the mutation works at, or below one. -/
def Mutation.covers (m : Mutation) (key : StorageKey) : Bool :=
  m.holdsAccount || m.plan.stepKeys.any (·.contains key)

/-- The mutation works at the keys that the folders give now: of every name it takes, and of every live
folder it writes; and it deletes no folder with something live in it. -/
def Mutation.upToDate (m : Mutation) (db : Database) : Bool :=
  ((m.plan.targets db).all fun target =>
    (m.plan.livePath db db.depth target.parentId).any fun path =>
      m.covers ⟨.files, path ++ [target.name]⟩) &&
  (m.plan.changes.all fun change =>
    !(db.folder change.id).any (·.live) ||
      (db.livePath db.depth (some change.id)).any fun path => m.covers ⟨.files, path⟩) &&
  db.items.entries.all fun (id, item) =>
    !(item.live && item.parentId.any m.plan.deletes) ||
      m.plan.writes id && !(m.plan.rowAfter db id).any (·.live)

/-- It works at other keys than what is open, also where no lock sees to it, since one of them is an item
of a batch. -/
def World.unshared (s : World) (m : Mutation) : Bool :=
  s.mutations.entries.all fun (_, m') =>
    !m'.isOpen || m.parentId = none && m'.parentId = none || m.apart m'

/-- What is prepared is not outdated, and what works beside it without a lock works at other keys. -/
def PreparesUpToDate (s : World) : Event → Prop
  | .prepare planned _ parentId =>
    ∀ plan ∈ s.planned[planned]?, Mutation.upToDate ⟨plan, parentId, .prepared, false, false⟩ s.db = true ∧
      s.unshared ⟨plan, parentId, .prepared, false, false⟩ = true
  | _ => True

instance (s : World) (e : Event) : Decidable (PreparesUpToDate s e) := by
  unfold PreparesUpToDate
  split <;> infer_instance

end Staaash.Service
