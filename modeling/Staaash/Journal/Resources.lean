import Staaash.Journal.Docket

/-!
# The journal's resources

Every mutation holds resources, rows of `StorageMutationResource`, from its preparation until it is
decided. Owner resources form a tree: `owner:<id>` stands for the whole account and
`owner:<id>/<storage key>` for one path and everything below it. A transaction that acquires
resources holds advisory locks until it commits, so the check and the rows it writes are one step.
-/

namespace Staaash.Journal

/-! ## Resource keys -/

/-- `OWNER_RESOURCE_PREFIX` -/
def ownerScheme : Text := ['o', 'w', 'n', 'e', 'r', ':']

def ownerResourceKey (ownerUserId : Text) : Text := ownerScheme ++ ownerUserId

def storagePathResourceKey (ownerUserId storageKey : Text) : Text :=
  ownerResourceKey ownerUserId ++ '/' :: storageKey

/-- The one resource that excludes every other. -/
def globalRecovery : Text := "storage:global-recovery".toList

/-- What a mutation is prepared from, as far as its resources are concerned. -/
structure PrepareInput where
  id : Text
  kind : MutationKind
  ownerUserId : Text
  resourceKeys : Option (List Text)
  steps : List Step
  /-- Ids are generated. -/
  named : id ≠ []

def deriveStorageMutationResourceKeys (input : PrepareInput) : List Text :=
  if input.kind ∉ userStorageMutationKinds then [ownerResourceKey input.ownerUserId]
  else
    let keys := input.steps.flatMap fun step =>
      [step.sourceKey, step.targetKey].flatMap fun
        | none => []
        | some [] => []
        | some key => [storagePathResourceKey input.ownerUserId key]
    if keys.length > 0 then keys else [ownerResourceKey input.ownerUserId]

/-- The owner a resource belongs to. -/
def ownerOfResourceKey (resourceKey : Text) : Option Text :=
  if ownerScheme.isPrefixOf resourceKey then
    some (((resourceKey.drop ownerScheme.length).splitOn '/').headD [])
  else none

/-- There is an owner, and it is not the empty string. -/
def isOwnerKey (resourceKey : Text) : Bool :=
  match ownerOfResourceKey resourceKey with
  | none => false
  | some owner => owner ≠ []

def resourceKeyAndAncestors (resourceKey : Text) : List Text :=
  let parts := resourceKey.splitOn '/'
  (List.range parts.length).map fun index => ['/'].intercalate (parts.take (index + 1))

/-! ## The rows -/

structure Resource where
  resourceKey : Text
  mutationId : Text
  fenceToken : Nat
  releasedAt : Option Nat
deriving DecidableEq, Repr

def Resource.active (r : Resource) : Bool := r.releasedAt.isNone

inductive ConflictCode
  | storageMutationInProgress
  | storageRecoveryRequired
deriving DecidableEq, Repr

/-- A `StorageMutationConflictError`, with the mutation that is in the way. -/
structure Conflict where
  code : ConflictCode
  mutationId : Option Text
deriving DecidableEq, Repr

/-- The condition of the query in `assertNoOverlappingOwnerResources` on one row. -/
def overlapping (ownerKeys : List Text) (selfMutationId : Text) (r : Resource) : Bool :=
  r.active && r.mutationId ≠ selfMutationId &&
    ((ownerKeys.flatMap resourceKeyAndAncestors).contains r.resourceKey ||
      ownerKeys.any fun key => (key ++ ['/']).isPrefixOf r.resourceKey)

def assertNoOverlappingOwnerResources (resources : List Resource) (resourceKeys : List Text)
    (selfMutationId : Text) : Except Conflict Unit :=
  match resources.find? (overlapping (resourceKeys.filter isOwnerKey) selfMutationId) with
  | some r => .error ⟨.storageMutationInProgress, some r.mutationId⟩
  | none => .ok ()

def acquireStorageMutationResources (resources : List Resource) (resourceKeys : List Text)
    (selfMutationId : Text) : Except Conflict Unit :=
  if resourceKeys = [] then .ok ()
  else
    let globalRequested := resourceKeys.contains globalRecovery
    match resources.find? fun r =>
      r.active && (globalRequested || r.resourceKey = globalRecovery) with
    | some r => .error ⟨.storageRecoveryRequired, some r.mutationId⟩
    | none => assertNoOverlappingOwnerResources resources resourceKeys selfMutationId

/-- The active row of a key, which the unique index makes the only one. -/
def activeResource (resources : List Resource) (resourceKey : Text) : Option Resource :=
  resources.find? fun r => r.active && r.resourceKey = resourceKey

/-- `releasedAt` is set on the active rows of a mutation. -/
def release (resources : List Resource) (mutationId : Text) (now : Nat) : List Resource :=
  resources.map fun r =>
    if r.mutationId = mutationId && r.active then { r with releasedAt := some now } else r

/-- The active rows of a mutation follow its lease token. -/
def refence (resources : List Resource) (mutationId : Text) (token : Nat) : List Resource :=
  resources.map fun r =>
    if r.mutationId = mutationId && r.active then { r with fenceToken := token } else r

/-! ## The ledger -/

/-- A claim for the cleanup that has not released the mutation's resources yet. -/
structure Releasing where
  mutationId : Text
  token : Nat
  now : Nat
deriving DecidableEq, Repr

structure Ledger where
  dockets : Text → Option Docket
  /-- What each mutation was prepared with. -/
  preparedWith : Text → List Text
  resources : List Resource
  releasing : List Releasing

def Ledger.empty : Ledger where
  dockets := fun _ => none
  preparedWith := fun _ => []
  resources := []
  releasing := []

/-- The transaction of `prepareStorageMutation`. What else it checks can only refuse it. -/
def Ledger.prepare (l : Ledger) (input : PrepareInput) : Except Conflict Ledger := do
  let keys := (input.resourceKeys.getD (deriveStorageMutationResourceKeys input)).dedup
  acquireStorageMutationResources l.resources keys []
  if (l.dockets input.id).isSome then .error ⟨.storageMutationInProgress, none⟩
  else
    match keys.findSome? (activeResource l.resources) with
    | some r => .error ⟨.storageMutationInProgress, some r.mutationId⟩
    | none =>
      .ok
        { l with
          dockets := Function.update l.dockets input.id (some Docket.prepared)
          preparedWith := Function.update l.preparedWith input.id keys
          resources := l.resources ++ keys.map fun key => ⟨key, input.id, 0, none⟩ }

/-- What a statement does to the resources, in its own transaction. -/
def Act.settle (a : Act) (id : Text) (now : Nat) (resources : List Resource) : List Resource :=
  match a with
  | .claimed token => refence resources id token
  | .did _ .beginFinalization => release resources id now
  | .did _ .complete => release resources id now
  | .did _ .abort => release resources id now
  | _ => resources

/-- The time a statement brings. -/
def Statement.time : Statement → Nat
  | .claim _ now => now
  | .claimFinalization _ now => now
  | .readBack _ => 0
  | .byHolder _ _ now => now
  | .retryRead _ => 0
  | .retryWrite _ now => now
  | .retryNow now => now

/-- The claim for the cleanup leaves its release for a statement of its own. -/
def Act.leaves (a : Act) (id : Text) (now : Nat) : List Releasing :=
  match a with
  | .claimedFinalization token => [⟨id, token, now⟩]
  | _ => []

/-- A statement on one of the mutations. -/
def Ledger.statement (l : Ledger) (id : Text) (s : Statement) : Ledger :=
  match l.dockets id with
  | none => l
  | some d =>
    match d.act s with
    | none => l
    | some (a, d') =>
      { l with
        dockets := Function.update l.dockets id (some { d' with log := a :: d'.log })
        resources := a.settle id s.time l.resources
        releasing := a.leaves id s.time ++ l.releasing }

/-- The rows a claim creates for the keys that have no active row. -/
def missing (resources : List Resource) (keys : List Text) (id : Text) (token : Nat) :
    List Resource :=
  (keys.filter fun key => (activeResource resources key).isNone).map fun key => ⟨key, id, token, none⟩

/-- `claimStorageMutation` with resources of its own. A transaction that does not get them all, or
not the lease, writes nothing. -/
def Ledger.claim (l : Ledger) (id leaseOwner : Text) (now : Nat) (resourceKeys : List Text) :
    Except Conflict Ledger := do
  let keys := resourceKeys.dedup
  acquireStorageMutationResources l.resources keys id
  if keys.any fun key => (activeResource l.resources key).any fun r => r.mutationId ≠ id then .ok l
  else
    match (l.dockets id).bind fun d => d.row.claimForward leaseOwner now with
    | none => .ok l
    | some row =>
      .ok ({ l with
        resources := l.resources ++ missing l.resources keys id row.leaseToken }.statement id
          (.claim leaseOwner now))

inductive LedgerEvent
  | prepare (input : PrepareInput)
  | claim (id leaseOwner : Text) (now : Nat) (resourceKeys : List Text)
  | statement (id : Text) (s : Statement)
  | release (r : Releasing)

def Ledger.step (l : Ledger) : LedgerEvent → Ledger
  | .prepare input =>
    match l.prepare input with
    | .ok l' => l'
    | .error _ => l
  | .claim id leaseOwner now resourceKeys =>
    match l.claim id leaseOwner now resourceKeys with
    | .ok l' => l'
    | .error _ => l
  | .statement id s => l.statement id s
  | .release r =>
    if r ∈ l.releasing then
      { l with
        resources := release (refence l.resources r.mutationId r.token) r.mutationId r.now
        releasing := l.releasing.erase r }
    else l

def Ledger.run (l : Ledger) (events : List LedgerEvent) : Ledger := events.foldl Ledger.step l

/-! ## Exclusion -/

/-- `owner:<id>` or `owner:<id>/<storage key>`. -/
def OwnerResource (key : Text) : Prop :=
  ∃ owner : Text, owner ≠ [] ∧ '/' ∉ owner ∧
    (key = ownerResourceKey owner ∨ ∃ storageKey, key = storagePathResourceKey owner storageKey)

/-- `key` lies strictly below `folder`. -/
def PathBelow (folder key : Text) : Prop := ∃ rest, key = folder ++ '/' :: rest

/-- One of the keys is, or contains, the other. -/
def Overlap (key key' : Text) : Prop := key = key' ∨ PathBelow key key' ∨ PathBelow key' key

/-- One of the active rows gives the key to the mutation. -/
def HoldsIn (resources : List Resource) (id key : Text) : Prop :=
  ∃ r ∈ resources, r.active = true ∧ r.mutationId = id ∧ r.resourceKey = key

def Ledger.Holds (l : Ledger) (id key : Text) : Prop := HoldsIn l.resources id key

/-- The mutation is neither committed nor over. -/
def Docket.Open (d : Docket) : Prop :=
  d.row.metadataCommittedAt = none ∧ d.row.status ≠ .aborted ∧ d.row.status ≠ .succeeded

/-- What is promised in every state: owner resources of different mutations do not overlap, nothing
is acquired by another mutation while one holds the global resource, and an open mutation has what
it was prepared with. -/
structure Excludes (l : Ledger) : Prop where
  exclusive : ∀ id id' key key', id ≠ id' → l.Holds id key → l.Holds id' key' →
    OwnerResource key → OwnerResource key' → ¬ Overlap key key'
  alone : ∀ id, l.Holds id globalRecovery →
    ∀ e id' key, id' ≠ id → (l.step e).Holds id' key → l.Holds id' key
  kept : ∀ id d, l.dockets id = some d → d.Open →
    ∀ key ∈ l.preparedWith id, l.Holds id key

end Staaash.Journal
