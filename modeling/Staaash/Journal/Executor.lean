import Mathlib.Data.List.Lex
import Staaash.Journal.Database

/-!
# The executor

`storage-mutation-executor.ts`, function by function. A read of the disk, however many system calls
it takes, is one call; every change of the tree and every sync of a folder is a call of its own.
-/

namespace Staaash.Journal

open Staaash.Library (Proc)

/-- What the host gives: SHA-256 as hexadecimal digits, and the size it reports for a folder. -/
structure Host where
  sha256 : List UInt8 → Text
  directorySize : List (Key × Node) → Nat

/-- A nullable string that is neither null nor empty. -/
def truthy (t : Option Text) : Option Text := t.filter (· ≠ [])

/-! ## Fingerprints -/

/-- The entries below `root`, with their keys from there. -/
def Fs.below (fs : Fs) (root : Key) : List (Key × Node) :=
  fs.nodes.entries.filterMap fun (k, n) =>
    if root <+: k && k ≠ root then some (k.drop root.length, n) else none

/-- UTF-16 code units, which order strings in the source's language. -/
def utf16Units (c : Char) : List Nat :=
  let n := c.toNat
  if n < 0x10000 then [n] else [0xD800 + (n - 0x10000) / 0x400, 0xDC00 + (n - 0x10000) % 0x400]

/-- `left <= right` on strings. -/
def textLe (a b : Text) : Bool := Decidable.decide (a.flatMap utf16Units ≤ b.flatMap utf16Units)

/-- Names are compared one by one, a folder before what it holds. -/
def keyLe : Key → Key → Bool
  | [], _ => true
  | _ :: _, [] => false
  | a :: as, b :: bs => if a = b then keyLe as bs else textLe a b

def utf8 (t : Text) : List UInt8 := (String.ofList t).toUTF8.toList

def joinKey (k : Key) : Text := ['/'].intercalate k

variable (H : Host)

/-- The line of one entry in a tree manifest; there is none for what is neither file nor folder. -/
def manifestRecord (entry : Key × Node) : Except Err Text :=
  match entry.2 with
  | .directory => .ok ("D ".toList ++ joinKey entry.1)
  | .file bytes => .ok ("F ".toList ++ joinKey entry.1 ++ ' ' :: (Nat.toDigits 10 bytes.length) ++
      ' ' :: H.sha256 bytes)
  | .other => .error (.ambiguity "Tree manifest contains unsupported node.")

def readTreeManifestRecords (fs : Fs) (treeRoot : Key) : Except Err (List Text) :=
  ((fs.below treeRoot).mergeSort fun a b => keyLe a.1 b.1).mapM (manifestRecord H)

def hashTreeManifestRecords (records : List Text) : Text :=
  "v2:".toList ++ H.sha256 (records.flatMap fun record =>
    utf8 (Nat.toDigits 10 (utf8 record).length) ++ utf8 [':'] ++ utf8 record)

def hashLegacyTreeManifestRecords (records : List Text) : Text :=
  H.sha256 (utf8 (['\n'].intercalate records))

def treeManifestMatches (fs : Fs) (treeRoot : Key) (expected : Text) : Except Err Bool := do
  let records ← readTreeManifestRecords H fs treeRoot
  return if "v2:".toList <+: expected then hashTreeManifestRecords H records = expected
    else hashLegacyTreeManifestRecords H records = expected

/-- The size `lstat` reports. -/
def nodeSize (fs : Fs) (k : Key) : Node → Nat
  | .file bytes => bytes.length
  | .directory => H.directorySize (fs.below k)
  | .other => 0

def assertExpectedNodeChecksum (node : Node) (step : Step) : Except Err Unit :=
  match truthy step.expectedChecksum with
  | none => .ok ()
  | some expected =>
    match node with
    | .file bytes =>
      if H.sha256 bytes = expected.map Char.toLower then .ok ()
      else .error (.ambiguity "Mutation path checksum differs from intent.")
    | _ => .error (.ambiguity "Mutation path checksum differs from intent.")

def assertExpectedTreeManifest (fs : Fs) (k : Key) (node : Node) (step : Step) : Except Err Unit :=
  match truthy step.treeManifestDigest with
  | none => .ok ()
  | some expected => do
    if node = .directory && (← treeManifestMatches H fs k expected) then .ok ()
    else .error (.ambiguity "Mutation tree differs from captured manifest.")

/-- The node at `k` has the type, size, checksum and manifest the step has recorded. -/
def checkExpectedNode (fs : Fs) (k : Key) (step : Step) : Except Err Unit :=
  match fs.get k with
  | none => .error (.ambiguity "Expected mutation path missing.")
  | some node => do
    if step.expectedNodeType ≠ none && step.expectedNodeType ≠ some node.type then
      .error (.ambiguity "Mutation path has unexpected node type.")
    if step.expectedSizeBytes ≠ none && step.expectedSizeBytes ≠ some (nodeSize H fs k node) then
      .error (.ambiguity "Mutation path has unexpected size.")
    assertExpectedNodeChecksum H node step
    assertExpectedTreeManifest H fs k node step

def validateExpectedNode (k : Key) (step : Step) : M Unit :=
  readCall fun w => checkExpectedNode H w.fs k step

/-! ## Paths and syncs -/

/-- No entry on the way is anything but a folder; the walk ends at the first missing one. -/
def safeAncestors (fs : Fs) : List Key → Bool
  | [] => true
  | k :: ks =>
    match fs.get k with
    | none => true
    | some .directory => safeAncestors fs ks
    | some _ => false

def unsafeAncestor : Err := .ambiguity "Mutation path has unsafe non-directory ancestor."

def assertSafeStorageAncestors (candidate : Key) : M Unit :=
  readCall fun w =>
    if safeAncestors w.fs (prefixes (dirname candidate)) then .ok () else .error unsafeAncestor

def pathState (candidate : Key) : M (Option Node) := readCall fun w => .ok (w.fs.get candidate)

/-- A change of the tree. -/
def fsCall (phase : Phase) (op : FsOp) (f : Fs → Except Err Fs) : M Unit :=
  call fun w =>
    match f w.fs with
    | .ok fs => .ok () ({ w with fs }.emit (.changed phase op))
    | .error e => .error (.thrown e) w

def syncDirectory (k : Key) : M Unit :=
  call fun w =>
    if w.fs.IsDirectory k then .ok () (w.emit (.synced k)) else .error (.thrown (.errno "ENOENT")) w

def syncFile (k : Key) : M Unit :=
  call fun w =>
    if w.fs.get k ≠ none then .ok () (w.emit (.synced k))
    else .error (.thrown (.errno "ENOENT")) w

def syncAll : List Key → M Unit
  | [] => pure ()
  | k :: ks => do
    syncDirectory k
    syncAll ks

def syncParents (items : List Key) : M Unit := syncAll (items.map dirname).eraseDups

/-! ## Folders on the way -/

def ensureDurableDirectorySegment (phase : Phase) (beforeCreate : M Unit) (next : Key) :
    M Unit := do
  match ← pathState next with
  | some .directory => pure ()
  | some _ => Proc.throw unsafeAncestor
  | none =>
    beforeCreate
    fsCall phase (.mkdir next) fun fs =>
      match fs.mkdir next with
      | some fs => .ok fs
      | none => .error (.errno "ENOENT")
    syncDirectory next
    syncDirectory (dirname next)

def ensureSegments (phase : Phase) (beforeCreate : M Unit) : List Key → M Unit
  | [] => pure ()
  | next :: rest => do
    ensureDurableDirectorySegment phase beforeCreate next
    ensureSegments phase beforeCreate rest

def durableMkdirWithinRoot (phase : Phase) (beforeCreate : M Unit) (target : Key) : M Unit := do
  if target = [] then pure ()
  else
    assertSafeStorageAncestors target
    ensureSegments phase beforeCreate (prefixes target)

/-! ## Rename and mkdir steps -/

def assertRenameStepIntent (step : Step) : Except Err Unit := do
  if truthy step.sourceKey = none || truthy step.targetKey = none then
    .error (.ambiguity "Rename step lacks source or target.")
  match step.expectedNodeType with
  | some .file =>
    if truthy step.expectedChecksum = none then
      .error (.ambiguity "File rename lacks a captured checksum.")
  | some .directory =>
    if truthy step.treeManifestDigest = none then
      .error (.ambiguity "Directory rename lacks a captured tree manifest.")
  | _ => .error (.ambiguity "Rename step lacks a supported node fingerprint.")

def syncRenameSource (source : Key) : Node → M Unit
  | .file _ => syncFile source
  | .directory => syncDirectory source
  | .other => pure ()

def applyRename (phase : Phase) (step : Step) (assertLease : M Unit) : M Unit := do
  check (assertRenameStepIntent step)
  let source ← check (resolveMutationStoragePath (step.sourceKey.getD []))
  let target ← check (resolveMutationStoragePath (step.targetKey.getD []))
  assertSafeStorageAncestors source
  assertSafeStorageAncestors target
  let sourceState ← pathState source
  let targetState ← pathState target
  match sourceState, targetState with
  | some _, some _ => Proc.throw (.ambiguity "Both rename source and target exist.")
  | none, none => Proc.throw (.ambiguity "Both rename source and target are missing.")
  | none, some _ => validateExpectedNode H target step
  | some node, none =>
    validateExpectedNode H source step
    syncRenameSource source node
    syncDirectory (dirname source)
    durableMkdirWithinRoot phase assertLease (dirname target)
    assertLease
    fsCall phase (.rename source target) fun fs =>
      match fs.rename source target with
      | some fs => .ok fs
      | none => .error (.errno "EINVAL")
    syncParents [source, target]

def applyMkdir (step : Step) (assertLease : M Unit) : M Unit := do
  match truthy step.targetKey, truthy step.treeManifestDigest with
  | none, _ => Proc.throw (.ambiguity "Mkdir step lacks target.")
  | some _, none =>
    Proc.throw (.ambiguity "Mkdir step lacks a captured empty-directory manifest.")
  | some targetKey, some digest =>
    let target ← check (resolveMutationStoragePath targetKey)
    assertSafeStorageAncestors target
    match ← pathState target with
    | none =>
      durableMkdirWithinRoot .forward assertLease target
      syncDirectory target
    | some .directory =>
      let same ← readCall fun w => treeManifestMatches H w.fs target digest
      if !same then
        Proc.throw (.ambiguity "Existing mkdir target is not the captured empty directory.")
      syncDirectory target
    | some _ => Proc.throw (.ambiguity "Mkdir target has unexpected node type.")

/-! ## Delete steps -/

/-- The folder of one artifact and the folder of its kind, for a key inside an artifact. -/
def getOwnedArtifactRoot (storageKey : Text) : Except Err (Option (Key × Key)) := do
  let segments ← normalizeStorageKey storageKey
  let ownedKind := ["backup".toList, "incoming".toList, "quarantine".toList].contains
    (segments.getD 1 [])
  return if segments.head? ≠ some "tmp".toList || !ownedKind || segments.length < 4 then none
    else some ((segments.take 3).filter (· ≠ []), segments.take 2)

inductive RemovedDirectory
  | removed
  | missing
  | notEmpty
deriving DecidableEq

def removeArtifactDirectory (phase : Phase) (directory : Key) : M RemovedDirectory := do
  let result ← call fun w =>
    match w.fs.get directory with
    | none => .ok .missing w
    | some .directory =>
      if w.fs.hasEntries directory then .ok .notEmpty w
      else .ok .removed
        ({ w with fs := w.fs.removeUnder directory [] }.emit (.changed phase (.rmdir directory)))
    | some _ => .error (.thrown (.errno "ENOTDIR")) w
  if result = .removed then syncParents [directory]
  return result

/-- From the innermost folder out, until one is not empty; whether all could go. -/
def removeArtifactDirectories : List Key → M Bool
  | [] => pure true
  | current :: rest => do
    if (← removeArtifactDirectory .cleanup current) = .notEmpty then return false
    removeArtifactDirectories rest

def removeEmptyArtifactAncestors (storageKey : Text) (target : Key) : M Bool := do
  match ← check (getOwnedArtifactRoot storageKey) with
  | none => return false
  | some (artifactRoot, kindRoot) =>
    let above := (prefixes (dirname target)).reverse.takeWhile (artifactRoot <+: ·)
    if ← removeArtifactDirectories above then
      syncDirectory kindRoot
      return true
    else return false

def deleteMutationFile (target : Key) (step : Step) (assertLease : M Unit) : M Unit := do
  if truthy step.expectedChecksum = none then
    Proc.throw (.ambiguity "File-delete step lacks a captured checksum.")
  validateExpectedNode H target step
  assertLease
  fsCall .cleanup (.unlink target) fun fs =>
    match fs.get target with
    | none => .error (.errno "ENOENT")
    | some .directory => .error (.errno "ERR_FS_EISDIR")
    | some _ => .ok (fs.removeUnder target [])

/-- `rm` with `recursive`: cut off, it has removed a part of the tree. -/
def removeTree (target : Key) : M Unit :=
  callWith
    (fun took w =>
      match took with
      | .partly left =>
        { w with fs := w.fs.removeUnder target left }.emit (.changed .cleanup (.removeTree target))
      | _ => w)
    fun w =>
      .ok ()
        ({ w with fs := w.fs.removeUnder target [] }.emit (.changed .cleanup (.removeTree target)))

def deleteMutationTree (target : Key) (node : Node) (step : Step) (assertLease : M Unit)
    (allowOwnedPartialTreeDelete : Bool) : M Unit := do
  if node ≠ .directory then
    Proc.throw (.ambiguity "Tree-delete target is not directory.")
  match truthy step.treeManifestDigest with
  | none => Proc.throw (.ambiguity "Tree-delete step lacks captured manifest.")
  | some digest =>
    let same ← readCall fun w => treeManifestMatches H w.fs target digest
    if !same && !allowOwnedPartialTreeDelete then
      Proc.throw (.ambiguity "Tree-delete content differs from captured manifest.")
    assertLease
    removeTree target

def removeMutationDirectory (target : Key) (node : Node) (assertLease : M Unit) : M Unit := do
  if node ≠ .directory then
    Proc.throw (.ambiguity "Empty-directory target is not directory.")
  assertLease
  fsCall .cleanup (.rmdir target) fun fs =>
    match fs.get target with
    | some .directory =>
      if fs.hasEntries target then
        .error (.ambiguity "Directory expected empty contains untracked entries.")
      else .ok (fs.removeUnder target [])
    | _ => .error (.errno "ENOENT")

def applyDelete (step : Step) (assertLease : M Unit) (allowOwnedPartialTreeDelete : Bool) :
    M Unit := do
  match truthy (step.targetKey.or step.sourceKey) with
  | none => Proc.throw (.ambiguity "Delete step lacks target.")
  | some key =>
    let target ← check (resolveMutationStoragePath key)
    assertSafeStorageAncestors target
    match ← pathState target with
    | none =>
      -- The unlink may have completed before a crash.
      if !(← removeEmptyArtifactAncestors key target) then syncParents [target]
    | some node =>
      match step.action with
      | .deleteFile => deleteMutationFile H target step assertLease
      | .deleteTree => deleteMutationTree H target node step assertLease allowOwnedPartialTreeDelete
      | _ => removeMutationDirectory target node assertLease
      syncParents [target]
      let _ ← removeEmptyArtifactAncestors key target

/-! ## Phases -/

def isCleanup (action : Action) : Bool :=
  action = .deleteFile || action = .deleteTree || action = .removeEmptyDirectory

variable (m : Mutation)

/-- A tree delete in this mutation's own quarantine, once the rename into it is applied. -/
def isOwnedQuarantineTreeDelete (memory : List Nat) (step : Step) : Except Err Bool :=
  match step.action, truthy step.targetKey with
  | .deleteTree, some targetKey => do
    let parts ← normalizeStorageKey targetKey
    return !(parts.length < 3) && parts.head? = some "tmp".toList &&
      parts.getD 1 [] = "quarantine".toList &&
      m.steps.any fun candidate => candidate.action = .rename &&
        candidate.targetKey = step.targetKey && memory.contains candidate.id
  | _, _ => .ok false

def applyFilesystemStep (step : Step) (assertLease : M Unit) : M Unit := do
  match step.action with
  | .rename => applyRename H .forward step assertLease
  | .mkdir => applyMkdir H step assertLease
  | _ =>
    let owned ← check (isOwnedQuarantineTreeDelete m (← get).memory step)
    applyDelete H step assertLease owned

/-- The lease check of the two phases: a failure of the timer counts first. -/
def assertLease (lease : Lease) : M Unit := do
  match (← get).leaseFailure with
  | some e => Proc.throw e
  | none => renewStorageMutationLease lease

/-- One step that is not applied yet. -/
def applyStorageMutationStep (lease : Lease) (step : Step) : M Unit := do
  assertLease lease
  (applyFilesystemStep H m step (assertLease lease)).handle fun e => do
    markStorageMutationStepFailed lease
    Proc.throw e
  markStorageMutationStepApplied step.id lease
  modify fun w => { w with memory := step.id :: w.memory }

def applyStorageMutationSteps (lease : Lease) (cleanup : Bool) : List Step → M Unit
  | [] => pure ()
  | step :: rest => do
    if !(← get).memory.contains step.id && isCleanup step.action = cleanup then
      applyStorageMutationStep H m lease step
    applyStorageMutationSteps lease cleanup rest

def executeStorageMutationPhases (lease : Lease) : M Unit := do
  applyStorageMutationSteps H m lease false m.steps
  commitStorageMutationMetadata lease
  beginStorageMutationFinalization lease
  applyStorageMutationSteps H m lease true m.steps
  completeStorageMutation lease

/-! ## Rollback -/

/-- `STORAGE_MUTATION_MAX_PRECOMMIT_ATTEMPTS` -/
def maxPrecommitAttempts : Nat := 11

def permanentRejectionOf : Err → Option RejectionCode
  | .rejected code => some code
  | .errno code => if code = "ENAMETOOLONG" then some .storagePathTooLong else none
  | _ => none

def mayAbort (error : Err) : Bool :=
  m.parentId = none && userStorageMutationKinds.contains m.kind &&
    match error with
    | .ambiguity _ | .intent _ | .fence => false
    | _ => true

def abortReasonFor (error : Err) (attemptCount : Nat) : Option RejectionCode :=
  if !mayAbort m error then none
  else (permanentRejectionOf error).or
    (if maxPrecommitAttempts ≤ attemptCount then some .storageMutationAborted else none)

def removeUndoneDirectory (step : Step) : M Unit := do
  match truthy step.targetKey with
  | none => pure ()
  | some targetKey =>
    let target ← check (resolveMutationStoragePath targetKey)
    assertSafeStorageAncestors target
    if (← removeArtifactDirectory .undo target) = .notEmpty then
      Proc.throw (.ambiguity "Created directory gained entries before rollback.")

/-- The step with source and target swapped. -/
def Step.swapped (step : Step) : Step :=
  { step with sourceKey := step.targetKey, targetKey := step.sourceKey }

def undoStep (step : Step) (assertLease : M Unit) : M Unit := do
  match step.action with
  | .rename => applyRename H .undo step.swapped assertLease
  | .mkdir =>
    assertLease
    removeUndoneDirectory step
  | _ => pure ()

/-- Reverse applied forward steps, in the order given. -/
def undoForwardSteps (assertLease : M Unit) : List Step → M Unit
  | [] => pure ()
  | step :: rest => do
    if (← get).memory.contains step.id && !isCleanup step.action then undoStep H step assertLease
    undoForwardSteps assertLease rest

/-- Undo and abort, unless the mutation is committed or no longer running. -/
def rollBackAndAbort (lease : Lease) : M Bool := do
  let proceed ← call fun w =>
    if w.row.metadataCommittedAt.isSome || w.row.status ≠ .running then .ok false w
    else .ok true (w.emit (.rollback w.memory))
  if !proceed then return false
  undoForwardSteps H (renewStorageMutationLease lease) m.steps.reverse
  abortStorageMutation lease
  return true

def persistExecutionFailure (error : Err) (lease : Lease) : M Unit :=
  match error with
  | .ambiguity _ | .intent _ => (requireStorageMutationRecovery lease).ignoreErrors
  | _ => (retryStorageMutation lease).ignoreErrors

def tryAbortBeforeCommit (claimed : Claimed) (error : Err) : M (Option RejectionCode) := do
  match abortReasonFor m error claimed.attemptCount with
  | none => return none
  | some rejection =>
    (do
      let aborted ← rollBackAndAbort H m claimed.lease
      return if aborted then some rejection else none).handle fun undoError => do
        -- An ambiguous undo fails closed; anything else retries the whole attempt.
        persistExecutionFailure undoError claimed.lease
        Proc.throw error

def executeClaimedStorageMutation (claimed : Claimed) : M Unit := do
  modify fun w => { w with timer := some claimed.lease, leaseFailure := none }
  (executeStorageMutationPhases H m claimed.lease).handle fun error => do
    match ← tryAbortBeforeCommit H m claimed error with
    | some rejection => Proc.throw (.rejected rejection)
    | none =>
      persistExecutionFailure error claimed.lease
      Proc.throw error

def claimAndExecuteStorageMutation (leaseOwner : Text) : M Unit := do
  match ← claimStorageMutation leaseOwner with
  | none => Proc.throw .other
  | some claimed => executeClaimedStorageMutation H m claimed

def recoverStorageMutationCleanup (leaseOwner : Text) : M Bool := do
  match ← claimStorageMutationFinalization leaseOwner with
  | none => return false
  | some claimed =>
    (do
      applyStorageMutationSteps H m claimed.lease true m.steps
      completeStorageMutation claimed.lease
      return true).handle fun error => do
        persistExecutionFailure error claimed.lease
        Proc.throw error

end Staaash.Journal
