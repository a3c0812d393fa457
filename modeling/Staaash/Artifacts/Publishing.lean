import Staaash.Library.OpenFiles

/-!
# Publishing an artifact

`buildArtifactPublishSteps`, and what the executor does with the steps: a rename is checked first, and
whatever lies at its source by then is moved.
-/

namespace Staaash.Artifacts

open Staaash.Library

inductive PublishStep
  | rename (sourceKey targetKey : String) (expectedSizeBytes : Option Nat) (expectedChecksum : String)
  | deleteFile (targetKey : String) (expectedChecksum : String)
deriving DecidableEq, Repr

/-- `path.posix.basename` of a key that does not end with a slash. -/
def basename (key : String) : String := String.ofList (key.toList.reverse.takeWhile (· ≠ '/')).reverse

def incomingKey (mutationId storageKey : String) : String :=
  "tmp/incoming/" ++ (mutationId ++ "/" ++ basename storageKey)

def backupKey (mutationId storageKey : String) : String :=
  "tmp/backup/" ++ (mutationId ++ "/" ++ basename storageKey)

def buildArtifactPublishSteps (mutationId tmpKey storageKey : String) (sizeBytes : Nat) (checksum : String)
    (oldChecksum : Option String) : List PublishStep :=
  match oldChecksum with
  | none => [.rename tmpKey storageKey (some sizeBytes) checksum]
  | some old =>
    [.rename tmpKey (incomingKey mutationId storageKey) (some sizeBytes) checksum,
      .rename storageKey (backupKey mutationId storageKey) none old,
      .rename (incomingKey mutationId storageKey) storageKey (some sizeBytes) checksum,
      .deleteFile (backupKey mutationId storageKey) old]

def PublishStep.sourceKey? : PublishStep → Option String
  | .rename sourceKey _ _ _ => some sourceKey
  | .deleteFile _ _ => none

variable {Byte : Type}

/-- The files that only artifacts use. Those who write them are numbered. -/
abbrev ArtifactFiles (Byte : Type) := OpenFiles String Nat Byte

/-- The source is the file that was captured, and nothing lies at the target. -/
def PublishStep.valid (checksum : List Byte → String) (files : ArtifactFiles Byte) : PublishStep → Bool
  | .rename sourceKey targetKey expectedSizeBytes expectedChecksum =>
    (files.get targetKey).isNone &&
      (files.get sourceKey).any fun node =>
        expectedSizeBytes.all (· = node.bytes.length) && checksum node.bytes = expectedChecksum
  | .deleteFile _ _ => true

/-- A journalled publication. -/
structure Publication (Data : Type) where
  mutationId : String
  /-- Who has written the file. -/
  writer : Nat
  preRevision : Nat
  data : Data
  steps : List PublishStep
  /-- How many steps are applied. -/
  applied : Nat
  /-- The next step has been checked. -/
  validated : Bool
  committed : Bool
deriving DecidableEq, Repr

namespace Publication

variable {Data : Type}

def prepared (mutationId : String) (writer preRevision : Nat) (data : Data) (steps : List PublishStep) :
    Publication Data :=
  { mutationId, writer, preRevision, data, steps, applied := 0, validated := false, committed := false }

def next (p : Publication Data) : Option PublishStep := p.steps[p.applied]?

def validate (checksum : List Byte → String) (p : Publication Data) (files : ArtifactFiles Byte) :
    Publication Data :=
  { p with validated := p.next.any (·.valid checksum files) }

/-- The next step, once it has been checked. What is deleted goes after the commit. -/
def apply (p : Publication Data) (files : ArtifactFiles Byte) : Option (Publication Data × ArtifactFiles Byte) :=
  match p.next with
  | some (.rename sourceKey targetKey _ _) =>
    if p.validated ∧ p.committed = false ∧ (files.get sourceKey).isSome then
      some ({ p with applied := p.applied + 1, validated := false }, files.rename sourceKey targetKey)
    else none
  | some (.deleteFile targetKey _) =>
    if p.committed then some ({ p with applied := p.applied + 1 }, files.remove targetKey) else none
  | none => none

/-- Every rename is done. -/
def forwardDone (p : Publication Data) : Bool :=
  (p.steps.drop p.applied).all fun step => step matches .deleteFile _ _

end Publication

/-! ## The desk -/

/-- The files and publications of one artifact. -/
structure Desk (Byte Data : Type) where
  files : ArtifactFiles Byte
  /-- How often a file has been opened for writing. -/
  opens : Nat
  publications : List (Publication Data)

namespace Desk

variable {Data : Type}

def empty : Desk Byte Data := ⟨.none, 0, []⟩

/-- Everyone who opens the temporary file is a new writer. -/
def openOutput (desk : Desk Byte Data) (tmpKey : String) : Desk Byte Data × Output Nat Byte :=
  ({ desk with files := desk.files.openEmpty tmpKey desk.opens, opens := desk.opens + 1 },
    ⟨desk.opens, desk.files.handle tmpKey, []⟩)

def write [Inhabited Byte] (desk : Desk Byte Data) (o : Output Nat Byte) (piece : List Byte) :
    Desk Byte Data × Output Nat Byte :=
  ({ desk with files := desk.files.write o.node o.written.length piece },
    { o with written := o.written ++ piece })

def remove (desk : Desk Byte Data) (key : String) : Desk Byte Data :=
  { desk with files := desk.files.remove key }

def publication (desk : Desk Byte Data) (mutationId : String) : Option (Publication Data) :=
  desk.publications.find? (·.mutationId = mutationId)

def setPublication (desk : Desk Byte Data) (p : Publication Data) : Desk Byte Data :=
  { desk with publications := desk.publications.map fun q => if q.mutationId = p.mutationId then p else q }

/-- A publication holds the owner's resources until it is committed. -/
def publishing (desk : Desk Byte Data) : Bool := desk.publications.any (!·.committed)

def prepare (desk : Desk Byte Data) (p : Publication Data) : Desk Byte Data :=
  { desk with publications := desk.publications ++ [p] }

def validate (checksum : List Byte → String) (desk : Desk Byte Data) (mutationId : String) :
    Option (Desk Byte Data) :=
  (desk.publication mutationId).map fun p => desk.setPublication (p.validate checksum desk.files)

def apply (desk : Desk Byte Data) (mutationId : String) : Option (Desk Byte Data) :=
  (desk.publication mutationId).bind fun p =>
    (p.apply desk.files).map fun (p', files) => { desk.setPublication p' with files }

def commit (desk : Desk Byte Data) (p : Publication Data) : Desk Byte Data :=
  desk.setPublication { p with committed := true }

/-- The writer was the last to open its file. -/
def OwnsOutput (desk : Desk Byte Data) (o : Output Nat Byte) : Prop :=
  ∀ node ∈ desk.files.nodes[o.node]?, node.opener = o.writer

/-- A publication whose file is still under the temporary name finds the file of its writer there. -/
def FindsOutput (desk : Desk Byte Data) (mutationId : String) : Prop :=
  ∀ p ∈ desk.publication mutationId, p.validated = true → p.applied = 0 →
    ∀ key ∈ p.next.bind PublishStep.sourceKey?, ∀ node ∈ desk.files.get key, node.opener = p.writer

instance (desk : Desk Byte Data) (o : Output Nat Byte) : Decidable (desk.OwnsOutput o) :=
  inferInstanceAs (Decidable (∀ node ∈ desk.files.nodes[o.node]?, _))

instance (desk : Desk Byte Data) (mutationId : String) : Decidable (desk.FindsOutput mutationId) :=
  inferInstanceAs (Decidable (∀ p ∈ desk.publication mutationId, _))

end Desk

end Staaash.Artifacts
