import Staaash.Archives.Selection

/-!
# The files that artifacts are made from

An owner's rows, the files on the disk, and the mutations in progress, one step of which is one transaction
or one rename. Only the mutation that changes a file moves what lies at its key; when the mutation commits,
every row it has changed has a higher revision and describes what lies at its key, and when it is rolled
back, everything lies where it did.
-/

namespace Staaash.Artifacts

open Staaash.Archives (Rows StoredFileRecord)

/-- A mutation that is not finished, with the entities that its journal row names. -/
structure SourceMutation where
  id : String
  fileIds : List String
  folderIds : List String
  /-- The files of these whose rows it changes. -/
  changed : List String
deriving DecidableEq, Repr

structure Sources (Body : Type) where
  rows : Rows
  folderRevision : String → Nat
  /-- What lies at a key. -/
  disk : String → Option Body
  mutations : List SourceMutation
  /-- The ids of all files there have been. -/
  usedIds : List String

variable {Body : Type}

inductive SourceEvent (Body : Type)
  | prepare (mutation : SourceMutation)
  | place (key : String) (body : Option Body)
  | commit (id : String) (rows : Rows) (folderRevision : String → Nat)
  | abort (id : String)

namespace Sources

def InProgress (src : Sources Body) (fileId : String) : Prop := ∃ m ∈ src.mutations, fileId ∈ m.changed

instance (src : Sources Body) (fileId : String) : Decidable (src.InProgress fileId) :=
  inferInstanceAs (Decidable (∃ m ∈ src.mutations, _))

/-- What the row describes lies at its key, and nothing does where the row has it as missing. -/
def Holds (bodyOf : StoredFileRecord → Body) (src : Sources Body) (file : StoredFileRecord) : Prop :=
  src.disk file.storageKey = if file.storageStatus = .available then some (bodyOf file) else none

/-- The row of a file after the mutation: a row from before, or a changed one. No id is given out twice. -/
def Follows (src : Sources Body) (m : SourceMutation) (file : StoredFileRecord) : Prop :=
  (file ∈ src.rows.files ∧ file.id ∉ m.changed) ∨
    (file.id ∈ m.changed ∧ (file.id ∈ src.usedIds → ∃ before ∈ src.rows.files, before.id = file.id) ∧
      ∀ before ∈ src.rows.files, before.id = file.id → before.storageRevision < file.storageRevision)

variable [DecidableEq Body] (bodyOf : StoredFileRecord → Body)

instance (src : Sources Body) (file : StoredFileRecord) : Decidable (src.Holds bodyOf file) :=
  inferInstanceAs (Decidable (_ = _))

instance (src : Sources Body) (m : SourceMutation) (file : StoredFileRecord) : Decidable (src.Follows m file) :=
  inferInstanceAs (Decidable (_ ∨ _))

def act (src : Sources Body) : SourceEvent Body → Option (Sources Body)
  | .prepare mutation =>
    if mutation.id ∉ src.mutations.map (·.id) then
      some { src with mutations := src.mutations ++ [mutation] }
    else none
  | .place key body =>
    if ∀ file ∈ src.rows.files, file.storageKey = key → src.InProgress file.id then
      some { src with disk := fun k => if k = key then body else src.disk k }
    else none
  | .commit id rows folderRevision =>
    match src.mutations.find? (·.id = id) with
    | none => none
    | some m =>
      if (rows.files.map (·.id)).Nodup ∧
          ∀ file ∈ rows.files, src.Follows m file ∧ (file.id ∈ m.changed → src.Holds bodyOf file) then
        some { src with
          rows, folderRevision
          mutations := src.mutations.erase m
          usedIds := src.usedIds ++ rows.files.map (·.id) }
      else none
  | .abort id =>
    match src.mutations.find? (·.id = id) with
    | none => none
    | some m =>
      if ∀ file ∈ src.rows.files, file.id ∈ m.changed → src.Holds bodyOf file then
        some { src with mutations := src.mutations.erase m }
      else none

/-- No finished mutation has left anything behind. -/
structure Settled (src : Sources Body) : Prop where
  nodup : (src.rows.files.map (·.id)).Nodup
  used : ∀ file ∈ src.rows.files, file.id ∈ src.usedIds
  holds : ∀ file ∈ src.rows.files, ¬ src.InProgress file.id → src.Holds bodyOf file

end Sources

end Staaash.Artifacts
