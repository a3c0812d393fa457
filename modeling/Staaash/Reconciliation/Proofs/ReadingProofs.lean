import Staaash.Reconciliation.Proofs.ScanProofs
import Staaash.Reconciliation.Scan

/-!
# Proofs: reading a file

A read that finds nothing where the row says has come in the middle of a mutation. Where it opens in
time, it has found nothing because the row is gone, and a row that is gone does not come back to be
marked.
-/

namespace Staaash.Reconciliation

open Staaash.Library

variable {disk : Disk} {s : World} {e : Event} {r : Readers} {ev : ReadEvent}

/-- The file was deleted. -/
def World.Gone (s : World) : Prop := s.existed = true ∧ s.row = none

theorem existed_step (h : s.existed = true) : (s.step e).existed = true := by
  unfold World.step
  cases hact : s.act e with
  | none => exact h
  | some s' =>
    cases e with
    | prepare plan =>
      obtain ⟨-, hact⟩ := Option.ite_none_right_eq_some.1 hact
      cases hact
      exact h
    | deed id deed =>
      obtain ⟨m, -, hact⟩ := Option.bind_eq_some_iff.1 hact
      obtain ⟨m', -, hact⟩ := Option.bind_eq_some_iff.1 hact
      obtain ⟨disk', -, hact⟩ := Option.bind_eq_some_iff.1 hact
      obtain ⟨row', -, hact⟩ := Option.map_eq_some_iff.1 hact
      cases hact
      show (s.existed || row'.isSome) = true
      rw [h, Bool.true_or]
    | scan step =>
      obtain ⟨scan, -, hact⟩ := Option.map_eq_some_iff.1 hact
      cases hact
      exact h

/-- The id of a file that was deleted is not given again. -/
theorem gone_step (inv : DiskInv s) (h : s.Gone) : (s.step e).Gone := by
  refine ⟨existed_step h.1, ?_⟩
  unfold World.step
  cases hact : s.act e with
  | none => exact h.2
  | some s' =>
    cases e with
    | prepare plan =>
      obtain ⟨-, hact⟩ := Option.ite_none_right_eq_some.1 hact
      cases hact
      exact h.2
    | deed id deed =>
      obtain ⟨m, hm, hact⟩ := Option.bind_eq_some_iff.1 hact
      obtain ⟨m', hafter, hact⟩ := Option.bind_eq_some_iff.1 hact
      obtain ⟨disk', hdisk, hact⟩ := Option.bind_eq_some_iff.1 hact
      obtain ⟨row', hrow, hact⟩ := Option.map_eq_some_iff.1 hact
      cases hact
      have hidle : ¬ m.Moving := by
        intro hmoving
        rcases (inv.moving id m hm hmoving).created with hsome | hnew
        · rw [h.2] at hsome
          cases hsome
        · rw [h.1] at hnew
          cases hnew
      obtain ⟨-, rfl, -⟩ := deed_idle (inv.known id m hm).2 hidle hafter hdisk hrow
      exact h.2
    | scan step =>
      obtain ⟨scan, -, hact⟩ := Option.map_eq_some_iff.1 hact
      cases hact
      exact h.2

/-- Bytes that are not where the row says are on their way. -/
theorem midway_of_missing (inv : DiskInv s) (h : intact s.row s.disk = false) : s.midway = true := by
  obtain ⟨id, m, hm, hmoving, happlied⟩ := exists_begun inv h
  refine List.any_eq_true.mpr ⟨(id, m), (OrderedMap.get_eq_some_iff _ _ _).1 hm, ?_⟩
  simp [hmoving.unfinished (inv.known id m hm).2, hmoving.uncommitted, happlied]

/-- A file of which there is nothing to open in time is gone. -/
theorem gone_of_nothing {file : FileRow} (inv : DiskInv s) (hexisted : s.existed = true)
    (hnothing : s.disk (.storage file.storageKey) = none)
    (hok : ∀ row ∈ s.row, row.storageKey = file.storageKey ∧ s.midway = false) : s.Gone := by
  refine ⟨hexisted, ?_⟩
  cases hrow : s.row with
  | none => rfl
  | some row =>
    obtain ⟨hkey, hmidway⟩ := hok row hrow
    have hmissing : intact s.row s.disk = false := by
      rw [hrow]
      show row.intact s.disk = false
      rw [FileRow.intact, hkey, hnothing]
      rfl
    rw [midway_of_missing inv hmissing] at hmidway
    cases hmidway

structure ReadInv (r : Readers) : Prop where
  disk : DiskInv r.world
  existed : ∀ file, file ∈ r.loaded ∨ file ∈ r.checked → r.world.existed = true
  missed : ∀ file ∈ r.missed, r.world.Gone

theorem readInv_step (r : Readers) (ev : ReadEvent) (hok : OpensInTime r ev) (inv : ReadInv r) :
    ReadInv (r.step ev) := by
  obtain ⟨dinv, hexisted, hmissed⟩ := inv
  cases ev with
  | other e =>
    exact ⟨diskInv_step r.world e dinv, fun file h => existed_step (hexisted file h),
      fun file h => gone_step dinv (hmissed file h)⟩
  | findFileById =>
    refine ⟨dinv, fun file h => ?_, hmissed⟩
    rcases h with hloaded | hchecked
    · rcases List.mem_append.mp hloaded with hnew | hold
      · exact dinv.existed (by rw [Option.mem_toList.mp hnew, Option.isSome_some])
      · exact hexisted file (Or.inl hold)
    · exact hexisted file (Or.inr hchecked)
  | assertStorageEntityReadable file =>
    by_cases hloaded : file ∈ r.loaded
    · simp only [Readers.step, if_pos hloaded]
      exact ⟨dinv, fun _ _ => hexisted file (Or.inl hloaded), hmissed⟩
    · simp only [Readers.step, if_neg hloaded]
      exact ⟨dinv, hexisted, hmissed⟩
  | openStoragePath file =>
    by_cases hchecked : file ∈ r.checked
    · simp only [Readers.step, if_pos hchecked]
      refine ⟨dinv, fun _ _ => hexisted file (Or.inr hchecked), fun file' hmem => ?_⟩
      by_cases hnothing : r.world.disk (.storage file.storageKey) = none
      · exact gone_of_nothing dinv (hexisted file (Or.inr hchecked)) hnothing (hok hchecked)
      · dsimp only at hmem
        rw [if_neg hnothing] at hmem
        exact hmissed file' hmem
    · simp only [Readers.step, if_neg hchecked]
      exact ⟨dinv, hexisted, hmissed⟩
  | markFileStorageMissing file =>
    by_cases hmem : file ∈ r.missed
    · simp only [Readers.step, if_pos hmem]
      refine ⟨⟨dinv.known, fun id m hm hmov => ?_, dinv.alone, dinv.still, dinv.existed⟩, hexisted,
        fun _ _ => hmissed file hmem⟩
      have hway := dinv.moving id m hm hmov
      exact ⟨hway.before, hway.created, hway.applied, hway.way⟩
    · simp only [Readers.step, if_neg hmem]
      exact ⟨dinv, hexisted, hmissed⟩

theorem ReadInv.hides (inv : ReadInv r) : r.hides ev = false := by
  cases ev with
  | markFileStorageMissing file =>
    unfold Readers.hides
    by_cases hmem : file ∈ r.missed
    · rw [(inv.missed file hmem).2]
      exact Bool.and_false _
    · simp [hmem]
  | _ => rfl

/-- No read marks a healthy file missing, as long as each opens the path while the row still has the key
it has loaded and no mutation is on its way with the file. -/
theorem run_hides {row : Option FileRow} {status : StorageStatus} {events : List ReadEvent}
    (hok : RunMeets Readers.step OpensInTime (.start (.start row status disk)) events)
    (hhealthy : RunMeets Readers.step (fun r _ => r.world.Healthy) (.start (.start row status disk))
      events) :
    RunMeets Readers.step (fun r ev => r.hides ev = false) (.start (.start row status disk)) events := by
  cases events with
  | nil => trivial
  | cons ev events =>
    have hinit : ReadInv (.start (.start row status disk)) := by
      refine ⟨diskInv_start (hhealthy.1 rfl), fun file h => ?_, fun file h => ?_⟩
      · rcases h with h | h
        · cases h
        · cases h
      · cases h
    exact (hok.invariant readInv_step hinit).mono fun r ev h => h.2.hides

/-- A read that has loaded the row and found no mutation in the way, and a whole rename before it opens
the path. -/
def renamedBeforeTheOpen (opens : Bool) : List ReadEvent :=
  [.findFileById, .assertStorageEntityReadable ⟨"a.txt", some "c", 4⟩] ++
  (if opens then [.openStoragePath ⟨"a.txt", some "c", 4⟩] else []) ++
  [.other (.prepare (.move "m1" ⟨"a.txt", some "c", 4⟩ "b.txt")), .other (.deed "m1" .claim),
    .other (.deed "m1" .rename), .other (.deed "m1" .commit), .other (.deed "m1" .beginFinalization),
    .other (.deed "m1" .complete), .openStoragePath ⟨"a.txt", some "c", 4⟩,
    .markFileStorageMissing ⟨"a.txt", some "c", 4⟩]

theorem run_hides_openedFirst :
    RunMeets Readers.step (fun r ev => r.hides ev = false) (.start healthyStart)
      (renamedBeforeTheOpen true) :=
  run_hides (by decide +kernel) (by decide +kernel)

theorem renamed_file_marked_missing :
    RunMeets Readers.step (fun r _ => r.world.Healthy) (.start healthyStart)
      (renamedBeforeTheOpen false) ∧
    ((renamedBeforeTheOpen false).foldl Readers.step (.start healthyStart)).world.storageStatus =
      .missing := by
  decide +kernel

end Staaash.Reconciliation
