import Staaash.Reconciliation.Scan

/-!
# Proofs: the scan

The bytes of a file are where its row says, or some renames of one mutation away from there. A scan that
misses them either sees the mutation again in its second read of the journal, or the row with a later
revision in its second read of the rows; unless the mutation was given up in between.
-/

namespace Staaash.Reconciliation

open Staaash.Journal (Status)
open Staaash.Library

variable {disk disk' : Disk} {rename : Rename} {renames : List Rename} {place : Place}
variable {row : Option FileRow} {file : FileRow} {m m' : FileMutation} {deed : Deed}
variable {s s' : World} {e : Event} {id : String}

/-! ## Renames -/

theorem apply_eq_some : rename.apply disk = some disk' ↔ ∃ checksum,
    disk rename.source = some checksum ∧ disk rename.target = none ∧
    rename.expectedChecksum.all (· = checksum) = true ∧
    disk' = Function.update (Function.update disk rename.source none) rename.target
      (some checksum) := by
  unfold Rename.apply
  rw [Option.bind_eq_some_iff]
  refine exists_congr fun checksum => and_congr_right fun _ => ?_
  rw [Option.ite_none_right_eq_some, Bool.and_eq_true, decide_eq_true_eq, and_assoc]
  exact and_congr_right fun _ => and_congr_right fun _ =>
    ⟨fun h => (Option.some.inj h).symm, fun h => congrArg some h.symm⟩

/-- Renaming back gives the disk of before. -/
theorem eq_of_swapped {disk'' : Disk} (h : rename.apply disk = some disk')
    (hback : rename.swapped.apply disk' = some disk'') : disk'' = disk := by
  obtain ⟨checksum, hsource, htarget, -, rfl⟩ := apply_eq_some.1 h
  obtain ⟨checksum', hsource', -, -, rfl⟩ := apply_eq_some.1 hback
  have hne : rename.source ≠ rename.target := by
    intro heq
    rw [heq, htarget] at hsource
    cases hsource
  have hchecksum : checksum' = checksum := by
    have hread : Function.update (Function.update disk rename.source none) rename.target
        (some checksum) rename.target = some checksum' := hsource'
    rw [Function.update_self] at hread
    exact (Option.some.inj hread).symm
  funext place
  show (Function.update (Function.update _ rename.target none) rename.source (some checksum') : Disk)
    place = _
  by_cases hs : place = rename.source
  · rw [hs, Function.update_self, hsource, hchecksum]
  · rw [Function.update_of_ne hs]
    by_cases ht : place = rename.target
    · rw [ht, Function.update_self, htarget]
    · rw [Function.update_of_ne ht, Function.update_of_ne ht, Function.update_of_ne hs]

theorem renameAll_append {older newer : List Rename} :
    renameAll (older ++ newer) disk = (renameAll older disk).bind (renameAll newer) := by
  unfold renameAll
  rw [List.foldlM_append]
  rfl

/-- Renames do not see what becomes of a place that none of them names. -/
theorem renameAll_update (h : ∀ rename ∈ renames, rename.source ≠ place ∧ rename.target ≠ place)
    (hdisk : renameAll renames disk = some disk') :
    renameAll renames (Function.update disk place none) = some (Function.update disk' place none) := by
  induction renames generalizing disk with
  | nil =>
    obtain rfl := Option.some.inj hdisk
    rfl
  | cons rename renames ih =>
    obtain ⟨mid, hmid, hrest⟩ := Option.bind_eq_some_iff.1
      (show (rename.apply disk).bind (renameAll renames) = some disk' from hdisk)
    obtain ⟨hsource, htarget⟩ := h rename List.mem_cons_self
    obtain ⟨checksum, hread, hfree, hexpected, rfl⟩ := apply_eq_some.1 hmid
    have hmid' : rename.apply (Function.update disk place none) = some (Function.update
        (Function.update (Function.update disk rename.source none) rename.target (some checksum))
        place none) := by
      refine apply_eq_some.2 ⟨checksum, ?_, ?_, hexpected, ?_⟩
      · rw [Function.update_of_ne hsource, hread]
      · rw [Function.update_of_ne htarget, hfree]
      · rw [Function.update_comm hsource.symm, Function.update_comm htarget.symm]
    show (rename.apply _).bind (renameAll renames) = _
    rw [hmid']
    exact ih (fun rename hmem => h rename (List.mem_cons_of_mem _ hmem)) hrest

theorem intact_update {name : String} :
    intact row (Function.update disk (.artifact id name) none) = intact row disk := by
  cases row with
  | none => rfl
  | some file =>
    show file.intact _ = file.intact _
    unfold FileRow.intact
    rw [Function.update_of_ne (by exact nofun)]

/-! ## The mutation that moves the file -/

/-- Its renames are, or may be, underway. -/
structure FileMutation.Moving (m : FileMutation) : Prop where
  kept : m.status ≠ .aborted
  uncommitted : m.committed = false
  writes : m.plan.write ≠ .keep

/-- Which statuses go with a committed and with a released mutation. -/
def fits (status : Status) (committed released : Bool) : Bool :=
  if committed then status ∈ [Status.metadataCommitted, .finalizing, .succeeded, .recoveryRequired]
  else status ∈ [Status.prepared, .running, .retrying, .recoveryRequired, .aborted] &&
    (!released || status = .aborted)

def FileMutation.Fits (m : FileMutation) : Prop := fits m.status m.committed m.released = true

theorem of_fits {status : Status} {committed released : Bool}
    (h : fits status committed released = true) :
    (committed = false → status ≠ .aborted → status ∈ unfinishedStatuses ∧ released = false) ∧
    (status ∈ [Status.prepared, .running, .retrying] → committed = false ∧ released = false) ∧
    (status ∈ [Status.metadataCommitted, .finalizing] → committed = true) := by
  revert committed released
  cases status <;> decide

theorem FileMutation.Moving.unfinished (h : m.Moving) (hm : m.Fits) : m.unfinished = true :=
  decide_eq_true ((of_fits hm).1 h.uncommitted h.kept).1

theorem FileMutation.Moving.held (h : m.Moving) (hm : m.Fits) : m.released = false :=
  ((of_fits hm).1 h.uncommitted h.kept).2

theorem moving_of_status (hm : m.Fits) (hwrite : m.plan.write ≠ .keep)
    (hstatus : m.status ∈ [Status.prepared, .running, .retrying]) : m.Moving where
  kept := by
    intro h
    rw [h] at hstatus
    revert hstatus
    decide
  uncommitted := ((of_fits hm).2.1 hstatus).1
  writes := hwrite

theorem fits_after (hm : m.Fits) (h : m.after deed = some m') : m'.Fits := by
  obtain ⟨plan, status, committed, released, applied⟩ := m
  replace hm : fits status committed released = true := hm
  cases deed <;> obtain ⟨hguard, h⟩ := Option.ite_none_right_eq_some.1 h <;> cases h
  case rename | undo | cleanup => exact hm
  case claim =>
    obtain ⟨rfl, rfl⟩ := (of_fits hm).2.1 hguard
    rfl
  case commit => rfl
  case retry | abort =>
    obtain ⟨rfl, rfl⟩ := (of_fits hm).2.1 (by simp_all)
    rfl
  case beginFinalization | complete =>
    obtain rfl := (of_fits hm).2.2 (by simp_all)
    rfl
  case requireRecovery =>
    obtain rfl | hguard := List.mem_cons.1 hguard
    · obtain ⟨rfl, rfl⟩ := (of_fits hm).2.1 (by decide)
      rfl
    · obtain rfl := (of_fits hm).2.2 hguard
      rfl

/-! ## What a deed does -/

theorem running_mem : Status.running ∈ [Status.prepared, .running, .retrying] := by decide

theorem not_moving_of_committed (h : m.committed = true) : ¬ m.Moving := fun hmoving => by
  rw [hmoving.uncommitted] at h
  cases h

/-- A mutation that keeps the row has nothing to rename. -/
theorem no_rename (hwrite : m.plan.write = .keep) {n : Nat} : m.plan.renames[n]? = none := by
  rw [m.plan.still hwrite]
  rfl

/-- A mutation that does not move the file leaves its row and its bytes alone. -/
theorem deed_idle {row' : Option FileRow} (hm : m.Fits) (hidle : ¬ m.Moving)
    (hafter : m.after deed = some m') (hdisk : m.disk disk deed = some disk')
    (hrow : m.row row deed = some row') :
    ¬ m'.Moving ∧ row' = row ∧ (disk' = disk ∨
      ∃ name, disk' = Function.update disk (.artifact m.plan.mutationId name) none) := by
  have hkeep : m.status ∈ [Status.prepared, .running, .retrying] → m.plan.write = .keep :=
    fun hstatus => by_contra fun hwrite => hidle (moving_of_status hm hwrite hstatus)
  have hdone : ∀ {k : FileMutation}, k.plan = m.plan → m.plan.write = .keep → ¬ k.Moving :=
    fun hplan hwrite hmoving => hmoving.writes (hplan ▸ hwrite)
  cases deed <;> obtain ⟨hguard, hafter⟩ := Option.ite_none_right_eq_some.1 hafter <;> cases hafter
  case claim =>
    cases hdisk
    cases hrow
    exact ⟨hdone rfl (hkeep hguard), rfl, .inl rfl⟩
  case retry =>
    cases hdisk
    cases hrow
    exact ⟨hdone rfl (hkeep (hguard ▸ running_mem)), rfl, .inl rfl⟩
  case abort =>
    cases hdisk
    cases hrow
    exact ⟨fun h => h.kept rfl, rfl, .inl rfl⟩
  case rename | undo =>
    rw [Bool.and_eq_true, decide_eq_true_eq] at hguard
    have hwrite := hkeep (hguard.1 ▸ running_mem)
    simp only [FileMutation.disk, no_rename hwrite] at hdisk
    cases hdisk
  case commit =>
    rw [Bool.and_eq_true, decide_eq_true_eq] at hguard
    have hwrite := hkeep (hguard.1 ▸ running_mem)
    simp only [FileMutation.row, hwrite, if_true] at hrow
    cases hdisk
    cases hrow
    exact ⟨not_moving_of_committed rfl, rfl, .inl rfl⟩
  case beginFinalization | complete =>
    cases hdisk
    cases hrow
    exact ⟨not_moving_of_committed ((of_fits hm).2.2 (by simp_all)), rfl, .inl rfl⟩
  case cleanup name =>
    cases hdisk
    cases hrow
    exact ⟨hidle, rfl, .inr ⟨name, rfl⟩⟩
  case requireRecovery =>
    cases hdisk
    cases hrow
    obtain hrunning | hcommitted := List.mem_cons.1 hguard
    · exact ⟨hdone rfl (hkeep (hrunning ▸ running_mem)), rfl, .inl rfl⟩
    · exact ⟨not_moving_of_committed ((of_fits hm).2.2 hcommitted), rfl, .inl rfl⟩

theorem renameAll_take_succ {n : Nat} {disk₀ : Disk} (h : renames[n]? = some rename) :
    renameAll (renames.take (n + 1)) disk₀ =
      (renameAll (renames.take n) disk₀).bind fun disk => rename.apply disk := by
  rw [List.take_add_one, h, renameAll_append]
  refine congrArg _ (funext fun disk => ?_)
  show (rename.apply disk).bind (renameAll []) = _
  cases rename.apply disk <;> rfl

/-- A mutation that moves the file goes on with it, commits or gives it up. -/
theorem deed_moving {row' : Option FileRow} (hm : m.Fits) (hmoving : m.Moving)
    (happlied : m.applied ≤ m.plan.renames.length)
    (hafter : m.after deed = some m') (hdisk : m.disk disk deed = some disk')
    (hrow : m.row row deed = some row') :
    (m'.Moving ∧ m'.plan = m.plan ∧ row' = row ∧ m'.applied ≤ m.plan.renames.length ∧
      ∀ disk₀, renameAll (m.plan.renames.take m.applied) disk₀ = some disk →
        renameAll (m.plan.renames.take m'.applied) disk₀ = some disk') ∨
    (deed = .commit ∧ ¬ m'.Moving ∧ m.applied = m.plan.renames.length ∧
      row' = m.plan.write.row row ∧ disk' = disk) ∨
    (deed = .abort ∧ ¬ m'.Moving ∧ m.applied = 0 ∧ row' = row ∧ disk' = disk) := by
  have huncommitted : ¬ m.status ∈ [Status.metadataCommitted, .finalizing] := fun hstatus =>
    not_moving_of_committed ((of_fits hm).2.2 hstatus) hmoving
  cases deed <;> obtain ⟨hguard, hafter⟩ := Option.ite_none_right_eq_some.1 hafter <;> cases hafter
  case claim | retry | requireRecovery =>
    cases hdisk
    cases hrow
    exact .inl ⟨⟨nofun, hmoving.uncommitted, hmoving.writes⟩, rfl, rfl, happlied, fun _ h => h⟩
  case rename =>
    cases hrow
    rw [Bool.and_eq_true, decide_eq_true_eq, decide_eq_true_eq] at hguard
    obtain ⟨rename, hrename, hdisk⟩ := Option.bind_eq_some_iff.1 hdisk
    refine .inl ⟨⟨hmoving.kept, hmoving.uncommitted, hmoving.writes⟩, rfl, rfl, hguard.2,
      fun disk₀ h => ?_⟩
    show renameAll (m.plan.renames.take (m.applied + 1)) disk₀ = _
    rw [renameAll_take_succ hrename, h]
    exact hdisk
  case undo =>
    cases hrow
    rw [Bool.and_eq_true, decide_eq_true_eq, decide_eq_true_eq] at hguard
    obtain ⟨rename, hrename, hdisk⟩ := Option.bind_eq_some_iff.1 hdisk
    refine .inl ⟨⟨hmoving.kept, hmoving.uncommitted, hmoving.writes⟩, rfl, rfl,
      Nat.le_trans (Nat.sub_le _ _) happlied, fun disk₀ h => ?_⟩
    rw [← Nat.sub_add_cancel hguard.2, renameAll_take_succ hrename] at h
    obtain ⟨mid, hmid, hlast⟩ := Option.bind_eq_some_iff.1 h
    rw [eq_of_swapped hlast hdisk]
    exact hmid
  case commit =>
    rw [Bool.and_eq_true, decide_eq_true_eq, decide_eq_true_eq] at hguard
    cases hdisk
    simp only [FileMutation.row, if_neg hmoving.writes] at hrow
    obtain ⟨-, hrow⟩ := Option.ite_none_right_eq_some.1 hrow
    cases hrow
    exact .inr (.inl ⟨rfl, not_moving_of_committed rfl, hguard.2, rfl, rfl⟩)
  case abort =>
    rw [Bool.and_eq_true, decide_eq_true_eq, decide_eq_true_eq] at hguard
    cases hdisk
    cases hrow
    exact .inr (.inr ⟨rfl, fun h => h.kept rfl, hguard.2, rfl, rfl⟩)
  case beginFinalization | complete | cleanup => exact absurd (by simp_all) huncommitted

/-! ## Where the bytes are -/

/-- The bytes are as far on their way as the mutation says. -/
structure World.OnTheWay (s : World) (m : FileMutation) : Prop where
  before : m.plan.before = s.row
  created : s.row.isSome = true ∨ s.existed = false
  applied : m.applied ≤ m.plan.renames.length
  way : ∃ disk, intact s.row disk = true ∧
    renameAll (m.plan.renames.take m.applied) disk = some s.disk

structure DiskInv (s : World) : Prop where
  known : ∀ id m, s.mutations.get id = some m → m.plan.mutationId = id ∧ m.Fits
  moving : ∀ id m, s.mutations.get id = some m → m.Moving → s.OnTheWay m
  alone : ∀ id m id' m', s.mutations.get id = some m → s.mutations.get id' = some m' →
    m.Moving → m'.Moving → id = id'
  still : (∀ id m, s.mutations.get id = some m → ¬ m.Moving) → intact s.row s.disk = true
  existed : s.row.isSome = true → s.existed = true

theorem diskInv_start {row : Option FileRow} {status : StorageStatus}
    (h : intact row disk = true) : DiskInv (.start row status disk) where
  known id m hm := by cases hm
  moving id m hm := by cases hm
  alone id m id' m' hm := by cases hm
  still _ := h
  existed h := h

/-- What a mutation removes of its own is not on the way of another. -/
theorem onTheWay_cleanup {name : String} (h : s.OnTheWay m) (hne : m.plan.mutationId ≠ id) :
    World.OnTheWay { s with disk := Function.update s.disk (.artifact id name) none } m := by
  obtain ⟨hbefore, hcreated, happlied, disk, hintact, hway⟩ := h
  have hopen : ∀ place : Place, place.openTo m.plan.mutationId = true → place ≠ .artifact id name := by
    rintro _ hopen rfl
    exact hne (of_decide_eq_true hopen).symm
  refine ⟨hbefore, hcreated, happlied, Function.update disk (.artifact id name) none, ?_,
    renameAll_update (fun rename hrename => ?_) hway⟩
  · rw [intact_update]
    exact hintact
  · have hown := m.plan.own rename (List.mem_of_mem_take hrename)
    exact ⟨hopen _ hown.1, hopen _ hown.2⟩

section Set

variable (inv : DiskInv s) (hknown : m'.plan.mutationId = id ∧ m'.Fits)
variable {row' : Option FileRow} {existed' : Bool} (hexisted : row'.isSome = true → existed' = true)

include inv hknown

theorem known_set {id' : String} {k : FileMutation} (hk : (s.mutations.set id m').get id' = some k) :
    k.plan.mutationId = id' ∧ k.Fits := by
  obtain ⟨rfl, rfl⟩ | ⟨-, hk⟩ := OrderedMap.get_set_eq_some.1 hk
  · exact hknown
  · exact inv.known id' k hk

include hexisted

/-- The written mutation moves the file, and no other. -/
theorem diskInv_moving (hmoving : m'.Moving)
    (hway : World.OnTheWay { s with row := row', disk := disk', existed := existed' } m')
    (hothers : ∀ id' k, id' ≠ id → s.mutations.get id' = some k → ¬ k.Moving) :
    DiskInv { s with
      row := row', disk := disk', existed := existed', mutations := s.mutations.set id m' } where
  known id' k := known_set inv hknown
  moving id' k hk hmov := by
    obtain ⟨rfl, rfl⟩ | ⟨hne, hk⟩ := OrderedMap.get_set_eq_some.1 hk
    · exact ⟨hway.before, hway.created, hway.applied, hway.way⟩
    · exact absurd hmov (hothers id' k hne hk)
  alone id₁ m₁ id₂ m₂ h₁ h₂ hmov₁ hmov₂ := by
    obtain ⟨rfl, -⟩ | ⟨hne, h₁⟩ := OrderedMap.get_set_eq_some.1 h₁
    · obtain ⟨rfl, -⟩ | ⟨hne, h₂⟩ := OrderedMap.get_set_eq_some.1 h₂
      · rfl
      · exact absurd hmov₂ (hothers id₂ m₂ hne h₂)
    · exact absurd hmov₁ (hothers id₁ m₁ hne h₁)
  still h := absurd hmoving (h id m' (OrderedMap.get_set_eq_some.2 (.inl ⟨rfl, rfl⟩)))
  existed := hexisted

/-- No mutation moves the file any more. -/
theorem diskInv_settled (hidle : ¬ m'.Moving) (hintact : intact row' disk' = true)
    (hothers : ∀ id' k, id' ≠ id → s.mutations.get id' = some k → ¬ k.Moving) :
    DiskInv { s with
      row := row', disk := disk', existed := existed', mutations := s.mutations.set id m' } := by
  have hnone : ∀ id' k, (s.mutations.set id m').get id' = some k → ¬ k.Moving := by
    intro id' k hk
    obtain ⟨rfl, rfl⟩ | ⟨hne, hk⟩ := OrderedMap.get_set_eq_some.1 hk
    · exact hidle
    · exact hothers id' k hne hk
  exact ⟨fun id' k => known_set inv hknown, fun id' k hk hmov => absurd hmov (hnone id' k hk),
    fun id₁ m₁ id₂ m₂ h₁ _ hmov₁ _ => absurd hmov₁ (hnone id₁ m₁ h₁), fun _ => hintact, hexisted⟩

omit hexisted in
/-- The written mutation does not move the file, and did not before. -/
theorem diskInv_idle (hold : ∀ k, s.mutations.get id = some k → ¬ k.Moving) (hidle : ¬ m'.Moving)
    (hdisk : disk' = s.disk ∨ ∃ name, disk' = Function.update s.disk (.artifact id name) none) :
    DiskInv { s with disk := disk', mutations := s.mutations.set id m' } where
  known id' k := known_set inv hknown
  moving id' k hk hmov := by
    obtain ⟨rfl, rfl⟩ | ⟨hne, hold⟩ := OrderedMap.get_set_eq_some.1 hk
    · exact absurd hmov hidle
    · have hway := inv.moving id' k hold hmov
      obtain rfl | ⟨name, rfl⟩ := hdisk
      · exact ⟨hway.before, hway.created, hway.applied, hway.way⟩
      · have hway' : World.OnTheWay
            { s with disk := Function.update s.disk (.artifact id name) none } k :=
          onTheWay_cleanup hway ((inv.known id' k hold).1 ▸ hne)
        exact ⟨hway'.before, hway'.created, hway'.applied, hway'.way⟩
  alone id₁ m₁ id₂ m₂ h₁ h₂ hmov₁ hmov₂ := by
    obtain ⟨-, rfl⟩ | ⟨-, h₁⟩ := OrderedMap.get_set_eq_some.1 h₁
    · exact absurd hmov₁ hidle
    · obtain ⟨-, rfl⟩ | ⟨-, h₂⟩ := OrderedMap.get_set_eq_some.1 h₂
      · exact absurd hmov₂ hidle
      · exact inv.alone id₁ m₁ id₂ m₂ h₁ h₂ hmov₁ hmov₂
  still h := by
    have hintact : intact s.row s.disk = true := by
      refine inv.still fun id' k hk => ?_
      by_cases hid : id' = id
      · exact hold k (hid ▸ hk)
      · exact h id' k (OrderedMap.get_set_eq_some.2 (.inr ⟨hid, hk⟩))
    obtain rfl | ⟨name, rfl⟩ := hdisk
    · exact hintact
    · show intact s.row _ = true
      rw [intact_update]
      exact hintact
  existed := inv.existed

end Set

theorem diskInv_prepare {plan : Plan} (inv : DiskInv s) (hadmits : s.admits plan = true) :
    DiskInv { s with
      mutations := s.mutations.set plan.mutationId ⟨plan, .prepared, false, false, 0⟩ } := by
  unfold World.admits at hadmits
  simp only [Bool.and_eq_true, Bool.or_eq_true, decide_eq_true_eq, Bool.not_eq_true',
    List.all_eq_true] at hadmits
  obtain ⟨⟨⟨hbefore, hnew⟩, hcreated⟩, hlocked⟩ := hadmits
  by_cases hwrite : plan.write = .keep
  · refine diskInv_idle inv ⟨rfl, rfl⟩ (fun k hk => ?_) (fun h => h.writes hwrite) (.inl rfl)
    rw [(OrderedMap.has_eq_false_iff _ _).1 hnew] at hk
    cases hk
  · have hothers : ∀ id m, s.mutations.get id = some m → ¬ m.Moving := by
      intro id m hm hmoving
      obtain hreleased | hkeep := hlocked.resolve_left hwrite (id, m)
        ((OrderedMap.get_eq_some_iff _ _ _).1 hm)
      · rw [hmoving.held (inv.known id m hm).2] at hreleased
        cases hreleased
      · exact hmoving.writes hkeep
    have hmoving : FileMutation.Moving ⟨plan, .prepared, false, false, 0⟩ := ⟨nofun, rfl, hwrite⟩
    have hway : s.OnTheWay ⟨plan, .prepared, false, false, 0⟩ :=
      ⟨hbefore, hbefore ▸ hcreated, Nat.zero_le _, s.disk, inv.still hothers, rfl⟩
    have hfits : FileMutation.Fits ⟨plan, .prepared, false, false, 0⟩ := rfl
    exact diskInv_moving inv ⟨rfl, hfits⟩ inv.existed hmoving hway fun id m _ => hothers id m

theorem diskInv_deed {row' : Option FileRow} (inv : DiskInv s) (hm : s.mutations.get id = some m)
    (hafter : m.after deed = some m') (hdisk : m.disk s.disk deed = some disk')
    (hrow : m.row s.row deed = some row') :
    DiskInv { s with
      row := row', disk := disk', existed := s.existed || row'.isSome,
      mutations := s.mutations.set id m' } := by
  obtain ⟨hid, hfits⟩ := inv.known id m hm
  have hplan : m'.plan = m.plan := by
    cases deed <;> obtain ⟨-, hafter⟩ := Option.ite_none_right_eq_some.1 hafter <;> cases hafter <;>
      rfl
  have hknown : m'.plan.mutationId = id ∧ m'.Fits := ⟨hplan ▸ hid, fits_after hfits hafter⟩
  have hexisted : row'.isSome = true → (s.existed || row'.isSome) = true :=
    fun h => by rw [h, Bool.or_true]
  by_cases hmoving : m.Moving
  · have hothers : ∀ id' k, id' ≠ id → s.mutations.get id' = some k → ¬ k.Moving :=
      fun id' k hne hk hmov => hne (inv.alone id' k id m hk hm hmov hmoving)
    obtain ⟨hbefore, hcreated, happlied, disk₀, hintact, hway⟩ := inv.moving id m hm hmoving
    obtain ⟨hmoving', -, rfl, happlied', hfurther⟩ | ⟨-, hidle, hall, rfl, rfl⟩ |
      ⟨-, hidle, hnone, rfl, rfl⟩ := deed_moving hfits hmoving happlied hafter hdisk hrow
    · refine diskInv_moving inv hknown hexisted hmoving' ⟨hplan ▸ hbefore, ?_, hplan ▸ happlied',
        disk₀, hintact, ?_⟩ hothers
      · obtain hsome | hnot := hcreated
        · exact .inl hsome
        · by_cases hsome : s.row.isSome = true
          · exact .inl hsome
          · exact .inr (by show (s.existed || s.row.isSome) = false; simp [hnot, hsome])
      · rw [hplan]
        exact hfurther disk₀ hway
    · refine diskInv_settled inv hknown hexisted hidle ?_ hothers
      rw [hall, List.take_length] at hway
      rw [← hbefore] at hintact ⊢
      exact m.plan.lands disk₀ s.disk hintact hway
    · refine diskInv_settled inv hknown hexisted hidle ?_ hothers
      rw [hnone] at hway
      obtain rfl : disk₀ = s.disk := Option.some.inj hway
      exact hintact
  · obtain ⟨hidle, rfl, hdisk'⟩ := deed_idle hfits hmoving hafter hdisk hrow
    have hsame : (s.existed || s.row.isSome) = s.existed := by
      have hexisted := inv.existed
      revert hexisted
      cases s.existed <;> cases s.row.isSome <;> decide
    rw [hsame]
    refine diskInv_idle inv hknown (fun k hk => ?_) hidle (hid ▸ hdisk')
    obtain rfl := Option.some.inj (hm.symm.trans hk)
    exact hmoving

theorem diskInv_step (s : World) (e : Event) (inv : DiskInv s) : DiskInv (s.step e) := by
  unfold World.step
  cases hact : s.act e with
  | none => exact inv
  | some s' =>
    cases e with
    | prepare plan =>
      obtain ⟨hadmits, h⟩ := Option.ite_none_right_eq_some.1 hact
      cases h
      exact diskInv_prepare inv hadmits
    | deed id deed =>
      obtain ⟨m, hm, hact⟩ := Option.bind_eq_some_iff.1 hact
      obtain ⟨m', hafter, hact⟩ := Option.bind_eq_some_iff.1 hact
      obtain ⟨disk', hdisk, hact⟩ := Option.bind_eq_some_iff.1 hact
      obtain ⟨row', hrow, h⟩ := Option.map_eq_some_iff.1 hact
      cases h
      exact diskInv_deed inv hm hafter hdisk hrow
    | scan step =>
      obtain ⟨scan, -, h⟩ := Option.map_eq_some_iff.1 hact
      cases h
      exact ⟨inv.known, fun id m hm hmov => ⟨(inv.moving id m hm hmov).before,
        (inv.moving id m hm hmov).created, (inv.moving id m hm hmov).applied,
        (inv.moving id m hm hmov).way⟩, inv.alone, inv.still, inv.existed⟩

/-! ## What a scan knows -/

/-- The row that a scan has read was written again, or is gone. -/
def World.Past (s : World) (file : FileRow) : Prop :=
  s.existed = true ∧ ∀ row, s.row = some row → file.storageRevision < row.storageRevision

theorem past_of_write {write : RowWrite} (hwrite : write ≠ .keep)
    (hcreated : s.row.isSome = true ∨ s.existed = false)
    (hexisted : s.row.isSome = true → s.existed = true) (hrow : s'.row = write.row s.row)
    (hstays : s.existed = true → s'.existed = true) (h : s.row = some file ∨ s.Past file) :
    s'.Past file := by
  have hlived : s.existed = true := by
    obtain hfile | hpast := h
    · exact hexisted (by rw [hfile]; rfl)
    · exact hpast.1
  refine ⟨hstays hlived, fun row hget => ?_⟩
  rw [hrow] at hget
  obtain ⟨old, hold⟩ := Option.isSome_iff_exists.1 (hcreated.resolve_right (by simp [hlived]))
  have hle : file.storageRevision ≤ old.storageRevision := by
    obtain hfile | hpast := h
    · rw [hfile] at hold
      cases hold
      exact Nat.le_refl _
    · exact Nat.le_of_lt (hpast.2 old hold)
  rw [hold] at hget
  cases write with
  | keep => exact absurd rfl hwrite
  | put storageKey contentChecksum =>
    cases hget
    exact Nat.lt_succ_of_le hle
  | delete => cases hget

/-- What has been found out about a file whose bytes were missed. -/
structure Missed (s : World) (look : Look) : Prop where
  idle : s.scan.busy = some false
  known : ∃ file, s.scan.record = some (some file)
  moving : s.scan.busyAgain = none → ∀ file, s.scan.record = some (some file) →
    s.Past file ∨ ∃ id ∈ look.underway, ∃ m, s.mutations.get id = some m ∧ m.Moving
  past : s.scan.busyAgain = some false → ∀ file, s.scan.record = some (some file) → s.Past file
  later : s.scan.busyAgain = some false → ∀ file row, s.scan.record = some (some file) →
    s.scan.recordAgain = some (some row) → file.storageRevision < row.storageRevision

structure ScanInv (s : World) : Prop where
  read : ∀ file, s.scan.record = some (some file) → s.row = some file ∨ s.Past file
  lookedFirst : s.scan.look = none → s.scan.busyAgain = none
  journalFirst : s.scan.busyAgain = none → s.scan.recordAgain = none
  missed : ∀ look, s.scan.look = some look → look.issue = true → Missed s look

theorem scanInv_fresh (h : s.scan = .fresh) : ScanInv s where
  read file hfile := by rw [h] at hfile; cases hfile
  lookedFirst _ := by rw [h]; rfl
  journalFirst _ := by rw [h]; rfl
  missed look hlook := by rw [h] at hlook; cases hlook

/-- Bytes that are not where the row says are on their way with a mutation. -/
theorem exists_begun (inv : DiskInv s) (hmiss : intact s.row s.disk = false) :
    ∃ id m, s.mutations.get id = some m ∧ m.Moving ∧ 0 < m.applied := by
  obtain ⟨id, m, hm, hmoving⟩ : ∃ id m, s.mutations.get id = some m ∧ m.Moving := by
    by_contra hnone
    have hintact := inv.still fun id m hm hmoving => hnone ⟨id, m, hm, hmoving⟩
    rw [hmiss] at hintact
    cases hintact
  refine ⟨id, m, hm, hmoving, ?_⟩
  obtain ⟨-, -, -, disk, hintact, hway⟩ := inv.moving id m hm hmoving
  by_contra hnone
  rw [Nat.eq_zero_of_not_pos hnone] at hway
  obtain rfl : disk = s.disk := Option.some.inj hway
  rw [hmiss] at hintact
  cases hintact

/-- Where nothing moves the file, a scan that misses its bytes has read an older row. -/
theorem exists_underway (inv : DiskInv s) (hmiss : intact s.row s.disk = false) :
    ∃ id ∈ s.underway, ∃ m, s.mutations.get id = some m ∧ m.Moving := by
  obtain ⟨id, m, hm, hmoving, happlied⟩ := exists_begun inv hmiss
  refine ⟨id, List.mem_map.2 ⟨(id, m), List.mem_filter.2
    ⟨(OrderedMap.get_eq_some_iff _ _ _).1 hm, ?_⟩, rfl⟩, m, hm, hmoving⟩
  rw [Bool.and_eq_true, decide_eq_true_eq]
  exact ⟨hmoving.unfinished (inv.known id m hm).2, happlied⟩

/-- A second read of the journal that finds the file idle comes after the end of what moved it. -/
theorem not_moving_of_idle (inv : DiskInv s) (hbusy : s.busy = false)
    (hm : s.mutations.get id = some m) : ¬ m.Moving := by
  intro hmoving
  have hany := List.any_eq_false.1 hbusy (id, m) ((OrderedMap.get_eq_some_iff _ _ _).1 hm)
  exact hany (hmoving.unfinished (inv.known id m hm).2)

/-! ## Steps of mutations -/

/-- What a step of a mutation may do to what the scan knows. -/
theorem scanInv_of_deed (inv : ScanInv s) (hscan : s'.scan = s.scan)
    (hread : ∀ file, s.row = some file → s'.row = some file ∨ s'.Past file)
    (hpast : ∀ file, s.Past file → s'.Past file)
    (hmoving : s.scan.busy = some false → s.scan.busyAgain = none →
      ∀ look, s.scan.look = some look → ∀ id ∈ look.underway, ∀ m, s.mutations.get id = some m →
        m.Moving → (∃ m', s'.mutations.get id = some m' ∧ m'.Moving) ∨
          ∀ file, s.row = some file ∨ s.Past file → s'.Past file) : ScanInv s' := by
  constructor <;> rw [hscan]
  · exact fun file hfile => (inv.read file hfile).elim (hread file) fun h => .inr (hpast file h)
  · exact inv.lookedFirst
  · exact inv.journalFirst
  · intro look hlook hissue
    obtain ⟨hidle, hknown, hmoves, hpast', hlater⟩ := inv.missed look hlook hissue
    constructor <;> rw [hscan]
    · exact hidle
    · exact hknown
    · intro hagain file hfile
      obtain h | ⟨id, hid, m, hm, hmov⟩ := hmoves hagain file hfile
      · exact .inl (hpast file h)
      · obtain h | h := hmoving hidle hagain look hlook id hid m hm hmov
        · exact .inr ⟨id, hid, h⟩
        · exact .inl (h file (inv.read file hfile))
    · exact fun hagain file hfile => hpast file (hpast' hagain file hfile)
    · exact hlater

theorem scanInv_deed {row' : Option FileRow} (dinv : DiskInv s) (inv : ScanInv s)
    (hok : RollsBackInTime s (.deed id deed)) (hm : s.mutations.get id = some m)
    (hafter : m.after deed = some m') (hdisk : m.disk s.disk deed = some disk')
    (hrow : m.row s.row deed = some row') :
    ScanInv { s with
      row := row', disk := disk', existed := s.existed || row'.isSome,
      mutations := s.mutations.set id m' } := by
  set s' : World := { s with
    row := row', disk := disk', existed := s.existed || row'.isSome,
    mutations := s.mutations.set id m' } with hs'
  have hstays : s.existed = true → s'.existed = true := fun h => by
    show (s.existed || row'.isSome) = true
    rw [h, Bool.true_or]
  have hother : ∀ id' k, s.mutations.get id' = some k → id' ≠ id → s'.mutations.get id' = some k :=
    fun id' k hk hne => OrderedMap.get_set_eq_some.2 (.inr ⟨hne, hk⟩)
  have hfits := (dinv.known id m hm).2
  by_cases hmoving : m.Moving
  · have hway := dinv.moving id m hm hmoving
    obtain ⟨hmoving', -, rfl, -⟩ | ⟨-, -, -, hwritten, -⟩ | ⟨rfl, -, -, rfl, -⟩ :=
      deed_moving hfits hmoving hway.applied hafter hdisk hrow
    · refine scanInv_of_deed inv rfl (fun file h => .inl h) (fun file h => ⟨hstays h.1, h.2⟩)
        fun _ _ look _ id' _ k hk hmov => .inl ?_
      by_cases hid : id' = id
      · exact ⟨m', OrderedMap.get_set_eq_some.2 (.inl ⟨hid, rfl⟩), hmoving'⟩
      · exact ⟨k, hother id' k hk hid, hmov⟩
    · have hpast : ∀ file, s.row = some file ∨ s.Past file → s'.Past file := fun file =>
        past_of_write hmoving.writes hway.created dinv.existed hwritten hstays
      exact scanInv_of_deed inv rfl (fun file h => .inr (hpast file (.inl h)))
        (fun file h => hpast file (.inr h)) fun _ _ _ _ _ _ _ _ _ => .inr hpast
    · refine scanInv_of_deed inv rfl (fun file h => .inl h) (fun file h => ⟨hstays h.1, h.2⟩)
        fun hidle hagain look hlook id' hid' k hk hmov => .inl ⟨k, hother id' k hk ?_, hmov⟩
      rintro rfl
      exact hok hidle hagain look hlook hid'
  · obtain ⟨-, rfl, -⟩ := deed_idle hfits hmoving hafter hdisk hrow
    refine scanInv_of_deed inv rfl (fun file h => .inl h) (fun file h => ⟨hstays h.1, h.2⟩)
      fun _ _ look _ id' _ k hk hmov => .inl ⟨k, hother id' k hk ?_, hmov⟩
    rintro rfl
    obtain rfl := Option.some.inj (hm.symm.trans hk)
    exact hmoving hmov

/-! ## Steps of the scan -/

theorem scanInv_scan {step : ScanStep} {scan : Scan} {status : StorageStatus} (dinv : DiskInv s)
    (inv : ScanInv s) (h : s.scanned step = some scan) :
    ScanInv { s with scan, storageStatus := status } := by
  cases step with
  | readMutations =>
    obtain ⟨hnone, h⟩ := Option.ite_none_right_eq_some.1 h
    cases h
    refine ⟨inv.read, inv.lookedFirst, inv.journalFirst, fun look hlook hissue => ?_⟩
    have hidle := (inv.missed look hlook hissue).idle
    rw [hnone] at hidle
    cases hidle
  | readFile =>
    obtain ⟨hguard, h⟩ := Option.ite_none_right_eq_some.1 h
    cases h
    rw [Bool.and_eq_true, decide_eq_true_eq] at hguard
    refine ⟨fun file hfile => .inl (Option.some.inj hfile), inv.lookedFirst, inv.journalFirst,
      fun look hlook hissue => ?_⟩
    obtain ⟨file, hfile⟩ := (inv.missed look hlook hissue).known
    rw [hguard.2] at hfile
    cases hfile
  | look =>
    simp only [World.scanned] at h
    split at h
    · rename_i busy record hbusy hrecord hlook
      cases h
      have hagain := inv.lookedFirst hlook
      refine ⟨inv.read, fun h => (by cases h), inv.journalFirst, fun look hlook hissue => ?_⟩
      cases hlook
      simp only [World.lookFor, Bool.and_eq_true, Bool.not_eq_true'] at hissue
      refine ⟨hbusy.trans (congrArg some hissue.1), ?_, fun _ file hfile => ?_, fun h => ?_,
        fun h => ?_⟩
      · cases record with
        | none => cases hissue.2
        | some file => exact ⟨file, hrecord⟩
      · obtain hsame | hpast := inv.read file hfile
        · refine .inr (exists_underway dinv ?_)
          rw [hsame, ← Option.some.inj (hrecord.symm.trans hfile)]
          exact hissue.2
        · exact .inl hpast
      · exact absurd (hagain.symm.trans h) nofun
      · exact absurd (hagain.symm.trans h) nofun
    · cases h
  | readMutationsAgain =>
    obtain ⟨hguard, h⟩ := Option.ite_none_right_eq_some.1 h
    cases h
    rw [Bool.and_eq_true, decide_eq_true_eq] at hguard
    refine ⟨inv.read, fun hlook => ?_, fun h => (by cases h), fun look hlook hissue => ?_⟩
    · have hsome := hguard.1
      rw [show s.scan.look = none from hlook] at hsome
      cases hsome
    · obtain ⟨hidle, hknown, hmoves, -, -⟩ := inv.missed look hlook hissue
      refine ⟨hidle, hknown, fun h => (by cases h), fun hbusy file hfile => ?_,
        fun _ file row _ hrow => ?_⟩
      · obtain hpast | ⟨id, -, m, hm, hmoving⟩ := hmoves hguard.2 file hfile
        · exact hpast
        · exact absurd hmoving (not_moving_of_idle dinv (Option.some.inj hbusy) hm)
      · exact absurd ((inv.journalFirst hguard.2).symm.trans hrow) nofun
  | readStepsAgain others =>
    obtain ⟨-, h⟩ := Option.ite_none_right_eq_some.1 h
    cases h
    refine ⟨inv.read, inv.lookedFirst, inv.journalFirst, fun look hlook hissue => ?_⟩
    have hmissed := inv.missed look hlook hissue
    exact ⟨hmissed.idle, hmissed.known, hmissed.moving, hmissed.past, hmissed.later⟩
  | readFileAgain =>
    obtain ⟨hguard, h⟩ := Option.ite_none_right_eq_some.1 h
    cases h
    rw [Bool.and_eq_true, Bool.and_eq_true] at hguard
    refine ⟨inv.read, inv.lookedFirst, fun hagain => ?_, fun look hlook hissue => ?_⟩
    · have hsome := hguard.1.1
      rw [show s.scan.busyAgain = none from hagain] at hsome
      cases hsome
    · have hmissed := inv.missed look hlook hissue
      refine ⟨hmissed.idle, hmissed.known, hmissed.moving, hmissed.past,
        fun hbusy file row hfile hrow => ?_⟩
      exact (hmissed.past hbusy file hfile).2 row (Option.some.inj hrow)
  | mark =>
    obtain ⟨-, h⟩ := Option.ite_none_right_eq_some.1 h
    cases h
    exact scanInv_fresh rfl
  | fail =>
    cases h
    exact scanInv_fresh rfl

theorem scanInv_step (s : World) (e : Event) (hok : RollsBackInTime s e)
    (inv : DiskInv s ∧ ScanInv s) : DiskInv (s.step e) ∧ ScanInv (s.step e) := by
  refine ⟨diskInv_step s e inv.1, ?_⟩
  obtain ⟨dinv, inv⟩ := inv
  unfold World.step
  cases hact : s.act e with
  | none => exact inv
  | some s' =>
    cases e with
    | prepare plan =>
      obtain ⟨hadmits, h⟩ := Option.ite_none_right_eq_some.1 hact
      cases h
      refine scanInv_of_deed inv rfl (fun file h => .inl h) (fun file h => h)
        fun _ _ look _ id _ k hk hmov => .inl ⟨k, OrderedMap.get_set_eq_some.2 (.inr ⟨?_, hk⟩), hmov⟩
      rintro rfl
      unfold World.admits OrderedMap.has at hadmits
      simp [hk] at hadmits
    | deed id deed =>
      obtain ⟨m, hm, hact⟩ := Option.bind_eq_some_iff.1 hact
      obtain ⟨m', hafter, hact⟩ := Option.bind_eq_some_iff.1 hact
      obtain ⟨disk', hdisk, hact⟩ := Option.bind_eq_some_iff.1 hact
      obtain ⟨row', hrow, h⟩ := Option.map_eq_some_iff.1 hact
      cases h
      exact scanInv_deed dinv inv hok hm hafter hdisk hrow
    | scan step =>
      obtain ⟨scan, hscan, h⟩ := Option.map_eq_some_iff.1 hact
      cases h
      exact scanInv_scan dinv inv hscan

theorem marks_ne_missing (inv : ScanInv s) (e : Event) : s.marks e ≠ some .missing := by
  intro h
  unfold World.marks at h
  split at h
  · unfold Scan.marks at h
    split at h
    · rename_i busy file look row hbusy hfile hlook hrow
      split at h
      · rename_i hissue
        obtain ⟨hunchanged, -⟩ := Option.ite_none_right_eq_some.1 h
        unfold Scan.unchanged at hunchanged
        simp only [Bool.and_eq_true, decide_eq_true_eq, hrow, Option.getD_some] at hunchanged
        obtain ⟨⟨hany, hagain⟩, -⟩ := hunchanged
        obtain ⟨again, rfl, hsame⟩ := (Option.any_eq_true _ _).1 hany
        rw [Bool.and_eq_true, decide_eq_true_eq, decide_eq_true_eq] at hsame
        have hlater := (inv.missed look hlook hissue).later hagain file again hfile hrow
        rw [hsame.2] at hlater
        exact Nat.lt_irrefl _ hlater
      · split at h <;> cases h
    · cases h
  · cases h

/-! ## A file that is gone -/

/-- No bytes, no mutation, and a scan that has read as much. -/
structure Lost (file : FileRow) (s : World) : Prop where
  row : s.row = some file
  idle : s.mutations = .empty
  disk : intact (some file) s.disk = false
  busy : ∀ busy, s.scan.busy = some busy → busy = false
  record : ∀ record, s.scan.record = some record → record = some file ∧ s.scan.busy.isSome = true
  look : ∀ look, s.scan.look = some look → look.issue = true ∧ s.scan.record.isSome = true
  busyAgain : ∀ busy, s.scan.busyAgain = some busy → busy = false ∧ s.scan.look.isSome = true
  trackedAgain : ∀ tracked, s.scan.trackedAgain = some tracked → tracked = false
  recordAgain : ∀ record, s.scan.recordAgain = some record → record = some file ∧
    s.scan.busyAgain.isSome = true ∧ s.scan.trackedAgain.isSome = true

theorem lost_fresh (hrow : s.row = some file) (hidle : s.mutations = .empty)
    (hdisk : intact (some file) s.disk = false) (hscan : s.scan = .fresh) : Lost file s := by
  constructor <;> first | assumption | (rw [hscan]; exact nofun)

/-- Nothing moves it and nothing has written it, so the scan goes on to miss it. -/
theorem lost_scanned {step : ScanStep} {scan : Scan} {status : StorageStatus} (h : Lost file s)
    (he : (Event.scan step).undisturbed = true) (hscan : s.scanned step = some scan) :
    Lost file { s with scan, storageStatus := status } := by
  have hbusy : s.busy = false := by
    unfold World.busy
    rw [h.idle]
    rfl
  cases step with
  | readMutations =>
    obtain ⟨-, hscan⟩ := Option.ite_none_right_eq_some.1 hscan
    cases hscan
    exact { h with
      busy := fun busy hread => (Option.some.inj hread).symm.trans hbusy
      record := fun record hread => ⟨(h.record record hread).1, rfl⟩ }
  | readFile =>
    obtain ⟨hguard, hscan⟩ := Option.ite_none_right_eq_some.1 hscan
    cases hscan
    rw [Bool.and_eq_true] at hguard
    exact { h with
      record := fun record hread => ⟨(Option.some.inj hread).symm.trans h.row, hguard.1⟩
      look := fun look hread => ⟨(h.look look hread).1, rfl⟩ }
  | look =>
    simp only [World.scanned] at hscan
    split at hscan
    · rename_i busy record hread hrecord hlook
      cases hscan
      refine { h with
        look := fun look hread' => ⟨?_, (hrecord ▸ rfl : s.scan.record.isSome = true)⟩
        busyAgain := fun busy hread' => ⟨(h.busyAgain busy hread').1, rfl⟩ }
      cases hread'
      show (!busy && !intact record s.disk) = true
      rw [h.busy busy hread, (h.record record hrecord).1, h.disk]
      rfl
    · cases hscan
  | readMutationsAgain =>
    obtain ⟨hguard, hscan⟩ := Option.ite_none_right_eq_some.1 hscan
    cases hscan
    rw [Bool.and_eq_true] at hguard
    exact { h with
      busyAgain := fun busy hread => ⟨(Option.some.inj hread).symm.trans hbusy, hguard.1⟩
      recordAgain := fun record hread =>
        ⟨(h.recordAgain record hread).1, rfl, (h.recordAgain record hread).2.2⟩ }
  | readStepsAgain others =>
    obtain ⟨-, hscan⟩ := Option.ite_none_right_eq_some.1 hscan
    cases hscan
    have hothers : others = false := by simpa [Event.undisturbed] using he
    have htracked : ((s.scan.record.getD none).any fun file =>
        s.mutations.entries.any fun e => e.2.names file.storageKey) = false := by
      rw [h.idle]
      cases s.scan.record.getD none <;> rfl
    exact { h with
      trackedAgain := fun tracked hread => by
        rw [hothers, htracked] at hread
        exact (Option.some.inj hread).symm
      recordAgain := fun record hread =>
        ⟨(h.recordAgain record hread).1, (h.recordAgain record hread).2.1, rfl⟩ }
  | readFileAgain =>
    obtain ⟨hguard, hscan⟩ := Option.ite_none_right_eq_some.1 hscan
    cases hscan
    rw [Bool.and_eq_true, Bool.and_eq_true] at hguard
    exact { h with
      recordAgain := fun record hread =>
        ⟨(Option.some.inj hread).symm.trans h.row, hguard.1.1, hguard.1.2⟩ }
  | mark =>
    obtain ⟨-, hscan⟩ := Option.ite_none_right_eq_some.1 hscan
    cases hscan
    exact lost_fresh h.row h.idle h.disk rfl
  | fail =>
    cases hscan
    exact lost_fresh h.row h.idle h.disk rfl

theorem lost_step (h : Lost file s) (e : Event) (he : e.undisturbed = true) :
    Lost file (s.step e) := by
  unfold World.step
  cases hact : s.act e with
  | none => exact h
  | some s' =>
    cases e with
    | prepare => cases he
    | deed => cases he
    | scan step =>
      obtain ⟨scan, hscan, h'⟩ := Option.map_eq_some_iff.1 hact
      cases h'
      exact lost_scanned h he hscan

theorem lost_marks (h : Lost file s) (hend : s.scan.recordAgain.isSome = true) :
    s.scan.marks = some .missing := by
  obtain ⟨recordAgain, hrecordAgain⟩ := Option.isSome_iff_exists.1 hend
  obtain ⟨rfl, hbusyAgain, htrackedAgain⟩ := h.recordAgain _ hrecordAgain
  obtain ⟨busyAgain, hbusyAgain⟩ := Option.isSome_iff_exists.1 hbusyAgain
  obtain ⟨trackedAgain, htrackedAgain⟩ := Option.isSome_iff_exists.1 htrackedAgain
  obtain rfl := h.trackedAgain _ htrackedAgain
  obtain ⟨rfl, hlook⟩ := h.busyAgain _ hbusyAgain
  obtain ⟨look, hlook⟩ := Option.isSome_iff_exists.1 hlook
  obtain ⟨hissue, hrecord⟩ := h.look look hlook
  obtain ⟨record, hrecord⟩ := Option.isSome_iff_exists.1 hrecord
  obtain ⟨rfl, hbusy⟩ := h.record record hrecord
  obtain ⟨busy, hbusy⟩ := Option.isSome_iff_exists.1 hbusy
  unfold Scan.marks Scan.unchanged
  simp [hrecordAgain, hbusyAgain, htrackedAgain, hlook, hissue, hrecord, hbusy]

theorem scan_step (s : World) (step : ScanStep) :
    (s.step (.scan step)).scan = (s.scanned step).getD s.scan := by
  unfold World.step
  show ((Option.map _ (s.scanned step)).getD s).scan = _
  cases s.scanned step <;> rfl

theorem busy_readMutations (s : World) :
    (s.step (.scan .readMutations)).scan.busy.isSome = true := by
  rw [scan_step]
  cases h : s.scan.busy <;> simp [World.scanned, h]

theorem record_readFile (hbusy : s.scan.busy.isSome = true) :
    (s.step (.scan .readFile)).scan.record.isSome = true := by
  rw [scan_step]
  cases h : s.scan.record <;> simp [World.scanned, h, hbusy]

theorem look_look (h : Lost file s) (hrecord : s.scan.record.isSome = true) :
    (s.step (.scan .look)).scan.look.isSome = true := by
  rw [scan_step]
  obtain ⟨record, hrecord⟩ := Option.isSome_iff_exists.1 hrecord
  obtain ⟨busy, hbusy⟩ := Option.isSome_iff_exists.1 (h.record record hrecord).2
  cases hlook : s.scan.look <;> simp [World.scanned, hbusy, hrecord, hlook]

theorem busyAgain_readMutationsAgain (hlook : s.scan.look.isSome = true) :
    (s.step (.scan .readMutationsAgain)).scan.look.isSome = true ∧
      (s.step (.scan .readMutationsAgain)).scan.busyAgain.isSome = true := by
  rw [scan_step]
  cases h : s.scan.busyAgain <;> simp [World.scanned, h, hlook]

theorem trackedAgain_readStepsAgain {others : Bool} (hlook : s.scan.look.isSome = true)
    (hbusy : s.scan.busyAgain.isSome = true) :
    (s.step (.scan (.readStepsAgain others))).scan.busyAgain.isSome = true ∧
      (s.step (.scan (.readStepsAgain others))).scan.trackedAgain.isSome = true := by
  rw [scan_step]
  cases h : s.scan.trackedAgain <;> simp [World.scanned, h, hlook, hbusy]

theorem recordAgain_readFileAgain (hbusy : s.scan.busyAgain.isSome = true)
    (htracked : s.scan.trackedAgain.isSome = true) :
    (s.step (.scan .readFileAgain)).scan.recordAgain.isSome = true := by
  rw [scan_step]
  cases h : s.scan.recordAgain <;> simp [World.scanned, h, hbusy, htracked]

theorem storageStatus_mark (h : Lost file s) (hend : s.scan.recordAgain.isSome = true) :
    (s.step (.scan .mark)).storageStatus = .missing := by
  unfold World.step World.act
  simp [World.scanned, World.marks, hend, h.row, lost_marks h hend]

/-- However far a scan had come, the rest of its steps brings it to its end. -/
theorem lost_wholeScan (h : Lost file s) :
    (wholeScan.foldl World.step s).storageStatus = .missing := by
  have h₁ := lost_step h (.scan .readMutations) rfl
  have h₂ := lost_step h₁ (.scan .readFile) rfl
  have hrecord := record_readFile (busy_readMutations s)
  have h₃ := lost_step h₂ (.scan .look) rfl
  have hlook := look_look h₂ hrecord
  have h₄ := lost_step h₃ (.scan .readMutationsAgain) rfl
  obtain ⟨hlook', hbusy⟩ := busyAgain_readMutationsAgain hlook
  have h₅ := lost_step h₄ (.scan (.readStepsAgain false)) rfl
  obtain ⟨hbusy', htracked⟩ := trackedAgain_readStepsAgain hlook' hbusy
  have h₆ := lost_step h₅ (.scan .readFileAgain) rfl
  exact storageStatus_mark h₆ (recordAgain_readFileAgain hbusy' htracked)

/-! ## Whole runs -/

/-- As long as renames that were underway at a look are rolled back in time, no scan marks a healthy
file; and one that is gone is marked by every scan. -/
theorem run_marksMissing {row : Option FileRow} {status : StorageStatus} {events : List Event}
    (hok : RunMeets World.step RollsBackInTime (.start row status disk) events) :
    (RunMeets World.step (fun s _ => s.Healthy) (.start row status disk) events →
      RunMeets World.step (fun s e => s.marks e ≠ some .missing) (.start row status disk) events) ∧
    (intact row disk = false → (∀ e ∈ events, e.undisturbed = true) →
      ((events ++ wholeScan).foldl World.step (.start row status disk)).storageStatus = .missing) := by
  constructor
  · intro hhealthy
    cases events with
    | nil => trivial
    | cons e events =>
      have hinit : DiskInv (.start row status disk) ∧ ScanInv (.start row status disk) :=
        ⟨diskInv_start (hhealthy.1 rfl), scanInv_fresh rfl⟩
      exact (hok.invariant scanInv_step hinit).mono fun s e h => marks_ne_missing h.2.2 e
  · intro hgone hevents
    cases row with
    | none => cases hgone
    | some file =>
      have hlost : Lost file (events.foldl World.step (.start (some file) status disk)) :=
        (hok.and_forall hevents).keeps (I := Lost file) (fun s e h inv => lost_step inv e h.2)
          (lost_fresh rfl rfl hgone rfl)
      rw [List.foldl_append]
      exact lost_wholeScan hlost

/-- A file with its bytes, before anything happens to it. -/
def healthyStart : World :=
  .start (some ⟨"a.txt", some "c", 4⟩) .available
    (Function.update (fun _ => none) (.storage "a.txt") (some "c"))

/-- What comes of a rename in a scan that looks for the file while the rename is underway. -/
def renamedAtTheLook (rest : List Deed) : List Event :=
  [.scan .readMutations, .scan .readFile, .prepare (.move "m1" ⟨"a.txt", some "c", 4⟩ "b.txt"),
    .deed "m1" .claim, .deed "m1" .rename, .scan .look] ++ rest.map (.deed "m1") ++
  [.scan .readMutationsAgain, .scan (.readStepsAgain false), .scan .readFileAgain, .scan .mark]

theorem run_marksMissing_committed :
    RunMeets World.step (fun s e => s.marks e ≠ some .missing) healthyStart
      (renamedAtTheLook [.commit, .beginFinalization, .complete]) :=
  (run_marksMissing (by decide +kernel)).1 (by decide +kernel)

/-- The rename is rolled back and given up before the second read of the journal. -/
theorem healthy_file_marked_missing :
    RunMeets World.step (fun s _ => s.Healthy) healthyStart (renamedAtTheLook [.undo, .abort]) ∧
    ((renamedAtTheLook [.undo, .abort]).foldl World.step healthyStart).storageStatus = .missing := by
  decide +kernel

end Staaash.Reconciliation
