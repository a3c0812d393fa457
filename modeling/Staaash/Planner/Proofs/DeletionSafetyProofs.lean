import Staaash.Planner.Proofs.PlanProofs

/-!
# Proofs: when a plan deletes

A plan trashes a path on one side only when the other side deleted it and nothing at or below it
changed here since the base.
-/

namespace Staaash.Planner

variable {P : Platform} {input : PlanInput}

/-! ## Folders without changes -/

theorem not_mem_dirtySides_onLocal {k : Rel} (hk : k ≠ []) :
    k ∉ (dirtySides (view P input)).onLocal ↔
      (∀ each ∈ input.allExcluded, each.side = .onLocal → ¬ Below k (P.pathKey each.rel)) ∧
        ∀ key here, (view P input).locals.get key = some here → Below k key →
          cleanLocal (view P input) key = true := by
  simp only [dirtySides, List.mem_append, not_or]
  refine and_congr ?_ ?_
  · refine Iff.trans (not_congr mem_hiddenUnderOf) ⟨fun h each he hs hb => h ⟨hk, each, he, hs, hb⟩, ?_⟩
    rintro h ⟨-, each, he, hs, hb⟩
    exact h each he hs hb
  · refine Iff.trans (not_congr mem_dirtyFolders) ⟨fun h key here hget hb => ?_, ?_⟩
    · by_contra hc
      refine h ⟨hk, key, ?_, by simpa using hc, hb⟩
      exact (Staaash.Library.OrderedMap.mem_keys_iff _ _).mpr ⟨here, hget⟩
    · rintro h ⟨-, key, hmem, hdirty, hb⟩
      obtain ⟨here, hget⟩ := (Staaash.Library.OrderedMap.mem_keys_iff _ _).mp hmem
      rw [h key here hget hb] at hdirty
      cases hdirty

theorem not_mem_dirtySides_onRemote {k : Rel} (hk : k ≠ []) :
    k ∉ (dirtySides (view P input)).onRemote ↔
      (∀ each ∈ input.allExcluded, each.side = .onRemote → ¬ Below k (P.pathKey each.rel)) ∧
        ∀ key there, (view P input).remote.get key = some there → Below k key →
          cleanRemote (view P input) key = true := by
  simp only [dirtySides, List.mem_append, not_or]
  refine and_congr ?_ ?_
  · refine Iff.trans (not_congr mem_hiddenUnderOf) ⟨fun h each he hs hb => h ⟨hk, each, he, hs, hb⟩, ?_⟩
    rintro h ⟨-, each, he, hs, hb⟩
    exact h each he hs hb
  · refine Iff.trans (not_congr mem_dirtyFolders) ⟨fun h key there hget hb => ?_, ?_⟩
    · by_contra hc
      refine h ⟨hk, key, ?_, by simpa using hc, hb⟩
      exact (Staaash.Library.OrderedMap.mem_keys_iff _ _).mpr ⟨there, hget⟩
    · rintro h ⟨-, key, hmem, hdirty, hb⟩
      obtain ⟨there, hget⟩ := (Staaash.Library.OrderedMap.mem_keys_iff _ _).mp hmem
      rw [h key there hget hb] at hdirty
      cases hdirty

theorem cleanLocal_iff {v : View} {key : Rel} {here : LocalFile} (hget : v.locals.get key = some here) :
    cleanLocal v key = true ↔ ∃ previous, v.base.get key = some previous ∧ previous.type = here.type ∧
      (here.type = .file → sameStat here previous = true) := by
  unfold cleanLocal
  rw [hget]
  cases hb : v.base.get key with
  | none => simp
  | some previous =>
    cases htype : here.type with
    | folder => simp [htype]
    | file => simp [htype]

theorem cleanRemote_iff {v : View} {key : Rel} {there : ScopedItem}
    (hget : v.remote.get key = some there) :
    cleanRemote v key = true ↔ ∃ previous, v.base.get key = some previous ∧
      previous.remoteId = there.item.id ∧
      (there.item.type = .file → sameOnServer previous there.item = true) := by
  unfold cleanRemote
  rw [hget]
  cases hb : v.base.get key with
  | none => simp
  | some previous =>
    cases htype : there.item.type with
    | folder => simp [htype]
    | file => simp [htype]

/-! ## The two kinds of deletion -/

theorem trashLocal_mayTrash (hd : (input.locals.map fun entry => P.pathKey entry.rel).Nodup) {rel : Rel}
    {here : LocalFile} (h : .trashLocal rel here ∈ (plan P input).actions) (hk0 : P.pathKey rel ≠ []) :
    MayTrashLocal P input (P.pathKey rel) here := by
  rcases of_mem_plan h with ⟨entry, -, move, hm, ha⟩ | ⟨k, hv, ⟨_, _, he⟩ | ⟨gone, ho⟩⟩
  · exact (not_move_of_trashLocal hm ha).elim
  · cases he
  · have hcell := pathKey_cellAt_rel hv.1
    have hexcl := hv.notExcluded
    cases ho with
    | trashLocalFolder hh ht hp hf hm hdirty hs =>
      rename_i previous
      rw [hcell] at hk0 ⊢
      obtain ⟨hbelow, hclean⟩ := (not_mem_dirtySides_onLocal hk0).mp hdirty
      have hmem := of_locals_get hh
      refine ⟨hm, hexcl, hmem, remote_get_eq_none_iff.mp ht, ?_, ?_, ?_, fun _ => hbelow⟩
      · refine ⟨previous, hp, ?_, fun hfile => ?_⟩
        · rw [← stillOnServer_iff (P := P), hs]
          exact Bool.false_ne_true
        · rw [hf] at hfile
          cases hfile
      · intro _ each he hfile hb
        have hget := locals_get_of_mem hd he
        obtain ⟨prev, hprev, htype, hstat⟩ := (cleanLocal_iff hget).mp (hclean _ _ hget hb)
        exact ⟨prev, hprev, htype.trans hfile, hstat hfile⟩
      · intro _ each he hfolder hb
        have hget := locals_get_of_mem hd he
        obtain ⟨prev, hprev, htype, -⟩ := (cleanLocal_iff hget).mp (hclean _ _ hget hb)
        exact ⟨prev, hprev, htype.trans hfolder⟩
    | trashLocalFile hh ht hp hf hm hs hu =>
      rename_i previous
      rw [hcell]
      refine ⟨hm, hexcl, of_locals_get hh, remote_get_eq_none_iff.mp ht, ?_, ?_, ?_, ?_⟩
      · refine ⟨previous, hp, ?_, fun _ => hu⟩
        rw [← stillOnServer_iff (P := P), hs]
        exact Bool.false_ne_true
      all_goals
        intro hfolder
        rw [hf] at hfolder
        cases hfolder

theorem trashRemote_mayTrash (hd : input.DistinctKeys P) {rel : Rel} {remote : RemoteItem}
    (h : .trashRemote rel remote ∈ (plan P input).actions) (hk0 : P.pathKey rel ≠ []) :
    MayTrashRemote P input (P.pathKey rel) remote := by
  rcases of_mem_plan h with ⟨entry, -, move, hm, ha⟩ | ⟨k, hv, ⟨_, _, he⟩ | ⟨gone, ho⟩⟩
  · exact (not_move_of_trashRemote hm ha).elim
  · cases he
  · have hcell := pathKey_cellAt_rel hv.1
    have hexcl := hv.notExcluded
    cases ho with
    | trashRemoteFolder hh ht hp hf hm hdirty hs =>
      rename_i there previous
      rw [hcell] at hk0 ⊢
      obtain ⟨hbelow, hclean⟩ := (not_mem_dirtySides_onRemote hk0).mp hdirty
      obtain ⟨hmem, hkey⟩ := of_remote_get ht
      refine ⟨hm, hexcl, ⟨there, hmem, hkey, rfl⟩, locals_get_eq_none_iff.mp hh, ?_, ?_,
        fun _ => hbelow⟩
      · refine ⟨previous, hp, ?_, fun hfile => ?_⟩
        · rw [← stillHere_iff, hs]
          exact Bool.false_ne_true
        · rw [hf] at hfile
          cases hfile
      · intro _ each he hb
        have hget := remote_get_of_mem hd he
        exact (cleanRemote_iff hget).mp (hclean _ _ hget hb)
    | trashRemoteFile hh ht hp hf hm hs hu =>
      rename_i there previous
      rw [hcell]
      obtain ⟨hmem, hkey⟩ := of_remote_get ht
      refine ⟨hm, hexcl, ⟨there, hmem, hkey, rfl⟩, locals_get_eq_none_iff.mp hh, ?_, ?_, ?_⟩
      · refine ⟨previous, hp, ?_, fun _ => hu⟩
        rw [← stillHere_iff, hs]
        exact Bool.false_ne_true
      all_goals
        intro hfolder
        rw [hf] at hfolder
        cases hfolder

/-- A plan deletes a path on one side only when it was synced, the other side no longer has it
anywhere in the pair, and nothing at it or, for a folder, below it changed since the base. -/
theorem plan_deletes_only_unchanged (P : Platform) (input : PlanInput)
    (hd : input.DistinctKeys P) :
    (∀ rel here, .trashLocal rel here ∈ (plan P input).actions → P.pathKey rel ≠ [] →
        MayTrashLocal P input (P.pathKey rel) here) ∧
      ∀ rel remote, .trashRemote rel remote ∈ (plan P input).actions → P.pathKey rel ≠ [] →
        MayTrashRemote P input (P.pathKey rel) remote :=
  ⟨fun _ _ => trashLocal_mayTrash hd.onLocal, fun _ _ => trashRemote_mayTrash hd⟩

/-- The server deleted a synced folder with one file in it. -/
def serverDeletedFolder : PlanInput :=
  smallPair .twoWay [smallFolder "a" "1", smallFile "a/b" "2" none] []
    [syncedAs (smallFolder "a" "1") "f1" none,
      syncedAs (smallFile "a/b" "2" none) "r1" (some "x")]

theorem plan_deletes_only_unchanged_serverDeletedFolder :
    MayTrashLocal linux serverDeletedFolder "a".toList (smallFolder "a" "1") :=
  (plan_deletes_only_unchanged linux serverDeletedFolder ⟨by decide, by decide⟩).1
    "a".toList (smallFolder "a" "1") (by decide) (by decide)

/-- Two local files, one below the other: no disk has this, but the planner's input can. -/
def fileBelowFile : PlanInput :=
  smallPair .twoWay [smallFile "a" "1" none, smallFile "a/b" "2" none] []
    [syncedAs (smallFile "a" "1" none) "r1" (some "x")]

/-- The synced file is trashed although the entry below its path has no base entry. -/
theorem fileBelowFile_trashed :
    fileBelowFile.DistinctKeys linux ∧
      .trashLocal "a".toList (smallFile "a" "1" none) ∈ (plan linux fileBelowFile).actions ∧
      smallFile "a/b" "2" none ∈ fileBelowFile.locals ∧
      Below "a".toList (linux.pathKey "a/b".toList) ∧
      ∀ previous, ¬ BaseAt linux fileBelowFile (linux.pathKey "a/b".toList) previous := by
  refine ⟨⟨by decide, by decide⟩, by decide, by decide, by decide, fun previous h => ?_⟩
  have hnone : (view linux fileBelowFile).base.get (linux.pathKey "a/b".toList) = none := by decide
  rw [BaseAt, hnone] at h
  cases h

end Staaash.Planner
