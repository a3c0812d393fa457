import Staaash.Folders.Proofs.RefreshProofs

/-!
# Proofs: statements on folders and files

Every statement keeps the totals exact, but for a delete of folders that leaves a folder between two of
them: the foreign key sets its parent to null before the trigger of the delete has taken the deleted
bytes away, and the trigger of that update puts the old total back afterwards.
-/

namespace Staaash.Folders

open Staaash.Library Relation

variable {s : Tables} {id p : String} {ids : Finset String} {rows : OrderedMap String FolderColumns}

namespace Tables

/-! ## Updates of folders -/

theorem get_updateFolders : (s.updateFolders rows).folders.get id =
    (s.folders.get id).map fun folder => ((rows.get id).map folder.write).getD folder :=
  OrderedMap.get_mapValues _ _ _

theorem folderIds_updateFolders : (s.updateFolders rows).folderIds = s.folderIds := by
  refine Finset.ext fun id => ?_
  rw [mem_folderIds, mem_folderIds, get_updateFolders]
  cases s.folders.get id <;> simp

theorem treeSizeOf_updateFolders : (s.updateFolders rows).treeSizeOf id = s.treeSizeOf id := by
  unfold treeSizeOf
  rw [get_updateFolders]
  cases s.folders.get id with
  | none => rfl
  | some folder => cases rows.get id <;> rfl

theorem mem_changedIds {oldFolders newFolders : OrderedMap String Folder} {before after : Folder}
    (hold : oldFolders.get id = some before) (hnew : newFolders.get id = some after)
    (hne : before.parentId ≠ after.parentId ∨ before.deletedAt ≠ after.deletedAt) :
    id ∈ changedIds oldFolders newFolders := by
  unfold changedIds
  rw [Finset.mem_filter, List.mem_toFinset, OrderedMap.mem_keys_iff, hold]
  exact ⟨⟨before, rfl⟩, by simpa [hnew] using hne⟩

/-- The refresh after an update of folders. -/
def updateRefresh (s : Tables) (rows : OrderedMap String FolderColumns) : Refresh where
  current := s.updateFolders rows
  beforeNodes := s.folders.filterKeys (rows.has ·)
  changedIds := changedIds (s.folders.filterKeys (rows.has ·))
    ((s.updateFolders rows).folders.filterKeys (rows.has ·))

theorem get_beforeNodes (h : rows.has id = true) :
    (s.updateRefresh rows).beforeNodes.get id = s.folders.get id := by
  show (s.folders.filterKeys _).get id = _
  rw [OrderedMap.get_filterKeys, if_pos h]

/-- A row that is not written stays. -/
theorem get_updateFolders_of_not_has (h : ¬ rows.has id = true) :
    (s.updateFolders rows).folders.get id = s.folders.get id := by
  rw [get_updateFolders, (OrderedMap.has_eq_false_iff rows id).1 (by simpa using h)]
  cases s.folders.get id <;> rfl

/-- Outside of the targets, a row keeps its parent and its deletion time. -/
theorem updateFolders_of_notMem (h : id ∉ (s.updateRefresh rows).targets) :
    (s.updateFolders rows).parentOf id = s.parentOf id ∧
      (id ∈ (s.updateFolders rows).liveFolderIds ↔ id ∈ s.liveFolderIds) := by
  rw [mem_liveFolderIds, mem_liveFolderIds]
  unfold parentOf
  by_cases hhas : rows.has id = true
  · cases hget : s.folders.get id with
    | none =>
      rw [get_updateFolders, hget]
      exact ⟨rfl, by simp⟩
    | some folder =>
      obtain ⟨columns, hcolumns⟩ := (OrderedMap.has_iff rows id).1 hhas
      have hnew : (s.updateFolders rows).folders.get id = some (folder.write columns) := by
        rw [get_updateFolders, hget, hcolumns]
        rfl
      have hsame : folder.parentId = columns.parentId ∧ folder.deletedAt = columns.deletedAt := by
        by_contra hne
        have hafter : (OrderedMap.filterKeys _ _).get id = some (folder.write columns) :=
          (OrderedMap.get_filterKeys _ _ _).trans ((if_pos hhas).trans hnew)
        exact h (Refresh.changedIds_subset
          (mem_changedIds ((get_beforeNodes hhas).trans hget) hafter (not_and_or.1 hne)))
      rw [hnew]
      simp [Folder.write, hsame]
  · rw [get_updateFolders_of_not_has hhas]
    exact ⟨rfl, Iff.rfl⟩

/-- The snapshot of an update shows the rows of before. -/
theorem snapshot_updateRefresh (h : id ∈ (s.updateRefresh rows).targets) :
    (s.updateRefresh rows).snapshot id = s.folders.get id := by
  rw [Refresh.snapshot_of_mem h]
  by_cases hhas : rows.has id = true
  · rw [get_beforeNodes hhas]
    cases hget : s.folders.get id with
    | none =>
      show (s.updateFolders rows).folders.get id = none
      rw [get_updateFolders, hget]
      rfl
    | some folder => rfl
  · have hbefore : (s.updateRefresh rows).beforeNodes.get id = none := by
      show (s.folders.filterKeys _).get id = none
      rw [OrderedMap.get_filterKeys, if_neg hhas]
    rw [hbefore]
    exact get_updateFolders_of_not_has hhas

theorem Sound.follows_update (hs : s.Sound) : Refresh.Follows s (s.updateRefresh rows) where
  exact := hs.exact
  ids := folderIds_updateFolders.le
  sizes _ _ := treeSizeOf_updateFolders
  bytes _ _ := rfl
  closed x _ hxT y _ hparent := by
    refine Refresh.mem_targets_of_parent hxT (Refresh.mem_parents.2 ?_)
    by_cases hhas : rows.has x = true
    · refine .inl ?_
      rw [get_beforeNodes hhas]
      exact hparent
    · refine .inr ?_
      show (s.updateFolders rows).parentOf x = some y
      unfold parentOf at hparent ⊢
      rw [get_updateFolders_of_not_has hhas]
      exact hparent
  live c hc := (updateFolders_of_notMem hc).2
  parents c hc z _ := by
    show (s.updateFolders rows).parentOf c = some z ↔ _
    rw [(updateFolders_of_notMem hc).1]
  snapshotLive c hc := by
    rw [Refresh.mem_snapshotLive, snapshot_updateRefresh hc, mem_liveFolderIds]
    exact ⟨fun h => h.2, fun h => ⟨hc, h⟩⟩
  snapshotParents c hc z _ := by
    unfold Refresh.snapshotParent parentOf
    rw [snapshot_updateRefresh hc]
  snapshotBytes c hc _ := by
    unfold Refresh.snapshotBytes treeSizeOf
    rw [snapshot_updateRefresh hc]
  apart c _ _ z hparent _ := by
    show z ∈ (s.updateFolders rows).folderIds
    rw [folderIds_updateFolders]
    exact hs.linked.parents c z hparent

theorem linked_run {r : Refresh} (h : r.current.Linked) : r.run.Linked := by
  unfold Refresh.run
  split
  · exact h
  · exact h.storeTotals

theorem Sound.updateFolders (hs : s.Sound) (hlinked : (s.updateFolders rows).Linked) :
    (s.updateRefresh rows).run.Sound :=
  sound_of_exact (linked_run hlinked) hs.follows_update.exact_run

/-! ## Inserts of folders -/

theorem get_insertFolders : (s.insertFolders rows).folders.get id =
    ((rows.get id).map fun columns => ({ columns with treeSizeBytes := 0 } : Folder)).or
      (s.folders.get id) := by
  show (s.folders.writeAll _).get id = _
  rw [OrderedMap.get_writeAll, OrderedMap.get_mapValues]

theorem directBytes_of_notMem (hs : s.Linked) (h : id ∉ s.folderIds) : s.directBytes id = 0 :=
  OrderedMap.sum_eq_zero fun fileId file hget => bytesIn_eq_zero fun hfolder =>
    h (hs.files fileId file id hget hfolder)

section Insert

variable (hs : s.Sound) (hnew : ∀ id, rows.has id = true → s.folders.has id = false)

include hnew

/-- The rows that were there stay. -/
theorem get_insertFolders_of_mem (h : id ∈ s.folderIds) :
    (s.insertFolders rows).folders.get id = s.folders.get id := by
  have hnot : ¬ rows.has id = true := fun hhas => by
    have hgone := hnew id hhas
    rw [has_iff_mem.2 h] at hgone
    cases hgone
  rw [get_insertFolders, (OrderedMap.has_eq_false_iff rows id).1 (by simpa using hnot)]
  rfl

include hs

/-- A folder that was there names a parent that was there. -/
theorem mem_of_insert_tree {x y : String} (hy : y ∈ s.folderIds)
    (h : y ∈ (s.insertFolders rows).tree x) : x ∈ s.folderIds ∧ y ∈ s.tree x := by
  have hup := mem_subtree.1 h
  clear h
  rw [tree, mem_subtree]
  induction hup using ReflTransGen.head_induction_on with
  | refl => exact ⟨hy, .refl⟩
  | @head y z hstep _ ih =>
    have hget := get_insertFolders_of_mem hnew hy
    have hparent : s.parentOf y = some z := by
      have hparent := hstep.2
      unfold parentOf at hparent ⊢
      rwa [hget] at hparent
    have hlive : y ∈ s.liveFolderIds := by
      have hlive := mem_liveFolderIds.1 hstep.1
      rw [hget] at hlive
      exact mem_liveFolderIds.2 hlive
    obtain ⟨hx, hpath⟩ := ih (hs.linked.parents y z hparent)
    exact ⟨hx, .head ⟨hlive, hparent⟩ hpath⟩

omit hs in
theorem insert_tree_subset {x : String} : s.tree x ⊆ (s.insertFolders rows).tree x := by
  intro y hy
  rw [tree, mem_subtree] at hy ⊢
  refine ReflTransGen.mono (fun y z hstep => ?_) _ _ hy
  have hget := get_insertFolders_of_mem hnew (liveFolderIds_subset hstep.1)
  refine ⟨mem_liveFolderIds.2 ?_, ?_⟩
  · rw [hget]
    exact mem_liveFolderIds.1 hstep.1
  · unfold parentOf
    rw [hget]
    exact hstep.2

theorem Sound.insertFolders (hlinked : (s.insertFolders rows).Linked) :
    (s.insertFolders rows).Sound := by
  refine ⟨hlinked, fun id hid => ?_⟩
  unfold recount
  by_cases hold : id ∈ s.folderIds
  · have hget := get_insertFolders_of_mem hnew hold
    have hsize : (s.insertFolders rows).treeSizeOf id = s.treeSizeOf id := by
      unfold treeSizeOf
      rw [hget]
    have hlive : id ∈ (s.insertFolders rows).liveFolderIds ↔ id ∈ s.liveFolderIds := by
      rw [mem_liveFolderIds, mem_liveFolderIds, hget]
    rw [hsize, hs.exact id hold]
    unfold recount
    split
    · rw [if_pos (hlive.2 ‹_›)]
      refine Finset.sum_subset (insert_tree_subset hnew) fun y hy hnot => ?_
      have hgone : y ∉ s.folderIds := fun hmem => hnot (mem_of_insert_tree hs hnew hmem hy).2
      exact congrArg Nat.cast (directBytes_of_notMem hs.linked hgone)
    · rw [if_neg fun h => ‹¬ _› (hlive.1 h)]
  · obtain ⟨folder, hget⟩ := mem_folderIds.1 hid
    have hzero : (s.insertFolders rows).treeSizeOf id = 0 := by
      rw [treeSizeOf_of_get hget]
      rw [get_insertFolders] at hget
      cases hrow : rows.get id with
      | none =>
        rw [hrow] at hget
        exact absurd (mem_folderIds_of_get hget) hold
      | some columns =>
        rw [hrow] at hget
        cases hget
        rfl
    rw [hzero]
    split
    · refine (Finset.sum_eq_zero fun y hy => ?_).symm
      have hgone : y ∉ s.folderIds := fun hmem => hold (mem_of_insert_tree hs hnew hmem hy).1
      have hbytes : s.directBytes y = 0 := directBytes_of_notMem hs.linked hgone
      exact congrArg Nat.cast hbytes
    · rfl

end Insert

/-! ## Deletes of folders -/

theorem get_removeFolders : (s.removeFolders ids).folders.get id = if id ∈ ids then none else
    (s.folders.get id).map fun folder =>
      { folder with parentId := folder.parentId.filter (· ∉ ids) } := by
  show ((s.folders.filterKeys _).mapValues _).get id = _
  rw [OrderedMap.get_mapValues, OrderedMap.get_filterKeys]
  by_cases h : id ∈ ids <;> simp [h]

theorem mem_folderIds_removeFolders :
    id ∈ (s.removeFolders ids).folderIds ↔ id ∈ s.folderIds ∧ id ∉ ids := by
  rw [mem_folderIds, mem_folderIds, get_removeFolders]
  by_cases h : id ∈ ids <;> simp [h]

theorem mem_liveFolderIds_removeFolders :
    id ∈ (s.removeFolders ids).liveFolderIds ↔ id ∈ s.liveFolderIds ∧ id ∉ ids := by
  rw [mem_liveFolderIds, mem_liveFolderIds, get_removeFolders]
  by_cases h : id ∈ ids
  · simp [h]
  · cases s.folders.get id <;> simp [h]

theorem parentOf_removeFolders : (s.removeFolders ids).parentOf id = some p ↔
    id ∉ ids ∧ s.parentOf id = some p ∧ p ∉ ids := by
  rw [parentOf_eq_some, parentOf_eq_some, get_removeFolders]
  by_cases h : id ∈ ids
  · simp [h]
  · cases s.folders.get id with
    | none => simp [h]
    | some folder => simp [h, Option.filter_eq_some_iff]

theorem treeSizeOf_removeFolders (h : id ∉ ids) :
    (s.removeFolders ids).treeSizeOf id = s.treeSizeOf id := by
  unfold treeSizeOf
  rw [get_removeFolders, if_neg h]
  cases s.folders.get id <;> rfl

theorem directBytes_removeFolders (h : id ∉ ids) :
    (s.removeFolders ids).directBytes id = s.directBytes id := by
  have hsame : ∀ file : File, ({ file with folderId := file.folderId.filter (· ∉ ids) } :
      File).bytesIn id = file.bytesIn id := by
    intro file
    have hin : file.folderId.filter (· ∉ ids) = some id ↔ file.folderId = some id := by
      rw [Option.filter_eq_some_iff]
      simp [h]
    unfold File.bytesIn
    simp only [hin]
  let f (file : File) : Nat := file.bytesIn id
  have hsum : (s.removeFolders ids).files.sum f = s.files.sum f :=
    OrderedMap.sum_mapValues fun _ file _ => hsame file
  exact hsum

theorem linked_removeFolders (hs : s.Linked) : (s.removeFolders ids).Linked where
  parents id p hp := by
    obtain ⟨-, hp, hkept⟩ := parentOf_removeFolders.1 hp
    exact mem_folderIds_removeFolders.2 ⟨hs.parents id p hp, hkept⟩
  files id file p hget hp := by
    have hget' : ((s.files.mapValues fun _ (file : File) =>
        { file with folderId := file.folderId.filter (· ∉ ids) }).get id) = some file := hget
    rw [OrderedMap.get_mapValues, Option.map_eq_some_iff] at hget'
    obtain ⟨before, hbefore, rfl⟩ := hget'
    obtain ⟨hp, hkept⟩ := Option.filter_eq_some_iff.1 hp
    exact mem_folderIds_removeFolders.2 ⟨hs.files id before p hbefore hp, by simpa using hkept⟩

/-- The refresh after a delete of folders. -/
def deleteRefresh (s : Tables) (ids : Finset String) : Refresh where
  current := s.removeFolders ids
  beforeNodes := s.folders.filterKeys (· ∈ ids)
  changedIds := (s.folders.filterKeys (· ∈ ids)).keys.toFinset

theorem mem_changedIds_delete :
    id ∈ (s.deleteRefresh ids).changedIds ↔ id ∈ s.folderIds ∧ id ∈ ids := by
  show id ∈ (s.folders.filterKeys _).keys.toFinset ↔ _
  rw [List.mem_toFinset, OrderedMap.mem_keys_iff, mem_folderIds, OrderedMap.get_filterKeys]
  by_cases h : id ∈ ids <;> simp [h]

/-- A deleted folder is a target. -/
theorem mem_targets_of_deleted (hid : id ∈ s.folderIds) (h : id ∈ ids) :
    id ∈ (s.deleteRefresh ids).targets :=
  Refresh.changedIds_subset (mem_changedIds_delete.2 ⟨hid, h⟩)

/-- The snapshot of a delete shows the rows of before, but without the parents that are gone. -/
theorem snapshot_deleteRefresh (h : id ∈ (s.deleteRefresh ids).targets) :
    (s.deleteRefresh ids).snapshot id = (s.folders.get id).map fun folder =>
      if id ∈ ids then folder else { folder with parentId := folder.parentId.filter (· ∉ ids) } := by
  rw [Refresh.snapshot_of_mem h]
  show ((s.folders.filterKeys _).get id).or ((s.removeFolders ids).folders.get id) = _
  rw [OrderedMap.get_filterKeys, get_removeFolders]
  by_cases hin : id ∈ ids <;> simp [hin]

theorem Sound.follows_delete (hs : s.Sound) (hok : LeavesNothingBetween s (.deleteFolders ids)) :
    Refresh.Follows s (s.deleteRefresh ids) where
  exact := hs.exact
  ids id hid := (mem_folderIds_removeFolders.1 hid).1
  sizes id hid := treeSizeOf_removeFolders (mem_folderIds_removeFolders.1 hid).2
  bytes id hid := directBytes_removeFolders (mem_folderIds_removeFolders.1 hid).2
  closed x hx hxT y hy hparent := by
    by_cases hyin : y ∈ ids
    · exact mem_targets_of_deleted (liveFolderIds_subset hy) hyin
    · refine Refresh.mem_targets_of_parent hxT (Refresh.mem_parents.2 ?_)
      by_cases hxin : x ∈ ids
      · refine .inl ?_
        show ((s.folders.filterKeys _).get x).bind _ = some y
        rw [OrderedMap.get_filterKeys, if_pos (by simpa using hxin)]
        exact hparent
      · exact .inr (parentOf_removeFolders.2 ⟨hxin, hparent, hyin⟩)
  live c hc := by
    show c ∈ (s.removeFolders ids).liveFolderIds ↔ _
    rw [mem_liveFolderIds_removeFolders]
    exact ⟨fun h => h.1, fun h =>
      ⟨h, fun hin => hc (mem_targets_of_deleted (liveFolderIds_subset h) hin)⟩⟩
  parents c hc z hz := by
    show (s.removeFolders ids).parentOf c = some z ↔ _
    rw [parentOf_removeFolders]
    refine ⟨fun h => h.2.1, fun h => ⟨fun hin => ?_, h, fun hin => ?_⟩⟩
    · obtain ⟨folder, hget, -⟩ := parentOf_eq_some.1 h
      exact hc (mem_targets_of_deleted (mem_folderIds_of_get hget) hin)
    · rcases hz with hz | hz
      · exact (mem_folderIds_removeFolders.1 hz).2 hin
      · exact hz (mem_targets_of_deleted (hs.linked.parents c z h) hin)
  snapshotLive c hc := by
    rw [Refresh.mem_snapshotLive, snapshot_deleteRefresh hc, mem_liveFolderIds]
    cases s.folders.get c with
    | none => simp
    | some folder => by_cases hin : c ∈ ids <;> simp [hc, hin]
  snapshotParents c hc z hz := by
    have hkept := (mem_folderIds_removeFolders.1 hz).2
    unfold Refresh.snapshotParent parentOf
    rw [snapshot_deleteRefresh hc]
    cases s.folders.get c with
    | none => simp
    | some folder => by_cases hin : c ∈ ids <;> simp [hin, Option.filter_eq_some_iff, hkept]
  snapshotBytes c hc _ := by
    unfold Refresh.snapshotBytes treeSizeOf
    rw [snapshot_deleteRefresh hc]
    cases s.folders.get c with
    | none => rfl
    | some folder => by_cases hin : c ∈ ids <;> simp [hin]
  apart c hc hcid z hparent hz := by
    have hkept := (mem_folderIds_removeFolders.1 hcid).2
    refine mem_folderIds_removeFolders.2 ⟨hs.linked.parents c z hparent, fun hin => ?_⟩
    have hunlinked : c ∈ s.unlinkedIds ids := by
      unfold unlinkedIds
      rw [Finset.mem_filter, Finset.mem_sdiff, Option.any_eq_true]
      exact ⟨⟨liveFolderIds_subset hc, hkept⟩, z, hparent, by simpa using hin⟩
    exact hok c (Finset.mem_inter.2 ⟨hc, hunlinked⟩) z hz hin

theorem mem_unlinkedIds : id ∈ s.unlinkedIds ids ↔
    id ∈ s.folderIds ∧ id ∉ ids ∧ ∃ p, s.parentOf id = some p ∧ p ∈ ids := by
  unfold unlinkedIds
  rw [Finset.mem_filter, Finset.mem_sdiff, Option.any_eq_true]
  simp only [decide_eq_true_eq, and_assoc]

/-- A folder above none of the deleted ones weighs what it did. -/
theorem recount_removeFolders (hlive : id ∈ s.liveFolderIds) (hbelow : ∀ y ∈ s.tree id, y ∉ ids) :
    (s.removeFolders ids).recount id = s.recount id := by
  have hlive' : id ∈ (s.removeFolders ids).liveFolderIds :=
    mem_liveFolderIds_removeFolders.2 ⟨hlive, hbelow id self_mem_subtree⟩
  have hbelow' : ∀ y ∈ (s.removeFolders ids).tree id, y ∉ ids := fun y hy =>
    (mem_liveFolderIds_removeFolders.1 (mem_live_of_mem_subtree hlive' hy)).2
  have htree : s.tree id = (s.removeFolders ids).tree id := by
    refine subtree_congr (fun y z hy hz => ?_) hbelow hbelow'
    rw [mem_liveFolderIds_removeFolders, parentOf_removeFolders]
    tauto
  unfold recount
  rw [if_pos hlive, if_pos hlive', ← htree]
  exact Finset.sum_congr rfl fun y hy =>
    congrArg Nat.cast (directBytes_removeFolders (hbelow y hy))

theorem sameFolders_run {r : Refresh} : SameFolders r.current r.run := by
  unfold Refresh.run
  split
  · exact sameFolders_of_eq rfl
  · exact sameFolders_storeTotals

theorem files_run {r : Refresh} : r.run.files = r.current.files := by
  unfold Refresh.run
  split <;> rfl

theorem Sound.deleted (hs : s.Sound) (hok : LeavesNothingBetween s (.deleteFolders ids)) :
    (s.deleteRefresh ids).run.Sound :=
  sound_of_exact (linked_run (linked_removeFolders hs.linked)) (hs.follows_delete hok).exact_run

section Unlink

variable {deleted : Tables}

/-- The refresh after the foreign keys have set parents to null. -/
def unlinkRefresh (s : Tables) (ids : Finset String) (deleted : Tables) : Refresh where
  current := deleted
  beforeNodes := s.folders.filterKeys (· ∈ s.unlinkedIds ids)
  changedIds := changedIds (s.folders.filterKeys (· ∈ s.unlinkedIds ids))
    ((s.removeFolders ids).folders.filterKeys (· ∈ s.unlinkedIds ids))

/-- The snapshot shows the unlinked folders as the foreign keys found them. -/
theorem snapshot_unlinkRefresh (h : id ∈ (s.unlinkRefresh ids deleted).targets) :
    (s.unlinkRefresh ids deleted).snapshot id =
      if id ∈ s.unlinkedIds ids then s.folders.get id else deleted.folders.get id := by
  rw [Refresh.snapshot_of_mem h]
  show ((s.folders.filterKeys _).get id).or _ = _
  rw [OrderedMap.get_filterKeys]
  by_cases hin : id ∈ s.unlinkedIds ids
  · obtain ⟨folder, hget⟩ := mem_folderIds.1 (mem_unlinkedIds.1 hin).1
    simp [hin, hget]
  · simp only [hin, decide_false, Bool.false_eq_true, if_false]
    exact Option.none_or

theorem Sound.follows_unlink (hs : s.Sound) (hok : LeavesNothingBetween s (.deleteFolders ids))
    (hd : deleted.Sound) (hsame : SameFolders (s.removeFolders ids) deleted)
    (hfiles : deleted.files = (s.removeFolders ids).files) :
    Refresh.Follows deleted (s.unlinkRefresh ids deleted) where
  exact := hd.exact
  ids _ hid := hid
  sizes _ _ := rfl
  bytes _ _ := rfl
  closed := Refresh.closedUp_current (r := s.unlinkRefresh ids deleted)
  live _ _ := Iff.rfl
  parents _ _ _ _ := Iff.rfl
  snapshotLive c hc := by
    rw [Refresh.mem_snapshotLive, snapshot_unlinkRefresh hc]
    split
    · rename_i hin
      have hkept := (mem_unlinkedIds.1 hin).2.1
      rw [hsame.live, mem_liveFolderIds_removeFolders, mem_liveFolderIds]
      exact ⟨fun h => ⟨h.2, hkept⟩, fun h => ⟨hc, h.1⟩⟩
    · rw [mem_liveFolderIds]
      exact ⟨fun h => h.2, fun h => ⟨hc, h⟩⟩
  snapshotParents c hc z hz := by
    have hz : z ∈ (s.removeFolders ids).folderIds := hsame.ids ▸ hz
    unfold Refresh.snapshotParent
    rw [snapshot_unlinkRefresh hc]
    split
    · rename_i hin
      have hkept := (mem_unlinkedIds.1 hin).2.1
      rw [hsame.parents, parentOf_removeFolders]
      exact ⟨fun h => ⟨hkept, h, (mem_folderIds_removeFolders.1 hz).2⟩, fun h => h.2.1⟩
    · exact Iff.rfl
  snapshotBytes c hc hlive := by
    unfold Refresh.snapshotBytes
    rw [snapshot_unlinkRefresh hc]
    split
    · rename_i hin
      have hlive' : c ∈ (s.removeFolders ids).liveFolderIds := hsame.live ▸ hlive
      have hold := (mem_liveFolderIds_removeFolders.1 hlive').1
      have hrecount : deleted.recount c = s.recount c := (hsame.recount hfiles).trans
        (recount_removeFolders hold fun y hy => hok c (Finset.mem_inter.2 ⟨hold, hin⟩) y hy)
      rw [hd.exact c (liveFolderIds_subset hlive), hrecount,
        ← hs.exact c (liveFolderIds_subset hold)]
      rfl
    · rfl
  apart c hc _ z hparent _ := hd.linked.parents c z hparent

/-- The files that lay in deleted folders count nowhere, before and after. -/
theorem sum_unlinkedFiles (hkept : id ∉ ids) :
    (s.files.filterKeys (· ∈ s.unlinkedFileIds ids)).sum (·.bytesIn id) = 0 ∧
    ((s.removeFolders ids).files.filterKeys (· ∈ s.unlinkedFileIds ids)).sum (·.bytesIn id) = 0 := by
  have hfolder : ∀ {fileId file}, fileId ∈ s.unlinkedFileIds ids → s.files.get fileId = some file →
      ∃ p, file.folderId = some p ∧ p ∈ ids := by
    intro fileId file hin hget
    obtain ⟨-, hany⟩ := Finset.mem_filter.1 hin
    rw [hget, Option.any_some] at hany
    obtain ⟨p, hp, hmem⟩ := (Option.any_eq_true _ _).1 hany
    exact ⟨p, hp, by simpa using hmem⟩
  constructor
  · refine OrderedMap.sum_eq_zero fun fileId file hget => bytesIn_eq_zero fun heq => hkept ?_
    rw [OrderedMap.get_filterKeys] at hget
    obtain ⟨hin, hget⟩ := Option.ite_none_right_eq_some.1 hget
    obtain ⟨p, hp, hmem⟩ := hfolder (by simpa using hin) hget
    exact Option.some.inj (hp.symm.trans heq) ▸ hmem
  · refine OrderedMap.sum_eq_zero fun fileId file hget => bytesIn_eq_zero fun heq => hkept ?_
    rw [OrderedMap.get_filterKeys] at hget
    obtain ⟨hin, hget⟩ := Option.ite_none_right_eq_some.1 hget
    have hget' : ((s.files.mapValues fun _ (file : File) =>
        { file with folderId := file.folderId.filter (· ∉ ids) }).get fileId) = some file := hget
    rw [OrderedMap.get_mapValues, Option.map_eq_some_iff] at hget'
    obtain ⟨before, hbefore, rfl⟩ := hget'
    obtain ⟨p, hp, hmem⟩ := hfolder (by simpa using hin) hbefore
    obtain ⟨hp', hnot⟩ := Option.filter_eq_some_iff.1 heq
    exact Option.some.inj (hp.symm.trans hp') ▸ hmem

end Unlink

theorem Sound.deleteFolders (hs : s.Sound) (hok : LeavesNothingBetween s (.deleteFolders ids)) :
    (s.deleteFolders ids).Sound := by
  have hd := hs.deleted hok
  have hsame : SameFolders (s.removeFolders ids) (s.deleteRefresh ids).run :=
    sameFolders_run (r := s.deleteRefresh ids)
  have hfollows := hs.follows_unlink hok hd hsame files_run
  have hunlinked : (s.unlinkRefresh ids (s.deleteRefresh ids).run).run.Sound :=
    sound_of_exact (linked_run (r := s.unlinkRefresh ids (s.deleteRefresh ids).run) hd.linked)
      hfollows.exact_run
  refine sound_of_exact hunlinked.linked.applyFolderSizeDeltas
    (exact_updateFileFolderSizes hunlinked.exact (sameFolders_of_eq rfl) (fun _ => rfl) fun id hid => ?_)
  have hid : id ∈ (s.removeFolders ids).folderIds := by
    rw [sameFolders_run.ids] at hid
    exact hsame.ids ▸ hid
  obtain ⟨hold, hnew⟩ := sum_unlinkedFiles (s := s) (mem_folderIds_removeFolders.1 hid).2
  rw [hold, hnew]
  rfl

/-! ## Runs -/

theorem Sound.act {statement : Statement} {s' : Tables} (hs : s.Sound)
    (hok : LeavesNothingBetween s statement) (h : s.act statement = some s') : s'.Sound := by
  have hfree : ∀ {β : Type} {rows : OrderedMap String β} {taken : String → Bool},
      (rows.keys.all fun id => !taken id) = true → ∀ id, rows.has id = true → taken id = false := by
    intro β rows taken hall id hid
    have hmem := (OrderedMap.mem_keys_iff rows id).2 ((OrderedMap.has_iff rows id).1 hid)
    simpa using List.all_eq_true.1 hall id hmem
  cases statement with
  | insertFolders rows =>
    obtain ⟨hguard, h⟩ := Option.ite_none_right_eq_some.1 h
    obtain rfl := Option.some.inj h
    obtain ⟨hnew, hlinked⟩ := Bool.and_eq_true_iff.1 hguard
    exact hs.insertFolders (hfree hnew) (linked_iff.1 hlinked)
  | updateFolders rows =>
    obtain ⟨hlinked, h⟩ := Option.ite_none_right_eq_some.1 h
    obtain rfl := Option.some.inj h
    exact hs.updateFolders (linked_iff.1 hlinked)
  | deleteFolders ids =>
    obtain rfl := Option.some.inj h
    exact hs.deleteFolders hok
  | insertFiles rows =>
    obtain ⟨hguard, h⟩ := Option.ite_none_right_eq_some.1 h
    obtain rfl := Option.some.inj h
    obtain ⟨hnew, hlinked⟩ := Bool.and_eq_true_iff.1 hguard
    refine hs.insertFiles (fun id hid => ?_) (linked_iff.1 hlinked)
    exact (OrderedMap.has_eq_false_iff _ _).1 (hfree hnew id hid)
  | updateFiles rows =>
    obtain ⟨hlinked, h⟩ := Option.ite_none_right_eq_some.1 h
    obtain rfl := Option.some.inj h
    exact hs.updateFiles (linked_iff.1 hlinked)
  | deleteFiles ids =>
    obtain rfl := Option.some.inj h
    exact hs.deleteFiles

theorem Sound.step {statement : Statement} (hs : s.Sound) (hok : LeavesNothingBetween s statement) :
    (s.step statement).Sound := by
  unfold Tables.step
  cases hact : s.act statement with
  | none => exact hs
  | some s' => exact hs.act hok hact

/-- The migration starts with a full rebuild. -/
theorem Linked.sound_rebuild (h : s.Linked) : (s.rebuildFolderSizes s.folderIds).Sound :=
  sound_of_exact h.storeTotals
    (exact_storeTotals (fun _ _ _ => rfl) fun _ hid hnot => absurd hid hnot)

end Tables

/-- From the rebuild of the migration on, the totals are exact after every statement, as long as no
delete leaves a folder between deleted ones. -/
theorem run_exact (s : Tables) (hs : s.linked = true) (statements : List Statement)
    (hok : RunMeets Tables.step LeavesNothingBetween (s.rebuildFolderSizes s.folderIds) statements) :
    RunMeets Tables.step (fun s statement => (s.step statement).Exact)
      (s.rebuildFolderSizes s.folderIds) statements :=
  (hok.invariant (fun _ _ hok hs => hs.step hok) (Tables.linked_iff.1 hs).sound_rebuild).mono
    fun _ _ h => Tables.exact_iff.2 (h.2.step h.1).exact

/-- Two folders come to lie in one another, each with a file. -/
def closeCycle : List Statement :=
  [.insertFolders (.ofList [("a", ⟨none, none, false⟩), ("b", ⟨some "a", none, false⟩)]),
    .insertFiles (.ofList [("f", ⟨some "a", none, 3⟩), ("g", ⟨some "b", none, 5⟩)]),
    .updateFolders (.ofList [("a", ⟨some "b", none, false⟩)])]

theorem run_exact_cycleReopened :
    (Tables.run (Tables.empty.rebuildFolderSizes ∅) (closeCycle ++
      [.updateFolders (.ofList [("b", ⟨none, none, false⟩)]), .deleteFolders {"a"}])).treeSizeOf "b"
        = 5 ∧
    RunMeets Tables.step (fun s statement => (s.step statement).Exact)
      (Tables.empty.rebuildFolderSizes ∅) (closeCycle ++
        [.updateFolders (.ofList [("b", ⟨none, none, false⟩)]), .deleteFolders {"a"}]) :=
  ⟨by decide +kernel, run_exact .empty (by decide) _ (by decide +kernel)⟩

/-- A folder of a cycle is deleted, and the other one keeps the bytes of its files. -/
theorem delete_keeps_deleted_bytes :
    ¬∀ s : Tables, s.linked = true → ∀ statements,
      RunMeets Tables.step (fun s statement => (s.step statement).Exact)
        (s.rebuildFolderSizes s.folderIds) statements := by
  intro hall
  have hrun := hall .empty (by decide) (closeCycle ++ [.deleteFolders {"a"}])
  obtain ⟨-, hlast, -⟩ := runMeets_append.1 hrun
  revert hlast
  decide +kernel

end Staaash.Folders
