import Staaash.Folders.Statements

/-!
# Proofs: folders and files

What the tables hold after new totals are stored, and what exact totals and the foreign keys say of the
rows. The triggers on `File` keep the totals exact: a change of the bytes in a folder counts for the
live folders above it, and those are the folders whose tree it belongs to.
-/

namespace Staaash.Folders

open Staaash.Library Relation

variable {s s' : Tables} {id p : String} {folder : Folder} {targets changed : Finset String}
variable {total bytes : String → Int}

namespace Tables

theorem mem_folderIds : id ∈ s.folderIds ↔ ∃ folder, s.folders.get id = some folder := by
  unfold folderIds
  rw [List.mem_toFinset, OrderedMap.mem_keys_iff]

theorem has_iff_mem : s.folders.has id = true ↔ id ∈ s.folderIds := by
  rw [OrderedMap.has_iff, mem_folderIds]

theorem mem_folderIds_of_get (h : s.folders.get id = some folder) : id ∈ s.folderIds :=
  mem_folderIds.2 ⟨folder, h⟩

theorem mem_liveFolderIds :
    id ∈ s.liveFolderIds ↔ ∃ folder, s.folders.get id = some folder ∧ folder.deletedAt = none := by
  unfold liveFolderIds
  rw [Finset.mem_filter, mem_folderIds, Option.any_eq_true]
  simp only [decide_eq_true_eq]
  exact ⟨fun h => h.2, fun h => ⟨⟨h.choose, h.choose_spec.1⟩, h⟩⟩

theorem liveFolderIds_subset : s.liveFolderIds ⊆ s.folderIds := Finset.filter_subset _ _

theorem parentOf_of_get (h : s.folders.get id = some folder) : s.parentOf id = folder.parentId := by
  rw [parentOf, h, Option.bind_some]

theorem parentOf_eq_some :
    s.parentOf id = some p ↔ ∃ folder, s.folders.get id = some folder ∧ folder.parentId = some p :=
  Option.bind_eq_some_iff

theorem treeSizeOf_of_get (h : s.folders.get id = some folder) :
    s.treeSizeOf id = folder.treeSizeBytes := by
  rw [treeSizeOf, h]
  rfl

theorem recount_of_live (h : id ∈ s.liveFolderIds) :
    s.recount id = treeSum s.liveFolderIds s.parentOf (fun id => (s.directBytes id : Int)) id :=
  if_pos h

/-! ## Tables with the same rows but for the totals -/

/-- The folders have the same ids, parents and deletion times. -/
structure SameFolders (s s' : Tables) : Prop where
  ids : s'.folderIds = s.folderIds
  live : s'.liveFolderIds = s.liveFolderIds
  parents : s'.parentOf = s.parentOf

theorem sameFolders_of_eq (h : s'.folders = s.folders) : SameFolders s s' := by
  obtain ⟨folders, files⟩ := s
  obtain ⟨folders', files'⟩ := s'
  obtain rfl := h
  exact ⟨rfl, rfl, rfl⟩

theorem SameFolders.tree (h : SameFolders s s') : s'.tree id = s.tree id := by
  unfold Tables.tree
  rw [h.live, h.parents]

theorem SameFolders.recount (h : SameFolders s s') (hfiles : s'.files = s.files) :
    s'.recount id = s.recount id := by
  unfold Tables.recount Tables.directBytes
  rw [h.live, h.tree, hfiles]

theorem sameFolders_of_get {f : String → Folder → Folder}
    (hget : ∀ id, s'.folders.get id = (s.folders.get id).map (f id))
    (hf : ∀ id folder, (f id folder).parentId = folder.parentId ∧
      (f id folder).deletedAt = folder.deletedAt) : SameFolders s s' where
  ids := by
    refine Finset.ext fun id => ?_
    rw [mem_folderIds, mem_folderIds, hget]
    cases s.folders.get id <;> simp
  live := by
    refine Finset.ext fun id => ?_
    rw [mem_liveFolderIds, mem_liveFolderIds, hget]
    cases s.folders.get id with
    | none => simp
    | some folder => simp [(hf id folder).2]
  parents := by
    funext id
    unfold parentOf
    rw [hget]
    cases s.folders.get id with
    | none => rfl
    | some folder => exact (hf id folder).1

theorem get_storeTotals :
    (s.storeTotals targets total).folders.get id = (s.folders.get id).map fun folder =>
      if id ∈ targets then { folder with treeSizeBytes := total id } else folder :=
  OrderedMap.get_mapValues _ _ _

theorem sameFolders_storeTotals : SameFolders s (s.storeTotals targets total) := by
  refine sameFolders_of_get (fun id => get_storeTotals) fun id folder => ?_
  split <;> exact ⟨rfl, rfl⟩

theorem recount_storeTotals : (s.storeTotals targets total).recount id = s.recount id :=
  sameFolders_storeTotals.recount rfl

theorem treeSizeOf_storeTotals (h : id ∈ s.folderIds) :
    (s.storeTotals targets total).treeSizeOf id =
      if id ∈ targets then total id else s.treeSizeOf id := by
  obtain ⟨folder, hget⟩ := mem_folderIds.1 h
  have hget' : (s.storeTotals targets total).folders.get id = some
      (if id ∈ targets then { folder with treeSizeBytes := total id } else folder) := by
    rw [get_storeTotals, hget, Option.map_some]
  rw [treeSizeOf_of_get hget', treeSizeOf_of_get hget]
  split <;> rfl

/-- Exact totals, folder by folder. -/
theorem exact_iff : s.Exact ↔ ∀ id ∈ s.folderIds, s.treeSizeOf id = s.recount id := by
  constructor
  · intro h id hid
    have hsize := congrArg (fun s => s.treeSizeOf id) (show s.rebuildFolderSizes _ = s from h)
    have hstored : (s.storeTotals s.folderIds s.recount).treeSizeOf id = s.recount id := by
      rw [treeSizeOf_storeTotals hid, if_pos hid]
    exact hsize.symm.trans hstored
  · intro h
    have hfolders : (s.folders.mapValues fun id folder => if id ∈ s.folderIds then
        { folder with treeSizeBytes := s.recount id } else folder) = s.folders := by
      refine OrderedMap.mapValues_eq_self fun id folder hget => ?_
      have hid := mem_folderIds_of_get hget
      rw [if_pos hid, ← h id hid, treeSizeOf_of_get hget]
    obtain ⟨folders, files⟩ := s
    exact congrArg (Tables.mk · files) hfolders

theorem exact_storeTotals (h : ∀ id ∈ s.folderIds, id ∈ targets → total id = s.recount id)
    (hothers : ∀ id ∈ s.folderIds, id ∉ targets → s.treeSizeOf id = s.recount id) :
    (s.storeTotals targets total).Exact := by
  refine exact_iff.2 fun id hid => ?_
  rw [sameFolders_storeTotals.ids] at hid
  rw [treeSizeOf_storeTotals hid, recount_storeTotals]
  split
  · exact h id hid ‹_›
  · exact hothers id hid ‹_›

/-! ## Foreign keys -/

/-- The foreign keys, row by row. -/
structure Linked (s : Tables) : Prop where
  parents : ∀ id p, s.parentOf id = some p → p ∈ s.folderIds
  files : ∀ id file p, s.files.get id = some file → file.folderId = some p → p ∈ s.folderIds

theorem linked_iff : s.linked = true ↔ s.Linked := by
  have hall : ∀ {p : Option String}, p.all s.folders.has = true ↔ ∀ q, p = some q → q ∈ s.folderIds := by
    intro p
    cases p with
    | none => simp
    | some q => simp [has_iff_mem]
  unfold linked
  rw [Bool.and_eq_true, List.all_eq_true, List.all_eq_true]
  simp only [hall]
  constructor
  · rintro ⟨hfolders, hfiles⟩
    refine ⟨fun id p hp => ?_, fun id file p hget hp => ?_⟩
    · obtain ⟨folder, hget, hp⟩ := parentOf_eq_some.1 hp
      exact hfolders _ ((OrderedMap.get_eq_some_iff _ _ _).1 hget) p hp
    · exact hfiles _ ((OrderedMap.get_eq_some_iff _ _ _).1 hget) p hp
  · rintro ⟨hfolders, hfiles⟩
    refine ⟨fun e he p hp => ?_, fun e he p hp => ?_⟩
    · have hget := (OrderedMap.get_eq_some_iff s.folders e.1 e.2).2 he
      exact hfolders e.1 p ((parentOf_of_get hget).trans hp)
    · exact hfiles e.1 e.2 p ((OrderedMap.get_eq_some_iff s.files e.1 e.2).2 he) hp

theorem Linked.storeTotals (h : s.Linked) : (s.storeTotals targets total).Linked where
  parents id p hp := by
    rw [sameFolders_storeTotals.parents] at hp
    rw [sameFolders_storeTotals.ids]
    exact h.parents id p hp
  files id file p hget hp := by
    rw [sameFolders_storeTotals.ids]
    exact h.files id file p hget hp

/-! ## The ancestors of a folder -/

/-- One step up, from a live folder to a live one. -/
def LiveStep (s : Tables) (id p : String) : Prop := s.parentOf id = some p ∧ p ∈ s.liveFolderIds

/-- What `climb` visits has been visited before or lies above; and it stops where there is nothing
live to visit, as it cannot visit more folders than there are. -/
theorem climb_spec {rounds : Nat} {visited : List String} (hid : id ∈ visited)
    (hnodup : visited.Nodup) (hlive : ∀ v ∈ visited, v ∈ s.liveFolderIds)
    (hclosed : ∀ v ∈ visited, v ≠ id → ∀ p, LiveStep s v p → p ∈ visited)
    (hrounds : s.liveFolderIds.card < visited.length + rounds) :
    (∀ v ∈ visited, v ∈ s.climb rounds id visited) ∧
    (∀ v ∈ s.climb rounds id visited, v ∈ visited ∨ ReflTransGen (LiveStep s) id v) ∧
    ∀ v ∈ s.climb rounds id visited, ∀ p, LiveStep s v p → p ∈ s.climb rounds id visited := by
  induction rounds generalizing id visited with
  | zero =>
    have hsub : visited.toFinset ⊆ s.liveFolderIds := fun v hv => hlive v (List.mem_toFinset.1 hv)
    have hcard := Finset.card_le_card hsub
    rw [List.toFinset_card_of_nodup hnodup] at hcard
    omega
  | succ rounds ih =>
    unfold climb
    cases hparent : s.parentOf id with
    | none =>
      refine ⟨fun v hv => hv, fun v hv => .inl hv, fun v hv p hp => ?_⟩
      by_cases heq : v = id
      · rw [heq] at hp
        cases hparent.symm.trans hp.1
      · exact hclosed v hv heq p hp
    | some parentId =>
      dsimp only
      split
      · rename_i hnew
        simp only [Bool.and_eq_true, decide_eq_true_eq] at hnew
        have hnodup' : (visited ++ [parentId]).Nodup := by
          refine List.nodup_append.2 ⟨hnodup, by simp, fun v hv p hp => ?_⟩
          rw [List.mem_singleton.1 hp]
          exact fun heq => hnew.2 (heq ▸ hv)
        have hlive' : ∀ v ∈ visited ++ [parentId], v ∈ s.liveFolderIds := by
          simpa [or_imp, forall_and] using ⟨hlive, hnew.1⟩
        have hclosed' : ∀ v ∈ visited ++ [parentId], v ≠ parentId → ∀ p, LiveStep s v p →
            p ∈ visited ++ [parentId] := by
          intro v hv hne p hp
          rcases List.mem_append.1 hv with hv | hv
          · by_cases heq : v = id
            · rw [heq] at hp
              obtain rfl := Option.some.inj (hparent.symm.trans hp.1)
              exact List.mem_append_right _ (List.mem_singleton.2 rfl)
            · exact List.mem_append_left _ (hclosed v hv heq p hp)
          · exact absurd (List.mem_singleton.1 hv) hne
        obtain ⟨hkeeps, hreaches, hstops⟩ :=
          ih (List.mem_append_right _ (List.mem_singleton.2 rfl)) hnodup' hlive' hclosed'
            (by rw [List.length_append, List.length_singleton]; omega)
        refine ⟨fun v hv => hkeeps v (List.mem_append_left _ hv), fun v hv => ?_, hstops⟩
        rcases hreaches v hv with hv | hv
        · rcases List.mem_append.1 hv with hv | hv
          · exact .inl hv
          · rw [List.mem_singleton.1 hv]
            exact .inr (.single ⟨hparent, hnew.1⟩)
        · exact .inr (.head ⟨hparent, hnew.1⟩ hv)
      · rename_i hold
        simp only [Bool.and_eq_true, decide_eq_true_eq, not_and, not_not] at hold
        refine ⟨fun v hv => hv, fun v hv => .inl hv, fun v hv p hp => ?_⟩
        by_cases heq : v = id
        · rw [heq] at hp
          obtain rfl := Option.some.inj (hparent.symm.trans hp.1)
          exact hold hp.2
        · exact hclosed v hv heq p hp

/-- The ancestors of a folder are the live folders whose tree it belongs to. -/
theorem mem_ancestors {folderId : String} :
    id ∈ s.ancestors folderId ↔
      id ∈ s.liveFolderIds ∧ folderId ∈ s.liveFolderIds ∧ folderId ∈ s.tree id := by
  unfold ancestors
  split
  · rename_i hlive
    have hcard : s.liveFolderIds.card ≤ s.folders.keys.length :=
      (Finset.card_le_card liveFolderIds_subset).trans (List.toFinset_card_le _)
    have hrounds : s.liveFolderIds.card < [folderId].length + s.folders.keys.length := by
      rw [List.length_singleton]
      omega
    obtain ⟨hkeeps, hreaches, hstops⟩ := climb_spec (List.mem_singleton.2 rfl) (by simp)
      (by simpa using hlive) (fun v hv hne => absurd (List.mem_singleton.1 hv) hne) hrounds
    have hstart := hkeeps folderId (List.mem_singleton.2 rfl)
    constructor
    · intro hid
      have hpath : ReflTransGen (LiveStep s) folderId id := by
        rcases hreaches id hid with hid | hpath
        · rw [List.mem_singleton.1 hid]
        · exact hpath
      have hup : folderId ∈ s.tree id ∧ id ∈ s.liveFolderIds := by
        clear hid
        induction hpath with
        | refl => exact ⟨self_mem_subtree, hlive⟩
        | tail _ hstep ih =>
          exact ⟨mem_subtree_trans (child_mem_subtree (mem_children.2 ⟨ih.2, hstep.1⟩)) ih.1, hstep.2⟩
      exact ⟨hup.2, hlive, hup.1⟩
    · rintro ⟨hid, -, htree⟩
      have hpath := mem_subtree.1 htree
      clear htree
      -- each folder on the way up is live, as the next step or the end shows
      induction hpath with
      | refl => exact hstart
      | tail _ hstep ih => exact hstops _ (ih hstep.1) _ ⟨hstep.2, hid⟩
  · rename_i hlive
    exact ⟨fun h => absurd h (List.not_mem_nil), fun h => absurd h.2.1 hlive⟩

/-! ## Deltas -/

/-- Where only the bytes in some folders have changed, the deltas make the totals exact again. -/
theorem exact_applyFolderSizeDeltas
    (hexact : ∀ id ∈ s.folderIds, s.treeSizeOf id = s.recount id) (hsame : SameFolders s s')
    (hsize : ∀ id, s'.treeSizeOf id = s.treeSizeOf id)
    (hbytes : ∀ id ∈ s.folderIds, (s'.directBytes id : Int) = s.directBytes id + bytes id)
    (hchanged : ∀ id, id ∉ changed → bytes id = 0) :
    (s'.applyFolderSizeDeltas changed bytes).Exact := by
  refine exact_storeTotals (fun id hid _ => ?_) fun id hid hnot => absurd hid hnot
  rw [hsame.ids] at hid
  dsimp only
  rw [hsize, hexact id hid, ← Finset.sum_filter]
  by_cases hlive : id ∈ s'.liveFolderIds
  · have hlive₀ : id ∈ s.liveFolderIds := hsame.live ▸ hlive
    have htree : ∀ folderId ∈ s.tree id, folderId ∈ s.liveFolderIds :=
      fun folderId hmem => mem_live_of_mem_subtree hlive₀ hmem
    have hdeltas : ∑ folderId ∈ (changed.filter fun folderId => bytes folderId ≠ 0).filter
        (fun folderId => id ∈ s'.ancestors folderId), bytes folderId =
        ∑ folderId ∈ s.tree id, bytes folderId := by
      refine Finset.sum_subset (fun folderId hmem => ?_) fun folderId hmem hnot => ?_
      · have hup := mem_ancestors.1 (Finset.mem_filter.1 hmem).2
        exact hsame.tree ▸ hup.2.2
      · by_contra hne
        have hup : id ∈ s'.ancestors folderId :=
          mem_ancestors.2 ⟨hlive, hsame.live ▸ htree folderId hmem, hsame.tree ▸ hmem⟩
        have hmem : folderId ∈ changed := by
          by_contra hno
          exact hne (hchanged folderId hno)
        exact hnot (Finset.mem_filter.2 ⟨Finset.mem_filter.2 ⟨hmem, hne⟩, hup⟩)
    rw [hdeltas]
    unfold recount
    rw [if_pos hlive₀, if_pos hlive, hsame.tree, ← Finset.sum_add_distrib]
    exact Finset.sum_congr rfl fun folderId hmem =>
      (hbytes folderId (liveFolderIds_subset (htree folderId hmem))).symm
  · have hnone : (changed.filter fun folderId => bytes folderId ≠ 0).filter
        (fun folderId => id ∈ s'.ancestors folderId) = ∅ :=
      Finset.filter_false_of_mem fun folderId _ hup => hlive (mem_ancestors.1 hup).1
    unfold recount
    rw [hnone, Finset.sum_empty, if_neg hlive, if_neg fun h => hlive (hsame.live ▸ h), add_zero]

theorem bytesIn_eq_zero {file : File} (h : file.folderId ≠ some id) : file.bytesIn id = 0 := by
  refine if_neg fun hin => h ?_
  simp only [Bool.and_eq_true, decide_eq_true_eq] at hin
  exact hin.2

theorem sum_bytesIn_of_notMem {files : OrderedMap String File} (h : id ∉ foldersOf files) :
    files.sum (·.bytesIn id) = 0 := by
  refine OrderedMap.sum_eq_zero fun fileId file hget => bytesIn_eq_zero fun hfolder => h ?_
  exact List.mem_toFinset.2
    (List.mem_filterMap.2 ⟨_, (OrderedMap.get_eq_some_iff _ _ _).1 hget, hfolder⟩)

/-- The trigger of a statement on files. -/
theorem exact_updateFileFolderSizes {oldFiles newFiles : OrderedMap String File}
    (hexact : ∀ id ∈ s.folderIds, s.treeSizeOf id = s.recount id) (hsame : SameFolders s s')
    (hsize : ∀ id, s'.treeSizeOf id = s.treeSizeOf id)
    (hbytes : ∀ id ∈ s.folderIds, s'.directBytes id + oldFiles.sum (·.bytesIn id) =
      s.directBytes id + newFiles.sum (·.bytesIn id)) :
    (s'.updateFileFolderSizes oldFiles newFiles).Exact := by
  refine exact_applyFolderSizeDeltas hexact hsame hsize (fun id hid => ?_) fun id hid => ?_
  · have hsum := hbytes id hid
    omega
  · rw [Finset.mem_union, not_or] at hid
    rw [sum_bytesIn_of_notMem hid.1, sum_bytesIn_of_notMem hid.2]
    rfl

/-! ## Statements on files -/

/-- The invariant of the tables. -/
structure Sound (s : Tables) : Prop where
  linked : s.Linked
  exact : ∀ id ∈ s.folderIds, s.treeSizeOf id = s.recount id

theorem sound_of_exact (hlinked : s.Linked) (hexact : s.Exact) : s.Sound :=
  ⟨hlinked, exact_iff.1 hexact⟩

theorem Linked.applyFolderSizeDeltas (h : s.Linked) :
    (s.applyFolderSizeDeltas changed bytes).Linked :=
  h.storeTotals

theorem Sound.insertFiles {rows : OrderedMap String File} (hs : s.Sound)
    (hnew : ∀ id, rows.has id = true → s.files.get id = none)
    (hlinked : ({ s with files := s.files.writeAll rows } : Tables).Linked) :
    (({ s with files := s.files.writeAll rows } : Tables).addFileFolderSizes rows).Sound := by
  refine sound_of_exact hlinked.applyFolderSizeDeltas
    (exact_updateFileFolderSizes hs.exact (sameFolders_of_eq rfl) (fun _ => rfl) fun id _ => ?_)
  have hsum := OrderedMap.sum_writeAll (f := fun file => file.bytesIn id) hnew
  exact hsum

theorem Sound.deleteFiles {ids : Finset String} (hs : s.Sound) :
    (({ s with files := s.files.filterKeys (· ∉ ids) } : Tables).removeFileFolderSizes
      (s.files.filterKeys (· ∈ ids))).Sound := by
  have hlinked : ({ s with files := s.files.filterKeys (· ∉ ids) } : Tables).Linked := by
    refine ⟨hs.linked.parents, fun id file p hget hp => ?_⟩
    rw [OrderedMap.get_filterKeys] at hget
    obtain ⟨-, hget⟩ := Option.ite_none_right_eq_some.1 hget
    exact hs.linked.files id file p hget hp
  refine sound_of_exact hlinked.applyFolderSizeDeltas
    (exact_updateFileFolderSizes hs.exact (sameFolders_of_eq rfl) (fun _ => rfl) fun id _ => ?_)
  have hsum := OrderedMap.sum_filterKeys (m := s.files) (f := fun file => file.bytesIn id)
    fun id => decide (id ∈ ids)
  simp only [← decide_not] at hsum
  exact (Nat.add_comm _ _).trans hsum

/-- The rows that an update writes, before and after. -/
theorem sum_updateFiles {rows : OrderedMap String File} (f : File → Nat) :
    (s.updateFiles rows).files.sum f + (s.files.filterKeys (rows.has ·)).sum f =
      s.files.sum f + ((s.updateFiles rows).files.filterKeys (rows.has ·)).sum f := by
  have hold := OrderedMap.sum_filterKeys (m := s.files) (f := f) (rows.has ·)
  have hnew := OrderedMap.sum_filterKeys (m := (s.updateFiles rows).files) (f := f) (rows.has ·)
  have hothers : ((s.updateFiles rows).files.filterKeys fun id => !rows.has id).sum f =
      (s.files.filterKeys fun id => !rows.has id).sum f := by
    show ((s.files.mapValues fun id file => (rows.get id).getD file).filterKeys _).sum f = _
    refine OrderedMap.sum_filterKeys_mapValues fun id file hid => ?_
    rw [(OrderedMap.has_eq_false_iff rows id).1 (by simpa using hid)]
    rfl
  omega

theorem Sound.updateFiles {rows : OrderedMap String File} (hs : s.Sound)
    (hlinked : (s.updateFiles rows).Linked) :
    ((s.updateFiles rows).updateFileFolderSizes (s.files.filterKeys (rows.has ·))
      ((s.updateFiles rows).files.filterKeys (rows.has ·))).Sound :=
  sound_of_exact hlinked.applyFolderSizeDeltas
    (exact_updateFileFolderSizes hs.exact (sameFolders_of_eq rfl) (fun _ => rfl) fun _ _ => sum_updateFiles _)

end Tables

end Staaash.Folders
