import Staaash.Folders.Dates
import Staaash.Folders.Proofs.StatementsProofs

/-!
# Proofs: dates follow the contents

The way up from a changed item may have changed with it. Its last step that did starts at a folder that the
same statement moved, trashed or deleted, so the trigger knows the parent of that folder, and from there the
way is what it was.
-/

namespace Staaash.Folders

open Relation
open Staaash.Library

/-! ## Dates -/

theorem timestamp3_mono {t t' : Nat} (h : t ≤ t') : timestamp3 t ≤ timestamp3 t' := by
  unfold timestamp3
  omega

theorem timestamp3_millis (date : Nat) : timestamp3 (1000 * date) = date := by
  unfold timestamp3
  omega

theorem le_greatest (date now : Nat) : date ≤ greatest date now := by
  have h := timestamp3_mono (Nat.le_max_left (1000 * date) now)
  rwa [timestamp3_millis] at h

theorem timestamp3_le_greatest (date now : Nat) : timestamp3 now ≤ greatest date now :=
  timestamp3_mono (Nat.le_max_right _ _)

theorem greatest_eq_max (date now : Nat) : greatest date now = max date (timestamp3 now) := by
  unfold greatest timestamp3
  omega

theorem greatest_greatest (date now : Nat) : greatest (greatest date now) now = greatest date now := by
  simp only [greatest_eq_max]
  omega

namespace DatedTables

variable {s s' mid : DatedTables} {id folderId : String} {now : Nat} {touched touched' : String → Prop}

/-! ## The tables of the sizes -/

theorem get_tables : s.tables.folders.get id = (s.folders.get id).map (·.toFolder) := OrderedMap.get_mapValues _ _ _

theorem mem_live : id ∈ s.tables.liveFolderIds ↔ ∃ folder, s.folders.get id = some folder ∧ folder.deletedAt = none := by
  rw [Tables.mem_liveFolderIds]
  simp only [get_tables, Option.map_eq_some_iff]
  constructor
  · rintro ⟨_, ⟨folder, hget, rfl⟩, hlive⟩
    exact ⟨folder, hget, hlive⟩
  · rintro ⟨folder, hget, hlive⟩
    exact ⟨_, ⟨folder, hget, rfl⟩, hlive⟩

theorem parentOf_eq_some {p : String} : s.tables.parentOf id = some p ↔
    ∃ folder, s.folders.get id = some folder ∧ folder.parentId = some p := by
  rw [Tables.parentOf_eq_some]
  simp only [get_tables, Option.map_eq_some_iff]
  constructor
  · rintro ⟨_, ⟨folder, hget, rfl⟩, hparent⟩
    exact ⟨folder, hget, hparent⟩
  · rintro ⟨folder, hget, hparent⟩
    exact ⟨_, ⟨folder, hget, rfl⟩, hparent⟩

/-! ## The way up before and after -/

/-- A way up is still there, or its part after some altered folder is. -/
theorem tree_or_altered (s' : DatedTables) (h : folderId ∈ s.tables.tree id) : folderId ∈ s'.tables.tree id ∨
    ∃ q, s.Altered s' q ∧ q ∈ s.tables.tree id ∧ q ∈ s'.tables.tree id := by
  have hpath := mem_subtree.1 h
  clear h
  induction hpath using ReflTransGen.head_induction_on with
  | refl => exact .inl self_mem_subtree
  | @head x y hstep hpath ih =>
    rcases ih with hkept | hfound
    · obtain ⟨folder, hget, hlive⟩ := mem_live.1 hstep.1
      obtain ⟨folder', hget', hparent⟩ := parentOf_eq_some.1 hstep.2
      obtain rfl := Option.some.inj (hget'.symm.trans hget)
      by_cases hsame : ∃ after, s'.folders.get x = some after ∧
          folderPlacement.columns after = folderPlacement.columns folder'
      · obtain ⟨after, hafter, hcolumns⟩ := hsame
        simp only [folderPlacement, Prod.mk.injEq] at hcolumns
        have hchild : x ∈ children s'.tables.liveFolderIds s'.tables.parentOf y :=
          mem_children.2 ⟨mem_live.2 ⟨after, hafter, hcolumns.2.2.trans hlive⟩,
            parentOf_eq_some.2 ⟨after, hafter, hcolumns.1.trans hparent⟩⟩
        exact .inl (mem_subtree_trans hkept (child_mem_subtree hchild))
      · refine .inr ⟨y, .inl ⟨x, folder', hget, decide_eq_true hlive, hparent, fun after hafter heq => ?_⟩,
          mem_subtree.2 hpath, hkept⟩
        exact hsame ⟨after, hafter, heq⟩
    · exact .inr hfound

/-- The folders that are touched are the live ones whose contents have changed. -/
theorem touched_iff : (∃ folderId, (s.Altered mid folderId ∨ mid.Altered s folderId) ∧
      id ∈ mid.tables.ancestors folderId) ↔
    id ∈ mid.tables.liveFolderIds ∧ s.ContentsChanged mid id := by
  constructor
  · rintro ⟨folderId, haltered, hup⟩
    obtain ⟨hlive, -, htree⟩ := Tables.mem_ancestors.1 hup
    refine ⟨hlive, ?_⟩
    rcases haltered with haltered | haltered
    · rcases tree_or_altered s htree with hbefore | ⟨q, hq, htree, -⟩
      · exact .inl ⟨folderId, hbefore, haltered⟩
      · exact .inr ⟨q, htree, hq⟩
    · exact .inr ⟨folderId, htree, haltered⟩
  · rintro ⟨hlive, hchanged⟩
    have hup : ∀ {folderId}, folderId ∈ mid.tables.tree id → id ∈ mid.tables.ancestors folderId := fun htree =>
      Tables.mem_ancestors.2 ⟨hlive, mem_live_of_mem_subtree hlive htree, htree⟩
    rcases hchanged with ⟨folderId, htree, haltered⟩ | ⟨folderId, htree, haltered⟩
    · rcases tree_or_altered mid htree with hafter | ⟨q, hq, -, hafter⟩
      · exact ⟨folderId, .inl haltered, hup hafter⟩
      · exact ⟨q, .inl hq, hup hafter⟩
    · exact ⟨folderId, .inr haltered, hup htree⟩

/-! ## What the triggers leave -/

/-- The rows are the same but for the dates of the folders that were touched, and for the totals. -/
structure Finished (s s' : DatedTables) (touched : String → Prop) (now : Nat) : Prop where
  files : s'.files = s.files
  rows : ∀ id, s'.folders.get id = none ↔ s.folders.get id = none
  columns : ∀ id folder folder', s.folders.get id = some folder → s'.folders.get id = some folder' →
    folderPlacement.columns folder' = folderPlacement.columns folder
  untouched : ∀ id folder folder', s.folders.get id = some folder → s'.folders.get id = some folder' →
    ¬ touched id → folder'.updatedAt = folder.updatedAt
  dated : ∀ id folder folder', s.folders.get id = some folder → s'.folders.get id = some folder' →
    touched id → folder'.updatedAt = greatest folder.updatedAt now

theorem Finished.exists_before {folder' : DatedFolder} (h : Finished s s' touched now)
    (hget : s'.folders.get id = some folder') : ∃ folder, s.folders.get id = some folder :=
  Option.ne_none_iff_exists'.1 fun hnone => by
    rw [(h.rows id).2 hnone] at hget
    cases hget

theorem Finished.exists_after {folder : DatedFolder} (h : Finished s s' touched now)
    (hget : s.folders.get id = some folder) : ∃ folder', s'.folders.get id = some folder' :=
  Option.ne_none_iff_exists'.1 fun hnone => by
    rw [(h.rows id).1 hnone] at hget
    cases hget

theorem columns_eq {folder folder' : DatedFolder} :
    folderPlacement.columns folder' = folderPlacement.columns folder ↔ folder'.parentId = folder.parentId ∧
      folder'.name = folder.name ∧ folder'.deletedAt = folder.deletedAt := by
  simp [folderPlacement]

theorem Finished.sameFolders (h : Finished s s' touched now) : Tables.SameFolders s.tables s'.tables where
  ids := by
    refine Finset.ext fun id => ?_
    rw [Tables.mem_folderIds, Tables.mem_folderIds, get_tables, get_tables, ← Option.ne_none_iff_exists',
      ← Option.ne_none_iff_exists', ne_eq, ne_eq, Option.map_eq_none_iff, Option.map_eq_none_iff, h.rows]
  live := by
    refine Finset.ext fun id => ?_
    rw [mem_live, mem_live]
    constructor
    · rintro ⟨folder', hget', hlive⟩
      obtain ⟨folder, hget⟩ := h.exists_before hget'
      exact ⟨folder, hget, (columns_eq.1 (h.columns id folder folder' hget hget')).2.2.symm.trans hlive⟩
    · rintro ⟨folder, hget, hlive⟩
      obtain ⟨folder', hget'⟩ := h.exists_after hget
      exact ⟨folder', hget', (columns_eq.1 (h.columns id folder folder' hget hget')).2.2.trans hlive⟩
  parents := by
    funext id
    refine Option.ext fun p => ?_
    rw [parentOf_eq_some, parentOf_eq_some]
    constructor
    · rintro ⟨folder', hget', hparent⟩
      obtain ⟨folder, hget⟩ := h.exists_before hget'
      exact ⟨folder, hget, (columns_eq.1 (h.columns id folder folder' hget hget')).1.symm.trans hparent⟩
    · rintro ⟨folder, hget, hparent⟩
      obtain ⟨folder', hget'⟩ := h.exists_after hget
      exact ⟨folder', hget', (columns_eq.1 (h.columns id folder folder' hget hget')).1.trans hparent⟩

theorem Finished.mem_ancestors (h : Finished s s' touched now) :
    id ∈ s'.tables.ancestors folderId ↔ id ∈ s.tables.ancestors folderId := by
  rw [Tables.mem_ancestors, Tables.mem_ancestors, h.sameFolders.live, h.sameFolders.tree]

/-- A second trigger dates the folders that the first one did not. -/
theorem Finished.trans (h : Finished s mid touched now) (h' : Finished mid s' touched' now) :
    Finished s s' (fun id => touched id ∨ touched' id) now where
  files := h'.files.trans h.files
  rows id := (h'.rows id).trans (h.rows id)
  columns id folder folder' hget hget' := by
    obtain ⟨between, hbetween⟩ := h.exists_after hget
    exact (h'.columns id between folder' hbetween hget').trans (h.columns id folder between hget hbetween)
  untouched id folder folder' hget hget' hnot := by
    obtain ⟨between, hbetween⟩ := h.exists_after hget
    exact (h'.untouched id between folder' hbetween hget' fun htouched => hnot (.inr htouched)).trans
      (h.untouched id folder between hget hbetween fun htouched => hnot (.inl htouched))
  dated id folder folder' hget hget' htouched := by
    obtain ⟨between, hbetween⟩ := h.exists_after hget
    by_cases hfirst : touched id
    · have hdate := h.dated id folder between hget hbetween hfirst
      by_cases hsecond : touched' id
      · rw [h'.dated id between folder' hbetween hget' hsecond, hdate, greatest_greatest]
      · rw [h'.untouched id between folder' hbetween hget' hsecond, hdate]
    · rw [h'.dated id between folder' hbetween hget' (htouched.resolve_left hfirst),
        h.untouched id folder between hget hbetween hfirst]

theorem get_touch (folderIds : Finset String) :
    (s.touchFolderAncestors folderIds now).folders.get id = (s.folders.get id).map fun folder =>
      if ∃ folderId ∈ folderIds, id ∈ s.tables.ancestors folderId then
        { folder with updatedAt := greatest folder.updatedAt now }
      else folder := OrderedMap.get_mapValues _ _ _

theorem finished_touch (folderIds : Finset String) : Finished s (s.touchFolderAncestors folderIds now)
    (fun id => ∃ folderId ∈ folderIds, id ∈ s.tables.ancestors folderId) now where
  files := rfl
  rows id := by rw [get_touch, Option.map_eq_none_iff]
  columns id folder folder' hget hget' := by
    rw [get_touch, hget, Option.map_some] at hget'
    obtain rfl := Option.some.inj hget'
    split <;> rfl
  untouched id folder folder' hget hget' hnot := by
    rw [get_touch, hget, Option.map_some, if_neg hnot] at hget'
    rw [← Option.some.inj hget']
  dated id folder folder' hget hget' htouched := by
    rw [get_touch, hget, Option.map_some, if_pos htouched] at hget'
    rw [← Option.some.inj hget']

theorem finished_storeSizes (sized : Tables) (now : Nat) :
    Finished s (s.storeSizes sized) (fun _ => False) now := by
  have hget : ∀ id, (s.storeSizes sized).folders.get id = (s.folders.get id).map fun folder =>
      { folder with treeSizeBytes := sized.treeSizeOf id } := fun id => OrderedMap.get_mapValues _ _ _
  refine ⟨rfl, fun id => ?_, fun id folder folder' h h' => ?_, fun id folder folder' h h' _ => ?_,
    fun id folder folder' h h' hno => hno.elim⟩
  · rw [hget, Option.map_eq_none_iff]
  · rw [hget, h, Option.map_some] at h'
    rw [← Option.some.inj h']
    rfl
  · rw [hget, h, Option.map_some] at h'
    rw [← Option.some.inj h']

theorem Finished.altered_right (h : Finished mid s' touched now) :
    s.Altered s' folderId ↔ s.Altered mid folderId := by
  unfold Altered
  rw [h.files]
  refine or_congr_left ⟨?_, ?_⟩
  · rintro ⟨id, folder, hget, hlive, hhome, hdiff⟩
    refine ⟨id, folder, hget, hlive, hhome, fun between hbetween heq => ?_⟩
    obtain ⟨folder', hget'⟩ := h.exists_after hbetween
    exact hdiff folder' hget' ((h.columns id between folder' hbetween hget').trans heq)
  · rintro ⟨id, folder, hget, hlive, hhome, hdiff⟩
    refine ⟨id, folder, hget, hlive, hhome, fun folder' hget' heq => ?_⟩
    obtain ⟨between, hbetween⟩ := h.exists_before hget'
    exact hdiff between hbetween ((h.columns id between folder' hbetween hget').symm.trans heq)

theorem Finished.altered_left (h : Finished mid s' touched now) :
    s'.Altered s folderId ↔ mid.Altered s folderId := by
  unfold Altered
  rw [h.files]
  refine or_congr_left ⟨?_, ?_⟩
  · rintro ⟨id, folder', hget', hlive, hhome, hdiff⟩
    obtain ⟨between, hbetween⟩ := h.exists_before hget'
    have hcolumns := h.columns id between folder' hbetween hget'
    obtain ⟨hparent, -, hdeleted⟩ := columns_eq.1 hcolumns
    refine ⟨id, between, hbetween, ?_, hparent.symm.trans hhome, fun before hbefore heq =>
      hdiff before hbefore (heq.trans hcolumns.symm)⟩
    exact decide_eq_true (hdeleted.symm.trans (of_decide_eq_true hlive))
  · rintro ⟨id, between, hbetween, hlive, hhome, hdiff⟩
    obtain ⟨folder', hget'⟩ := h.exists_after hbetween
    have hcolumns := h.columns id between folder' hbetween hget'
    obtain ⟨hparent, -, hdeleted⟩ := columns_eq.1 hcolumns
    refine ⟨id, folder', hget', ?_, hparent.trans hhome, fun before hbefore heq =>
      hdiff before hbefore (heq.trans hcolumns)⟩
    exact decide_eq_true (hdeleted.trans (of_decide_eq_true hlive))

theorem Finished.contentsChanged (h : Finished mid s' touched now) :
    s.ContentsChanged s' id ↔ s.ContentsChanged mid id := by
  unfold ContentsChanged
  simp only [h.altered_right, h.altered_left, h.sameFolders.tree]

/-- The rows of a statement before its triggers: a folder has its own date where it was renamed or moved. -/
def OwnDated (s mid : DatedTables) (now : Nat) : Prop :=
  ∀ id folder folder', s.folders.get id = some folder → mid.folders.get id = some folder' →
    folder'.updatedAt = if (folder'.parentId, folder'.name) ≠ (folder.parentId, folder.name) then
      greatest folder.updatedAt now else folder.updatedAt

theorem follows_of_finished (hown : OwnDated s mid now) (h : Finished mid s' touched now)
    (htouched : ∀ id, touched id ↔ ∃ folderId, (s.Altered mid folderId ∨ mid.Altered s folderId) ∧
      id ∈ mid.tables.ancestors folderId) : FollowsContents Reaches s s' now := by
  have hiff : ∀ id, touched id ↔ id ∈ mid.tables.liveFolderIds ∧ s.ContentsChanged s' id := fun id => by
    rw [htouched, touched_iff, h.contentsChanged]
  have hlive : ∀ {id between folder'}, mid.folders.get id = some between → s'.folders.get id = some folder' →
      (id ∈ mid.tables.liveFolderIds ↔ folder'.deletedAt = none) := fun {id between folder'} hbetween hget' => by
    rw [mem_live, (columns_eq.1 (h.columns id between folder' hbetween hget')).2.2]
    constructor
    · rintro ⟨folder, hget, hlive⟩
      obtain rfl := Option.some.inj (hbetween.symm.trans hget)
      exact hlive
    · exact fun hlive => ⟨between, hbetween, hlive⟩
  refine ⟨fun id folder folder' hget hget' => ?_, fun id folder' hget' hlive' hchanged => ?_,
    fun id folder folder' hget hget' hsame hnot => ?_⟩
  · obtain ⟨between, hbetween⟩ := h.exists_before hget'
    have hfirst : folder.updatedAt ≤ between.updatedAt := by
      rw [hown id folder between hget hbetween]
      split
      · exact le_greatest _ _
      · exact le_rfl
    by_cases ht : touched id
    · rw [h.dated id between folder' hbetween hget' ht]
      exact hfirst.trans (le_greatest _ _)
    · rw [h.untouched id between folder' hbetween hget' ht]
      exact hfirst
  · obtain ⟨between, hbetween⟩ := h.exists_before hget'
    rw [Reaches, h.dated id between folder' hbetween hget'
      ((hiff id).2 ⟨(hlive hbetween hget').2 hlive', hchanged⟩)]
    exact timestamp3_le_greatest _ _
  · obtain ⟨between, hbetween⟩ := h.exists_before hget'
    obtain ⟨hparent, hname, -⟩ := columns_eq.1 (h.columns id between folder' hbetween hget')
    rw [hparent, hname] at hsame
    rw [h.untouched id between folder' hbetween hget'
      fun ht => hnot (((hiff id).1 ht).imp_left (hlive hbetween hget').1),
      hown id folder between hget hbetween, if_neg (not_not.2 hsame)]

theorem Finished.touch {folderIds : Finset String} (ids : Finset String)
    (h : Finished s s' (fun id => ∃ folderId ∈ folderIds, id ∈ s.tables.ancestors folderId) now) :
    Finished s (s'.touchFolderAncestors ids now)
      (fun id => ∃ folderId ∈ folderIds ∪ ids, id ∈ s.tables.ancestors folderId) now := by
  have hunion : (fun id => (∃ folderId ∈ folderIds, id ∈ s.tables.ancestors folderId) ∨
      ∃ folderId ∈ ids, id ∈ s'.tables.ancestors folderId) =
      fun id => ∃ folderId ∈ folderIds ∪ ids, id ∈ s.tables.ancestors folderId := by
    funext id
    simp only [h.mem_ancestors, Finset.mem_union, or_and_right, exists_or]
  rw [← hunion]
  exact h.trans (finished_touch ids)

theorem follows_of_touched {folderIds : Finset String} (sized : Tables) (hown : OwnDated s mid now)
    (h : Finished mid s' (fun id => ∃ folderId ∈ folderIds, id ∈ mid.tables.ancestors folderId) now)
    (hids : ∀ folderId, folderId ∈ folderIds ↔ s.Altered mid folderId ∨ mid.Altered s folderId) :
    FollowsContents Reaches s (s'.storeSizes sized) now := by
  refine follows_of_finished hown (h.trans (finished_storeSizes sized now)) fun id => ?_
  simp only [hids, or_false]

/-! ## Statements -/

theorem altered_of_files (hfiles : mid.files = s.files) : (s.Altered mid folderId ∨ mid.Altered s folderId) ↔
    folderPlacement.Altered s.folders mid.folders folderId ∨
      folderPlacement.Altered mid.folders s.folders folderId := by
  unfold Altered
  rw [hfiles]
  simp only [RowPlacement.not_altered_self, or_false]

theorem altered_of_folders (hfolders : mid.folders = s.folders) :
    (s.Altered mid folderId ∨ mid.Altered s folderId) ↔
      filePlacement.Altered s.files mid.files folderId ∨ filePlacement.Altered mid.files s.files folderId := by
  unfold Altered
  rw [hfolders]
  simp only [RowPlacement.not_altered_self, false_or]

theorem ownDated_of_get (h : ∀ id folder folder', s.folders.get id = some folder →
    mid.folders.get id = some folder' → folder' = folder) : OwnDated s mid now := by
  intro id folder folder' hget hget'
  rw [h id folder folder' hget hget', if_neg (by simp)]

theorem ownDated_of_folders (h : mid.folders = s.folders) : OwnDated s mid now :=
  ownDated_of_get fun id folder folder' hget hget' => by
    rw [h, hget] at hget'
    exact (Option.some.inj hget').symm

theorem follows_insertFolders {rows : OrderedMap String NewFolder} (sized : Tables)
    (hfresh : ∀ id, rows.has id = true → s.folders.get id = none) :
    FollowsContents Reaches s ((s.insertFolders rows now).storeSizes sized) now := by
  have hfresh' : ∀ id, (rows.mapValues fun _ row => row.folder).has id = true → s.folders.get id = none := by
    intro id hhas
    refine hfresh id ?_
    rwa [OrderedMap.has, OrderedMap.get_mapValues, Option.isSome_map] at hhas
  refine follows_of_touched sized (ownDated_of_get fun id folder folder' hget hget' => ?_) (finished_touch _)
    fun folderId => ?_
  · rw [OrderedMap.get_writeAll] at hget'
    cases hnew : (rows.mapValues fun _ row => row.folder).get id with
    | none =>
      rw [hnew, Option.none_or, hget] at hget'
      exact (Option.some.inj hget').symm
    | some row =>
      rw [hfresh' id ((OrderedMap.has_iff _ _).2 ⟨row, hnew⟩)] at hget
      cases hget
  · refine Iff.trans ?_ (altered_of_files ?_).symm
    · exact RowPlacement.mem_touched_writeAll hfresh'
    · rfl

theorem folderOwnDate_columns (old new : DatedFolder) :
    folderPlacement.columns (folderOwnDate now old new) = folderPlacement.columns new := by
  unfold folderOwnDate
  split <;> rfl

theorem folderOwnDate_updatedAt (old new : DatedFolder) : (folderOwnDate now old new).updatedAt =
    if ((folderOwnDate now old new).parentId, (folderOwnDate now old new).name) ≠ (old.parentId, old.name) then
      greatest old.updatedAt now else old.updatedAt := by
  obtain ⟨hparent, hname, -⟩ := columns_eq.1 (@folderOwnDate_columns now old new)
  rw [hparent, hname]
  unfold folderOwnDate
  split <;> rfl

theorem follows_updateFolders {rows : OrderedMap String DatedColumns} (sized : Tables) :
    FollowsContents Reaches s ((s.updateFolders rows now).storeSizes sized) now := by
  refine follows_of_touched sized (fun id folder folder' hget hget' => ?_) (finished_touch _) fun folderId => ?_
  · rw [writeFolders, OrderedMap.get_mapValues, hget, Option.map_some] at hget'
    cases hrow : rows.get id with
    | none =>
      rw [hrow] at hget'
      rw [← Option.some.inj hget', if_neg (by simp)]
      rfl
    | some columns =>
      rw [hrow] at hget'
      rw [← Option.some.inj hget']
      exact folderOwnDate_updatedAt _ _
  · refine Iff.trans ?_ (altered_of_files ?_).symm
    · refine RowPlacement.mem_touched_mapValues fun id folder _ hno => ?_
      rw [(OrderedMap.has_eq_false_iff rows id).1 hno]
      rfl
    · rfl

theorem follows_insertFiles {rows : OrderedMap String DatedFile} (sized : Tables)
    (hfresh : ∀ id, rows.has id = true → s.files.get id = none) :
    FollowsContents Reaches s ((s.insertFiles rows now).storeSizes sized) now := by
  refine follows_of_touched sized ?_ (finished_touch _) fun folderId => ?_
  · exact ownDated_of_folders rfl
  · refine Iff.trans ?_ (altered_of_folders ?_).symm
    · exact RowPlacement.mem_touched_writeAll hfresh
    · rfl

theorem follows_updateFiles {rows : OrderedMap String DatedFile} (sized : Tables) :
    FollowsContents Reaches s ((s.updateFiles rows now).storeSizes sized) now := by
  refine follows_of_touched sized ?_ (finished_touch _) fun folderId => ?_
  · exact ownDated_of_folders rfl
  · refine Iff.trans ?_ (altered_of_folders ?_).symm
    · refine RowPlacement.mem_touched_mapValues fun id file _ hno => ?_
      rw [(OrderedMap.has_eq_false_iff rows id).1 hno]
      rfl
    · rfl

theorem follows_deleteFiles {ids : Finset String} (sized : Tables) :
    FollowsContents Reaches s ((s.deleteFiles ids now).storeSizes sized) now := by
  refine follows_of_touched sized ?_ (finished_touch _) fun folderId => ?_
  · exact ownDated_of_folders rfl
  · refine Iff.trans ?_ (altered_of_folders ?_).symm
    · exact RowPlacement.mem_touched_filterKeys fun id => by simp
    · rfl

/-! ## Deletes of folders -/

theorem filter_eq_self {parent : Option String} {kept : String → Bool} (h : ∀ p, parent = some p → kept p = true) :
    parent.filter kept = parent := by
  cases parent with
  | none => rfl
  | some p => rw [Option.filter, if_pos (h p rfl)]

theorem altered_removeFolders {ids : Finset String} :
    folderPlacement.Altered s.folders (s.removeFolders ids now).folders folderId ∨
        folderPlacement.Altered (s.removeFolders ids now).folders s.folders folderId ↔
      folderId ∈ folderPlacement.touched (.delete (s.folders.filterKeys (· ∈ ids))) ∨
        folderId ∈ folderPlacement.touched (.update (s.folders.filterKeys (· ∈ s.tables.unlinkedIds ids))
          ((s.removeFolders ids now).folders.filterKeys (· ∈ s.tables.unlinkedIds ids))) := by
  have hunlinked : ∀ {id}, id ∈ s.tables.unlinkedIds ids → id ∉ ids := fun hmem =>
    (Tables.mem_unlinkedIds.1 hmem).2.1
  have hkept : ∀ id row, (s.folders.filterKeys (· ∉ ids)).get id = some row →
      id ∉ ids ∧ s.folders.get id = some row := fun id row hget => by
    rw [OrderedMap.get_filterKeys] at hget
    split_ifs at hget with hid
    exact ⟨of_decide_eq_true hid, hget⟩
  have hsame : ∀ id, (s.folders.filterKeys (· ∉ ids)).get id = none ↔
      (s.removeFolders ids now).folders.get id = none := fun id => by
    rw [removeFolders, OrderedMap.get_mapValues, Option.map_eq_none_iff]
  rw [RowPlacement.altered_trans (fun id row hget => (hkept id row hget).2) hsame]
  refine or_congr (RowPlacement.mem_touched_filterKeys fun id => by simp).symm
    (RowPlacement.mem_touched_update hsame (fun id => ?_) (fun id => OrderedMap.get_filterKeys _ _ _)
      fun id row row' hno hget hget' => ?_).symm
  · rw [OrderedMap.get_filterKeys]
    split
    · rename_i hid
      rw [OrderedMap.get_filterKeys, if_pos (decide_eq_true (hunlinked (of_decide_eq_true hid)))]
    · rfl
  · obtain ⟨hid, hbefore⟩ := hkept id row hget
    rw [removeFolders, OrderedMap.get_mapValues, hget, Option.map_some] at hget'
    rw [← Option.some.inj hget', folderOwnDate_columns, eq_comm, columns_eq]
    refine ⟨filter_eq_self fun p hp => ?_, rfl, rfl⟩
    have hrow : id ∈ s.tables.folderIds := by
      rw [Tables.mem_folderIds, get_tables, hbefore]
      exact ⟨_, rfl⟩
    refine decide_eq_true fun hmem => of_decide_eq_false hno (Tables.mem_unlinkedIds.2 ⟨hrow, hid, p, ?_, hmem⟩)
    exact parentOf_eq_some.2 ⟨row, hbefore, hp⟩

theorem altered_removeFolders_files {ids : Finset String} :
    filePlacement.Altered s.files (s.removeFolders ids now).files folderId ∨
        filePlacement.Altered (s.removeFolders ids now).files s.files folderId ↔
      folderId ∈ filePlacement.touched (.update (s.files.filterKeys (· ∈ s.tables.unlinkedFileIds ids))
        ((s.removeFolders ids now).files.filterKeys (· ∈ s.tables.unlinkedFileIds ids))) := by
  refine (RowPlacement.mem_touched_mapValues fun id file hget hno => ?_).symm
  have hkept : file.folderId.filter (· ∉ ids) = file.folderId := by
    refine filter_eq_self fun p hp => decide_eq_true fun hmem => of_decide_eq_false hno ?_
    have hfile : s.tables.files.get id = some file.toFile := by
      show (s.files.mapValues _).get id = _
      rw [OrderedMap.get_mapValues, hget]
      rfl
    refine Finset.mem_filter.2 ⟨List.mem_toFinset.2 ((OrderedMap.mem_keys_iff _ _).2 ⟨_, hfile⟩), ?_⟩
    rw [hfile, Option.any_some, hp, Option.any_some]
    exact decide_eq_true hmem
  simp only [filePlacement, hkept]

theorem follows_deleteFolders {ids : Finset String} (sized : Tables) :
    FollowsContents Reaches s ((s.deleteFolders ids now).storeSizes sized) now := by
  refine follows_of_touched sized (fun id folder folder' hget hget' => ?_) (((finished_touch _).touch _).touch _)
    fun folderId => ?_
  · rw [removeFolders, OrderedMap.get_mapValues, OrderedMap.get_filterKeys, hget] at hget'
    split_ifs at hget'
    · rw [← Option.some.inj hget']
      exact folderOwnDate_updatedAt _ _
    · cases hget'
  · have hsplit : (s.Altered (s.removeFolders ids now) folderId ∨ (s.removeFolders ids now).Altered s folderId) ↔
        (folderPlacement.Altered s.folders (s.removeFolders ids now).folders folderId ∨
          folderPlacement.Altered (s.removeFolders ids now).folders s.folders folderId) ∨
        filePlacement.Altered s.files (s.removeFolders ids now).files folderId ∨
          filePlacement.Altered (s.removeFolders ids now).files s.files folderId := or_or_or_comm
    rw [hsplit, altered_removeFolders, altered_removeFolders_files, Finset.mem_union, Finset.mem_union]

/-! ## Runs -/

/-- An insert is refused where one of its keys is there. -/
theorem fresh_of_all {α β : Type} {rows : OrderedMap String α} {m : OrderedMap String β}
    (h : rows.keys.all (fun id => !m.has id) = true) (id : String) (hid : rows.has id = true) :
    m.get id = none := by
  obtain ⟨row, hrow⟩ := (OrderedMap.has_iff rows id).1 hid
  have hnot := List.all_eq_true.1 h id ((OrderedMap.mem_keys_iff rows id).2 ⟨row, hrow⟩)
  exact (OrderedMap.has_eq_false_iff m id).1 (by simpa using hnot)

theorem has_mapValues {α β : Type} {rows : OrderedMap String α} {f : String → α → β} :
    (rows.mapValues f).has id = rows.has id := by
  rw [OrderedMap.has, OrderedMap.get_mapValues, Option.isSome_map]
  rfl

theorem follows_act {statement : DatedStatement} (h : s.act now statement = some s') :
    FollowsContents Reaches s s' now := by
  obtain ⟨sized, hact, rfl⟩ := Option.map_eq_some_iff.1 h
  cases statement with
  | insertFolders rows =>
    simp only [DatedStatement.forSizes, Tables.act] at hact
    split_ifs at hact with hok
    refine follows_insertFolders sized fun id hid => ?_
    have hfresh := fresh_of_all (Bool.and_eq_true_iff.1 hok).1 id (has_mapValues.trans hid)
    rwa [get_tables, Option.map_eq_none_iff] at hfresh
  | updateFolders rows => exact follows_updateFolders sized
  | deleteFolders ids => exact follows_deleteFolders sized
  | insertFiles rows =>
    simp only [DatedStatement.forSizes, Tables.act] at hact
    split_ifs at hact with hok
    refine follows_insertFiles sized fun id hid => ?_
    have hfresh := fresh_of_all (Bool.and_eq_true_iff.1 hok).1 id (has_mapValues.trans hid)
    rwa [tables, OrderedMap.get_mapValues, Option.map_eq_none_iff] at hfresh
  | updateFiles rows => exact follows_updateFiles sized
  | deleteFiles ids => exact follows_deleteFiles sized

theorem follows_refl : FollowsContents Reaches s s now := by
  have hsame : ∀ folderId, ¬ s.Altered s folderId := fun folderId h =>
    h.elim RowPlacement.not_altered_self RowPlacement.not_altered_self
  refine ⟨fun id folder folder' hget hget' => ?_, fun id folder' _ _ hchanged => ?_,
    fun id folder folder' hget hget' _ _ => ?_⟩
  · rw [Option.some.inj (hget.symm.trans hget')]
  · rcases hchanged with ⟨folderId, -, h⟩ | ⟨folderId, -, h⟩
    · exact absurd h (hsame folderId)
    · exact absurd h (hsame folderId)
  · rw [Option.some.inj (hget.symm.trans hget')]

theorem follows_step (execution : Execution) : FollowsContents Reaches s (s.step execution) execution.now := by
  unfold step
  cases h : s.act execution.now execution.statement with
  | none => exact follows_refl
  | some s' => exact follows_act h

/-- After every statement of a run the dates follow the contents. -/
theorem run_datesFollow (s : DatedTables) (executions : List Execution) :
    RunMeets step (fun s execution => FollowsContents Reaches s (s.step execution) execution.now) s executions := by
  induction executions generalizing s with
  | nil => trivial
  | cons execution executions ih => exact ⟨follows_step execution, ih (s.step execution)⟩

/-- A drive with nothing in it. -/
def emptyDrive : DatedTables where
  folders := .ofList [("root", ⟨⟨none, none, true, 0⟩, "Files", none, none, 0⟩)]
  files := .empty

/-- An upload, 400 microseconds after a full millisecond. -/
def upload : Execution where
  statement := .insertFiles (.ofList [("a", ⟨⟨some "root", none, 5⟩, "a.txt", none, none, "text/plain"⟩)])
  now := 1800000000000400

/-- A date is stored as the nearest millisecond, which may be before the time of the statement. -/
theorem upload_dates_before : ¬ ∀ (s : DatedTables) (executions : List Execution),
    RunMeets step (fun s execution =>
      FollowsContents (fun date now => now ≤ 1000 * date) s (s.step execution) execution.now) s executions := by
  intro hall
  have hfile : (emptyDrive.step upload).files.get "a" =
      some ⟨⟨some "root", none, 5⟩, "a.txt", none, none, "text/plain"⟩ := by decide +kernel
  have hfolder : (emptyDrive.step upload).folders.get "root" =
      some ⟨⟨none, none, true, 5⟩, "Files", none, none, 1800000000000⟩ := by decide +kernel
  have haltered : (emptyDrive.step upload).Altered emptyDrive "root" :=
    .inr ⟨"a", _, hfile, rfl, rfl, fun row' hrow' => by cases hrow'⟩
  have hdates := (hall emptyDrive [upload]).1.dates "root" _ hfolder rfl (.inr ⟨"root", self_mem_subtree, haltered⟩)
  exact absurd hdates (by decide)

end DatedTables

end Staaash.Folders
