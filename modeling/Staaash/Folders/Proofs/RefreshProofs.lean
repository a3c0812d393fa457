import Staaash.Folders.Proofs.TablesProofs

/-!
# Proofs: the scoped refresh

The targets are closed upwards, by the parents of before and by the current ones, so a folder outside
has the tree that it had. Of a target the bytes apart from the other targets are known, either from its
old total or, where that has been no sum of its parts, from the files; the new totals follow from them.
-/

namespace Staaash.Folders

open Staaash.Library Relation

variable {r : Refresh} {old : Tables} {id p x : String}

namespace Refresh

theorem mem_parents :
    p ∈ r.parents id ↔ (r.beforeNodes.get id).bind (·.parentId) = some p ∨
      r.current.parentOf id = some p := by
  unfold parents
  rw [Finset.mem_union, Option.mem_toFinset, Option.mem_toFinset, Option.mem_def, Option.mem_def]

theorem mem_targets :
    id ∈ r.targets ↔ ∃ x ∈ r.changedIds, ReflTransGen (fun x y => y ∈ r.parents x) x id := by
  let named (rows : OrderedMap String Folder) : Finset String :=
    (rows.entries.filterMap fun e => e.2.parentId).toFinset
  have hcard : ∀ rows, (named rows).card ≤ rows.keys.length := by
    intro rows
    refine (List.toFinset_card_le _).trans ((List.length_filterMap_le _ _).trans ?_)
    exact Nat.le_of_eq (List.length_map _).symm
  have hnamed : ∀ {rows : OrderedMap String Folder} {x y},
      (rows.get x).bind (·.parentId) = some y → y ∈ named rows := by
    intro rows x y h
    obtain ⟨folder, hget, hparent⟩ := Option.bind_eq_some_iff.1 h
    exact List.mem_toFinset.2 (List.mem_filterMap.2
      ⟨(x, folder), (OrderedMap.get_eq_some_iff _ _ _).1 hget, hparent⟩)
  have hdom : ∀ x, r.parents x ⊆ named r.beforeNodes ∪ named r.current.folders := by
    intro x y hy
    rcases mem_parents.1 hy with h | h
    · exact Finset.mem_union_left _ (hnamed h)
    · exact Finset.mem_union_right _ (hnamed h)
  refine mem_saturate hdom ?_
  exact (Finset.card_union_le _ _).trans (Nat.add_le_add (hcard _) (hcard _))

theorem changedIds_subset : r.changedIds ⊆ r.targets :=
  fun x hx => mem_targets.2 ⟨x, hx, .refl⟩

theorem mem_targets_of_parent (hid : id ∈ r.targets) (hp : p ∈ r.parents id) : p ∈ r.targets := by
  obtain ⟨x, hx, hpath⟩ := mem_targets.1 hid
  exact mem_targets.2 ⟨x, hx, hpath.tail hp⟩

theorem closedUp_current : ClosedUp r.current.liveFolderIds r.current.parentOf r.targets :=
  fun _ _ hx _ _ hp => mem_targets_of_parent hx (mem_parents.2 (.inr hp))

theorem snapshot_of_mem (h : id ∈ r.targets) :
    r.snapshot id = (r.beforeNodes.get id).or (r.current.folders.get id) := if_pos h

theorem mem_snapshotLive :
    id ∈ r.snapshotLive ↔ id ∈ r.targets ∧ ∃ row, r.snapshot id = some row ∧ row.deletedAt = none := by
  unfold snapshotLive
  rw [Finset.mem_filter, Option.any_eq_true]
  simp only [decide_eq_true_eq]

theorem mem_oldCycles : x ∈ r.oldCycles ↔ x ∈ r.snapshotLive ∧
    OnCycle r.snapshotLive r.snapshotParent x := by
  unfold oldCycles OnCycle oldReach
  rw [Finset.mem_filter, Option.any_eq_true]
  simp only [decide_eq_true_eq]

/-- The refresh stores exact totals, if those outside are exact and the base of a target is right. -/
theorem exact_run
    (houtside : ∀ id ∈ r.current.folderIds, id ∉ r.targets →
      r.current.treeSizeOf id = r.current.recount id)
    (hbase : ∀ id ∈ r.current.liveFolderIds, id ∈ r.targets →
      r.base id = r.current.directBytes id + r.outsideChildren id) : r.run.Exact := by
  unfold run
  split
  · rename_i hempty
    refine Tables.exact_iff.2 fun id hid => houtside id hid fun hmem => ?_
    obtain ⟨x, hx, -⟩ := mem_targets.1 hmem
    rw [hempty] at hx
    exact absurd hx (Finset.notMem_empty x)
  · refine Tables.exact_storeTotals (fun id _ hmem => ?_) houtside
    unfold total
    by_cases hlive : id ∈ r.current.liveFolderIds
    · rw [if_pos (Finset.mem_inter.2 ⟨hlive, hmem⟩), Tables.recount_of_live hlive,
        closedUp_current.treeSum_eq hmem]
      refine Finset.sum_congr rfl fun y hy => ?_
      obtain ⟨hy, hyT⟩ := (closedUp_current.mem_subtree_inter_iff hmem).1 hy
      rw [hbase y (mem_live_of_mem_subtree hlive hy) hyT]
      congr 1
      refine Finset.sum_congr rfl fun c hc => ?_
      obtain ⟨hc, hcT, -⟩ := mem_outside.1 hc
      rw [houtside c (Tables.liveFolderIds_subset hc) hcT, Tables.recount_of_live hc]
    · rw [if_neg fun h => hlive (Finset.mem_inter.1 h).1]
      exact (if_neg hlive).symm

/-- What a refresh relies on: the tables before had exact totals, and differ from the current ones only
in rows that the refresh knows of. -/
structure Follows (old : Tables) (r : Refresh) : Prop where
  exact : ∀ id ∈ old.folderIds, old.treeSizeOf id = old.recount id
  ids : r.current.folderIds ⊆ old.folderIds
  sizes : ∀ id ∈ r.current.folderIds, r.current.treeSizeOf id = old.treeSizeOf id
  bytes : ∀ id ∈ r.current.folderIds, r.current.directBytes id = old.directBytes id
  closed : ClosedUp old.liveFolderIds old.parentOf r.targets
  live : ∀ c ∉ r.targets, c ∈ r.current.liveFolderIds ↔ c ∈ old.liveFolderIds
  parents : ∀ c ∉ r.targets, ∀ z, z ∈ r.current.folderIds ∨ z ∉ r.targets →
    (r.current.parentOf c = some z ↔ old.parentOf c = some z)
  snapshotLive : ∀ c ∈ r.targets, c ∈ r.snapshotLive ↔ c ∈ old.liveFolderIds
  snapshotParents : ∀ c ∈ r.targets, ∀ z ∈ r.current.folderIds,
    r.snapshotParent c = some z ↔ old.parentOf c = some z
  snapshotBytes : ∀ c ∈ r.targets, c ∈ old.liveFolderIds → r.snapshotBytes c = old.treeSizeOf c
  /-- A parent that is gone did not lie below the folder it was the parent of. -/
  apart : ∀ c ∈ old.liveFolderIds, c ∈ r.current.folderIds → ∀ z, old.parentOf c = some z →
    z ∈ old.tree c → z ∈ r.current.folderIds

namespace Follows

variable (h : Follows old r)

include h

theorem tree_of_notMem (hid : id ∈ old.liveFolderIds) (hT : id ∉ r.targets) :
    r.current.tree id = old.tree id := by
  have hlive := (h.live id hT).2 hid
  refine (subtree_congr (T := r.targets) (fun y z hy hz => ?_) (fun y hy hyT => ?_)
    fun y hy hyT => ?_).symm
  · rw [h.live y hy, h.parents y hy z (.inr hz)]
  · exact hT (h.closed.mem_of_mem_subtree hid hy hyT)
  · exact hT (closedUp_current.mem_of_mem_subtree hlive hy hyT)

/-- The folders outside have exact totals. -/
theorem outside (hid : id ∈ r.current.folderIds) (hT : id ∉ r.targets) :
    r.current.treeSizeOf id = r.current.recount id := by
  rw [h.sizes id hid, h.exact id (h.ids hid)]
  unfold Tables.recount
  by_cases hlive : id ∈ old.liveFolderIds
  · have hlive' := (h.live id hT).2 hlive
    rw [if_pos hlive, if_pos hlive', h.tree_of_notMem hlive hT]
    refine Finset.sum_congr rfl fun y hy => ?_
    have hy' : y ∈ r.current.liveFolderIds :=
      mem_live_of_mem_subtree hlive' (h.tree_of_notMem hlive hT ▸ hy)
    rw [h.bytes y (Tables.liveFolderIds_subset hy')]
  · rw [if_neg hlive, if_neg fun hlive' => hlive ((h.live id hT).1 hlive')]

/-- A target that was on a cycle is on one in the snapshot. -/
theorem onCycle (hx : x ∈ old.liveFolderIds) (hxT : x ∈ r.targets) (hid : x ∈ r.current.folderIds)
    (hcycle : OnCycle old.liveFolderIds old.parentOf x) : x ∈ r.oldCycles := by
  obtain ⟨z, hz, hmem⟩ := hcycle
  have hzx : x ∈ old.tree z := child_mem_subtree (mem_children.2 ⟨hx, hz⟩)
  have hgone := h.apart x hx hid z hz hmem
  -- going up from `z` to `x` and round again, every folder is still there
  have hthere : ∀ v, v ∈ old.tree x → z ∈ old.tree v → v ∈ r.current.folderIds := by
    intro v hvx hzv
    have hup := mem_subtree.1 hzv
    clear hzv
    induction hup with
    | refl => exact hgone
    | @tail v u hzv hstep ih =>
      refine h.apart v hstep.1 (ih (mem_subtree.2 (.head hstep (mem_subtree.1 hvx)))) u hstep.2 ?_
      exact mem_subtree_trans (mem_subtree_trans (mem_subtree.2 hzv) hzx) hvx
  refine mem_oldCycles.2 ⟨(h.snapshotLive x hxT).2 hx, z, (h.snapshotParents x hxT z hgone).2 hz, ?_⟩
  have hpath : ∀ v, v ∈ old.tree x → z ∈ old.tree v →
      v ∈ subtree r.snapshotLive r.snapshotParent x := by
    intro v hvx
    rw [mem_subtree]
    have hup := mem_subtree.1 hvx
    clear hvx
    induction hup using ReflTransGen.head_induction_on with
    | refl => exact fun _ => .refl
    | @head v u hstep hux ih =>
      intro hzv
      have hzu : z ∈ old.tree u := mem_subtree_trans (child_mem_subtree (mem_children.2 hstep)) hzv
      have hvT : v ∈ r.targets := h.closed.mem_of_mem_subtree hstep.1 (mem_subtree_trans hzv hzx) hxT
      have hu := hthere u (mem_subtree.2 hux) hzu
      exact .head ⟨(h.snapshotLive v hvT).2 hstep.1, (h.snapshotParents v hvT u hu).2 hstep.2⟩ (ih hzu)
  exact hpath z hmem self_mem_subtree

/-- The base of a target is what its files weigh, and its children outside. -/
theorem base_eq (hx : x ∈ r.current.liveFolderIds) (hxT : x ∈ r.targets) :
    r.base x = r.current.directBytes x + r.outsideChildren x := by
  unfold base
  split
  · rfl
  · rename_i hdirect
    have hid := Tables.liveFolderIds_subset hx
    have hnot : ¬ ((r.snapshot x).any (fun before => before.deletedAt ≠ none) ||
        x ∈ r.oldCycles || r.needsScan) = true :=
      fun hin => hdirect (Finset.mem_filter.2 ⟨Finset.mem_inter.2 ⟨hx, hxT⟩, hin⟩)
    simp only [Bool.or_eq_true, decide_eq_true_eq, not_or] at hnot
    have hsnapshot : x ∈ r.snapshotLive := by
      obtain ⟨row, hget⟩ : ∃ row, r.snapshot x = some row := by
        rw [snapshot_of_mem hxT]
        obtain ⟨folder, hget, -⟩ := Tables.mem_liveFolderIds.1 hx
        cases r.beforeNodes.get x with
        | none => exact ⟨folder, hget⟩
        | some before => exact ⟨before, rfl⟩
      refine mem_snapshotLive.2 ⟨hxT, row, hget, ?_⟩
      by_contra hdeleted
      exact hnot.1.1 (by rw [hget]; simpa using hdeleted)
    have hold := (h.snapshotLive x hxT).1 hsnapshot
    have hacyclic : ¬ OnCycle old.liveFolderIds old.parentOf x :=
      fun hcycle => hnot.1.2 (h.onCycle hold hxT hid hcycle)
    have hsize : ∀ c ∈ old.liveFolderIds, old.treeSizeOf c =
        treeSum old.liveFolderIds old.parentOf (fun id => (old.directBytes id : Int)) c :=
      fun c hc => (h.exact c (Tables.liveFolderIds_subset hc)).trans (Tables.recount_of_live hc)
    have hinside : children r.snapshotLive r.snapshotParent x =
        (children old.liveFolderIds old.parentOf x).filter (· ∈ r.targets) := by
      refine Finset.ext fun c => ?_
      rw [Finset.mem_filter, mem_children, mem_children]
      constructor
      · rintro ⟨hc, hparent⟩
        have hcT := (mem_snapshotLive.1 hc).1
        exact ⟨⟨(h.snapshotLive c hcT).1 hc, (h.snapshotParents c hcT x hid).1 hparent⟩, hcT⟩
      · rintro ⟨⟨hc, hparent⟩, hcT⟩
        exact ⟨(h.snapshotLive c hcT).2 hc, (h.snapshotParents c hcT x hid).2 hparent⟩
    have houtside : children (r.current.liveFolderIds \ r.targets) r.current.parentOf x =
        (children old.liveFolderIds old.parentOf x).filter (· ∉ r.targets) := by
      refine Finset.ext fun c => ?_
      rw [Finset.mem_filter, mem_outside, mem_children]
      constructor
      · rintro ⟨hc, hcT, hparent⟩
        exact ⟨⟨(h.live c hcT).1 hc, (h.parents c hcT x (.inl hid)).1 hparent⟩, hcT⟩
      · rintro ⟨⟨hc, hparent⟩, hcT⟩
        exact ⟨(h.live c hcT).2 hc, hcT, (h.parents c hcT x (.inl hid)).2 hparent⟩
    have hinsideSum : r.oldChildren x =
        ∑ c ∈ (children old.liveFolderIds old.parentOf x).filter (· ∈ r.targets), old.treeSizeOf c := by
      unfold oldChildren
      rw [hinside]
      refine Finset.sum_congr rfl fun c hc => ?_
      obtain ⟨hc, hcT⟩ := Finset.mem_filter.1 hc
      exact h.snapshotBytes c hcT (mem_children.1 hc).1
    have houtsideSum : r.outsideChildren x =
        ∑ c ∈ (children old.liveFolderIds old.parentOf x).filter (· ∉ r.targets), old.treeSizeOf c := by
      unfold outsideChildren
      rw [houtside]
      refine Finset.sum_congr rfl fun c hc => h.sizes c ?_
      exact Tables.liveFolderIds_subset (mem_outside.1 (houtside ▸ hc)).1
    have hsplit := Finset.sum_filter_add_sum_filter_not
      (children old.liveFolderIds old.parentOf x) (· ∈ r.targets) old.treeSizeOf
    have hsum : old.treeSizeOf x = old.directBytes x +
        ∑ c ∈ children old.liveFolderIds old.parentOf x, old.treeSizeOf c := by
      rw [hsize x hold, treeSum_of_not_onCycle hacyclic]
      congr 1
      exact Finset.sum_congr rfl fun c hc => (hsize c (mem_children.1 hc).1).symm
    rw [h.snapshotBytes x hxT hold, hinsideSum, houtsideSum, h.bytes x hid]
    omega

theorem exact_run : r.run.Exact :=
  Refresh.exact_run (fun _ hid hT => h.outside hid hT) fun _ hx hxT => h.base_eq hx hxT

end Follows

end Refresh

end Staaash.Folders
