import Staaash.Chooser.FolderPicks
import Staaash.Library.Ascent
import Staaash.Library.Marks

/-!
# Folder picks mean what the ticks show

Every toggle keeps the marks where they change something, so that a folder is held by the nearest mark at or
above it and by no other.
-/

namespace Staaash.Chooser

open Relation
open Staaash.Library

variable {folders : List ServerFolder} {picks : Picks} {id x y : String}

theorem truthy_eq_some {o : Option String} {a : String} : truthy o = some a ↔ o = some a ∧ a ≠ "" := by
  unfold truthy
  rw [Option.filter_eq_some_iff, decide_eq_true_eq]

/-! ## The tree -/

theorem byId_eq_some (hforest : IsForest folders) {folder : ServerFolder} :
    (buildMoveTree folders).byId.get id = some folder ↔ folder ∈ folders ∧ folder.id = id := by
  show (OrderedMap.ofList (folders.map fun f => (f.id, f))).get id = some folder ↔ _
  constructor
  · intro h
    have hmem := OrderedMap.mem_of_get_ofList h
    obtain ⟨f, hf, heq⟩ := List.mem_map.1 hmem
    rw [Prod.mk.injEq] at heq
    exact ⟨heq.2 ▸ hf, heq.2 ▸ heq.1⟩
  · rintro ⟨hmem, rfl⟩
    exact OrderedMap.get_indexed_of_nodup hforest.ids hmem

theorem has_iff (hforest : IsForest folders) :
    (buildMoveTree folders).byId.has id = true ↔ ∃ folder ∈ folders, folder.id = id := by
  rw [OrderedMap.has_iff]
  constructor
  · rintro ⟨folder, hfolder⟩
    exact ⟨folder, (byId_eq_some hforest).1 hfolder⟩
  · rintro ⟨folder, hmem, hid⟩
    exact ⟨folder, (byId_eq_some hforest).2 ⟨hmem, hid⟩⟩

theorem ne_empty_of_has (hforest : IsForest folders) (h : (buildMoveTree folders).byId.has id = true) :
    id ≠ "" := by
  obtain ⟨folder, hmem, rfl⟩ := (has_iff hforest).1 h
  exact hforest.named folder hmem

theorem has_of_parentOf {tree : FolderTree} (h : (tree.parentOf x).isSome = true) :
    x ∈ tree.byId.keys := by
  obtain ⟨p, hp⟩ := Option.isSome_iff_exists.1 h
  unfold FolderTree.parentOf at hp
  obtain ⟨folder, hfolder, -⟩ := Option.bind_eq_some_iff.1 (truthy_eq_some.1 hp).1
  exact (tree.byId.mem_keys_iff x).2 ⟨folder, hfolder⟩

theorem finite_parentOf (tree : FolderTree) : {x | (tree.parentOf x).isSome}.Finite :=
  (tree.byId.keys.finite_toSet).subset fun _ hx => has_of_parentOf hx

theorem ne_empty_of_parentOf {tree : FolderTree} (h : tree.parentOf x = some y) : y ≠ "" :=
  (truthy_eq_some.1 h).2

theorem childrenOf_eq (folders : List ServerFolder) (id : String) :
    ((buildMoveTree folders).childrenOf.get id).getD [] =
      folders.filter fun folder => truthy folder.parentId = some id := by
  have hgeneral : ∀ m : OrderedMap String (List ServerFolder),
      ((folders.foldl
        (fun m folder =>
          (truthy folder.parentId).elim m fun parentId =>
            m.set parentId ((m.get parentId).getD [] ++ [folder])) m).get id).getD [] =
        (m.get id).getD [] ++ folders.filter fun folder => truthy folder.parentId = some id := by
    intro m
    induction folders generalizing m with
    | nil => simp
    | cons folder rest ih =>
      rw [List.foldl_cons, ih]
      rcases hparent : truthy folder.parentId with _ | parentId
      · simp [hparent]
      · by_cases hid : parentId = id
        · subst hid
          simp [hparent, OrderedMap.get_set]
        · simp [hparent, OrderedMap.get_set, hid, Ne.symm hid]
  have hchildren : (buildMoveTree folders).childrenOf =
      folders.foldl
        (fun m folder =>
          (truthy folder.parentId).elim m fun parentId =>
            m.set parentId ((m.get parentId).getD [] ++ [folder])) .empty := by
    refine List.foldl_ext _ _ _ fun m folder _ => ?_
    cases truthy folder.parentId <;> rfl
  rw [hchildren, hgeneral]
  simp

theorem mem_children (hforest : IsForest folders) {c : String} :
    (∃ child ∈ ((buildMoveTree folders).childrenOf.get id).getD [], child.id = c) ↔
      (buildMoveTree folders).parentOf c = some id := by
  simp only [childrenOf_eq, List.mem_filter, decide_eq_true_eq]
  unfold FolderTree.parentOf
  constructor
  · rintro ⟨child, ⟨hmem, hparent⟩, rfl⟩
    rw [(byId_eq_some hforest).2 ⟨hmem, rfl⟩]
    exact hparent
  · intro hparent
    rcases hfolder : (buildMoveTree folders).byId.get c with _ | folder
    · rw [hfolder] at hparent
      exact absurd hparent (by simp [truthy])
    · rw [hfolder] at hparent
      obtain ⟨hmem, hid⟩ := (byId_eq_some hforest).1 hfolder
      exact ⟨folder, ⟨hmem, hparent⟩, hid⟩

theorem above_of_mem_belowFrom (hforest : IsForest folders) {depth : Nat}
    (h : y ∈ (buildMoveTree folders).belowFrom depth id) :
    Above (buildMoveTree folders).parentOf y id := by
  induction depth generalizing id with
  | zero => exact absurd h List.not_mem_nil
  | succ depth ih =>
    obtain ⟨child, hchild, hy⟩ := List.mem_flatMap.1 h
    have hparent := (mem_children hforest).1 ⟨child, hchild, rfl⟩
    rcases List.mem_cons.1 hy with rfl | hy
    · exact .single hparent
    · exact (ih hy).tail hparent

theorem mem_belowFrom (hforest : IsForest folders) {depth : Nat}
    (h : Above (buildMoveTree folders).parentOf y id)
    (hdepth : heightIn (buildMoveTree folders).parentOf (buildMoveTree folders).byId.keys y ≤
      depth + heightIn (buildMoveTree folders).parentOf (buildMoveTree folders).byId.keys id) :
    y ∈ (buildMoveTree folders).belowFrom depth id := by
  have hdom : ∀ x, ((buildMoveTree folders).parentOf x).isSome = true →
      x ∈ (buildMoveTree folders).byId.keys := fun _ => has_of_parentOf
  induction depth generalizing id with
  | zero =>
    have hlt := heightIn_above hforest.acyclic hdom h
    omega
  | succ depth ih =>
    obtain ⟨c, hyc, hc⟩ := TransGen.tail'_iff.1 h
    obtain ⟨child, hchild, rfl⟩ := (mem_children hforest).2 hc
    refine List.mem_flatMap.2 ⟨child, hchild, ?_⟩
    rcases ReflTransGen.cases_head hyc with rfl | ⟨z, hz, hzc⟩
    · exact List.mem_cons_self
    · have hlt := heightIn_step hforest.acyclic hdom hc
      exact List.mem_cons_of_mem _ (ih (TransGen.head' hz hzc) (by omega))

/-- `below` finds every folder under one. -/
theorem mem_below (hforest : IsForest folders) :
    y ∈ (buildMoveTree folders).below id ↔ Above (buildMoveTree folders).parentOf y id := by
  refine ⟨above_of_mem_belowFrom hforest, fun h => mem_belowFrom hforest h ?_⟩
  have hle := @heightIn_le _ (buildMoveTree folders).parentOf (buildMoveTree folders).byId.keys y
  omega

/-! ## What is held -/

theorem lineage_eq (hforest : IsForest folders) (hx : x ≠ "") :
    (buildMoveTree folders).lineage x =
      x :: (((buildMoveTree folders).parentOf x).map (buildMoveTree folders).lineage).getD [] := by
  unfold FolderTree.lineage
  rw [if_neg hx, ascent_eq hforest.acyclic fun _ => has_of_parentOf]
  rcases hy : (buildMoveTree folders).parentOf x with _ | y
  · rfl
  · rw [Option.map_some, Option.map_some, Option.getD_some, Option.getD_some,
      if_neg (ne_empty_of_parentOf hy)]

theorem pickHolding_eq (hforest : IsForest folders) (picks : Picks) (hx : x ≠ "") :
    pickHolding (buildMoveTree folders) picks x =
      if x ∈ picks.skipped then none
      else if x ∈ picks.included then some x
      else ((buildMoveTree folders).parentOf x).bind (pickHolding (buildMoveTree folders) picks) := by
  unfold pickHolding
  rw [lineage_eq hforest hx]
  show (if x ∈ picks.skipped then none else if x ∈ picks.included then some x else holdingIn picks _) = _
  rcases (buildMoveTree folders).parentOf x with _ | y
  · rfl
  · rfl

/-- Only folders of the tree are marked. -/
def InTree (tree : FolderTree) (picks : Picks) : Prop :=
  ∀ x, x ∈ picks.included ∨ x ∈ picks.skipped → tree.byId.has x = true

theorem holding (hforest : IsForest folders) (hin : InTree (buildMoveTree folders) picks) :
    Holding (buildMoveTree folders).parentOf (· ∈ picks.included) (· ∈ picks.skipped)
      (pickHolding (buildMoveTree folders) picks) := by
  have hempty : ∀ x, x ∈ picks.included ∨ x ∈ picks.skipped → x ≠ "" := fun x hx =>
    ne_empty_of_has hforest (hin x hx)
  refine ⟨fun x hs => ?_, fun x hs hi => ?_, fun x hs hi => ?_⟩
  · rw [pickHolding_eq hforest picks (hempty x (.inr hs)), if_pos hs]
  · rw [pickHolding_eq hforest picks (hempty x (.inl hi)), if_neg hs, if_pos hi]
  · by_cases hx : x = ""
    · have hnone : (buildMoveTree folders).parentOf x = none := by
        by_contra hsome
        have hkey := has_of_parentOf (Option.isSome_iff_ne_none.2 hsome)
        have hhas := ((buildMoveTree folders).byId.has_iff x).2
          (((buildMoveTree folders).byId.mem_keys_iff x).1 hkey)
        exact ne_empty_of_has hforest hhas hx
      rw [hnone, hx]
      rfl
    · rw [pickHolding_eq hforest picks hx, if_neg hs, if_neg hi]

/-- What every toggle keeps. -/
structure Placed (tree : FolderTree) (picks : Picks) : Prop where
  inTree : InTree tree picks
  placement : Placement tree.parentOf (· ∈ picks.included) (· ∈ picks.skipped) (pickHolding tree picks)

theorem truthy_pickHolding (hforest : IsForest folders) (hin : InTree (buildMoveTree folders) picks) :
    truthy (pickHolding (buildMoveTree folders) picks x) = pickHolding (buildMoveTree folders) picks x := by
  rcases hheld : pickHolding (buildMoveTree folders) picks x with _ | p
  · rfl
  · have hp := ((holding hforest hin).of_eq_some hforest.acyclic (finite_parentOf _) hheld).2.1
    exact truthy_eq_some.2 ⟨rfl, ne_empty_of_has hforest (hin p (.inl hp))⟩

/-! ## The tick of a folder -/

theorem has_of_above (h : Above (buildMoveTree folders).parentOf x y) :
    (buildMoveTree folders).byId.has x = true := by
  obtain ⟨z, hz, -⟩ := TransGen.head'_iff.1 h
  exact ((buildMoveTree folders).byId.has_iff x).2
    (((buildMoveTree folders).byId.mem_keys_iff x).1 (has_of_parentOf (by rw [hz]; rfl)))

theorem subtree_of_above (h : Above (buildMoveTree folders).parentOf x id) :
    Subtree (buildMoveTree folders) id x := ⟨has_of_above h, h.to_reflTransGen⟩

theorem any_below_iff (hforest : IsForest folders) {marks : List String} :
    ((buildMoveTree folders).below id).any (· ∈ marks) = true ↔
      ∃ y, Above (buildMoveTree folders).parentOf y id ∧ y ∈ marks := by
  simp only [List.any_eq_true, mem_below hforest, decide_eq_true_eq]

theorem held_of_placed (hforest : IsForest folders) (h : Placed (buildMoveTree folders) picks)
    (hx : x ∈ picks.included) : pickHolding (buildMoveTree folders) picks x = some x :=
  (holding hforest h.inTree).pick x (h.placement.not_both hx) hx

/-- A folder's tick shows how much of its subtree is synced. -/
theorem tickOf_cases (hforest : IsForest folders) (h : Placed (buildMoveTree folders) picks)
    (hid : (buildMoveTree folders).byId.has id = true) :
    (tickOf (buildMoveTree folders) picks id = .on ∧
      ∀ x, Subtree (buildMoveTree folders) id x → Synced (buildMoveTree folders) picks x) ∨
    (tickOf (buildMoveTree folders) picks id = .off ∧
      ∀ x, Subtree (buildMoveTree folders) id x → ¬ Synced (buildMoveTree folders) picks x) ∨
    (tickOf (buildMoveTree folders) picks id = .part ∧
      (∃ x, Subtree (buildMoveTree folders) id x ∧ Synced (buildMoveTree folders) picks x) ∧
      ∃ x, Subtree (buildMoveTree folders) id x ∧ ¬ Synced (buildMoveTree folders) picks x) := by
  have hholding := holding hforest h.inTree
  have hfin := finite_parentOf (buildMoveTree folders)
  have hself : Subtree (buildMoveTree folders) id id := ⟨hid, .refl⟩
  unfold tickOf
  rw [truthy_pickHolding hforest h.inTree]
  rcases hheld : pickHolding (buildMoveTree folders) picks id with _ | p
  · have hfree : ¬ Synced (buildMoveTree folders) picks id := fun hsynced => hsynced.2 hheld
    rw [Option.isSome_none, if_neg Bool.false_ne_true]
    by_cases hany : ((buildMoveTree folders).below id).any (· ∈ picks.included) = true
    · obtain ⟨y, hy, hi⟩ := (any_below_iff hforest).1 hany
      have hsub := subtree_of_above hy
      rw [if_pos hany]
      refine .inr (.inr ⟨rfl, ⟨y, hsub, hsub.1, ?_⟩, id, hself, hfree⟩)
      rw [held_of_placed hforest h hi]
      exact Option.some_ne_none y
    · rw [if_neg hany]
      refine .inr (.inl ⟨rfl, fun x hx hsynced => hsynced.2 ?_⟩)
      refine hholding.free_of_no_picks hforest.acyclic hfin hx.2 hheld fun y hy hi => ?_
      exact hany ((any_below_iff hforest).2 ⟨y, hy, hi⟩)
  · have hsynced : Synced (buildMoveTree folders) picks id := ⟨hid, by rw [hheld]; exact Option.some_ne_none p⟩
    rw [Option.isSome_some, if_pos rfl]
    by_cases hany : ((buildMoveTree folders).below id).any (· ∈ picks.skipped) = true
    · obtain ⟨y, hy, hs⟩ := (any_below_iff hforest).1 hany
      have hsub := subtree_of_above hy
      rw [if_pos hany]
      exact .inr (.inr ⟨rfl, ⟨id, hself, hsynced⟩, y, hsub, fun hbad => hbad.2 (hholding.skip y hs)⟩)
    · rw [if_neg hany]
      refine .inl ⟨rfl, fun x hx => ⟨hx.1, ?_⟩⟩
      refine hholding.held_of_no_skips hforest.acyclic hfin hx.2 hsynced.2 fun y hy hs => ?_
      exact hany ((any_below_iff hforest).2 ⟨y, hy, hs⟩)

theorem tickOf_eq_on_iff (hforest : IsForest folders) (h : Placed (buildMoveTree folders) picks)
    (hid : (buildMoveTree folders).byId.has id = true) :
    tickOf (buildMoveTree folders) picks id = .on ↔
      ∀ x, Subtree (buildMoveTree folders) id x → Synced (buildMoveTree folders) picks x := by
  rcases tickOf_cases hforest h hid with ⟨htick, hall⟩ | ⟨htick, hnone⟩ | ⟨htick, -, x, hx, hfree⟩
  · exact ⟨fun _ => hall, fun _ => htick⟩
  · rw [htick]
    exact ⟨fun hbad => absurd hbad (by simp), fun hall => absurd (hall id ⟨hid, .refl⟩) (hnone id ⟨hid, .refl⟩)⟩
  · rw [htick]
    exact ⟨fun hbad => absurd hbad (by simp), fun hall => absurd (hall x hx) hfree⟩

theorem tickOf_eq_off_iff (hforest : IsForest folders) (h : Placed (buildMoveTree folders) picks)
    (hid : (buildMoveTree folders).byId.has id = true) :
    tickOf (buildMoveTree folders) picks id = .off ↔
      ∀ x, Subtree (buildMoveTree folders) id x → ¬ Synced (buildMoveTree folders) picks x := by
  rcases tickOf_cases hforest h hid with ⟨htick, hall⟩ | ⟨htick, hnone⟩ | ⟨htick, ⟨x, hx, hsynced⟩, -⟩
  · rw [htick]
    exact ⟨fun hbad => absurd hbad (by simp), fun hnone => absurd (hall id ⟨hid, .refl⟩) (hnone id ⟨hid, .refl⟩)⟩
  · exact ⟨fun _ => hnone, fun _ => htick⟩
  · rw [htick]
    exact ⟨fun hbad => absurd hbad (by simp), fun hnone => absurd hsynced (hnone x hx)⟩

/-! ## Toggling -/

theorem mem_insertLast {α : Type} [DecidableEq α] {l : List α} {a b : α} :
    a ∈ insertLast l b ↔ a ∈ l ∨ a = b := by
  unfold insertLast
  split
  · rename_i hmem
    exact ⟨.inl, fun h => h.elim (fun h => h) fun h => h ▸ hmem⟩
  · rw [List.mem_append, List.mem_singleton]

/-- What a toggle makes of the mark at the folder itself. -/
inductive Toggled (tree : FolderTree) (picks picks' : Picks) (id : String) : Prop
  | unpicked (hon : tickOf tree picks id = .on) (hwas : id ∈ picks.included)
      (hi : id ∉ picks'.included) (hs : id ∈ picks'.skipped → id ∈ picks.skipped)
  | skipped (hon : tickOf tree picks id = .on) (hwas : id ∉ picks.included)
      (hi : id ∉ picks'.included) (hs : id ∈ picks'.skipped)
  | unskipped (hoff : tickOf tree picks id ≠ .on) (hwas : id ∈ picks.skipped)
      (hi : id ∈ picks'.included → id ∈ picks.included) (hs : id ∉ picks'.skipped)
  | picked (hoff : tickOf tree picks id ≠ .on) (hwas : id ∉ picks.skipped)
      (hfree : truthy (pickHolding tree picks id) = none) (hi : id ∈ picks'.included)
      (hs : id ∉ picks'.skipped)
  | filled (hoff : tickOf tree picks id ≠ .on) (hwas : id ∉ picks.skipped)
      (hheld : truthy (pickHolding tree picks id) ≠ none)
      (hi : id ∈ picks'.included ↔ id ∈ picks.included) (hs : id ∉ picks'.skipped)

theorem toggled (tree : FolderTree) (picks : Picks) (hid : id ∉ tree.below id) :
    Toggled tree picks (toggleTick tree picks id) id ∧
      ∀ y, y ≠ id →
        (y ∈ (toggleTick tree picks id).included ↔ y ∈ picks.included ∧ y ∉ tree.below id) ∧
        (y ∈ (toggleTick tree picks id).skipped ↔ y ∈ picks.skipped ∧ y ∉ tree.below id) := by
  have hkept : ∀ marks : List String, id ∈ marks.filter (· ∉ tree.below id) ↔ id ∈ marks := by
    intro marks
    rw [List.mem_filter, decide_eq_true_eq]
    exact ⟨fun h => h.1, fun h => ⟨h, hid⟩⟩
  have hmem : ∀ (marks : List String) y,
      y ∈ marks.filter (· ∉ tree.below id) ↔ y ∈ marks ∧ y ∉ tree.below id := by
    intro marks y
    rw [List.mem_filter, decide_eq_true_eq]
  have hdrop : ∀ (marks : List String) y, y ≠ id →
      (y ∈ marks.filter (· ≠ id) ↔ y ∈ marks) := by
    intro marks y hy
    rw [List.mem_filter, decide_eq_true_eq]
    exact ⟨fun h => h.1, fun h => ⟨h, hy⟩⟩
  have hadd : ∀ (marks : List String) y, y ≠ id → (y ∈ insertLast marks id ↔ y ∈ marks) := by
    intro marks y hy
    rw [mem_insertLast]
    exact ⟨fun h => h.resolve_right hy, .inl⟩
  have hgone : ∀ marks : List String, id ∉ marks.filter (· ≠ id) := by
    intro marks hbad
    rw [List.mem_filter, decide_eq_true_eq] at hbad
    exact hbad.2 rfl
  unfold toggleTick
  dsimp only
  by_cases hon : tickOf tree picks id = .on
  · rw [if_pos hon]
    by_cases hi : id ∈ picks.included.filter (· ∉ tree.below id)
    · rw [if_pos hi]
      refine ⟨.unpicked hon ((hkept _).1 hi) (hgone _) (hkept _).1, fun y hy => ⟨?_, hmem _ y⟩⟩
      rw [hdrop _ y hy, hmem]
    · rw [if_neg hi]
      refine ⟨.skipped hon (fun hbad => hi ((hkept _).2 hbad)) hi (mem_insertLast.2 (.inr rfl)),
        fun y hy => ⟨hmem _ y, ?_⟩⟩
      rw [hadd _ y hy, hmem]
  · rw [if_neg hon]
    by_cases hs : id ∈ picks.skipped.filter (· ∉ tree.below id)
    · rw [if_pos hs]
      refine ⟨.unskipped hon ((hkept _).1 hs) (hkept _).1 (hgone _), fun y hy => ⟨hmem _ y, ?_⟩⟩
      rw [hdrop _ y hy, hmem]
    · rw [if_neg hs]
      have hs' : id ∉ picks.skipped := fun hbad => hs ((hkept _).2 hbad)
      by_cases hfree : (truthy (pickHolding tree picks id)).isNone = true
      · rw [if_pos hfree]
        refine ⟨.picked hon hs' (Option.isNone_iff_eq_none.1 hfree) (mem_insertLast.2 (.inr rfl)) hs,
          fun y hy => ⟨?_, hmem _ y⟩⟩
        rw [hadd _ y hy, hmem]
      · rw [if_neg hfree]
        exact ⟨.filled hon hs' (fun hbad => hfree (Option.isNone_iff_eq_none.2 hbad)) (hkept _) hs,
          fun y _ => ⟨hmem _ y, hmem _ y⟩⟩

/-- A toggle keeps the marks in place, changes nothing outside the folder's subtree, and turns all of that
on, if it was not on, and off otherwise. -/
theorem toggle_spec (hforest : IsForest folders) (h : Placed (buildMoveTree folders) picks)
    (hid : (buildMoveTree folders).byId.has id = true) :
    Placed (buildMoveTree folders) (toggleTick (buildMoveTree folders) picks id) ∧
    (∀ x, ¬ AtOrAbove (buildMoveTree folders).parentOf x id →
      pickHolding (buildMoveTree folders) picks x =
        pickHolding (buildMoveTree folders) (toggleTick (buildMoveTree folders) picks id) x) ∧
    ∀ x, Subtree (buildMoveTree folders) id x →
      (Synced (buildMoveTree folders) (toggleTick (buildMoveTree folders) picks id) x ↔
        tickOf (buildMoveTree folders) picks id ≠ .on) := by
  have hacyclic := hforest.acyclic
  have hfin := finite_parentOf (buildMoveTree folders)
  have hholding := holding hforest h.inTree
  have hbelow : id ∉ (buildMoveTree folders).below id := fun hbad =>
    hacyclic id ((mem_below hforest).1 hbad)
  obtain ⟨hhere, helse⟩ := toggled (buildMoveTree folders) picks hbelow
  have htruthy := truthy_pickHolding (x := id) hforest h.inTree
  have hon : tickOf (buildMoveTree folders) picks id = .on →
      pickHolding (buildMoveTree folders) picks id ≠ none := fun htick =>
    ((tickOf_eq_on_iff hforest h hid).1 htick id ⟨hid, .refl⟩).2
  generalize toggleTick (buildMoveTree folders) picks id = picks' at hhere helse ⊢
  have hin : InTree (buildMoveTree folders) picks' := by
    intro y hy
    by_cases heq : y = id
    · exact heq ▸ hid
    · obtain ⟨hinc, hskip⟩ := helse y heq
      exact h.inTree y (hy.imp (fun hy => (hinc.1 hy).1) fun hy => (hskip.1 hy).1)
  have hholding' := holding hforest hin
  have hclear : ∀ y, Above (buildMoveTree folders).parentOf y id →
      ¬ y ∈ picks'.included ∧ ¬ y ∈ picks'.skipped := by
    intro y hy
    have hne : y ≠ id := fun heq => hacyclic id (heq ▸ hy)
    obtain ⟨hinc, hskip⟩ := helse y hne
    have hmem := (mem_below hforest).2 hy
    exact ⟨fun hbad => (hinc.1 hbad).2 hmem, fun hbad => (hskip.1 hbad).2 hmem⟩
  have hsame : ∀ y, ¬ AtOrAbove (buildMoveTree folders).parentOf y id →
      (y ∈ picks.included ↔ y ∈ picks'.included) ∧ (y ∈ picks.skipped ↔ y ∈ picks'.skipped) := by
    intro y hy
    have hne : y ≠ id := fun heq => hy (heq ▸ .refl)
    obtain ⟨hinc, hskip⟩ := helse y hne
    have hmem : y ∉ (buildMoveTree folders).below id := fun hbad =>
      hy ((mem_below hforest).1 hbad).to_reflTransGen
    exact ⟨⟨fun hy => hinc.2 ⟨hy, hmem⟩, fun hy => (hinc.1 hy).1⟩,
      fun hy => hskip.2 ⟨hy, hmem⟩, fun hy => (hskip.1 hy).1⟩
  -- what a mark at the folder itself, or none, says of the folder above
  have habove : ∀ H', (∀ y, ¬ AtOrAbove (buildMoveTree folders).parentOf y id →
      pickHolding (buildMoveTree folders) picks y = H' y) →
      ((buildMoveTree folders).parentOf id).bind (pickHolding (buildMoveTree folders) picks) =
        ((buildMoveTree folders).parentOf id).bind H' := by
    intro H' houtside
    rcases hp : (buildMoveTree folders).parentOf id with _ | p
    · rfl
    · exact houtside p (hacyclic.not_atOrAbove hp)
  have hpick : id ∈ picks'.included →
      ((buildMoveTree folders).parentOf id).bind (pickHolding (buildMoveTree folders) picks) = none := by
    intro hi
    rcases hhere with ⟨-, -, hi', -⟩ | ⟨-, -, hi', -⟩ | ⟨-, hwas, hi', -⟩ | ⟨-, hwas, hfree, -, -⟩ |
        ⟨-, -, -, hi', -⟩
    · exact absurd hi hi'
    · exact absurd hi hi'
    · exact absurd hwas (h.placement.not_both (hi' hi))
    · rw [htruthy] at hfree
      have hunpicked : id ∉ picks.included := fun hbad => by
        rw [held_of_placed hforest h hbad] at hfree
        exact absurd hfree (by simp)
      rw [← hholding.pass id hwas hunpicked]
      exact hfree
    · exact h.placement.picks id (hi'.1 hi)
  have hskip : id ∈ picks'.skipped →
      ((buildMoveTree folders).parentOf id).bind (pickHolding (buildMoveTree folders) picks) ≠ none := by
    intro hs
    rcases hhere with ⟨-, hwas, -, hs'⟩ | ⟨htick, hwas, -, -⟩ | ⟨-, -, -, hs'⟩ | ⟨-, -, -, -, hs'⟩ |
        ⟨-, -, -, -, hs'⟩
    · exact absurd (hs' hs) (h.placement.not_both hwas)
    · have hheld := hon htick
      have hunskipped : id ∉ picks.skipped := fun hbad => hheld (hholding.skip id hbad)
      rw [← hholding.pass id hunskipped hwas]
      exact hheld
    · exact absurd hs hs'
    · exact absurd hs hs'
    · exact absurd hs hs'
  obtain ⟨hplaced', houtside⟩ :=
    h.placement.of_change hacyclic hfin hholding hholding' hclear hsame hpick hskip
  refine ⟨⟨hin, hplaced'⟩, houtside, fun x hx => ?_⟩
  have htop := hholding'.eq_top hacyclic hfin hx.2 hclear
  have hparent := habove _ houtside
  have hsynced : Synced (buildMoveTree folders) picks' x ↔
      pickHolding (buildMoveTree folders) picks' id ≠ none := by
    unfold Synced
    rw [htop]
    exact ⟨fun hx => hx.2, fun hne => ⟨hx.1, hne⟩⟩
  rw [hsynced]
  rcases hhere with ⟨htick, hwas, hi, hs⟩ | ⟨htick, -, -, hs⟩ | ⟨htick, hwas, hi, hs⟩ |
      ⟨htick, -, -, hi, hs⟩ | ⟨htick, hwas, hheld, hi, hs⟩
  · have hs' : id ∉ picks'.skipped := fun hbad => h.placement.not_both hwas (hs hbad)
    rw [hholding'.pass id hs' hi, ← hparent, h.placement.picks id hwas]
    exact ⟨fun hbad => absurd rfl hbad, fun hbad => absurd htick hbad⟩
  · rw [hholding'.skip id hs]
    exact ⟨fun hbad => absurd rfl hbad, fun hbad => absurd htick hbad⟩
  · have hi' : id ∉ picks'.included := fun hbad => h.placement.not_both (hi hbad) hwas
    rw [hholding'.pass id hs hi', ← hparent]
    exact ⟨fun _ => htick, fun _ => h.placement.skips id hwas⟩
  · rw [hholding'.pick id hs hi]
    exact ⟨fun _ => htick, fun _ => Option.some_ne_none id⟩
  · rw [htruthy] at hheld
    refine ⟨fun _ => htick, fun _ => ?_⟩
    by_cases hinc : id ∈ picks.included
    · rw [hholding'.pick id hs (hi.2 hinc)]
      exact Option.some_ne_none id
    · rw [hholding'.pass id hs fun hbad => hinc (hi.1 hbad), ← hparent, ← hholding.pass id hwas hinc]
      exact hheld

theorem placed_nothing (tree : FolderTree) : Placed tree ⟨[], []⟩ where
  inTree _ hx := absurd hx (by simp)
  placement := ⟨fun _ hi => absurd hi List.not_mem_nil, fun _ hs => absurd hs List.not_mem_nil⟩

theorem placed_ticked (hforest : IsForest folders) {ids : List String}
    (hids : ∀ id ∈ ids, (buildMoveTree folders).byId.has id = true) :
    Placed (buildMoveTree folders) (ticked (buildMoveTree folders) ids) :=
  List.foldlRecOn ids (toggleTick (buildMoveTree folders)) (placed_nothing _)
    fun _ h id hid => (toggle_spec hforest h (hids id hid)).1

/-! ## The pairs -/

theorem mem_skips (hforest : IsForest folders) {folder skip : ServerFolder} :
    skip ∈ (picks.skipped.filterMap fun id =>
      ((buildMoveTree folders).byId.get id).filter fun skip =>
        (truthy skip.parentId).any fun parentId =>
          pickHolding (buildMoveTree folders) picks parentId = some folder.id) ↔
    skip.id ∈ picks.skipped ∧ (buildMoveTree folders).byId.get skip.id = some skip ∧
      ((buildMoveTree folders).parentOf skip.id).bind (pickHolding (buildMoveTree folders) picks) =
        some folder.id := by
  have hparent : ∀ {id}, (buildMoveTree folders).byId.get id = some skip →
      ((truthy skip.parentId).any (fun parentId =>
        decide (pickHolding (buildMoveTree folders) picks parentId = some folder.id)) = true ↔
      ((buildMoveTree folders).parentOf id).bind (pickHolding (buildMoveTree folders) picks) =
        some folder.id) := by
    intro id hskip
    unfold FolderTree.parentOf
    rw [hskip, Option.bind_some]
    rcases truthy skip.parentId with _ | p
    · simp
    · simp
  rw [List.mem_filterMap]
  constructor
  · rintro ⟨id, hid, hskip⟩
    obtain ⟨hget, hheld⟩ := Option.filter_eq_some_iff.1 hskip
    obtain rfl := ((byId_eq_some hforest).1 hget).2
    exact ⟨hid, hget, (hparent hget).1 hheld⟩
  · rintro ⟨hid, hget, hheld⟩
    exact ⟨skip.id, hid, Option.filter_eq_some_iff.2 ⟨hget, (hparent hget).2 hheld⟩⟩

/-- A pair syncs what its folder holds. -/
theorem inPair_iff (hforest : IsForest folders) (h : Placed (buildMoveTree folders) picks)
    {pair : ServerFolder × List ServerFolder} (hpair : pair ∈ pickedFolders (buildMoveTree folders) picks) :
    InPair (buildMoveTree folders) pair x ↔ (buildMoveTree folders).byId.has x = true ∧
      pickHolding (buildMoveTree folders) picks x = some pair.1.id := by
  obtain ⟨folder, hfolder, rfl⟩ := List.mem_map.1 hpair
  have hincluded : folder.id ∈ picks.included := of_decide_eq_true (List.mem_filter.1 hfolder).2
  rw [(holding hforest h.inTree).eq_some_iff hforest.acyclic (finite_parentOf _) h.placement]
  unfold InPair
  dsimp only
  constructor
  · rintro ⟨hsub, hskips⟩
    refine ⟨hsub.1, hincluded, hsub.2, fun s hs hheld hxs => ?_⟩
    obtain ⟨skip, hskip⟩ := ((buildMoveTree folders).byId.has_iff s).1 (h.inTree s (.inr hs))
    obtain rfl := ((byId_eq_some hforest).1 hskip).2
    exact hskips skip ((mem_skips hforest).2 ⟨hs, hskip, hheld⟩) ⟨hsub.1, hxs⟩
  · rintro ⟨hx, -, habove, hfree⟩
    refine ⟨⟨hx, habove⟩, fun skip hskip hsub => ?_⟩
    obtain ⟨hs, -, hheld⟩ := (mem_skips hforest).1 hskip
    exact hfree skip.id hs hheld hsub.2

theorem values_ids (hforest : IsForest folders) :
    ((buildMoveTree folders).byId.entries.map Prod.snd).Pairwise fun f g => f.id ≠ g.id := by
  have hnodup := (buildMoveTree folders).byId.nodup
  rw [List.Nodup, List.pairwise_map] at hnodup
  rw [List.pairwise_map]
  refine hnodup.imp_of_mem fun {e e'} he he' hne => ?_
  have hid : ∀ e ∈ (buildMoveTree folders).byId.entries, e.2.id = e.1 := fun e he =>
    ((byId_eq_some hforest).1 (((buildMoveTree folders).byId.get_eq_some_iff e.1 e.2).2 he)).2
  rw [hid e he, hid e' he']
  exact hne

theorem pairs_disjoint (hforest : IsForest folders) (h : Placed (buildMoveTree folders) picks) :
    (pickedFolders (buildMoveTree folders) picks).Pairwise fun P Q =>
      ∀ x, ¬ (InPair (buildMoveTree folders) P x ∧ InPair (buildMoveTree folders) Q x) := by
  have hne : (pickedFolders (buildMoveTree folders) picks).Pairwise fun P Q => P.1.id ≠ Q.1.id := by
    unfold pickedFolders
    rw [List.pairwise_map]
    exact (values_ids hforest).sublist List.filter_sublist
  refine hne.imp_of_mem fun {P Q} hP hQ hne x hboth => hne ?_
  have hheldP := ((inPair_iff hforest h hP).1 hboth.1).2
  have hheldQ := ((inPair_iff hforest h hQ).1 hboth.2).2
  rw [hheldP] at hheldQ
  exact Option.some.inj hheldQ

theorem synced_iff_inPair (hforest : IsForest folders) (h : Placed (buildMoveTree folders) picks) :
    Synced (buildMoveTree folders) picks x ↔
      ∃ pair ∈ pickedFolders (buildMoveTree folders) picks, InPair (buildMoveTree folders) pair x := by
  constructor
  · rintro ⟨hx, hheld⟩
    obtain ⟨p, hp⟩ := Option.ne_none_iff_exists'.1 hheld
    have hpicked := ((holding hforest h.inTree).of_eq_some hforest.acyclic (finite_parentOf _) hp).2.1
    obtain ⟨folder, hfolder⟩ := ((buildMoveTree folders).byId.has_iff p).1 (h.inTree p (.inl hpicked))
    obtain rfl := ((byId_eq_some hforest).1 hfolder).2
    have hmem := ((buildMoveTree folders).byId.get_eq_some_iff _ _).1 hfolder
    have hpair : (folder, _) ∈ pickedFolders (buildMoveTree folders) picks :=
      List.mem_map.2 ⟨folder, List.mem_filter.2 ⟨List.mem_map.2 ⟨_, hmem, rfl⟩, decide_eq_true hpicked⟩, rfl⟩
    exact ⟨_, hpair, (inPair_iff hforest h hpair).2 ⟨hx, hp⟩⟩
  · rintro ⟨pair, hpair, hin⟩
    obtain ⟨hx, hheld⟩ := (inPair_iff hforest h hpair).1 hin
    exact ⟨hx, by rw [hheld]; exact Option.some_ne_none _⟩

/-- After any toggles: the next one turns the folder's whole subtree on or off and nothing else; every
tick shows how much of a subtree is synced; and the pairs sync each synced folder once. -/
theorem picks_mean_ticks (hforest : IsForest folders) {ids : List String}
    (hids : ∀ id ∈ ids, (buildMoveTree folders).byId.has id = true) :
    let tree := buildMoveTree folders
    let picks := ticked tree ids
    (∀ id, tree.byId.has id = true →
      (∀ x, Subtree tree id x → (Synced tree (toggleTick tree picks id) x ↔
        ¬ ∀ y, Subtree tree id y → Synced tree picks y)) ∧
      ∀ x, ¬ Subtree tree id x → (Synced tree (toggleTick tree picks id) x ↔ Synced tree picks x)) ∧
    (∀ id, tree.byId.has id = true →
      (tickOf tree picks id = .on ↔ ∀ x, Subtree tree id x → Synced tree picks x) ∧
      (tickOf tree picks id = .off ↔ ∀ x, Subtree tree id x → ¬ Synced tree picks x) ∧
      (tickOf tree picks id = .part ↔ (¬ ∀ x, Subtree tree id x → Synced tree picks x) ∧
        ¬ ∀ x, Subtree tree id x → ¬ Synced tree picks x)) ∧
    (pickedFolders tree picks).Pairwise (fun P Q => ∀ x, ¬ (InPair tree P x ∧ InPair tree Q x)) ∧
    ∀ x, Synced tree picks x ↔ ∃ pair ∈ pickedFolders tree picks, InPair tree pair x := by
  intro tree picks
  have h : Placed tree picks := placed_ticked hforest hids
  refine ⟨fun id hid => ?_, fun id hid => ?_, pairs_disjoint hforest h,
    fun x => synced_iff_inPair hforest h⟩
  · obtain ⟨-, houtside, hinside⟩ := toggle_spec hforest h hid
    refine ⟨fun x hx => ?_, fun x hx => ?_⟩
    · rw [hinside x hx, ne_eq, tickOf_eq_on_iff hforest h hid]
    · unfold Synced
      by_cases hhas : tree.byId.has x = true
      · rw [houtside x fun hbad => hx ⟨hhas, hbad⟩]
      · exact ⟨fun hbad => absurd hbad.1 hhas, fun hbad => absurd hbad.1 hhas⟩
  · have hon := tickOf_eq_on_iff hforest h hid
    have hoff := tickOf_eq_off_iff hforest h hid
    refine ⟨hon, hoff, ?_⟩
    rw [← hon, ← hoff]
    cases tickOf tree picks id <;> simp

/-- A drive with one folder in it. -/
theorem isForest_photos : IsForest [⟨"root", none⟩, ⟨"Photos", some "root"⟩] where
  ids := by decide
  named := by decide
  acyclic := by
    refine acyclic_of_rank (fun x => if x = "Photos" then 1 else 0) fun x y hxy => ?_
    have hx := has_of_parentOf (x := x) (by rw [hxy]; rfl)
    rw [show (buildMoveTree [⟨"root", none⟩, ⟨"Photos", some "root"⟩]).byId.keys = ["root", "Photos"]
      from by decide] at hx
    rcases List.mem_cons.1 hx with rfl | hx
    · rw [show (buildMoveTree [⟨"root", none⟩, ⟨"Photos", some "root"⟩]).parentOf "root" = none
        from by decide] at hxy
      exact absurd hxy (by simp)
    · obtain rfl := List.mem_singleton.1 hx
      rw [show (buildMoveTree [⟨"root", none⟩, ⟨"Photos", some "root"⟩]).parentOf "Photos" = some "root"
        from by decide, Option.some.injEq] at hxy
      rw [← hxy]
      decide

/-- The drive is ticked, and then the folder in it is unticked. -/
theorem picks_mean_ticks_of_photos :
    let tree := buildMoveTree [⟨"root", none⟩, ⟨"Photos", some "root"⟩]
    let picks := ticked tree ["root", "Photos"]
    tickOf tree picks "Photos" = .off ∧ ∀ x, Subtree tree "Photos" x → ¬ Synced tree picks x := by
  intro tree picks
  have htick : tickOf tree picks "Photos" = .off := by decide
  have hmeans := @picks_mean_ticks _ isForest_photos ["root", "Photos"] (by decide)
  exact ⟨htick, (hmeans.2.1 "Photos" (by decide)).2.1.1 htick⟩

end Staaash.Chooser
