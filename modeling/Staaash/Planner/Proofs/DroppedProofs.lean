import Staaash.Planner.Proofs.MoveSafetyProofs

/-!
# Proofs: what becomes of a move the plan drops

A path of a recognised move is on one side only, unless something else took its place. The walk splits such a path
whenever it comes to it. So the plan keeps moves whole exactly when dropped moves are hidden by other moves, removed
folders and excluded paths.
-/

namespace Staaash.Planner

open Staaash.Library (OrderedMap)

variable {P : Platform} {input : PlanInput} {v : View}

/-! ## What the walk does about one path -/

theorem forgetIfKnown_splits {cell : Cell} {previous : BaseEntry}
    (h : cell.previous = some previous) :
    ∃ a, forgetIfKnown cell = some a ∧ a.splits = true :=
  ⟨.forget cell.rel, by rw [forgetIfKnown, h]; rfl, rfl⟩

theorem folderOnlyThere_splits {cell : Cell} {there : ScopedItem} {dirty : List Rel}
    (h : v.mode ≠ .upload ∨ ∃ previous, cell.previous = some previous) :
    ∃ a, (folderOnlyThere v cell there dirty).action = some a ∧ a.splits = true := by
  unfold folderOnlyThere
  dsimp only
  split_ifs with hdel hm
  · exact ⟨_, rfl, rfl⟩
  · exact ⟨_, rfl, rfl⟩
  · obtain ⟨previous, hp⟩ := h.resolve_left (by simpa using hm)
    exact forgetIfKnown_splits hp

theorem folderOnlyHere_splits {cell : Cell} {here : LocalFile} {dirty : List Rel}
    (h : v.mode ≠ .download ∨ ∃ previous, cell.previous = some previous) :
    ∃ a, (folderOnlyHere v cell here dirty).action = some a ∧ a.splits = true := by
  unfold folderOnlyHere
  dsimp only
  split_ifs with hdel hm
  · exact ⟨_, rfl, rfl⟩
  · exact ⟨_, rfl, rfl⟩
  · obtain ⟨previous, hp⟩ := h.resolve_left (by simpa using hm)
    exact forgetIfKnown_splits hp

theorem fileOnlyThere_splits {cell : Cell} {there : ScopedItem}
    (h : v.mode ≠ .upload ∨ ∃ previous, cell.previous = some previous) :
    ∃ a, fileOnlyThere v cell there = some a ∧ a.splits = true := by
  unfold fileOnlyThere
  dsimp only
  cases hp : cell.previous with
  | none =>
    have hm : v.mode ≠ .upload := by
      rcases h with h | ⟨previous, h⟩
      · exact h
      · rw [hp] at h
        cases h
    rw [if_pos (by cases hv : v.mode <;> simp_all)]
    exact ⟨_, rfl, rfl⟩
  | some previous =>
    split_ifs
    · exact ⟨_, rfl, rfl⟩
    · exact ⟨_, rfl, rfl⟩
    · exact ⟨_, rfl, rfl⟩
    · exact forgetIfKnown_splits hp

theorem fileOnlyHere_splits {cell : Cell} {here : LocalFile}
    (h : v.mode ≠ .download ∨ ∃ previous, cell.previous = some previous) :
    ∃ a, fileOnlyHere v cell here = some a ∧ a.splits = true := by
  unfold fileOnlyHere
  dsimp only
  cases hp : cell.previous with
  | none =>
    have hm : v.mode ≠ .download := by
      rcases h with h | ⟨previous, h⟩
      · exact h
      · rw [hp] at h
        cases h
    rw [if_neg (by simp), if_pos (by cases hv : v.mode <;> simp_all)]
    exact ⟨_, rfl, rfl⟩
  | some previous =>
    split_ifs
    · exact ⟨_, rfl, rfl⟩
    · exact ⟨_, rfl, rfl⟩
    · exact ⟨_, rfl, rfl⟩
    · exact forgetIfKnown_splits hp

/-- A path only the server has is split, unless the pair only uploads and has no record of it. -/
theorem decisionAt_onlyThere {k : Rel} {there : ScopedItem} (hh : v.locals.get k = none)
    (ht : v.remote.get k = some there)
    (h : v.mode ≠ .upload ∨ ∃ previous, v.base.get k = some previous) :
    ∃ a, (decisionAt v k).action = some a ∧ a.splits = true := by
  unfold decisionAt decide
  rw [show (cellAt v k).here = none from hh, show (cellAt v k).there = some there from ht]
  simp only [Option.map_none, Option.none_or, Option.map_some, Option.some_or, Option.some.injEq]
  split_ifs with hty
  · unfold planFolder
    rw [show (cellAt v k).here = none from hh, show (cellAt v k).there = some there from ht]
    exact folderOnlyThere_splits h
  · exact fileOnlyThere_splits h

/-- A path only this computer has is split, unless the pair only downloads and has no record of it,
or its file must be hashed first. -/
theorem decisionAt_onlyHere {k : Rel} {here : LocalFile} (hh : v.locals.get k = some here)
    (ht : v.remote.get k = none)
    (h : v.mode ≠ .download ∨ ∃ previous, v.base.get k = some previous)
    (hash : ¬ (here.type = .file ∧ idToSave (v.base.get k) here = true ∧ here.checksum = none)) :
    ∃ a, (decisionAt v k).action = some a ∧ a.splits = true := by
  unfold decisionAt decide
  rw [show (cellAt v k).here = some here from hh, show (cellAt v k).there = none from ht]
  simp only [Option.map_some, Option.some_or, Option.some.injEq]
  split_ifs with hty hid
  · unfold planFolder
    rw [show (cellAt v k).here = some here from hh, show (cellAt v k).there = none from ht]
    exact folderOnlyHere_splits h
  · simp only [Bool.and_eq_true, decide_eq_true_eq] at hid
    exact absurd ⟨ItemType.eq_file_of_ne hty, hid.1, hid.2⟩ hash
  · exact fileOnlyHere_splits h

/-- A file without a saved id is not decided about before it was hashed. -/
theorem decisionAt_unhashed {k : Rel} {here : LocalFile} (hh : v.locals.get k = some here)
    (ht : v.remote.get k = none) (hf : here.type = .file)
    (hs : idToSave (v.base.get k) here = true) (hc : here.checksum = none) :
    (decisionAt v k).action = none := by
  unfold decisionAt decide
  rw [show (cellAt v k).here = some here from hh, show (cellAt v k).there = none from ht]
  simp only [Option.map_some, Option.some_or, Option.some.injEq]
  rw [if_neg (by simp [hf]), show (cellAt v k).previous = v.base.get k from rfl,
    if_pos (by simp [hs, hc])]
  rfl

/-- A recorded path that neither side has is forgotten. -/
theorem decisionAt_nowhere {k : Rel} {previous : BaseEntry} (hh : v.locals.get k = none)
    (ht : v.remote.get k = none) (hp : v.base.get k = some previous) :
    ∃ a, (decisionAt v k).action = some a ∧ a.splits = true := by
  unfold decisionAt decide
  rw [show (cellAt v k).here = none from hh, show (cellAt v k).there = none from ht]
  dsimp only
  split_ifs
  · unfold planFolder
    rw [show (cellAt v k).here = none from hh, show (cellAt v k).there = none from ht]
    exact forgetIfKnown_splits hp
  · exact forgetIfKnown_splits hp

theorem fileOnBothSides_splits_iff {k : Rel} {here : LocalFile} {there : ScopedItem}
    {mine : Option String} :
    (∃ a, fileOnBothSides v (cellAt v k) here there mine = some a ∧ a.splits = true) ↔
      mine ≠ there.item.checksum ∧
        ((v.mode ≠ .download ∧ localChanged (v.base.get k) mine = true ∧
            remoteChanged (v.base.get k) there = false) ∨
          (v.mode ≠ .upload ∧ localChanged (v.base.get k) mine = false ∧
            remoteChanged (v.base.get k) there = true)) := by
  rw [show v.base.get k = (cellAt v k).previous from rfl]
  unfold fileOnBothSides
  dsimp only
  by_cases he : mine = there.item.checksum
  · rw [if_pos he]
    constructor
    · rintro ⟨a, ha, hs⟩
      -- equal contents are linked at most
      split_ifs at ha
      obtain rfl := Option.some.inj ha
      cases hs
    · rintro ⟨hne, -⟩
      exact absurd he hne
  · rw [if_neg he]
    cases hl : localChanged (cellAt v k).previous mine <;>
      cases hr : remoteChanged (cellAt v k).previous there <;>
      cases hm : v.mode <;> simp [he, Action.splits]

/-- A path both sides have is split exactly when its file was edited on one side. -/
theorem decisionAt_onBothSides_iff {k : Rel} {here : LocalFile} {there : ScopedItem}
    (hh : (view P input).locals.get k = some here) (ht : (view P input).remote.get k = some there) :
    (∃ a, (decisionAt (view P input) k).action = some a ∧ a.splits = true) ↔
      ∃ mine, EditedOnOneSide P input k here there mine := by
  have hhc : (cellAt (view P input) k).here = some here := hh
  have htc : (cellAt (view P input) k).there = some there := ht
  have hpc : (cellAt (view P input) k).previous = (view P input).base.get k := rfl
  unfold decisionAt decide
  rw [hhc, htc]
  simp only [Option.map_some, Option.some_or, Option.some.injEq, decide_eq_true_eq]
  by_cases hclash : here.type = there.item.type
  · rw [if_neg (by simpa using hclash)]
    by_cases hty : here.type = .folder
    · rw [if_pos hty]
      unfold planFolder folderOnBothSides
      rw [hhc, htc]
      dsimp only
      constructor
      · rintro ⟨a, ha, hs⟩
        split_ifs at ha
        · obtain rfl := Option.some.inj ha
          cases hs
        · cases ha
      · rintro ⟨mine, hedited⟩
        have hf := hedited.files.1
        rw [hty] at hf
        cases hf
    · rw [if_neg hty, hpc]
      have hf := ItemType.eq_file_of_ne hty
      cases hmine : checksumOf here ((view P input).base.get k) with
      | none =>
        constructor
        · rintro ⟨a, ha, -⟩
          cases ha
        · rintro ⟨mine, hedited⟩
          rw [hedited.known] at hmine
          cases hmine
      | some mine =>
        refine Iff.trans fileOnBothSides_splits_iff ?_
        constructor
        · rintro ⟨hne, h⟩
          refine ⟨mine, ⟨hf, by rw [← hclash, hf]⟩, hmine, hne, ?_⟩
          exact h.imp (fun ⟨hm, hl, hr⟩ => ⟨hl, hr, hm⟩) fun ⟨hm, hl, hr⟩ => ⟨hl, hr, hm⟩
        · rintro ⟨mine', -, hknown, hne, h⟩
          rw [hmine] at hknown
          obtain rfl := Option.some.inj hknown
          exact ⟨hne, h.imp (fun ⟨hl, hr, hm⟩ => ⟨hm, hl, hr⟩) fun ⟨hl, hr, hm⟩ => ⟨hm, hl, hr⟩⟩
  · rw [if_pos (by simpa using hclash)]
    constructor
    · rintro ⟨a, ha, hs⟩
      change (if (view P input).mode = .upload then none else some _) = some a at ha
      split_ifs at ha
      obtain rfl := Option.some.inj ha
      cases hs
    · rintro ⟨mine, hedited⟩
      exact absurd (hedited.files.1.trans hedited.files.2.symm) hclash

/-! ## Paths that are split -/

/-- What the walk does about the path, when it comes to it, splits it. -/
def SplitsAt (v : View) (k : Rel) : Prop := ∃ a, ContributesAction v k a ∧ a.splits = true

/-- Out of sight, what has a record is split: it is forgotten. -/
theorem splitsAt_outOfSight_iff {k : Rel} (hshown : NotExcluded P input k) (hout : OutOfSight P input k) :
    SplitsAt (view P input) k ↔ ∃ previous, BaseAt P input k previous := by
  have hv := (outOfSight_iff hshown).mpr hout
  constructor
  · rintro ⟨a, ⟨-, previous, hp, -⟩ | ⟨hn, -⟩, -⟩
    · exact ⟨previous, hp⟩
    · rw [hv] at hn
      cases hn
  · rintro ⟨previous, hp⟩
    exact ⟨_, .inl ⟨hv, previous, hp, rfl⟩, rfl⟩

/-- In sight it is for the decision about the path. -/
theorem splitsAt_inSight_iff {k : Rel} (hshown : NotExcluded P input k) (hsight : ¬ OutOfSight P input k) :
    SplitsAt (view P input) k ↔ ∃ a, (decisionAt (view P input) k).action = some a ∧ a.splits = true := by
  have hv : covered k [vanishedFolders (view P input)] = false := by
    rw [← Bool.not_eq_true, outOfSight_iff hshown]
    exact hsight
  constructor
  · rintro ⟨a, ⟨hout, -⟩ | ⟨-, hact⟩, ha⟩
    · rw [hv] at hout
      cases hout
    · exact ⟨a, hact, ha⟩
  · rintro ⟨a, hact, ha⟩
    exact ⟨a, .inr ⟨hv, hact⟩, ha⟩

theorem exists_get_of_not_free {rel : Rel} (h : ¬ FreeThere P input rel) :
    ∃ there, (view P input).remote.get (P.pathKey rel) = some there := by
  cases hr : (view P input).remote.get (P.pathKey rel) with
  | none => exact absurd (remote_get_eq_none_iff.mp hr) h
  | some there => exact ⟨there, rfl⟩

theorem exists_baseAt {b : BaseEntry} (h : b ∈ input.base) :
    ∃ previous, BaseAt P input (P.pathKey b.rel) previous := by
  unfold BaseAt
  cases hb : (view P input).base.get (P.pathKey b.rel) with
  | none => exact absurd rfl (base_get_eq_none_iff.mp hb b h)
  | some previous => exact ⟨previous, rfl⟩

theorem FollowsServer.target_there {b : BaseEntry} {here : LocalFile} {there : ScopedItem}
    (h : FollowsServer P (view P input) b here there) : ¬ FreeThere P input there.rel :=
  fun hfree => hfree there (of_remoteById_get h.item).1 rfl

theorem CanRepeat.target_here {b : BaseEntry} {moved : LocalFile} {there : ScopedItem}
    (h : CanRepeat P input b moved there) :
    (∃ each, (view P input).locals.get (P.pathKey moved.rel) = some each) ∧
      (view P input).base.get (P.pathKey moved.rel) = none := by
  obtain ⟨hunsynced, -⟩ := of_localByIno_get ((localByIno_get_iff h.known).mpr h.found)
  refine ⟨?_, base_get_eq_none_iff.mpr hunsynced.2.2⟩
  cases hl : (view P input).locals.get (P.pathKey moved.rel) with
  | none => exact absurd rfl (locals_get_eq_none_iff.mp hl moved hunsynced.1)
  | some each => exact ⟨each, rfl⟩

section Paths

variable {b : BaseEntry} {here moved : LocalFile} {there : ScopedItem}

/-- The new path of a move here is split, unless it is out of sight or the server has an item there. -/
theorem CanRepeat.splitsAt_new_iff (h : CanRepeat P input b moved there)
    (hshown : NotExcluded P input (P.pathKey moved.rel)) :
    SplitsAt (view P input) (P.pathKey moved.rel) ↔
      ¬ (OutOfSight P input (P.pathKey moved.rel) ∨ ¬ FreeThere P input moved.rel) := by
  obtain ⟨⟨each, hh⟩, hnew⟩ := h.target_here
  by_cases hout : OutOfSight P input (P.pathKey moved.rel)
  · rw [splitsAt_outOfSight_iff hshown hout]
    unfold BaseAt
    simp [hnew, hout]
  · rw [splitsAt_inSight_iff hshown hout]
    simp only [hout, false_or, not_not]
    constructor
    · rintro hsplit
      by_contra htaken
      obtain ⟨other, ht⟩ := exists_get_of_not_free htaken
      obtain ⟨mine, hedited⟩ := (decisionAt_onBothSides_iff hh ht).mp hsplit
      -- without a record both sides count as changed
      rcases hedited.changed with ⟨-, hr, -⟩ | ⟨hl, -, -⟩
      · rw [hnew] at hr
        cases hr
      · rw [hnew] at hl
        cases hl
    · intro hfree
      refine decisionAt_onlyHere hh (remote_get_eq_none_iff.mpr hfree) (.inl h.mode) ?_
      rintro ⟨-, hsave, -⟩
      rw [hnew] at hsave
      cases hsave

/-- The old path of a move here is always split: this computer has nothing there, and the base has. -/
theorem CanRepeat.splitsAt_old (h : CanRepeat P input b moved there) (hb : b ∈ input.base)
    (hshown : NotExcluded P input (P.pathKey b.rel)) : SplitsAt (view P input) (P.pathKey b.rel) := by
  obtain ⟨previous, hp⟩ := exists_baseAt (P := P) hb
  have hh := locals_get_eq_none_iff.mpr h.missing
  by_cases hout : OutOfSight P input (P.pathKey b.rel)
  · exact (splitsAt_outOfSight_iff hshown hout).mpr ⟨previous, hp⟩
  · rw [splitsAt_inSight_iff hshown hout]
    cases ht : (view P input).remote.get (P.pathKey b.rel) with
    | none => exact decisionAt_nowhere hh ht hp
    | some other => exact decisionAt_onlyThere hh ht (.inr ⟨previous, hp⟩)

/-- The new path of a move on the server is split, unless it is out of sight and without a record. -/
theorem CanFollow.splitsAt_new_iff (h : CanFollow P input b here there)
    (hshown : NotExcluded P input (P.pathKey there.rel)) :
    SplitsAt (view P input) (P.pathKey there.rel) ↔ ¬ (OutOfSight P input (P.pathKey there.rel) ∧
      ∀ each ∈ input.base, P.pathKey each.rel ≠ P.pathKey there.rel) := by
  by_cases hout : OutOfSight P input (P.pathKey there.rel)
  · rw [splitsAt_outOfSight_iff hshown hout, ← base_get_eq_none_iff]
    simp only [hout, true_and]
    exact Option.ne_none_iff_exists'.symm
  · rw [splitsAt_inSight_iff hshown hout]
    simp only [hout, false_and, not_false_eq_true, iff_true]
    obtain ⟨other, ht⟩ := exists_get_of_not_free (followsServer_iff.mpr h).target_there
    exact decisionAt_onlyThere (locals_get_eq_none_iff.mpr h.free) ht (.inl h.mode)

/-- The old path of a move on the server is split, unless it is in sight and taken. -/
theorem CanFollow.splitsAt_old_iff (h : CanFollow P input b here there) (hb : b ∈ input.base)
    (hshown : NotExcluded P input (P.pathKey b.rel)) :
    SplitsAt (view P input) (P.pathKey b.rel) ↔
      ¬ (¬ OutOfSight P input (P.pathKey b.rel) ∧ OldPathTaken P input (P.pathKey b.rel) here) := by
  obtain ⟨previous, hp⟩ := exists_baseAt (P := P) hb
  have hh := locals_get_iff.mpr h.stays
  by_cases hout : OutOfSight P input (P.pathKey b.rel)
  · rw [splitsAt_outOfSight_iff hshown hout]
    simp only [hout, not_true_eq_false, false_and, not_false_eq_true, iff_true]
    exact ⟨previous, hp⟩
  · rw [splitsAt_inSight_iff hshown hout]
    simp only [hout, not_false_eq_true, true_and]
    unfold OldPathTaken
    cases ht : (view P input).remote.get (P.pathKey b.rel) with
    | none =>
      have hfree := remote_get_eq_none_iff.mp ht
      constructor
      · rintro ⟨a, hact, ha⟩ (⟨other, hother, -⟩ | ⟨-, hfile, hsum, hknown, first, hfirst, hunknown⟩)
        · rw [remote_get_iff.mpr hother] at ht
          cases ht
        · have hsave : idToSave ((view P input).base.get (P.pathKey b.rel)) here = true := by
            rw [show (view P input).base.get _ = some first from hfirst]
            simp [idToSave, hunknown, hknown]
          rw [decisionAt_unhashed hh ht hfile hsave hsum] at hact
          cases hact
      · intro hnot
        refine decisionAt_onlyHere hh ht (.inr ⟨previous, hp⟩) ?_
        rintro ⟨hfile, hsave, hsum⟩
        rw [show (view P input).base.get _ = some previous from hp] at hsave
        simp only [idToSave, Option.map_some, Bool.and_eq_true, decide_eq_true_eq, Option.some.injEq] at hsave
        exact hnot (.inr ⟨hfree, hfile, hsum, hsave.2, previous, hp, hsave.1⟩)
    | some other =>
      rw [decisionAt_onBothSides_iff hh ht]
      constructor
      · rintro ⟨mine, hedited⟩ (⟨other', hother', hnone⟩ | ⟨hfree, -⟩)
        · obtain rfl := Option.some.inj (ht.symm.trans (remote_get_iff.mpr hother'))
          exact hnone mine hedited
        · obtain ⟨hmem, hkey⟩ := of_remote_get ht
          exact hfree other hmem hkey
      · intro hnot
        by_contra hnone
        exact hnot (.inl ⟨other, remote_get_iff.mp ht, not_exists.mp hnone⟩)

end Paths

/-! ## Moves kept whole -/

/-- A path of a move is one the walk goes through: it has a record, or an item on one of the sides. -/
theorem recognisedMove_mem_planKeys {b : BaseEntry} {move : Move} {k : Rel} (hb : b ∈ input.base)
    (h : recognisedMove P (view P input) b = some move) (hk : k = P.pathKey b.rel ∨ k = move.target) :
    k ∈ planKeys (view P input) := by
  rw [mem_planKeys]
  rcases hk with rfl | rfl
  · exact .inr (.inr (exists_baseAt hb))
  · obtain ⟨here, there, hf, -, htarget⟩ | ⟨moved, there, hr, -, htarget⟩ := movesBy_of_recognised h
    · rw [htarget]
      exact .inr (.inl (exists_get_of_not_free (followsServer_iff.mpr hf).target_there))
    · rw [htarget]
      exact .inl hr.target_here.1

theorem splits_eq_false_of_move {entry : BaseEntry} {move : Move} {a : Action}
    (h : recognisedMove P v entry = some move) (ha : move.action = some a) :
    a.splits = false := by
  rcases recognisedMove_cases h with h | h
  · obtain ⟨_, _, _, rfl⟩ := serverMove_action h ha
    rfl
  · obtain ⟨_, _, _, _, _, _, rfl⟩ := localMove_action h ha
    rfl

/-- An action of the walk names the path it was decided for. -/
theorem pathKey_rel_of_contributes {k : Rel} {a : Action} (hk : k ∈ planKeys (view P input))
    (h : ContributesAction (view P input) k a) : P.pathKey a.rel = k := by
  rcases h with ⟨-, previous, hp, rfl⟩ | ⟨-, hact⟩
  · exact (of_base_get hp).2
  · have hcell := pathKey_cellAt_rel hk
    have hthere : ∀ there, (cellAt (view P input) k).there = some there →
        P.pathKey there.rel = k := fun there ht => (of_remote_get ht).2
    have ho := decide_outcome hact
    generalize (decide _ (cellAt (view P input) k) _ []).1.gone = gone at ho
    cases ho <;> first | exact hcell | (apply hthere; assumption)

/-- Moves are kept whole exactly when no path of a move that comes up is split. -/
theorem movesKeptWhole_iff_unsplit : MovesKeptWhole P input ↔ (NoMoveToMake P input →
    ∀ b ∈ input.base, ∀ move, recognisedMove P (view P input) b = some move →
      ∀ k, k = P.pathKey b.rel ∨ k = move.target → ComesUp P input k → ¬ SplitsAt (view P input) k) := by
  constructor
  · rintro hkeep hmake b hb move hmove k hk hcomes ⟨a, hact, ha⟩
    obtain ⟨hhold, hmoves⟩ := noMoveToMake_iff.mp hmake
    have hkey := recognisedMove_mem_planKeys hb hmove hk
    have hmem : a ∈ (walkOf P input).actions :=
      mem_walk_actions.mpr ⟨k, visited_iff_comesUp.mpr ⟨hkey, hcomes⟩, hact⟩
    have hnone := hkeep b hb move (recognisedMove_iff.mp hmove) a
      (mem_plan_actions.mpr ⟨hhold, .inr ⟨hmoves, hmem⟩⟩) ha
    have hrel := pathKey_rel_of_contributes hkey hact
    rcases hk with rfl | rfl
    · exact hnone.1 hrel
    · exact hnone.2 hrel
  · intro hnone b hb move hmove a ha hsplits
    obtain ⟨hhold, ⟨-, hm⟩ | ⟨hmoves, hw⟩⟩ := mem_plan_actions.mp ha
    · obtain ⟨_, -, _, hrec, hact⟩ := of_mem_planMoves hm
      rw [splits_eq_false_of_move hrec hact] at hsplits
      cases hsplits
    · obtain ⟨k, hvisited, hact⟩ := mem_walk_actions.mp hw
      obtain ⟨hkey, hcomes⟩ := visited_iff_comesUp.mp hvisited
      have habsurd : ¬ (k = P.pathKey b.rel ∨ k = move.target) := fun hk =>
        hnone (noMoveToMake_iff.mpr ⟨hhold, hmoves⟩) b hb move (recognisedMove_iff.mpr hmove) k hk hcomes
          ⟨a, hact, hsplits⟩
      rw [pathKey_rel_of_contributes hkey hact]
      exact not_or.mp habsurd

/-- A recognised move is never planned as a delete and a new item, exactly when dropped moves are
hidden, wherever the plan comes to the paths. -/
theorem plan_keeps_moves_whole_iff (P : Platform) (input : PlanInput) :
    MovesKeptWhole P input ↔ (NoMoveToMake P input → DroppedMovesHidden P input) := by
  rw [movesKeptWhole_iff_unsplit]
  refine imp_congr_right fun _ => ⟨fun hunsplit => ?_, fun hhidden b hb move hmove k hk hcomes => ?_⟩
  · have hpath : ∀ b ∈ input.base, ∀ k, OfMove P input b k → (∃ t, MovesTo P input b t) → ComesUp P input k →
        ¬ SplitsAt (view P input) k := by
      rintro b hb k hof ⟨t, hmoves⟩ hcomes
      obtain ⟨move, hmove, -⟩ := hmoves.recognised
      exact hunsplit b hb move hmove k ((ofMove_iff hmove).mp hof) hcomes
    constructor
    · intro b hb moved there hr hcomes
      by_contra hnot
      exact hpath b hb _ (.inr (.onLocal hr)) ⟨_, .onLocal hr⟩ hcomes
        ((hr.splitsAt_new_iff hcomes.shown).mpr hnot)
    · intro b hb moved there hr hcomes
      exact hpath b hb _ (.inl rfl) ⟨_, .onLocal hr⟩ hcomes (hr.splitsAt_old hb hcomes.shown)
    · intro b hb here there hf hcomes
      by_contra hnot
      exact hpath b hb _ (.inr (.onServer hf)) ⟨_, .onServer hf⟩ hcomes
        ((hf.splitsAt_new_iff hcomes.shown).mpr hnot)
    · intro b hb here there hf hcomes
      by_contra hnot
      exact hpath b hb _ (.inl rfl) ⟨_, .onServer hf⟩ hcomes
        ((hf.splitsAt_old_iff hb hcomes.shown).mpr hnot)
  · obtain ⟨here, there, hf, -, htarget⟩ | ⟨moved, there, hr, -, htarget⟩ := movesBy_of_recognised hmove
    · rw [htarget] at hk
      rcases hk with rfl | rfl
      · rw [hf.splitsAt_old_iff hb hcomes.shown, not_not]
        exact hhidden.oldThere b hb here there hf hcomes
      · rw [hf.splitsAt_new_iff hcomes.shown, not_not]
        exact hhidden.newThere b hb here there hf hcomes
    · rw [htarget] at hk
      rcases hk with rfl | rfl
      · exact (hhidden.oldHere b hb moved there hr hcomes).elim
      · rw [hr.splitsAt_new_iff hcomes.shown, not_not]
        exact hhidden.newHere b hb moved there hr hcomes

/-- A synced folder moved into a new folder, and then a synced file moved into it. The server does
not have the new folder yet. -/
def movedIntoMovedFolder : PlanInput :=
  smallPair .twoWay
    [smallFolder "new" "2", smallFolder "new/docs" "10", smallFile "new/docs/a" "11" none]
    [serverFolder "docs" "f1", serverFile "a" "r1" (some "x") 1]
    [syncedAs (smallFolder "docs" "10") "f1" none,
      syncedAs (smallFile "a" "11" none) "r1" (some "x")]

/-- The file's move is dropped for the folder's, and its old path forgotten while the server still
has it there. -/
theorem movedIntoMovedFolder_forgotten : ¬ MovesKeptWhole linux movedIntoMovedFolder := by
  intro h
  have hmove : localMove linux (view linux movedIntoMovedFolder)
      (syncedAs (smallFile "a" "11" none) "r1" (some "x")) =
      some { target := "new/docs/a".toList, action := none } := rfl
  exact (h _ (by decide) _ (Or.inr hmove) (.forget "a".toList) (by decide) rfl).1 rfl

end Staaash.Planner
