import Staaash.Planner.Proofs.DeletionSafetyProofs
import Staaash.Planner.Proofs.PendingProofs

/-!
# Proofs: when a plan deletes what moved, or what was not synced

Moves are recognised for each entry, deletions of folders take whole subtrees. The trash actions of
a plan are exactly the removed paths that come up in sight, so a thing that moved is deleted exactly when
such a path is, or holds, its other copy. A file is compared with its base entry before it is deleted, and of a
folder only what is inside is.
-/

namespace Staaash.Planner

variable {P : Platform} {input : PlanInput} {v : View} {pending : List Rel}

/-! ## Decisions that delete -/

/-- What `decide` looks at before it deletes a path on the server. -/
structure DeletedHere (v : View) (k : Rel) (there : ScopedItem) : Prop where
  mode : v.mode = .twoWay
  missing : v.locals.get k = none
  stays : v.remote.get k = some there
  synced : ∃ previous, v.base.get k = some previous ∧ stillHere v previous = false ∧
    (there.item.type = .folder → k ∉ (dirtySides v).onRemote) ∧
    (there.item.type = .file → UnchangedThere there previous)

/-- What `decide` looks at before it deletes a local path. -/
structure DeletedThere (v : View) (k : Rel) (here : LocalFile) : Prop where
  mode : v.mode ≠ .upload
  stays : v.locals.get k = some here
  missing : v.remote.get k = none
  synced : ∃ previous, v.base.get k = some previous ∧ stillOnServer v previous = false ∧
    (here.type = .folder → k ∉ (dirtySides v).onLocal) ∧
    (here.type = .file → UnchangedHere here previous)

def DeletedFolder (v : View) (k : Rel) : Prop :=
  (∃ there, DeletedHere v k there ∧ there.item.type = .folder) ∨
    ∃ here, DeletedThere v k here ∧ here.type = .folder

theorem decisionAt_of_deletedHere {k : Rel} {there : ScopedItem} (h : DeletedHere v k there) :
    decisionAt v k =
      { action := some (.trashRemote (cellAt v k).rel there.item)
        gone := there.item.type = .folder } := by
  obtain ⟨hm, hh, ht, previous, hp, hs, hfolder, hfile⟩ := h
  unfold decisionAt decide
  rw [show (cellAt v k).here = none from hh, show (cellAt v k).there = some there from ht]
  simp only [Option.map_none, Option.none_or, Option.map_some, Option.some_or, Option.some.injEq]
  cases hty : there.item.type with
  | folder =>
    have hd : (dirtySides v).onRemote.contains (cellAt v k).key = false := by
      simpa [cellAt] using hfolder hty
    rw [if_pos rfl]
    unfold planFolder folderOnlyThere
    rw [show (cellAt v k).here = none from hh, show (cellAt v k).there = some there from ht,
      show (cellAt v k).previous = some previous from hp]
    simp only [hm, hs, hd]
    rfl
  | file =>
    obtain ⟨hid, hsame⟩ := hfile hty
    rw [if_neg (by simp)]
    unfold fileOnlyThere
    rw [show (cellAt v k).previous = some previous from hp]
    simp [hm, hs, hid, hsame, Decision.only]

theorem decisionAt_of_deletedThere {k : Rel} {here : LocalFile} (h : DeletedThere v k here) :
    decisionAt v k =
      { action := some (.trashLocal (cellAt v k).rel here), gone := here.type = .folder } := by
  obtain ⟨hm, hh, ht, previous, hp, hs, hfolder, hfile⟩ := h
  unfold decisionAt decide
  rw [show (cellAt v k).here = some here from hh, show (cellAt v k).there = none from ht]
  simp only [Option.map_some, Option.some_or, Option.some.injEq]
  cases hty : here.type with
  | folder =>
    have hd : (dirtySides v).onLocal.contains (cellAt v k).key = false := by
      simpa [cellAt] using hfolder hty
    rw [if_pos rfl]
    unfold planFolder folderOnlyHere
    rw [show (cellAt v k).here = some here from hh, show (cellAt v k).there = none from ht,
      show (cellAt v k).previous = some previous from hp]
    dsimp only
    rw [hs, hd, if_pos (by simp [hm])]
    rfl
  | file =>
    have hu : (sameStat here previous ||
        (idToSave (some previous) here && here.checksum.map some = some previous.checksum)) =
        true := by
      simpa [UnchangedHere] using hfile hty
    have hnot : (idToSave (some previous) here && here.checksum = none) = false := by
      rw [Bool.and_eq_false_iff]
      rcases hfile hty with hsame | ⟨-, hsum⟩
      · left
        -- An id worth saving differs from the unknown one, so the stat would have changed.
        simp only [sameStat, Bool.and_eq_true, decide_eq_true_eq] at hsame
        simp only [idToSave, Option.map_some, Option.some.injEq, Bool.and_eq_false_iff,
          decide_eq_false_iff_not, ne_eq, not_not]
        by_cases hu : previous.ino = UNKNOWN_INO
        · exact Or.inr (hsame.2.trans hu)
        · exact Or.inl hu
      · right
        cases hsum' : here.checksum with
        | none => rw [hsum'] at hsum; cases hsum
        | some c => simp
    rw [if_neg (by simp), show (cellAt v k).previous = some previous from hp]
    simp only [hnot, Bool.false_eq_true, if_false]
    unfold fileOnlyHere
    rw [show (cellAt v k).previous = some previous from hp]
    simp only [Option.map_some, Option.getD_some, hs, Bool.false_eq_true, if_false, hu]
    rw [if_neg (by simp [hm])]
    rfl

theorem deletedHere_of_action {k rel : Rel} {remote : RemoteItem}
    (h : (decisionAt v k).action = some (.trashRemote rel remote)) :
    ∃ there, DeletedHere v k there ∧ rel = (cellAt v k).rel ∧ remote = there.item := by
  have ho := decide_outcome h
  generalize (decide v (cellAt v k) (dirtySides v) []).1.gone = gone at ho
  cases ho with
  | trashRemoteFolder hh ht hp hf hm hd hs =>
    refine ⟨_, ⟨hm, hh, ht, _, hp, hs, fun _ => hd, fun hfile => ?_⟩, rfl, rfl⟩
    rw [hf] at hfile
    cases hfile
  | trashRemoteFile hh ht hp hf hm hs hu =>
    refine ⟨_, ⟨hm, hh, ht, _, hp, hs, fun hfolder => ?_, fun _ => hu⟩, rfl, rfl⟩
    rw [hf] at hfolder
    cases hfolder

theorem deletedThere_of_action {k rel : Rel} {here : LocalFile}
    (h : (decisionAt v k).action = some (.trashLocal rel here)) :
    DeletedThere v k here ∧ rel = (cellAt v k).rel := by
  have ho := decide_outcome h
  generalize (decide v (cellAt v k) (dirtySides v) []).1.gone = gone at ho
  cases ho with
  | trashLocalFolder hh ht hp hf hm hd hs =>
    refine ⟨⟨hm, hh, ht, _, hp, hs, fun _ => hd, fun hfile => ?_⟩, rfl⟩
    rw [hf] at hfile
    cases hfile
  | trashLocalFile hh ht hp hf hm hs hu =>
    refine ⟨⟨hm, hh, ht, _, hp, hs, fun hfolder => ?_, fun _ => hu⟩, rfl⟩
    rw [hf] at hfolder
    cases hfolder

theorem decisionAt_gone_iff {k : Rel} : (decisionAt v k).gone = true ↔ DeletedFolder v k := by
  constructor
  · intro h
    obtain ⟨a, ha⟩ := decide_action_of_gone h
    have ho := decide_outcome ha
    rw [show (decide v (cellAt v k) (dirtySides v) []).1.gone = true from h] at ho
    cases ho with
    | trashRemoteFolder hh ht hp hf hm hd hs =>
      obtain ⟨there, hdel, -, he⟩ := deletedHere_of_action ha
      exact Or.inl ⟨there, hdel, by rw [← he, hf]⟩
    | trashLocalFolder hh ht hp hf hm hd hs => exact Or.inr ⟨_, (deletedThere_of_action ha).1, hf⟩
  · rintro (⟨there, hdel, hf⟩ | ⟨here, hdel, hf⟩)
    · rw [decisionAt_of_deletedHere hdel]
      exact decide_eq_true hf
    · rw [decisionAt_of_deletedThere hdel]
      exact decide_eq_true hf

/-! ## Removed paths -/

theorem not_mem_dirtySides_nil : [] ∉ (dirtySides (view P input)).onLocal ∧
    [] ∉ (dirtySides (view P input)).onRemote := by
  simp only [dirtySides, List.mem_append, not_or]
  refine ⟨⟨fun h => ?_, fun h => ?_⟩, fun h => ?_, fun h => ?_⟩
  · exact (mem_hiddenUnderOf.mp h).1 rfl
  · exact (mem_dirtyFolders.mp h).1 rfl
  · exact (mem_hiddenUnderOf.mp h).1 rfl
  · exact (mem_dirtyFolders.mp h).1 rfl

theorem clean_onRemote_iff {k : Rel} : k ∉ (dirtySides (view P input)).onRemote ↔ (k ≠ [] →
    (∀ q each, Below k q → ServerAt P input q each → ∃ previous, BaseAt P input q previous ∧
      previous.remoteId = each.item.id ∧ (each.item.type = .file → sameOnServer previous each.item = true)) ∧
    ∀ each ∈ input.allExcluded, each.side = .onRemote → ¬ Below k (P.pathKey each.rel)) := by
  by_cases hk : k = []
  · subst hk
    exact ⟨fun _ h => absurd rfl h, fun _ => not_mem_dirtySides_nil.2⟩
  · rw [not_mem_dirtySides_onRemote hk, and_comm]
    refine ⟨fun h _ => h.imp_left fun hclean q each hb hat => ?_,
      fun h => (h hk).imp_left fun hclean q each hget hb => ?_⟩
    · have hget := remote_get_iff.mpr hat
      exact (cleanRemote_iff hget).mp (hclean q each hget hb)
    · exact (cleanRemote_iff hget).mpr (hclean q each hb (remote_get_iff.mp hget))

theorem clean_onLocal_iff {k : Rel} : k ∉ (dirtySides (view P input)).onLocal ↔ (k ≠ [] →
    (∀ q each, Below k q → LocalAt P input q each → ∃ previous, BaseAt P input q previous ∧
      previous.type = each.type ∧ (each.type = .file → sameStat each previous = true)) ∧
    ∀ each ∈ input.allExcluded, each.side = .onLocal → ¬ Below k (P.pathKey each.rel)) := by
  by_cases hk : k = []
  · subst hk
    exact ⟨fun _ h => absurd rfl h, fun _ => not_mem_dirtySides_nil.1⟩
  · rw [not_mem_dirtySides_onLocal hk, and_comm]
    refine ⟨fun h _ => h.imp_left fun hclean q each hb hat => ?_,
      fun h => (h hk).imp_left fun hclean q each hget hb => ?_⟩
    · have hget := locals_get_iff.mpr hat
      exact (cleanLocal_iff hget).mp (hclean q each hget hb)
    · exact (cleanLocal_iff hget).mpr (hclean q each hb (locals_get_iff.mp hget))

theorem deletedHere_iff {k : Rel} {there : ScopedItem} :
    DeletedHere (view P input) k there ↔ RemovedHere P input k there := by
  have hstill : ∀ previous : BaseEntry,
      stillHere (view P input) previous = false ↔ ¬ InodeElsewhere P input previous.ino := fun previous => by
    rw [← stillHere_iff, Bool.not_eq_true]
  constructor
  · rintro ⟨hmode, hmissing, hstays, previous, hp, hgone, hfolder, hfile⟩
    exact ⟨hmode, locals_get_eq_none_iff.mp hmissing, remote_get_iff.mp hstays,
      ⟨previous, hp, (hstill previous).mp hgone, hfile⟩, fun htype => clean_onRemote_iff.mp (hfolder htype)⟩
  · rintro ⟨hmode, hmissing, hstays, ⟨previous, hp, hgone, hfile⟩, hinside⟩
    exact ⟨hmode, locals_get_eq_none_iff.mpr hmissing, remote_get_iff.mpr hstays, previous, hp,
      (hstill previous).mpr hgone, fun htype => clean_onRemote_iff.mpr (hinside htype), hfile⟩

theorem deletedThere_iff {k : Rel} {here : LocalFile} :
    DeletedThere (view P input) k here ↔ RemovedThere P input k here := by
  have hstill : ∀ previous : BaseEntry,
      stillOnServer (view P input) previous = false ↔ ¬ OnServer input previous.remoteId := fun previous => by
    rw [← stillOnServer_iff (P := P), Bool.not_eq_true]
  constructor
  · rintro ⟨hmode, hstays, hmissing, previous, hp, hgone, hfolder, hfile⟩
    exact ⟨hmode, locals_get_iff.mp hstays, remote_get_eq_none_iff.mp hmissing,
      ⟨previous, hp, (hstill previous).mp hgone, hfile⟩, fun htype => clean_onLocal_iff.mp (hfolder htype)⟩
  · rintro ⟨hmode, hstays, hmissing, ⟨previous, hp, hgone, hfile⟩, hinside⟩
    exact ⟨hmode, locals_get_iff.mpr hstays, remote_get_eq_none_iff.mpr hmissing, previous, hp,
      (hstill previous).mpr hgone, fun htype => clean_onLocal_iff.mpr (hinside htype), hfile⟩

theorem deletedFolder_iff {k : Rel} : DeletedFolder (view P input) k ↔ RemovedFolder P input k := by
  unfold DeletedFolder RemovedFolder
  simp only [deletedHere_iff, deletedThere_iff]

/-! ## The paths that come up -/

theorem DeletedFolder.mem_planKeys {k : Rel} (h : DeletedFolder v k) : k ∈ planKeys v := by
  rcases h with ⟨there, h, -⟩ | ⟨here, h, -⟩
  · exact Staaash.Planner.mem_planKeys.mpr (Or.inr (Or.inl ⟨there, h.stays⟩))
  · exact Staaash.Planner.mem_planKeys.mpr (Or.inl ⟨here, h.stays⟩)

theorem covered_three {k : Rel} {a b c : List Rel} :
    covered k [a, b, c] = false ↔ covered k [a, b] = false ∧ covered k [c] = false := by
  simp only [covered_eq_false_iff, List.mem_cons, List.not_mem_nil, or_false, forall_eq_or_imp,
    forall_eq]
  constructor
  · intro h
    exact ⟨fun p hp => ⟨(h p hp).1, (h p hp).2.1⟩, fun p hp => (h p hp).2.2⟩
  · rintro ⟨h1, h2⟩ p hp
    exact ⟨(h1 p hp).1, (h1 p hp).2, h2 p hp⟩

theorem covered_of_below {p k : Rel} {sets : List (List Rel)} (hp : p ≠ []) (hb : Below p k)
    (h : covered k sets = false) : covered p sets = false := by
  rw [covered_eq_false_iff] at h ⊢
  intro q hq
  refine h q (upwards_trans hq ?_)
  exact mem_upwards.mpr ⟨hp, Or.inr hb⟩

/-- Above a deleted folder that nothing covers there is a topmost one, and the walk marks it. -/
theorem exists_gone_of_deletedFolder (n : Nat) {p : Rel} (hn : p.length ≤ n) (hp : p ≠ [])
    (hc : covered p [pending, v.hidden.keys, vanishedFolders v] = false)
    (hd : DeletedFolder v p) :
    ∃ q, q ≠ [] ∧ (q = p ∨ Below q p) ∧ q ∈ (walk v pending).gone := by
  induction n generalizing p with
  | zero => exact absurd (List.length_eq_zero_iff.mp (Nat.le_zero.mp hn)) hp
  | succ n ih =>
    by_cases habove : ∃ q, q ≠ [] ∧ Below q p ∧ DeletedFolder v q
    · obtain ⟨q, hq0, hq, hdq⟩ := habove
      have hlt := hq.length_lt
      obtain ⟨r, hr0, hr, hgone⟩ := ih (by omega) hq0 (covered_of_below hq0 hq hc) hdq
      refine ⟨r, hr0, Or.inr ?_, hgone⟩
      rcases hr with rfl | hr
      · exact hq
      · exact hr.trans hq
    · obtain ⟨hc1, hc2⟩ := covered_three.mp hc
      refine ⟨p, hp, Or.inl rfl, mem_walk_gone.mpr ⟨⟨hd.mem_planKeys, hc1, ?_⟩, hc2, ?_⟩⟩
      · intro q hq0 hq hgone
        exact habove ⟨q, hq0, hq, decisionAt_gone_iff.mp (mem_walk_gone.mp hgone).2.2⟩
      · exact decisionAt_gone_iff.mpr hd

/-- Every path gets its turn exactly when it comes up. -/
theorem visited_iff_comesUp {k : Rel} :
    Visited (view P input) (foundMoves P input).pending k ↔ k ∈ planKeys (view P input) ∧ ComesUp P input k := by
  constructor
  · rintro ⟨hk, hc, hgone⟩
    obtain ⟨hsettled, hshown⟩ := covered_foundMoves_iff.mp hc
    refine ⟨hk, hsettled, hshown, fun p hp0 hp hsight hremoved => ?_⟩
    have hcp := covered_of_below hp0 hp hc
    have hv : covered p [vanishedFolders (view P input)] = false := by
      rw [← Bool.not_eq_true, outOfSight_iff (covered_foundMoves_iff.mp hcp).2]
      exact hsight
    obtain ⟨q, hq0, hq, hmem⟩ := exists_gone_of_deletedFolder _ (Nat.le_refl _) hp0 (covered_three.mpr ⟨hcp, hv⟩)
      (deletedFolder_iff.mpr hremoved)
    refine hgone q hq0 ?_ hmem
    rcases hq with rfl | hq
    · exact hp
    · exact hq.trans hp
  · rintro ⟨hk, hcomes⟩
    have hc := covered_foundMoves_iff.mpr ⟨hcomes.settled, hcomes.shown⟩
    refine ⟨hk, hc, fun p hp0 hp hmem => ?_⟩
    obtain ⟨-, hv, hg⟩ := mem_walk_gone.mp hmem
    refine hcomes.stays p hp0 hp (fun hsight => ?_) (deletedFolder_iff.mp (decisionAt_gone_iff.mp hg))
    rw [(outOfSight_iff (covered_foundMoves_iff.mp (covered_of_below hp0 hp hc)).2).mpr hsight] at hv
    cases hv

theorem RemovedHere.mem_planKeys {k : Rel} {there : ScopedItem} (h : RemovedHere P input k there) :
    k ∈ planKeys (view P input) :=
  Staaash.Planner.mem_planKeys.mpr (.inr (.inl ⟨there, remote_get_iff.mpr h.stays⟩))

theorem RemovedThere.mem_planKeys {k : Rel} {here : LocalFile} (h : RemovedThere P input k here) :
    k ∈ planKeys (view P input) :=
  Staaash.Planner.mem_planKeys.mpr (.inl ⟨here, locals_get_iff.mpr h.stays⟩)

/-- The walk trashes exactly the server items of removed paths that come up in sight. -/
theorem trashRemote_mem_walk {rel : Rel} {remote : RemoteItem} :
    .trashRemote rel remote ∈ (walkOf P input).actions ↔
      ∃ k there, ComesUp P input k ∧ ¬ OutOfSight P input k ∧ RemovedHere P input k there ∧
        rel = (cellAt (view P input) k).rel ∧ remote = there.item := by
  unfold walkOf
  rw [mem_walk_actions]
  constructor
  · rintro ⟨k, hk, ⟨-, _, _, he⟩ | ⟨hc, hdec⟩⟩
    · cases he
    · obtain ⟨there, hd, hrel, hremote⟩ := deletedHere_of_action hdec
      have hcomes := (visited_iff_comesUp.mp hk).2
      refine ⟨k, there, hcomes, fun hsight => ?_, deletedHere_iff.mp hd, hrel, hremote⟩
      rw [(outOfSight_iff hcomes.shown).mpr hsight] at hc
      cases hc
  · rintro ⟨k, there, hcomes, hsight, hd, rfl, rfl⟩
    refine ⟨k, visited_iff_comesUp.mpr ⟨hd.mem_planKeys, hcomes⟩, .inr ⟨?_, ?_⟩⟩
    · rw [← Bool.not_eq_true, outOfSight_iff hcomes.shown]
      exact hsight
    · rw [decisionAt_of_deletedHere (deletedHere_iff.mpr hd)]

/-- The walk trashes exactly the local entries of removed paths that come up in sight. -/
theorem trashLocal_mem_walk {rel : Rel} {here : LocalFile} :
    .trashLocal rel here ∈ (walkOf P input).actions ↔
      ∃ k, ComesUp P input k ∧ ¬ OutOfSight P input k ∧ RemovedThere P input k here ∧
        rel = (cellAt (view P input) k).rel := by
  unfold walkOf
  rw [mem_walk_actions]
  constructor
  · rintro ⟨k, hk, ⟨-, _, _, he⟩ | ⟨hc, hdec⟩⟩
    · cases he
    · obtain ⟨hd, hrel⟩ := deletedThere_of_action hdec
      have hcomes := (visited_iff_comesUp.mp hk).2
      refine ⟨k, hcomes, fun hsight => ?_, deletedThere_iff.mp hd, hrel⟩
      rw [(outOfSight_iff hcomes.shown).mpr hsight] at hc
      cases hc
  · rintro ⟨k, hcomes, hsight, hd, rfl⟩
    refine ⟨k, visited_iff_comesUp.mpr ⟨hd.mem_planKeys, hcomes⟩, .inr ⟨?_, ?_⟩⟩
    · rw [← Bool.not_eq_true, outOfSight_iff hcomes.shown]
      exact hsight
    · rw [decisionAt_of_deletedThere (deletedThere_iff.mpr hd)]

/-- The plan trashes what the walk trashes, where no move is to be made first. -/
theorem trashRemote_mem_plan {rel : Rel} {remote : RemoteItem} :
    .trashRemote rel remote ∈ (plan P input).actions ↔
      NoMoveToMake P input ∧ ∃ k there, ComesUp P input k ∧ ¬ OutOfSight P input k ∧
        RemovedHere P input k there ∧ P.pathKey rel = k ∧ rel = (cellAt (view P input) k).rel ∧
        remote = there.item := by
  rw [mem_plan_actions, noMoveToMake_iff]
  constructor
  · rintro ⟨hhold, ⟨-, hm⟩ | ⟨hmoves, hw⟩⟩
    · obtain ⟨entry, -, move, hrec, hact⟩ := of_mem_planMoves hm
      exact (not_move_of_trashRemote hrec hact).elim
    · obtain ⟨k, there, hcomes, hsight, hd, rfl, rfl⟩ := trashRemote_mem_walk.mp hw
      exact ⟨⟨hhold, hmoves⟩, k, there, hcomes, hsight, hd, pathKey_cellAt_rel hd.mem_planKeys, rfl, rfl⟩
  · rintro ⟨⟨hhold, hmoves⟩, k, there, hcomes, hsight, hd, -, hrel, hremote⟩
    exact ⟨hhold, .inr ⟨hmoves, trashRemote_mem_walk.mpr ⟨k, there, hcomes, hsight, hd, hrel, hremote⟩⟩⟩

theorem trashLocal_mem_plan {rel : Rel} {here : LocalFile} :
    .trashLocal rel here ∈ (plan P input).actions ↔
      NoMoveToMake P input ∧ ∃ k, ComesUp P input k ∧ ¬ OutOfSight P input k ∧
        RemovedThere P input k here ∧ P.pathKey rel = k ∧ rel = (cellAt (view P input) k).rel := by
  rw [mem_plan_actions, noMoveToMake_iff]
  constructor
  · rintro ⟨hhold, ⟨-, hm⟩ | ⟨hmoves, hw⟩⟩
    · obtain ⟨entry, -, move, hrec, hact⟩ := of_mem_planMoves hm
      exact (not_move_of_trashLocal hrec hact).elim
    · obtain ⟨k, hcomes, hsight, hd, rfl⟩ := trashLocal_mem_walk.mp hw
      exact ⟨⟨hhold, hmoves⟩, k, hcomes, hsight, hd, pathKey_cellAt_rel hd.mem_planKeys, rfl⟩
  · rintro ⟨⟨hhold, hmoves⟩, k, hcomes, hsight, hd, -, hrel⟩
    exact ⟨hhold, .inr ⟨hmoves, trashLocal_mem_walk.mpr ⟨k, hcomes, hsight, hd, hrel⟩⟩⟩

/-- A removed path that comes up is trashed, under the path that the planner names it by. -/
theorem RemovedHere.planned {k : Rel} {there : ScopedItem} (h : RemovedHere P input k there)
    (hmake : NoMoveToMake P input) (hcomes : ComesUp P input k) (hsight : ¬ OutOfSight P input k) :
    ∃ rel, .trashRemote rel there.item ∈ (plan P input).actions ∧ P.pathKey rel = k :=
  have hkey := pathKey_cellAt_rel h.mem_planKeys
  ⟨_, trashRemote_mem_plan.mpr ⟨hmake, k, there, hcomes, hsight, h, hkey, rfl, rfl⟩, hkey⟩

theorem RemovedThere.planned {k : Rel} {here : LocalFile} (h : RemovedThere P input k here)
    (hmake : NoMoveToMake P input) (hcomes : ComesUp P input k) (hsight : ¬ OutOfSight P input k) :
    ∃ rel, .trashLocal rel here ∈ (plan P input).actions ∧ P.pathKey rel = k :=
  have hkey := pathKey_cellAt_rel h.mem_planKeys
  ⟨_, trashLocal_mem_plan.mpr ⟨hmake, k, hcomes, hsight, h, hkey, rfl⟩, hkey⟩

/-! ## Things that moved -/

/-- A thing that still exists elsewhere is never deleted by a plan, exactly when no removed path
that comes up in sight is, or holds, its other copy. -/
theorem plan_keeps_moved_iff (P : Platform) (input : PlanInput) :
    KeepsMoved P input ↔ NothingMovedInRemoved P input := by
  constructor
  · intro hkeep hmake k hcomes hsight b hb
    constructor
    · intro hmoved there hremoved t ht hin
      obtain ⟨rel, hplanned, rfl⟩ := hremoved.planned hmake hcomes hsight
      exact hkeep.onServer b hb hmoved rel _ hplanned t ht hin
    · intro hmoved here hremoved hcopy hin
      obtain ⟨rel, hplanned, rfl⟩ := hremoved.planned hmake hcomes hsight
      exact hkeep.onLocal b hb hmoved rel _ hplanned hcopy hin
  · intro hnone
    constructor
    · intro b hb hmoved rel remote ha t ht hin
      obtain ⟨hmake, k, there, hcomes, hsight, hremoved, rfl, -, -⟩ := trashRemote_mem_plan.mp ha
      exact (hnone hmake _ hcomes hsight b hb).1 hmoved there hremoved t ht hin
    · intro b hb hmoved rel here ha hcopy hin
      obtain ⟨hmake, k, hcomes, hsight, hremoved, rfl, -⟩ := trashLocal_mem_plan.mp ha
      exact (hnone hmake _ hcomes hsight b hb).2 hmoved here hremoved hcopy hin

/-- A synced file moved into a new folder while its old folder was removed. The server does not
have the new folder yet. -/
def movedIntoNewFolder : PlanInput :=
  smallPair .twoWay [smallFolder "new" "2", smallFile "new/a" "11" none]
    [serverFolder "docs" "f1", serverFile "docs/a" "r1" (some "x") 1]
    [syncedAs (smallFolder "docs" "10") "f1" none,
      syncedAs (smallFile "docs/a" "11" none) "r1" (some "x")]

/-- The plan trashes the old folder on the server, and with it the file that is mid-move. -/
theorem movedIntoNewFolder_trashed : ¬ KeepsMoved linux movedIntoNewFolder := by
  intro h
  refine h.onServer (syncedAs (smallFile "docs/a" "11" none) "r1" (some "x")) (by decide) ?_
    "docs".toList (serverFolder "docs" "f1").item (by decide) "docs/a".toList ?_ (Or.inr (by decide))
  · exact ⟨by decide, by decide,
      Or.inl ⟨smallFile "new/a" "11" none, ⟨by decide, by decide, by decide⟩, rfl⟩⟩
  · exact Or.inl ⟨serverFile "docs/a" "r1" (some "x") 1, by decide, rfl, rfl⟩

/-! ## Things that were replaced -/

/-- A file that was removed here is the item of the base, and so is a folder that nothing replaced. -/
theorem RemovedHere.sameId {k : Rel} {there : ScopedItem} {previous : BaseEntry}
    (h : RemovedHere P input k there) (hnone : ¬ ReplacedThere P input k there) (hp : BaseAt P input k previous) :
    previous.remoteId = there.item.id ∧ previous.type = there.item.type := by
  obtain ⟨found, hfound, -, hunchanged⟩ := h.synced
  obtain rfl := Option.some.inj (hp.symm.trans hfound)
  have hkept : ¬ (there.item.type = .folder ∧ there.item.id ≠ previous.remoteId ∨ there.item.type ≠ previous.type) :=
    fun hreplaced => hnone ⟨previous, hp, hreplaced⟩
  obtain ⟨hfolder, htype⟩ := not_or.mp hkept
  refine ⟨?_, (not_not.mp htype).symm⟩
  cases hty : there.item.type with
  | file => exact (hunchanged hty).1
  | folder =>
    by_contra hne
    exact hfolder ⟨hty, fun heq => hne heq.symm⟩

/-- A file that was removed on the server is the one of the base, if its inode tells. -/
theorem RemovedThere.sameIno {k : Rel} {here : LocalFile} {previous : BaseEntry}
    (h : RemovedThere P input k here) (hnone : ¬ ReplacedHere P input k here) (hp : BaseAt P input k previous) :
    previous.type = here.type ∧
      (previous.ino ≠ UNKNOWN_INO → here.ino ≠ UNKNOWN_INO → previous.ino = here.ino) := by
  obtain ⟨found, hfound, -, hunchanged⟩ := h.synced
  obtain rfl := Option.some.inj (hp.symm.trans hfound)
  have hkept : ¬ (here.type = .folder ∧ previous.ino ≠ UNKNOWN_INO ∧ here.ino ≠ UNKNOWN_INO ∧
      here.ino ≠ previous.ino ∨ here.type ≠ previous.type) :=
    fun hreplaced => hnone ⟨previous, hp, hreplaced⟩
  obtain ⟨hfolder, htype⟩ := not_or.mp hkept
  refine ⟨(not_not.mp htype).symm, fun hknown hknown' => ?_⟩
  cases hty : here.type with
  | file =>
    rcases hunchanged hty with hstat | ⟨hsave, -⟩
    · simp only [sameStat, Bool.and_eq_true, decide_eq_true_eq] at hstat
      exact hstat.2.symm
    · -- only an unknown id is saved late
      simp only [idToSave, Option.map_some, Bool.and_eq_true, decide_eq_true_eq, Option.some.injEq] at hsave
      exact absurd hsave.1 hknown
  | folder =>
    by_contra hne
    exact hfolder ⟨hty, hknown, hknown', fun heq => hne heq.symm⟩

/-- A plan trashes only the objects of the base, exactly when at no removed path that comes up in
sight something else has come in their place. -/
theorem plan_trashes_only_synced_iff (P : Platform) (input : PlanInput) :
    TrashesOnlySynced P input ↔ NothingReplacedInRemoved P input := by
  constructor
  · intro honly hmake k hcomes hsight
    constructor
    · rintro there hremoved ⟨previous, hp, hreplaced⟩
      obtain ⟨rel, hplanned, rfl⟩ := hremoved.planned hmake hcomes hsight
      obtain ⟨found, hfound, hid, htype⟩ := honly.onServer rel _ hplanned
      obtain rfl := Option.some.inj (hp.symm.trans hfound)
      obtain ⟨-, hother⟩ | hother := hreplaced
      · exact hother hid.symm
      · exact hother htype.symm
    · rintro here hremoved ⟨previous, hp, hreplaced⟩
      obtain ⟨rel, hplanned, rfl⟩ := hremoved.planned hmake hcomes hsight
      obtain ⟨found, hfound, htype, hino⟩ := honly.onLocal rel _ hplanned
      obtain rfl := Option.some.inj (hp.symm.trans hfound)
      obtain ⟨-, hknown, hknown', hother⟩ | hother := hreplaced
      · exact hother (hino hknown hknown').symm
      · exact hother htype.symm
  · intro hnone
    constructor
    · intro rel remote ha
      obtain ⟨hmake, k, there, hcomes, hsight, hremoved, rfl, -, rfl⟩ := trashRemote_mem_plan.mp ha
      obtain ⟨previous, hp, -⟩ := hremoved.synced
      exact ⟨previous, hp, hremoved.sameId ((hnone hmake _ hcomes hsight).1 there hremoved) hp⟩
    · intro rel here ha
      obtain ⟨hmake, k, hcomes, hsight, hremoved, rfl, -⟩ := trashLocal_mem_plan.mp ha
      obtain ⟨previous, hp, -⟩ := hremoved.synced
      exact ⟨previous, hp, hremoved.sameIno ((hnone hmake _ hcomes hsight).2 here hremoved) hp⟩

/-- A synced folder was deleted here; on the server it was deleted too, and created again. -/
def createdAgain : PlanInput :=
  smallPair .twoWay [] [serverFolder "docs" "f2"] [syncedAs (smallFolder "docs" "10") "f1" none]

/-- The plan trashes the new folder. -/
theorem createdAgain_trashed : ¬ TrashesOnlySynced linux createdAgain := by
  intro h
  obtain ⟨previous, hp, hid, -⟩ :=
    h.onServer "docs".toList (serverFolder "docs" "f2").item (by decide)
  have hbase : ((view linux createdAgain).base.get (linux.pathKey "docs".toList)).map
      (·.remoteId) = some "f1" := by decide
  rw [show (view linux createdAgain).base.get _ = some previous from hp, Option.map_some,
    hid] at hbase
  exact absurd hbase (by decide)

end Staaash.Planner
