import Staaash.Planner.Proofs.PlanProofs

/-!
# Proofs: what a plan overwrites

No planned action loses an update: what it would replace is nothing, or content both sides have
already synced. A file changed on both sides is linked, copied aside or kept.
-/

namespace Staaash.Planner

variable {P : Platform} {input : PlanInput}

theorem freeHere_of_get {rel : Rel} (h : (view P input).locals.get (P.pathKey rel) = none) :
    FreeHere P input rel :=
  locals_get_eq_none_iff.mp h

theorem freeThere_of_get {rel : Rel} (h : (view P input).remote.get (P.pathKey rel) = none) :
    FreeThere P input rel :=
  remote_get_eq_none_iff.mp h

theorem of_localChanged_eq_false {previous : Option BaseEntry} {mine : Option String}
    (h : localChanged previous mine = false) :
    ∃ entry, previous = some entry ∧ mine = entry.checksum := by
  cases previous with
  | none => cases h
  | some entry => exact ⟨entry, rfl, by simpa [localChanged] using h⟩

theorem of_remoteChanged_eq_false {previous : Option BaseEntry} {there : ScopedItem}
    (h : remoteChanged previous there = false) :
    ∃ entry, previous = some entry ∧ UnchangedThere there entry := by
  cases previous with
  | none => cases h
  | some entry =>
    simp only [remoteChanged, Bool.or_eq_false_iff, decide_eq_false_iff_not, ne_eq, not_not,
      Bool.not_eq_false'] at h
    exact ⟨entry, rfl, h⟩

theorem recognisedMove_overwrites (hd : input.DistinctKeys P) {entry : BaseEntry} {move : Move}
    {a : Action} (h : recognisedMove P (view P input) entry = some move)
    (ha : move.action = some a) : OverwritesOnlySynced P input a := by
  rcases recognisedMove_cases h with h | h
  · obtain ⟨here, onServer, hf, rfl⟩ := serverMove_action h ha
    exact freeHere_of_get hf.free
  · obtain ⟨moved, onServer, -, -, hid, hfree, rfl⟩ := localMove_action h ha
    obtain ⟨hmem, hid⟩ := of_remoteById_get hid
    intro each he hkey
    rcases hfree with hsame | hnone
    · -- The server already did half of the move, so the item at the target is the moved one.
      have hone := remote_get_of_mem hd he
      have htwo := remote_get_of_mem hd hmem
      rw [hkey, ← hsame, htwo] at hone
      rw [← Option.some.inj hone, hid]
    · exact absurd hkey (remote_get_eq_none_iff.mp hnone each he)

theorem outcome_overwrites {k : Rel} {a : Action} {gone : Bool}
    (hk : P.pathKey (cellAt (view P input) k).rel = k)
    (h : Outcome (view P input) (cellAt (view P input) k) (dirtySides (view P input)) a gone) :
    OverwritesOnlySynced P input a := by
  cases h with
  | mkdir hh ht hf hm =>
    refine freeHere_of_get ?_
    rw [(of_remote_get ht).2]
    exact hh
  | downloadNew hh ht hf hm =>
    refine freeHere_of_get ?_
    rw [(of_remote_get ht).2]
    exact hh
  | createRemoteFolder hh ht hf hm =>
    refine freeThere_of_get ?_
    rw [hk]
    exact ht
  | uploadNew hh ht hf hm =>
    refine freeThere_of_get ?_
    rw [hk]
    exact ht
  | downloadReplace hh ht hf hft hc hl hr hm =>
    obtain ⟨previous, hp, rfl⟩ := of_localChanged_eq_false hl
    obtain ⟨hmem, hkey⟩ := of_locals_get hh
    refine ⟨hmem, by rw [hk, hkey], hf, previous, ?_, ?_⟩
    · rw [hk]
      exact hp
    · rw [← hp]
      exact hc
  | uploadReplace hh ht hf hft hc hl hr hm =>
    obtain ⟨previous, hp, hu⟩ := of_remoteChanged_eq_false hr
    obtain ⟨hmem, hkey⟩ := of_remote_get ht
    refine ⟨_, hmem, by rw [hk, hkey], hft, rfl, rfl, previous, ?_, hu.1, hu.2⟩
    rw [hk]
    exact hp
  | clash | linkFolder | trashRemoteFolder | forget | trashLocalFolder | linkFile | keepMine
  | conflictCopy | trashLocalFile | trashRemoteFile => trivial

/-- Every planned action replaces nothing, or what both sides have synced. -/
theorem overwrites_of_mem_plan (hd : input.DistinctKeys P) {a : Action}
    (h : a ∈ (plan P input).actions) : OverwritesOnlySynced P input a := by
  rcases of_mem_plan h with ⟨entry, -, move, hm, ha⟩ | ⟨k, hv, ⟨_, _, rfl⟩ | ⟨gone, ho⟩⟩
  · exact recognisedMove_overwrites hd hm ha
  · trivial
  · exact outcome_overwrites (pathKey_cellAt_rel hv.1) ho

/-! ## Files changed on both sides -/

/-- The key an outcome was decided for is the key of the path it names. -/
theorem Outcome.pathKey_rel {k : Rel} {a : Action} {gone : Bool}
    (hk : P.pathKey (cellAt (view P input) k).rel = k)
    (h : Outcome (view P input) (cellAt (view P input) k) (dirtySides (view P input)) a gone) :
    P.pathKey a.rel = k := by
  cases h with
  | mkdir hh ht hf hm => exact (of_remote_get ht).2
  | downloadNew hh ht hf hm => exact (of_remote_get ht).2
  | clash | linkFolder | trashRemoteFolder | forget | trashLocalFolder | createRemoteFolder
  | linkFile | keepMine | conflictCopy | uploadReplace | downloadReplace | uploadNew
  | trashLocalFile | trashRemoteFile => exact hk

theorem checksumOf_of_sameStat {here : LocalFile} {previous : BaseEntry}
    (h : sameStat here previous = true) :
    checksumOf here (some previous) = some previous.checksum := by
  simp [checksumOf, h]

/-- A file whose saved id is known and unchanged here is not followed by a conflict. -/
theorem FollowsServer.unknown_of_changed {k : Rel} {entry : BaseEntry} {here : LocalFile}
    {onServer there : ScopedItem} {mine : Option String}
    (h : FollowsServer P (view P input) entry here onServer)
    (hc : ChangedOnBothSides P input k here there mine) (hb : BaseAt P input k entry) :
    entry.ino = UNKNOWN_INO := by
  have hfile : entry.type = .file := h.type ▸ hc.here_mem.2.2
  obtain ⟨hsize, hmtime, hino⟩ := h.same hfile
  rcases hino with hu | hino
  · exact hu
  · exfalso
    have hsame : sameStat here entry = true := by simp [sameStat, hsize, hmtime, hino]
    have hknown := hc.known
    have hchanged := hc.localChanged
    rw [show (view P input).base.get k = some entry from hb] at hknown hchanged
    rw [checksumOf_of_sameStat hsame] at hknown
    simp [localChanged, ← Option.some.inj hknown] at hchanged

theorem outcome_resolves {k : Rel} {here : LocalFile} {there : ScopedItem} {mine : Option String}
    (hd : input.DistinctKeys P) (hc : ChangedOnBothSides P input k here there mine) {a : Action}
    {gone : Bool}
    (h : Outcome (view P input) (cellAt (view P input) k) (dirtySides (view P input)) a gone) :
    ResolvesConflict input there mine a := by
  obtain ⟨hmem, hkey, hfile⟩ := hc.here_mem
  obtain ⟨hmem', hkey', hfile'⟩ := hc.there_mem
  have hh : (view P input).locals.get k = some here := hkey ▸ locals_get_of_mem hd.onLocal hmem
  have ht : (view P input).remote.get k = some there := hkey' ▸ remote_get_of_mem hd hmem'
  have hcell : (cellAt (view P input) k).here = some here := hh
  have hcell' : (cellAt (view P input) k).there = some there := ht
  have hchecksum : checksumOf here (cellAt (view P input) k).previous = some mine := hc.known
  cases h with
  | clash h1 h2 hne hm =>
    rw [hcell] at h1
    rw [hcell'] at h2
    obtain rfl := Option.some.inj h1
    obtain rfl := Option.some.inj h2
    exact absurd (hfile.trans hfile'.symm) hne
  | linkFolder h1 h2 hf =>
    rw [hcell] at h1
    obtain rfl := Option.some.inj h1
    rw [hfile] at hf
    cases hf
  | forget hp hm =>
    rw [hcell, hcell'] at hm
    rcases hm with hm | hm <;> cases hm
  | linkFile h1 h2 hf hft h3 he =>
    rw [hcell] at h1
    rw [hcell'] at h2
    obtain rfl := Option.some.inj h1
    obtain rfl := Option.some.inj h2
    rw [hchecksum] at h3
    exact (Option.some.inj h3).trans he
  | keepMine h1 h2 hf hft h3 hm => exact hm
  | conflictCopy h1 h2 hf hft h3 hm => exact hm
  | uploadReplace h1 h2 hf hft h3 hl hr hm =>
    rw [hcell'] at h2
    obtain rfl := Option.some.inj h2
    have := hc.remoteChanged
    rw [show (view P input).base.get k = (cellAt (view P input) k).previous from rfl, hr] at this
    cases this
  | downloadReplace h1 h2 hf hft h3 hl hr hm =>
    rw [hcell] at h1
    obtain rfl := Option.some.inj h1
    rw [hchecksum] at h3
    obtain rfl := Option.some.inj h3
    have := hc.localChanged
    rw [show (view P input).base.get k = (cellAt (view P input) k).previous from rfl, hl] at this
    cases this
  | trashRemoteFolder h1 | mkdir h1 | downloadNew h1 | trashRemoteFile h1 =>
    rw [hcell] at h1
    cases h1
  | trashLocalFolder h1 h2 | createRemoteFolder h1 h2 | uploadNew h1 h2 | trashLocalFile h1 h2 =>
    rw [hcell'] at h2
    cases h2

/-- What a plan may do with a file changed on both sides. -/
theorem resolves_of_mem_plan (hd : input.DistinctKeys P) {k : Rel} {here : LocalFile}
    {there : ScopedItem} {mine : Option String} (hc : ChangedOnBothSides P input k here there mine)
    {a : Action} (h : a ∈ (plan P input).actions) (hk : P.pathKey a.rel = k) :
    ResolvesConflict input there mine a ∨ FollowsRename P input k here a ∨
      ForgottenWithFolder P input k a := by
  have hh : (view P input).locals.get k = some here :=
    hc.here_mem.2.1 ▸ locals_get_of_mem hd.onLocal hc.here_mem.1
  obtain ⟨-, ⟨-, hm⟩ | ⟨-, hw⟩⟩ := mem_plan_actions.mp h
  · obtain ⟨entry, hmem, move, hm, ha⟩ := of_mem_planMoves hm
    rcases recognisedMove_cases hm with hm | hm
    · obtain ⟨here', onServer, hf, rfl⟩ := serverMove_action hm ha
      have hkey := (of_locals_get hf.stays).2
      have hkk : P.pathKey here'.rel = k := hk
      have hentry : P.pathKey entry.rel = k := hkey.symm.trans hkk
      have hsame : here' = here := by
        have hs := hf.stays
        rw [hentry, hh] at hs
        exact (Option.some.inj hs).symm
      subst hsame
      have hfile : entry.type = .file := hf.type ▸ hc.here_mem.2.2
      refine Or.inr (Or.inl ⟨rfl, hentry ▸ hf.moved, entry, hmem, hentry,
        ((of_remoteById_get hf.item).2).symm, (hf.same hfile).1, (hf.same hfile).2.1, ?_⟩)
      exact hf.unknown_of_changed hc
    · obtain ⟨moved, onServer, hnone, -, -, -, rfl⟩ := localMove_action hm ha
      rw [show P.pathKey entry.rel = k from hk, hh] at hnone
      cases hnone
  · obtain ⟨k', hv, ⟨hvan, previous, hp, rfl⟩ | ⟨-, hdec⟩⟩ := mem_walk_actions.mp hw
    · have : k' = k := by
        rw [← hk]
        exact (of_base_get hp).2.symm
      subst this
      exact Or.inr (Or.inr (outOfSight_of_covered hvan))
    · have ho := decide_outcome hdec
      have : k' = k := by
        rw [← hk]
        exact (ho.pathKey_rel (pathKey_cellAt_rel hv.1)).symm
      subst this
      exact Or.inl (outcome_resolves hd hc ho)

/-- No planned action loses an update. Besides the three answers to a file changed on both sides,
a plan can only follow a server rename of it, or forget it with a folder that went out of sight;
neither touches the content of either side. -/
theorem plan_loses_no_update (P : Platform) (input : PlanInput) (hd : input.DistinctKeys P) :
    ∀ a ∈ (plan P input).actions, OverwritesOnlySynced P input a ∧
      ∀ k here there mine, ChangedOnBothSides P input k here there mine → P.pathKey a.rel = k →
        ResolvesConflict input there mine a ∨ FollowsRename P input k here a ∨
          ForgottenWithFolder P input k a :=
  fun _ ha => ⟨overwrites_of_mem_plan hd ha, fun _ _ _ _ hc hk => resolves_of_mem_plan hd hc ha hk⟩

/-- A file edited on both sides since it was synced. -/
def editedOnBothSides : PlanInput :=
  smallPair .twoWay [smallFile "a" "2" (some "y")] [serverFile "a" "r1" (some "z") 2]
    [syncedAs (smallFile "a" "1" none) "r1" (some "x")]

theorem editedOnBothSides_changed :
    ChangedOnBothSides linux editedOnBothSides "a".toList (smallFile "a" "2" (some "y"))
      (serverFile "a" "r1" (some "z") 2) (some "y") :=
  ⟨by decide, by decide, by decide, by decide, by decide⟩

theorem plan_loses_no_update_editedOnBothSides :
    ResolvesConflict editedOnBothSides (serverFile "a" "r1" (some "z") 2) (some "y")
        (.conflictCopy "a".toList (smallFile "a" "2" (some "y")) false none) ∨
      FollowsRename linux editedOnBothSides "a".toList (smallFile "a" "2" (some "y"))
        (.conflictCopy "a".toList (smallFile "a" "2" (some "y")) false none) ∨
      ForgottenWithFolder linux editedOnBothSides "a".toList
        (.conflictCopy "a".toList (smallFile "a" "2" (some "y")) false none) :=
  (plan_loses_no_update linux editedOnBothSides ⟨by decide, by decide⟩ _ (by decide)).2
    "a".toList _ _ _ editedOnBothSides_changed (by decide)

/-- A file whose saved id is unknown, edited here within its size and time; the server renamed it
and put another file in its place. -/
def renamedUnderEdit : PlanInput :=
  smallPair .twoWay [smallFile "a" "7" (some "y")]
    [serverFile "b" "r1" (some "x") 1, serverFile "a" "r2" (some "z") 1]
    [syncedAs (smallFile "a" UNKNOWN_INO none) "r1" (some "x")]

/-- The file changed on both sides, and the plan moves it instead of making a conflict copy. -/
theorem renamedUnderEdit_moves :
    renamedUnderEdit.DistinctKeys linux ∧
      ChangedOnBothSides linux renamedUnderEdit "a".toList (smallFile "a" "7" (some "y"))
        (serverFile "a" "r2" (some "z") 1) (some "y") ∧
      .moveLocal "a".toList "b".toList (serverFile "b" "r1" (some "x") 1).item ∈
        (plan linux renamedUnderEdit).actions ∧
      ¬ ResolvesConflict renamedUnderEdit (serverFile "a" "r2" (some "z") 1) (some "y")
        (.moveLocal "a".toList "b".toList (serverFile "b" "r1" (some "x") 1).item) :=
  ⟨⟨by decide, by decide⟩, ⟨by decide, by decide, by decide, by decide, by decide⟩, by decide, id⟩

end Staaash.Planner
