import Staaash.Planner.Proofs.PlanProofs

/-!
# Proofs: a plan with nothing to do

In a two-way pair without excluded paths every path the walk decides about in silence is the same
on both sides and in the base. Only paths that wait for a move escape the walk.
-/

namespace Staaash.Planner

variable {P : Platform} {input : PlanInput} {v : View} {cell : Cell} {dirty : BySide}

/-- A path that is the same on both sides and in the base. -/
structure Settled (cell : Cell) (here : LocalFile) (there : ScopedItem) (previous : BaseEntry) :
    Prop where
  here_eq : cell.here = some here
  there_eq : cell.there = some there
  previous_eq : cell.previous = some previous
  types : here.type = there.item.type
  ids : previous.remoteId = there.item.id
  contents : here.type = .file → SameContent here there previous

/-! ## Silent decisions -/

theorem fileOnBothSides_silent {here : LocalFile} {there : ScopedItem} {mine : Option String}
    (hm : v.mode = .twoWay) (hc : checksumOf here cell.previous = some mine)
    (h : fileOnBothSides v cell here there mine = none) :
    ∃ previous, cell.previous = some previous ∧ previous.remoteId = there.item.id ∧
      SameContent here there previous := by
  unfold fileOnBothSides at h
  by_cases he : mine = there.item.checksum
  · simp only [he, if_true] at h
    cases hp : cell.previous with
    | none => simp [hp] at h
    | some previous =>
      rw [hp] at h hc
      dsimp only at h
      split_ifs at h with hfresh
      simp only [Bool.and_eq_true, decide_eq_true_eq] at hfresh
      obtain ⟨⟨hid, hrev⟩, hstat⟩ := hfresh
      refine ⟨previous, rfl, hid, ?_⟩
      unfold SameContent
      cases hs : there.item.checksum with
      | none =>
        refine ⟨hrev, ?_⟩
        simp [checksumOf, hstat]
      | some c =>
        show checksumOf here (some previous) = some (some c)
        rw [hc, he, hs]
  · simp only [if_neg he, hm] at h
    cases hl : localChanged cell.previous mine <;> cases hr : remoteChanged cell.previous there <;>
      simp only [hl, hr, Bool.not_true, Bool.not_false, Bool.and_true, Bool.and_false,
        Bool.false_eq_true, if_true, if_false, reduceCtorEq] at h
    cases hp : cell.previous with
    | none => rw [hp] at hl; cases hl
    | some previous =>
      rw [hp] at hl hr hc
      simp only [localChanged, decide_eq_false_iff_not, ne_eq, not_not] at hl
      simp only [remoteChanged, Bool.or_eq_false_iff, decide_eq_false_iff_not, ne_eq, not_not,
        Bool.not_eq_false'] at hr
      obtain ⟨hid, hsame⟩ := hr
      refine ⟨previous, rfl, hid, ?_⟩
      unfold sameOnServer at hsame
      unfold SameContent
      cases hs : there.item.checksum with
      | none =>
        rw [hs] at hsame
        refine ⟨by simpa using hsame, ?_⟩
        rw [hc, hl]
      | some c =>
        -- A checksum of the base that the server still has would be the local one as well.
        rw [hs] at hsame
        exfalso
        refine he ?_
        rw [hl, hs]
        exact (of_decide_eq_true hsame).symm

theorem fileOnlyHere_speaks {here : LocalFile} (hm : v.mode = .twoWay) :
    fileOnlyHere v cell here ≠ none := by
  unfold fileOnlyHere
  dsimp only
  split_ifs with hmoved hupload htrash
  · simp
  · simp
  · simp
  · simp_all

theorem fileOnlyThere_speaks {there : ScopedItem} (hm : v.mode = .twoWay) :
    fileOnlyThere v cell there ≠ none := by
  unfold fileOnlyThere
  dsimp only
  split_ifs with hdownload hmoved htrash
  · simp
  · simp
  · simp
  · simp_all

theorem folderOnlyThere_speaks {there : ScopedItem} {d : List Rel} (hm : v.mode = .twoWay) :
    (folderOnlyThere v cell there d).action ≠ none := by
  simp only [folderOnlyThere, hm]
  split_ifs <;> simp_all [Decision.only]

theorem folderOnlyHere_speaks {here : LocalFile} {d : List Rel} (hm : v.mode = .twoWay) :
    (folderOnlyHere v cell here d).action ≠ none := by
  simp only [folderOnlyHere, hm]
  split_ifs <;> simp_all [Decision.only]

theorem folderOnBothSides_silent {here : LocalFile} {there : ScopedItem}
    (h : (folderOnBothSides cell here there).action = none) :
    ∃ previous, cell.previous = some previous ∧ previous.remoteId = there.item.id := by
  unfold folderOnBothSides at h
  split_ifs at h with hlink
  · cases h
  · simp only [Bool.or_eq_true, decide_eq_true_eq, not_or, not_not, ne_eq] at hlink
    exact Option.map_eq_some_iff.mp hlink.1

theorem forgetIfKnown_silent (h : forgetIfKnown cell = none) : cell.previous = none := by
  unfold forgetIfKnown at h
  cases hp : cell.previous with
  | none => rfl
  | some previous =>
    rw [hp] at h
    cases h

/-- A two-way decision without action and without a file to hash leaves a path that is settled, or
one that nobody has. -/
theorem decide_silent (hm : v.mode = .twoWay) (h : (decide v cell dirty []).1.action = none)
    (hn : (decide v cell dirty []).2 = []) :
    (cell.here = none ∧ cell.there = none ∧ cell.previous = none) ∨
      ∃ here there previous, Settled cell here there previous := by
  unfold decide at h hn
  cases hh : cell.here with
  | none =>
    cases ht : cell.there with
    | none =>
      simp only [hh, ht, planFolder] at h
      refine Or.inl ⟨rfl, rfl, ?_⟩
      split_ifs at h
      all_goals exact forgetIfKnown_silent h
    | some there =>
      exfalso
      simp only [hh, ht, planFolder] at h
      split_ifs at h
      · exact folderOnlyThere_speaks hm h
      · exact fileOnlyThere_speaks hm h
  | some here =>
    cases ht : cell.there with
    | none =>
      exfalso
      simp only [hh, ht, planFolder] at h hn
      split_ifs at h hn
      · exact folderOnlyHere_speaks hm h
      · cases hn
      · exact fileOnlyHere_speaks hm h
    | some there =>
      right
      simp only [hh, ht, planFolder, Option.map_some, Option.some_or, Option.some.injEq,
        decide_eq_true_eq] at h hn
      by_cases hne : here.type = there.item.type
      · rw [if_neg (not_not.mpr hne)] at h hn
        by_cases hf : here.type = .folder
        · rw [if_pos hf] at h
          obtain ⟨previous, hp, hid⟩ := folderOnBothSides_silent h
          refine ⟨here, there, previous, hh, ht, hp, hne, hid, fun hfile => ?_⟩
          rw [hf] at hfile
          cases hfile
        · rw [if_neg hf] at h hn
          cases hc : checksumOf here cell.previous with
          | none => rw [hc] at hn; cases hn
          | some mine =>
            rw [hc] at h
            obtain ⟨previous, hp, hid, hsame⟩ := fileOnBothSides_silent hm hc h
            exact ⟨here, there, previous, hh, ht, hp, hne, hid, fun _ => hsame⟩
      · rw [if_pos hne, if_neg (by simp [hm])] at h
        cases h

/-! ## No move, no path left out -/

theorem foldl_planMove_none {es : List BaseEntry} {acc : Moves}
    (h : ∀ entry ∈ es, recognisedMove P v entry = none) : es.foldl (planMove P v) acc = acc := by
  induction es with
  | nil => rfl
  | cons e es ih =>
    have hstep : planMove P v acc e = acc := by
      have he : (serverMove P v e).or (localMove P v e) = none := h e (by simp)
      simp only [planMove, he]
      split_ifs <;> rfl
    rw [List.foldl_cons, hstep]
    exact ih fun entry hentry => h entry (by simp [hentry])

theorem foundMoves_of_none (h : ∀ entry ∈ input.base, recognisedMove P (view P input) entry = none) :
    foundMoves P input = { moves := [], pending := [] } :=
  foldl_planMove_none fun entry hentry => h entry ((List.mem_insertionSort _).mp hentry)

theorem allExcluded_eq_nil (he : input.excluded = []) (hs : input.skipped = []) :
    input.allExcluded = [] := by
  simp [PlanInput.allExcluded, he, hs]

theorem vanishedFolders_eq_nil (h : input.allExcluded = []) :
    vanishedFolders (view P input) = [] := by
  have hinos : (view P input).hidden.inos = [] := by simp [view, h]
  have hids : (view P input).hidden.ids = [] := by simp [view, h]
  simp [vanishedFolders, hinos, hids]

theorem hidden_keys_eq_nil (h : input.allExcluded = []) : (view P input).hidden.keys = [] := by
  simp [view, h]

theorem holdFor_eq_none (h : (plan P input).hold = none) : holdFor input = none := by
  cases hh : holdFor input with
  | none => rfl
  | some hold =>
    rw [(plan_of_hold (P := P) hh).2] at h
    cases h

/-- With nothing excluded and no move to make, a quiescent two-way plan leaves every path settled. -/
theorem settled_of_quiescent (hm : input.mode = .twoWay) (hx : input.allExcluded = [])
    (hq : Quiescent P input)
    (hnone : ∀ entry ∈ input.base, recognisedMove P (view P input) entry = none) {k : Rel}
    (hk : k ∈ planKeys (view P input)) :
    ∃ here there previous, Settled (cellAt (view P input) k) here there previous := by
  have hfound := foundMoves_of_none hnone
  obtain ⟨hact, hhash⟩ := plan_of_walk (P := P) (holdFor_eq_none hq.hold) (by rw [hfound])
  rw [hq.actions] at hact
  rw [hq.needsHash] at hhash
  have hsilent : ∀ a, a ∉ (walkOf P input).actions := by
    intro a ha
    rw [← hact] at ha
    cases ha
  have hvan : ∀ key, covered key [vanishedFolders (view P input)] = false := by
    intro key
    rw [covered_eq_false_iff, vanishedFolders_eq_nil hx]
    simp
  -- A folder marked as deleted comes with an action, so the walk marks none and reaches every path.
  have hvisit : Visited (view P input) (foundMoves P input).pending k := by
    refine ⟨hk, ?_, fun p _ _ hgone => ?_⟩
    · rw [covered_eq_false_iff, hfound, hidden_keys_eq_nil hx]
      simp
    · obtain ⟨hv, hc, hg⟩ := mem_walk_gone.mp hgone
      obtain ⟨a, ha⟩ := decide_action_of_gone hg
      exact hsilent a (mem_walk_actions.mpr ⟨p, hv, Or.inr ⟨hc, ha⟩⟩)
  have hdec : (decisionAt (view P input) k).action = none := by
    cases ha : (decisionAt (view P input) k).action with
    | none => rfl
    | some a => exact absurd (mem_walk_actions.mpr ⟨k, hvisit, Or.inr ⟨hvan k, ha⟩⟩) (hsilent a)
  have hno : hashAt (view P input) k = [] := by
    refine List.eq_nil_iff_forall_not_mem.mpr fun f hf => ?_
    have hmem : f ∈ (walkOf P input).needsHash := mem_walk_needsHash.mpr ⟨k, hvisit, hvan k, hf⟩
    rw [← hhash] at hmem
    cases hmem
  rcases decide_silent hm hdec hno with ⟨h1, h2, h3⟩ | hsettled
  · exfalso
    rcases mem_planKeys.mp hk with ⟨x, hx⟩ | ⟨x, hx⟩ | ⟨x, hx⟩
    · rw [show (view P input).locals.get k = none from h1] at hx
      cases hx
    · rw [show (view P input).remote.get k = none from h2] at hx
      cases hx
    · rw [show (view P input).base.get k = none from h3] at hx
      cases hx
  · exact hsettled

theorem agreement_of_settled (hd : input.DistinctKeys P)
    (h : ∀ k ∈ planKeys (view P input),
      ∃ here there previous, Settled (cellAt (view P input) k) here there previous) :
    Agreement P input := by
  have hlocal : ∀ here ∈ input.locals, ∃ there previous,
      Settled (cellAt (view P input) (P.pathKey here.rel)) here there previous := by
    intro here hmem
    have hget := locals_get_of_mem hd.onLocal hmem
    obtain ⟨here', there, previous, hs⟩ := h _ (mem_planKeys.mpr (Or.inl ⟨here, hget⟩))
    have heq : here' = here := Option.some.inj (hs.here_eq.symm.trans hget)
    exact ⟨there, previous, heq ▸ hs⟩
  have hremote : ∀ there ∈ input.remote, ∃ here previous,
      Settled (cellAt (view P input) (P.pathKey there.rel)) here there previous := by
    intro there hmem
    have hget := remote_get_of_mem hd hmem
    obtain ⟨here, there', previous, hs⟩ := h _ (mem_planKeys.mpr (Or.inr (Or.inl ⟨there, hget⟩)))
    have heq : there' = there := Option.some.inj (hs.there_eq.symm.trans hget)
    exact ⟨here, previous, heq ▸ hs⟩
  refine ⟨?_, ?_, ?_, ?_, ?_, ?_, ?_⟩
  · intro here hmem
    obtain ⟨there, previous, hs⟩ := hlocal here hmem
    exact ⟨there, of_remote_get hs.there_eq⟩
  · intro there hmem
    obtain ⟨here, previous, hs⟩ := hremote there hmem
    exact ⟨here, of_locals_get hs.here_eq⟩
  · intro here hmem
    obtain ⟨there, previous, hs⟩ := hlocal here hmem
    exact ⟨previous, of_base_get hs.previous_eq⟩
  · intro previous hmem
    have hsome : (view P input).base.get (P.pathKey previous.rel) ≠ none := by
      rw [Ne, base_get_eq_none_iff]
      exact fun hno => hno previous hmem rfl
    obtain ⟨saved, hget⟩ := Option.ne_none_iff_exists'.mp hsome
    obtain ⟨here, there, _, hs⟩ := h _ (mem_planKeys.mpr (Or.inr (Or.inr ⟨saved, hget⟩)))
    exact ⟨here, of_locals_get hs.here_eq⟩
  · intro here hmem there hmem' hkey
    obtain ⟨there', previous, hs⟩ := hlocal here hmem
    have hget := remote_get_of_mem hd hmem'
    rw [← hkey] at hget
    rw [← Option.some.inj (hs.there_eq.symm.trans hget)]
    exact hs.types
  · intro there hmem previous hb
    obtain ⟨here, previous', hs⟩ := hremote there hmem
    rw [← Option.some.inj (hs.previous_eq.symm.trans hb)]
    exact hs.ids
  · intro here hmem hfile there hmem' hkey previous hb
    obtain ⟨there', previous', hs⟩ := hlocal here hmem
    have hget := remote_get_of_mem hd hmem'
    rw [← hkey] at hget
    rw [← Option.some.inj (hs.there_eq.symm.trans hget),
      ← Option.some.inj (hs.previous_eq.symm.trans hb)]
    exact hs.contents hfile

/-- Where both sides agree on the paths, no entry has moved. -/
theorem recognisedMove_of_agreement (h : Agreement P input) {entry : BaseEntry}
    (hmem : entry ∈ input.base) : recognisedMove P (view P input) entry = none := by
  obtain ⟨here, hhere, hkey⟩ := h.fromBase entry hmem
  cases hm : recognisedMove P (view P input) entry with
  | none => rfl
  | some move =>
    exfalso
    rcases recognisedMove_cases hm with hm | hm
    · obtain ⟨here', onServer, hf, -⟩ := serverMove_found hm
      obtain ⟨copy, hcopy, hcopyKey⟩ := h.onLocal onServer (of_remoteById_get hf.item).1
      exact locals_get_eq_none_iff.mp hf.free copy hcopy hcopyKey
    · exact locals_get_eq_none_iff.mp (localMove_missing hm) here hhere hkey

/-- A two-way plan with nothing to do means that both sides agree, exactly when it hides no move:
a path that waits for a move is left out of the whole rest of the plan. -/
theorem quiescent_agrees_iff (P : Platform) (input : PlanInput) (hm : input.mode = .twoWay)
    (he : input.excluded = []) (hs : input.skipped = []) (hd : input.DistinctKeys P)
    (hq : Quiescent P input) :
    Agreement P input ↔ ∀ entry ∈ input.base, recognisedMove P (view P input) entry = none := by
  constructor
  · intro h entry hmem
    exact recognisedMove_of_agreement h hmem
  · intro hnone
    exact agreement_of_settled hd fun k hk =>
      settled_of_quiescent hm (allExcluded_eq_nil he hs) hq hnone hk

/-- One file, the same on both sides and in the base. -/
def syncedPair : PlanInput :=
  smallPair .twoWay [smallFile "a" "1" none] [serverFile "a" "r1" (some "x") 1]
    [syncedAs (smallFile "a" "1" none) "r1" (some "x")]

theorem quiescent_agrees_iff_syncedPair : Agreement linux syncedPair := by
  refine (quiescent_agrees_iff linux syncedPair rfl rfl rfl ⟨by decide, by decide⟩
    ⟨by decide, by decide, by decide⟩).mpr ?_
  intro entry hmem
  rw [List.mem_singleton.mp hmem]
  exact Option.isNone_iff_eq_none.mp (by decide)

/-- The server moved a synced folder into a new folder below its own old path, and put another
folder at that path. -/
def movedIntoItself : PlanInput :=
  smallPair .twoWay [smallFolder "a" "1"]
    [serverFolder "a" "f3", serverFolder "a/c" "f4", serverFolder "a/c/a" "f1"]
    [syncedAs (smallFolder "a" "1") "f1" none]

/-- The move waits for a folder that waits for the move: the plan stays empty for ever, and the two
sides differ. -/
theorem movedIntoItself_stuck :
    movedIntoItself.mode = .twoWay ∧ movedIntoItself.excluded = [] ∧
      movedIntoItself.skipped = [] ∧ movedIntoItself.DistinctKeys linux ∧
      movedIntoItself.ParentClosed linux ∧ Quiescent linux movedIntoItself ∧
      ¬ Agreement linux movedIntoItself := by
  refine ⟨rfl, rfl, rfl, ⟨by decide, by decide⟩, ⟨by decide, by decide⟩,
    ⟨by decide, by decide, by decide⟩, fun h => ?_⟩
  have hmissing : ∀ here ∈ movedIntoItself.locals,
      linux.pathKey here.rel ≠ linux.pathKey (serverFolder "a/c" "f4").rel := by decide
  obtain ⟨here, hmem, hkey⟩ := h.onLocal (serverFolder "a/c" "f4") (by decide)
  exact hmissing here hmem hkey

end Staaash.Planner
