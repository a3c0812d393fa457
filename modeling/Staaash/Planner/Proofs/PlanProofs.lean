import Staaash.Planner.Proofs.WalkProofs

/-!
# Proofs: where the actions of a plan come from

A plan's actions are its moves when there are any, and the actions of the walk otherwise.
-/

namespace Staaash.Planner

variable {P : Platform} {input : PlanInput}

/-- Every planned move was recognised for a base entry, and neither path of it is left out. -/
theorem foldl_planMove_moves {v : View} (es : List BaseEntry) (acc : Moves) {a : Action}
    (h : a ∈ (es.foldl (planMove P v) acc).moves) :
    a ∈ acc.moves ∨ ∃ entry ∈ es, ∃ move, recognisedMove P v entry = some move ∧
      move.action = some a ∧ covered (P.pathKey entry.rel) [v.hidden.keys] = false ∧
      covered move.target [v.hidden.keys] = false := by
  induction es generalizing acc with
  | nil => exact Or.inl h
  | cons e es ih =>
    rw [List.foldl_cons] at h
    rcases ih _ h with h | ⟨entry, he, hm⟩
    · simp only [planMove] at h
      split_ifs at h with hkey
      · exact Or.inl h
      · split at h
        · exact Or.inl h
        · rename_i move hmove
          split_ifs at h with htarget
          · exact Or.inl h
          · rcases List.mem_append.mp h with h | h
            · exact Or.inl h
            · have hfree : ∀ k, ¬ covered k [acc.pending, v.hidden.keys] = true →
                  covered k [v.hidden.keys] = false := by
                intro k hk
                rw [Bool.not_eq_true, covered_eq_false_iff] at hk
                refine covered_eq_false_iff.mpr fun each hup set hset => ?_
                exact hk each hup set (List.mem_cons_of_mem _ hset)
              exact Or.inr ⟨e, by simp, move, hmove, Option.mem_toList.mp h, hfree _ hkey,
                hfree _ htarget⟩
    · exact Or.inr ⟨entry, by simp [he], hm⟩

theorem of_mem_planMoves_free {v : View} {base : List BaseEntry} {a : Action}
    (h : a ∈ (planMoves P v base).moves) :
    ∃ entry ∈ base, ∃ move, recognisedMove P v entry = some move ∧ move.action = some a ∧
      covered (P.pathKey entry.rel) [v.hidden.keys] = false ∧
      covered move.target [v.hidden.keys] = false := by
  rcases foldl_planMove_moves _ _ h with h | ⟨entry, he, hm⟩
  · exact absurd h (by simp)
  · exact ⟨entry, (List.mem_insertionSort _).mp he, hm⟩

theorem of_mem_planMoves {v : View} {base : List BaseEntry} {a : Action}
    (h : a ∈ (planMoves P v base).moves) :
    ∃ entry ∈ base, ∃ move, recognisedMove P v entry = some move ∧ move.action = some a := by
  obtain ⟨entry, he, move, hmove, ha, -⟩ := of_mem_planMoves_free h
  exact ⟨entry, he, move, hmove, ha⟩

/-- The moves found for an input, and the paths they leave out of the rest of its plan. -/
def foundMoves (P : Platform) (input : PlanInput) : Moves := planMoves P (view P input) input.base

/-- The walk over all paths of an input. -/
def walkOf (P : Platform) (input : PlanInput) : Walk :=
  walk (view P input) (foundMoves P input).pending

theorem plan_of_hold {hold : Hold} (h : holdFor input = some hold) :
    (plan P input).actions = [] ∧ (plan P input).hold = some hold := by
  simp [plan, h]

theorem plan_of_moves (h : holdFor input = none) (hm : (foundMoves P input).moves ≠ []) :
    (plan P input).actions = (foundMoves P input).moves := by
  unfold foundMoves at *
  simp [plan, h, hm]

theorem plan_of_walk (h : holdFor input = none) (hm : (foundMoves P input).moves = []) :
    (plan P input).actions = (walkOf P input).actions ∧
      (plan P input).needsHash = (walkOf P input).needsHash := by
  unfold walkOf
  unfold foundMoves at *
  simp [plan, h, hm]

/-- The three sources of a plan's actions: none under a hold, else the moves, else the walk. -/
theorem mem_plan_actions {a : Action} :
    a ∈ (plan P input).actions ↔ holdFor input = none ∧
      (((foundMoves P input).moves ≠ [] ∧ a ∈ (foundMoves P input).moves) ∨
        ((foundMoves P input).moves = [] ∧ a ∈ (walkOf P input).actions)) := by
  cases hh : holdFor input with
  | some hold => simp [(plan_of_hold (P := P) hh).1]
  | none =>
    by_cases hm : (foundMoves P input).moves = []
    · simp [(plan_of_walk hh hm).1, hm]
    · simp [plan_of_moves hh hm, hm]

/-! ## What a recognised move says -/

/-- Everything `serverMove` checks before it recognises a move of `here` after `onServer`. -/
structure FollowsServer (P : Platform) (v : View) (entry : BaseEntry) (here : LocalFile)
    (onServer : ScopedItem) : Prop where
  mode : v.mode ≠ .upload
  item : v.remoteById.get entry.remoteId = some onServer
  moved : P.pathKey onServer.rel ≠ P.pathKey entry.rel
  stays : v.locals.get (P.pathKey entry.rel) = some here
  type : here.type = entry.type
  free : v.locals.get (P.pathKey onServer.rel) = none
  same : entry.type = .file → here.size = entry.size ∧ here.mtimeMs = entry.mtimeMs ∧
    (entry.ino = UNKNOWN_INO ∨ here.ino = entry.ino)

theorem sameStat_known {here : LocalFile} {entry : BaseEntry}
    (h : sameStat here
      (if entry.ino = UNKNOWN_INO then { entry with ino := here.ino } else entry) = true) :
    here.size = entry.size ∧ here.mtimeMs = entry.mtimeMs ∧
      (entry.ino = UNKNOWN_INO ∨ here.ino = entry.ino) := by
  unfold sameStat at h
  split_ifs at h with hu
  · simp only [Bool.and_eq_true, decide_eq_true_eq] at h
    exact ⟨h.1.1, h.1.2, Or.inl hu⟩
  · simp only [Bool.and_eq_true, decide_eq_true_eq] at h
    exact ⟨h.1.1, h.1.2, Or.inr h.2⟩

theorem serverMove_found {v : View} {entry : BaseEntry} {move : Move}
    (h : serverMove P v entry = some move) :
    ∃ here onServer, FollowsServer P v entry here onServer ∧
      (move.action = none ∨
        move.action = some (.moveLocal here.rel onServer.rel onServer.item)) := by
  simp only [serverMove] at h
  cases hs : v.remoteById.get entry.remoteId with
  | none => simp [hs] at h
  | some onServer =>
    cases hl : v.locals.get (P.pathKey entry.rel) with
    | none => simp [hs, hl] at h
    | some here =>
      simp only [hs, hl] at h
      have hknown := @sameStat_known here entry
      -- The id that stands in for an unknown one matters to the guard only.
      generalize (if entry.ino = UNKNOWN_INO then { entry with ino := here.ino } else entry) = known
        at h hknown
      split_ifs at h with h1 h2 h3 h4
      all_goals
        obtain rfl := Option.some.inj h
        simp only [Bool.or_eq_true, Bool.and_eq_true, decide_eq_true_eq, not_or, not_and,
          Bool.not_eq_true, Bool.not_eq_false', ne_eq, not_not] at h1 h2 h3
        refine ⟨here, onServer, ⟨h1.1, hs, h1.2, hl, h2.1, ?_, fun hf => hknown (h3 hf)⟩, ?_⟩
        · exact (Staaash.Library.OrderedMap.has_eq_false_iff _ _).mp h2.2
        · simp

theorem serverMove_action {v : View} {entry : BaseEntry} {move : Move} {a : Action}
    (h : serverMove P v entry = some move) (ha : move.action = some a) :
    ∃ here onServer, FollowsServer P v entry here onServer ∧
      a = .moveLocal here.rel onServer.rel onServer.item := by
  obtain ⟨here, onServer, hf, hn | hs⟩ := serverMove_found h
  · rw [ha] at hn
    cases hn
  · rw [ha] at hs
    exact ⟨here, onServer, hf, Option.some.inj hs⟩

theorem localMove_missing {v : View} {entry : BaseEntry} {move : Move}
    (h : localMove P v entry = some move) : v.locals.get (P.pathKey entry.rel) = none := by
  simp only [localMove] at h
  split_ifs at h with h0
  simp only [Bool.or_eq_true, not_or, Bool.not_eq_true] at h0
  exact (Staaash.Library.OrderedMap.has_eq_false_iff _ _).mp h0.1.2

theorem localMove_action {v : View} {entry : BaseEntry} {move : Move} {a : Action}
    (h : localMove P v entry = some move) (ha : move.action = some a) :
    ∃ moved onServer, v.locals.get (P.pathKey entry.rel) = none ∧
      v.localByIno.get entry.ino = some moved ∧
      v.remoteById.get entry.remoteId = some onServer ∧
      (P.pathKey onServer.rel = P.pathKey moved.rel ∨
        v.remote.get (P.pathKey moved.rel) = none) ∧
      a = .moveRemote entry.rel moved.rel entry moved := by
  have hlocal := localMove_missing h
  simp only [localMove] at h
  split_ifs at h
  cases hs : v.remoteById.get entry.remoteId with
  | none => simp [hs] at h
  | some onServer =>
    cases hl : v.localByIno.get entry.ino with
    | none => simp [hs, hl] at h
    | some moved =>
      simp only [hs, hl] at h
      split_ifs at h with h1 h2 h3 h4 h5
      · obtain rfl := Option.some.inj h
        obtain rfl := Option.some.inj ha
        refine ⟨moved, onServer, hlocal, rfl, rfl, ?_, rfl⟩
        by_cases he : P.pathKey onServer.rel = P.pathKey moved.rel
        · exact Or.inl he
        · right
          simp only [Bool.and_eq_true, not_and, Bool.not_eq_true] at h4
          exact (Staaash.Library.OrderedMap.has_eq_false_iff _ _).mp (h4 (by simpa using he))
      · obtain rfl := Option.some.inj h
        cases ha

theorem recognisedMove_cases {v : View} {entry : BaseEntry} {move : Move}
    (h : recognisedMove P v entry = some move) :
    serverMove P v entry = some move ∨ localMove P v entry = some move := by
  unfold recognisedMove at h
  rcases Option.or_eq_some_iff.mp h with h | ⟨-, h⟩
  · exact Or.inl h
  · exact Or.inr h

theorem not_move_of_trashLocal {entry : BaseEntry} {move : Move} {rel : Rel} {here : LocalFile}
    (h : recognisedMove P (view P input) entry = some move)
    (ha : move.action = some (.trashLocal rel here)) : False := by
  rcases recognisedMove_cases h with h | h
  · obtain ⟨_, _, _, he⟩ := serverMove_action h ha
    cases he
  · obtain ⟨_, _, _, _, _, _, he⟩ := localMove_action h ha
    cases he

theorem not_move_of_trashRemote {entry : BaseEntry} {move : Move} {rel : Rel}
    {remote : RemoteItem} (h : recognisedMove P (view P input) entry = some move)
    (ha : move.action = some (.trashRemote rel remote)) : False := by
  rcases recognisedMove_cases h with h | h
  · obtain ⟨_, _, _, he⟩ := serverMove_action h ha
    cases he
  · obtain ⟨_, _, _, _, _, _, he⟩ := localMove_action h ha
    cases he

/-- An action of a plan repeats a move, or answers for a path of the walk. -/
theorem of_mem_plan {a : Action} (h : a ∈ (plan P input).actions) :
    (∃ entry ∈ input.base, ∃ move, recognisedMove P (view P input) entry = some move ∧
        move.action = some a) ∨
      ∃ k, Visited (view P input) (foundMoves P input).pending k ∧
        ((∃ previous, (view P input).base.get k = some previous ∧ a = .forget previous.rel) ∨
          ∃ gone, Outcome (view P input) (cellAt (view P input) k)
            (dirtySides (view P input)) a gone) := by
  obtain ⟨-, ⟨-, hm⟩ | ⟨-, hw⟩⟩ := mem_plan_actions.mp h
  · exact Or.inl (of_mem_planMoves hm)
  · exact Or.inr (outcome_of_mem_walk hw)

/-! ## The paths of the walk -/

/-- The path written in an action has the key the action was decided for. -/
theorem pathKey_cellAt_rel {k : Rel} (h : k ∈ planKeys (view P input)) :
    P.pathKey (cellAt (view P input) k).rel = k := by
  unfold cellAt
  cases hl : (view P input).locals.get k with
  | some here => simpa [hl] using (of_locals_get hl).2
  | none =>
    cases hr : (view P input).remote.get k with
    | some there => simpa [hl, hr] using (of_remote_get hr).2
    | none =>
      cases hb : (view P input).base.get k with
      | some previous => simpa [hl, hr, hb] using (of_base_get hb).2
      | none =>
        rcases mem_planKeys.mp h with ⟨x, hx⟩ | ⟨x, hx⟩ | ⟨x, hx⟩
        · rw [hl] at hx; cases hx
        · rw [hr] at hx; cases hx
        · rw [hb] at hx; cases hx

theorem notExcluded_of_covered {k : Rel}
    (h : covered k [(view P input).hidden.keys] = false) : NotExcluded P input k := by
  intro each he h0
  have hcov := covered_eq_false_iff.mp h
  have hmem : P.pathKey each.rel ∈ (view P input).hidden.keys := mem_hidden_keys.mpr ⟨each, he, rfl⟩
  have hno : P.pathKey each.rel ∉ upwards k := fun hup => (hcov _ hup _ (by simp)) hmem
  rw [mem_upwards] at hno
  exact ⟨fun e => hno ⟨h0, Or.inl e⟩, fun hb => hno ⟨h0, Or.inr hb⟩⟩

theorem Visited.notExcluded {pending : List Rel} {k : Rel}
    (h : Visited (view P input) pending k) : NotExcluded P input k := by
  have hcov := covered_eq_false_iff.mp h.not_pending
  refine notExcluded_of_covered (covered_eq_false_iff.mpr fun each hup set hset => ?_)
  exact hcov each hup set (List.mem_cons_of_mem _ hset)

theorem outOfSight_of_covered {k : Rel} (h : covered k [vanishedFolders (view P input)] = true) :
    OutOfSight P input k := by
  obtain ⟨p, hp, set, hset, hmem⟩ := covered_iff.mp h
  rw [List.mem_singleton.mp hset] at hmem
  simp only [vanishedFolders, List.mem_map, List.mem_filter, Bool.and_eq_true, Bool.or_eq_true,
    decide_eq_true_eq, List.contains_iff_mem, mem_hidden_inos, mem_hidden_ids] at hmem
  obtain ⟨⟨key, folder⟩, ⟨hentry, ⟨hfolder, -⟩, hgone⟩, rfl⟩ := hmem
  obtain ⟨hroot, habove⟩ := mem_upwards.mp hp
  exact ⟨key, folder, hroot, habove, (Staaash.Library.OrderedMap.get_eq_some_iff _ _ _).mpr hentry, hfolder, hgone⟩

/-- Where no excluded path is at or above the path, none is above the folder that is out of sight. -/
theorem covered_of_outOfSight {k : Rel} (hshown : covered k [(view P input).hidden.keys] = false)
    (h : OutOfSight P input k) : covered k [vanishedFolders (view P input)] = true := by
  obtain ⟨p, folder, hroot, habove, hbase, hfolder, hgone⟩ := h
  have hp : p ∈ upwards k := mem_upwards.mpr ⟨hroot, habove⟩
  have hfree : covered p [(view P input).hidden.keys] = false := by
    rw [covered_eq_false_iff] at hshown ⊢
    exact fun q hq => hshown q (upwards_trans hq hp)
  refine covered_iff.mpr ⟨p, hp, _, List.mem_singleton.mpr rfl, ?_⟩
  simp only [vanishedFolders, List.mem_map, List.mem_filter, Bool.and_eq_true, Bool.or_eq_true,
    decide_eq_true_eq, List.contains_iff_mem, mem_hidden_inos, mem_hidden_ids]
  refine ⟨(p, folder), ⟨(Staaash.Library.OrderedMap.get_eq_some_iff _ _ _).mp hbase, ⟨hfolder, ?_⟩, hgone⟩, rfl⟩
  rw [hfree]
  rfl

end Staaash.Planner
