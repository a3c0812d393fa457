import Staaash.Planner.Moves
import Staaash.Planner.Proofs.PlanProofs

/-!
# Proofs: moves that go ahead

The planner recognises the moves that can be followed or repeated, and no others. Its loop looks at the entries in
their turn, so the paths it leaves out of the rest of the plan are those of the moves that go ahead.
-/

namespace Staaash.Planner

open Staaash.Library (OrderedMap ComesBefore exists_sorted_zipIdx)

variable {P : Platform} {input : PlanInput} {v : View}

/-! ## What is at a path -/

theorem locals_get_iff {k : Rel} {here : LocalFile} :
    (view P input).locals.get k = some here ↔ LocalAt P input k here := by
  unfold LocalAt view
  rw [OrderedMap.get_indexed]

theorem remote_get_iff {k : Rel} {there : ScopedItem} :
    (view P input).remote.get k = some there ↔ ServerAt P input k there := by
  unfold ServerAt view
  rw [OrderedMap.get_indexed]

theorem mem_of_localAt {k : Rel} {here : LocalFile} (h : LocalAt P input k here) :
    here ∈ input.locals ∧ P.pathKey here.rel = k :=
  of_locals_get (locals_get_iff.mpr h)

theorem mem_of_serverAt {k : Rel} {there : ScopedItem} (h : ServerAt P input k there) :
    there ∈ input.remote ∧ P.pathKey there.rel = k :=
  of_remote_get (remote_get_iff.mpr h)

theorem remoteById_get_iff {id : String} {there : ScopedItem} :
    (view P input).remoteById.get id = some there ↔ ItemWith input id there := by
  unfold ItemWith view
  rw [OrderedMap.get_indexed]

theorem localByIno_get_iff {ino : String} (hknown : ino ≠ UNKNOWN_INO) {moved : LocalFile} :
    (view P input).localByIno.get ino = some moved ↔ NewlyAt P input ino moved := by
  have hget : (view P input).localByIno.get ino = (input.locals.filter fun entry =>
      entry.ino ≠ UNKNOWN_INO && !(view P input).base.has (P.pathKey entry.rel)).reverse.find?
        fun entry => entry.ino = ino := OrderedMap.get_indexed
  have hsame : ∀ each : LocalFile, ((Decidable.decide (each.ino ≠ UNKNOWN_INO) &&
      !(view P input).base.has (P.pathKey each.rel)) = true ∧ Decidable.decide (each.ino = ino) = true) ↔
      (each.ino = ino ∧ ¬ ∃ b ∈ input.base, P.pathKey b.rel = P.pathKey each.rel) := by
    intro each
    simp only [Bool.and_eq_true, decide_eq_true_eq, Bool.not_eq_true', OrderedMap.has_eq_false_iff,
      base_get_eq_none_iff]
    constructor
    · rintro ⟨⟨-, hnew⟩, hino⟩
      refine ⟨hino, ?_⟩
      rintro ⟨b, hb, hkey⟩
      exact hnew b hb hkey
    · rintro ⟨rfl, hnew⟩
      exact ⟨⟨hknown, fun b hb hkey => hnew ⟨b, hb, hkey⟩⟩, rfl⟩
  unfold NewlyAt
  rw [hget, ← List.filter_reverse, List.find?_filter]
  refine iff_of_eq (congrArg (fun found => List.find? found _ = some moved) (funext fun each => ?_))
  exact decide_eq_decide.mpr (hsame each)

/-! ## Recognised moves -/

theorem followsServer_iff {b : BaseEntry} {here : LocalFile} {there : ScopedItem} :
    FollowsServer P (view P input) b here there ↔ CanFollow P input b here there := by
  constructor
  · intro h
    exact ⟨h.mode, remoteById_get_iff.mp h.item, h.moved, locals_get_iff.mp h.stays, h.type,
      locals_get_eq_none_iff.mp h.free, h.same⟩
  · intro h
    exact ⟨h.mode, remoteById_get_iff.mpr h.item, h.moved, locals_get_iff.mpr h.stays, h.type,
      locals_get_eq_none_iff.mpr h.free, h.same⟩

theorem FollowsServer.serverMove_eq {b : BaseEntry} {here : LocalFile} {there : ScopedItem}
    (h : FollowsServer P v b here there) :
    serverMove P v b = some
      { target := P.pathKey there.rel
        action := if parentRel (P.pathKey there.rel) = [] ||
            (v.locals.get (parentRel (P.pathKey there.rel))).map (·.type) = some .folder then
          some (.moveLocal here.rel there.rel there.item) else none } := by
  have hsame : (b.type = .file && !sameStat here
      (if b.ino = UNKNOWN_INO then { b with ino := here.ino } else b)) = false := by
    by_cases hfile : b.type = .file
    · obtain ⟨hsize, hmtime, hino⟩ := h.same hfile
      unfold sameStat
      split_ifs with hunknown
      · simp [hsize, hmtime]
      · simp [hsize, hmtime, hino.resolve_left hunknown]
    · simp [hfile]
  simp only [serverMove, h.item, h.stays]
  rw [if_neg (by simp [h.mode, h.moved]), if_neg (by simp [h.type, OrderedMap.has_eq_false_iff, h.free]),
    if_neg (by rw [hsame]; exact Bool.false_ne_true)]

theorem CanRepeat.localMove_eq {b : BaseEntry} {moved : LocalFile} {there : ScopedItem}
    (h : CanRepeat P input b moved there) :
    localMove P (view P input) b = some
      { target := P.pathKey moved.rel
        action := if parentRel (P.pathKey moved.rel) = [] ||
            ((view P input).remote.get (parentRel (P.pathKey moved.rel))).map (·.item.type) = some .folder then
          some (.moveRemote b.rel moved.rel b moved) else none } := by
  have hmode : (view P input).mode ≠ .download := h.mode
  have hfound := (localByIno_get_iff h.known).mpr h.found
  have hino : moved.ino = b.ino := (of_localByIno_get hfound).2
  have hmissing : (view P input).locals.has (P.pathKey b.rel) = false :=
    (OrderedMap.has_eq_false_iff _ _).mpr (locals_get_eq_none_iff.mpr h.missing)
  have hsame : (b.type = .file && !sameStat moved b) = false := by
    by_cases hfile : b.type = .file
    · obtain ⟨hsize, hmtime⟩ := h.same hfile
      simp [sameStat, hsize, hmtime, hino]
    · simp [hfile]
  have hfree : (Decidable.decide (P.pathKey there.rel ≠ P.pathKey moved.rel) &&
      (view P input).remote.has (P.pathKey moved.rel)) = false := by
    obtain heq | hfree := h.free
    · simp [heq]
    · rw [(OrderedMap.has_eq_false_iff _ _).mpr (remote_get_eq_none_iff.mpr hfree), Bool.and_false]
  simp only [localMove, remoteById_get_iff.mpr h.item, hfound, hmissing]
  rw [if_neg (by simp [hmode, h.known]), if_neg (by simp [h.type]),
    if_neg (by rw [hsame]; exact Bool.false_ne_true), if_neg ?_, if_neg (by rw [hfree]; exact Bool.false_ne_true)]
  obtain heq | hhalf := h.stays
  · simp [heq]
  · simp [hhalf]

theorem canRepeat_of_localMove {b : BaseEntry} {move : Move} (h : localMove P (view P input) b = some move) :
    ∃ moved there, CanRepeat P input b moved there := by
  have hlocal := localMove_missing h
  simp only [localMove] at h
  split_ifs at h with hskip
  simp only [Bool.or_eq_true, not_or, decide_eq_true_eq] at hskip
  cases hs : (view P input).remoteById.get b.remoteId with
  | none => simp [hs] at h
  | some there =>
    cases hl : (view P input).localByIno.get b.ino with
    | none => simp [hs, hl] at h
    | some moved =>
      simp only [hs, hl] at h
      split_ifs at h with htype hsame hstays hfree
      all_goals
        simp only [Bool.and_eq_true, decide_eq_true_eq, not_and, Bool.not_eq_true, Bool.not_eq_false', ne_eq,
          not_not] at htype hsame hstays hfree
        refine ⟨moved, there, hskip.1.1, locals_get_eq_none_iff.mp hlocal, hskip.2, remoteById_get_iff.mp hs,
          (localByIno_get_iff hskip.2).mp hl, htype, fun hfile => ?_, ?_, ?_⟩
        · have hstat := hsame hfile
          simp only [sameStat, Bool.and_eq_true, decide_eq_true_eq] at hstat
          exact hstat.1
        · exact or_iff_not_imp_left.mpr hstays
        · refine or_iff_not_imp_left.mpr fun hne => ?_
          exact remote_get_eq_none_iff.mp ((OrderedMap.has_eq_false_iff _ _).mp (hfree hne))

theorem recognisedMove_iff {entry : BaseEntry} {move : Move} :
    recognisedMove P v entry = some move ↔
      serverMove P v entry = some move ∨ localMove P v entry = some move := by
  constructor
  · exact recognisedMove_cases
  · unfold recognisedMove
    rintro (h | h)
    · rw [h, Option.some_or]
    · -- a local move has no local file at its source, so it is no server move
      cases hs : serverMove P v entry with
      | none => rw [Option.none_or, h]
      | some other =>
        obtain ⟨here, onServer, hf, -⟩ := serverMove_found hs
        have := hf.stays
        rw [localMove_missing h] at this
        cases this

/-- This computer still has an entry that it can follow, and not one that the server can repeat. -/
theorem CanFollow.not_canRepeat {b : BaseEntry} {here moved : LocalFile} {there there' : ScopedItem}
    (h : CanFollow P input b here there) : ¬ CanRepeat P input b moved there' := fun hr => by
  obtain ⟨hmem, hkey⟩ := mem_of_localAt h.stays
  exact hr.missing here hmem hkey

/-- A recognised move is one that can be followed, or one that can be repeated. -/
theorem movesBy_of_recognised {b : BaseEntry} {move : Move} (h : recognisedMove P (view P input) b = some move) :
    (∃ here there, CanFollow P input b here there ∧ serverMove P (view P input) b = some move ∧
      move.target = P.pathKey there.rel) ∨
    ∃ moved there, CanRepeat P input b moved there ∧ localMove P (view P input) b = some move ∧
      move.target = P.pathKey moved.rel := by
  obtain hs | hl := recognisedMove_iff.mp h
  · obtain ⟨here, there, hf, -⟩ := serverMove_found hs
    refine .inl ⟨here, there, followsServer_iff.mp hf, hs, ?_⟩
    exact (congrArg Move.target (Option.some.inj (hf.serverMove_eq.symm.trans hs))).symm
  · obtain ⟨moved, there, hr⟩ := canRepeat_of_localMove hl
    refine .inr ⟨moved, there, hr, hl, ?_⟩
    exact (congrArg Move.target (Option.some.inj (hr.localMove_eq.symm.trans hl))).symm

theorem movesTo_of_recognised {b : BaseEntry} {move : Move} (h : recognisedMove P (view P input) b = some move) :
    MovesTo P input b move.target := by
  obtain ⟨here, there, hf, -, htarget⟩ | ⟨moved, there, hr, -, htarget⟩ := movesBy_of_recognised h
  · rw [htarget]
    exact .onServer hf
  · rw [htarget]
    exact .onLocal hr

theorem CanFollow.recognised {b : BaseEntry} {here : LocalFile} {there : ScopedItem}
    (h : CanFollow P input b here there) :
    ∃ move, recognisedMove P (view P input) b = some move ∧ move.target = P.pathKey there.rel :=
  ⟨_, recognisedMove_iff.mpr (.inl (followsServer_iff.mpr h).serverMove_eq), rfl⟩

theorem CanRepeat.recognised {b : BaseEntry} {moved : LocalFile} {there : ScopedItem}
    (h : CanRepeat P input b moved there) :
    ∃ move, recognisedMove P (view P input) b = some move ∧ move.target = P.pathKey moved.rel :=
  ⟨_, recognisedMove_iff.mpr (.inr h.localMove_eq), rfl⟩

theorem MovesTo.recognised {b : BaseEntry} {t : Rel} (h : MovesTo P input b t) :
    ∃ move, recognisedMove P (view P input) b = some move ∧ move.target = t := by
  obtain h | h := h
  · exact h.recognised
  · exact h.recognised

theorem ofMove_iff {b : BaseEntry} {move : Move} (h : recognisedMove P (view P input) b = some move) {k : Rel} :
    OfMove P input b k ↔ k = P.pathKey b.rel ∨ k = move.target := by
  refine or_congr_right ⟨fun hmoves => ?_, ?_⟩
  · obtain ⟨move', h', rfl⟩ := hmoves.recognised
    rw [Option.some.inj (h.symm.trans h')]
  · rintro rfl
    exact movesTo_of_recognised h

theorem hasParent_iff {b : BaseEntry} :
    HasParent P input b ↔ ∃ move, recognisedMove P (view P input) b = some move ∧ move.action.isSome = true := by
  constructor
  · rintro (⟨h, hparent⟩ | ⟨h, hparent⟩)
    · refine ⟨_, recognisedMove_iff.mpr (.inl (followsServer_iff.mpr h).serverMove_eq), ?_⟩
      dsimp only
      rw [if_pos ?_]
      · rfl
      · obtain hroot | ⟨folder, hfolder, htype⟩ := hparent
        · simp [hroot]
        · simp [locals_get_iff.mpr hfolder, htype]
    · refine ⟨_, recognisedMove_iff.mpr (.inr h.localMove_eq), ?_⟩
      dsimp only
      rw [if_pos ?_]
      · rfl
      · obtain hroot | ⟨folder, hfolder, htype⟩ := hparent
        · simp [hroot]
        · simp [remote_get_iff.mpr hfolder, htype]
  · rintro ⟨move, hmove, hready⟩
    obtain ⟨here, there, hf, hs, -⟩ | ⟨moved, there, hr, hl, -⟩ := movesBy_of_recognised hmove
    · obtain rfl := Option.some.inj ((followsServer_iff.mpr hf).serverMove_eq.symm.trans hs)
      refine .onLocal hf ?_
      dsimp only at hready
      split_ifs at hready with hparent
      · simp only [Bool.or_eq_true, decide_eq_true_eq, Option.map_eq_some_iff] at hparent
        refine hparent.imp_right fun ⟨folder, hget, htype⟩ => ⟨folder, locals_get_iff.mp hget, htype⟩
      · cases hready
    · obtain rfl := Option.some.inj (hr.localMove_eq.symm.trans hl)
      refine .onServer hr ?_
      dsimp only at hready
      split_ifs at hready with hparent
      · simp only [Bool.or_eq_true, decide_eq_true_eq, Option.map_eq_some_iff] at hparent
        refine hparent.imp_right fun ⟨folder, hget, htype⟩ => ⟨folder, remote_get_iff.mp hget, htype⟩
      · cases hready

/-! ## The loop over the entries -/

theorem covered_pending_iff {pending : List Rel} {k : Rel} :
    covered k [pending, (view P input).hidden.keys] = false ↔
      NotExcluded P input k ∧ ∀ q ∈ pending, q ≠ [] → ¬ AtOrBelow q k := by
  have hup : ∀ q, q ≠ [] → (q ∈ upwards k ↔ AtOrBelow q k) := fun q hq => by
    rw [mem_upwards]
    exact ⟨fun h => h.2.imp_left Eq.symm, fun h => ⟨hq, h.imp_left Eq.symm⟩⟩
  simp only [covered_eq_false_iff, List.mem_cons, List.not_mem_nil, or_false, forall_eq_or_imp, forall_eq]
  constructor
  · intro h
    refine ⟨notExcluded_of_covered ?_, fun q hq hq0 hin => (h q ((hup q hq0).mpr hin)).1 hq⟩
    simp only [covered_eq_false_iff, List.mem_singleton, forall_eq]
    exact fun q hq => (h q hq).2
  · rintro ⟨hshown, hfree⟩ q hq
    have hq0 := (mem_upwards.mp hq).1
    refine ⟨fun hmem => hfree q hmem hq0 ((hup q hq0).mp hq), fun hmem => ?_⟩
    obtain ⟨each, heach, rfl⟩ := mem_hidden_keys.mp hmem
    obtain ⟨hne, hbelow⟩ := hshown each heach hq0
    obtain heq | hin := (hup _ hq0).mp hq
    · exact hne heq.symm
    · exact hbelow hin

/-- One entry: its move is found where nothing covers a path of it, and then marks both. -/
theorem planMove_eq (acc : Moves) (b : BaseEntry) :
    (∃ move, recognisedMove P v b = some move ∧
        (∀ k, k = P.pathKey b.rel ∨ k = move.target → covered k [acc.pending, v.hidden.keys] = false) ∧
        planMove P v acc b =
          { moves := acc.moves ++ move.action.toList, pending := move.target :: P.pathKey b.rel :: acc.pending }) ∨
      (∀ move, recognisedMove P v b = some move →
        ¬ ∀ k, k = P.pathKey b.rel ∨ k = move.target → covered k [acc.pending, v.hidden.keys] = false) ∧
      planMove P v acc b = acc := by
  unfold planMove
  dsimp only
  rw [show (serverMove P v b).or (localMove P v b) = recognisedMove P v b from rfl]
  split_ifs with hkey
  · refine .inr ⟨fun move _ hfree => ?_, rfl⟩
    rw [hfree _ (.inl rfl)] at hkey
    cases hkey
  · cases hmove : recognisedMove P v b with
    | none => exact .inr ⟨(fun _ h => nomatch h), rfl⟩
    | some move =>
      dsimp only
      split_ifs with htarget
      · refine .inr ⟨fun move' h hfree => ?_, rfl⟩
        obtain rfl := Option.some.inj h
        rw [hfree _ (.inr rfl)] at htarget
        cases htarget
      · refine .inl ⟨move, rfl, ?_, rfl⟩
        rintro k (rfl | rfl)
        · simpa using hkey
        · simpa using htarget

/-- The entries with their places, as they have their turn. -/
structure InTurn (input : PlanInput) (sorted : List (BaseEntry × Nat)) : Prop where
  perm : sorted.Perm input.base.zipIdx
  sorted : sorted.Pairwise (ComesBefore fun b : BaseEntry => depth b.rel)

variable {sorted before after : List (BaseEntry × Nat)} {b : BaseEntry} {i : Nat}

theorem InTurn.mem_iff (h : InTurn input sorted) : (b, i) ∈ sorted ↔ input.base[i]? = some b := by
  rw [h.perm.mem_iff, List.mk_mem_zipIdx_iff_getElem?]

/-- What has its turn before an entry is what stands before it. -/
theorem InTurn.before_iff (h : InTurn input (before ++ (b, i) :: after)) {j : Nat} :
    ItsTurnIsBefore input j i ↔ ∃ c, (c, j) ∈ before := by
  have hb : input.base[i]? = some b := h.mem_iff.mp (by simp)
  obtain ⟨-, hafter, hacross⟩ := List.pairwise_append.mp h.sorted
  constructor
  · rintro ⟨c, b', hc, hb', hbefore⟩
    obtain rfl := Option.some.inj (hb.symm.trans hb')
    refine ⟨c, ?_⟩
    obtain hin | hin := List.mem_append.mp (h.mem_iff.mpr hc)
    · exact hin
    · obtain heq | hin := List.mem_cons.mp hin
      · rw [heq] at hbefore
        exact absurd hbefore hbefore.asymm
      · exact absurd hbefore ((List.pairwise_cons.mp hafter).1 _ hin).asymm
  · rintro ⟨c, hc⟩
    exact ⟨c, b, h.mem_iff.mp (List.mem_append_left _ hc), hb, hacross _ hc _ (by simp)⟩

/-- What the loop has found after the entries `before`. -/
structure Found (P : Platform) (input : PlanInput) (before : List (BaseEntry × Nat)) (found : Moves) : Prop where
  pending : ∀ q, q ∈ found.pending ↔ ∃ e ∈ before, GoesAhead P input e.2 ∧ OfMove P input e.1 q
  moves : ∀ a, a ∈ found.moves ↔ ∃ e ∈ before, GoesAhead P input e.2 ∧
    ∃ move, recognisedMove P (view P input) e.1 = some move ∧ move.action = some a

/-- The entry whose turn it is goes ahead exactly when the loop finds its move. -/
theorem Found.goesAhead_iff {found : Moves} (hfound : Found P input before found)
    (h : InTurn input (before ++ (b, i) :: after)) :
    GoesAhead P input i ↔ ∃ move, recognisedMove P (view P input) b = some move ∧
      ∀ k, k = P.pathKey b.rel ∨ k = move.target →
        covered k [found.pending, (view P input).hidden.keys] = false := by
  have hb : input.base[i]? = some b := h.mem_iff.mp (by simp)
  have hfree : ∀ k, (∀ j, ItsTurnIsBefore input j i → GoesAhead P input j → ∀ c, input.base[j]? = some c →
      ∀ q, OfMove P input c q → q ≠ [] → ¬ AtOrBelow q k) ↔ ∀ q ∈ found.pending, q ≠ [] → ¬ AtOrBelow q k := by
    intro k
    constructor
    · intro hno q hq
      obtain ⟨⟨c, j⟩, hc, hahead, hof⟩ := (hfound.pending q).mp hq
      exact hno j (h.before_iff.mpr ⟨c, hc⟩) hahead c (h.mem_iff.mp (List.mem_append_left _ hc)) q hof
    · intro hno j hturn hahead c hc q hof
      obtain ⟨c', hc'⟩ := h.before_iff.mp hturn
      obtain rfl := Option.some.inj (hc.symm.trans (h.mem_iff.mp (List.mem_append_left _ hc')))
      exact hno q ((hfound.pending q).mpr ⟨(c, j), hc', hahead, hof⟩)
  rw [GoesAhead]
  constructor
  · rintro ⟨b', hb', ⟨t, hmoves⟩, hall⟩
    obtain rfl := Option.some.inj (hb.symm.trans hb')
    obtain ⟨move, hmove, -⟩ := hmoves.recognised
    refine ⟨move, hmove, fun k hk => covered_pending_iff.mpr ?_⟩
    obtain ⟨hshown, hno⟩ := hall k ((ofMove_iff hmove).mpr hk)
    exact ⟨hshown, (hfree k).mp hno⟩
  · rintro ⟨move, hmove, hall⟩
    refine ⟨b, hb, ⟨_, movesTo_of_recognised hmove⟩, fun k hk => ?_⟩
    obtain ⟨hshown, hno⟩ := covered_pending_iff.mp (hall k ((ofMove_iff hmove).mp hk))
    exact ⟨hshown, (hfree k).mpr hno⟩

theorem Found.snoc {found : Moves} (hfound : Found P input before found)
    (h : InTurn input (before ++ (b, i) :: after)) :
    Found P input (before ++ [(b, i)]) (planMove P (view P input) found b) := by
  have hahead := hfound.goesAhead_iff h
  obtain ⟨move, hmove, hfree, heq⟩ | ⟨hnone, heq⟩ := planMove_eq (P := P) (v := view P input) found b
  · have hgoes : GoesAhead P input i := hahead.mpr ⟨move, hmove, hfree⟩
    rw [heq]
    constructor
    · intro q
      simp only [List.mem_append, or_and_right, exists_or, exists_eq_left, ← hfound.pending, hgoes, true_and,
        List.mem_cons, ofMove_iff hmove]
      tauto
    · intro a
      simp only [List.mem_append, List.mem_singleton, or_and_right, exists_or, exists_eq_left, ← hfound.moves,
        hgoes, true_and, Option.mem_toList, hmove, Option.some.injEq, exists_eq_left']
  · have hstays : ¬ GoesAhead P input i := fun hgoes => by
      obtain ⟨move, hmove, hfree⟩ := hahead.mp hgoes
      exact hnone move hmove hfree
    rw [heq]
    constructor
    · intro q
      simp only [List.mem_append, List.mem_singleton, or_and_right, exists_or, exists_eq_left, ← hfound.pending,
        hstays, false_and, or_false]
    · intro a
      simp only [List.mem_append, List.mem_singleton, or_and_right, exists_or, exists_eq_left, ← hfound.moves,
        hstays, false_and, or_false]

theorem found_foldl (h : InTurn input (before ++ after)) :
    Found P input before
      ((before.map Prod.fst).foldl (planMove P (view P input)) { moves := [], pending := [] }) := by
  induction before using List.reverseRecOn generalizing after with
  | nil => exact ⟨fun q => by simp, fun a => by simp⟩
  | append_singleton before e ih =>
    obtain ⟨b, i⟩ := e
    rw [List.append_assoc] at h
    rw [List.map_append, List.foldl_append]
    exact (ih h).snoc h

variable (P input) in
theorem found_foundMoves : ∃ sorted, InTurn input sorted ∧ Found P input sorted (foundMoves P input) := by
  obtain ⟨sorted, hmap, hperm, hsorted⟩ := exists_sorted_zipIdx (fun b : BaseEntry => depth b.rel) input.base 0
  have hturn : InTurn input sorted := ⟨hperm, hsorted⟩
  refine ⟨sorted, hturn, ?_⟩
  unfold foundMoves planMoves
  rw [← hmap]
  rw [← List.append_nil sorted] at hturn
  exact found_foldl hturn

/-! ## What is left out of the plan -/

/-- The planned moves are those that go ahead, where their folders are there. -/
theorem mem_foundMoves {a : Action} :
    a ∈ (foundMoves P input).moves ↔ ∃ i b, GoesAhead P input i ∧ input.base[i]? = some b ∧
      ∃ move, recognisedMove P (view P input) b = some move ∧ move.action = some a := by
  obtain ⟨sorted, hturn, hfound⟩ := found_foundMoves P input
  rw [hfound.moves]
  constructor
  · rintro ⟨⟨b, i⟩, he, hahead, hmove⟩
    exact ⟨i, b, hahead, hturn.mem_iff.mp he, hmove⟩
  · rintro ⟨i, b, hahead, hb, hmove⟩
    exact ⟨(b, i), hturn.mem_iff.mpr hb, hahead, hmove⟩

/-- The planner leaves out what is mid-move or excluded. -/
theorem covered_foundMoves_iff {k : Rel} :
    covered k [(foundMoves P input).pending, (view P input).hidden.keys] = false ↔
      ¬ MidMove P input k ∧ NotExcluded P input k := by
  obtain ⟨sorted, hturn, hfound⟩ := found_foundMoves P input
  rw [covered_pending_iff, and_comm]
  refine and_congr_left fun _ => ?_
  constructor
  · rintro hno ⟨i, b, hahead, hb, q, hof, hq0, hin⟩
    exact hno q ((hfound.pending q).mpr ⟨(b, i), hturn.mem_iff.mpr hb, hahead, hof⟩) hq0 hin
  · intro hno q hq hq0 hin
    obtain ⟨⟨b, i⟩, he, hahead, hof⟩ := (hfound.pending q).mp hq
    exact hno ⟨i, b, hahead, hturn.mem_iff.mp he, q, hof, hq0, hin⟩

theorem holdFor_eq_none_iff : holdFor input = none ↔ ¬ Emptied input := by
  unfold holdFor Emptied EMPTIED_HOLD_FILES
  cases input.allowEmptied with
  | true => simp
  | false =>
    by_cases hfew : (input.base.filter fun entry => entry.type = .file).length < 10
    · simp [hfew]
    · simp only [Bool.false_eq_true, if_false, hfew, Nat.not_lt.mp hfew, true_and, List.length_eq_zero_iff,
        Bool.and_eq_true, decide_eq_true_eq]
      split_ifs with hlocal hremote
      · simp [hlocal]
      · simp [hremote]
      · simp only [not_or, true_iff]
        exact ⟨hlocal, hremote⟩

/-- A plan comes to the paths when nothing is held and no move that goes ahead has its folder. -/
theorem noMoveToMake_iff : NoMoveToMake P input ↔ holdFor input = none ∧ (foundMoves P input).moves = [] := by
  unfold NoMoveToMake
  rw [holdFor_eq_none_iff]
  refine and_congr_right fun _ => ?_
  rw [List.eq_nil_iff_forall_not_mem]
  constructor
  · intro hno a ha
    obtain ⟨i, b, hahead, hb, move, hmove, haction⟩ := mem_foundMoves.mp ha
    exact hno i b hahead hb (hasParent_iff.mpr ⟨move, hmove, by rw [haction]; rfl⟩)
  · intro hno i b hahead hb hparent
    obtain ⟨move, hmove, hready⟩ := hasParent_iff.mp hparent
    obtain ⟨a, ha⟩ := Option.isSome_iff_exists.mp hready
    exact hno a (mem_foundMoves.mpr ⟨i, b, hahead, hb, move, hmove, ha⟩)

theorem outOfSight_iff {k : Rel} (hshown : NotExcluded P input k) :
    covered k [vanishedFolders (view P input)] = true ↔ OutOfSight P input k := by
  refine ⟨outOfSight_of_covered, covered_of_outOfSight ?_⟩
  have hfree : covered k [[], (view P input).hidden.keys] = false :=
    covered_pending_iff.mpr ⟨hshown, fun _ hq => nomatch hq⟩
  rw [covered_eq_false_iff] at hfree ⊢
  exact fun q hq set hset => hfree q hq set (.tail _ hset)

end Staaash.Planner
