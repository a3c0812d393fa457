import Staaash.Journal.Proofs.FilesystemProofs

/-!
# Proofs: a step can be interrupted and started again

Whatever an interrupted step has left, running the step again gives the tree the step gives without
the interruption, or is refused.
-/

namespace Staaash.Journal

variable {H : Host} {step : Step} {fs fs' : Fs}

/-! ## Fingerprints -/

theorem below_rename {source target : Key} (h : fs.rename source target = some fs') :
    fs'.below target = fs.below source := by
  obtain ⟨-, ht, ht0, -, -, hn⟩ := Fs.rename_eq_some h
  unfold Fs.below
  rw [hn, List.filterMap_map]
  refine List.filterMap_congr fun e he => ?_
  obtain ⟨k, n⟩ := e
  have hfree : ¬ target <+: k := by
    intro hp
    have := Fs.get_eq_none_below ht ht0 hp
    rw [Fs.get_eq_some_iff.mpr he] at this
    cases this
  simp only [Function.comp]
  by_cases hs : source <+: k
  · obtain ⟨rest, rfl⟩ := hs
    simp [Fs.moveKey_append]
  · simp [Fs.moveKey_outside hs, hs, hfree]

theorem entries_ensureDirectories {ks : List Key} (h : fs.ensureDirectories ks = some fs') :
    ∃ made : List Key, (∀ k ∈ made, k ∈ ks ∧ fs.get k = none) ∧
      fs'.nodes.entries = fs.nodes.entries ++ made.map fun k => (k, .directory) := by
  induction ks generalizing fs with
  | nil =>
    obtain rfl := Option.some.inj h
    exact ⟨[], by simp, by simp⟩
  | cons k ks ih =>
    obtain ⟨mid, hmid, hrest⟩ := Option.bind_eq_some_iff.mp h
    obtain ⟨made, hmade, he⟩ := ih hrest
    rcases Fs.ensureDirectory_eq_some hmid with ⟨-, rfl⟩ | ⟨hk, hm⟩
    · exact ⟨made, fun k' hk' => ⟨by simp [(hmade k' hk').1], (hmade k' hk').2⟩, he⟩
    · refine ⟨k :: made, ?_, ?_⟩
      · intro k' hk'
        rcases List.mem_cons.mp hk' with rfl | hk'
        · exact ⟨by simp, hk⟩
        · have hnone := (hmade k' hk').2
          rw [Fs.get_mkdir hm] at hnone
          split_ifs at hnone
          exact ⟨by simp [(hmade k' hk').1], hnone⟩
      · rw [he, Fs.entries_mkdir hm]
        simp

theorem below_ensureDirectories {ks : List Key} {root : Key}
    (h : fs.ensureDirectories ks = some fs') (hr : ∀ k ∈ ks, ¬ root <+: k) :
    fs'.below root = fs.below root := by
  obtain ⟨made, hmade, he⟩ := entries_ensureDirectories h
  unfold Fs.below
  rw [he, List.filterMap_append]
  refine List.append_right_eq_self.mpr (List.filterMap_eq_nil_iff.mpr fun e hmem => ?_)
  obtain ⟨k, hk, rfl⟩ := List.mem_map.mp hmem
  simp [hr k (hmade k hk).1]

/-- A fingerprint depends on the node and on what is below it only. -/
theorem checkExpectedNode_congr {k k' : Key} (hget : fs'.get k' = fs.get k)
    (hbelow : fs'.below k' = fs.below k) :
    checkExpectedNode H fs' k' step = checkExpectedNode H fs k step := by
  unfold checkExpectedNode
  rw [hget]
  cases fs.get k with
  | none => rfl
  | some node =>
    have hsize : nodeSize H fs' k' node = nodeSize H fs k node := by
      cases node with
      | directory => exact congrArg H.directorySize hbelow
      | file bytes => rfl
      | other => rfl
    have htree : assertExpectedTreeManifest H fs' k' node step =
        assertExpectedTreeManifest H fs k node step := by
      unfold assertExpectedTreeManifest treeManifestMatches readTreeManifestRecords
      rw [hbelow]
    dsimp only
    rw [hsize, htree]

theorem checkExpectedNode_rename {source target : Key}
    (h : fs.rename source target = some fs') :
    checkExpectedNode H fs' target step = checkExpectedNode H fs source step := by
  refine checkExpectedNode_congr ?_ (below_rename h)
  have := Fs.get_rename_target h []
  rwa [List.append_nil, List.append_nil] at this

/-! ## The two cases of an effect -/

theorem effectOf_eq_some (h : effectOf H step fs = some fs') :
    ∃ work, step.work = some work ∧
      ((work.Ready H step fs ∧
          ∃ mid, fs.ensureDirectories work.way = some mid ∧ work.finish mid = some fs') ∨
        (work.Done H step fs ∧ fs' = fs)) := by
  unfold effectOf at h
  cases hw : step.work with
  | none => rw [hw] at h; cases h
  | some work =>
    rw [hw] at h
    dsimp only at h
    refine ⟨work, rfl, ?_⟩
    split_ifs at h with hr hd
    · obtain ⟨mid, hmid, hfin⟩ := Option.bind_eq_some_iff.mp h
      exact Or.inl ⟨hr, mid, hmid, hfin⟩
    · exact Or.inr ⟨hd, (Option.some.inj h).symm⟩

theorem effectOf_of_ready {work : Work} (hw : step.work = some work) (hr : work.Ready H step fs) :
    effectOf H step fs = (fs.ensureDirectories work.way).bind work.finish := by
  unfold effectOf
  rw [hw]
  exact if_pos hr

theorem Work.not_ready_of_atTarget {work : Work} (h : work.AtTarget fs) :
    ¬ work.Ready H step fs := by
  intro hr
  cases work with
  | rename source target => exact hr.2.2.1 h.1
  | mkdir target digest =>
    have hnone := hr.2
    rw [show fs.get target = some .directory from h] at hnone
    cases hnone

theorem prefixes_ne_nil_of_mem {k t : Key} (h : k ∈ prefixes t) : t ≠ [] := by
  obtain ⟨h0, hp⟩ := mem_prefixes.mp h
  intro ht
  rw [ht, List.prefix_nil] at hp
  exact h0 hp

theorem resolve_ne_nil {key : Text} {k : Key} (h : resolveMutationStoragePath key = .ok k) :
    k ≠ [] := by
  unfold resolveMutationStoragePath at h
  cases hn : normalizeStorageKey key with
  | error e => rw [hn] at h; cases h
  | ok segments =>
    rw [hn] at h
    simp only [bind, Except.bind] at h
    split_ifs at h with hc
    simp only [Bool.or_eq_true, decide_eq_true_eq, not_or] at hc
    obtain rfl := Except.ok.inj h
    exact hc.1

theorem toOption_eq_some {α : Type} {x : Except Err α} {a : α} :
    x.toOption = some a ↔ x = .ok a := by
  cases x with
  | error e => simp [Except.toOption]
  | ok b => simp [Except.toOption]

theorem eq_ok_of_isOk {x : Except Err Unit} (h : x.isOk = true) : x = .ok () := by
  cases x with
  | ok u => rfl
  | error e => cases h

theorem Step.work_eq_mkdir {target : Key} {digest : Text}
    (h : step.work = some (.mkdir target digest)) :
    step.action = .mkdir ∧ ∃ key, truthy step.targetKey = some key ∧
      truthy step.treeManifestDigest = some digest ∧
      resolveMutationStoragePath key = .ok target := by
  unfold Step.work at h
  cases ha : step.action with
  | mkdir =>
    simp only [ha, Option.bind_eq_bind, Option.bind_eq_some_iff] at h
    obtain ⟨key, hkey, digest', hdigest, target', htarget, he⟩ := h
    obtain ⟨rfl, rfl⟩ := Work.mkdir.inj (Option.some.inj he)
    exact ⟨rfl, key, hkey, hdigest, toOption_eq_some.mp htarget⟩
  | rename =>
    simp only [ha] at h
    split_ifs at h
    simp only [Option.bind_eq_bind, Option.bind_eq_some_iff] at h
    obtain ⟨_, _, _, _, he⟩ := h
    cases he
  | deleteFile => rw [ha] at h; cases h
  | deleteTree => rw [ha] at h; cases h
  | removeEmptyDirectory => rw [ha] at h; cases h

theorem Step.work_eq_rename {source target : Key} (h : step.work = some (.rename source target)) :
    step.action = .rename ∧ assertRenameStepIntent step = .ok () ∧
      resolveMutationStoragePath (step.sourceKey.getD []) = .ok source ∧
      resolveMutationStoragePath (step.targetKey.getD []) = .ok target := by
  unfold Step.work at h
  cases ha : step.action with
  | rename =>
    simp only [ha] at h
    split_ifs at h with hi
    simp only [Option.bind_eq_bind, Option.bind_eq_some_iff] at h
    obtain ⟨source', hs, target', ht, he⟩ := h
    obtain ⟨rfl, rfl⟩ := Work.rename.inj (Option.some.inj he)
    refine ⟨rfl, ?_, toOption_eq_some.mp hs, toOption_eq_some.mp ht⟩
    cases hx : assertRenameStepIntent step with
    | error e => rw [hx] at hi; cases hi
    | ok u => rfl
  | mkdir =>
    simp only [ha, Option.bind_eq_bind, Option.bind_eq_some_iff] at h
    obtain ⟨_, _, _, _, _, _, he⟩ := h
    cases he
  | deleteFile => rw [ha] at h; cases h
  | deleteTree => rw [ha] at h; cases h
  | removeEmptyDirectory => rw [ha] at h; cases h

/-- After a step its work is at its target. -/
theorem atTarget_of_effectOf {work : Work} (hw : step.work = some work)
    (h : effectOf H step fs = some fs') : work.AtTarget fs' := by
  obtain ⟨work', hw', hcase⟩ := effectOf_eq_some h
  obtain rfl : work' = work := by
    rw [hw] at hw'
    exact (Option.some.inj hw').symm
  rcases hcase with ⟨hr, mid, hmid, hfin⟩ | ⟨hd, rfl⟩
  · cases work' with
    | rename source target =>
      have hren : mid.rename source target = some fs' := hfin
      refine ⟨Fs.get_rename_source hren List.prefix_rfl, ?_⟩
      have htarget := Fs.get_rename_target hren []
      rw [List.append_nil, List.append_nil] at htarget
      rw [htarget]
      exact (Fs.rename_eq_some hren).1
    | mkdir target digest =>
      obtain rfl := Option.some.inj hfin
      obtain ⟨-, key, -, -, hres⟩ := Step.work_eq_mkdir hw
      refine Fs.isDirectory_of_ensureDirectories hmid ?_
      exact mem_prefixes.mpr ⟨resolve_ne_nil hres, List.prefix_rfl⟩
  · cases work' with
    | rename source target => exact ⟨hd.2.2.1, hd.2.2.2.1⟩
    | mkdir target digest => exact hd.2.1

/-! ## Starting again -/

theorem effectOf_idem {again : Fs} (h : effectOf H step fs = some fs')
    (h' : effectOf H step fs' = some again) : again = fs' := by
  obtain ⟨work, hw, -⟩ := effectOf_eq_some h
  have hat := atTarget_of_effectOf hw h
  obtain ⟨work', hw', hcase⟩ := effectOf_eq_some h'
  obtain rfl : work' = work := by
    rw [hw] at hw'
    exact (Option.some.inj hw').symm
  rcases hcase with ⟨hr, -⟩ | ⟨-, he⟩
  · exact absurd hr (Work.not_ready_of_atTarget hat)
  · exact he

theorem take_length_max {α : Type} (l : List α) (j : Nat) : l.take (max l.length j) = l :=
  List.take_of_length_le (Nat.le_max_left _ _)

/-- Folders that were made on the way do not change what the step does. -/
theorem effectOf_of_partial {work : Work} (hw : step.work = some work)
    (hr : work.Ready H step fs) {j : Nat} {part after : Fs}
    (hpart : fs.ensureDirectories (work.way.take j) = some part)
    (h : effectOf H step part = some after) : effectOf H step fs = some after := by
  have hresume := Fs.ensureDirectories_resume hpart work.way.length
  rw [List.take_length, take_length_max] at hresume
  rw [effectOf_of_ready hw hr]
  obtain ⟨work', hw', hcase⟩ := effectOf_eq_some h
  obtain rfl : work' = work := by
    rw [hw] at hw'
    exact (Option.some.inj hw').symm
  rcases hcase with ⟨-, mid, hmid, hfin⟩ | ⟨hd, he⟩
  · rw [← hresume, hmid]
    exact hfin
  · rw [he]
    cases work' with
    | rename source target =>
      have hsame := Fs.get_ensureDirectories_of_ne_none hpart hr.2.2.1
      rw [hd.2.2.1] at hsame
      exact absurd hsame.symm hr.2.2.1
    | mkdir target digest =>
      have hall : part.ensureDirectories (prefixes target) = some part := by
        refine Fs.ensureDirectories_of_directories fun k hk => ?_
        obtain ⟨hk0, hpre⟩ := mem_prefixes.mp hk
        by_cases he : k = target
        · rw [he]
          exact hd.2.1
        · have hne : part.get target ≠ none := by
            rw [hd.2.1]
            exact Option.some_ne_none _
          rcases Fs.isDirectory_above hne hpre he with h0 | hdir
          · exact absurd h0 hk0
          · exact hdir
      have hway : fs.ensureDirectories (prefixes target) = some part := hresume.symm.trans hall
      show (fs.ensureDirectories (prefixes target)).bind _ = _
      rw [hway]
      rfl

/-- Running a step again after an interruption gives what it gives without one. -/
theorem effectOf_of_between {before after : Fs} (hb : Between H step before fs)
    (h : effectOf H step fs = some after) : effectOf H step before = some after := by
  rcases hb with rfl | ⟨work, hw, hr, j, hj⟩ | he
  · exact h
  · exact effectOf_of_partial hw hr hj h
  · rw [effectOf_idem he h]
    exact he

theorem Between.trans {before mid after : Fs} (h1 : Between H step before mid)
    (h2 : Between H step mid after) : Between H step before after := by
  rcases h2 with rfl | ⟨work, hw, hr, j, hj⟩ | he
  · exact h1
  · rcases h1 with rfl | ⟨work', hw', hr', i, hi⟩ | he
    · exact Or.inr (Or.inl ⟨work, hw, hr, j, hj⟩)
    · obtain rfl : work' = work := by
        rw [hw] at hw'
        exact (Option.some.inj hw').symm
      rw [Fs.ensureDirectories_resume hi] at hj
      exact Or.inr (Or.inl ⟨work', hw, hr', _, hj⟩)
    · exact absurd hr (Work.not_ready_of_atTarget (atTarget_of_effectOf hw he))
  · exact Or.inr (Or.inr (effectOf_of_between h1 he))

theorem Between.refl (before : Fs) : Between H step before before := Or.inl rfl

/-! ## Several steps -/

theorem runSteps_append {a b : List Step} :
    runSteps H (a ++ b) fs = (runSteps H a fs).bind (runSteps H b) := by
  unfold runSteps
  rw [List.foldlM_append]
  rfl

theorem runSteps_singleton {s : Step} : runSteps H [s] fs = effectOf H s fs := by
  unfold runSteps
  simp

theorem runSteps_take_succ {l : List Step} {k : Nat} {s : Step} (hs : l[k]? = some s) :
    runSteps H (l.take (k + 1)) fs = (runSteps H (l.take k) fs).bind (effectOf H s) := by
  rw [List.take_add_one, hs, Option.toList_some, runSteps_append]
  congr 1
  funext fs'
  exact runSteps_singleton

/-- Where all steps have an effect, the next one has. -/
theorem effectOf_of_runSteps {l : List Step} {k : Nat} {s : Step} {X : Fs} (hs : l[k]? = some s)
    (h : runSteps H l fs = some fs') (hX : runSteps H (l.take k) fs = some X) :
    ∃ Y, effectOf H s X = some Y := by
  rw [← List.take_append_drop (k + 1) l, runSteps_append, runSteps_take_succ hs, hX] at h
  obtain ⟨Y, hY, -⟩ := Option.bind_eq_some_iff.mp h
  exact ⟨Y, hY⟩

end Staaash.Journal
