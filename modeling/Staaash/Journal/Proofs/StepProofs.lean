import Staaash.Journal.Proofs.CallProofs

/-!
# Proofs: the forward steps

One specification for each function: started on the tree `X`, a step that returns has had its
effect on `X`, and a step that is left anywhere leaves a tree between `X` and that effect. The
assertion `A` is whatever else the caller knows; it has to allow the trees in between.
-/

namespace Staaash.Journal

open Staaash.Library (Proc)
open Staaash.Library.Proc

variable {A : World → Prop} {X : Fs} {H : Host} {step : Step} {phase : Phase} {lease : M Unit}

/-! ## Folders on the way -/

/-- `A` survives the making of folders along `ks`, from the tree `X`. -/
def AllowsFolders (A : World → Prop) (phase : Phase) (X : Fs) (ks : List Key) : Prop :=
  ∀ w fs k j, A w → X.ensureDirectories (ks.take j) = some fs →
    A ({ w with fs }.emit (.changed phase (.mkdir k)))

theorem triple_ensureDurableDirectorySegment {k : Key} (hA : Stable A) (hl : LeaseCheck lease)
    (hallow : ∀ w fs, A w → X.ensureDirectory k = some fs →
      A ({ w with fs }.emit (.changed phase (.mkdir k)))) :
    Triple (fun w => A w ∧ w.fs = X) (ensureDurableDirectorySegment phase lease k)
      (fun _ w => A w ∧ X.ensureDirectory k = some w.fs)
      (fun _ w => A w ∧ (w.fs = X ∨ X.ensureDirectory k = some w.fs)) := by
  have hX := hA.withFs X
  have hleft : ∀ w, A w ∧ w.fs = X → A w ∧ (w.fs = X ∨ X.ensureDirectory k = some w.fs) :=
    fun w h => ⟨h.1, Or.inl h.2⟩
  unfold ensureDurableDirectorySegment
  refine ((triple_pathState hX).exits hleft).bind fun n => ?_
  cases n with
  | some n =>
    cases n with
    | directory =>
      refine triple_pure fun w h => ⟨h.1.1, ?_⟩
      have hk : X.get k = some .directory := by
        rw [← h.1.2]
        exact h.2
      rw [h.1.2, Fs.ensureDirectory, hk]
    | file bytes => exact triple_throw fun w h => hleft w h.1
    | other => exact triple_throw fun w h => hleft w h.1
  | none =>
    have hdone := hA.tree (X.ensureDirectory k = some ·)
    have hright : ∀ w, A w ∧ X.ensureDirectory k = some w.fs →
        A w ∧ (w.fs = X ∨ X.ensureDirectory k = some w.fs) := fun w h => ⟨h.1, Or.inr h.2⟩
    have hsync : ∀ d, Triple (fun w => A w ∧ X.ensureDirectory k = some w.fs) (syncDirectory d)
        (fun _ w => A w ∧ X.ensureDirectory k = some w.fs)
        (fun _ w => A w ∧ (w.fs = X ∨ X.ensureDirectory k = some w.fs)) := fun d =>
      (triple_syncDirectory hdone).exits hright
    refine Triple.pre (P := fun w => (A w ∧ w.fs = X) ∧ X.get k = none) ?_
      fun w h => ⟨h.1, by rw [← h.1.2]; exact h.2⟩
    refine Triple.assume fun hk => ?_
    have hmade : ∀ fs, X.mkdir k = some fs → X.ensureDirectory k = some fs := by
      intro fs hm
      unfold Fs.ensureDirectory
      rw [hk]
      exact hm
    refine Triple.seq ((hl _ hX).exits hleft) ?_
    refine Triple.seq (Q := fun _ w => A w ∧ X.ensureDirectory k = some w.fs) ?_
      (Triple.seq (hsync k) (hsync (dirname k)))
    refine (triple_fsCall hX hleft ?_).post ?_
    · intro w fs hw hf
      rw [hw.2] at hf
      cases hm : X.mkdir k with
      | none => rw [hm] at hf; cases hf
      | some fs' =>
        rw [hm] at hf
        obtain rfl := Except.ok.inj hf
        exact ⟨hallow w _ hw.1 (hmade _ hm), Or.inr (hmade _ hm)⟩
    · rintro _ w ⟨hE, before, hb, hf, -⟩
      rw [hb.2] at hf
      cases hm : X.mkdir k with
      | none => rw [hm] at hf; cases hf
      | some fs' =>
        rw [hm] at hf
        exact ⟨hE.1, hmade w.fs (hm.trans (congrArg some (Except.ok.inj hf)))⟩

theorem triple_ensureSegments {ks : List Key} (hA : Stable A) (hl : LeaseCheck lease)
    (hallow : AllowsFolders A phase X ks) :
    Triple (fun w => A w ∧ w.fs = X) (ensureSegments phase lease ks)
      (fun _ w => A w ∧ X.ensureDirectories ks = some w.fs)
      (fun _ w => A w ∧ ∃ j, X.ensureDirectories (ks.take j) = some w.fs) := by
  induction ks generalizing X with
  | nil => exact triple_pure fun w h => ⟨h.1, by rw [h.2]; rfl⟩
  | cons k ks ih =>
    have hfirst := triple_ensureDurableDirectorySegment (X := X) (k := k) hA hl
      fun w fs hw hk => hallow w fs k 1 hw (by
        rw [List.take_succ_cons, List.take_zero, Fs.ensureDirectories_cons, hk]
        rfl)
    refine Triple.seq (Q := fun _ w => A w ∧ X.ensureDirectory k = some w.fs) ?_ ?_
    · refine hfirst.exits ?_
      rintro w ⟨hw, h | h⟩
      · exact ⟨hw, 0, by rw [h]; rfl⟩
      · refine ⟨hw, 1, ?_⟩
        rw [List.take_succ_cons, List.take_zero, Fs.ensureDirectories_cons, h]
        rfl
    · -- The rest starts from whatever tree the first folder gave.
      intro w hw
      have hcons : ∀ ls, X.ensureDirectories (k :: ls) = w.fs.ensureDirectories ls := by
        intro ls
        rw [Fs.ensureDirectories_cons, hw.2]
        rfl
      have hrest := ih (X := w.fs) fun w' fs k' j hw' hj =>
        hallow w' fs k' (j + 1) hw' (by rw [List.take_succ_cons, hcons]; exact hj)
      have hfin : Triple (fun w' => A w' ∧ w'.fs = w.fs) (ensureSegments phase lease ks)
          (fun _ w' => A w' ∧ X.ensureDirectories (k :: ks) = some w'.fs)
          (fun _ w' => A w' ∧ ∃ j, X.ensureDirectories ((k :: ks).take j) = some w'.fs) := by
        refine hrest.weaken (fun _ h => h) (fun _ w' h => ⟨h.1, ?_⟩) ?_
        · rw [hcons]
          exact h.2
        · rintro _ w' ⟨hw', j, hj⟩
          exact ⟨hw', j + 1, by rw [List.take_succ_cons, hcons]; exact hj⟩
      exact hfin w ⟨hw.1, rfl⟩

theorem triple_durableMkdirWithinRoot {target : Key} (hA : Stable A) (hl : LeaseCheck lease)
    (hallow : AllowsFolders A phase X (prefixes target)) :
    Triple (fun w => A w ∧ w.fs = X) (durableMkdirWithinRoot phase lease target)
      (fun _ w => A w ∧ X.ensureDirectories (prefixes target) = some w.fs)
      (fun _ w => A w ∧ ∃ j, X.ensureDirectories ((prefixes target).take j) = some w.fs) := by
  unfold durableMkdirWithinRoot
  refine triple_ite (fun ht => ?_) fun _ => ?_
  · subst ht
    exact triple_pure fun w h => ⟨h.1, by rw [h.2]; rfl⟩
  · refine Triple.seq (Q := fun _ w => A w ∧ w.fs = X) ?_ (triple_ensureSegments hA hl hallow)
    refine (triple_assertSafeStorageAncestors (hA.withFs X)).weaken (fun _ h => h)
      (fun _ _ h => h.1) fun _ w h => ⟨h.1, 0, by rw [h.2]; rfl⟩

/-! ## Renames -/

/-- `A` survives everything an interrupted `step` can have done, started on the tree `X`. -/
structure Allows (A : World → Prop) (phase : Phase) (H : Host) (step : Step) (X : Fs) : Prop where
  folders : ∀ w fs k, A w → Between H step X fs →
    A ({ w with fs }.emit (.changed phase (.mkdir k)))
  rename : ∀ w fs source target, A w → step.work = some (.rename source target) →
    effectOf H step X = some fs → A ({ w with fs }.emit (.changed phase (.rename source target)))

theorem Step.work_of_rename {source target : Key} (ha : step.action = .rename)
    (hi : assertRenameStepIntent step = .ok ())
    (hs : resolveMutationStoragePath (step.sourceKey.getD []) = .ok source)
    (ht : resolveMutationStoragePath (step.targetKey.getD []) = .ok target) :
    step.work = some (.rename source target) := by
  unfold Step.work
  rw [ha]
  simp only [hi, hs, ht, Except.isOk, Except.toBool, if_true, Except.toOption]
  rfl

/-- The part of a rename that changes something. -/
theorem triple_applyRename_ready {source target : Key} {node : Node} (hA : Stable A)
    (hl : LeaseCheck lease) (hallow : Allows A phase H step X)
    (hw : step.work = some (.rename source target))
    (hsafe : safeAncestors X (prefixes (dirname source)) = true)
    (hsafe' : safeAncestors X (prefixes (dirname target)) = true)
    (hsource : X.get source = some node) (htarget : X.get target = none) :
    Triple (fun w => A w ∧ w.fs = X)
      (do
        validateExpectedNode H source step
        syncRenameSource source node
        syncDirectory (dirname source)
        durableMkdirWithinRoot phase lease (dirname target)
        lease
        fsCall phase (.rename source target) fun fs =>
          match fs.rename source target with
          | some fs => .ok fs
          | none => .error (.errno "EINVAL")
        syncParents [source, target])
      (fun _ w => A w ∧ effectOf H step X = some w.fs)
      (fun _ w => A w ∧ Between H step X w.fs) := by
  have hX := hA.withFs X
  have hleft : ∀ w, A w ∧ w.fs = X → A w ∧ Between H step X w.fs :=
    fun w h => ⟨h.1, Or.inl h.2⟩
  refine Triple.seq (Q := fun _ w => (A w ∧ w.fs = X) ∧
      (checkExpectedNode H X source step).isOk = true) ?_ (Triple.assume fun hvalid => ?_)
  · refine (triple_readCall hX).weaken (fun _ h => h) (fun _ w h => ⟨h.1, ?_⟩) fun _ => hleft
    have hcheck := h.2
    rw [h.1.2] at hcheck
    rw [hcheck]
    rfl
  have hready : (Work.rename source target).Ready H step X :=
    ⟨hsafe, hsafe', by rw [hsource]; exact Option.some_ne_none _, htarget, hvalid⟩
  have hway : ∀ j fs, X.ensureDirectories ((prefixes (dirname target)).take j) = some fs →
      Between H step X fs := fun j fs hj => Or.inr (Or.inl ⟨_, hw, hready, j, hj⟩)
  refine Triple.seq ((triple_syncRenameSource hX).exits hleft) ?_
  refine Triple.seq ((triple_syncDirectory hX).exits hleft) ?_
  refine Triple.seq ((triple_durableMkdirWithinRoot hA hl
    fun w fs k j hw' hj => hallow.folders w fs k hw' (hway j fs hj)).exits
      fun w h => ⟨h.1, by obtain ⟨j, hj⟩ := h.2; exact hway j w.fs hj⟩) ?_
  -- The folders are there; what is left is the rename itself.
  have hmid := hA.tree (X.ensureDirectories (prefixes (dirname target)) = some ·)
  have hmidLeft : ∀ w, A w ∧ X.ensureDirectories (prefixes (dirname target)) = some w.fs →
      A w ∧ Between H step X w.fs := by
    intro w h
    refine ⟨h.1, hway (prefixes (dirname target)).length w.fs ?_⟩
    rw [List.take_length]
    exact h.2
  have heffect : ∀ mid fs : Fs, X.ensureDirectories (prefixes (dirname target)) = some mid →
      (match mid.rename source target with
        | some fs => (Except.ok fs : Except Err Fs)
        | none => .error (.errno "EINVAL")) = .ok fs → effectOf H step X = some fs := by
    intro mid fs hm hf
    rw [effectOf_of_ready hw hready]
    show (X.ensureDirectories (prefixes (dirname target))).bind _ = _
    rw [hm]
    show mid.rename source target = some fs
    cases hr : mid.rename source target with
    | none => rw [hr] at hf; cases hf
    | some fs' =>
      rw [hr] at hf
      exact congrArg some (Except.ok.inj hf)
  refine Triple.seq ((hl _ hmid).exits hmidLeft) ?_
  have hfin := hA.tree (effectOf H step X = some ·)
  refine Triple.seq (Q := fun _ w => A w ∧ effectOf H step X = some w.fs) ?_ ?_
  · refine (triple_fsCall hmid hmidLeft ?_).post ?_
    · intro w fs hw' hf
      have he := heffect w.fs fs hw'.2 hf
      exact ⟨hallow.rename w fs source target hw'.1 hw he, Or.inr (Or.inr he)⟩
    · rintro _ w ⟨hE, before, hb, hf, -⟩
      exact ⟨hE.1, heffect before.fs w.fs hb.2 hf⟩
  · exact (triple_syncParents hfin).exits fun w h => ⟨h.1, Or.inr (Or.inr h.2)⟩

theorem triple_applyRename (ha : step.action = .rename) (hA : Stable A) (hl : LeaseCheck lease)
    (hallow : Allows A phase H step X) :
    Triple (fun w => A w ∧ w.fs = X) (applyRename H phase step lease)
      (fun _ w => A w ∧ effectOf H step X = some w.fs)
      (fun _ w => A w ∧ Between H step X w.fs) := by
  have hX := hA.withFs X
  have hleft : ∀ w, A w ∧ w.fs = X → A w ∧ Between H step X w.fs :=
    fun w h => ⟨h.1, Or.inl h.2⟩
  unfold applyRename
  refine (triple_check.exits hleft).bind fun u =>
    Triple.assume fun hi => ?_
  refine (triple_check.exits hleft).bind fun source =>
    Triple.assume fun hs => ?_
  refine (triple_check.exits hleft).bind fun target =>
    Triple.assume fun ht => ?_
  have hw := Step.work_of_rename ha hi hs ht
  have hfs : ∀ {p : Fs → Prop} (w : World), (A w ∧ w.fs = X) ∧ p w.fs → (A w ∧ w.fs = X) ∧ p X :=
    fun w h => ⟨h.1, h.1.2 ▸ h.2⟩
  refine Triple.seq ((triple_assertSafeStorageAncestors hX).weaken (fun _ h => h)
    (fun _ w h => hfs (p := fun fs => safeAncestors fs _ = true) w h) fun _ => hleft)
    (Triple.assume fun hsafe => ?_)
  refine Triple.seq ((triple_assertSafeStorageAncestors hX).weaken (fun _ h => h)
    (fun _ w h => hfs (p := fun fs => safeAncestors fs _ = true) w h) fun _ => hleft)
    (Triple.assume fun hsafe' => ?_)
  refine ((triple_pathState hX).weaken (fun _ h => h)
    (fun n w h => hfs (p := fun fs => fs.get source = n) w h) fun _ => hleft).bind fun sourceState =>
    Triple.assume fun hsource => ?_
  refine ((triple_pathState hX).weaken (fun _ h => h)
    (fun n w h => hfs (p := fun fs => fs.get target = n) w h) fun _ => hleft).bind fun targetState =>
    Triple.assume fun htarget => ?_
  cases sourceState with
  | some node =>
    cases targetState with
    | some _ => exact triple_throw hleft
    | none => exact triple_applyRename_ready hA hl hallow hw hsafe hsafe' hsource htarget
  | none =>
    cases targetState with
    | none => exact triple_throw hleft
    | some node =>
      refine (triple_readCall hX).weaken (fun _ h => h) (fun _ w h => ⟨h.1.1, ?_⟩) fun _ => hleft
      have hcheck := h.2
      rw [h.1.2] at hcheck
      have hnot : ¬ (Work.rename source target).Ready H step X := fun hr => hr.2.2.1 hsource
      have hdone : (Work.rename source target).Done H step X :=
        ⟨hsafe, hsafe', hsource, by rw [htarget]; exact Option.some_ne_none _, by rw [hcheck]; rfl⟩
      unfold effectOf
      rw [hw]
      simp only [if_neg hnot, if_pos hdone, h.1.2]

/-! ## Mkdir steps -/

theorem Step.work_of_mkdir {target : Key} {key digest : Text} (ha : step.action = .mkdir)
    (hk : truthy step.targetKey = some key) (hd : truthy step.treeManifestDigest = some digest)
    (ht : resolveMutationStoragePath key = .ok target) :
    step.work = some (.mkdir target digest) := by
  unfold Step.work
  rw [ha]
  simp only [hk, hd, Option.bind_eq_bind, Option.bind_some, ht, Except.toOption]
  rfl

theorem triple_applyMkdir (ha : step.action = .mkdir) (hA : Stable A) (hl : LeaseCheck lease)
    (hallow : Allows A .forward H step X) :
    Triple (fun w => A w ∧ w.fs = X) (applyMkdir H step lease)
      (fun _ w => A w ∧ effectOf H step X = some w.fs)
      (fun _ w => A w ∧ Between H step X w.fs) := by
  have hX := hA.withFs X
  have hleft : ∀ w, A w ∧ w.fs = X → A w ∧ Between H step X w.fs :=
    fun w h => ⟨h.1, Or.inl h.2⟩
  have hfin := hA.tree (effectOf H step X = some ·)
  have hsync : ∀ d, Triple (fun w => A w ∧ effectOf H step X = some w.fs) (syncDirectory d)
      (fun _ w => A w ∧ effectOf H step X = some w.fs) (fun _ w => A w ∧ Between H step X w.fs) :=
    fun d => (triple_syncDirectory hfin).exits fun w h => ⟨h.1, Or.inr (Or.inr h.2)⟩
  unfold applyMkdir
  cases hk : truthy step.targetKey with
  | none => exact triple_throw hleft
  | some key =>
    cases hd : truthy step.treeManifestDigest with
    | none => exact triple_throw hleft
    | some digest =>
      refine (triple_check.exits hleft).bind fun target =>
        Triple.assume fun ht => ?_
      have hw := Step.work_of_mkdir ha hk hd ht
      refine Triple.seq ((triple_assertSafeStorageAncestors hX).weaken (fun _ h => h)
        (fun _ w h => (⟨h.1, h.1.2 ▸ h.2⟩ : (A w ∧ w.fs = X) ∧
          safeAncestors X (prefixes (dirname target)) = true)) fun _ => hleft)
        (Triple.assume fun hsafe => ?_)
      refine ((triple_pathState hX).weaken (fun _ h => h)
        (fun n w h => (⟨h.1, h.1.2 ▸ h.2⟩ : (A w ∧ w.fs = X) ∧ X.get target = n)) fun _ => hleft).bind
        fun n => Triple.assume fun hn => ?_
      cases n with
      | none =>
        have hready : (Work.mkdir target digest).Ready H step X := ⟨hsafe, hn⟩
        have hway : ∀ j fs, X.ensureDirectories ((prefixes target).take j) = some fs →
            Between H step X fs := fun j fs hj => Or.inr (Or.inl ⟨_, hw, hready, j, hj⟩)
        refine Triple.seq (Q := fun _ w => A w ∧ effectOf H step X = some w.fs) ?_ (hsync target)
        refine (triple_durableMkdirWithinRoot hA hl
          fun w fs k j hw' hj => hallow.folders w fs k hw' (hway j fs hj)).weaken (fun _ h => h)
            (fun _ w h => ⟨h.1, ?_⟩)
            fun _ w h => ⟨h.1, by obtain ⟨j, hj⟩ := h.2; exact hway j w.fs hj⟩
        rw [effectOf_of_ready hw hready]
        show (X.ensureDirectories (prefixes target)).bind _ = _
        rw [h.2]
        rfl
      | some node =>
        cases node with
        | file bytes => exact triple_throw hleft
        | other => exact triple_throw hleft
        | directory =>
          refine ((triple_readCall hX).weaken (fun _ h => h)
            (fun b w h => (⟨h.1, h.1.2 ▸ h.2⟩ : (A w ∧ w.fs = X) ∧
              treeManifestMatches H X target digest = .ok b)) fun _ => hleft).bind
            fun same => Triple.assume fun hsame => ?_
          cases same with
          | false => exact triple_throw (fun _ h => hleft _ h)
          | true =>
            refine (hsync target).pre fun w h => ⟨h.1, ?_⟩
            have hnot : ¬ (Work.mkdir target digest).Ready H step X := by
              intro hr
              rw [hr.2] at hn
              cases hn
            have hdone : (Work.mkdir target digest).Done H step X :=
              ⟨hsafe, hn, by rw [hsame]; rfl⟩
            unfold effectOf
            rw [hw]
            simp only [if_neg hnot, if_pos hdone, h.2]

end Staaash.Journal
