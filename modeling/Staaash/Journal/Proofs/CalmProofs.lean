import Staaash.Journal.Proofs.RunProofs

/-!
# Proofs: an attempt that meets no fault

Where nothing is scheduled to go wrong and the lease holds, a call returns unless it is refused. So
an attempt on a tree on which every step has an effect gets to its end.
-/

namespace Staaash.Journal

open Staaash.Library (Proc Stop)
open Staaash.Library.Proc

/-- No fault is ahead, and the lease holds. -/
structure Calm (lease : Lease) (status : Status) (memory : List Nat) (X : Fs) (w : World) :
    Prop where
  schedule : w.schedule = []
  failure : w.leaseFailure = none
  fenced : w.row.fenced lease w.now = true
  status : w.row.status = status
  memory : w.memory = memory
  fs : w.fs = X

/-- Started where `P` holds, `x` returns where `Q` holds. -/
def Total {α : Type} (P : World → Prop) (x : M α) (Q : α → World → Prop) : Prop :=
  Triple P x Q fun _ _ => False

variable {H : Host} {m : Mutation} {step : Step} {owned : Bool} {lease : Lease} {status : Status}
  {memory : List Nat} {phase : Phase} {X Y : Fs} {α β : Type}

/-! ## Calls -/

theorem Total.bind {P : World → Prop} {x : M α} {f : α → M β} {a : α} {R : World → Prop}
    {Q : β → World → Prop} (hx : Total P x fun b w => R w ∧ b = a) (hf : Total R (f a) Q) :
    Total P (x >>= f) Q :=
  Triple.bind hx fun b => Triple.assume fun hb => by
    subst hb
    exact hf

theorem Total.seq {P : World → Prop} {x : M Unit} {y : M β} {R : World → Prop}
    {Q : β → World → Prop} (hx : Total P x fun _ => R) (hy : Total R y Q) :
    Total P (x >>= fun _ => y) Q :=
  Triple.seq hx hy

theorem total_pure {P : World → Prop} {a : α} : Total P (pure a : M α) fun b w => P w ∧ b = a :=
  triple_pure fun _ h => ⟨h, rfl⟩

/-- Where nothing is scheduled a call is its effect. -/
theorem total_callWith_of {P : World → Prop} {early : Took → World → World} {effect : M α}
    {Q : α → World → Prop} (hP : ∀ w, P w → w.schedule = []) (h : Total P effect Q) :
    Total P (callWith early effect) Q := by
  intro w hw
  have hcall : callWith early effect w = effect w := by
    unfold callWith World.tick
    rw [hP w hw]
    rfl
  rw [hcall]
  exact h w hw

theorem total_callWith {early : Took → World → World} {effect : M α} {Q : α → World → Prop}
    (h : Total (Calm lease status memory X) effect Q) :
    Total (Calm lease status memory X) (callWith early effect) Q :=
  total_callWith_of (fun _ hw => hw.schedule) h

theorem total_call {effect : M α} {Q : α → World → Prop}
    (h : Total (Calm lease status memory X) effect Q) :
    Total (Calm lease status memory X) (call effect) Q :=
  total_callWith h

theorem total_readCall {f : World → Except Err α} {a : α}
    (hf : ∀ w, Calm lease status memory X w → f w = .ok a) :
    Total (Calm lease status memory X) (readCall f)
      fun b w => Calm lease status memory X w ∧ b = a := by
  refine total_call fun w hw => ?_
  rw [hf w hw]
  exact ⟨hw, rfl⟩

theorem total_check {x : Except Err α} {a : α} (hx : x = .ok a) :
    Total (Calm lease status memory X) (check x)
      fun b w => Calm lease status memory X w ∧ b = a := by
  subst hx
  exact fun w hw => ⟨hw, rfl⟩

theorem total_pathState {k : Key} :
    Total (Calm lease status memory X) (pathState k)
      fun n w => Calm lease status memory X w ∧ n = X.get k :=
  total_readCall fun w hw => by rw [hw.fs]

theorem total_assertSafeStorageAncestors {k : Key}
    (h : safeAncestors X (prefixes (dirname k)) = true) :
    Total (Calm lease status memory X) (assertSafeStorageAncestors k)
      fun _ => Calm lease status memory X := by
  refine (total_readCall (a := ()) fun w hw => ?_).post fun _ _ h => h.1
  rw [hw.fs, if_pos h]

theorem Calm.emit {w : World} {e : Event} (h : Calm lease status memory X w) :
    Calm lease status memory Y ({ w with fs := Y }.emit e) :=
  ⟨h.schedule, h.failure, h.fenced, h.status, h.memory, rfl⟩

theorem total_syncDirectory {k : Key} (h : X.IsDirectory k) :
    Total (Calm lease status memory X) (syncDirectory k)
      fun _ => Calm lease status memory X := by
  refine total_call fun w hw => ?_
  rw [← hw.fs] at h
  simp only [if_pos h]
  exact ⟨hw.schedule, hw.failure, hw.fenced, hw.status, hw.memory, hw.fs⟩

theorem total_syncFile {k : Key} (h : X.get k ≠ none) :
    Total (Calm lease status memory X) (syncFile k) fun _ => Calm lease status memory X := by
  refine total_call fun w hw => ?_
  rw [← hw.fs] at h
  simp only [if_pos h]
  exact ⟨hw.schedule, hw.failure, hw.fenced, hw.status, hw.memory, hw.fs⟩

theorem total_syncAll {ks : List Key} (h : ∀ k ∈ ks, X.IsDirectory k) :
    Total (Calm lease status memory X) (syncAll ks) fun _ => Calm lease status memory X := by
  induction ks with
  | nil => exact triple_pure fun _ h => h
  | cons k ks ih =>
    exact (total_syncDirectory (h k (by simp))).seq (ih fun k' hk' => h k' (by simp [hk']))

theorem total_syncParents {items : List Key} (h : ∀ k ∈ items, X.IsDirectory (dirname k)) :
    Total (Calm lease status memory X) (syncParents items) fun _ => Calm lease status memory X := by
  refine total_syncAll fun d hd => ?_
  rw [List.mem_eraseDups] at hd
  obtain ⟨k, hk, rfl⟩ := List.mem_map.mp hd
  exact h k hk

theorem Calm.renewed {w : World} (h : Calm lease status memory X w) :
    Calm lease status memory X
      { w with row := { w.row with leaseExpiresAt := some (w.now + leaseMs) } } := by
  refine ⟨h.schedule, h.failure, ?_, h.status, h.memory, h.fs⟩
  have hf := h.fenced
  simp only [Row.fenced, Bool.and_eq_true] at hf ⊢
  refine ⟨⟨hf.1.1, ?_⟩, hf.2⟩
  simp [Row.unexpired, leaseMs]

theorem total_assertLease :
    Total (Calm lease status memory X) (assertLease lease)
      fun _ => Calm lease status memory X := by
  refine Triple.bind (Q := fun s w => Calm lease status memory X w ∧ s = w)
    (triple_get fun w h => ⟨h, rfl⟩) fun s => ?_
  rintro w ⟨hw, rfl⟩
  rw [hw.failure]
  have hrenew : Total (Calm lease status memory X) (renewStorageMutationLease lease)
      fun _ => Calm lease status memory X := by
    refine total_call fun w hw => ?_
    simp only [Row.renew, if_pos hw.fenced]
    exact hw.renewed
  exact hrenew s hw

theorem total_rowCall {event : Event} {f : World → Option World} {Q : World → Prop}
    (hf : ∀ w, Calm lease status memory X w → ∃ w', f w = some w' ∧ Q (w'.emit event)) :
    Total (Calm lease status memory X) (rowCall event f) fun _ => Q := by
  refine total_call fun w hw => ?_
  obtain ⟨w', he, hQ⟩ := hf w hw
  rw [he]
  exact hQ

theorem total_updateCall {event : Event} {update : Row → Nat → Option Row} {Q : World → Prop}
    (hf : ∀ w, Calm lease status memory X w →
      ∃ row, update w.row w.now = some row ∧ Q ({ w with row }.emit event)) :
    Total (Calm lease status memory X) (updateCall event update) fun _ => Q := by
  refine total_rowCall fun w hw => ?_
  obtain ⟨row, hrow, hQ⟩ := hf w hw
  exact ⟨_, Option.map_eq_some_iff.2 ⟨row, hrow, rfl⟩, hQ⟩

theorem total_fsCall {op : FsOp} {f : Fs → Except Err Fs} (hf : f X = .ok Y) :
    Total (Calm lease status memory X) (fsCall phase op f)
      fun _ => Calm lease status memory Y := by
  refine total_call fun w hw => ?_
  rw [hw.fs, hf]
  exact hw.emit

/-! ## Forward steps -/

theorem Fs.isDirectory_dirname {k : Key} (h : X.get k ≠ none) : X.IsDirectory (dirname k) :=
  X.closed k (Fs.mem_keys_iff.mpr h)

theorem total_ensureDurableDirectorySegment {k : Key} (h : X.ensureDirectory k = some Y) :
    Total (Calm lease status memory X) (ensureDurableDirectorySegment phase (assertLease lease) k)
      fun _ => Calm lease status memory Y := by
  have hself := Fs.get_ensureDirectory_self h
  unfold ensureDurableDirectorySegment
  refine total_pathState.bind ?_
  rcases Fs.ensureDirectory_eq_some h with ⟨hk, rfl⟩ | ⟨hk, hmk⟩
  · rw [hk]
    exact triple_pure fun _ h => h
  · rw [hk]
    refine total_assertLease.seq (Total.seq (total_fsCall (Y := Y) ?_) ?_)
    · rw [hmk]
    · refine (total_syncDirectory (Or.inr hself)).seq (total_syncDirectory ?_)
      exact Fs.isDirectory_dirname (by rw [hself]; exact Option.some_ne_none _)

theorem total_ensureSegments {ks : List Key} (h : X.ensureDirectories ks = some Y) :
    Total (Calm lease status memory X) (ensureSegments phase (assertLease lease) ks)
      fun _ => Calm lease status memory Y := by
  induction ks generalizing X with
  | nil =>
    obtain rfl := Option.some.inj h
    exact triple_pure fun _ h => h
  | cons k ks ih =>
    obtain ⟨mid, hmid, hrest⟩ := Option.bind_eq_some_iff.mp h
    exact (total_ensureDurableDirectorySegment hmid).seq (ih hrest)

theorem total_durableMkdirWithinRoot {target : Key}
    (h : X.ensureDirectories (prefixes target) = some Y) :
    Total (Calm lease status memory X) (durableMkdirWithinRoot phase (assertLease lease) target)
      fun _ => Calm lease status memory Y := by
  unfold durableMkdirWithinRoot
  refine triple_ite (fun ht => ?_) fun _ => ?_
  · subst ht
    obtain rfl := Option.some.inj h
    exact triple_pure fun _ h => h
  · refine (total_assertSafeStorageAncestors ?_).seq (total_ensureSegments h)
    refine safeAncestors_iff.mpr fun p hp0 hp => ?_
    have hdir := Fs.isDirectory_of_ensureDirectories h
      (mem_prefixes.mpr ⟨hp0, hp.trans (Fs.dirname_above target)⟩)
    by_cases hnone : X.get p = none
    · exact Or.inl hnone
    · exact Or.inr ((Fs.get_ensureDirectories_of_ne_none h hnone).symm.trans hdir)

theorem total_syncRenameSource {k : Key} {n : Node} (h : X.get k = some n) :
    Total (Calm lease status memory X) (syncRenameSource k n)
      fun _ => Calm lease status memory X := by
  cases n with
  | file bytes => exact total_syncFile (by rw [h]; exact Option.some_ne_none _)
  | directory => exact total_syncDirectory (Or.inr h)
  | other => exact triple_pure fun _ h => h

/-- A folder outside the source stays where it is. -/
theorem Fs.isDirectory_rename {source target d : Key} (h : X.rename source target = some Y)
    (hd : X.IsDirectory d) (hs : ¬ source <+: d) : Y.IsDirectory d :=
  hd.imp_right fun hd => (Fs.get_rename h).mpr ⟨d, hd, Fs.moveKey_outside hs⟩

theorem total_applyRename_ready {source target : Key} {node : Node} {mid : Fs}
    (hs0 : source ≠ []) (hsource : X.get source = some node)
    (hcheck : (checkExpectedNode H X source step).isOk = true)
    (hmid : X.ensureDirectories (prefixes (dirname target)) = some mid)
    (hren : mid.rename source target = some Y) :
    Total (Calm lease status memory X)
      (do
        validateExpectedNode H source step
        syncRenameSource source node
        syncDirectory (dirname source)
        durableMkdirWithinRoot phase (assertLease lease) (dirname target)
        assertLease lease
        fsCall phase (.rename source target) fun fs =>
          match fs.rename source target with
          | some fs => .ok fs
          | none => .error (.errno "EINVAL")
        syncParents [source, target])
      fun _ => Calm lease status memory Y := by
  have hne : X.get source ≠ none := by
    rw [hsource]
    exact Option.some_ne_none _
  obtain ⟨hsome, -, -, hdir, hin, -⟩ := Fs.rename_eq_some hren
  refine Total.seq ((total_readCall (a := ()) fun w hw => ?_).post fun _ _ h => h.1) ?_
  · rw [hw.fs]
    exact eq_ok_of_isOk hcheck
  refine (total_syncRenameSource hsource).seq ?_
  refine (total_syncDirectory (Fs.isDirectory_dirname hne)).seq ?_
  refine (total_durableMkdirWithinRoot hmid).seq (total_assertLease.seq ?_)
  refine (total_fsCall (Y := Y) (by rw [hren])).seq (total_syncParents fun k hk => ?_)
  simp only [List.mem_cons, List.not_mem_nil, or_false] at hk
  rcases hk with rfl | rfl
  · exact Fs.isDirectory_rename hren (Fs.isDirectory_dirname hsome) (not_prefix_dirname hs0)
  · exact Fs.isDirectory_rename hren hdir fun hp => hin (hp.trans (Fs.dirname_above k))

theorem total_applyRename (ha : step.action = .rename) (h : effectOf H step X = some Y) :
    Total (Calm lease status memory X) (applyRename H phase step (assertLease lease))
      fun _ => Calm lease status memory Y := by
  obtain ⟨work, hw, hcase⟩ := effectOf_eq_some h
  obtain ⟨source, target, rfl⟩ : ∃ source target, work = .rename source target := by
    cases work with
    | rename source target => exact ⟨source, target, rfl⟩
    | mkdir target digest => exact absurd (ha.symm.trans (Step.work_eq_mkdir hw).1) (by simp)
  obtain ⟨-, hintent, hs, ht⟩ := Step.work_eq_rename hw
  have hsafe : safeAncestors X (prefixes (dirname source)) = true ∧
      safeAncestors X (prefixes (dirname target)) = true := by
    rcases hcase with ⟨hr, -⟩ | ⟨hd, -⟩
    · exact ⟨hr.1, hr.2.1⟩
    · exact ⟨hd.1, hd.2.1⟩
  unfold applyRename
  refine (total_check hintent).bind ((total_check hs).bind ((total_check ht).bind ?_))
  refine (total_assertSafeStorageAncestors hsafe.1).seq ?_
  refine (total_assertSafeStorageAncestors hsafe.2).seq ?_
  refine total_pathState.bind (total_pathState.bind ?_)
  rcases hcase with ⟨hr, mid, hmid, hfin⟩ | ⟨hd, rfl⟩
  · obtain ⟨-, -, hne, hnone, hcheck⟩ := hr
    obtain ⟨node, hnode⟩ := Option.ne_none_iff_exists'.mp hne
    rw [hnode, hnone]
    exact total_applyRename_ready (resolve_ne_nil hs) hnode hcheck hmid hfin
  · obtain ⟨-, -, hnone, hne, hcheck⟩ := hd
    obtain ⟨node, hnode⟩ := Option.ne_none_iff_exists'.mp hne
    rw [hnode, hnone]
    refine (total_readCall (a := ()) fun w hw => ?_).post fun _ _ h => h.1
    rw [hw.fs]
    exact eq_ok_of_isOk hcheck

theorem total_applyMkdir (ha : step.action = .mkdir) (h : effectOf H step X = some Y) :
    Total (Calm lease status memory X) (applyMkdir H step (assertLease lease))
      fun _ => Calm lease status memory Y := by
  obtain ⟨work, hw, hcase⟩ := effectOf_eq_some h
  obtain ⟨target, digest, rfl⟩ : ∃ target digest, work = .mkdir target digest := by
    cases work with
    | mkdir target digest => exact ⟨target, digest, rfl⟩
    | rename source target => exact absurd (ha.symm.trans (Step.work_eq_rename hw).1) (by simp)
  obtain ⟨-, key, hkey, hdigest, ht⟩ := Step.work_eq_mkdir hw
  have hthere : Y.get target = some .directory := atTarget_of_effectOf hw h
  unfold applyMkdir
  rw [hkey, hdigest]
  refine (total_check ht).bind ?_
  rcases hcase with ⟨hr, mid, hmid, hfin⟩ | ⟨hd, rfl⟩
  · obtain rfl := Option.some.inj hfin
    refine (total_assertSafeStorageAncestors hr.1).seq (total_pathState.bind ?_)
    rw [hr.2]
    exact (total_durableMkdirWithinRoot hmid).seq (total_syncDirectory (Or.inr hthere))
  · refine (total_assertSafeStorageAncestors hd.1).seq (total_pathState.bind ?_)
    rw [hd.2.1]
    refine (total_readCall (a := true) fun w hw => ?_).bind ?_
    · rw [hw.fs]
      exact toOption_eq_some.mp hd.2.2
    · exact total_syncDirectory (Or.inr hthere)

/-! ## Cleanup steps -/

theorem Fs.isDirectory_removeUnder {k d : Key} (hd : X.IsDirectory d) (hk : ¬ k <+: d) :
    (X.removeUnder k []).IsDirectory d := by
  refine hd.imp_right fun hd => ?_
  rw [Fs.get_removeUnder]
  simp [Fs.outlives, hk, hd]

/-- The folder of a removed node is still there. -/
theorem Fs.isDirectory_dirname_removeUnder {k : Key} (h : X.get k ≠ none) :
    (X.removeUnder k []).IsDirectory (dirname k) :=
  Fs.isDirectory_removeUnder (Fs.isDirectory_dirname h)
    (not_prefix_dirname (X.rooted k (Fs.mem_keys_iff.mpr h)))

theorem total_removeArtifactDirectory {d : Key} {r : RemovedDirectory} (h : Removal X d Y r) :
    Total (Calm lease status memory X) (removeArtifactDirectory phase d)
      fun r' w => Calm lease status memory Y w ∧ r' = r := by
  unfold removeArtifactDirectory
  refine Total.bind (a := r) (R := Calm lease status memory Y) ?_ ?_
  · refine total_call fun w hw => ?_
    rw [hw.fs]
    cases r with
    | missing =>
      rw [h.1]
      exact ⟨h.2 ▸ hw, rfl⟩
    | notEmpty =>
      rw [h.1]
      simp only [h.2.1, if_true]
      exact ⟨h.2.2 ▸ hw, trivial⟩
    | removed =>
      obtain ⟨hd, he, rfl⟩ := h
      rw [hd]
      simp only [he, Bool.false_eq_true, if_false]
      exact ⟨hw.emit, trivial⟩
  · cases r with
    | missing => exact total_pure
    | notEmpty => exact total_pure
    | removed =>
      obtain ⟨hd, -, rfl⟩ := h
      refine Total.seq (total_syncParents fun k hk => ?_) total_pure
      obtain rfl := List.mem_singleton.mp hk
      exact Fs.isDirectory_dirname_removeUnder (by rw [hd]; exact Option.some_ne_none _)

theorem total_removeArtifactDirectories {ks : List Key} (h : X.prune ks = some Y) :
    Total (Calm lease status memory X) (removeArtifactDirectories ks)
      fun all w => Calm lease status memory Y w ∧ all = decide (∀ k ∈ ks, Y.get k = none) := by
  induction ks generalizing X with
  | nil =>
    obtain rfl := Option.some.inj h
    exact triple_pure fun w hw => ⟨hw, by simp⟩
  | cons d ks ih =>
    -- Where the first folder is missing afterwards, the others decide.
    have hrest : ∀ Z : Fs, Z.get d = none → Z.prune ks = some Y →
        Total (Calm lease status memory Z) (removeArtifactDirectories ks) fun all w =>
          Calm lease status memory Y w ∧ all = decide (∀ k ∈ d :: ks, Y.get k = none) := by
      intro Z hZ hp
      refine (ih hp).post fun all w hw => ⟨hw.1, hw.2.trans ?_⟩
      rw [decide_eq_decide, List.forall_mem_cons]
      exact (and_iff_right (Fs.get_prune_eq_none hp hZ)).symm
    unfold removeArtifactDirectories
    unfold Fs.prune at h
    split at h
    · rename_i hd
      exact (total_removeArtifactDirectory (r := .missing) ⟨hd, rfl⟩).bind (hrest X hd h)
    · rename_i hd
      split_ifs at h with he
      · obtain rfl := Option.some.inj h
        refine (total_removeArtifactDirectory (r := .notEmpty) ⟨hd, he, rfl⟩).bind ?_
        refine triple_pure fun w hw => ⟨hw, ?_⟩
        simp [hd]
      · rw [Bool.not_eq_true] at he
        exact (total_removeArtifactDirectory (r := .removed) ⟨hd, he, rfl⟩).bind
          (hrest _ (Fs.get_removeUnder_self X d) h)
    · cases h

theorem total_removeEmptyArtifactAncestors {key : Text} {target : Key} {Z : Fs}
    (h : X.prune (artifactFolders key target) = some Y) (hseal : Sealed key target Z Y) :
    Total (Calm lease status memory X) (removeEmptyArtifactAncestors key target)
      fun all w => Calm lease status memory Y w ∧ Pruned key target all Y := by
  unfold removeEmptyArtifactAncestors
  unfold Sealed at hseal
  unfold Pruned
  cases hr : getOwnedArtifactRoot key with
  | error e =>
    rw [hr] at hseal
    exact hseal.elim
  | ok root =>
    rw [hr] at hseal
    refine (total_check rfl).bind ?_
    cases root with
    | none =>
      unfold artifactFolders at h
      rw [hr] at h
      obtain rfl := Option.some.inj h
      exact triple_pure fun w hw => ⟨hw, rfl⟩
    | some roots =>
      obtain ⟨artifactRoot, kindRoot⟩ := roots
      have hsome : (prefixes (dirname target)).reverse.takeWhile (artifactRoot <+: ·) =
          artifactFolders key target := by
        unfold artifactFolders
        rw [hr]
      dsimp only at hseal ⊢
      rw [hsome]
      refine (total_removeArtifactDirectories h).bind ?_
      by_cases hall : ∀ k ∈ artifactFolders key target, Y.get k = none
      · rw [if_pos hall] at hseal
        simp only [decide_eq_true hall, if_true, if_pos hall]
        refine (total_syncDirectory hseal).seq ?_
        exact triple_pure fun w hw => ⟨hw, rfl, hseal⟩
      · simp only [decide_eq_false hall, Bool.false_eq_true, if_false, if_neg hall]
        exact triple_pure fun w hw => ⟨hw, rfl⟩

/-- Where some folder is left, the one the node was in is. -/
theorem Pruned.isDirectory {key : Text} {target : Key} (h : Pruned key target false Y)
    (hseal : Sealed key target X Y) (hnone : X.get target = none) :
    Y.IsDirectory (dirname target) := by
  unfold Pruned at h
  unfold Sealed at hseal
  cases hr : getOwnedArtifactRoot key with
  | error e =>
    rw [hr] at h
    exact h.elim
  | ok root =>
    rw [hr] at h hseal
    cases root with
    | none => exact hseal hnone
    | some roots =>
      dsimp only at h hseal
      split_ifs at h hseal with hall
      · cases h.1
      · exact hseal hnone

theorem total_deleteMutationFile {target : Key} {node : Node} (ha : step.action = .deleteFile)
    (hnode : X.get target = some node) (hd : Deletable H step owned X target node) :
    Total (Calm lease status memory X) (deleteMutationFile H target step (assertLease lease))
      fun _ => Calm lease status memory (X.removeUnder target []) := by
  rw [Deletable, ha] at hd
  obtain ⟨hsum, hcheck, hfile⟩ := hd
  unfold deleteMutationFile
  rw [if_neg hsum]
  refine Total.seq ((total_readCall (a := ()) fun w hw => ?_).post fun _ _ h => h.1) ?_
  · rw [hw.fs]
    exact eq_ok_of_isOk hcheck
  · refine total_assertLease.seq (total_fsCall ?_)
    rw [hnode]
    cases node with
    | directory => exact absurd rfl hfile
    | file bytes => rfl
    | other => rfl

theorem total_deleteMutationTree {target : Key} {node : Node} (ha : step.action = .deleteTree)
    (hd : Deletable H step owned X target node) :
    Total (Calm lease status memory X)
      (deleteMutationTree H target node step (assertLease lease) owned)
      fun _ => Calm lease status memory (X.removeUnder target []) := by
  rw [Deletable, ha] at hd
  obtain ⟨rfl, digest, hdigest, same, hsame, hallowed⟩ := hd
  have hnot : (!same && !owned) = false := by
    rw [Bool.or_eq_true] at hallowed
    rcases hallowed with h | h <;> rw [h] <;> simp
  unfold deleteMutationTree
  rw [hdigest]
  refine (total_readCall (a := same) fun w hw => ?_).bind ?_
  · rw [hw.fs]
    exact hsame
  · simp only [hnot, Bool.false_eq_true, if_false]
    refine total_assertLease.seq (total_callWith fun w hw => ?_)
    rw [hw.fs]
    exact hw.emit

theorem total_removeMutationDirectory {target : Key} {node : Node}
    (ha : step.action = .removeEmptyDirectory) (hnode : X.get target = some node)
    (hd : Deletable H step owned X target node) :
    Total (Calm lease status memory X) (removeMutationDirectory target node (assertLease lease))
      fun _ => Calm lease status memory (X.removeUnder target []) := by
  rw [Deletable, ha] at hd
  obtain ⟨rfl, he⟩ := hd
  unfold removeMutationDirectory
  refine total_assertLease.seq (total_fsCall ?_)
  rw [hnode]
  simp [he]

theorem total_applyDelete (ha : isCleanup step.action = true)
    (h : Swept H step owned X Y) :
    Total (Calm lease status memory X) (applyDelete H step (assertLease lease) owned)
      fun _ => Calm lease status memory Y := by
  obtain ⟨key, target, hv, hsafe, ⟨gone, hgone, hprune⟩, hseal⟩ := h
  obtain ⟨hkey, htarget⟩ := Step.victim_eq_some hv
  unfold applyDelete
  rw [hkey]
  refine (total_check htarget).bind ?_
  refine (total_assertSafeStorageAncestors hsafe).seq (total_pathState.bind ?_)
  rcases hgone with ⟨hnone, rfl⟩ | ⟨node, hnode, hd, rfl⟩
  · rw [hnone]
    refine Triple.bind (total_removeEmptyArtifactAncestors hprune hseal) fun all => ?_
    refine Triple.assume fun hpruned => ?_
    cases all with
    | true => exact triple_pure fun _ h => h
    | false =>
      refine total_syncParents fun k hk => ?_
      obtain rfl := List.mem_singleton.mp hk
      exact hpruned.isDirectory hseal hnone
  · rw [hnode]
    have hrest : Total (Calm lease status memory (X.removeUnder target []))
        (do
          syncParents [target]
          let _ ← removeEmptyArtifactAncestors key target)
        fun _ => Calm lease status memory Y := by
      refine Total.seq (total_syncParents fun k hk => ?_) ?_
      · obtain rfl := List.mem_singleton.mp hk
        exact Fs.isDirectory_dirname_removeUnder (by rw [hnode]; exact Option.some_ne_none _)
      · refine Triple.bind (total_removeEmptyArtifactAncestors hprune hseal) fun all => ?_
        exact triple_pure fun _ h => h.1
    cases hact : step.action with
    | rename => rw [hact] at ha; cases ha
    | mkdir => rw [hact] at ha; cases ha
    | deleteFile => exact (total_deleteMutationFile hact hnode hd).seq hrest
    | deleteTree => exact (total_deleteMutationTree hact hd).seq hrest
    | removeEmptyDirectory => exact (total_removeMutationDirectory hact hnode hd).seq hrest

/-! ## The phases -/

theorem total_applyStorageMutationStep
    (h : Total (Calm lease status memory X) (applyFilesystemStep H m step (assertLease lease))
      fun _ => Calm lease status memory Y) :
    Total (Calm lease status memory X) (applyStorageMutationStep H m lease step)
      fun _ => Calm lease status (step.id :: memory) Y := by
  have hmark : Total (Calm lease status memory Y) (markStorageMutationStepApplied step.id lease)
      fun _ => Calm lease status memory Y := by
    refine total_rowCall fun w hw => ⟨_, if_pos hw.fenced, ?_⟩
    exact ⟨hw.schedule, hw.failure, hw.fenced, hw.status, hw.memory, hw.fs⟩
  unfold applyStorageMutationStep
  refine total_assertLease.seq (Total.seq ?_ (hmark.seq (triple_modify fun w hw => ?_)))
  · exact Triple.handle h (fun _ hf => hf) fun _ _ hf => hf.elim
  · exact ⟨hw.schedule, hw.failure, hw.fenced, hw.status, by rw [hw.memory], hw.fs⟩

theorem total_applyFilesystemStep_forward (h : effectOf H step X = some Y) :
    Total (Calm lease status memory X) (applyFilesystemStep H m step (assertLease lease))
      fun _ => Calm lease status memory Y := by
  obtain ⟨work, hw, -⟩ := effectOf_eq_some h
  unfold applyFilesystemStep
  cases work with
  | rename source target =>
    have ha := (Step.work_eq_rename hw).1
    rw [ha]
    exact total_applyRename ha h
  | mkdir target digest =>
    have ha := (Step.work_eq_mkdir hw).1
    rw [ha]
    exact total_applyMkdir ha h

theorem isOwnedQuarantineTreeDelete_eq {key : Text} {target : Key}
    (hv : step.victim = some (key, target)) (hmem : Marked m.forward m.forward.length memory) :
    isOwnedQuarantineTreeDelete m memory step = .ok (ownedDelete m step) := by
  obtain ⟨hkey, htarget⟩ := Step.victim_eq_some hv
  -- The key that the check normalises is the one that was resolved.
  have hok : ∃ b, isOwnedQuarantineTreeDelete m (m.forward.map Step.id) step = .ok b := by
    unfold isOwnedQuarantineTreeDelete
    split
    · rename_i targetKey _ ht
      have hsame : targetKey = key := by
        obtain ⟨hsome, hne⟩ := Option.filter_eq_some_iff.mp ht
        rw [hsome, Option.some_or, ← hsome, ht] at hkey
        exact Option.some.inj hkey
      subst hsame
      unfold resolveMutationStoragePath at htarget
      cases hn : normalizeStorageKey targetKey with
      | error e => rw [hn] at htarget; cases htarget
      | ok parts => exact ⟨_, rfl⟩
    · exact ⟨false, rfl⟩
  obtain ⟨b, hb⟩ := hok
  rw [isOwnedQuarantineTreeDelete_congr hmem]
  unfold ownedDelete
  rw [hb]
  rfl

theorem total_applyFilesystemStep_cleanup (ha : isCleanup step.action = true)
    (hmem : Marked m.forward m.forward.length memory)
    (h : Swept H step (ownedDelete m step) X Y) :
    Total (Calm lease status memory X) (applyFilesystemStep H m step (assertLease lease))
      fun _ => Calm lease status memory Y := by
  have hdelete : Total (Calm lease status memory X)
      (do
        let owned ← check (isOwnedQuarantineTreeDelete m (← get).memory step)
        applyDelete H step (assertLease lease) owned)
      fun _ => Calm lease status memory Y := by
    refine Triple.bind (Q := fun s w => Calm lease status memory X w ∧ s = w)
      (triple_get fun w h => ⟨h, rfl⟩) fun s => ?_
    rintro w ⟨hw, rfl⟩
    obtain ⟨key, target, hv, -⟩ := id h
    rw [hw.memory]
    exact (total_check (isOwnedQuarantineTreeDelete_eq hv hmem)).bind (total_applyDelete ha h) s hw
  unfold applyFilesystemStep
  cases hact : step.action with
  | rename => rw [hact] at ha; cases ha
  | mkdir => rw [hact] at ha; cases ha
  | deleteFile => exact hdelete
  | deleteTree => exact hdelete
  | removeEmptyDirectory => exact hdelete

variable {start F : Fs}

/-- The first `k` forward steps have been applied. -/
def CalmForward (H : Host) (m : Mutation) (lease : Lease) (start : Fs) (k : Nat) (w : World) :
    Prop :=
  ∃ X, runSteps H (m.forward.take k) start = some X ∧ Calm lease .running w.memory X w ∧
    Marked m.forward k w.memory ∧ Marked m.cleanup 0 w.memory

/-- All forward steps and the first `c` cleanup steps have been applied. -/
def CalmCleaning (H : Host) (m : Mutation) (lease : Lease) (F : Fs) (c : Nat) (w : World) : Prop :=
  ∃ X, SweptAll H (ownedDelete m) (m.cleanup.take c) F X ∧
    Calm lease .finalizing w.memory X w ∧ Marked m.forward m.forward.length w.memory ∧
    Marked m.cleanup c w.memory

theorem total_forwardSteps (hF : runSteps H m.forward start = some F) :
    Total (CalmForward H m lease start 0) (applyStorageMutationSteps H m lease false m.steps)
      fun _ => CalmForward H m lease start m.forward.length := by
  refine (triple_applyStorageMutationSteps (P := CalmForward H m lease start)
    (p := fun s => !isCleanup s.action) (fun s => by simp) (fun _ _ h => h.choose_spec.2.2.1) ?_
    (List.nil_append _).symm).pre fun w h => ⟨0, Nat.le_refl 0, h⟩
  rintro k s hs w ⟨X, hX, hw, hk, hc⟩
  obtain ⟨Y, hY⟩ := effectOf_of_runSteps hs hF hX
  have hmem := List.mem_of_getElem? hs
  refine (total_applyStorageMutationStep (total_applyFilesystemStep_forward hY)).post
    (fun _ w' hw' => ?_) w hw
  refine ⟨Y, ?_, ?_, ?_, ?_⟩
  · refine (runSteps_take_succ (l := m.forward) hs).trans ?_
    rw [hX]
    exact hY
  · exact { hw' with memory := rfl }
  · rw [hw'.memory]
    exact hk.cons nodup_forward hs
  · rw [hw'.memory]
    exact hc.cons_other (id_not_mem_cleanup hmem)

theorem total_cleanupSteps (hY : SweptAll H (ownedDelete m) m.cleanup F Y) :
    Total (CalmCleaning H m lease F 0) (applyStorageMutationSteps H m lease true m.steps)
      fun _ => CalmCleaning H m lease F m.cleanup.length := by
  refine (triple_applyStorageMutationSteps (P := CalmCleaning H m lease F)
    (p := fun s => isCleanup s.action) (fun s => Iff.rfl) (fun _ _ h => h.choose_spec.2.2.2) ?_
    (List.nil_append _).symm).pre fun w h => ⟨0, Nat.le_refl 0, h⟩
  rintro c s hs w ⟨X, hX, hw, hn, hc⟩
  obtain ⟨Z, hZ⟩ := swept_of_sweptAll hs hY hX
  have hmem := List.mem_of_getElem? hs
  refine (total_applyStorageMutationStep
    (total_applyFilesystemStep_cleanup (List.mem_filter.mp hmem).2 hn hZ)).post
    (fun _ w' hw' => ?_) w hw
  refine ⟨Z, sweptAll_take_succ hs hX hZ, { hw' with memory := rfl }, ?_, ?_⟩
  · rw [hw'.memory]
    exact hn.cons_other (id_not_mem_forward hmem)
  · rw [hw'.memory]
    exact hc.cons nodup_cleanup hs

/-- The lease holds through the statuses of an attempt. -/
theorem Row.fenced_of_status {row row' : Row} {now : Nat} (h : row.fenced lease now = true)
    (ho : row'.leaseOwner = row.leaseOwner) (ht : row'.leaseToken = row.leaseToken)
    (he : row'.leaseExpiresAt = row.leaseExpiresAt)
    (hs : row'.status = .metadataCommitted ∨ row'.status = .finalizing) :
    row'.fenced lease now = true := by
  unfold Row.fenced Row.unexpired at h ⊢
  rw [Bool.and_eq_true] at h ⊢
  rw [ho, ht, he]
  refine ⟨h.1, ?_⟩
  rcases hs with hs | hs <;> rw [hs] <;> rfl

theorem total_commitStorageMutationMetadata :
    Total (Calm lease .running memory X) (commitStorageMutationMetadata lease)
      fun _ => Calm lease .metadataCommitted memory X := by
  refine total_callWith fun w hw => ?_
  have hcommit : w.row.commit lease w.now = some { w.row with
      status := .metadataCommitted, metadataCommittedAt := some w.now } := by
    unfold Row.commit
    simp only [hw.fenced, hw.status, decide_true, Bool.and_true, if_true]
  rw [hcommit]
  exact ⟨hw.schedule, hw.failure, Row.fenced_of_status hw.fenced rfl rfl rfl (Or.inl rfl), rfl,
    hw.memory, hw.fs⟩

theorem total_beginStorageMutationFinalization :
    Total (Calm lease .metadataCommitted memory X) (beginStorageMutationFinalization lease)
      fun _ => Calm lease .finalizing memory X := by
  refine total_updateCall fun w hw => ⟨_, if_pos ?_, ?_⟩
  · simp only [hw.fenced, hw.status, decide_true, Bool.and_true]
  · exact ⟨hw.schedule, hw.failure, Row.fenced_of_status hw.fenced rfl rfl rfl (Or.inr rfl), rfl,
      hw.memory, hw.fs⟩

theorem total_executeStorageMutationPhases (hF : runSteps H m.forward start = some F)
    (hY : SweptAll H (ownedDelete m) m.cleanup F Y) :
    Total (CalmForward H m lease start 0) (executeStorageMutationPhases H m lease)
      fun _ w => w.row.status = .succeeded ∧ w.fs = Y := by
  unfold executeStorageMutationPhases
  refine (total_forwardSteps hF).seq ?_
  rintro w ⟨X, hX, hw, hn, hc⟩
  rw [List.take_length, hF] at hX
  obtain rfl := Option.some.inj hX
  refine Total.seq total_commitStorageMutationMetadata
    (total_beginStorageMutationFinalization.seq ?_) w hw
  refine Total.seq (R := fun w => CalmCleaning H m lease F m.cleanup.length w)
    ((total_cleanupSteps hY).pre fun w' hw' => ?_) ?_
  · refine ⟨F, by rw [List.take_zero]; rfl, { hw' with memory := rfl }, ?_, ?_⟩ <;> rw [hw'.memory]
    · exact hn
    · exact hc
  · rintro w' ⟨Z, hZ, hw', -, -⟩
    rw [List.take_length] at hZ
    obtain rfl := hZ.unique hY
    refine total_updateCall (fun w hw => ⟨_, if_pos hw.fenced, ?_⟩) w' hw'
    exact ⟨rfl, hw.fs⟩

/-! ## An attempt -/

theorem total_executeClaimedStorageMutation (hF : runSteps H m.forward start = some F)
    (hY : SweptAll H (ownedDelete m) m.cleanup F Y) {claimed : Claimed}
    (hl : claimed.lease = lease) :
    Total (Calm lease .running [] start) (executeClaimedStorageMutation H m claimed)
      fun _ w => w.row.status = .succeeded ∧ w.fs = Y := by
  unfold executeClaimedStorageMutation
  rw [hl]
  refine Total.seq (R := CalmForward H m lease start 0) (triple_modify fun w hw => ?_) ?_
  · refine ⟨start, rfl, ⟨hw.schedule, rfl, hw.fenced, hw.status, rfl, hw.fs⟩, ?_, ?_⟩
    · show Marked _ _ w.memory
      rw [hw.memory]
      exact marked_nil _
    · show Marked _ _ w.memory
      rw [hw.memory]
      exact marked_nil _
  · exact Triple.handle (total_executeStorageMutationPhases hF hY) (fun _ hf => hf)
      fun _ _ hf => hf.elim

/-- Where every step has an effect, an attempt without faults succeeds with the tree the steps
give. -/
theorem firstAttempt_succeeds (hF : runSteps H m.forward start = some F)
    (hY : SweptAll H (ownedDelete m) m.cleanup F Y) (leaseOwner : Text) :
    (run H m (prepared start) [firstAttempt leaseOwner]).row.status = .succeeded ∧
      (run H m (prepared start) [firstAttempt leaseOwner]).fs = Y := by
  have hclaim : Total (· = (prepared start).begin (firstAttempt leaseOwner))
      (claimAndExecuteStorageMutation H m leaseOwner)
      fun _ w => w.row.status = .succeeded ∧ w.fs = Y := by
    unfold claimAndExecuteStorageMutation
    refine Total.bind (a := some ⟨⟨leaseOwner, 1⟩, 1⟩)
      (R := Calm ⟨leaseOwner, 1⟩ .running [] start) ?_
      (total_executeClaimedStorageMutation hF hY rfl)
    unfold claimStorageMutation
    refine Total.bind (a := true) (R := fun w => w.schedule = [] ∧
      w.row.leaseOwner = some leaseOwner ∧ w.row.leaseToken = 1 ∧
      w.row.leaseExpiresAt = some (w.now + leaseMs) ∧ w.row.attemptCount = 1 ∧
      w.row.status = .running ∧ w.leaseFailure = none ∧ w.applied = [] ∧ w.fs = start) ?_ ?_
    · rintro w rfl
      exact ⟨⟨rfl, rfl, rfl, rfl, rfl, rfl, rfl, rfl, rfl⟩, rfl⟩
    · rw [if_pos rfl]
      unfold findClaimed call
      refine total_callWith_of (fun w h => h.1) ?_
      rintro w ⟨hsched, ho, ht, he, hc, hs, hfail, happ, hfs⟩
      have hfenced : w.row.fenced ⟨leaseOwner, 1⟩ w.now = true := by
        simp [Row.fenced, Row.unexpired, ho, ht, he, hs, leaseMs]
      simp only [ho, he, hc, ht, decide_true, Option.isSome_some, Bool.and_self, if_true]
      exact ⟨⟨hsched, hfail, hfenced, hs, happ, hfs⟩, trivial⟩
  exact Triple.after (I := fun w => w.row.status = .succeeded ∧ w.fs = Y)
    (Triple.weaken hclaim (fun _ h => h) (fun _ _ h => h) fun _ _ h => h.elim) rfl

end Staaash.Journal
