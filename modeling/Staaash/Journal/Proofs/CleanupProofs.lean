import Staaash.Journal.Proofs.StepProofs

/-!
# Proofs: cleanup steps

A cleanup step that is interrupted and run again gives the tree it gives without the interruption,
or is refused; and the executor's delete functions keep to that.
-/

namespace Staaash.Journal

open Staaash.Library (Proc OrderedMap Stop)
open Staaash.Library.Proc

variable {H : Host} {step : Step} {owned : Bool} {fs fs' : Fs}

/-! ## Removing and pruning -/

theorem Fs.entries_removeUnder (fs : Fs) (k : Key) (left : List Key) :
    (fs.removeUnder k left).nodes.entries =
      fs.nodes.entries.filter fun e => outlives k left e.1 := rfl

theorem Fs.get_removeUnder (fs : Fs) (k : Key) (left : List Key) (k' : Key) :
    (fs.removeUnder k left).get k' = if outlives k left k' then fs.get k' else none :=
  OrderedMap.get_filterKeys _ _ _

theorem Fs.get_removeUnder_self (fs : Fs) (k : Key) : (fs.removeUnder k []).get k = none := by
  rw [Fs.get_removeUnder]
  simp [outlives]

theorem Fs.get_removeUnder_of_none {k k' : Key} {left : List Key} (h : fs.get k' = none) :
    (fs.removeUnder k left).get k' = none := by
  rw [Fs.get_removeUnder, h]
  exact ite_self none

theorem thinned_removeUnder (fs : Fs) (k : Key) (left : List Key) :
    Thinned k fs (fs.removeUnder k left) :=
  ⟨fun k' => left.any fun l => k' <+: l, Fs.entries_removeUnder fs k left⟩

theorem Thinned.trans {k : Key} {a b c : Fs} (h1 : Thinned k a b) (h2 : Thinned k b c) :
    Thinned k a c := by
  obtain ⟨p, hp⟩ := h1
  obtain ⟨q, hq⟩ := h2
  refine ⟨fun k' => p k' && q k', ?_⟩
  rw [hq, hp, List.filter_filter]
  refine List.filter_congr fun e _ => ?_
  cases decide (k <+: e.1) <;> simp [Bool.and_comm]

theorem Thinned.get_eq_none {k k' : Key} {a b : Fs} (h : Thinned k a b) (hk : a.get k' = none) :
    b.get k' = none := by
  obtain ⟨p, hp⟩ := h
  by_contra hne
  obtain ⟨n, hn⟩ := Option.ne_none_iff_exists'.mp hne
  rw [Fs.get_eq_some_iff, hp] at hn
  rw [Fs.get_eq_some_iff.mpr (List.mem_filter.mp hn).1] at hk
  cases hk

/-- What is left of a thinned tree goes like the whole. -/
theorem Thinned.removeUnder {k : Key} {a b : Fs} (h : Thinned k a b) :
    b.removeUnder k [] = a.removeUnder k [] := by
  obtain ⟨p, hp⟩ := h
  refine Fs.ext ?_
  rw [Fs.entries_removeUnder, Fs.entries_removeUnder, hp, List.filter_filter]
  refine List.filter_congr fun e _ => ?_
  simp only [Fs.outlives, List.any_nil, Bool.or_false]
  cases decide (k <+: e.1) <;> simp

/-- A tree with nothing at `k` has nothing to remove there. -/
theorem Fs.removeUnder_of_get_eq_none {k : Key} (hk : k ≠ []) (h : fs.get k = none) :
    fs.removeUnder k [] = fs := by
  refine Fs.ext ?_
  rw [Fs.entries_removeUnder, List.filter_eq_self]
  rintro ⟨k', n⟩ he
  have hfree : ¬ k <+: k' := by
    intro hp
    have := Fs.get_eq_none_below h hk hp
    rw [Fs.get_eq_some_iff.mpr he] at this
    cases this
  simp [Fs.outlives, hfree]

theorem Fs.get_prune_eq_none {ks : List Key} (h : fs.prune ks = some fs') {k : Key}
    (hk : fs.get k = none) : fs'.get k = none := by
  induction ks generalizing fs with
  | nil =>
    obtain rfl := Option.some.inj h
    exact hk
  | cons k0 ks ih =>
    unfold Fs.prune at h
    split at h
    · exact ih h hk
    · split_ifs at h with he
      · obtain rfl := Option.some.inj h
        exact hk
      · exact ih h (Fs.get_removeUnder_of_none hk)
    · cases h

theorem Fs.prune_cons_of_none {k : Key} {ks : List Key} (h : fs.get k = none) :
    fs.prune (k :: ks) = fs.prune ks := by
  rw [Fs.prune, h]

/-- Pruning can be interrupted and started again. -/
theorem Fs.prune_resume {ks : List Key} {j : Nat} (h : fs.prune (ks.take j) = some fs')
    (i : Nat) : fs'.prune (ks.take i) = fs.prune (ks.take (max i j)) := by
  induction ks generalizing fs i j with
  | nil =>
    rw [List.take_nil] at h
    obtain rfl := Option.some.inj h
    rw [List.take_nil, List.take_nil]
  | cons k ks ih =>
    cases j with
    | zero =>
      obtain rfl := Option.some.inj h
      rw [Nat.max_zero]
    | succ j =>
      cases i with
      | zero =>
        rw [Nat.zero_max, h]
        rfl
      | succ i =>
        rw [Nat.succ_max_succ, List.take_succ_cons, List.take_succ_cons]
        rw [List.take_succ_cons] at h
        -- The first folder is missing before, kept, or missing after.
        cases hk : fs.get k with
        | none =>
          rw [Fs.prune_cons_of_none hk] at h ⊢
          rw [Fs.prune_cons_of_none (Fs.get_prune_eq_none h hk)]
          exact ih h i
        | some n =>
          unfold Fs.prune at h
          rw [hk] at h
          cases n with
          | file bytes => cases h
          | other => cases h
          | directory =>
            dsimp only at h
            split_ifs at h with he
            · obtain rfl := Option.some.inj h
              simp only [Fs.prune, hk, he, if_true]
            · have hgone := Fs.get_prune_eq_none h (Fs.get_removeUnder_self fs k)
              rw [Fs.prune_cons_of_none hgone, ih h i]
              simp only [Fs.prune, hk, he, Bool.false_eq_true, if_false]

/-- Pruning takes folders away and leaves everything else. -/
theorem Fs.get_prune {ks : List Key} (h : fs.prune ks = some fs') (k : Key) :
    fs'.get k = fs.get k ∨ (k ∈ ks ∧ fs.get k = some .directory ∧ fs'.get k = none) := by
  induction ks generalizing fs with
  | nil =>
    obtain rfl := Option.some.inj h
    exact Or.inl rfl
  | cons d ks ih =>
    unfold Fs.prune at h
    split at h
    · exact (ih h).imp_right fun hk => ⟨List.mem_cons_of_mem d hk.1, hk.2⟩
    · rename_i hd
      split_ifs at h with he
      · obtain rfl := Option.some.inj h
        exact Or.inl rfl
      · by_cases hk : d <+: k
        · have hkd : k = d ∨ fs.get k = none := by
            by_contra hnot
            rw [not_or] at hnot
            refine he (List.any_eq_true.mpr ⟨k, Fs.mem_keys_iff.mpr hnot.2, ?_⟩)
            simp [hk, hnot.1]
          rcases hkd with rfl | hnone
          · exact Or.inr ⟨by simp, hd, Fs.get_prune_eq_none h (Fs.get_removeUnder_self fs k)⟩
          · exact Or.inl ((Fs.get_prune_eq_none h (Fs.get_removeUnder_of_none hnone)).trans
              hnone.symm)
        · have hsame : (fs.removeUnder d []).get k = fs.get k := by
            rw [Fs.get_removeUnder]
            simp [Fs.outlives, hk]
          rw [← hsame]
          exact (ih h).imp_right fun hk => ⟨List.mem_cons_of_mem d hk.1, hk.2⟩
    · cases h

/-- What lies above a node is a folder. -/
theorem safeAncestors_of_get {k : Key} (h : fs.get k ≠ none) :
    safeAncestors fs (prefixes (dirname k)) = true := by
  refine safeAncestors_iff.mpr fun p hp0 hp => Or.inr ?_
  have hk : k ≠ [] := fs.rooted k (Fs.mem_keys_iff.mpr h)
  have hne : p ≠ k := by
    rintro rfl
    exact not_prefix_dirname hk hp
  exact (Fs.isDirectory_above h (hp.trans (Fs.dirname_above k)) hne).resolve_left hp0

theorem safeAncestors_of_prune {ks : List Key} {k : Key} (h : fs.prune ks = some fs')
    (hsafe : safeAncestors fs' (prefixes k) = true) : safeAncestors fs (prefixes k) = true := by
  refine safeAncestors_iff.mpr fun p hp0 hp => ?_
  rcases Fs.get_prune h p with he | he
  · rw [← he]
    exact safeAncestors_iff.mp hsafe p hp0 hp
  · exact Or.inr he.2.1

/-! ## Starting again -/

theorem Step.victim_eq_some {key : Text} {target : Key} (h : step.victim = some (key, target)) :
    truthy (step.targetKey.or step.sourceKey) = some key ∧
      resolveMutationStoragePath key = .ok target := by
  unfold Step.victim at h
  simp only [Option.bind_eq_bind, Option.bind_eq_some_iff] at h
  obtain ⟨key', hkey, target', htarget, he⟩ := h
  obtain ⟨rfl, rfl⟩ := Prod.mk.inj (Option.some.inj he)
  exact ⟨hkey, toOption_eq_some.mp htarget⟩

theorem Gone.get_target {target : Key} {gone : Fs} (h : Gone H step owned fs target gone) :
    gone.get target = none := by
  rcases h with ⟨h, rfl⟩ | ⟨node, -, -, rfl⟩
  · exact h
  · exact Fs.get_removeUnder_self fs target

theorem Gone.safeAncestors {target : Key} {gone : Fs} (h : Gone H step owned fs target gone)
    (hsafe : safeAncestors gone (prefixes (dirname target)) = true) :
    safeAncestors fs (prefixes (dirname target)) = true := by
  rcases h with ⟨-, rfl⟩ | ⟨node, hnode, -, -⟩
  · exact hsafe
  · exact safeAncestors_of_get (hnode ▸ Option.some_ne_none _)

theorem Gone.unique {target : Key} {a b : Fs} (ha : Gone H step owned fs target a)
    (hb : Gone H step owned fs target b) : a = b := by
  rcases ha with ⟨h, rfl⟩ | ⟨node, h, -, rfl⟩
  · rcases hb with ⟨-, rfl⟩ | ⟨node, h', -, -⟩
    · rfl
    · rw [h] at h'
      cases h'
  · rcases hb with ⟨h', -⟩ | ⟨node', -, -, rfl⟩
    · rw [h] at h'
      cases h'
    · rfl

theorem Swept.unique {a b : Fs} (ha : Swept H step owned fs a) (hb : Swept H step owned fs b) :
    a = b := by
  obtain ⟨key, target, hv, -, ⟨gone, hg, hp⟩, -⟩ := ha
  obtain ⟨key', target', hv', -, ⟨gone', hg', hp'⟩, -⟩ := hb
  obtain ⟨rfl, rfl⟩ := Prod.mk.inj (Option.some.inj (hv.symm.trans hv'))
  rw [hg.unique hg', hp'] at hp
  exact (Option.some.inj hp).symm

/-- From a thinned tree the node goes as from the whole one. -/
theorem Gone.of_thinned {target : Key} {node : Node} {before gone : Fs} (ht : target ≠ [])
    (hnode : before.get target = some node) (hd : Deletable H step owned before target node)
    (hthin : Thinned target before fs) (h : Gone H step owned fs target gone) :
    Gone H step owned before target gone := by
  refine Or.inr ⟨node, hnode, hd, ?_⟩
  rw [← hthin.removeUnder]
  rcases h with ⟨hnone, rfl⟩ | ⟨node', -, -, rfl⟩
  · exact (Fs.removeUnder_of_get_eq_none ht hnone).symm
  · rfl

/-- A step that has removed its node and is at the folders finds nothing to remove again. -/
theorem Gone.of_pruned {target : Key} {ks : List Key} {before gone gone' : Fs}
    (hg : Gone H step owned before target gone) (hp : gone.prune ks = some fs)
    (h : Gone H step owned fs target gone') : gone' = fs := by
  have hnone := Fs.get_prune_eq_none hp hg.get_target
  rcases h with ⟨-, rfl⟩ | ⟨node, hnode, -, -⟩
  · rfl
  · rw [hnone] at hnode
    cases hnode

/-- The folders to sync are the same, or fewer, from an earlier tree. -/
theorem Sealed.of_earlier {key : Text} {target : Key} {before after : Fs}
    (h : Sealed key target fs after) (hnone : before.get target = none → fs.get target = none) :
    Sealed key target before after := by
  unfold Sealed at h ⊢
  split at h
  · split_ifs at h with hall
    · rw [if_pos hall]
      exact h
    · rw [if_neg hall]
      exact fun hb => h (hnone hb)
  · exact fun hb => h (hnone hb)
  · exact h

/-- Running a cleanup step again after an interruption gives what it gives without one. -/
theorem swept_of_sweeping {before after : Fs} (hb : Sweeping H step owned before fs)
    (h : Swept H step owned fs after) : Swept H step owned before after := by
  rcases hb with rfl | ⟨key, target, hv, hcase⟩
  · exact h
  obtain ⟨key', target', hv', hsafe, ⟨gone', hg', hp'⟩, hseal⟩ := h
  obtain ⟨rfl, rfl⟩ := Prod.mk.inj (Option.some.inj (hv.symm.trans hv'))
  have ht := resolve_ne_nil (Step.victim_eq_some hv).2
  rcases hcase with ⟨node, hnode, hd, hthin⟩ | ⟨gone, j, hg, hp⟩
  · exact ⟨key, target, hv, safeAncestors_of_get (hnode ▸ Option.some_ne_none _),
      ⟨gone', Gone.of_thinned ht hnode hd hthin hg', hp'⟩, hseal.of_earlier hthin.get_eq_none⟩
  · obtain rfl := hg.of_pruned hp hg'
    refine ⟨key, target, hv, hg.safeAncestors (safeAncestors_of_prune hp hsafe), ⟨gone, hg, ?_⟩,
      hseal.of_earlier fun _ => ?_⟩
    · have hresume := Fs.prune_resume hp (artifactFolders key target).length
      rw [List.take_length, take_length_max] at hresume
      rw [← hresume]
      exact hp'
    · exact Fs.get_prune_eq_none hp hg.get_target

theorem Sweeping.trans {a b c : Fs} (h1 : Sweeping H step owned a b)
    (h2 : Sweeping H step owned b c) : Sweeping H step owned a c := by
  rcases h1 with rfl | ⟨key, target, hv, hcase⟩
  · exact h2
  rcases h2 with rfl | ⟨key', target', hv', hcase'⟩
  · exact Or.inr ⟨key, target, hv, hcase⟩
  obtain ⟨rfl, rfl⟩ := Prod.mk.inj (Option.some.inj (hv.symm.trans hv'))
  have ht := resolve_ne_nil (Step.victim_eq_some hv).2
  refine Or.inr ⟨key, target, hv, ?_⟩
  rcases hcase with ⟨node, hnode, hd, hthin⟩ | ⟨gone, j, hg, hp⟩
  · rcases hcase' with ⟨node', -, -, hthin'⟩ | ⟨gone', i, hg', hp'⟩
    · exact Or.inl ⟨node, hnode, hd, hthin.trans hthin'⟩
    · exact Or.inr ⟨gone', i, Gone.of_thinned ht hnode hd hthin hg', hp'⟩
  · rcases hcase' with ⟨node', hnode', -, -⟩ | ⟨gone', i, hg', hp'⟩
    · rw [Fs.get_prune_eq_none hp hg.get_target] at hnode'
      cases hnode'
    · obtain rfl := hg.of_pruned hp hg'
      rw [Fs.prune_resume hp] at hp'
      exact Or.inr ⟨gone, max i j, hg, hp'⟩

theorem Swept.sweeping {before after : Fs} (h : Swept H step owned before after) :
    Sweeping H step owned before after := by
  obtain ⟨key, target, hv, -, ⟨gone, hg, hp⟩, -⟩ := h
  refine Or.inr ⟨key, target, hv, Or.inr ⟨gone, (artifactFolders key target).length, hg, ?_⟩⟩
  rw [List.take_length]
  exact hp

theorem sweptAll_append {owned : Step → Bool} {a b : List Step} {after : Fs} :
    SweptAll H owned (a ++ b) fs after ↔
      ∃ mid, SweptAll H owned a fs mid ∧ SweptAll H owned b mid after := by
  induction a generalizing fs with
  | nil => exact ⟨fun h => ⟨fs, rfl, h⟩, fun ⟨mid, hmid, h⟩ => by rwa [hmid] at h⟩
  | cons s a ih =>
    constructor
    · rintro ⟨one, hone, hrest⟩
      obtain ⟨mid, hmid, h⟩ := ih.mp hrest
      exact ⟨mid, ⟨one, hone, hmid⟩, h⟩
    · rintro ⟨mid, ⟨one, hone, hmid⟩, h⟩
      exact ⟨one, hone, ih.mpr ⟨mid, hmid, h⟩⟩

theorem sweptAll_take_succ {owned : Step → Bool} {l : List Step} {c : Nat} {s : Step}
    {mid after : Fs} (hs : l[c]? = some s) (h : SweptAll H owned (l.take c) fs mid)
    (hstep : Swept H s (owned s) mid after) : SweptAll H owned (l.take (c + 1)) fs after := by
  rw [List.take_add_one, hs, Option.toList_some]
  exact sweptAll_append.mpr ⟨mid, h, after, hstep, rfl⟩

theorem SweptAll.unique {owned : Step → Bool} {l : List Step} {a b : Fs}
    (ha : SweptAll H owned l fs a) (hb : SweptAll H owned l fs b) : a = b := by
  induction l generalizing fs with
  | nil => exact ha.trans hb.symm
  | cons s l ih =>
    obtain ⟨one, hone, hrest⟩ := ha
    obtain ⟨one', hone', hrest'⟩ := hb
    rw [hone'.unique hone] at hrest'
    exact ih hrest hrest'

/-- Where all steps have an effect, the next one has. -/
theorem swept_of_sweptAll {owned : Step → Bool} {l : List Step} {c : Nat} {s : Step} {X : Fs}
    (hs : l[c]? = some s) (h : SweptAll H owned l fs fs')
    (hX : SweptAll H owned (l.take c) fs X) : ∃ Y, Swept H s (owned s) X Y := by
  rw [← List.take_append_drop c l, sweptAll_append] at h
  obtain ⟨X', hX', hrest⟩ := h
  obtain rfl := hX.unique hX'
  rw [List.drop_eq_getElem?_toList_append, hs] at hrest
  obtain ⟨Y, hY, -⟩ := hrest
  exact ⟨Y, hY⟩

/-! ## Empty folders -/

variable {A : World → Prop} {X : Fs} {lease : M Unit} {phase : Phase}

/-- What came of an attempt to remove the folder `d` from the tree `X`. -/
def Removal (X : Fs) (d : Key) (fs : Fs) : RemovedDirectory → Prop
  | .missing => X.get d = none ∧ fs = X
  | .notEmpty => X.get d = some .directory ∧ X.hasEntries d = true ∧ fs = X
  | .removed => X.get d = some .directory ∧ X.hasEntries d = false ∧ fs = X.removeUnder d []

theorem triple_removeArtifactDirectory {d : Key} (hA : Stable A)
    (hallow : ∀ w, A w → X.get d = some .directory → X.hasEntries d = false →
      A ({ w with fs := X.removeUnder d [] }.emit (.changed phase (.rmdir d)))) :
    Triple (fun w => A w ∧ w.fs = X) (removeArtifactDirectory phase d)
      (fun r w => A w ∧ Removal X d w.fs r)
      (fun _ w => A w ∧ (w.fs = X ∨ Removal X d w.fs .removed)) := by
  have hX := hA.withFs X
  unfold removeArtifactDirectory
  refine Triple.bind (Q := fun r w => A w ∧ Removal X d w.fs r) ?_ fun r => ?_
  · refine hX.call ?_ ?_ fun w h => ⟨h.1, Or.inl h.2⟩
    · rintro w ⟨hw, rfl⟩
      dsimp only
      cases hd : w.fs.get d with
      | none => exact ⟨hw, hd, rfl⟩
      | some node =>
        cases node with
        | file bytes => exact ⟨hw, Or.inl rfl⟩
        | other => exact ⟨hw, Or.inl rfl⟩
        | directory =>
          by_cases he : w.fs.hasEntries d = true
          · simp only [he, if_true]
            exact ⟨hw, hd, he, rfl⟩
          · rw [Bool.not_eq_true] at he
            simp only [he, Bool.false_eq_true, if_false]
            exact ⟨hallow w hw hd he, hd, he, rfl⟩
    · rintro r w ⟨hw, hr⟩
      cases r with
      | missing => exact ⟨hw, Or.inl hr.2⟩
      | notEmpty => exact ⟨hw, Or.inl hr.2.2⟩
      | removed => exact ⟨hw, Or.inr hr⟩
  · cases r with
    | missing => exact triple_pure fun _ h => h
    | notEmpty => exact triple_pure fun _ h => h
    | removed =>
      refine Triple.seq ((triple_syncParents (hA.tree (Removal X d · .removed))).exits
        fun w h => ⟨h.1, Or.inr h.2⟩) (triple_pure fun _ h => h)

theorem Fs.prune_cons_removed {d : Key} {ks : List Key} (hd : X.get d = some .directory)
    (he : X.hasEntries d = false) : X.prune (d :: ks) = (X.removeUnder d []).prune ks := by
  rw [Fs.prune, hd]
  simp [he]

theorem Fs.prune_cons_notEmpty {d : Key} {ks : List Key} (hd : X.get d = some .directory)
    (he : X.hasEntries d = true) : X.prune (d :: ks) = some X := by
  rw [Fs.prune, hd]
  simp [he]

theorem triple_removeArtifactDirectories {ks : List Key} (hA : Stable A)
    (hallow : ∀ w fs op j, A w → X.prune (ks.take j) = some fs →
      A ({ w with fs }.emit (.changed .cleanup op))) :
    Triple (fun w => A w ∧ w.fs = X) (removeArtifactDirectories ks)
      (fun all w => (A w ∧ X.prune ks = some w.fs) ∧ (all = true ↔ ∀ k ∈ ks, w.fs.get k = none))
      (fun _ w => A w ∧ ∃ j, X.prune (ks.take j) = some w.fs) := by
  induction ks generalizing X with
  | nil => exact triple_pure fun w h => ⟨⟨h.1, by rw [h.2]; rfl⟩, by simp⟩
  | cons d ks ih =>
    have hone : X.get d = some .directory → X.hasEntries d = false →
        X.prune ((d :: ks).take 1) = some (X.removeUnder d []) := by
      intro hd he
      rw [List.take_succ_cons, List.take_zero, Fs.prune_cons_removed hd he]
      rfl
    -- Without the first folder the rest goes on from `Y`.
    have hrest : ∀ Y : Fs, Y.get d = none → (∀ ls, X.prune (d :: ls) = Y.prune ls) →
        Triple (fun w => A w ∧ w.fs = Y) (removeArtifactDirectories ks)
          (fun all w => (A w ∧ X.prune (d :: ks) = some w.fs) ∧
            (all = true ↔ ∀ k ∈ d :: ks, w.fs.get k = none))
          (fun _ w => A w ∧ ∃ j, X.prune ((d :: ks).take j) = some w.fs) := by
      intro Y hY hcons
      refine (ih (X := Y) fun w fs op j hw hj => hallow w fs op (j + 1) hw ?_).weaken
        (fun _ h => h) ?_ ?_
      · rw [List.take_succ_cons, hcons]
        exact hj
      · rintro all w ⟨⟨hw, hp⟩, hall⟩
        refine ⟨⟨hw, (hcons ks).trans hp⟩, ?_⟩
        rw [List.forall_mem_cons, hall]
        exact (and_iff_right (Fs.get_prune_eq_none hp hY)).symm
      · rintro _ w ⟨hw, j, hj⟩
        exact ⟨hw, j + 1, by rw [List.take_succ_cons, hcons]; exact hj⟩
    unfold removeArtifactDirectories
    refine Triple.bind (Q := fun r w => A w ∧ Removal X d w.fs r) ?_ fun r => ?_
    · refine (triple_removeArtifactDirectory hA ?_).exits ?_
      · intro w hw hd he
        exact hallow w _ _ 1 hw (hone hd he)
      · rintro w ⟨hw, h | h⟩
        · exact ⟨hw, 0, by rw [h]; rfl⟩
        · refine ⟨hw, 1, ?_⟩
          rw [h.2.2]
          exact hone h.1 h.2.1
    · cases r with
      | notEmpty =>
        rintro w ⟨hw, hd, he, hX⟩
        refine ⟨⟨hw, ?_⟩, ?_⟩
        · rw [Fs.prune_cons_notEmpty hd he, hX]
        · rw [hX, List.forall_mem_cons, hd]
          simp
      | missing =>
        rintro w ⟨hw, hd, hX⟩
        exact hrest X hd (fun ls => Fs.prune_cons_of_none hd) w ⟨hw, hX⟩
      | removed =>
        rintro w ⟨hw, hd, he, hX⟩
        exact hrest _ (Fs.get_removeUnder_self X d) (fun ls => Fs.prune_cons_removed hd he) w
          ⟨hw, hX⟩

/-- What `removeEmptyArtifactAncestors` found when it returned. -/
def Pruned (key : Text) (target : Key) (all : Bool) (fs : Fs) : Prop :=
  match getOwnedArtifactRoot key with
  | .ok (some (_, kindRoot)) =>
    if ∀ k ∈ artifactFolders key target, fs.get k = none then all = true ∧ fs.IsDirectory kindRoot
    else all = false
  | .ok none => all = false
  | .error _ => False

theorem Pruned.isSealed {key : Text} {target : Key} {all : Bool} {after : Fs}
    (h : Pruned key target all after)
    (hsync : all = false → fs.get target = none → after.IsDirectory (dirname target)) :
    Sealed key target fs after := by
  unfold Pruned at h
  unfold Sealed
  cases hr : getOwnedArtifactRoot key with
  | error e =>
    rw [hr] at h
    exact h
  | ok root =>
    rw [hr] at h
    cases root with
    | none => exact hsync h
    | some roots =>
      dsimp only at h ⊢
      split_ifs at h ⊢ with hall
      · exact h.2
      · exact hsync h

theorem triple_removeEmptyArtifactAncestors {key : Text} {target : Key} (hA : Stable A)
    (hallow : ∀ w fs op j, A w → X.prune ((artifactFolders key target).take j) = some fs →
      A ({ w with fs }.emit (.changed .cleanup op))) :
    Triple (fun w => A w ∧ w.fs = X) (removeEmptyArtifactAncestors key target)
      (fun all w => (A w ∧ X.prune (artifactFolders key target) = some w.fs) ∧
        Pruned key target all w.fs)
      (fun _ w => A w ∧ ∃ j, X.prune ((artifactFolders key target).take j) = some w.fs) := by
  have hleft : ∀ w, A w ∧ w.fs = X →
      A w ∧ ∃ j, X.prune ((artifactFolders key target).take j) = some w.fs :=
    fun w h => ⟨h.1, 0, by rw [h.2]; rfl⟩
  unfold removeEmptyArtifactAncestors
  refine (triple_check.exits hleft).bind fun r => Triple.assume fun hr => ?_
  cases r with
  | none =>
    have hnone : artifactFolders key target = [] := by
      unfold artifactFolders
      rw [hr]
    refine triple_pure fun w h => ⟨⟨h.1, ?_⟩, ?_⟩
    · rw [hnone, h.2]
      rfl
    · unfold Pruned
      rw [hr]
  | some roots =>
    obtain ⟨artifactRoot, kindRoot⟩ := roots
    have hsome : (prefixes (dirname target)).reverse.takeWhile (artifactRoot <+: ·) =
        artifactFolders key target := by
      unfold artifactFolders
      rw [hr]
    dsimp only
    rw [hsome]
    refine (triple_removeArtifactDirectories hA hallow).bind fun all => ?_
    cases all with
    | false =>
      refine triple_pure fun w h => ⟨h.1, ?_⟩
      unfold Pruned
      rw [hr]
      dsimp only
      rw [if_neg (fun hall => by simpa using h.2.mpr hall)]
    | true =>
      let p := fun fs : Fs => X.prune (artifactFolders key target) = some fs ∧
        ∀ k ∈ artifactFolders key target, fs.get k = none
      refine Triple.pre (P := fun w => A w ∧ p w.fs) ?_
        fun w h => ⟨h.1.1, h.1.2, h.2.mp rfl⟩
      refine Triple.seq ((triple_syncDirectory_exists (hA.tree p)).exits
        fun w h => ⟨h.1, _, by rw [List.take_length]; exact h.2.1⟩)
        (triple_pure fun w h => ⟨⟨h.1.1, h.1.2.1⟩, ?_⟩)
      unfold Pruned
      rw [hr]
      dsimp only
      rw [if_pos h.1.2.2]
      exact ⟨rfl, h.2⟩

/-! ## Removing a node -/

/-- `A` survives everything an interrupted cleanup `step` can have done, started on `X`. -/
def AllowsSweep (A : World → Prop) (H : Host) (step : Step) (owned : Bool) (X : Fs) : Prop :=
  ∀ w fs op, A w → Sweeping H step owned X fs → A ({ w with fs }.emit (.changed .cleanup op))

/-- What a removal of `node` at `target` can leave when it does not return. -/
def Removing (H : Host) (step : Step) (owned : Bool) (X : Fs) (target : Key) (node : Node)
    (fs : Fs) : Prop :=
  fs = X ∨ Deletable H step owned X target node ∧ Thinned target X fs

section Node

variable {target : Key} {node : Node} (hA : Stable A) (hl : LeaseCheck lease)
  (hnode : X.get target = some node)
  (hallow : ∀ w fs op, A w → Deletable H step owned X target node → Thinned target X fs →
    A ({ w with fs }.emit (.changed .cleanup op)))

include hA hnode hallow

/-- One removing call, after its checks. -/
theorem triple_removeNode {op : FsOp} {f : Fs → Except Err Fs}
    (hf : ∀ fs, f X = .ok fs →
      Deletable H step owned X target node ∧ fs = X.removeUnder target []) :
    Triple (fun w => A w ∧ w.fs = X) (fsCall .cleanup op f)
      (fun _ w => A w ∧ Gone H step owned X target w.fs)
      (fun _ w => A w ∧ Removing H step owned X target node w.fs) := by
  refine (triple_fsCall (E := fun w => A w ∧ Removing H step owned X target node w.fs)
    (hA.withFs X) (fun w h => ⟨h.1, Or.inl h.2⟩) ?_).post ?_
  · rintro w fs ⟨hw, hwX⟩ h
    rw [hwX] at h
    obtain ⟨hd, rfl⟩ := hf fs h
    have hthin := thinned_removeUnder X target []
    exact ⟨hallow w _ op hw hd hthin, Or.inr ⟨hd, hthin⟩⟩
  · rintro _ w ⟨hE, before, hb, h, -⟩
    rw [hb.2] at h
    obtain ⟨hd, he⟩ := hf w.fs h
    exact ⟨hE.1, Or.inr ⟨node, hnode, hd, he⟩⟩

include hl

theorem triple_deleteMutationFile (ha : step.action = .deleteFile) :
    Triple (fun w => A w ∧ w.fs = X) (deleteMutationFile H target step lease)
      (fun _ w => A w ∧ Gone H step owned X target w.fs)
      (fun _ w => A w ∧ Removing H step owned X target node w.fs) := by
  have hX := hA.withFs X
  have hleft : ∀ w, A w ∧ w.fs = X → A w ∧ Removing H step owned X target node w.fs :=
    fun w h => ⟨h.1, Or.inl h.2⟩
  unfold deleteMutationFile
  refine triple_ite (fun _ => triple_throw hleft) fun hsum => ?_
  refine Triple.seq (Q := fun _ w => (A w ∧ w.fs = X) ∧
      (checkExpectedNode H X target step).isOk = true) ?_ (Triple.assume fun hvalid => ?_)
  · refine (triple_readCall hX).weaken (fun _ h => h) (fun _ w h => ⟨h.1, ?_⟩) fun _ => hleft
    have hcheck := h.2
    rw [h.1.2] at hcheck
    rw [hcheck]
    rfl
  refine Triple.seq ((hl _ hX).exits hleft) (triple_removeNode hA hnode hallow ?_)
  intro fs hf
  rw [hnode] at hf
  cases node with
  | directory => cases hf
  | file bytes =>
    refine ⟨?_, (Except.ok.inj hf).symm⟩
    rw [Deletable, ha]
    exact ⟨hsum, hvalid, by simp⟩
  | other =>
    refine ⟨?_, (Except.ok.inj hf).symm⟩
    rw [Deletable, ha]
    exact ⟨hsum, hvalid, by simp⟩

theorem triple_removeMutationDirectory (ha : step.action = .removeEmptyDirectory) :
    Triple (fun w => A w ∧ w.fs = X) (removeMutationDirectory target node lease)
      (fun _ w => A w ∧ Gone H step owned X target w.fs)
      (fun _ w => A w ∧ Removing H step owned X target node w.fs) := by
  have hX := hA.withFs X
  have hleft : ∀ w, A w ∧ w.fs = X → A w ∧ Removing H step owned X target node w.fs :=
    fun w h => ⟨h.1, Or.inl h.2⟩
  unfold removeMutationDirectory
  refine triple_ite (fun _ => triple_throw hleft) fun hdir => ?_
  refine Triple.seq ((hl _ hX).exits hleft) (triple_removeNode hA hnode hallow ?_)
  intro fs hf
  rw [ne_eq, not_not] at hdir
  subst hdir
  rw [hnode] at hf
  dsimp only at hf
  split_ifs at hf with he
  refine ⟨?_, (Except.ok.inj hf).symm⟩
  rw [Deletable, ha]
  exact ⟨rfl, by simpa using he⟩

omit hl in
theorem triple_removeTree (hd : Deletable H step owned X target node) :
    Triple (fun w => A w ∧ w.fs = X) (removeTree target)
      (fun _ w => A w ∧ Gone H step owned X target w.fs)
      (fun _ w => A w ∧ Removing H step owned X target node w.fs) := by
  have hX := hA.withFs X
  have hremoved : ∀ w left, A w ∧ w.fs = X →
      A ({ w with fs := w.fs.removeUnder target left }.emit (.changed .cleanup (.removeTree target)))
        ∧ Thinned target X (w.fs.removeUnder target left) := by
    rintro w left ⟨hw, rfl⟩
    have hthin := thinned_removeUnder w.fs target left
    exact ⟨hallow w _ _ hw hd hthin, hthin⟩
  refine triple_callWith (R := fun w => A w ∧ w.fs = X) hX.tick ?_ ?_ (fun _ _ h => h) ?_
  · intro w h
    refine ⟨(hremoved w [] h).1, Or.inr ⟨node, hnode, hd, ?_⟩⟩
    rw [← h.2]
    rfl
  · rintro _ w ⟨hw, hgone⟩ _
    refine ⟨hw, ?_⟩
    rcases hgone with ⟨hnone, -⟩ | ⟨node', -, -, he⟩
    · rw [hnode] at hnone
      cases hnone
    · rw [he]
      exact Or.inr ⟨hd, thinned_removeUnder X target []⟩
  · intro took w h _
    cases took with
    | partly left => exact ⟨(hremoved w left h).1, Or.inr ⟨hd, (hremoved w left h).2⟩⟩
    | no => exact ⟨h.1, Or.inl h.2⟩
    | yes => exact ⟨h.1, Or.inl h.2⟩
    | later => exact ⟨h.1, Or.inl h.2⟩

theorem triple_deleteMutationTree (ha : step.action = .deleteTree) :
    Triple (fun w => A w ∧ w.fs = X) (deleteMutationTree H target node step lease owned)
      (fun _ w => A w ∧ Gone H step owned X target w.fs)
      (fun _ w => A w ∧ Removing H step owned X target node w.fs) := by
  have hX := hA.withFs X
  have hleft : ∀ w, A w ∧ w.fs = X → A w ∧ Removing H step owned X target node w.fs :=
    fun w h => ⟨h.1, Or.inl h.2⟩
  unfold deleteMutationTree
  refine triple_ite (fun _ => triple_throw hleft) fun hdir => ?_
  rw [ne_eq, not_not] at hdir
  cases hdigest : truthy step.treeManifestDigest with
  | none => exact triple_throw hleft
  | some digest =>
    refine ((triple_readCall hX).weaken (fun _ h => h)
      (fun b w h => (⟨h.1, h.1.2 ▸ h.2⟩ : (A w ∧ w.fs = X) ∧
        treeManifestMatches H X target digest = .ok b)) fun _ => hleft).bind
      fun same => Triple.assume fun hsame => ?_
    refine triple_ite (fun _ => triple_throw hleft) fun hallowed => ?_
    refine Triple.seq ((hl _ hX).exits hleft) (triple_removeTree hA hnode hallow ?_)
    rw [Deletable, ha]
    refine ⟨hdir, digest, hdigest, same, hsame, ?_⟩
    cases same <;> cases owned <;> simp_all

end Node

theorem triple_applyDelete (hc : isCleanup step.action = true) (hA : Stable A)
    (hl : LeaseCheck lease) (hallow : AllowsSweep A H step owned X) :
    Triple (fun w => A w ∧ w.fs = X) (applyDelete H step lease owned)
      (fun _ w => A w ∧ Swept H step owned X w.fs)
      (fun _ w => A w ∧ Sweeping H step owned X w.fs) := by
  have hX := hA.withFs X
  have hleft : ∀ w, A w ∧ w.fs = X → A w ∧ Sweeping H step owned X w.fs :=
    fun w h => ⟨h.1, Or.inl h.2⟩
  unfold applyDelete
  cases hkey : truthy (step.targetKey.or step.sourceKey) with
  | none => exact triple_throw hleft
  | some key =>
    refine (triple_check.exits hleft).bind fun target => Triple.assume fun ht => ?_
    have hv : step.victim = some (key, target) := by
      unfold Step.victim
      simp only [hkey, Option.bind_eq_bind, Option.bind_some, ht, Except.toOption]
      rfl
    -- Once the node is gone, only the folders of its artifact are left to go.
    have hprune : ∀ gone j fs, Gone H step owned X target gone →
        gone.prune ((artifactFolders key target).take j) = some fs →
        Sweeping H step owned X fs :=
      fun gone j fs hg hp => Or.inr ⟨key, target, hv, Or.inr ⟨gone, j, hg, hp⟩⟩
    have hfolders : ∀ gone, Gone H step owned X target gone →
        Triple (fun w => A w ∧ w.fs = gone) (removeEmptyArtifactAncestors key target)
          (fun all w => (A w ∧ gone.prune (artifactFolders key target) = some w.fs) ∧
            Pruned key target all w.fs)
          (fun _ w => A w ∧ Sweeping H step owned X w.fs) := by
      intro gone hg
      refine (triple_removeEmptyArtifactAncestors hA fun w fs op j hw hj =>
        hallow w fs op hw (hprune gone j fs hg hj)).exits ?_
      rintro w ⟨hw, j, hj⟩
      exact ⟨hw, hprune gone j w.fs hg hj⟩
    refine Triple.seq ((triple_assertSafeStorageAncestors hX).weaken (fun _ h => h)
      (fun _ w h => (⟨h.1, h.1.2 ▸ h.2⟩ : (A w ∧ w.fs = X) ∧
        safeAncestors X (prefixes (dirname target)) = true)) fun _ => hleft)
      (Triple.assume fun hsafe => ?_)
    refine ((triple_pathState hX).weaken (fun _ h => h)
      (fun n w h => (⟨h.1, h.1.2 ▸ h.2⟩ : (A w ∧ w.fs = X) ∧ X.get target = n))
      fun _ => hleft).bind fun n => Triple.assume fun hn => ?_
    cases n with
    | none =>
      have hgone : Gone H step owned X target X := Or.inl ⟨hn, rfl⟩
      refine (hfolders X hgone).bind fun all => ?_
      refine triple_ite (fun _ => ?_) fun hall => ?_
      · let p := fun fs => X.prune (artifactFolders key target) = some fs ∧ Pruned key target all fs
        refine Triple.pre (P := fun w => A w ∧ p w.fs) ?_ fun w h => ⟨h.1.1, h.1.2, h.2⟩
        refine Triple.seq ((triple_syncDirectory_exists (hA.tree p)).exits fun w h => ⟨h.1, ?_⟩)
          (triple_pure fun w h => ⟨h.1.1, key, target, hv, hsafe, ⟨X, hgone, h.1.2.1⟩, ?_⟩)
        · exact hprune X _ w.fs hgone (by rw [List.take_length]; exact h.2.1)
        · exact h.1.2.2.isSealed fun _ _ => h.2
      · refine triple_pure fun w h => ⟨h.1.1, key, target, hv, hsafe, ⟨X, hgone, h.1.2⟩, ?_⟩
        exact h.2.isSealed fun hfalse => by simp [hfalse] at hall
    | some node =>
      have hnodeAllow : ∀ w fs op, A w → Deletable H step owned X target node →
          Thinned target X fs → A ({ w with fs }.emit (.changed .cleanup op)) :=
        fun w fs op hw hd hthin =>
          hallow w fs op hw (Or.inr ⟨key, target, hv, Or.inl ⟨node, hn, hd, hthin⟩⟩)
      have hremoving : ∀ w, A w ∧ Removing H step owned X target node w.fs →
          A w ∧ Sweeping H step owned X w.fs := by
        rintro w ⟨hw, h | ⟨hd, hthin⟩⟩
        · exact ⟨hw, Or.inl h⟩
        · exact ⟨hw, Or.inr ⟨key, target, hv, Or.inl ⟨node, hn, hd, hthin⟩⟩⟩
      have hgone : ∀ w, A w ∧ Gone H step owned X target w.fs →
          A w ∧ Sweeping H step owned X w.fs :=
        fun w h => ⟨h.1, hprune w.fs 0 w.fs h.2 rfl⟩
      have hrest : Triple (fun w => A w ∧ Gone H step owned X target w.fs)
          (do
            syncParents [target]
            let _ ← removeEmptyArtifactAncestors key target)
          (fun _ w => A w ∧ Swept H step owned X w.fs)
          (fun _ w => A w ∧ Sweeping H step owned X w.fs) := by
        refine Triple.seq ((triple_syncParents (hA.tree (Gone H step owned X target))).exits hgone) ?_
        refine Triple.bind (Q := fun _ w => A w ∧ Swept H step owned X w.fs) ?_
          fun _ => triple_pure fun _ h => h
        intro w h
        refine ((hfolders w.fs h.2).post fun all w' h' => ⟨h'.1.1, key, target, hv, hsafe,
          ⟨w.fs, h.2, h'.1.2⟩, h'.2.isSealed fun _ hnone => ?_⟩) w ⟨h.1, rfl⟩
        rw [hn] at hnone
        cases hnone
      cases ha : step.action with
      | rename => rw [ha] at hc; cases hc
      | mkdir => rw [ha] at hc; cases hc
      | deleteFile =>
        exact Triple.seq ((triple_deleteMutationFile hA hl hn hnodeAllow ha).exits hremoving) hrest
      | deleteTree =>
        exact Triple.seq ((triple_deleteMutationTree hA hl hn hnodeAllow ha).exits hremoving) hrest
      | removeEmptyDirectory =>
        exact Triple.seq ((triple_removeMutationDirectory hA hl hn hnodeAllow ha).exits hremoving)
          hrest

/-! ## Proofs: undoing a step

The specification of `undoStep`, in the same form as for the forward steps.
-/

section Undo

open Staaash.Library (Proc)

variable {A : World → Prop} {X : Fs} {H : Host} {step : Step} {lease : M Unit}

/-- `A` survives everything an interrupted undo of `step` can have done, started on `X`. -/
def AllowsUndo (A : World → Prop) (H : Host) (step : Step) (X : Fs) : Prop :=
  ∀ w fs op, A w → UndoBetween H step X fs → A ({ w with fs }.emit (.changed .undo op))

theorem UndoBetween.refl (X : Fs) : UndoBetween H step X X := by
  unfold UndoBetween
  split
  · exact Between.refl X
  · exact Or.inl rfl

theorem UndoOf.between {fs : Fs} (h : UndoOf H step X fs) : UndoBetween H step X fs := by
  unfold UndoBetween
  split
  · rename_i ha
    rw [UndoOf, ha] at h
    exact Or.inr (Or.inr h)
  · exact Or.inr h

theorem triple_removeUndoneDirectory (ha : step.action = .mkdir) (hA : Stable A)
    (hallow : AllowsUndo A H step X) :
    Triple (fun w => A w ∧ w.fs = X) (removeUndoneDirectory step)
      (fun _ w => A w ∧ UndoOf H step X w.fs)
      (fun _ w => A w ∧ UndoBetween H step X w.fs) := by
  have hX := hA.withFs X
  have hleft : ∀ w, A w ∧ w.fs = X → A w ∧ UndoBetween H step X w.fs :=
    fun w h => ⟨h.1, h.2.symm ▸ UndoBetween.refl X⟩
  unfold removeUndoneDirectory
  cases hkey : truthy step.targetKey with
  | none =>
    refine triple_pure fun w h => ⟨h.1, ?_⟩
    rw [UndoOf, ha]
    exact Or.inl ⟨hkey, h.2⟩
  | some key =>
    refine (triple_check.exits hleft).bind fun target => Triple.assume fun ht => ?_
    have hundo : ∀ fs, (X.get target = none ∧ fs = X) ∨ (X.get target = some .directory ∧
        X.hasEntries target = false ∧ fs = X.removeUnder target []) → UndoOf H step X fs := by
      intro fs h
      rw [UndoOf, ha]
      exact Or.inr ⟨key, target, hkey, ht, h⟩
    refine Triple.seq ((triple_assertSafeStorageAncestors hX).weaken (fun _ h => h)
      (fun _ w h => h.1) fun _ => hleft) ?_
    refine Triple.bind (Q := fun r w => A w ∧ Removal X target w.fs r) ?_ fun r => ?_
    · refine (triple_removeArtifactDirectory hA ?_).exits ?_
      · intro w hw hd he
        exact hallow w _ _ hw (hundo _ (Or.inr ⟨hd, he, rfl⟩)).between
      · rintro w ⟨hw, h | h⟩
        · exact hleft w ⟨hw, h⟩
        · exact ⟨hw, (hundo _ (Or.inr h)).between⟩
    · cases r with
      | missing => exact triple_pure fun w h => ⟨h.1, hundo _ (Or.inl h.2)⟩
      | removed => exact triple_pure fun w h => ⟨h.1, hundo _ (Or.inr h.2)⟩
      | notEmpty => exact triple_throw fun w h => hleft w ⟨h.1, h.2.2.2⟩

theorem triple_undoStep (hA : Stable A) (hl : LeaseCheck lease) (hallow : AllowsUndo A H step X) :
    Triple (fun w => A w ∧ w.fs = X) (undoStep H step lease)
      (fun _ w => A w ∧ UndoOf H step X w.fs)
      (fun _ w => A w ∧ UndoBetween H step X w.fs) := by
  have hleft : ∀ w, A w ∧ w.fs = X → A w ∧ UndoBetween H step X w.fs :=
    fun w h => ⟨h.1, h.2.symm ▸ UndoBetween.refl X⟩
  unfold undoStep
  cases ha : step.action with
  | rename =>
    have hbetween : ∀ fs, Between H step.swapped X fs → UndoBetween H step X fs := by
      intro fs h
      rw [UndoBetween, ha]
      exact h
    have hallow' : Allows A .undo H step.swapped X :=
      ⟨fun w fs k hw h => hallow w fs _ hw (hbetween fs h),
        fun w fs s t hw _ h => hallow w fs _ hw (hbetween fs (Or.inr (Or.inr h)))⟩
    refine (triple_applyRename (show step.swapped.action = .rename from ha) hA hl hallow').weaken (fun _ h => h) ?_ ?_
    · rintro _ w ⟨hw, h⟩
      refine ⟨hw, ?_⟩
      rw [UndoOf, ha]
      exact h
    · rintro _ w ⟨hw, h⟩
      exact ⟨hw, hbetween w.fs h⟩
  | mkdir =>
    exact Triple.seq ((hl _ (hA.withFs X)).exits hleft) (triple_removeUndoneDirectory ha hA hallow)
  | deleteFile => exact triple_pure fun w h => ⟨h.1, by rw [UndoOf, ha]; exact h.2⟩
  | deleteTree => exact triple_pure fun w h => ⟨h.1, by rw [UndoOf, ha]; exact h.2⟩
  | removeEmptyDirectory => exact triple_pure fun w h => ⟨h.1, by rw [UndoOf, ha]; exact h.2⟩

end Undo

end Staaash.Journal
