import Staaash.Journal.Guarantees
import Staaash.Journal.Proofs.CommitSafetyProofs

/-!
# Proofs: what an aborted mutation leaves

Every step that took effect is undone from the last one back, also when an earlier rollback was
interrupted and has left a part of the steps undone. What this rests on is stated in `Covers` and
`NeverForestalled`.
-/

namespace Staaash.Journal

variable {H : Host} {m : Mutation} {start : Fs} {F : Places} {fs fs' : Fs}

/-! ## Places -/

theorem Holds.of_eq_some {k : Key} {n : Node} (h : Holds m F fs) (hk : F k = some n) :
    fs.get k = some n := by
  rcases h k with he | ⟨hnone, -, -⟩
  · rw [he, hk]
  · rw [hnone] at hk
    cases hk

theorem Holds.eq_none {k : Key} (h : Holds m F fs) (hk : fs.get k = none) : F k = none := by
  rcases h k with he | ⟨hnone, -, -⟩
  · rw [← he, hk]
  · exact hnone

/-- Where nothing is at a key, nothing is below it. -/
theorem Holds.eq_none_below {k : Key} (h : Holds m F fs) (hk0 : k ≠ []) (hk : fs.get k = none)
    (rest : Key) : F (k ++ rest) = none :=
  h.eq_none (Fs.get_eq_none_below hk hk0 (List.prefix_append k rest))

theorem Holds.congr {G : Places} (h : Holds m F fs) (he : ∀ k, G k = F k) : Holds m G fs := by
  intro k
  rw [he k]
  exact h k

/-- Folders made on the way are scaffolding. -/
theorem Holds.ensureDirectories {ks : List Key} (h : Holds m F fs)
    (he : fs.ensureDirectories ks = some fs') (hks : ∀ k ∈ ks, Scaffold m k) : Holds m F fs' := by
  intro k
  rcases Fs.get_ensureDirectories he k with hsame | ⟨hmem, hnone, hdir⟩
  · rw [hsame]
    exact h k
  · exact Or.inr ⟨h.eq_none hnone, hdir, hks k hmem⟩

theorem shift_rename_target (source target rest : Key) :
    (Work.rename source target).shift F (target ++ rest) = F (source ++ rest) := by
  simp [Work.shift]

theorem shift_rename_source {source target k : Key} (hs : source <+: k) (ht : ¬ target <+: k) :
    (Work.rename source target).shift F k = none := by
  simp [Work.shift, hs, ht]

theorem shift_rename_other {source target k : Key} (hs : ¬ source <+: k) (ht : ¬ target <+: k) :
    (Work.rename source target).shift F k = F k := by
  simp [Work.shift, hs, ht]

/-- A rename moves the nodes and the scaffolding with them. -/
theorem Holds.rename {source target : Key} (h : Holds m F fs)
    (hr : fs.rename source target = some fs')
    (hmove : ∀ rest, Scaffold m (source ++ rest) → Scaffold m (target ++ rest)) :
    Holds m ((Work.rename source target).shift F) fs' := by
  intro k
  by_cases ht : target <+: k
  · obtain ⟨rest, rfl⟩ := ht
    rw [shift_rename_target, Fs.get_rename_target hr]
    exact (h (source ++ rest)).imp_right fun hk => ⟨hk.1, hk.2.1, hmove rest hk.2.2⟩
  · by_cases hs : source <+: k
    · rw [shift_rename_source hs ht, Fs.get_rename_source hr hs]
      exact Or.inl rfl
    · rw [shift_rename_other hs ht, Fs.get_rename_other hr hs ht]
      exact h k

/-- The rename back takes the nodes back. -/
theorem shift_rename_back {source target : Key} (hfree : ∀ rest, F (target ++ rest) = none)
    (k : Key) : F k =
      (Work.rename target source).shift ((Work.rename source target).shift F) k := by
  by_cases hs : source <+: k
  · obtain ⟨rest, rfl⟩ := hs
    rw [shift_rename_target, shift_rename_target]
  · by_cases ht : target <+: k
    · rw [shift_rename_source ht hs]
      obtain ⟨rest, rfl⟩ := ht
      exact hfree rest
    · rw [shift_rename_other ht hs, shift_rename_other hs ht]

/-- A rename between two places without nodes moves nothing. -/
theorem shift_rename_empty {source target : Key} (hs : ∀ rest, F (source ++ rest) = none)
    (ht : ∀ rest, F (target ++ rest) = none) (k : Key) :
    F k = (Work.rename source target).shift F k := by
  by_cases hk : target <+: k
  · obtain ⟨rest, rfl⟩ := hk
    rw [shift_rename_target, hs, ht]
  · by_cases hk' : source <+: k
    · rw [shift_rename_source hk' hk]
      obtain ⟨rest, rfl⟩ := hk'
      exact hs rest
    · rw [shift_rename_other hk' hk]

theorem prefixesFrom_append (base a b : Key) :
    prefixesFrom base (a ++ b) = prefixesFrom base a ++ prefixesFrom (base ++ a) b := by
  induction a generalizing base with
  | nil => simp [prefixesFrom]
  | cons x a ih =>
    rw [List.cons_append, prefixesFrom, prefixesFrom, ih, List.cons_append, List.append_assoc]
    rfl

theorem prefixes_eq_concat {t : Key} (ht : t ≠ []) :
    prefixes t = prefixes (dirname t) ++ [t] := by
  obtain ⟨x, hx⟩ : ∃ x, dirname t ++ [x] = t := ⟨_, List.dropLast_append_getLast ht⟩
  unfold prefixes
  have happ := prefixesFrom_append [] (dirname t) [x]
  rw [hx, List.nil_append] at happ
  rw [happ]
  simp [prefixesFrom, hx]

/-- A folder that is made is a node of its own. -/
theorem Holds.mkdir {target : Key} {digest : Text} (h : Holds m F fs)
    (he : fs.ensureDirectories (prefixes target) = some fs') (ht : target ≠ [])
    (hway : ∀ k ∈ prefixes (dirname target), Scaffold m k) :
    Holds m ((Work.mkdir target digest).shift F) fs' := by
  intro k
  show fs'.get k = (if k = target then some .directory else F k) ∨ _
  by_cases hk : k = target
  · left
    rw [if_pos hk, hk]
    exact Fs.isDirectory_of_ensureDirectories he (mem_prefixes.mpr ⟨ht, List.prefix_rfl⟩)
  · show _ ∨ ((if k = target then some .directory else F k) = none ∧ _)
    rw [if_neg hk]
    rcases Fs.get_ensureDirectories he k with hsame | ⟨hmem, hnone, hdir⟩
    · rw [hsame]
      exact h k
    · refine Or.inr ⟨h.eq_none hnone, hdir, hway k ?_⟩
      rw [prefixes_eq_concat ht, List.mem_append, List.mem_singleton] at hmem
      exact hmem.resolve_right hk

/-- An empty folder goes, and no other node with it. -/
theorem Holds.rmdir {G : Places} {target : Key} (h : Holds m F fs)
    (he : fs.hasEntries target = false) (hG : G target = none) (hsame : ∀ k, k ≠ target → G k = F k) :
    Holds m G (fs.removeUnder target []) := by
  intro k
  rw [Fs.get_removeUnder]
  by_cases hk : k = target
  · left
    rw [hk, hG]
    simp [Fs.outlives]
  · by_cases hp : target <+: k
    · have hnone : fs.get k = none := by
        by_contra hne
        have hany : fs.hasEntries target = true := by
          unfold Fs.hasEntries
          rw [List.any_eq_true]
          exact ⟨k, Fs.mem_keys_iff.mpr hne, by simp [hp, hk]⟩
        rw [hany] at he
        cases he
      left
      rw [hnone, ite_self, hsame k hk, h.eq_none hnone]
    · rw [if_pos (by simp [Fs.outlives, hp]), hsame k hk]
      exact h k

/-! ## Steps -/

/-- Some of the first `k` forward steps are in effect. -/
def Kept (m : Mutation) (start : Fs) (k : Nat) (fs : Fs) : Prop :=
  ∃ done F, done.Sublist (m.forward.take k) ∧ Displaced start done F ∧ Holds m F fs

theorem Kept.mono {i j : Nat} (h : Kept m start i fs) (hij : i ≤ j) : Kept m start j fs := by
  obtain ⟨done, F, hsub, hd, hF⟩ := h
  exact ⟨done, F, hsub.trans (List.take_prefix_take_left hij).sublist, hd, hF⟩

theorem take_succ_eq {l : List Step} {k : Nat} {s : Step} (hs : l[k]? = some s) :
    l.take (k + 1) = l.take k ++ [s] := by
  rw [List.take_add_one, hs, Option.toList_some]

theorem eq_take_append_cons_drop {l : List Step} {k : Nat} {s : Step} (hs : l[k]? = some s) :
    l = l.take k ++ s :: l.drop (k + 1) := by
  obtain ⟨hk, he⟩ := List.getElem?_eq_some_iff.mp hs
  rw [← he, ← List.drop_eq_getElem_cons hk, List.take_append_drop]

theorem Displaced.nil (h : Displaced start [] F) : F = start.get := by
  generalize hl : ([] : List Step) = l at h
  cases h with
  | start => rfl
  | step => simp at hl

theorem Displaced.concat {done : List Step} {s : Step} (h : Displaced start (done ++ [s]) F) :
    ∃ F' work, Displaced start done F' ∧ s.work = some work ∧ work.Free F' ∧ F = work.shift F' := by
  generalize hl : done ++ [s] = l at h
  cases h with
  | start => simp at hl
  | step h hw hfree =>
    obtain ⟨rfl, hs⟩ := List.append_inj' hl rfl
    obtain rfl := List.singleton_inj.mp hs
    exact ⟨_, _, h, hw, hfree, rfl⟩

/-- The last step is in effect or it is not. -/
theorem Kept.cases_last {k : Nat} {s : Step} (hs : m.forward[k]? = some s)
    (h : Kept m start (k + 1) fs) :
    (∃ done F, done.Sublist (m.forward.take k) ∧ Displaced start done F ∧ Holds m F fs) ∨
      ∃ done F work, done.Sublist (m.forward.take k) ∧ Displaced start done F ∧
        s.work = some work ∧ work.Free F ∧ Holds m (work.shift F) fs := by
  obtain ⟨done, F, hsub, hd, hF⟩ := h
  rw [take_succ_eq hs, List.sublist_append_iff] at hsub
  obtain ⟨done', last, rfl, hdone, hlast⟩ := hsub
  rcases List.sublist_singleton.mp hlast with rfl | rfl
  · rw [List.append_nil] at hd
    exact Or.inl ⟨done', F, hdone, hd, hF⟩
  · obtain ⟨F', work, hd', hw, hfree, rfl⟩ := hd.concat
    exact Or.inr ⟨done', F', work, hdone, hd', hw, hfree, hF⟩

theorem Kept.of_work {k : Nat} {s : Step} {work : Work} {done : List Step}
    (hs : m.forward[k]? = some s) (hdone : done.Sublist (m.forward.take k))
    (hd : Displaced start done F) (hw : s.work = some work) (hfree : work.Free F)
    (h : Holds m (work.shift F) fs) : Kept m start (k + 1) fs := by
  refine ⟨done ++ [s], _, ?_, hd.step hw hfree, h⟩
  rw [take_succ_eq hs]
  exact hdone.append (List.Sublist.refl _)

theorem scaffold_around {k : Nat} {s : Step} {work : Work} (hs : m.forward[k]? = some s)
    (hw : s.work = some work) {k' : Key} (hk : k' ∈ work.around) : Scaffold m k' :=
  .onTheWay (List.mem_of_getElem? hs) hw hk

/-- The effect of the next step. -/
theorem Kept.effect {k : Nat} {s : Step} (hs : m.forward[k]? = some s) (h : Kept m start k fs)
    (he : effectOf H s fs = some fs') : Kept m start (k + 1) fs' := by
  obtain ⟨work, hw, hcase⟩ := effectOf_eq_some he
  rcases hcase with ⟨hr, mid, hmid, hfin⟩ | ⟨-, rfl⟩
  · obtain ⟨done, F, hdone, hd, hF⟩ := h
    refine Kept.of_work hs hdone hd hw ?_ ?_
    · cases work with
      | rename source target =>
        obtain ⟨-, -, -, ht⟩ := Step.work_eq_rename hw
        exact hF.eq_none_below (resolve_ne_nil ht) hr.2.2.2.1
      | mkdir target digest => exact hF.eq_none hr.2
    · cases work with
      | rename source target =>
        have hmove := List.mem_of_getElem? hs
        refine (hF.ensureDirectories hmid fun k hk => ?_).rename hfin fun rest h => .moved hmove hw h
        exact scaffold_around hs hw (List.mem_append_right _ hk)
      | mkdir target digest =>
        obtain rfl := Option.some.inj hfin
        obtain ⟨-, key, -, -, ht⟩ := Step.work_eq_mkdir hw
        exact hF.mkdir hmid (resolve_ne_nil ht) fun k hk => scaffold_around hs hw hk
  · exact h.mono (Nat.le_succ k)

/-- A step that is left somewhere has made folders, or has had its effect. -/
theorem Kept.between {k : Nat} {s : Step} (hs : m.forward[k]? = some s) (h : Kept m start k fs)
    (hb : Between H s fs fs') :
    Kept m start k fs' ∨
      ∃ work, s.work = some work ∧ work.AtTarget fs' ∧ Kept m start (k + 1) fs' := by
  have heffect : ∀ {X : Fs}, effectOf H s fs = some X → Kept m start k X ∨
      ∃ work, s.work = some work ∧ work.AtTarget X ∧ Kept m start (k + 1) X := by
    intro X he
    obtain ⟨work, hw, -⟩ := effectOf_eq_some he
    exact Or.inr ⟨work, hw, atTarget_of_effectOf hw he, h.effect hs he⟩
  rcases hb with rfl | ⟨work, hw, hr, j, hj⟩ | he
  · exact Or.inl h
  · have hscaffold : (∀ k' ∈ work.way.take j, k' ∈ work.around) → Kept m start k fs' := by
      intro hway
      obtain ⟨done, F, hdone, hd, hF⟩ := h
      exact ⟨done, F, hdone, hd, hF.ensureDirectories hj fun k' hk =>
        scaffold_around hs hw (hway k' hk)⟩
    cases work with
    | rename source target =>
      exact Or.inl (hscaffold fun k' hk => List.mem_append_right _ (List.mem_of_mem_take hk))
    | mkdir target digest =>
      obtain ⟨-, key, -, -, ht⟩ := Step.work_eq_mkdir hw
      have hway := prefixes_eq_concat (resolve_ne_nil ht)
      by_cases hlen : j ≤ (prefixes (dirname target)).length
      · refine Or.inl (hscaffold fun k' hk => ?_)
        have htake : (prefixes target).take j = (prefixes (dirname target)).take j := by
          rw [hway, List.take_append_of_le_length hlen]
        have hk' : k' ∈ (prefixes target).take j := hk
        rw [htake] at hk'
        exact List.mem_of_mem_take hk'
      · -- The target itself was made.
        have hall : (prefixes target).take j = prefixes target := by
          refine List.take_of_length_le ?_
          rw [hway, List.length_append, List.length_singleton]
          omega
        refine heffect ?_
        rw [effectOf_of_ready hw hr]
        show (fs.ensureDirectories (prefixes target)).bind _ = _
        rw [← hall, show fs.ensureDirectories ((prefixes target).take j) = some fs' from hj]
        rfl
  · exact heffect he

theorem between_of_atTarget {s : Step} {work : Work} (hw : s.work = some work)
    (hat : work.AtTarget fs) (hb : Between H s fs fs') : fs' = fs := by
  have hnot : ¬ work.Ready H s fs := Work.not_ready_of_atTarget hat
  rcases hb with rfl | ⟨work', hw', hr, -⟩ | he
  · rfl
  · rw [hw] at hw'
    obtain rfl := Option.some.inj hw'
    exact absurd hr hnot
  · obtain ⟨work', hw', ⟨hr, -⟩ | ⟨-, he⟩⟩ := effectOf_eq_some he
    · rw [hw] at hw'
      obtain rfl := Option.some.inj hw'
      exact absurd hr hnot
    · exact he

/-! ## Undoing steps -/

theorem assertRenameStepIntent_swapped (s : Step) :
    assertRenameStepIntent s.swapped = assertRenameStepIntent s := by
  unfold assertRenameStepIntent Step.swapped
  dsimp only
  rw [Bool.or_comm]

theorem Step.work_of_swapped {s : Step} {source target : Key}
    (h : s.swapped.work = some (.rename target source)) :
    s.work = some (.rename source target) := by
  obtain ⟨ha, hi, hs, ht⟩ := Step.work_eq_rename h
  rw [assertRenameStepIntent_swapped] at hi
  exact Step.work_of_rename ha hi ht hs

/-- A renamed step has a node type recorded. -/
theorem expectedNodeType_of_intent {s : Step} (h : assertRenameStepIntent s = .ok ()) :
    s.expectedNodeType ≠ none := by
  intro hnone
  unfold assertRenameStepIntent at h
  rw [hnone] at h
  dsimp only at h
  split_ifs at h
  cases h

theorem alike_of_check {s : Step} {k : Key} {n : Node} (htype : s.expectedNodeType ≠ none)
    (hk : fs.get k = some n) (h : checkExpectedNode H fs k s = .ok ()) : Alike H s n := by
  unfold checkExpectedNode at h
  rw [hk] at h
  dsimp only at h
  by_cases ht : s.expectedNodeType = some n.type
  · refine ⟨ht, ?_⟩
    cases hsum : assertExpectedNodeChecksum H n s with
    | ok u => rfl
    | error e =>
      rw [hsum] at h
      simp only [ht, ne_eq, not_true_eq_false, decide_false, Bool.and_false, Bool.false_eq_true,
        if_false] at h
      split_ifs at h <;> cases h
  · rw [if_pos (by simp [htype, ht])] at h
    cases h

/-- Undoing a rename, wherever its step stands. -/
theorem Kept.undoRename (hf : NeverForestalled H m start) {i : Nat} {s : Step}
    (hs : m.forward[i]? = some s) (ha : s.action = .rename) (h : Kept m start (i + 1) fs)
    (hu : effectOf H s.swapped fs = some fs') : Kept m start i fs' := by
  obtain ⟨work', hw', hcase⟩ := effectOf_eq_some hu
  cases work' with
  | mkdir target digest =>
    have hm := (Step.work_eq_mkdir hw').1
    rw [show s.swapped.action = s.action from rfl, ha] at hm
    cases hm
  | rename target source =>
    have hw := Step.work_of_swapped hw'
    obtain ⟨-, hi, hrs, hrt⟩ := Step.work_eq_rename hw
    have hs0 := resolve_ne_nil hrs
    have ht0 := resolve_ne_nil hrt
    have hmem := List.mem_of_getElem? hs
    have hway : ∀ k ∈ prefixes (dirname source), Scaffold m k := fun k hk =>
      scaffold_around hs hw (List.mem_append_left _ hk)
    have hback : ∀ rest, Scaffold m (target ++ rest) → Scaffold m (source ++ rest) :=
      fun rest h => .movedBack hmem hw h
    rcases h.cases_last hs with ⟨done, F, hdone, hd, hF⟩ | ⟨done, F, work, hdone, hd, hw2, hfree, hF⟩
    · -- The step is not in effect; at most scaffolding can be moved.
      refine ⟨done, F, hdone, hd, ?_⟩
      rcases hcase with ⟨hr, mid, hmid, hren⟩ | ⟨-, rfl⟩
      · have hsource := hF.eq_none_below hs0 hr.2.2.2.1
        have htarget : ∀ rest, F (target ++ rest) = none := by
          by_contra hne
          have hexists : ∃ rest, F (target ++ rest) ≠ none := not_forall.mp hne
          refine hf (m.forward.take i) s (m.forward.drop (i + 1)) done F ?_ hdone hd ?_
          · exact eq_take_append_cons_drop hs
          · unfold LooksDone
            rw [ha]
            refine ⟨source, target, hw, by simpa using hsource [], hexists, fun n hn => ?_⟩
            exact alike_of_check (expectedNodeType_of_intent hi) (hF.of_eq_some hn)
              (eq_ok_of_isOk hr.2.2.2.2)
        exact ((hF.ensureDirectories hmid hway).rename hren hback).congr
          (shift_rename_empty htarget hsource)
      · exact hF
    · rw [hw] at hw2
      obtain rfl := Option.some.inj hw2
      refine ⟨done, F, hdone, hd, ?_⟩
      rcases hcase with ⟨hr, mid, hmid, hren⟩ | ⟨hdn, rfl⟩
      · exact ((hF.ensureDirectories hmid hway).rename hren hback).congr (shift_rename_back hfree)
      · -- The node was back already: the step had only moved scaffolding.
        have hsource : ∀ rest, F (source ++ rest) = none := by
          intro rest
          have := hF.eq_none_below ht0 hdn.2.2.1 rest
          rwa [shift_rename_target] at this
        exact hF.congr (shift_rename_empty hsource hfree)

/-- Undoing a mkdir. -/
theorem Kept.undoMkdir (hf : NeverForestalled H m start) {i : Nat} {s : Step}
    (hs : m.forward[i]? = some s) (ha : s.action = .mkdir) (h : Kept m start (i + 1) fs)
    (hu : UndoOf H s fs fs') : Kept m start i fs' := by
  rw [UndoOf, ha] at hu
  rcases h.cases_last hs with ⟨done, F, hdone, hd, hF⟩ | ⟨done, F, work, hdone, hd, hw, hfree, hF⟩
  · refine ⟨done, F, hdone, hd, ?_⟩
    rcases hu with ⟨-, rfl⟩ | ⟨key, target, hkey, ht, ⟨-, rfl⟩ | ⟨hdir, he, rfl⟩⟩
    · exact hF
    · exact hF
    · refine hF.rmdir he ?_ fun _ _ => rfl
      have hnot := hf _ s _ done F (eq_take_append_cons_drop hs) hdone hd
      rcases hF target with hsame | ⟨hnone, -, -⟩
      · refine absurd ?_ hnot
        unfold LooksDone
        rw [ha]
        exact ⟨key, target, hkey, ht, by rw [← hsame, hdir]⟩
      · exact hnone
  · cases work with
    | rename source target =>
      have hr := (Step.work_eq_rename hw).1
      rw [ha] at hr
      cases hr
    | mkdir target digest =>
      obtain ⟨-, key, hkey, -, ht⟩ := Step.work_eq_mkdir hw
      refine ⟨done, F, hdone, hd, ?_⟩
      have hself : fs.get target = some .directory :=
        hF.of_eq_some (show (if target = target then some .directory else F target) = _ by simp)
      rcases hu with ⟨hnone, -⟩ | ⟨key', target', hkey', ht', hcase⟩
      · rw [hkey] at hnone
        cases hnone
      · obtain rfl : key = key' := Option.some.inj (hkey.symm.trans hkey')
        obtain rfl : target = target' := Except.ok.inj (ht.symm.trans ht')
        rcases hcase with ⟨hnone, -⟩ | ⟨-, he, rfl⟩
        · rw [hself] at hnone
          cases hnone
        · exact hF.rmdir he hfree fun k hk => (if_neg hk).symm

theorem Kept.undo (hf : NeverForestalled H m start) {i : Nat} {s : Step}
    (hs : m.forward[i]? = some s) (h : Kept m start (i + 1) fs) (hu : UndoOf H s fs fs') :
    Kept m start i fs' := by
  have hforward := (List.mem_filter.mp (List.mem_of_getElem? hs)).2
  cases ha : s.action with
  | rename =>
    rw [UndoOf, ha] at hu
    exact h.undoRename hf hs ha hu
  | mkdir => exact h.undoMkdir hf hs ha hu
  | deleteFile => rw [ha] at hforward; cases hforward
  | deleteTree => rw [ha] at hforward; cases hforward
  | removeEmptyDirectory => rw [ha] at hforward; cases hforward

/-- An interrupted undo leaves the step in effect or undone. -/
theorem Kept.undoBetween (hf : NeverForestalled H m start) {i : Nat} {s : Step}
    (hs : m.forward[i]? = some s) (h : Kept m start (i + 1) fs) (hu : UndoBetween H s fs fs') :
    Kept m start (i + 1) fs' := by
  have hundo : UndoOf H s fs fs' → Kept m start (i + 1) fs' := fun hu =>
    (h.undo hf hs hu).mono (Nat.le_succ i)
  unfold UndoBetween at hu
  split at hu
  · rename_i ha
    rcases hu with rfl | ⟨work', hw', hr, j, hj⟩ | he
    · exact h
    · cases work' with
      | mkdir target digest =>
        have hm := (Step.work_eq_mkdir hw').1
        rw [show s.swapped.action = s.action from rfl, ha] at hm
        cases hm
      | rename target source =>
        obtain ⟨done, F, hdone, hd, hF⟩ := h
        refine ⟨done, F, hdone, hd, hF.ensureDirectories hj fun k hk => ?_⟩
        exact scaffold_around hs (Step.work_of_swapped hw')
          (List.mem_append_left _ (List.mem_of_mem_take hk))
    · refine hundo ?_
      rw [UndoOf, ha]
      exact he
  · rcases hu with rfl | hu
    · exact h
    · exact hundo hu

/-! ## The account of a rollback -/

/-- The rollbacks of a log had every step that took effect in memory. -/
def CoversAll (m : Mutation) (log : Log) : Prop :=
  ∀ memory X, (.rollback memory, X) ∈ log → Covers m memory X

/-- Every abort after such rollbacks leaves the start restored. -/
def AbortsRestore (m : Mutation) (start : Fs) (log : Log) : Prop :=
  ∀ newer older fs, log = newer ++ (.aborted, fs) :: older → CoversAll m older →
    Restored m start fs

/-- The account of the steps in effect, in whatever order attempts and rollbacks follow. -/
def restoreAccount (m : Mutation) (start : Fs) : Account where
  cond := CoversAll m
  good := AbortsRestore m start
  settled := Kept m start
  mid k fs := Kept m start k fs ∨ ∃ s work, m.forward[k]? = some s ∧ s.work = some work ∧
    work.AtTarget fs ∧ Kept m start (k + 1) fs
  undoing _ k i fs := i ≤ k ∧ Kept m start i fs
  sweeping _ _ := True

theorem AbortsRestore.cons {e : Event} {fs : Fs} {log : Log} (he : e ≠ .aborted)
    (h : AbortsRestore m start log) : AbortsRestore m start ((e, fs) :: log) := by
  intro newer older fs' hsplit hc
  cases newer with
  | nil =>
    obtain ⟨hhead, -⟩ := List.cons.inj hsplit
    exact absurd (Prod.mk.inj hhead).1 he
  | cons x newer => exact h newer older fs' (List.cons.inj hsplit).2 hc

/-- The first step that is not in memory. -/
theorem Marked.find {k : Nat} {memory : List Nat} {s : Step} (h : Marked m.forward k memory)
    (hs : m.forward[k]? = some s) :
    m.forward.find? (fun s => !memory.contains s.id) = some s := by
  rw [List.find?_eq_some_iff_getElem]
  obtain ⟨hk, he⟩ := List.getElem?_eq_some_iff.mp hs
  refine ⟨?_, k, hk, he, fun j hj => ?_⟩
  · have hnot : ¬ s.id ∈ memory := fun hmem => Nat.lt_irrefl k ((h.2 k s hs).mp hmem)
    simpa using hnot
  · have hj' : j < m.forward.length := Nat.lt_trans hj hk
    have hmem := (h.2 j _ (List.getElem?_eq_getElem hj')).mpr hj
    simpa using hmem

theorem restoreAccount_laws (hf : NeverForestalled H m start) :
    (restoreAccount m start).Laws H m where
  cond_tail h memory X hmem := h memory X (List.mem_cons_of_mem _ hmem)
  mid_of_settled h := Or.inl h
  settled_of_mid := by
    rintro fs (h | ⟨s, work, hs, -⟩)
    · exact h
    · exact absurd (lt_of_getElem?_eq_some hs) (Nat.lt_irrefl _)
  mid_between := by
    rintro k s X fs hs (h | ⟨s', work, hs', hw, hat, h⟩) hb
    · rcases h.between hs hb with h' | ⟨work, hw, hat, h'⟩
      · exact Or.inl h'
      · exact Or.inr ⟨s, work, hs, hw, hat, h'⟩
    · rw [hs] at hs'
      obtain rfl := Option.some.inj hs'
      rw [between_of_atTarget hw hat hb]
      exact Or.inr ⟨s, work, hs, hw, hat, h⟩
  settled_effect := by
    rintro k s X fs hs (h | ⟨s', work, hs', hw, hat, h⟩) he
    · exact h.effect hs he
    · rw [hs] at hs'
      obtain rfl := Option.some.inj hs'
      rw [between_of_atTarget hw hat (Or.inr (Or.inr he))]
      exact h
  undo_start := by
    rintro k memory X log hc hk (h | ⟨s, work, hs, hw, hat, -⟩)
    · exact ⟨Nat.le_refl k, h⟩
    · exact absurd hat (hc memory X (by simp) s work (hk.find hs) hw)
  undo_mid := by
    rintro X k i j fs hkj ⟨hik, h⟩ -
    exact Or.inl (h.mono (Nat.le_trans hik hkj))
  undo_settled := by
    rintro X k i j fs hkj ⟨hik, h⟩ -
    exact h.mono (Nat.le_trans hik hkj)
  undo_change := by
    rintro X Y k i s op fs log - hs ⟨hik, h⟩ hb
    exact ⟨hik, h.undoBetween hf hs hb⟩
  undo_done := by
    rintro X Y k i s fs hs ⟨hik, h⟩ - hu
    exact ⟨Nat.le_of_succ_le hik, h.undo hf hs hu⟩
  sweep_start _ := trivial
  sweep_between _ _ _ := trivial
  sweep_done _ _ _ := trivial
  good_note := by
    intro e fs log he h
    refine h.cons ?_
    rintro rfl
    cases he
  good_commit _ h := h.cons (by simp)
  good_rollback _ h := h.cons (by simp)
  good_undo _ h := h.cons (by simp)
  good_abort := by
    intro X k fs log hc h newer older fs' hsplit hcovers
    cases newer with
    | nil =>
      obtain ⟨hhead, rfl⟩ := List.cons.inj hsplit
      obtain rfl := (Prod.mk.inj hhead).2
      obtain ⟨-, done, F, hdone, hd, hF⟩ := hc hcovers
      rw [List.take_zero, List.sublist_nil] at hdone
      subst hdone
      rwa [hd.nil] at hF
    | cons x newer => exact h newer older fs' (List.cons.inj hsplit).2 hcovers
  good_complete _ h := h.cons (by simp)

/-- An aborted mutation has every node back where it was, and leaves nothing but empty folders. -/
theorem abort_restores (H : Host) (m : Mutation) (start : Fs) (attempts : List Attempt)
    (hf : NeverForestalled H m start) (newer older : Log) (fs : Fs)
    (hlog : (run H m (prepared start) attempts).log = newer ++ (.aborted, fs) :: older)
    (hc : ∀ memory X, (.rollback memory, X) ∈ older → Covers m memory X) :
    Restored m start fs := by
  have hlaws := restoreAccount_laws hf
  have hstart : (restoreAccount m start).settled 0 start :=
    ⟨[], _, List.nil_sublist _, .start, fun k => Or.inl rfl⟩
  have hinv : Inv _ m False (run H m (prepared start) attempts) :=
    (inv_prepared hlaws hstart fun newer older fs h => by simp at h).run hlaws attempts
      fun h => absurd h id
  exact hinv.good newer older fs hlog hc

/-! ## Aborting the rename of one file -/

theorem renameStep_work : renameStep.work = some (.rename [['a']] [['b']]) := by decide +kernel

theorem renameOnly_neverForestalled : NeverForestalled smallHost renameOnly (fileAt "a") := by
  intro before s after done F hsplit hdone hd hlooks
  have hlen := congrArg List.length hsplit
  have hnil : before = [] := by
    rw [List.length_append, List.length_cons,
      show renameOnly.forward.length = 1 by decide +kernel] at hlen
    exact List.length_eq_zero_iff.mp (by omega)
  subst hnil
  rw [List.sublist_nil.mp hdone] at hd
  obtain rfl : renameStep = s := (List.cons.inj
    ((show renameOnly.forward = [renameStep] by decide +kernel).symm.trans hsplit)).1
  obtain ⟨source, target, hw, hnone, -⟩ := hlooks
  obtain ⟨rfl, -⟩ := Work.rename.inj (Option.some.inj (renameStep_work.symm.trans hw))
  rw [hd.nil] at hnone
  revert hnone
  decide +kernel

/-- Over the quota, the rename is undone and the mutation aborted. -/
def overQuota : List Attempt :=
  [attempt 0 (faultAt 14 (.failed .no (.rejected .userStorageQuotaExceeded)))]

/-- What a rollback has in memory. -/
def rememberedBy : Event → Option (List Nat)
  | .rollback ids => some ids
  | _ => none

theorem abort_restores_overQuota : Restored renameOnly (fileAt "a") (fileAt "a") := by
  refine abort_restores smallHost renameOnly (fileAt "a") overQuota renameOnly_neverForestalled []
    ((run smallHost renameOnly (prepared (fileAt "a")) overQuota).log.drop 1) (fileAt "a")
    (by decide +kernel) fun memory X hmem => ?_
  have hmemory : ∀ e ∈ (run smallHost renameOnly (prepared (fileAt "a")) overQuota).log.drop 1,
      ∀ ids ∈ rememberedBy e.1, ids = [1] := by
    decide +kernel
  obtain rfl := hmemory _ hmem memory rfl
  intro s work hfind
  rw [show renameOnly.forward.find? (fun s => !([1] : List Nat).contains s.id) = none by
    decide +kernel] at hfind
  cases hfind

example : (run smallHost renameOnly (prepared (fileAt "a")) overQuota).fs = fileAt "a" := by decide +kernel

/-- Ten attempts die right after their claim. In the eleventh the rename takes effect, the sync
after it fails, and the mutation is aborted without an undo. -/
def forgottenRename : List Attempt :=
  List.replicate 10 (attempt 30000 (faultAt 0 (.crashed .yes))) ++
    [attempt 30000 (faultAt 12 (.failed .no .other))]

theorem forgottenRename_not_restored :
    (.aborted, fileAt "b") ∈
        (run smallHost renameOnly (prepared (fileAt "a")) forgottenRename).log ∧
      ¬ Restored renameOnly (fileAt "a") (fileAt "b") := by
  refine ⟨by decide +kernel, fun h => ?_⟩
  have hnone : (fileAt "b").get [['a']] = none := by decide +kernel
  have hsome : (fileAt "a").get [['a']] = some (.file []) := by decide +kernel
  rw [h.of_eq_some hsome] at hnone
  cases hnone

end Staaash.Journal
