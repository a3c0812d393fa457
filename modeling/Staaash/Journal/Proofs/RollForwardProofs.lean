import Staaash.Journal.Proofs.CalmProofs
import Staaash.Journal.Proofs.CommitSafetyProofs

/-!
# Proofs: rolling forward

However often the process dies, a mutation that is never rolled back ends with the tree and the
metadata of an attempt without faults, or stays somewhere on the way there.
-/

namespace Staaash.Journal

open Staaash.Library (OrderedMap)

variable {H : Host} {m : Mutation} {start fs fs' : Fs} {step : Step}

/-! ## Where the nodes are -/

theorem carried_append (a b : List Step) (k : Key) :
    carried (a ++ b) k = carried b (carried a k) :=
  List.foldl_append

theorem carried_take_succ {l : List Step} {k : Nat} (hs : l[k]? = some step) (key : Key) :
    carried (l.take (k + 1)) key = step.carry (carried (l.take k) key) := by
  rw [List.take_add_one, hs, Option.toList_some, carried_append]
  rfl

theorem effectOf_carries {k : Key} {n : Node} (h : effectOf H step fs = some fs')
    (hk : fs.get k = some n) : fs'.get (step.carry k) = some n := by
  obtain ⟨work, hw, hcase⟩ := effectOf_eq_some h
  have hne : fs.get k ≠ none := by
    rw [hk]
    exact Option.some_ne_none n
  unfold Step.carry
  rw [hw]
  cases work with
  | rename source target =>
    rcases hcase with ⟨-, mid, hmid, hren⟩ | ⟨hd, rfl⟩
    · refine (Fs.get_rename hren).mpr ⟨k, ?_, rfl⟩
      rw [Fs.get_ensureDirectories_of_ne_none hmid hne]
      exact hk
    · -- The step found the node at its target, and nothing at or below its source.
      have hs0 := resolve_ne_nil (Step.work_eq_rename hw).2.2.1
      have hfree : ¬ source <+: k := fun hp =>
        hne (Fs.get_eq_none_below hd.2.2.1 hs0 hp)
      show fs'.get (moveKey source target k) = some n
      rw [Fs.moveKey_outside hfree]
      exact hk
  | mkdir target digest =>
    rcases hcase with ⟨-, mid, hmid, hfin⟩ | ⟨-, rfl⟩
    · obtain rfl := Option.some.inj hfin
      exact (Fs.get_ensureDirectories_of_ne_none hmid hne).trans hk
    · exact hk

theorem carried_of_runSteps {l : List Step} (h : runSteps H l start = some fs) :
    Carried l start fs := by
  induction l generalizing start with
  | nil =>
    obtain rfl := Option.some.inj h
    exact fun _ _ hk => hk
  | cons s l ih =>
    obtain ⟨mid, hmid, hrest⟩ := Option.bind_eq_some_iff.mp h
    intro k n hk
    exact ih hrest _ n (effectOf_carries hmid hk)

theorem carried_of_forwardTo {k : Nat} (h : ForwardTo H m start k fs) :
    ∃ j, Carried (m.forward.take j) start fs := by
  obtain ⟨X, hX, hfs⟩ := h
  have hkept := carried_of_runSteps hX
  rcases hfs with rfl | ⟨s, hs, rfl | ⟨work, -, -, j, hj⟩ | he⟩
  · exact ⟨k, hkept⟩
  · exact ⟨k, hkept⟩
  · refine ⟨k, fun key n hkey => ?_⟩
    have hn := hkept key n hkey
    rw [Fs.get_ensureDirectories_of_ne_none hj (by rw [hn]; exact Option.some_ne_none n)]
    exact hn
  · refine ⟨k + 1, fun key n hkey => ?_⟩
    rw [carried_take_succ hs]
    exact effectOf_carries he (hkept key n hkey)

/-! ## What the delete steps leave -/

theorem Discarded.mono {a b : List Step} {k : Key} {n : Node} (h : Discarded a k n)
    (hab : ∀ s ∈ a, s ∈ b) : Discarded b k n := by
  obtain ⟨s, hs, hrest⟩ := h
  exact ⟨s, hab s hs, hrest⟩

theorem Thinned.get_outside {target k : Key} (h : Thinned target fs fs')
    (hk : ¬ target <+: k) {n : Node} (hn : fs.get k = some n) : fs'.get k = some n := by
  obtain ⟨keep, hkeep⟩ := h
  rw [Fs.get_eq_some_iff] at hn ⊢
  rw [hkeep, List.mem_filter]
  exact ⟨hn, by simp [hk]⟩

/-- What a delete step has removed so far, it was to remove. -/
theorem Sweeping.keeps {owned : Bool} (h : Sweeping H step owned fs fs') {k : Key} {n : Node}
    (hn : fs.get k = some n) : fs'.get k = some n ∨ Discarded [step] k n := by
  rcases h with rfl | ⟨key, target, hv, hcase⟩
  · exact Or.inl hn
  by_cases hk : target <+: k
  · exact Or.inr ⟨step, by simp, key, target, hv, Or.inl hk⟩
  rcases hcase with ⟨node, -, -, hthin⟩ | ⟨gone, j, hgone, hprune⟩
  · exact Or.inl (hthin.get_outside hk hn)
  · have hthere : gone.get k = some n := by
      rcases hgone with ⟨-, rfl⟩ | ⟨node, -, -, rfl⟩
      · exact hn
      · exact (thinned_removeUnder fs target []).get_outside hk hn
    rcases Fs.get_prune hprune k with he | ⟨hmem, hdir, -⟩
    · exact Or.inl (he.trans hthere)
    · rw [hthere] at hdir
      exact Or.inr ⟨step, by simp, key, target, hv,
        Or.inr ⟨Option.some.inj hdir, List.mem_of_mem_take hmem⟩⟩

theorem SweptAll.keeps {owned : Step → Bool} {l : List Step} (h : SweptAll H owned l fs fs')
    {k : Key} {n : Node} (hn : fs.get k = some n) : fs'.get k = some n ∨ Discarded l k n := by
  induction l generalizing fs with
  | nil =>
    obtain rfl : fs' = fs := h
    exact Or.inl hn
  | cons s l ih =>
    obtain ⟨mid, hmid, hrest⟩ := h
    rcases hmid.sweeping.keeps hn with hn' | hd
    · exact (ih hrest hn').imp_right fun hd => hd.mono fun t ht => List.mem_cons_of_mem s ht
    · exact Or.inr (hd.mono fun t ht => by
        rw [List.mem_singleton] at ht
        simp [ht])

theorem SweptTo.keeps {c : Nat} (h : SweptTo H m start c fs) (k : Key) (n : Node)
    (hn : start.get k = some n) : fs.get (carried m.forward k) = some n ∨
      Discarded (m.cleanup.take (c + 1)) (carried m.forward k) n := by
  obtain ⟨F, G, hF, hG, hfs⟩ := h
  have htake : ∀ s ∈ m.cleanup.take c, s ∈ m.cleanup.take (c + 1) := by
    intro s hs
    rw [List.take_add_one]
    exact List.mem_append_left _ hs
  rcases hG.keeps (carried_of_runSteps hF k n hn) with hn' | hd
  · rcases hfs with rfl | ⟨s, hs, hsweep⟩
    · exact Or.inl hn'
    · refine (hsweep.keeps hn').imp_right fun hd => hd.mono fun t ht => ?_
      rw [List.mem_singleton] at ht
      rw [List.take_add_one, hs, ht]
      simp
  · exact Or.inr (hd.mono htake)

/-! ## Runs without a rollback -/

theorem rolledBack_tail {e : Event × Fs} {log : Log} (h : rolledBack (e :: log) = false) :
    rolledBack log = false := by
  by_contra hr
  rw [Bool.not_eq_false] at hr
  rw [rolledBack_cons hr] at h
  cases h

/-- What was undone was undone in a rollback. -/
def UndoneInRollback (log : Log) : Prop := undone log = true → rolledBack log = true

theorem UndoneInRollback.cons {e : Event} {log : Log} (h : UndoneInRollback log)
    (he : ∀ op, e ≠ .changed .undo op) : UndoneInRollback ((e, fs) :: log) := by
  intro hu
  refine rolledBack_cons (h ?_)
  unfold undone at hu ⊢
  rw [List.any_cons, Bool.or_eq_true] at hu
  refine hu.resolve_left fun hu => ?_
  cases e with
  | changed phase op =>
    cases phase with
    | undo => exact he op rfl
    | forward => cases hu
    | cleanup => cases hu
  | _ => cases hu

theorem rollForwardAccount_laws :
    (exactAccount H m start (fun log => rolledBack log = false ∧ undone log = false)
      UndoneInRollback).Laws H m := by
  refine exactAccount_laws (fun h => ⟨rolledBack_tail h.1, undone_tail h.2⟩)
    (fun h => by cases h.2) (fun he h => h.cons fun op hop => ?_) (fun _ h => h.cons (by simp))
    (fun _ h => h.cons (by simp)) (fun hr h _ => ?_) (fun h => h.cons (by simp))
    fun _ h => h.cons (by simp)
  · rw [hop] at he
    cases he
  · exact rolledBack_cons (rolledBack_of_rollingBack hr)

abbrev RollForwardInv (H : Host) (m : Mutation) (start : Fs) (w : World) : Prop :=
  Inv (exactAccount H m start (fun log => rolledBack log = false ∧ undone log = false)
    UndoneInRollback) m True w

theorem inv_rollForward {attempts : List Attempt}
    (hcrash : ∀ a ∈ attempts, ∀ f ∈ a.schedule, f.crashOnly = true) :
    RollForwardInv H m start (run H m (prepared start) attempts) :=
  (inv_prepared rollForwardAccount_laws rfl fun h => by cases h).run rollForwardAccount_laws
    attempts fun _ => hcrash

section States

variable {w : World} (h : RollForwardInv H m start w)

include h

theorem Inv.not_undone (hroll : rolledBack w.log = false) : undone w.log = false := by
  by_contra hu
  rw [Bool.not_eq_false] at hu
  rw [h.good hu] at hroll
  cases hroll

theorem Inv.beforeCommit {k : Nat} (hm : w.row.metadataCommittedAt = none)
    (hmid : ForwardTo H m start k w.fs) : BeforeCommit H m start w := by
  refine ⟨?_, ⟨k, hmid⟩, carried_of_forwardTo hmid⟩
  rw [h.rows.count trivial, hm]
  rfl

theorem Inv.commits_eq_one (hm : w.row.metadataCommittedAt ≠ none) : commits w.log = 1 := by
  rw [h.rows.count trivial, if_pos (Option.isSome_iff_ne_none.mpr hm)]

theorem Inv.afterCommit {c : Nat} (hm : w.row.metadataCommittedAt ≠ none)
    (hsweep : SweptTo H m start c w.fs) : AfterCommit H m start w :=
  ⟨h.commits_eq_one hm, c, hsweep, hsweep.keeps⟩

variable (hcond : rolledBack w.log = false ∧ undone w.log = false)

include hcond

theorem Inv.asWithoutFaults (hs : w.row.status = .succeeded) : AsWithoutFaults H m start w := by
  have hsweep := h.finished hs hcond
  have hm : w.row.metadataCommittedAt ≠ none := by
    have hlegal := h.rows.legal
    unfold Legal at hlegal
    rw [hs] at hlegal
    exact hlegal
  refine ⟨hsweep, fun leaseOwner => ?_⟩
  obtain ⟨F, G, hF, hG, hfs⟩ := id hsweep
  rw [List.take_length] at hG
  obtain rfl : w.fs = G := by
    rcases hfs with he | ⟨s, hs, -⟩
    · exact he
    · exact absurd (lt_of_getElem?_eq_some hs) (Nat.lt_irrefl _)
  obtain ⟨hstatus, htree⟩ := firstAttempt_succeeds hF hG leaseOwner
  have hcalm : RollForwardInv H m start
      (Journal.run H m (prepared start) [firstAttempt leaseOwner]) :=
    inv_rollForward (by simp [firstAttempt])
  refine ⟨hstatus, htree.symm, h.commits_eq_one hm, ?_⟩
  have hlegal := hcalm.rows.legal
  unfold Legal at hlegal
  rw [hstatus] at hlegal
  rw [hcalm.rows.count trivial, if_pos (Option.isSome_iff_ne_none.mpr hlegal)]

theorem Inv.rolledForward : RolledForward H m start w := by
  -- A status before the finalization has its tree from `before`, and from `all` once committed.
  have hopen : w.row.status.isOpen = true → w.row.status ≠ .succeeded ∧ w.row.status ≠ .aborted ∧
      (BeforeCommit H m start w ∨ AfterCommit H m start w) := by
    intro ho
    refine ⟨fun hs => ?_, fun hs => ?_, ?_⟩
    · rw [hs] at ho
      cases ho
    · rw [hs] at ho
      cases ho
    · obtain ⟨k, -, -, hmid⟩ := h.before ho
      by_cases hm : w.row.metadataCommittedAt = none
      · exact Or.inl (h.beforeCommit hm (hmid hcond))
      · have hsettled := (h.all ho hm).2 hcond
        exact Or.inr (h.afterCommit hm (rollForwardAccount_laws.sweep_start hsettled))
  have hlegal := h.rows.legal
  unfold Legal at hlegal
  cases hs : w.row.status with
  | succeeded => exact Or.inl ⟨hs, h.asWithoutFaults hcond hs⟩
  | preparing =>
    rw [hs] at hlegal
    exact hlegal.elim
  | aborted =>
    rw [hs] at hlegal
    exact absurd hlegal (by rw [hcond.1]; simp)
  | finalizing =>
    obtain ⟨-, c, -, hsweep⟩ := h.after hs
    have hm := h.rows.stamped (Or.inr hs)
    refine Or.inr ⟨by simp [hs], by simp [hs], Or.inr (h.afterCommit hm (hsweep hcond))⟩
  | recoveryRequired =>
    refine Or.inr ⟨by simp [hs], by simp [hs], ?_⟩
    obtain ⟨hbefore, hafter⟩ := h.stuck hs hcond
    by_cases hm : w.row.metadataCommittedAt = none
    · obtain ⟨k, hmid⟩ := hbefore hm
      exact Or.inl (h.beforeCommit hm hmid)
    · obtain ⟨c, hsweep⟩ := hafter hm
      exact Or.inr (h.afterCommit hm hsweep)
  | prepared => exact Or.inr (hopen (by rw [hs]; rfl))
  | running => exact Or.inr (hopen (by rw [hs]; rfl))
  | retrying => exact Or.inr (hopen (by rw [hs]; rfl))
  | metadataCommitted => exact Or.inr (hopen (by rw [hs]; rfl))

end States

/-- A mutation that is never rolled back, in a run in which nothing but crashes happens, ends with
exactly what an attempt without faults gives, or keeps every node it does not delete. -/
theorem rollForward_exactlyOnce (H : Host) (m : Mutation) (start : Fs) (attempts : List Attempt)
    (hcrash : ∀ a ∈ attempts, ∀ f ∈ a.schedule, f.crashOnly = true)
    (hroll : rolledBack (run H m (prepared start) attempts).log = false) :
    RolledForward H m start (run H m (prepared start) attempts) := by
  have hinv : RollForwardInv H m start (run H m (prepared start) attempts) :=
    inv_rollForward hcrash
  exact hinv.rolledForward ⟨hroll, hinv.not_undone hroll⟩

/-- The process dies once the file is renamed, before the step is recorded; a second attempt goes
on. -/
theorem rollForward_exactlyOnce_renameOnly :
    RolledForward smallHost renameOnly (fileAt "a") (run smallHost renameOnly
      (prepared (fileAt "a")) [attempt 0 (faultAt 11 (.crashed .yes)), attempt 30000 []]) :=
  rollForward_exactlyOnce smallHost renameOnly (fileAt "a") _ (by decide) (by decide +kernel)

example : (run smallHost renameOnly (prepared (fileAt "a"))
    [attempt 0 (faultAt 11 (.crashed .yes)), attempt 30000 []]).fs = fileAt "b" := by decide +kernel

/-! ## Purging one file -/

/-- The empty file `a` is deleted. -/
def purgeStep : Step where
  id := 1
  action := .deleteFile
  sourceKey := none
  targetKey := some ['a']
  expectedNodeType := some .file
  expectedSizeBytes := some 0
  expectedChecksum := some emptyChecksum
  treeManifestDigest := none

def purgeOnly : Mutation where
  kind := .filePurge
  parentId := none
  steps := [purgeStep]
  distinct := by simp

/-- The process dies right after the unlink. -/
def purgeCut : Attempt := attempt 0 (faultAt 9 (.crashed .yes))

theorem purgeCut_loses_file :
    (∀ f ∈ purgeCut.schedule, f.crashOnly = true) ∧
      rolledBack (run smallHost purgeOnly (prepared (fileAt "a")) [purgeCut]).log = false ∧
      (run smallHost purgeOnly (prepared (fileAt "a")) [purgeCut]).row.status = .finalizing ∧
      (fileAt "a").get [['a']] = some (.file []) ∧
      ∀ k, (run smallHost purgeOnly (prepared (fileAt "a")) [purgeCut]).fs.get k = none := by
  refine ⟨by decide, by decide +kernel, by decide +kernel, by decide, fun k => ?_⟩
  have hempty : (run smallHost purgeOnly (prepared (fileAt "a")) [purgeCut]).fs.nodes.entries =
      [] := by decide +kernel
  by_contra hk
  obtain ⟨n, hn⟩ := Option.ne_none_iff_exists'.mp hk
  rw [Fs.get_eq_some_iff, hempty] at hn
  cases hn

end Staaash.Journal
