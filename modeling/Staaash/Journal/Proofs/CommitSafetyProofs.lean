import Staaash.Journal.Proofs.RunProofs

/-!
# Proofs: what a commit finds

As long as nothing has been undone, the tree is the one the recorded steps give, with the next step
possibly under way; so a commit finds every forward step in effect. After an undo this is lost: the
steps stay recorded, the next attempt skips them and commits.
-/

namespace Staaash.Journal

open Staaash.Library (OrderedMap)

variable {H : Host} {m : Mutation} {start : Fs}

/-! ## Steps in effect -/

/-- A step that has had its effect is in effect. -/
theorem inEffect_of_effectOf {step : Step} {fs after : Fs} (h : effectOf H step fs = some after) :
    InEffect H step after := by
  obtain ⟨work, hw, hcase⟩ := effectOf_eq_some h
  have hat := atTarget_of_effectOf hw h
  unfold InEffect
  rw [hw]
  cases work with
  | mkdir target digest => exact hat
  | rename source target =>
    refine ⟨hat.1, ?_⟩
    rcases hcase with ⟨hr, mid, hmid, hren⟩ | ⟨hd, rfl⟩
    · obtain ⟨-, -, -, -, hin, -⟩ := Fs.rename_eq_some hren
      have hway : ∀ k ∈ prefixes (dirname target), ¬ source <+: k := fun k hk hp =>
        hin (hp.trans ((mem_prefixes.mp hk).2.trans (Fs.dirname_above target)))
      rw [checkExpectedNode_rename hren, checkExpectedNode_congr
        (Fs.get_ensureDirectories_of_ne_none hmid hr.2.2.1) (below_ensureDirectories hmid hway)]
      exact eq_ok_of_isOk hr.2.2.2.2
    · exact eq_ok_of_isOk hd.2.2.2.2

theorem allInEffect_of_runSteps {steps : List Step} {fs : Fs}
    (h : runSteps H steps start = some fs) : AllInEffect H steps start fs := by
  refine ⟨h, fun done step later hsplit => ?_⟩
  rw [hsplit, ← List.singleton_append, ← List.append_assoc, runSteps_append] at h
  obtain ⟨mid, hmid, hlater⟩ := Option.bind_eq_some_iff.mp h
  refine ⟨mid, hmid, ?_, hlater⟩
  rw [runSteps_append] at hmid
  obtain ⟨before, -, hstep⟩ := Option.bind_eq_some_iff.mp hmid
  rw [runSteps_singleton] at hstep
  exact inEffect_of_effectOf hstep

/-! ## The exact account -/

/-- The account that knows the tree: what the recorded steps give, from `start`. It holds up to the
first undo. -/
def exactAccount (H : Host) (m : Mutation) (start : Fs) (cond good : Log → Prop) : Account where
  cond := cond
  good := good
  settled k fs := runSteps H (m.forward.take k) start = some fs
  mid := ForwardTo H m start
  undoing X _ _ fs := fs = X
  sweeping := SweptTo H m start

section Exact

variable {cond good : Log → Prop} (hcond : ∀ {e log}, cond (e :: log) → cond log)
  (hundo : ∀ {op fs log}, ¬ cond ((.changed .undo op, fs) :: log))

include hcond hundo

/-- The exact account obeys the laws, whatever is to be shown of the log. -/
theorem exactAccount_laws
    (hnote : ∀ {e fs log}, e.isNote = true → good log → good ((e, fs) :: log))
    (hcommit : ∀ {fs log}, (cond log → runSteps H m.forward start = some fs) → good log →
      good ((.committed, fs) :: log))
    (hrollback : ∀ {memory fs log}, committed log = false → good log →
      good ((.rollback memory, fs) :: log))
    (hback : ∀ {op fs log}, rollingBack log = true → good log →
      good ((.changed .undo op, fs) :: log))
    (habort : ∀ {fs log}, good log → good ((.aborted, fs) :: log))
    (hcomplete : ∀ {fs log},
      (cond log → (exactAccount H m start cond good).sweeping m.cleanup.length fs) → good log →
      good ((.completed, fs) :: log)) :
    (exactAccount H m start cond good).Laws H m where
  cond_tail := hcond
  mid_of_settled h := ⟨_, h, Or.inl rfl⟩
  settled_of_mid := by
    rintro fs ⟨F, hF, rfl | ⟨s, hs, -⟩⟩
    · exact hF
    · exact absurd (lt_of_getElem?_eq_some hs) (Nat.lt_irrefl _)
  mid_between := by
    rintro k s X fs hs ⟨F, hF, rfl | ⟨s', hs', hb'⟩⟩ hb
    · exact ⟨X, hF, Or.inr ⟨s, hs, hb⟩⟩
    · rw [hs] at hs'
      obtain rfl := Option.some.inj hs'
      exact ⟨F, hF, Or.inr ⟨s, hs, hb'.trans hb⟩⟩
  settled_effect := by
    rintro k s X fs hs ⟨F, hF, hX⟩ he
    show runSteps H (m.forward.take (k + 1)) start = some fs
    rw [runSteps_take_succ hs, hF]
    rcases hX with rfl | ⟨s', hs', hb⟩
    · exact he
    · rw [hs] at hs'
      obtain rfl := Option.some.inj hs'
      exact effectOf_of_between hb he
  undo_start _ _ _ := rfl
  undo_mid := by
    rintro X k i j fs - rfl h
    exact h
  undo_settled := by
    rintro X k i j fs - rfl h
    exact h
  undo_change h := absurd h hundo
  undo_done := by
    rintro X Y k i s fs - - h -
    exact h
  sweep_start := by
    intro fs h
    refine ⟨fs, fs, ?_, ?_, Or.inl rfl⟩
    · rw [← List.take_length (l := m.forward)]
      exact h
    · rw [List.take_zero]
      rfl
  sweep_between := by
    rintro c s X fs hs ⟨F, G, hF, hG, rfl | ⟨s', hs', hb'⟩⟩ hb
    · exact ⟨F, X, hF, hG, Or.inr ⟨s, hs, hb⟩⟩
    · rw [hs] at hs'
      obtain rfl := Option.some.inj hs'
      exact ⟨F, G, hF, hG, Or.inr ⟨s, hs, hb'.trans hb⟩⟩
  sweep_done := by
    rintro c s X fs hs ⟨F, G, hF, hG, hX⟩ hswept
    refine ⟨F, fs, hF, ?_, Or.inl rfl⟩
    rcases hX with rfl | ⟨s', hs', hb⟩
    · exact sweptAll_take_succ hs hG hswept
    · rw [hs] at hs'
      obtain rfl := Option.some.inj hs'
      exact sweptAll_take_succ hs hG (swept_of_sweeping hb hswept)
  good_note := hnote
  good_commit h := hcommit fun hc => by
    have := h hc
    rwa [← List.take_length (l := m.forward)]
  good_rollback := hrollback
  good_undo := hback
  good_abort _ := habort
  good_complete := hcomplete

end Exact

/-! ## Commits -/

theorem undone_tail {e : Event × Fs} {log : Log} (h : undone (e :: log) = false) :
    undone log = false := by
  unfold undone at h ⊢
  rw [List.any_cons, Bool.or_eq_false_iff] at h
  exact h.2

/-- Every commit that no undo has come before finds the tree of all forward steps. -/
def CommitsFind (H : Host) (m : Mutation) (start : Fs) (log : Log) : Prop :=
  ∀ newer older fs, log = newer ++ (.committed, fs) :: older → undone older = false →
    runSteps H m.forward start = some fs

theorem CommitsFind.cons {e : Event} {fs : Fs} {log : Log} (he : e ≠ .committed)
    (h : CommitsFind H m start log) : CommitsFind H m start ((e, fs) :: log) := by
  intro newer older fs' hsplit hu
  cases newer with
  | nil =>
    obtain ⟨hhead, -⟩ := List.cons.inj hsplit
    exact absurd (Prod.mk.inj hhead).1 he
  | cons x newer => exact h newer older fs' (List.cons.inj hsplit).2 hu

theorem commitAccount_laws : (exactAccount H m start (fun log => undone log = false)
    (CommitsFind H m start)).Laws H m := by
  refine exactAccount_laws undone_tail (fun h => by cases h)
    (fun he h => h.cons (Event.ne_committed_of_isNote he)) ?_ (fun _ h => h.cons (by simp))
    (fun _ h => h.cons (by simp)) (fun h => h.cons (by simp)) fun _ h => h.cons (by simp)
  intro fs log hc h newer older fs' hsplit hu
  cases newer with
  | nil =>
    obtain ⟨hhead, rfl⟩ := List.cons.inj hsplit
    obtain rfl := (Prod.mk.inj hhead).2
    exact hc hu
  | cons x newer => exact h newer older fs' (List.cons.inj hsplit).2 hu

/-- Whenever the commit takes effect and nothing has been undone before, every forward step is in
effect. -/
theorem commit_finds_steps_in_effect (H : Host) (m : Mutation) (start : Fs)
    (attempts : List Attempt) (newer older : Log) (fs : Fs)
    (hlog : (run H m (prepared start) attempts).log = newer ++ (.committed, fs) :: older)
    (hu : undone older = false) : AllInEffect H m.forward start fs := by
  have hinv : Inv _ m False (run H m (prepared start) attempts) :=
    (inv_prepared commitAccount_laws rfl fun newer older fs h => by simp at h).run
      commitAccount_laws attempts fun h => absurd h id
  exact allInEffect_of_runSteps (hinv.good newer older fs hlog hu)

/-! ## Renaming one file -/

/-- SHA-256 of the empty file. -/
def emptyChecksum : Text :=
  "e3b0c44298fc1c149afbf4c8996fb92427ae41e4649b934ca495991b7852b855".toList

/-- A host that knows the empty file. -/
def smallHost : Host where
  sha256 bytes := if bytes = [] then emptyChecksum else []
  directorySize _ := 0

def fileAt (name : String) : Fs where
  nodes := ⟨[([name.toList], .file [])], by simp⟩
  rooted := by simp [OrderedMap.keys]
  closed := by simp [OrderedMap.keys, dirname]

/-- The empty file `a` becomes `b`. -/
def renameStep : Step where
  id := 1
  action := .rename
  sourceKey := some ['a']
  targetKey := some ['b']
  expectedNodeType := some .file
  expectedSizeBytes := some 0
  expectedChecksum := some emptyChecksum
  treeManifestDigest := none

def renameOnly : Mutation where
  kind := .fileRename
  parentId := none
  steps := [renameStep]
  distinct := by simp

def attempt (wait : Nat) (schedule : List Fault) : Attempt where
  cleanupOnly := false
  leaseOwner := ['w']
  wait := wait
  schedule := schedule

/-- `n` calls that meet no fault, then one with the outcome `o`. -/
def faultAt (n : Nat) (o : Outcome) : List Fault :=
  List.replicate n .none ++ [{ Fault.none with outcome := o }]

/-- The first attempt renames and dies before it records the step. -/
def diedUnrecorded : List Attempt := [attempt 0 (faultAt 11 (.crashed .yes)), attempt 30000 []]

/-- The commit of the second attempt. -/
theorem commit_finds_steps_in_effect_renameOnly :
    AllInEffect smallHost renameOnly.forward (fileAt "a") (fileAt "b") :=
  commit_finds_steps_in_effect smallHost renameOnly (fileAt "a") diedUnrecorded
    ((run smallHost renameOnly (prepared (fileAt "a")) diedUnrecorded).log.take 2)
    ((run smallHost renameOnly (prepared (fileAt "a")) diedUnrecorded).log.drop 3)
    (fileAt "b") (by decide +kernel) (by decide +kernel)

example : (run smallHost renameOnly (prepared (fileAt "a")) [attempt 0 []]).row.status = .succeeded ∧
    (run smallHost renameOnly (prepared (fileAt "a")) [attempt 0 []]).fs = fileAt "b" := by
  decide +kernel

/-- The first attempt runs over the quota, renames `b` back to `a` and dies; the second one skips
the recorded step and commits. -/
def undoneThenCommitted : List Attempt :=
  [attempt 0 (faultAt 14 (.failed .no (.rejected .userStorageQuotaExceeded)) ++
    faultAt 9 (.crashed .yes)), attempt 30000 []]

theorem undoneThenCommitted_misses_step :
    (.committed, fileAt "a") ∈
        (run smallHost renameOnly (prepared (fileAt "a")) undoneThenCommitted).log ∧
      ¬ AllInEffect smallHost renameOnly.forward (fileAt "a") (fileAt "a") := by
  refine ⟨by decide +kernel, fun h => ?_⟩
  have hne : runSteps smallHost renameOnly.forward (fileAt "a") ≠ some (fileAt "a") := by
    decide +kernel
  exact hne h.1

/-! ## A late commit -/

/-- Ten attempts die right after their claim. In the eleventh the commit is given up, and takes
effect after the rollback has read the mutation and before it renames the file back. -/
def committedLate : List Attempt :=
  List.replicate 10 (attempt 30000 (faultAt 0 (.crashed .yes))) ++
    [attempt 30000 (faultAt 14 (.failed .later .other) ++ List.replicate 8 .none ++
      [{ Fault.none with deliver := true }])]

end Staaash.Journal
